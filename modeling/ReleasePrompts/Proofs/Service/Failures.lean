import ReleasePrompts.Proofs.Service.Answers
import ReleasePrompts.Proofs.Service.Rounds

/-!
# Failures leave no trace

A load that fails has changed neither the cache, down to the order in which it would give up its
entries, nor which loads can be joined, so that the next one who asks for the version begins a load
anew (`Alone.of_failed`, `load_failed`). A comparison that is refused never asks for prompts: without
a tab, or of a version with itself, it changes nothing at all, and of versions that are not both
published it asks for the metadata only (`failures_leave_no_trace`).
-/

namespace ReleasePrompts.Service

open Registry Prompt

variable {config : Config} {world : World} {version : String}

/-! ## A load that no other disturbs -/

section

variable {s t u : Session} {problem : Problem}

/-- What a task does that does not look for prompts. -/
def Action.IsQuiet : Action → Prop
  | .call _ | .peek _ => False
  | _ => True

/-- Steps lead from one session to another while no one looks for prompts. -/
def ReachesQuietly (config : Config) : Session → Session → Prop :=
  Relation.ReflTransGen fun s t => ∃ action : Action, action.IsQuiet ∧ Step config s action t

/-- A session behind one in which no load was under way, where the only load since is that of a
version: the cache has changed only if it ended well. -/
structure Alone (s : Session) (version : String) (t : Session) : Prop where
  sound : Sound t
  inflight_eq : ∀ {entry}, entry ∈ t.inflight → entry = (version, s.loads.length)
  ended : ∀ {number : Nat} {load : Load}, t.loads[number]? = some load →
    number ≠ s.loads.length → load.stage.hasEnded
  results_eq : t.results = s.results ∨ ∃ prompts, t.outcome? s.loads.length = some (.ok prompts)

/-- Who asks for a version that is not kept while no load is under way begins one. -/
theorem call_of_idle (hidle : s.inflight = []) (hmiss : version ∉ s.results.keys) :
    s.call version = (s.launch version).enroll version s.loads.length := by
  have hget := Cache.Store.get_of_not_mem hmiss
  have hpeek : s.peek version = s := by rw [Session.peek, hget]
  have hnone : Pairs.get? s.inflight version = none := by rw [hidle]; rfl
  simp only [Session.call, hget, hnone, hpeek]

theorem alone_call (hs : Sound s) (hidle : s.inflight = []) (hmiss : version ∉ s.results.keys) :
    Alone s version (s.call version) where
  sound := hs.call version
  inflight_eq := fun {entry} hm => by
    rw [call_of_idle hidle hmiss] at hm
    have hflight : (s.launch version).inflight = [(version, s.loads.length)] := by
      rw [Session.launch, hidle]
      rfl
    exact List.mem_singleton.mp (hflight ▸ hm)
  ended := fun {number load} hl hne => by
    rw [call_of_idle hidle hmiss] at hl
    rcases (s.loads_launch version).mp hl with hl | ⟨hn, -⟩
    · by_contra he
      have hm := hs.running_inflight hl he
      rw [hidle] at hm
      cases hm
    · exact absurd hn hne
  results_eq := .inl (by rw [call_of_idle hidle hmiss]; rfl)

/-- Nothing but its own steps disturbs the load. -/
theorem Alone.step (h : Alone s version t) {action : Action} (hquiet : action.IsQuiet)
    (hstep : Step config t action u) : Alone s version u := by
  have hsound := h.sound.step hstep
  have hcontinues := hstep.continues
  have hkept : u.results = t.results → u.results = s.results ∨
      ∃ prompts, u.outcome? s.loads.length = some (.ok prompts) := fun he =>
    h.results_eq.imp he.trans fun ⟨prompts, ho⟩ => ⟨prompts, hcontinues.outcome ho⟩
  cases hstep with
  | call | peek => cases hquiet
  | ask => exact ⟨hsound, h.inflight_eq, h.ended, hkept rfl⟩
  | cancel | deliver => exact ⟨hsound, h.inflight_eq, h.ended, hkept rfl⟩
  | forget hc =>
    exact ⟨hsound, fun hm => h.inflight_eq (h.sound.mem_inflight_forget.mp hm).1, h.ended, hkept rfl⟩
  | @work number load world hl hg =>
    have hnumber : number = s.loads.length := by
      by_contra hne
      exact hg.not_ended (h.ended hl hne)
    have hloads := @Session.loads_work config world t number load hl hg
    refine ⟨hsound, h.inflight_eq, fun {other later} hl' hne => ?_, ?_⟩
    · rw [hloads, if_neg (hnumber ▸ hne)] at hl'
      exact h.ended hl' hne
    · rcases (advanced world t.toState hg).results_eq with ⟨prompts, hp, -⟩ | ⟨-, hr⟩
      · refine .inr ⟨prompts, ?_⟩
        rw [Session.outcome?, hloads, if_pos hnumber.symm, Option.bind_some, hp]
        rfl
      · exact hkept hr

theorem Alone.of_reaches (h : Alone s version t) (hr : ReachesQuietly config t u) :
    Alone s version u := by
  induction hr with
  | refl => exact h
  | tail _ hstep ih =>
    obtain ⟨action, hquiet, hstep⟩ := hstep
    exact ih.step hquiet hstep

/-- Once it has failed and its callback has run, nothing is left of the load. -/
theorem Alone.of_failed (h : Alone s version t)
    (ho : t.outcome? s.loads.length = some (.error problem))
    (hc : (version, s.loads.length) ∉ t.callbacks) : t.results = s.results ∧ t.inflight = [] := by
  constructor
  · rcases h.results_eq with hr | ⟨prompts, hp⟩
    · exact hr
    · rw [ho] at hp
      cases hp
  · refine List.eq_nil_iff_forall_not_mem.mpr fun entry hm => ?_
    obtain rfl := h.inflight_eq hm
    obtain ⟨load, hl, -, hcallback⟩ := h.sound.inflight_load hm
    rw [Session.outcome?, hl] at ho
    exact hc (hcallback (Stage.hasEnded_iff_outcome.mpr ⟨_, ho⟩))

end

/-! ## A request for prompts -/

section

variable {state : State} {problem : Problem}

/-- Who asks a service without loads for a version that is not kept begins one. -/
theorem join_of_idle (hidle : state.loads = []) (hmiss : version ∉ state.results.keys) :
    state.join version =
      (.waiting version, { state with loads := [⟨version, .begun⟩] }) := by
  simp only [State.join, Cache.Store.get_of_not_mem hmiss, hidle, List.any_nil, Bool.false_eq_true,
    if_false, List.nil_append]

/-- A service with a load of one version, which has changed the cache only if it ended well. -/
def HasOneLoad (version : String) (results : Cache.Store String PromptSet) (state : State) : Prop :=
  ∃ stage, state.loads = [⟨version, stage⟩] ∧
    (state.results = results ∨ ∃ prompts, stage = .finished prompts)

theorem HasOneLoad.round {results : Cache.Store String PromptSet}
    (h : HasOneLoad version results state) : HasOneLoad version results (round config world state) := by
  obtain ⟨stage, hloads, hresults⟩ := h
  refine ⟨(advance config world ⟨version, stage⟩ state).1, ?_, ?_⟩
  · simp only [Service.round, hloads, advanceEach]
  · simp only [Service.round, hloads, advanceEach]
    by_cases hg : Load.GoesOn config ⟨version, stage⟩
    · rcases (advanced world state hg).results_eq with ⟨prompts, hp, -⟩ | ⟨-, hr⟩
      · exact .inr ⟨prompts, hp⟩
      · refine .inl (hr.trans (hresults.resolve_right fun hfinished => hg.not_ended ?_))
        obtain ⟨prompts, rfl⟩ := hfinished
        rfl
    · rwa [advance_of_not_goesOn world hg]

theorem HasOneLoad.settle {results : Cache.Store String PromptSet}
    (h : HasOneLoad version results state) :
    HasOneLoad version results (settle config world state) :=
  h.round.round.round.round

/-- A request for prompts that fails leaves the cache as it is, which does not hold the version, and no
load behind. -/
theorem load_failed (hidle : state.loads = [])
    (h : (serveOne config world state (.loadVersion version)).1 = .error problem)
    (hproblem : problem ≠ .unanswered) :
    version ∉ state.results.keys ∧
      (serveOne config world state (.loadVersion version)).2.results = state.results ∧
      (serveOne config world state (.loadVersion version)).2.loads = [] := by
  have hmiss : version ∉ state.results.keys := by
    rcases hget : state.results.get version with ⟨_ | prompts, results⟩
    · exact Cache.Store.get_eq_none_iff.mp (congrArg Prod.fst hget)
    · simp only [serveOne, begin, joinBoth, State.join, hget, Service.answer, State.redeem] at h
      cases h
  have hone : HasOneLoad version state.results { state with loads := [⟨version, .begun⟩] } :=
    ⟨.begun, rfl, .inl rfl⟩
  obtain ⟨stage, hloads, hresults⟩ := @HasOneLoad.settle config world _ _ _ hone
  simp only [serveOne, begin, joinBoth, join_of_idle hidle hmiss, Service.answer, State.redeem,
    hloads, endOf, if_true, State.forget] at h ⊢
  -- a load that has not ended gives no answer, and one that ended well gives no problem
  cases stage with
  | failed steps other =>
    refine ⟨hmiss, hresults.resolve_right ?_, rfl⟩
    simp
  | finished prompts => cases h
  | _ =>
    cases h
    exact absurd rfl hproblem

/-! ## Comparisons that are refused -/

/-- A service with nothing under way has nothing to settle. -/
theorem forget_settle_of_idle (hidle : state.loads = []) :
    (settle config world state).forget = state := by
  have hsettle : settle config world state = state :=
    settle_of_not_goesOn (by rw [hidle]; exact nofun)
  rw [hsettle, State.forget, hidle, List.filter_nil, ← hidle]

theorem getMetadata_sent (state : State) :
    (state.getMetadata config world false).2.sent =
      state.sent ++ metadataTargets config world state.metadata := by
  obtain ⟨metadata, results, loads, sent⟩ := state
  cases metadata with
  | some metadata => exact (List.append_nil sent).symm
  | none =>
    simp only [State.getMetadata, Bool.false_eq_true, if_false, metadataTargets]
    split <;> rfl

theorem tabOf_of_unknown {tab : String} (h : Name.ofKey? tab = none) :
    tabOf tab = .error (.unknownTab tab) := by
  rw [tabOf, h]

theorem tabOf_of_known {tab : String} (h : (Name.ofKey? tab).isSome) :
    ∃ name, tabOf tab = .ok name := by
  obtain ⟨name, hname⟩ := Option.isSome_iff_exists.mp h
  exact ⟨name, by rw [tabOf, hname]⟩

theorem tarballOf_of_not_has {metadata : Metadata} (h : metadata.has version = false) :
    tarballOf metadata version = .error (.unknownVersion version) := by
  rw [tarballOf, Option.not_isSome_iff_eq_none.mp (Bool.eq_false_iff.mp h)]

theorem tarballOf_of_has {metadata : Metadata} (h : metadata.has version = true) :
    ∃ tarball, tarballOf metadata version = .ok tarball := by
  obtain ⟨tarball, htarball⟩ := Option.isSome_iff_exists.mp h
  exact ⟨tarball, by rw [tarballOf, htarball]⟩

/-- A comparison is refused where not both versions are published, or the metadata cannot be had. -/
theorem checkComparison_of_unpublished {base compared tab : String}
    (htab : (Name.ofKey? tab).isSome) (hne : base ≠ compared)
    (h : ∀ metadata, (state.getMetadata config world false).1 = .ok metadata →
      ¬(metadata.has base ∧ metadata.has compared)) :
    ∃ failure, state.checkComparison config world base compared tab =
        (.error failure, (state.getMetadata config world false).2) ∧
      ∀ metadata, (state.getMetadata config world false).1 = .ok metadata →
        failure = .unknownVersion (if metadata.has base then compared else base) := by
  obtain ⟨name, hname⟩ := tabOf_of_known htab
  simp only [State.checkComparison, hname, if_neg hne]
  cases hm : (state.getMetadata config world false).1 with
  | error failure => exact ⟨failure, rfl, by rintro _ ⟨⟩⟩
  | ok metadata =>
    cases hbase : metadata.has base with
    | false =>
      refine ⟨.unknownVersion base, ?_, ?_⟩
      · simp only [bind, Except.bind, tarballOf_of_not_has hbase]
        rfl
      · rintro _ ⟨⟩
        rw [hbase]
        rfl
    | true =>
      obtain ⟨tarball, htarball⟩ := tarballOf_of_has hbase
      have hcompared : metadata.has compared = false :=
        Bool.eq_false_iff.mpr fun hcompared => h metadata hm ⟨hbase, hcompared⟩
      refine ⟨.unknownVersion compared, ?_, ?_⟩
      · simp only [bind, Except.bind, htarball, tarballOf_of_not_has hcompared]
        rfl
      · rintro _ ⟨⟩
        rw [hbase]
        rfl

end

/-! ## All of it -/

/-- Where no load is under way, a load that fails, whatever world each of its steps finds, leaves
the cache and the loads in flight as they were, and the next call begins a load anew. A comparison
that is refused leaves them too: without a tab or of a version with itself nothing changes at all,
and of versions that are not both published the metadata are asked for, and nothing else. -/
theorem failures_leave_no_trace (config : Config) :
    (∀ state s, Reaches config (.start state) s → s.inflight = [] →
      ∀ version, version ∉ s.results.keys → ∀ t problem, ReachesQuietly config (s.call version) t →
        t.outcome? s.loads.length = some (.error problem) →
        (version, s.loads.length) ∉ t.callbacks →
        t.results = s.results ∧ t.inflight = s.inflight ∧
          t.call version = (t.launch version).enroll version t.loads.length) ∧
    ∀ world state, state.loads = [] →
      (∀ version problem, (serveOne config world state (.loadVersion version)).1 = .error problem →
        problem ≠ .unanswered → ∃ after, (serveOne config world state (.loadVersion version)).2 = after ∧
          after.results = state.results ∧ after.loads = state.loads ∧
          ∀ config world, begin config world after (.loadVersion version) =
            (.loading (.waiting version), { after with loads := [⟨version, .begun⟩] })) ∧
      (∀ base compared tab, Name.ofKey? tab = none →
        serveOne config world state (.compare (some base) (some compared) tab) =
          (.error (.failure (.unknownTab tab)), state)) ∧
      (∀ version tab, (Name.ofKey? tab).isSome →
        serveOne config world state (.compare (some version) (some version) tab) =
          (.error (.failure .sameVersion), state)) ∧
      ∀ base compared tab, (Name.ofKey? tab).isSome → base ≠ compared →
        (∀ metadata, (state.getMetadata config world false).1 = .ok metadata →
          ¬(metadata.has base ∧ metadata.has compared)) →
        ∃ failure after, serveOne config world state (.compare (some base) (some compared) tab) =
            (.error (.failure failure), after) ∧
          (∀ metadata, (state.getMetadata config world false).1 = .ok metadata →
            failure = .unknownVersion (if metadata.has base then compared else base)) ∧
          after.results = state.results ∧ after.loads = state.loads ∧
          after.sent = state.sent ++ metadataTargets config world state.metadata := by
  refine ⟨fun state s hr hidle version hmiss t problem ht ho hc => ?_, fun world state hidle =>
    ⟨fun version problem h hproblem => ?_, fun base compared tab htab => ?_, fun version tab htab => ?_,
      fun base compared tab htab hne h => ?_⟩⟩
  · have hs : Sound s := (sound_start state).of_reaches hr
    obtain ⟨hresults, hinflight⟩ := ((alone_call hs hidle hmiss).of_reaches ht).of_failed ho hc
    exact ⟨hresults, hinflight.trans hidle.symm, call_of_idle hinflight (hresults ▸ hmiss)⟩
  · obtain ⟨hmiss, hresults, hloads⟩ := load_failed hidle h hproblem
    refine ⟨_, rfl, hresults, hloads.trans hidle.symm, fun config world => ?_⟩
    simp only [begin, join_of_idle hloads (hresults ▸ hmiss)]
  · have hcheck : state.checkComparison config world base compared tab =
        (.error (.unknownTab tab), state) := by
      rw [State.checkComparison, tabOf_of_unknown htab]
    rw [serveOne_of_refused hcheck, forget_settle_of_idle hidle]
  · obtain ⟨name, hname⟩ := tabOf_of_known htab
    have hcheck : state.checkComparison config world version version tab =
        (.error .sameVersion, state) := by
      rw [State.checkComparison, hname]
      exact if_pos rfl
    rw [serveOne_of_refused hcheck, forget_settle_of_idle hidle]
  · obtain ⟨failure, hcheck, hfailure⟩ := checkComparison_of_unpublished htab hne h
    have hloads := (state.getMetadata_loads config world false).trans hidle
    rw [serveOne_of_refused hcheck, forget_settle_of_idle hloads]
    exact ⟨failure, _, rfl, hfailure, state.getMetadata_results config world false,
      hloads.trans hidle.symm, getMetadata_sent state⟩

/-- A service that keeps the prompts of one version, of a package whose versions are all withdrawn. -/
def withdrawnState : State where
  metadata := some ⟨.null, [], []⟩
  results := (Cache.Store.ofLimit 2).set "0.9.0" ⟨"0.9.0", "cli.js", []⟩

def withdrawnConfig : Config := { client := { package := "p" }, programFiles := [] }

/-- A load of a withdrawn version fails at its first step. It may be asked for again, and the version
that is kept can be compared neither with it nor with itself. -/
theorem failures_leave_no_trace_of_withdrawn :
    ∃ world : World,
    (∃ t problem, ReachesQuietly withdrawnConfig ((Session.start withdrawnState).call "1.0.0") t ∧
      t.outcome? 0 = some (.error problem) ∧ t.results = withdrawnState.results ∧ t.inflight = [] ∧
      t.call "1.0.0" = (t.launch "1.0.0").enroll "1.0.0" t.loads.length) ∧
    (∃ after, (serveOne withdrawnConfig world withdrawnState (.loadVersion "1.0.0")).2 = after ∧
      after.results = withdrawnState.results) ∧
    serveOne withdrawnConfig world withdrawnState (.compare (some "0.9.0") (some "1.0.0") "sistem") =
      (.error (.failure (.unknownTab "sistem")), withdrawnState) ∧
    serveOne withdrawnConfig world withdrawnState (.compare (some "0.9.0") (some "0.9.0") "bash") =
      (.error (.failure .sameVersion), withdrawnState) ∧
    ∃ after, serveOne withdrawnConfig world withdrawnState
        (.compare (some "0.9.0") (some "1.0.0") "bash") =
      (.error (.failure (.unknownVersion "0.9.0")), after) ∧
      after.results = withdrawnState.results ∧ after.sent = [] := by
  let world : World := { reply := fun target => ⟨[target], .error "down"⟩ }
  let s := Session.start withdrawnState
  obtain ⟨hsession, hserve⟩ := failures_leave_no_trace withdrawnConfig
  obtain ⟨hload, htab, hsame, hunpublished⟩ := hserve world withdrawnState rfl
  have hmiss : "1.0.0" ∉ s.results.keys := by decide +kernel
  let begun := (s.launch "1.0.0").enroll "1.0.0" 0
  have hcall : s.call "1.0.0" = begun := call_of_idle rfl hmiss
  let failed := begun.work withdrawnConfig world 0 ⟨"1.0.0", .begun⟩
  have hreaches : ReachesQuietly withdrawnConfig (s.call "1.0.0") (failed.forget "1.0.0" 0) := by
    rw [hcall]
    exact .tail (.single ⟨.work 0, trivial, .work world rfl ⟨by decide, by simp [Load.IsEndless]⟩⟩)
      ⟨.forget "1.0.0" 0, trivial, .forget (List.mem_singleton.mpr rfl)⟩
  obtain ⟨hresults, hinflight, hagain⟩ := hsession withdrawnState s .refl rfl "1.0.0" hmiss
    (failed.forget "1.0.0" 0) (.failure (.unknownVersion "1.0.0")) hreaches rfl List.not_mem_nil
  obtain ⟨after, hafter, hkept, -⟩ := hload "1.0.0" (.failure (.unknownVersion "1.0.0")) rfl (by simp)
  obtain ⟨failure, refused, hrefused, hfailure, hkept', -, hsent⟩ :=
    hunpublished "0.9.0" "1.0.0" "bash" rfl (by decide) fun metadata hm hhas => by
      cases hm
      cases hhas.1
  obtain rfl := hfailure _ rfl
  exact ⟨world, ⟨_, _, hreaches, rfl, hresults, hinflight, hagain⟩, ⟨after, hafter, hkept⟩,
    htab "0.9.0" "1.0.0" "sistem" (by decide), hsame "0.9.0" "bash" rfl,
    refused, hrefused, hkept', hsent⟩

end ReleasePrompts.Service
