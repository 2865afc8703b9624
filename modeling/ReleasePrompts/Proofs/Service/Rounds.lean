import Mathlib.Data.List.Basic
import ReleasePrompts.Proofs.Service.Session
import ReleasePrompts.Service.Request

/-!
# Rounds are sessions

A service that answers requests in rounds goes a way that a session may go: what it keeps is what is
left of a session once the loads that no one can join are left out (`Session.service`), and each of
its operations leads from one session to another (`reaches_serve`). So what holds of all sessions
holds of every service at work.
-/

namespace ReleasePrompts.Service

open Registry Prompt

variable {config : Config} {world : World} {s t : Session}

/-- The loads in flight, in the order in which they began. -/
def Session.current (s : Session) (entries : List (String × Nat)) : List Load :=
  entries.filterMap fun entry => s.loads[entry.2]?

/-- The service that a session is for those who ask it now. -/
def Session.service (s : Session) : State := { s.toState with loads := s.current s.inflight }

theorem service_start (state : State) : (Session.start state).service = { state with loads := [] } :=
  rfl

/-! ## A session may do what a service does -/

/-- From a session on which a service is based the steps lead to one for another service. -/
def Follows (config : Config) (s : Session) (state : State) : Prop :=
  ∃ t, Reaches config s t ∧ t.service = state

theorem Follows.refl (s : Session) : Follows config s s.service := ⟨s, .refl, rfl⟩

theorem Follows.bind {state next : State} (h : Follows config s state) (hs : Sound s)
    (hn : ∀ t, Sound t → t.service = state → Follows config t next) : Follows config s next := by
  obtain ⟨t, hr, ht⟩ := h
  obtain ⟨u, hr', hu⟩ := hn t (hs.of_reaches hr) ht
  exact ⟨u, hr.trans hr', hu⟩

/-- What keeps the cache and the loads is done by asking the registry. -/
theorem follows_ask {state : State} (hr : state.results = s.results)
    (hl : state.loads = s.service.loads) : Follows config s state := by
  refine ⟨_, .single ⟨_, .ask s state.metadata state.sent⟩, ?_⟩
  obtain ⟨metadata, results, loads, sent⟩ := state
  obtain rfl : results = s.results := hr
  obtain rfl : loads = s.current s.inflight := hl
  rfl

theorem any_current (h : Sound s) (version : String) :
    (s.service.loads.any fun load => load.version == version) = true ↔
      version ∈ Pairs.keys s.inflight := by
  rw [List.any_eq_true]
  constructor
  · rintro ⟨load, hl, hv⟩
    obtain ⟨⟨key, number⟩, hm, hn⟩ := List.mem_filterMap.mp hl
    obtain ⟨found, hf, hk, -⟩ := h.inflight_load hm
    obtain rfl := Option.some.inj (hn.symm.trans hf)
    exact List.mem_map.mpr ⟨_, hm, hk.symm.trans (beq_iff_eq.mp hv)⟩
  · intro hk
    obtain ⟨⟨key, number⟩, hm, rfl⟩ := List.mem_map.mp hk
    obtain ⟨found, hf, hv, -⟩ := h.inflight_load hm
    exact ⟨found, List.mem_filterMap.mpr ⟨_, hm, hf⟩, beq_iff_eq.mpr hv⟩

/-- A load that begins is in flight behind the others. -/
theorem current_launch (h : Sound s) {version : String} (hi : version ∉ Pairs.keys s.inflight) :
    (s.launch version).current (s.launch version).inflight =
      s.current s.inflight ++ [⟨version, .begun⟩] := by
  have hflight : (s.launch version).inflight = s.inflight ++ [(version, s.loads.length)] :=
    Pairs.put_of_not_mem _ hi
  have hnew : (s.launch version).loads[s.loads.length]? = some ⟨version, .begun⟩ :=
    (s.loads_launch version).mpr (.inr ⟨rfl, rfl⟩)
  have hold : ∀ entry ∈ s.inflight, (s.launch version).loads[entry.2]? = s.loads[entry.2]? := by
    intro entry hm
    obtain ⟨load, hl, -⟩ := h.inflight_load hm
    rw [hl, (s.loads_launch version).mpr (.inl hl)]
  rw [hflight, Session.current, List.filterMap_append, List.filterMap_congr hold]
  simp only [List.filterMap_cons, hnew, List.filterMap_nil]
  rfl

/-- A service joins a load, or begins one, as a call of a session does. -/
theorem service_call (h : Sound s) (version : String) :
    (s.service.join version).2 = (s.call version).service := by
  have hany := any_current h version
  have hr : s.service.results = s.results := rfl
  rcases hg : s.results.get version with ⟨_ | prompts, results⟩
  · simp only [State.join, Session.call, hr, hg]
    rcases hi : Pairs.get? s.inflight version with _ | number
    · have hk := Pairs.get?_eq_none_iff.mp hi
      rw [if_neg (mt hany.mp hk)]
      calc
        _ = { (s.peek version).service with
              loads := s.current s.inflight ++ [⟨version, .begun⟩] } := by
          simp only [Session.service, Session.peek, hg]
        _ = ((s.peek version).launch version).service :=
          congrArg (fun loads => { (s.peek version).service with loads })
            (current_launch (h.peek version) hk).symm
    · rw [if_pos (hany.mpr (List.mem_map_of_mem (f := Prod.fst) (Pairs.mem_of_get? hi)))]
      simp only [Session.service, Session.enroll, Session.peek, hg]
      rfl
  · simp only [State.join, Session.call, hg, Session.service, Session.peek]
    rfl

/-! ## Rounds -/

theorem getMetadata_withLoads (state : State) (loads : List Load) (refresh : Bool) :
    { state with loads }.getMetadata config world refresh =
      ((state.getMetadata config world refresh).1,
        { (state.getMetadata config world refresh).2 with loads }) := by
  simp only [State.getMetadata]
  split
  · rfl
  · split <;> rfl

/-- A step of a load does not look at the other loads. -/
theorem advance_withLoads (load : Load) (state : State) (loads : List Load) :
    advance config world load { state with loads } =
      ((advance config world load state).1,
        { (advance config world load state).2 with loads }) := by
  obtain ⟨version, stage⟩ := load
  cases stage with
  | begun =>
    simp only [advance, getMetadata_withLoads]
    split <;> rfl
  | located tarball =>
    simp only [advance]
    split <;> rfl
  | downloaded data =>
    simp only [advance]
    split <;> rfl
  | unpacked path source =>
    simp only [advance]
    split <;> rfl
  | finished prompts => rfl
  | failed steps problem => rfl

/-- A load takes its step, if it goes on. -/
theorem exists_advance {number : Nat} {load : Load} (hl : s.loads[number]? = some load)
    (loads : List Load) :
    ∃ t, Reaches config s t ∧ t.inflight = s.inflight ∧
      t.loads[number]? = some { load with stage := (advance config world load s.toState).1 } ∧
      (∀ other, other ≠ number → t.loads[other]? = s.loads[other]?) ∧
      (advance config world load { s.toState with loads }).2 = { t.toState with loads } := by
  by_cases hg : load.GoesOn config
  · refine ⟨_, .single ⟨_, .work world hl hg⟩, rfl, ?_, fun other ho => ?_, ?_⟩
    · exact (Session.loads_work hl hg number).trans (if_pos rfl)
    · exact (Session.loads_work hl hg other).trans (if_neg ho)
    · rw [advance_withLoads]
      rfl
  · refine ⟨s, .refl, rfl, ?_, fun _ _ => rfl, ?_⟩
    · rw [advance_of_not_goesOn world hg, hl]
    · rw [advance_of_not_goesOn world hg]

/-- The loads of different numbers may each take a step, in order. -/
theorem exists_advanceEach {entries : List (String × Nat)} (hs : Sound s)
    (hn : (entries.map Prod.snd).Nodup) (hin : ∀ entry ∈ entries, entry ∈ s.inflight)
    (loads : List Load) :
    ∃ t, Reaches config s t ∧ t.inflight = s.inflight ∧
      (∀ number, number ∉ entries.map Prod.snd → t.loads[number]? = s.loads[number]?) ∧
      advanceEach config world { s.toState with loads } (s.current entries) =
        (t.current entries, { t.toState with loads }) := by
  induction entries generalizing s with
  | nil => exact ⟨s, .refl, rfl, fun _ _ => rfl, rfl⟩
  | cons entry entries ih =>
    obtain ⟨version, number⟩ := entry
    obtain ⟨hnot, hn⟩ := List.nodup_cons.mp hn
    obtain ⟨load, hl, -⟩ := hs.inflight_load (hin _ List.mem_cons_self)
    have hcur : s.current ((version, number) :: entries) = load :: s.current entries :=
      List.filterMap_cons_some hl
    obtain ⟨u, hru, hiu, hlu, hou, hau⟩ := @exists_advance config world s number load hl loads
    obtain ⟨t, hrt, hit, hot, hat⟩ := ih (hs.of_reaches hru) hn
      (fun entry hm => hiu ▸ hin entry (List.mem_cons_of_mem _ hm))
    have hrest : u.current entries = s.current entries :=
      List.filterMap_congr fun entry hm =>
        hou _ fun e => hnot (e ▸ List.mem_map.mpr ⟨entry, hm, rfl⟩)
    refine ⟨t, hru.trans hrt, hit.trans hiu, fun other ho => ?_, ?_⟩
    · obtain ⟨hne, ho⟩ := not_or.mp (mt List.mem_cons.mpr ho)
      rw [hot other ho, hou other hne]
    · have hhead : t.loads[number]? =
          some { load with stage := (advance config world load s.toState).1 } :=
        (hot number hnot).trans hlu
      have hcons : t.current ((version, number) :: entries) =
          { load with stage := (advance config world load s.toState).1 } :: t.current entries :=
        List.filterMap_cons_some hhead
      rw [hcur, hcons]
      simp only [advanceEach]
      rw [hau, ← hrest, hat, advance_withLoads]

theorem nodup_numbers (h : Sound s) : (s.inflight.map Prod.snd).Nodup := by
  refine List.pairwise_map.mpr ((List.pairwise_map.mp h.inflight_nodup).imp_of_mem ?_)
  rintro ⟨version, number⟩ ⟨other, place⟩ hm hm' hne (rfl : number = place)
  obtain ⟨load, hl, hv, -⟩ := h.inflight_load hm
  obtain ⟨rival, hl', hv', -⟩ := h.inflight_load hm'
  obtain rfl := Option.some.inj (hl.symm.trans hl')
  exact hne (hv.symm.trans hv')

theorem follows_round (h : Sound s) : Follows config s (round config world s.service) := by
  obtain ⟨t, hr, hi, -, ha⟩ := @exists_advanceEach config world s s.inflight h (nodup_numbers h)
    (fun _ => id) (s.current s.inflight)
  refine ⟨t, hr, ?_⟩
  have hround : advanceEach config world s.service s.service.loads =
      (t.current s.inflight, { t.toState with loads := s.current s.inflight }) := ha
  rw [round, hround, Session.service, hi]

theorem follows_settle (h : Sound s) : Follows config s (settle config world s.service) := by
  have hall : ∀ (turns : List Nat) (s : Session), Sound s →
      Follows config s (turns.foldl (fun state _ => round config world state) s.service) := by
    intro turns
    induction turns with
    | nil => exact fun s _ => .refl s
    | cons _ turns ih =>
      intro s h
      refine (@follows_round config world s h).bind h fun t ht e => ?_
      rw [List.foldl_cons, ← e]
      exact ih t ht
  exact hall _ s h

/-- A round takes each load that goes on nearer to its end. -/
theorem remaining_advance {bound : Nat} {load : Load} {state : State}
    (h : load.GoesOn config → load.stage.remaining ≤ bound + 1)
    (hg : Load.GoesOn config { load with stage := (advance config world load state).1 }) :
    (advance config world load state).1.remaining ≤ bound := by
  by_cases hbefore : load.GoesOn config
  · have hlt := (advanced world state hbefore).remaining_lt
    have hle := h hbefore
    omega
  · rw [advance_of_not_goesOn world hbefore] at hg
    exact absurd hg hbefore

theorem remaining_advanceEach {bound : Nat} {state : State} {loads : List Load}
    (h : ∀ load ∈ loads, load.GoesOn config → load.stage.remaining ≤ bound + 1) :
    ∀ load ∈ (advanceEach config world state loads).1,
      load.GoesOn config → load.stage.remaining ≤ bound := by
  induction loads generalizing state with
  | nil => exact nofun
  | cons first loads ih =>
    intro load hm hg
    rcases List.mem_cons.mp hm with rfl | hm
    · exact remaining_advance (h first List.mem_cons_self) hg
    · exact ih (fun load hm => h load (List.mem_cons_of_mem _ hm)) load hm hg

/-- After four rounds no load takes another step: it has ended, or it never ends. -/
theorem not_goesOn_settle (state : State) :
    ∀ load ∈ (settle config world state).loads, ¬load.GoesOn config := by
  have hround : ∀ {bound : Nat} {state : State},
      (∀ load ∈ state.loads, load.GoesOn config → load.stage.remaining ≤ bound + 1) →
        ∀ load ∈ (round config world state).loads,
          load.GoesOn config → load.stage.remaining ≤ bound :=
    fun h => remaining_advanceEach h
  have hfirst : ∀ load ∈ state.loads, load.GoesOn config → load.stage.remaining ≤ 3 + 1 := by
    intro load _ _
    cases load.stage <;> simp [Stage.remaining]
  intro load hm hg
  have hle := hround (hround (hround (hround hfirst))) load hm hg
  exact hg.not_ended (Stage.hasEnded_iff_remaining.mpr (Nat.le_zero.mp hle))

/-- The callback of a load that has ended takes nothing out of a service but what it forgets. -/
theorem forget_service (h : Sound s) {version : String} {number : Nat} {load : Load}
    (hm : (version, number) ∈ s.inflight) (hl : s.loads[number]? = some load)
    (he : load.stage.hasEnded) : (s.forget version number).service.forget = s.service.forget := by
  have hflight : (s.forget version number).inflight = Pairs.erase s.inflight version := by
    rw [Session.forget]
    exact if_pos (h.get?_inflight.mpr hm)
  have hloads : ((s.forget version number).current (s.forget version number).inflight).filter
        (fun load => !load.stage.hasEnded) =
      (s.current s.inflight).filter fun load => !load.stage.hasEnded := by
    rw [hflight, Session.current, Session.current, Pairs.erase, List.filterMap_filter,
      List.filter_filterMap, List.filter_filterMap]
    refine List.filterMap_congr fun entry hentry => ?_
    obtain ⟨key, place⟩ := entry
    by_cases hkey : key = version
    · obtain rfl := hkey
      obtain rfl : place = number :=
        Option.some.inj ((h.get?_inflight.mpr hentry).symm.trans (h.get?_inflight.mpr hm))
      simp [hl, he, Option.filter]
    · simp only [hkey, ne_eq, not_false_eq_true, decide_true, if_true]
      rfl
  simp only [Session.service, State.forget, hloads]
  rfl

/-- The callbacks of all loads that have ended leave in flight what a service does not forget. -/
theorem follows_forget (h : Sound s) : Follows config s s.service.forget := by
  induction hn : s.inflight.length using Nat.strongRecOn generalizing s with
  | ind n ih =>
    by_cases hex : ∃ entry ∈ s.inflight, ∃ load : Load, s.loads[entry.2]? = some load ∧
        load.stage.hasEnded
    · obtain ⟨⟨version, number⟩, hm, load, hl, he⟩ := hex
      obtain ⟨found, hf, -, hc⟩ := h.inflight_load hm
      obtain rfl := Option.some.inj (hl.symm.trans hf)
      have hless : (s.forget version number).inflight.length < n := by
        rw [← hn, Session.forget]
        simp only [if_pos (h.get?_inflight.mpr hm)]
        exact List.length_filter_lt_length_iff_exists.mpr ⟨_, hm, by simp⟩
      obtain ⟨t, hr, ht⟩ := ih _ hless (h.forget (hc he)) rfl
      exact ⟨t, .head ⟨_, .forget (hc he)⟩ hr, ht.trans (forget_service h hm hl he)⟩
    · -- nothing in flight has ended, so nothing is forgotten
      have hall : s.service.forget = s.service := by
        have hloads : (s.current s.inflight).filter (fun load => !load.stage.hasEnded) =
            s.current s.inflight := by
          refine List.filter_eq_self.mpr fun load hl => ?_
          obtain ⟨entry, hm, hl⟩ := List.mem_filterMap.mp hl
          simpa using fun he => hex ⟨entry, hm, load, hl, he⟩
        simp only [State.forget, Session.service, hloads]
      exact ⟨s, .refl, hall.symm⟩

/-! ## Requests -/

/-- What asks the registry only: the cache and the loads stay. -/
structure Asks (before after : State) : Prop where
  results_eq : after.results = before.results
  loads_eq : after.loads = before.loads

theorem Asks.trans {a b c : State} (h : Asks a b) (h' : Asks b c) : Asks a c :=
  ⟨h'.results_eq.trans h.results_eq, h'.loads_eq.trans h.loads_eq⟩

theorem asks_getMetadata (state : State) (refresh : Bool) :
    Asks state (state.getMetadata config world refresh).2 :=
  ⟨state.getMetadata_results config world refresh, state.getMetadata_loads config world refresh⟩

theorem asks_latestPair (state : State) : Asks state (state.latestPair config world).2 :=
  asks_getMetadata state false

theorem asks_versionsToCompare (state : State) (base compared : Option String) :
    Asks state (state.versionsToCompare config world base compared).2 := by
  rcases base with _ | base <;> rcases compared with _ | compared
  · exact asks_latestPair state
  · exact asks_latestPair state
  · exact asks_latestPair state
  · exact ⟨rfl, rfl⟩

theorem asks_checkComparison (state : State) (base compared tab : String) :
    Asks state (state.checkComparison config world base compared tab).2 := by
  simp only [State.checkComparison]
  split
  · exact ⟨rfl, rfl⟩
  · split
    · exact ⟨rfl, rfl⟩
    · exact asks_getMetadata state false

theorem asks_fetchTarball (state : State) (version : String) (address : Option String) :
    Asks state (state.fetchTarball config world version address).2 := by
  cases address with
  | some address => exact ⟨rfl, rfl⟩
  | none =>
    have ha : Asks state (state.getMetadata config world false).2 := asks_getMetadata state false
    simp only [State.fetchTarball]
    split
    · exact ha
    · exact ⟨ha.results_eq, ha.loads_eq⟩

theorem follows_begin (h : Sound s) (request : Request) :
    Follows config s (begin config world s.service request).2 := by
  have hask : ∀ {state : State}, Asks s.service state → Follows config s state :=
    fun ha => follows_ask ha.results_eq ha.loads_eq
  cases request with
  | listVersions refresh => exact hask (asks_getMetadata _ refresh)
  | defaultPair => exact hask (asks_latestPair _)
  | loadVersion version =>
    exact ⟨_, .single ⟨_, .call s version⟩, (service_call h version).symm⟩
  | compare base compared tab =>
    have hv : Asks s.service (s.service.versionsToCompare config world base compared).2 :=
      asks_versionsToCompare _ _ _
    simp only [begin]
    split
    · exact hask hv
    · next left right _ =>
        have hc := @asks_checkComparison config world
          (s.service.versionsToCompare config world base compared).2 left right tab
        split
        · exact hask (hv.trans hc)
        · exact hask (hv.trans hc)
  | isKept version => exact ⟨_, .single ⟨_, .peek s version⟩, rfl⟩
  | download version address => exact hask (asks_fetchTarball _ version address)
  | close => exact .refl s

theorem follows_joinBoth (h : Sound s) (pending : Pending) :
    Follows config s (joinBoth s.service pending).2 := by
  cases pending with
  | checked base compared tab =>
    have hleft : Follows config s (s.service.join base).2 :=
      ⟨_, .single ⟨_, .call s base⟩, (service_call h base).symm⟩
    refine hleft.bind h fun t ht e => ?_
    exact ⟨_, .single ⟨_, .call t compared⟩, by rw [← service_call ht, e]; rfl⟩
  | answered | loading | comparing => exact .refl s

/-- What may be done for each of some values may be done for all of them. -/
theorem follows_eachWith {α β : Type} {act : State → α → β × State}
    (hact : ∀ s, Sound s → ∀ value, Follows config s (act s.service value).2) (h : Sound s)
    (values : List α) : Follows config s (eachWith act s.service values).2 := by
  induction values generalizing s with
  | nil => exact .refl s
  | cons value values ih =>
    refine (hact s h value).bind h fun t ht e => ?_
    simp only [eachWith, ← e]
    exact ih ht

/-- What a service is after it has answered requests, a session may come to. -/
theorem reaches_serve (config : Config) (world : World) (state : State) (hl : state.loads = [])
    (requests : List Request) :
    Follows config (.start state) (serve config world state requests).2 := by
  have hstart := sound_start state
  have hs : (Session.start state).service = state := by
    rw [service_start, ← hl]
  have hbegun : Follows config (.start state) (eachWith (begin config world) state requests).2 := by
    rw [← hs]
    exact follows_eachWith (fun s h => follows_begin h) hstart requests
  simp only [serve]
  have hjoined : Follows config (.start state)
      (eachWith joinBoth (eachWith (begin config world) state requests).2
        (eachWith (begin config world) state requests).1).2 :=
    hbegun.bind hstart fun s h e => by
      rw [← e]
      exact follows_eachWith (fun s h => follows_joinBoth h) h _
  refine hjoined.bind hstart fun s h e => ?_
  rw [← e]
  refine (@follows_settle config world s h).bind h fun t ht e' => ?_
  rw [← e']
  exact follows_forget ht

theorem endOf_eq {version : String} {outcome : Except Problem PromptSet} {loads : List Load}
    (hall : ∀ load ∈ loads, load.version = version → load.stage.outcome? = some outcome)
    (hex : ∃ load ∈ loads, load.version = version) (place : Nat) :
    (endOf version place loads).mapError Prod.snd = outcome := by
  induction loads generalizing place with
  | nil => obtain ⟨_, hm, -⟩ := hex; cases hm
  | cons load loads ih =>
    by_cases hv : load.version = version
    · have ho := hall load List.mem_cons_self hv
      rw [endOf, if_pos hv]
      rcases hs : load.stage with _ | _ | _ | _ | prompts | ⟨steps, problem⟩ <;> rw [hs] at ho <;>
        cases ho <;> rfl
    · rw [endOf, if_neg hv]
      refine ih (fun other hm => hall other (List.mem_cons_of_mem _ hm)) ?_ _
      obtain ⟨other, hm, ho⟩ := hex
      rcases List.mem_cons.mp hm with rfl | hm
      · exact absurd ho hv
      · exact ⟨other, hm, ho⟩

/-- What a ticket gives is what the load ended with that is in flight for its version. -/
theorem redeem_waiting (h : Sound s) {version : String} {number : Nat}
    (hi : Pairs.get? s.inflight version = some number) {outcome : Except Problem PromptSet}
    (ho : s.outcome? number = some outcome) :
    (s.service.redeem (.waiting version)).mapError Prod.snd = outcome := by
  have hm := Pairs.mem_of_get? hi
  obtain ⟨load, hl, hv, -⟩ := h.inflight_load hm
  refine endOf_eq ?_ ⟨load, List.mem_filterMap.mpr ⟨_, hm, hl⟩, hv⟩ 0
  intro other hother hov
  obtain ⟨⟨key, place⟩, hm', hl'⟩ := List.mem_filterMap.mp hother
  obtain ⟨found, hf, hk, -⟩ := h.inflight_load hm'
  obtain rfl := Option.some.inj (hl'.symm.trans hf)
  obtain rfl : key = version := hk.symm.trans hov
  obtain rfl : place = number := Option.some.inj ((h.get?_inflight.mpr hm').symm.trans hi)
  rw [Session.outcome?, hl'] at ho
  exact ho

end ReleasePrompts.Service
