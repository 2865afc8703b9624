import Mathlib.Tactic.ByContra
import ReleasePrompts.Proofs.Service.Session

/-!
# Shared loads are safe

However the tasks of a session take turns, no two loads of a version are under way at the same time,
a load under way is the one that callers join, and of a version whose prompts are kept there is none;
one who waits gets what its load ends with, whoever else is cancelled (`loads_shared`). A cache
without bound lets each version be loaded well once (`Once`). That waiters get anything needs a fair
`Schedule`: what could go on for ever gets its turn (`Fair`).
-/

namespace ReleasePrompts.Service

open Registry Prompt

variable {config : Config} {s t : Session} {action : Action}

/-! ## One success for each version -/

/-- A load of a version that has not ended. -/
def Session.Running (s : Session) (version : String) (number : Nat) : Prop :=
  ∃ load : Load, s.loads[number]? = some load ∧ load.version = version ∧ ¬load.stage.hasEnded

/-- A load of a version that ended well. -/
def Session.Succeeded (s : Session) (version : String) (number : Nat) : Prop :=
  ∃ (load : Load) (prompts : PromptSet), s.loads[number]? = some load ∧ load.version = version ∧
    load.stage = .finished prompts

/-- What holds besides where the cache keeps everything. -/
structure Once (s : Session) : Prop where
  unbounded : s.results.IsUnbounded
  kept : ∀ {version : String} {number : Nat}, s.Succeeded version number → version ∈ s.results.keys
  eq_of_succeeded : ∀ {version : String} {number other : Nat}, s.Succeeded version number →
    s.Succeeded version other → number = other

theorem once_start {state : State} (hu : state.results.IsUnbounded) : Once (.start state) where
  unbounded := hu
  kept := by simp [Session.start, Session.Succeeded]
  eq_of_succeeded := by simp [Session.start, Session.Succeeded]

/-- A cache that keeps everything keeps its keys through a step. -/
theorem Step.keeps (h : Step config s action t) (hu : s.results.IsUnbounded) :
    t.results.IsUnbounded ∧ ∀ version ∈ s.results.keys, version ∈ t.results.keys := by
  cases h with
  | call version =>
    have hr : (s.call version).results = (s.results.get version).2 := by
      rcases s.call_cases version with ⟨-, he⟩ | ⟨-, number, -, he⟩ | ⟨-, -, he⟩ <;> rw [he] <;> rfl
    rw [hr]
    exact ⟨(Cache.Store.limit?_get _ _).trans hu, fun _ => Cache.Store.mem_keys_get.mpr⟩
  | peek version =>
    exact ⟨(Cache.Store.limit?_get _ _).trans hu, fun _ => Cache.Store.mem_keys_get.mpr⟩
  | @work number load world hl hg =>
    rw [Session.results_work]
    rcases (advanced world s.toState hg).results_eq with ⟨prompts, -, hr⟩ | ⟨-, hr⟩
    · rw [hr]
      exact ⟨(Cache.Store.limit?_set _ _ _).trans hu,
        fun _ hk => (Cache.Store.mem_keys_set_of_unbounded hu).mpr (.inr hk)⟩
    · rw [hr]
      exact ⟨hu, fun _ => id⟩
  | ask | forget | cancel | deliver => exact ⟨hu, fun _ => id⟩

/-- A load that has ended well had done so before, or was under way and has put its prompts into the
cache. -/
theorem Step.succeeded (h : Step config s action t) (hu : s.results.IsUnbounded)
    {version : String} {number : Nat} (ht : t.Succeeded version number) :
    s.Succeeded version number ∨ s.Running version number ∧ version ∈ t.results.keys := by
  obtain ⟨later, prompts, hl, hv, hp⟩ := ht
  cases h with
  | call asked =>
    rcases s.call_cases asked with ⟨-, he⟩ | ⟨-, joined, -, he⟩ | ⟨-, -, he⟩
    · exact .inl ⟨later, prompts, by rw [he] at hl; exact hl, hv, hp⟩
    · exact .inl ⟨later, prompts, by rw [he] at hl; exact hl, hv, hp⟩
    · rw [he] at hl
      rcases ((s.peek asked).loads_launch asked).mp hl with hl | ⟨-, rfl⟩
      · exact .inl ⟨later, prompts, hl, hv, hp⟩
      · cases hp
  | @work worked load world hw hg =>
    rw [Session.loads_work hw hg] at hl
    split at hl
    · next hn =>
        subst hn
        cases hl
        refine .inr ⟨⟨load, hw, hv, hg.not_ended⟩, ?_⟩
        rw [Session.results_work]
        rcases (advanced world s.toState hg).results_eq with ⟨_, -, hr⟩ | ⟨hr, -⟩
        · rw [hr]
          exact (Cache.Store.mem_keys_set_of_unbounded hu).mpr (.inl hv.symm)
        · exact absurd hp (hr prompts)
    · exact .inl ⟨later, prompts, hl, hv, hp⟩
  | peek | ask | forget | cancel | deliver => exact .inl ⟨later, prompts, hl, hv, hp⟩

theorem Once.step (h : Once s) (hs : Sound s) (hstep : Step config s action t) : Once t where
  unbounded := (hstep.keeps h.unbounded).1
  kept := fun ht => by
    rcases hstep.succeeded h.unbounded ht with hold | ⟨-, hk⟩
    · exact (hstep.keeps h.unbounded).2 _ (h.kept hold)
    · exact hk
  eq_of_succeeded := fun {version number other} ht ht' => by
    have hno : ∀ {n m}, s.Running version n → ¬s.Succeeded version m := fun ⟨_, hl, hv, he⟩ hold =>
      hs.running_not_kept hl he (hv ▸ h.kept hold)
    rcases hstep.succeeded h.unbounded ht with hold | ⟨hrun, -⟩ <;>
      rcases hstep.succeeded h.unbounded ht' with hold' | ⟨hrun', -⟩
    · exact h.eq_of_succeeded hold hold'
    · exact absurd hold (hno hrun')
    · exact absurd hold' (hno hrun)
    · obtain ⟨_, hl, hv, he⟩ := hrun
      obtain ⟨_, hl', hv', he'⟩ := hrun'
      exact hs.eq_of_running hl he hl' he' (hv.trans hv'.symm)

theorem Once.of_reaches (h : Once s) (hs : Sound s) (hr : Reaches config s t) : Once t := by
  induction hr with
  | refl => exact h
  | tail hr hstep ih =>
    obtain ⟨action, hstep⟩ := hstep
    exact ih.step (hs.of_reaches hr) hstep

/-! ## Fair schedules -/

/-- Steps of a session without end. -/
structure Schedule (config : Config) where
  session : Nat → Session
  action : Nat → Action
  step : ∀ i, Step config (session i) (action i) (session (i + 1))

namespace Schedule

/-- Nothing that stays possible is put off for ever: a load that does not end gets another turn, which
ends, and one who waits for a load that has ended gets its outcome. -/
structure Fair (r : Schedule config) : Prop where
  work : ∀ i version number, (∀ j, i ≤ j → (r.session j).Running version number) →
    ∃ j, i ≤ j ∧ r.action j = .work number
  deliver : ∀ i index waiter outcome, (∀ j, i ≤ j → (r.session j).waiters[index]? = some waiter ∧
    waiter.standing = .waiting ∧ (r.session j).outcome? waiter.load = some outcome) →
    ∃ j, i ≤ j ∧ r.action j = .deliver index

variable (r : Schedule config)

theorem reaches {i j : Nat} (h : i ≤ j) : Reaches config (r.session i) (r.session j) := by
  induction h with
  | refl => exact .refl
  | step _ ih => exact ih.tail ⟨_, r.step _⟩

theorem continues {i j : Nat} (h : i ≤ j) : Continues (r.session i) (r.session j) := by
  induction h with
  | refl => exact .of_loads_eq rfl
  | step _ ih => exact ih.trans (r.step _).continues

end Schedule

/-- Its turn takes a load nearer to its end. -/
theorem Step.remaining_lt {number : Nat} (h : Step config s (.work number) t) {load : Load}
    (hl : s.loads[number]? = some load) :
    ∃ later : Load, t.loads[number]? = some later ∧
      later.stage.remaining < load.stage.remaining := by
  cases h with
  | @work _ running world hr hg =>
    obtain rfl := Option.some.inj (hl.symm.trans hr)
    exact ⟨_, (Session.loads_work hl hg number).trans (if_pos rfl),
      (advanced world s.toState hg).remaining_lt⟩

namespace Schedule

variable {r : Schedule config}

/-- On a fair schedule every load ends. -/
theorem Fair.ends (hf : r.Fair) {i number : Nat} {load : Load}
    (hl : (r.session i).loads[number]? = some load) :
    ∃ j, i ≤ j ∧ ∃ outcome, (r.session j).outcome? number = some outcome := by
  induction hn : load.stage.remaining using Nat.strongRecOn generalizing i load with
  | ind n ih =>
    by_contra hne
    -- A load that never ended would stay under way, and so get a turn: nearer to its end it ends.
    have hrun : ∀ j, i ≤ j → (r.session j).Running load.version number := fun j hij => by
      obtain ⟨later, hl', hv, -⟩ := r.continues hij number load hl
      refine ⟨later, hl', hv, fun he => hne ⟨j, hij, ?_⟩⟩
      obtain ⟨outcome, ho⟩ := Stage.hasEnded_iff_outcome.mp he
      exact ⟨outcome, Option.bind_eq_some_iff.mpr ⟨later, hl', ho⟩⟩
    obtain ⟨j, hij, ha⟩ := hf.work i load.version number hrun
    obtain ⟨middle, hm, -, hle⟩ := r.continues hij number load hl
    obtain ⟨later, hl', hlt⟩ := (ha ▸ r.step j).remaining_lt hm
    have hless : later.stage.remaining < n := by
      rcases hle with rfl | hle
      · exact hn ▸ hlt
      · exact hn ▸ Nat.lt_trans hlt hle
    obtain ⟨k, hjk, ho⟩ := ih _ hless hl' rfl
    exact hne ⟨k, by omega, ho⟩

end Schedule

/-- A step leaves a waiter alone, or it is one for this waiter. -/
theorem Step.waiter (h : Step config s action t) {index : Nat} {waiter : Waiter}
    (hw : s.waiters[index]? = some waiter) :
    action ≠ .deliver index ∧ t.waiters[index]? = some waiter ∨ action = .cancel index ∨
      action = .deliver index ∧ ∃ outcome, s.outcome? waiter.load = some outcome ∧
        t.waiters[index]? = some { waiter with standing := .received outcome } := by
  have hlen : index < s.waiters.length := (List.getElem?_eq_some_iff.mp hw).choose
  cases h with
  | call version =>
    refine .inl ⟨nofun, ?_⟩
    rcases s.call_cases version with ⟨-, he⟩ | ⟨-, number, -, he⟩ | ⟨-, -, he⟩
    · exact he ▸ hw
    · exact he ▸ (List.getElem?_append_left hlen).trans hw
    · exact he ▸ (List.getElem?_append_left hlen).trans hw
  | @cancel place other ho hs =>
    by_cases hp : place = index
    · exact .inr (.inl (hp ▸ rfl))
    · exact .inl ⟨nofun, (List.getElem?_set_ne hp).trans hw⟩
  | @deliver place other outcome ho hs hout =>
    by_cases hp : place = index
    · subst hp
      obtain rfl := Option.some.inj (hw.symm.trans ho)
      exact .inr (.inr ⟨rfl, outcome, hout, List.getElem?_set_self hlen⟩)
    · exact .inl ⟨fun e => hp (Action.deliver.inj e), (List.getElem?_set_ne hp).trans hw⟩
  | peek | ask | work | forget => exact .inl ⟨nofun, hw⟩

namespace Schedule

variable {r : Schedule config}

/-- On a fair schedule one who waits and is not cancelled gets what the load that was joined ends
with. -/
theorem Fair.receives (hf : r.Fair) {i index : Nat} {waiter : Waiter}
    (hw : (r.session i).waiters[index]? = some waiter) (hs : waiter.standing = .waiting)
    (hl : ∃ load, (r.session i).loads[waiter.load]? = some load)
    (hc : ∀ j, i ≤ j → r.action j ≠ .cancel index) :
    ∃ j, i ≤ j ∧ ∃ outcome, (r.session j).outcome? waiter.load = some outcome ∧
      (r.session j).waiters[index]? = some { waiter with standing := .received outcome } := by
  obtain ⟨load, hl⟩ := hl
  obtain ⟨ended, hie, outcome, ho⟩ := hf.ends hl
  by_contra hne
  have hwait : ∀ j, i ≤ j → (r.session j).waiters[index]? = some waiter := by
    intro j hij
    induction hij with
    | refl => exact hw
    | @step j hij ih =>
      rcases (r.step j).waiter ih with ⟨-, h⟩ | h | ⟨-, outcome, hout, hrec⟩
      · exact h
      · exact absurd h (hc j hij)
      · have hout' := (r.step j).continues.outcome hout
        exact absurd ⟨j + 1, Nat.le_succ_of_le hij, outcome, hout', hrec⟩ hne
  obtain ⟨j, hej, ha⟩ := hf.deliver ended index waiter outcome fun j hej =>
    ⟨hwait j (by omega), hs, (r.continues hej).outcome ho⟩
  rcases (r.step j).waiter (hwait j (by omega)) with ⟨h, -⟩ | h | ⟨-, outcome, hout, hrec⟩
  · exact h ha
  · exact hc j (by omega) h
  · exact hne ⟨j + 1, by omega, outcome, (r.step j).continues.outcome hout, hrec⟩

end Schedule

/-! ## All of it -/

/-- In every session at most one load of a version is under way, it is the one in flight, and none is
of a version whose prompts are kept; where the cache keeps everything, at most one load of a version
ends well. What a waiter has got is what the load ended with that was joined, and on a fair schedule
everyone gets that who is not cancelled. -/
theorem loads_shared (config : Config) (state : State) :
    (∀ s, Reaches config (.start state) s →
      (∀ version number other, s.Running version number → s.Running version other →
        number = other) ∧
      (∀ version number, s.Running version number →
        Pairs.get? s.inflight version = some number ∧ s.results.contains version = false) ∧
      (∀ waiter ∈ s.waiters,
        (∃ load, s.loads[waiter.load]? = some load ∧ load.version = waiter.version) ∧
        ∀ outcome, waiter.standing = .received outcome →
          s.outcome? waiter.load = some outcome) ∧
      (state.results.IsUnbounded → ∀ version number other, s.Succeeded version number →
        s.Succeeded version other → number = other)) ∧
    ∀ r : Schedule config, r.session 0 = .start state → r.Fair →
      ∀ i index waiter, (r.session i).waiters[index]? = some waiter → waiter.standing = .waiting →
        (∀ j, i ≤ j → r.action j ≠ .cancel index) →
        ∃ j, i ≤ j ∧ ∃ outcome, (r.session j).outcome? waiter.load = some outcome ∧
          (r.session j).waiters[index]? = some { waiter with standing := .received outcome } := by
  have hstart := sound_start state
  refine ⟨fun s hr => ?_, fun r h0 hf i index waiter hw hs hc => ?_⟩
  · have h := hstart.of_reaches hr
    refine ⟨?_, ?_, fun waiter hw => ⟨h.waiter_load hw, fun _ => h.waiter_outcome hw⟩, fun hu => ?_⟩
    · rintro version number other ⟨load, hl, hv, he⟩ ⟨rival, hl', hv', he'⟩
      exact h.eq_of_running hl he hl' he' (hv.trans hv'.symm)
    · rintro _ number ⟨load, hl, rfl, he⟩
      refine ⟨h.get?_inflight.mpr (h.running_inflight hl he), ?_⟩
      simpa [Cache.Store.contains] using h.running_not_kept hl he
    · exact fun _ _ _ => ((once_start hu).of_reaches hstart hr).eq_of_succeeded
  · have h := hstart.of_reaches (h0 ▸ r.reaches (Nat.zero_le i))
    obtain ⟨load, hl, -⟩ := h.waiter_load (List.mem_of_getElem? hw)
    exact hf.receives hw hs ⟨load, hl⟩ hc

/-! ### Two callers of an unknown version -/

/-- A service whose package has no versions. -/
def bareState : State := { metadata := some ⟨.null, [], []⟩, results := .unbounded [] }

def bareConfig : Config := { client := { package := "p" }, programFiles := [] }

/-- A world in which the registry is never reached. -/
def bareWorld : World where
  reply target := ⟨[target], .error "down"⟩

/-- What two callers ask for who share a load. The first is cancelled while the load is under way;
the load ends, the second is told so, and the load is forgotten. -/
def sharedSession : Nat → Session
  | 0 => .start bareState
  | 1 => (sharedSession 0).call "1.0.0"
  | 2 => (sharedSession 1).call "1.0.0"
  | 3 => (sharedSession 2).place 0 ⟨"1.0.0", 0, .waiting⟩ .cancelled
  | 4 => (sharedSession 3).work bareConfig bareWorld 0 ⟨"1.0.0", .begun⟩
  | 5 => (sharedSession 4).place 1 ⟨"1.0.0", 0, .waiting⟩
      (.received (.error (.failure (.unknownVersion "1.0.0"))))
  | 6 => (sharedSession 5).forget "1.0.0" 0
  | n + 7 => sharedSession (n + 6)

def sharedAction : Nat → Action
  | 0 | 1 => .call "1.0.0"
  | 2 => .cancel 0
  | 3 => .work 0
  | 4 => .deliver 1
  | 5 => .forget "1.0.0" 0
  | _ + 6 => .ask bareState.metadata []

theorem sharedSession_of_le {n : Nat} (h : 6 ≤ n) : sharedSession n = sharedSession 6 := by
  induction h with
  | refl => rfl
  | @step n h ih =>
    obtain ⟨k, rfl⟩ := Nat.exists_eq_add_of_le' h
    exact ih

def sharedSchedule : Schedule bareConfig where
  session := sharedSession
  action := sharedAction
  step
    | 0 => .call _ _
    | 1 => .call _ _
    | 2 => @Step.cancel _ (sharedSession 2) 0 _ rfl rfl
    | 3 => @Step.work _ (sharedSession 3) 0 _ _ rfl ⟨nofun, nofun⟩
    | 4 => @Step.deliver _ (sharedSession 4) 1 _ _ rfl rfl rfl
    | 5 => @Step.forget _ (sharedSession 5) _ _ (List.mem_singleton.mpr rfl)
    | n + 6 => by
      rw [sharedSession_of_le (Nat.le_add_left 6 n), sharedSession_of_le (Nat.le_add_left 6 (n + 1))]
      exact .ask (sharedSession 6) bareState.metadata []

theorem sharedSchedule_fair : sharedSchedule.Fair where
  work i version number h := by
    obtain ⟨load, hl, -, he⟩ := h (i + 6) (Nat.le_add_right i 6)
    replace hl : (sharedSession (i + 6)).loads[number]? = some load := hl
    rw [sharedSession_of_le (Nat.le_add_left 6 i)] at hl
    rcases number with _ | number
    · cases hl
      exact absurd rfl he
    · cases hl
  deliver i index waiter outcome h := by
    obtain ⟨hw, hs, -⟩ := h (i + 6) (Nat.le_add_right i 6)
    replace hw : (sharedSession (i + 6)).waiters[index]? = some waiter := hw
    rw [sharedSession_of_le (Nat.le_add_left 6 i)] at hw
    rcases index with _ | _ | index
    · cases hw
      cases hs
    · cases hw
      cases hs
    · cases hw

/-- Both callers share one load, and the one who is not cancelled is told what it ended with. -/
theorem loads_shared_between_two :
    (Pairs.get? (sharedSession 2).inflight "1.0.0" = some 0 ∧
      (sharedSession 2).results.contains "1.0.0" = false) ∧
    ∃ j, 2 ≤ j ∧ ∃ outcome, (sharedSession j).outcome? 0 = some outcome ∧
      (sharedSession j).waiters[1]? = some ⟨"1.0.0", 0, .received outcome⟩ := by
  refine ⟨((loads_shared bareConfig bareState).1 (sharedSession 2) ?_).2.1 "1.0.0" 0 ?_,
    (loads_shared bareConfig bareState).2 sharedSchedule rfl sharedSchedule_fair 2 1
      ⟨"1.0.0", 0, .waiting⟩ rfl rfl ?_⟩
  · exact sharedSchedule.reaches (Nat.zero_le 2)
  · exact ⟨⟨"1.0.0", .begun⟩, rfl, rfl, nofun⟩
  · intro j hj hc
    obtain ⟨k, rfl⟩ := Nat.exists_eq_add_of_le' hj
    rcases k with _ | _ | _ | _ | k <;> cases hc

end ReleasePrompts.Service
