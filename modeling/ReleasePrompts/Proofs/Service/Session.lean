import Mathlib.Logic.Relation
import Mathlib.Tactic.ByContra
import ReleasePrompts.Proofs.Cache.Store
import ReleasePrompts.Service.Load

/-!
# Loads in any order

A `Session` is a service at work whose requests come at any time. Each `Step` of it is the work of
one task up to where it waits: a call for the prompts of a version, a step of one load, the callback
of a load that has ended, a waiter that is cancelled or gets the outcome of its load. What holds of
the loads in every session (`Sound`) holds at the start (`sound_start`), is kept by each step
(`Sound.step`) and so holds of all that steps lead to (`Sound.of_reaches`). A load whose archive is
scanned without end (`Load.IsEndless`) takes no more steps, and never ends.
-/

namespace ReleasePrompts.Service

open Registry Prompt Web

/-- What a load ended with. -/
def Stage.outcome? : Stage → Option (Except Problem PromptSet)
  | .finished prompts => some (.ok prompts)
  | .failed _ problem => some (.error problem)
  | _ => none

/-- How many steps a load takes at most before it has ended. -/
def Stage.remaining : Stage → Nat
  | .begun => 4
  | .located _ => 3
  | .downloaded _ => 2
  | .unpacked .. => 1
  | .finished _ | .failed .. => 0

theorem Stage.hasEnded_iff_remaining {stage : Stage} : stage.hasEnded ↔ stage.remaining = 0 := by
  cases stage <;> simp [hasEnded, remaining]

theorem Stage.hasEnded_iff_outcome {stage : Stage} :
    stage.hasEnded ↔ ∃ outcome, stage.outcome? = some outcome := by
  cases stage <;> simp [hasEnded, outcome?]

/-- The scan of the archive of a load never ends. -/
def Load.IsEndless (config : Config) (load : Load) : Prop :=
  ∃ data, load.stage = .downloaded data ∧ programOf? config load.version data = none

/-- A load takes another step. -/
structure Load.GoesOn (config : Config) (load : Load) : Prop where
  not_ended : ¬load.stage.hasEnded
  not_endless : ¬load.IsEndless config

/-! ## A step of one load -/

theorem State.getMetadata_results (state : State) (config : Config) (world : World)
    (refresh : Bool) : (state.getMetadata config world refresh).2.results = state.results := by
  simp only [getMetadata]
  split
  · rfl
  · split <;> rfl

theorem State.getMetadata_loads (state : State) (config : Config) (world : World) (refresh : Bool) :
    (state.getMetadata config world refresh).2.loads = state.loads := by
  simp only [getMetadata]
  split
  · rfl
  · split <;> rfl

/-- What a step of a load may do: it takes the load nearer to its end, and a load that ends well
puts its prompts into the cache, which no other step touches. -/
structure Advanced (load : Load) (before : State) (stage : Stage) (after : State) : Prop where
  loads_eq : after.loads = before.loads
  remaining_lt : stage.remaining < load.stage.remaining
  results_eq : (∃ prompts, stage = .finished prompts ∧
      after.results = before.results.set load.version prompts) ∨
    (∀ prompts, stage ≠ .finished prompts) ∧ after.results = before.results

theorem advanced {config : Config} (world : World) {load : Load} (state : State)
    (hg : load.GoesOn config) :
    Advanced load state (advance config world load state).1 (advance config world load state).2 := by
  obtain ⟨version, stage⟩ := load
  cases stage with
  | begun =>
    have hr := state.getMetadata_results config world false
    have hl := state.getMetadata_loads config world false
    simp only [advance]
    split
    · exact ⟨hl, by simp [Stage.remaining], .inr ⟨nofun, hr⟩⟩
    · exact ⟨hl, by simp [Stage.remaining], .inr ⟨nofun, hr⟩⟩
  | located tarball =>
    simp only [advance]
    split
    · exact ⟨rfl, by simp [Stage.remaining], .inr ⟨nofun, rfl⟩⟩
    · exact ⟨rfl, by simp [Stage.remaining], .inr ⟨nofun, rfl⟩⟩
  | downloaded data =>
    simp only [advance]
    split
    · exact ⟨rfl, by simp [Stage.remaining], .inr ⟨nofun, rfl⟩⟩
    · exact ⟨rfl, by simp [Stage.remaining], .inr ⟨nofun, rfl⟩⟩
    · next hnone => exact absurd ⟨data, rfl, hnone⟩ hg.not_endless
  | unpacked path source =>
    simp only [advance]
    split
    · exact ⟨rfl, by simp [Stage.remaining], .inl ⟨_, rfl, rfl⟩⟩
    · exact ⟨rfl, by simp [Stage.remaining], .inr ⟨nofun, rfl⟩⟩
  | finished prompts => exact absurd rfl hg.not_ended
  | failed steps problem => exact absurd rfl hg.not_ended

/-- A load that takes no more steps stays where it is. -/
theorem advance_of_not_goesOn {config : Config} (world : World) {load : Load}
    (hg : ¬load.GoesOn config) (state : State) :
    advance config world load state = (load.stage, state) := by
  obtain ⟨version, stage⟩ := load
  cases stage with
  | begun => exact absurd ⟨nofun, nofun⟩ hg
  | located tarball => exact absurd ⟨nofun, nofun⟩ hg
  | downloaded data =>
    have hnone : programOf? config version data = none := by
      by_contra hsome
      refine hg ⟨nofun, ?_⟩
      rintro ⟨_, ⟨⟩, hnone⟩
      exact hsome hnone
    simp only [advance, hnone]
  | unpacked path source => exact absurd ⟨nofun, nofun⟩ hg
  | finished prompts => rfl
  | failed steps problem => rfl

/-! ## Sessions and their steps -/

/-- How one stands who waits for a load. -/
inductive Standing where
  | waiting
  | cancelled
  | received (outcome : Except Problem PromptSet)

/-- One who asked for the prompts of a version and was given a load to wait for. -/
structure Waiter where
  version : String
  load : Nat
  standing : Standing := .waiting

/-- A service at work. Its loads are all that ever began, each known by its place among them. -/
structure Session extends State where
  /-- The load of a version that others may join. -/
  inflight : List (String × Nat) := []
  /-- The loads that have ended and whose callbacks have not run. -/
  callbacks : List (String × Nat) := []
  waiters : List Waiter := []

namespace Session

/-- A session in which nothing was asked for yet. -/
def start (state : State) : Session := { state with loads := [] }

/-- What a load ended with, by its number. -/
def outcome? (s : Session) (number : Nat) : Option (Except Problem PromptSet) :=
  s.loads[number]?.bind fun load => load.stage.outcome?

/-- Asks whether the prompts of a version are kept. -/
def peek (s : Session) (version : String) : Session :=
  { s with results := (s.results.get version).2 }

/-- Lets a caller wait for a load. -/
def enroll (s : Session) (version : String) (number : Nat) : Session :=
  { s with waiters := s.waiters ++ [⟨version, number, .waiting⟩] }

/-- Begins a load, which others may join. -/
def launch (s : Session) (version : String) : Session :=
  { s with
    loads := s.loads ++ [⟨version, .begun⟩]
    inflight := Pairs.put s.inflight version s.loads.length }

/-- Asks for the prompts of a version. Unless they are kept the caller waits for the load that
others wait for, or for a new one. -/
def call (s : Session) (version : String) : Session :=
  match (s.results.get version).1 with
  | some _ => s.peek version
  | none =>
    match Pairs.get? s.inflight version with
    | some number => (s.peek version).enroll version number
    | none => ((s.peek version).launch version).enroll version s.loads.length

/-- A step of the load of a number; once the load has ended its callback is to come. -/
def work (config : Config) (world : World) (s : Session) (number : Nat) (load : Load) : Session :=
  let (stage, state) := advance config world load s.toState
  { s with
    toState := { state with loads := state.loads.set number { load with stage } }
    callbacks := if stage.hasEnded then s.callbacks ++ [(load.version, number)] else s.callbacks }

/-- The callback of a load: it can be joined no longer. -/
def forget (s : Session) (version : String) (number : Nat) : Session :=
  { s with
    inflight :=
      if Pairs.get? s.inflight version = some number then Pairs.erase s.inflight version
      else s.inflight
    callbacks := s.callbacks.erase (version, number) }

/-- Gives a waiter a standing. -/
def place (s : Session) (index : Nat) (waiter : Waiter) (standing : Standing) : Session :=
  { s with waiters := s.waiters.set index { waiter with standing } }

end Session

/-- What a task of a session does next. -/
inductive Action where
  | call (version : String)
  | peek (version : String)
  /-- Something else that asks the registry: it leaves the loads alone. -/
  | ask (metadata : Option Metadata) (sent : List Target)
  | work (number : Nat)
  | forget (version : String) (number : Nat)
  | cancel (index : Nat)
  | deliver (index : Nat)

/-- The steps of a session, in whatever order its tasks get their turns. Each step of a load may find
another world. -/
inductive Step (config : Config) : Session → Action → Session → Prop where
  | call (s : Session) (version : String) : Step config s (.call version) (s.call version)
  | peek (s : Session) (version : String) : Step config s (.peek version) (s.peek version)
  | ask (s : Session) (metadata : Option Metadata) (sent : List Target) :
    Step config s (.ask metadata sent) { s with metadata, sent }
  | work {s : Session} {number : Nat} {load : Load} (world : World)
    (hl : s.loads[number]? = some load) (hg : load.GoesOn config) :
    Step config s (.work number) (s.work config world number load)
  | forget {s : Session} {version : String} {number : Nat} (h : (version, number) ∈ s.callbacks) :
    Step config s (.forget version number) (s.forget version number)
  | cancel {s : Session} {index : Nat} {waiter : Waiter} (hw : s.waiters[index]? = some waiter)
    (hs : waiter.standing = .waiting) :
    Step config s (.cancel index) (s.place index waiter .cancelled)
  | deliver {s : Session} {index : Nat} {waiter : Waiter} {outcome : Except Problem PromptSet}
    (hw : s.waiters[index]? = some waiter) (hs : waiter.standing = .waiting)
    (ho : s.outcome? waiter.load = some outcome) :
    Step config s (.deliver index) (s.place index waiter (.received outcome))

/-- Steps lead from one session to another. -/
def Reaches (config : Config) : Session → Session → Prop :=
  Relation.ReflTransGen fun s t => ∃ action, Step config s action t

/-- What has just come stands behind all that was there. -/
theorem getElem?_snoc {α : Type} {values : List α} {last value : α} {number : Nat} :
    (values ++ [last])[number]? = some value ↔
      values[number]? = some value ∨ number = values.length ∧ value = last := by
  rcases Nat.lt_trichotomy number values.length with hn | rfl | hn
  · simp [List.getElem?_append, hn, Nat.ne_of_lt hn]
  · simp [eq_comm]
  · have hfar : number - values.length ≠ 0 := by omega
    simp [List.getElem?_append, Nat.not_lt.mpr (Nat.le_of_lt hn), hfar, Nat.ne_of_gt hn]

/-! ## What a call and a step of a load do -/

namespace Session

/-- A call finds the prompts kept, joins a load, or begins one. -/
theorem call_cases (s : Session) (version : String) :
    (version ∈ s.results.keys ∧ s.call version = s.peek version) ∨
    (version ∉ s.results.keys ∧ ∃ number, Pairs.get? s.inflight version = some number ∧
      s.call version = (s.peek version).enroll version number) ∨
    (version ∉ s.results.keys ∧ Pairs.get? s.inflight version = none ∧
      s.call version = ((s.peek version).launch version).enroll version s.loads.length) := by
  rw [← Cache.Store.get_eq_none_iff]
  rcases hg : (s.results.get version).1 with _ | prompts
  · rcases hi : Pairs.get? s.inflight version with _ | number
    · exact .inr (.inr ⟨rfl, rfl, by simp only [call, hg, hi]⟩)
    · exact .inr (.inl ⟨rfl, number, rfl, by simp only [call, hg, hi]⟩)
  · exact .inl ⟨Cache.Store.mem_keys_of_get hg, by simp only [call, hg]⟩

/-- A load that began comes behind all others. -/
theorem loads_launch (s : Session) (version : String) {number : Nat} {load : Load} :
    (s.launch version).loads[number]? = some load ↔
      s.loads[number]? = some load ∨ number = s.loads.length ∧ load = ⟨version, .begun⟩ :=
  getElem?_snoc

variable {config : Config} {world : World} {s : Session} {number : Nat} {load : Load}

theorem loads_work (hl : s.loads[number]? = some load) (hg : load.GoesOn config) (other : Nat) :
    (s.work config world number load).loads[other]? =
      if other = number then some { load with stage := (advance config world load s.toState).1 }
      else s.loads[other]? := by
  simp only [work, (advanced world s.toState hg).loads_eq, List.getElem?_set]
  by_cases h : other = number
  · subst h
    simp [(List.getElem?_eq_some_iff.mp hl).choose]
  · simp [h, Ne.symm h]

theorem results_work :
    (s.work config world number load).results = (advance config world load s.toState).2.results := rfl

theorem mem_callbacks_work {entry : String × Nat} :
    entry ∈ (s.work config world number load).callbacks ↔ entry ∈ s.callbacks ∨
      (advance config world load s.toState).1.hasEnded ∧ entry = (load.version, number) := by
  simp only [work]
  split <;> simp [*]

/-- A load that is under way after a step of a load was under way before. -/
theorem running_work (hl : s.loads[number]? = some load) (hg : load.GoesOn config) {other : Nat}
    {running : Load} (hr : (s.work config world number load).loads[other]? = some running)
    (hre : ¬running.stage.hasEnded) : ∃ old : Load, s.loads[other]? = some old ∧
      old.version = running.version ∧ ¬old.stage.hasEnded := by
  rw [loads_work hl hg] at hr
  split at hr
  · next hn =>
      cases hr
      exact ⟨load, hn ▸ hl, rfl, hg.not_ended⟩
  · exact ⟨running, hr, rfl, hre⟩

end Session

/-! ## What every session keeps of its loads -/

/-- Each load keeps its number and its version, and changes only to come nearer to its end. -/
def Continues (s t : Session) : Prop :=
  ∀ (number : Nat) (load : Load), s.loads[number]? = some load →
    ∃ later : Load, t.loads[number]? = some later ∧ later.version = load.version ∧
      (later = load ∨ later.stage.remaining < load.stage.remaining)

theorem Continues.of_loads_eq {s t : Session} (h : t.loads = s.loads) : Continues s t :=
  fun _ load hl => ⟨load, h ▸ hl, rfl, .inl rfl⟩

theorem Continues.trans {s t u : Session} (h : Continues s t) (h' : Continues t u) :
    Continues s u := by
  intro number load hl
  obtain ⟨middle, hm, hv, hc⟩ := h number load hl
  obtain ⟨later, hl', hv', hc'⟩ := h' number middle hm
  refine ⟨later, hl', hv'.trans hv, ?_⟩
  rcases hc' with rfl | hc'
  · exact hc
  · rcases hc with rfl | hc
    · exact .inr hc'
    · exact .inr (Nat.lt_trans hc' hc)

/-- A load that has ended stays as it is. -/
theorem Continues.of_ended {s t : Session} (h : Continues s t) {number : Nat} {load : Load}
    (hl : s.loads[number]? = some load) (he : load.stage.hasEnded) :
    t.loads[number]? = some load := by
  obtain ⟨later, hl', -, rfl | hc⟩ := h number load hl
  · exact hl'
  · rw [Stage.hasEnded_iff_remaining.mp he] at hc
    omega

theorem Continues.outcome {s t : Session} (h : Continues s t) {number : Nat}
    {outcome : Except Problem PromptSet} (ho : s.outcome? number = some outcome) :
    t.outcome? number = some outcome := by
  obtain ⟨load, hl, ho⟩ := Option.bind_eq_some_iff.mp ho
  have he : load.stage.hasEnded := Stage.hasEnded_iff_outcome.mpr ⟨outcome, ho⟩
  exact Option.bind_eq_some_iff.mpr ⟨load, h.of_ended hl he, ho⟩

theorem continues_launch (s : Session) (version : String) : Continues s (s.launch version) :=
  fun _ load hl => ⟨load, (s.loads_launch version).mpr (.inl hl), rfl, .inl rfl⟩

theorem continues_work {config : Config} {world : World} {s : Session} {number : Nat} {load : Load}
    (hl : s.loads[number]? = some load) (hg : load.GoesOn config) :
    Continues s (s.work config world number load) := by
  intro other old hl'
  by_cases hn : other = number
  · subst hn
    obtain rfl := Option.some.inj (hl.symm.trans hl')
    exact ⟨_, (Session.loads_work hl hg _).trans (if_pos rfl), rfl,
      .inr (advanced world s.toState hg).remaining_lt⟩
  · exact ⟨old, by rw [Session.loads_work hl hg, if_neg hn, hl'], rfl, .inl rfl⟩

theorem Step.continues {config : Config} {s t : Session} {action : Action}
    (h : Step config s action t) : Continues s t := by
  cases h with
  | call version =>
    rcases s.call_cases version with ⟨-, he⟩ | ⟨-, number, -, he⟩ | ⟨-, -, he⟩
    · exact .of_loads_eq (by rw [he]; rfl)
    · exact .of_loads_eq (by rw [he]; rfl)
    · exact he ▸ continues_launch s version
  | work world hl hg => exact continues_work hl hg
  | peek | ask | forget | cancel | deliver => exact .of_loads_eq rfl

/-- What holds of the loads of every session. -/
structure Sound (s : Session) : Prop where
  inflight_nodup : (Pairs.keys s.inflight).Nodup
  /-- A load that has not ended is the one in flight for its version. -/
  running_inflight : ∀ {number : Nat} {load : Load}, s.loads[number]? = some load →
    ¬load.stage.hasEnded → (load.version, number) ∈ s.inflight
  /-- No load is under way of a version whose prompts are kept. -/
  running_not_kept : ∀ {number : Nat} {load : Load}, s.loads[number]? = some load →
    ¬load.stage.hasEnded → load.version ∉ s.results.keys
  /-- What is in flight is a load of the version, and its callback is to come if it has ended. -/
  inflight_load : ∀ {version : String} {number : Nat}, (version, number) ∈ s.inflight →
    ∃ load : Load, s.loads[number]? = some load ∧ load.version = version ∧
      (load.stage.hasEnded → (version, number) ∈ s.callbacks)
  /-- A callback to come is that of a load which has ended. -/
  callback_load : ∀ {version : String} {number : Nat}, (version, number) ∈ s.callbacks →
    ∃ load : Load, s.loads[number]? = some load ∧ load.version = version ∧ load.stage.hasEnded
  /-- A waiter waits for a load of the version that it asked for. -/
  waiter_load : ∀ {waiter : Waiter}, waiter ∈ s.waiters →
    ∃ load : Load, s.loads[waiter.load]? = some load ∧ load.version = waiter.version
  /-- What a waiter got is what its load ended with. -/
  waiter_outcome : ∀ {waiter : Waiter} {outcome : Except Problem PromptSet}, waiter ∈ s.waiters →
    waiter.standing = .received outcome → s.outcome? waiter.load = some outcome

theorem sound_start (state : State) : Sound (.start state) where
  inflight_nodup := .nil
  running_inflight := by simp [Session.start]
  running_not_kept := by simp [Session.start]
  inflight_load := by simp [Session.start]
  callback_load := by simp [Session.start]
  waiter_load := by simp [Session.start]
  waiter_outcome := by simp [Session.start]

namespace Sound

variable {config : Config} {s t : Session}

theorem get?_inflight (h : Sound s) {version : String} {number : Nat} :
    Pairs.get? s.inflight version = some number ↔ (version, number) ∈ s.inflight :=
  Pairs.get?_eq_some_iff h.inflight_nodup

/-- Two loads of a version that both have not ended are one. -/
theorem eq_of_running (h : Sound s) {number other : Nat} {load rival : Load}
    (hl : s.loads[number]? = some load) (he : ¬load.stage.hasEnded)
    (hl' : s.loads[other]? = some rival) (he' : ¬rival.stage.hasEnded)
    (hv : load.version = rival.version) : number = other := by
  have hi := h.get?_inflight.mpr (h.running_inflight hl he)
  have hi' := h.get?_inflight.mpr (h.running_inflight hl' he')
  rw [hv, hi'] at hi
  exact (Option.some.inj hi).symm

/-- A cache with the same keys, other metadata and other targets change nothing. -/
theorem congr (h : Sound s) (hl : t.loads = s.loads) (hi : t.inflight = s.inflight)
    (hc : t.callbacks = s.callbacks) (hw : t.waiters = s.waiters)
    (hk : ∀ version, version ∈ t.results.keys ↔ version ∈ s.results.keys) : Sound t where
  inflight_nodup := hi ▸ h.inflight_nodup
  running_inflight := fun hl' he => hi ▸ h.running_inflight (hl ▸ hl') he
  running_not_kept := fun hl' he => mt (hk _).mp (h.running_not_kept (hl ▸ hl') he)
  inflight_load := fun hm => by rw [hl, hc]; exact h.inflight_load (hi ▸ hm)
  callback_load := fun hm => by rw [hl]; exact h.callback_load (hc ▸ hm)
  waiter_load := fun hm => by rw [hl]; exact h.waiter_load (hw ▸ hm)
  waiter_outcome := fun hm hr => by rw [Session.outcome?, hl]; exact h.waiter_outcome (hw ▸ hm) hr

theorem peek (h : Sound s) (version : String) : Sound (s.peek version) :=
  h.congr rfl rfl rfl rfl fun _ => Cache.Store.mem_keys_get

/-- While the loads go on, so does what is known of those who wait for them. -/
theorem waiters_of_continues (h : Sound s) (hc : Continues s t) {waiter : Waiter}
    (hw : waiter ∈ s.waiters) :
    (∃ load : Load, t.loads[waiter.load]? = some load ∧ load.version = waiter.version) ∧
      ∀ {outcome}, waiter.standing = .received outcome →
        t.outcome? waiter.load = some outcome := by
  obtain ⟨load, hl, hv⟩ := h.waiter_load hw
  obtain ⟨later, hl', hv', -⟩ := hc _ _ hl
  exact ⟨⟨later, hl', hv'.trans hv⟩, fun hr => hc.outcome (h.waiter_outcome hw hr)⟩

/-- One more waiter may wait for a load of its version. -/
theorem enroll (h : Sound s) {version : String} {number : Nat} {load : Load}
    (hl : s.loads[number]? = some load) (hv : load.version = version) :
    Sound (s.enroll version number) :=
  { h with
    waiter_load := fun hm => by
      rcases List.mem_append.mp hm with hm | hm
      · exact h.waiter_load hm
      · rw [List.mem_singleton.mp hm]
        exact ⟨load, hl, hv⟩
    waiter_outcome := fun hm hr => by
      rcases List.mem_append.mp hm with hm | hm
      · exact h.waiter_outcome hm hr
      · rw [List.mem_singleton.mp hm] at hr
        cases hr }

/-- A load of a version may begin where none is in flight and nothing is kept. -/
theorem launch (h : Sound s) {version : String} (hk : version ∉ s.results.keys)
    (hi : Pairs.get? s.inflight version = none) : Sound (s.launch version) := by
  have hv := Pairs.get?_eq_none_iff.mp hi
  have hflight : (s.launch version).inflight = s.inflight ++ [(version, s.loads.length)] :=
    Pairs.put_of_not_mem _ hv
  have hcont := continues_launch s version
  refine
    { inflight_nodup := ?_
      running_inflight := fun hl he => ?_
      running_not_kept := fun hl he => ?_
      inflight_load := fun hm => ?_
      callback_load := fun hm => ?_
      waiter_load := fun hm => (h.waiters_of_continues hcont hm).1
      waiter_outcome := fun hm => (h.waiters_of_continues hcont hm).2 }
  · rw [hflight, Pairs.keys, List.map_append]
    refine List.nodup_append.mpr ⟨h.inflight_nodup, by simp, fun key hkey other hother e => hv ?_⟩
    rw [e, List.mem_singleton.mp hother] at hkey
    exact hkey
  · rw [hflight]
    rcases (s.loads_launch version).mp hl with hl | ⟨rfl, rfl⟩
    · exact List.mem_append_left _ (h.running_inflight hl he)
    · exact List.mem_append_right _ (List.mem_singleton.mpr rfl)
  · rcases (s.loads_launch version).mp hl with hl | ⟨-, rfl⟩
    · exact h.running_not_kept hl he
    · exact hk
  · rw [hflight] at hm
    rcases List.mem_append.mp hm with hm | hm
    · obtain ⟨load, hl, hv, hc⟩ := h.inflight_load hm
      exact ⟨load, (s.loads_launch version).mpr (.inl hl), hv, hc⟩
    · cases List.mem_singleton.mp hm
      exact ⟨⟨version, .begun⟩, (s.loads_launch version).mpr (.inr ⟨rfl, rfl⟩), rfl,
        fun e => absurd e Bool.false_ne_true⟩
  · obtain ⟨load, hl, hv, he⟩ := h.callback_load hm
    exact ⟨load, (s.loads_launch version).mpr (.inl hl), hv, he⟩

theorem call (h : Sound s) (version : String) : Sound (s.call version) := by
  have hp := h.peek version
  have hk : version ∈ (s.peek version).results.keys ↔ version ∈ s.results.keys :=
    Cache.Store.mem_keys_get
  rcases s.call_cases version with ⟨-, he⟩ | ⟨-, number, hi, he⟩ | ⟨hn, hi, he⟩
  · exact he ▸ hp
  · obtain ⟨load, hl, hv, -⟩ := h.inflight_load (Pairs.mem_of_get? hi)
    exact he ▸ hp.enroll hl hv
  · have hl : ((s.peek version).launch version).loads[s.loads.length]? = some ⟨version, .begun⟩ :=
      ((s.peek version).loads_launch version).mpr (.inr ⟨rfl, rfl⟩)
    exact he ▸ (hp.launch (mt hk.mp hn) hi).enroll hl rfl

/-- A load goes on. Of its version no other load is under way, so what it may put into the cache
concerns none. -/
theorem work (h : Sound s) (config : Config) (world : World) {number : Nat} {load : Load}
    (hl : s.loads[number]? = some load) (hg : load.GoesOn config) :
    Sound (s.work config world number load) := by
  have hcont : Continues s (s.work config world number load) := continues_work hl hg
  have hloads := @Session.loads_work config world s number load hl hg
  have hadv := advanced world s.toState hg
  refine
    { inflight_nodup := h.inflight_nodup
      running_inflight := @fun other running hr hre => ?_
      running_not_kept := @fun other running hr hre => ?_
      inflight_load := @fun version other hm => ?_
      callback_load := @fun version other hm => ?_
      waiter_load := fun hm => (h.waiters_of_continues hcont hm).1
      waiter_outcome := fun hm => (h.waiters_of_continues hcont hm).2 }
  · obtain ⟨old, ho, hv, hoe⟩ := Session.running_work hl hg hr hre
    exact hv ▸ h.running_inflight ho hoe
  · obtain ⟨old, ho, hv, hoe⟩ := Session.running_work hl hg hr hre
    have hk := h.running_not_kept ho hoe
    rw [hv] at hk
    rw [Session.results_work]
    rcases hadv.results_eq with ⟨prompts, hs, hres⟩ | ⟨-, hres⟩
    · -- The load that ended well was the only one of its version.
      rw [hres]
      intro hset
      rcases Cache.Store.mem_keys_of_set hset with hver | hold
      · obtain rfl := h.eq_of_running ho hoe hl hg.not_ended (hv.trans hver)
        rw [hloads, if_pos rfl] at hr
        cases hr
        exact hre (hs ▸ rfl)
      · exact hk hold
    · exact hres ▸ hk
  · obtain ⟨old, ho, hv, hc⟩ := h.inflight_load hm
    rw [hloads]
    split
    · next hn =>
        subst hn
        obtain rfl := Option.some.inj (hl.symm.trans ho)
        exact ⟨_, rfl, hv, fun hre => Session.mem_callbacks_work.mpr (.inr ⟨hre, by rw [hv]⟩)⟩
    · exact ⟨old, ho, hv, fun hre => Session.mem_callbacks_work.mpr (.inl (hc hre))⟩
  · rw [hloads]
    rcases Session.mem_callbacks_work.mp hm with hm | ⟨hre, hm⟩
    · obtain ⟨old, ho, hv, hoe⟩ := h.callback_load hm
      have hn : other ≠ number := by
        rintro rfl
        exact hg.not_ended (Option.some.inj (hl.symm.trans ho) ▸ hoe)
      exact ⟨old, (if_neg hn).trans ho, hv, hoe⟩
    · cases hm
      exact ⟨_, if_pos rfl, rfl, hre⟩

/-- The callback of a load takes it, and nothing else, out of those in flight. -/
theorem mem_inflight_forget (h : Sound s) {version : String} {number : Nat}
    {entry : String × Nat} : entry ∈ (s.forget version number).inflight ↔
      entry ∈ s.inflight ∧ entry ≠ (version, number) := by
  obtain ⟨other, place⟩ := entry
  simp only [Session.forget]
  split
  · next hg =>
      rw [Pairs.mem_erase]
      refine and_congr_right fun hm => not_congr ⟨?_, fun e => congrArg Prod.fst e⟩
      rintro rfl
      exact congrArg _ (Option.some.inj ((h.get?_inflight.mpr hm).symm.trans hg))
  · next hg => exact ⟨fun hm => ⟨hm, fun e => hg (h.get?_inflight.mpr (e ▸ hm))⟩, And.left⟩

/-- When the callback of a load runs, no load under way loses its place. -/
theorem forget (h : Sound s) {version : String} {number : Nat}
    (hc : (version, number) ∈ s.callbacks) : Sound (s.forget version number) := by
  obtain ⟨ended, hl, -, he⟩ := h.callback_load hc
  have hsub : (Pairs.keys (s.forget version number).inflight).Nodup := by
    simp only [Session.forget]
    split
    · exact (Pairs.keys_erase_sublist s.inflight version).nodup h.inflight_nodup
    · exact h.inflight_nodup
  refine { h with
    inflight_nodup := hsub
    running_inflight := fun hr hre =>
      h.mem_inflight_forget.mpr ⟨h.running_inflight hr hre, fun e => ?_⟩
    inflight_load := fun hm => ?_
    callback_load := fun hm => h.callback_load (List.mem_of_mem_erase hm) }
  · cases e
    exact hre (Option.some.inj (hl.symm.trans hr) ▸ he)
  · obtain ⟨hm, hne⟩ := h.mem_inflight_forget.mp hm
    obtain ⟨load, hl, hv, hcb⟩ := h.inflight_load hm
    exact ⟨load, hl, hv, fun hre => (List.mem_erase_of_ne hne).mpr (hcb hre)⟩

/-- A waiter may be cancelled, and get the outcome of its load. -/
theorem place (h : Sound s) {index : Nat} {waiter : Waiter} {standing : Standing}
    (hw : s.waiters[index]? = some waiter)
    (hs : ∀ {outcome}, standing = .received outcome → s.outcome? waiter.load = some outcome) :
    Sound (s.place index waiter standing) := by
  have hload := h.waiter_load (List.mem_of_getElem? hw)
  refine { h with waiter_load := fun hm' => ?_, waiter_outcome := fun hm' hr => ?_ }
  · rcases List.mem_or_eq_of_mem_set hm' with hm' | rfl
    · exact h.waiter_load hm'
    · exact hload
  · rcases List.mem_or_eq_of_mem_set hm' with hm' | rfl
    · exact h.waiter_outcome hm' hr
    · exact hs hr

/-- Each step of a session keeps its loads sound. -/
theorem step (h : Sound s) {action : Action} (hs : Step config s action t) : Sound t := by
  cases hs with
  | call version => exact h.call version
  | peek version => exact h.peek version
  | ask metadata sent => exact h.congr rfl rfl rfl rfl fun _ => .rfl
  | work world hl hg => exact h.work config world hl hg
  | forget hc => exact h.forget hc
  | cancel hw => exact h.place hw nofun
  | deliver hw hs ho => exact h.place hw fun hr => by cases hr; exact ho

theorem of_reaches (h : Sound s) (hr : Reaches config s t) : Sound t := by
  induction hr with
  | refl => exact h
  | tail _ hs ih =>
    obtain ⟨action, hs⟩ := hs
    exact ih.step hs

end Sound

end ReleasePrompts.Service
