import Mathlib.Data.List.Basic
import Mathlib.Logic.Function.Iterate
import ReleasePrompts.Proofs.Service.Rounds

/-!
# Loads from a registry that stays the same

As long as the registry stays the same, what comes of the load of a version can be said without a
service (`loadDirectly`), and a service whose metadata and prompts are those of the registry
(`Truthful`) can but find the same. Its loads go through their stages side by side (`loadsAfter`),
behind those that take no more steps, so that all there is to know of what `settle` does is
`settle_loadsAfter`.
-/

namespace ReleasePrompts.Service

open Document Registry Prompt Web

variable {config : Config} {world : World} {state : State} {version : String}

/-! ## What the registry has -/

/-- The metadata that the registry gives to everyone who asks. -/
def published (config : Config) (world : World) : Except Failure Metadata :=
  (config.client.fetchMetadata world.reply).outcome

/-- The tarball of a version that the registry names. -/
def located (config : Config) (world : World) (version : String) : Except Failure Value :=
  (published config world).bind (tarballOf · version)

/-- What is asked for by the download of a version. -/
def tarballTargets (config : Config) (world : World) (version : String) : List Target :=
  match located config world version with
  | .ok tarball => (config.client.download world.reply version tarball).sent
  | .error _ => []

/-- The prompts of a version, or the number of steps before the problem and the problem. A load that
never ends comes behind all that fail. -/
def loadDirectly (config : Config) (world : World) (version : String) :
    Except (Nat × Problem) PromptSet := do
  let tarball ← (located config world version).mapError fun failure => (0, .failure failure)
  let data ← (config.client.download world.reply version tarball).outcome.mapError (Prod.mk 1)
  match programOf? config version data with
  | none => .error (4, .unanswered)
  | some program =>
    let (path, source) ← program.mapError (Prod.mk 2)
    match extractSet? source version path config.markers world.reader with
    | some prompts => .ok prompts
    | none => .error (3, .failure (.noSystemPrompt version path))

theorem loadDirectly_of_not_located {failure : Failure}
    (h : located config world version = .error failure) :
    loadDirectly config world version = .error (0, .failure failure) := by
  rw [loadDirectly, h]
  rfl

/-- Only of versions that the registry names something is found, or searched without end. -/
theorem located_ok_of_loadDirectly
    (h : ∀ failure, loadDirectly config world version ≠ .error (0, .failure failure)) :
    ∃ tarball, located config world version = .ok tarball := by
  cases hlocated : located config world version with
  | ok tarball => exact ⟨tarball, rfl⟩
  | error failure => exact absurd (loadDirectly_of_not_located hlocated) (h failure)

/-- A load fails after less than four steps, or never ends. -/
theorem loadDirectly_cases (config : Config) (world : World) (version : String) :
    (∃ prompts, loadDirectly config world version = .ok prompts) ∨
    (∃ steps problem, steps < 4 ∧ loadDirectly config world version = .error (steps, problem)) ∨
    loadDirectly config world version = .error (4, .unanswered) := by
  rw [loadDirectly]
  rcases located config world version with failure | tarball
  · exact .inr (.inl ⟨0, _, by omega, rfl⟩)
  simp only [Except.mapError, bind, Except.bind]
  rcases (config.client.download world.reply version tarball).outcome with problem | data
  · exact .inr (.inl ⟨1, _, by omega, rfl⟩)
  dsimp only
  rcases programOf? config version data with _ | problem | ⟨path, source⟩
  · exact .inr (.inr rfl)
  · exact .inr (.inl ⟨2, _, by omega, rfl⟩)
  dsimp only
  rcases extractSet? source version path config.markers world.reader with _ | prompts
  · exact .inr (.inl ⟨3, _, by omega, rfl⟩)
  · exact .inl ⟨prompts, rfl⟩

theorem problem_of_four {problem : Problem}
    (h : loadDirectly config world version = .error (4, problem)) : problem = .unanswered := by
  obtain ⟨prompts, hall⟩ | ⟨steps, other, hsteps, hall⟩ | hall :=
    loadDirectly_cases config world version
  · rw [hall] at h
    cases h
  · rw [hall] at h
    cases h
    omega
  · rw [hall] at h
    cases h
    rfl

/-! ## A service that is true to the registry -/

/-- What a service keeps is what the registry has. -/
structure Truthful (config : Config) (world : World) (state : State) : Prop where
  metadata_sound : ∀ {metadata}, state.metadata = some metadata → published config world = .ok metadata
  results_sound : ∀ {version prompts}, (version, prompts) ∈ state.results.entries →
    loadDirectly config world version = .ok prompts

/-- What is asked for by a service that needs the metadata: nothing if it keeps them. -/
def metadataTargets (config : Config) (world : World) : Option Metadata → List Target
  | some _ => []
  | none => (config.client.fetchMetadata world.reply).sent

/-- A service behind a question for the metadata. -/
def State.informed (state : State) (config : Config) (world : World) : State :=
  { state with
    metadata := (published config world).toOption
    sent := state.sent ++ metadataTargets config world state.metadata }

theorem Truthful.getMetadata_eq (h : Truthful config world state) :
    state.getMetadata config world false = (published config world, state.informed config world) := by
  obtain ⟨metadata, results, loads, sent⟩ := state
  cases metadata with
  | some metadata =>
    have hpublished := h.metadata_sound rfl
    simp [State.getMetadata, State.informed, metadataTargets, hpublished, Except.toOption]
  | none =>
    have hfetch : (config.client.fetchMetadata world.reply).outcome = published config world := rfl
    cases hpublished : published config world <;>
      simp [State.getMetadata, State.informed, metadataTargets, hfetch, hpublished, Except.toOption]

theorem Truthful.informed (h : Truthful config world state) :
    Truthful config world (state.informed config world) where
  metadata_sound := fun {metadata} hmetadata => by
    cases hpublished : published config world with
    | ok other =>
      simp only [State.informed, hpublished, Except.toOption, Option.some.injEq] at hmetadata
      rw [hmetadata]
    | error failure => simp [State.informed, hpublished, Except.toOption] at hmetadata
  results_sound := h.results_sound

theorem Truthful.iterate_informed (h : Truthful config world state) (count : Nat) :
    Truthful config world ((State.informed · config world)^[count] state) := by
  induction count generalizing state with
  | zero => exact h
  | succ count ih => exact ih h.informed

/-- A service that knows the metadata does not ask for them. -/
theorem Truthful.informed_eq (h : Truthful config world state) {metadata : Metadata}
    (hm : state.metadata = some metadata) : state.informed config world = state := by
  obtain ⟨_, results, loads, sent⟩ := state
  obtain rfl : _ = some metadata := hm
  simp [State.informed, metadataTargets, h.metadata_sound rfl, Except.toOption]

theorem Truthful.iterate_informed_eq (h : Truthful config world state) {metadata : Metadata}
    (hm : state.metadata = some metadata) (count : Nat) :
    (State.informed · config world)^[count] state = state :=
  Function.iterate_fixed (h.informed_eq hm) count

/-! ## The stages of a load -/

/-- Where a load stands after some steps, at a service that keeps nothing yet. -/
def stageAfter (config : Config) (world : World) (version : String) : Nat → Stage
  | 0 => .begun
  | steps + 1 =>
    (advance config world ⟨version, stageAfter config world version steps⟩
      { results := .unbounded [] }).1

theorem stageAfter_succ (config : Config) (world : World) (version : String) (steps : Nat) :
    stageAfter config world version (steps + 1) = (advance config world
      ⟨version, stageAfter config world version steps⟩ { results := .unbounded [] }).1 := rfl

theorem Truthful.advance_begun (h : Truthful config world state) (version : String) :
    advance config world ⟨version, .begun⟩ state =
      (match located config world version with
        | .ok tarball => .located tarball
        | .error failure => .failed 0 (.failure failure), state.informed config world) := by
  simp only [advance, h.getMetadata_eq]
  cases hlocated : located config world version <;> rw [located] at hlocated <;> rw [hlocated]

theorem stageAfter_one (config : Config) (world : World) (version : String) :
    stageAfter config world version 1 =
      match located config world version with
      | .ok tarball => .located tarball
      | .error failure => .failed 0 (.failure failure) := by
  have h : Truthful config world { results := .unbounded [] } := ⟨nofun, nofun⟩
  exact congrArg Prod.fst (h.advance_begun version)

theorem stageAfter_two (config : Config) (world : World) (version : String) :
    (∃ data, stageAfter config world version 2 = .downloaded data) ∨
      ∃ steps problem, stageAfter config world version 2 = .failed steps problem := by
  rw [stageAfter_succ config world version 1, stageAfter_one]
  cases located config world version with
  | error failure => exact .inr ⟨_, _, rfl⟩
  | ok tarball =>
    simp only [advance]
    split
    · exact .inl ⟨_, rfl⟩
    · exact .inr ⟨_, _, rfl⟩

/-- After three steps a load is about to extract the prompts, has failed, or is stuck. -/
theorem stageAfter_three (config : Config) (world : World) (version : String) :
    (∃ path source, stageAfter config world version 3 = .unpacked path source) ∨
      (∃ steps problem, stageAfter config world version 3 = .failed steps problem) ∨
      ∃ data, stageAfter config world version 3 = .downloaded data ∧
        programOf? config version data = none := by
  rw [stageAfter_succ config world version 2]
  obtain ⟨data, h⟩ | ⟨steps, problem, h⟩ := stageAfter_two config world version
  · rw [h]
    simp only [advance]
    split
    · exact .inl ⟨_, _, rfl⟩
    · exact .inr (.inl ⟨_, _, rfl⟩)
    · next hnone => exact .inr (.inr ⟨data, rfl, hnone⟩)
  · rw [h]
    exact .inr (.inl ⟨_, _, rfl⟩)

/-- After four steps a load has come to what can be found of the version. -/
theorem found_stageAfter_four (config : Config) (world : World) (version : String) :
    (stageAfter config world version 4).found = loadDirectly config world version := by
  rw [stageAfter_succ config world version 3, stageAfter_succ config world version 2,
    stageAfter_succ config world version 1, stageAfter_one, loadDirectly]
  cases hlocated : located config world version with
  | error failure => rfl
  | ok tarball =>
    simp only [advance, Except.mapError, bind, Except.bind]
    cases hdata : (config.client.download world.reply version tarball).outcome with
    | error problem => rfl
    | ok data =>
      rcases hprogram : programOf? config version data with _ | problem | ⟨path, source⟩
      · simp only [hprogram]
        rfl
      · simp only [hprogram]
        rfl
      · simp only [hprogram]
        cases extractSet? source version path config.markers world.reader <;> rfl

/-- After four steps a load that has not ended never ends. -/
theorem isEndless_stageAfter_four
    (he : ¬(stageAfter config world version 4).hasEnded) :
    Load.IsEndless config ⟨version, stageAfter config world version 4⟩ := by
  rw [stageAfter_succ config world version 3] at he ⊢
  obtain ⟨path, source, h⟩ | ⟨steps, problem, h⟩ | ⟨data, h, hnone⟩ :=
    stageAfter_three config world version
  · rw [h] at he
    simp only [advance] at he
    split at he <;> exact absurd rfl he
  · rw [h] at he
    exact absurd rfl he
  · rw [h]
    simp only [advance, hnone]
    exact ⟨data, rfl, hnone⟩

/-! ## What each step does to the service -/

theorem advance_located (state : State) (version : String) :
    advance config world ⟨version, stageAfter config world version 1⟩ state =
      (stageAfter config world version 2,
        { state with sent := state.sent ++ tarballTargets config world version }) := by
  rw [stageAfter_succ config world version 1, stageAfter_one, tarballTargets]
  cases located config world version with
  | error failure => simp only [advance, List.append_nil]
  | ok tarball =>
    simp only [advance]
    split <;> rfl

theorem advance_downloaded (state : State) (version : String) :
    advance config world ⟨version, stageAfter config world version 2⟩ state =
      (stageAfter config world version 3, state) := by
  rw [stageAfter_succ config world version 2]
  obtain ⟨data, h⟩ | ⟨steps, problem, h⟩ := stageAfter_two config world version
  · rw [h]
    simp only [advance]
    split <;> rfl
  · rw [h]
    rfl

/-- The cache behind the load of a version. -/
def keep (config : Config) (world : World) (results : Cache.Store String PromptSet)
    (version : String) : Cache.Store String PromptSet :=
  match loadDirectly config world version with
  | .ok prompts => results.set version prompts
  | .error _ => results

theorem advance_unpacked (state : State) (version : String) :
    advance config world ⟨version, stageAfter config world version 3⟩ state =
      (stageAfter config world version 4,
        { state with results := keep config world state.results version }) := by
  have hfound := found_stageAfter_four config world version
  rw [stageAfter_succ config world version 3] at hfound ⊢
  rw [keep, ← hfound]
  -- the load ends well just if its last step extracts the prompts
  obtain ⟨path, source, h⟩ | ⟨steps, problem, h⟩ | ⟨data, h, hnone⟩ :=
    stageAfter_three config world version
  · rw [h]
    simp only [advance]
    cases extractSet? source version path config.markers world.reader <;> rfl
  · rw [h]
    rfl
  · rw [h]
    simp only [advance, hnone]
    rfl

/-! ## Loads side by side -/

theorem advanceEach_append (state : State) (first second : List Load) :
    advanceEach config world state (first ++ second) =
      let (first, state) := advanceEach config world state first
      let (second, state) := advanceEach config world state second
      (first ++ second, state) := by
  induction first generalizing state with
  | nil => rfl
  | cons load first ih => simp only [List.cons_append, advanceEach, ih]

/-- Loads that take no more steps stay where they are. -/
theorem advanceEach_of_not_goesOn {stuck : List Load} (h : ∀ load ∈ stuck, ¬load.GoesOn config)
    (state : State) : advanceEach config world state stuck = (stuck, state) := by
  induction stuck generalizing state with
  | nil => rfl
  | cons load stuck ih =>
    have hload := h load List.mem_cons_self
    have hrest := ih (fun load hm => h load (List.mem_cons_of_mem _ hm)) state
    simp only [advanceEach, advance_of_not_goesOn world hload, hrest]

/-- Where no load takes another step nothing is settled. -/
theorem settle_of_not_goesOn (h : ∀ load ∈ state.loads, ¬load.GoesOn config) :
    settle config world state = state := by
  have hround : round config world state = state := by
    rw [round, advanceEach_of_not_goesOn h]
  show round config world (round config world (round config world (round config world state))) = state
  simp only [hround]

/-- Loads of versions that began together, after some steps of each. -/
def loadsAfter (config : Config) (world : World) (versions : List String) (steps : Nat) : List Load :=
  versions.map fun version => ⟨version, stageAfter config world version steps⟩

/-- What each of some versions does to a service when its load takes a step, all of them do one
after the other. -/
theorem advanceEach_loadsAfter (config : Config) (world : World) (steps : Nat)
    (act : State → String → State) (Good : State → Prop)
    (hact : ∀ state, Good state → ∀ version, Good (act state version) ∧
      advance config world ⟨version, stageAfter config world version steps⟩ state =
        (stageAfter config world version (steps + 1), act state version))
    (state : State) (hstate : Good state) (versions : List String) :
    advanceEach config world state (loadsAfter config world versions steps) =
      (loadsAfter config world versions (steps + 1), versions.foldl act state) := by
  induction versions generalizing state with
  | nil => rfl
  | cons version versions ih =>
    obtain ⟨hnext, hadvance⟩ := hact state hstate version
    have hrest := ih (act state version) hnext
    simp only [loadsAfter] at hrest
    simp only [loadsAfter, List.map_cons, advanceEach, hadvance, hrest, List.foldl_cons]

theorem foldl_informed (versions : List String) (state : State) :
    versions.foldl (fun state _ => state.informed config world) state =
      (State.informed · config world)^[versions.length] state := by
  induction versions generalizing state with
  | nil => rfl
  | cons version versions ih => exact ih _

theorem foldl_tarballTargets (versions : List String) (state : State) :
    versions.foldl (fun state version =>
        { state with sent := state.sent ++ tarballTargets config world version }) state =
      { state with sent := state.sent ++ versions.flatMap (tarballTargets config world) } := by
  induction versions generalizing state with
  | nil => simp
  | cons version versions ih => simp [ih]

theorem foldl_keep (versions : List String) (state : State) :
    versions.foldl (fun state version =>
        { state with results := keep config world state.results version }) state =
      { state with results := versions.foldl (keep config world) state.results } := by
  induction versions generalizing state with
  | nil => rfl
  | cons version versions ih => simp [ih]

theorem iterate_informed_results (count : Nat) (state : State) :
    ((State.informed · config world)^[count] state).results = state.results := by
  induction count generalizing state with
  | zero => rfl
  | succ count ih => exact ih _

/-- Once loads that began together have come as far as they can, the service has asked for the metadata
as often as they needed them and for the tarballs, and keeps the prompts of those that ended well. -/
theorem Truthful.settle_loadsAfter (h : Truthful config world state) {stuck : List Load}
    (hstuck : ∀ load ∈ stuck, ¬load.GoesOn config) {versions : List String}
    (hloads : state.loads = stuck ++ loadsAfter config world versions 0) :
    let informed := (State.informed · config world)^[versions.length] state
    settle config world state =
      { informed with
        sent := informed.sent ++ versions.flatMap (tarballTargets config world)
        results := versions.foldl (keep config world) state.results
        loads := stuck ++ loadsAfter config world versions 4 } := by
  intro informed
  have hbegun := advanceEach_loadsAfter config world 0 (fun state _ => state.informed config world)
    (Truthful config world)
    (fun state h version => ⟨h.informed, by rw [stageAfter_one]; exact h.advance_begun version⟩)
    state h versions
  have hlocated (state : State) := advanceEach_loadsAfter config world 1
    (fun state version => { state with sent := state.sent ++ tarballTargets config world version })
    (fun _ => True) (fun state _ version => ⟨trivial, advance_located state version⟩)
    state trivial versions
  have hdownloaded (state : State) := advanceEach_loadsAfter config world 2 (fun state _ => state)
    (fun _ => True) (fun state _ version => ⟨trivial, advance_downloaded state version⟩)
    state trivial versions
  have hunpacked (state : State) := advanceEach_loadsAfter config world 3
    (fun state version => { state with results := keep config world state.results version })
    (fun _ => True) (fun state _ version => ⟨trivial, advance_unpacked state version⟩)
    state trivial versions
  rw [foldl_informed] at hbegun
  simp only [foldl_tarballTargets] at hlocated
  simp only [foldl_keep] at hunpacked
  have hfixed (state : State) : versions.foldl (fun state _ => state) state = state := by
    induction versions <;> simp_all
  simp only [hfixed] at hdownloaded
  show round config world (round config world (round config world (round config world state))) = _
  simp only [round, hloads, advanceEach_append, advanceEach_of_not_goesOn hstuck, hbegun, hlocated,
    hdownloaded, hunpacked]
  rw [iterate_informed_results]

/-! ## What is kept, and what is given -/

theorem mem_keep {results : Cache.Store String PromptSet} {entry : String × PromptSet}
    (h : entry ∈ (keep config world results version).entries) :
    loadDirectly config world entry.1 = .ok entry.2 ∧ entry.1 = version ∨ entry ∈ results.entries := by
  rw [keep] at h
  cases hload : loadDirectly config world version with
  | error problem =>
    rw [hload] at h
    exact .inr h
  | ok prompts =>
    rw [hload] at h
    rcases Cache.Store.mem_of_mem_set h with rfl | h
    · exact .inl ⟨hload, rfl⟩
    · exact .inr h

theorem mem_foldl_keep {versions : List String} {results : Cache.Store String PromptSet}
    {entry : String × PromptSet}
    (h : entry ∈ (versions.foldl (keep config world) results).entries) :
    loadDirectly config world entry.1 = .ok entry.2 ∧ entry.1 ∈ versions ∨
      entry ∈ results.entries := by
  induction versions generalizing results with
  | nil => exact .inr h
  | cons version versions ih =>
    rcases ih h with ⟨hload, hm⟩ | h
    · exact .inl ⟨hload, List.mem_cons_of_mem _ hm⟩
    · exact (mem_keep h).imp_left fun ⟨hload, hv⟩ => ⟨hload, hv ▸ List.mem_cons_self⟩

end ReleasePrompts.Service
