import ReleasePrompts.Proofs.Service.Loading

/-!
# Services at rest

A service that stays true to the registry comes to rest behind the loads that it lets begin
(`Settled.atRest`): all that is left of them are those that never end, which stay in the way of
others of their versions (`Stuck`). One who asks a service at rest for the prompts of a version is
given what is kept, waits for a load that is stuck, or lets a load begin, and gets what can be found
of the version in each case (`Truthful.join`).
-/

namespace ReleasePrompts.Service

open Document Registry Prompt

variable {config : Config} {world : World} {state : State} {version : String}

/-! ## Loads that never end -/

/-- Loads that never end, of versions whose other loads would not end either. -/
def Stuck (config : Config) (world : World) (loads : List Load) : Prop :=
  ∀ load ∈ loads, load.IsEndless config ∧
    loadDirectly config world load.version = .error (4, .unanswered)

theorem Load.IsEndless.not_hasEnded {load : Load} (h : load.IsEndless config) :
    ¬load.stage.hasEnded := by
  obtain ⟨data, hstage, -⟩ := h
  rw [hstage]
  exact nofun

theorem Load.IsEndless.found {load : Load} (h : load.IsEndless config) :
    load.stage.found = .error (4, .unanswered) := by
  obtain ⟨data, hstage, -⟩ := h
  rw [hstage]
  rfl

theorem Stuck.not_goesOn {loads : List Load} (h : Stuck config world loads) :
    ∀ load ∈ loads, ¬load.GoesOn config :=
  fun load hm hg => hg.not_endless (h load hm).1

/-! ## Services at which nothing goes on -/

/-- A service that is true to the registry and at which nothing goes on: the loads that are left never
end. -/
structure AtRest (config : Config) (world : World) (state : State) : Prop
    extends Truthful config world state where
  stuck : Stuck config world state.loads

theorem AtRest.forget_eq (h : AtRest config world state) : state.forget = state := by
  have hloads : state.loads.filter (fun load => !load.stage.hasEnded) = state.loads :=
    List.filter_eq_self.mpr fun load hm => by simpa using (h.stuck load hm).1.not_hasEnded
  rw [State.forget, hloads]

/-- A service at rest has nothing to settle. -/
theorem AtRest.settle_eq (h : AtRest config world state) : settle config world state = state :=
  settle_of_not_goesOn h.stuck.not_goesOn

/-- A version whose prompts a service keeps, or of which a load is under way: of no other a load
begins. -/
def State.Covers (state : State) (version : String) : Prop :=
  version ∈ state.results.keys ∨ version ∈ state.loads.map Load.version

instance (state : State) (version : String) : Decidable (state.Covers version) :=
  inferInstanceAs (Decidable (_ ∨ _))

/-- A service behind loads that began together, while others are stuck. -/
structure Settled (config : Config) (world : World) (stuck : List Load) (versions : List String)
    (before after : State) : Prop extends Truthful config world after where
  loads_eq : after.loads = stuck ++ loadsAfter config world versions 4
  metadata_eq : after.metadata =
    if versions = [] then before.metadata else (published config world).toOption
  sent_eq : after.sent = ((State.informed · config world)^[versions.length] before).sent ++
    versions.flatMap (tarballTargets config world)
  mem_keys : ∀ {version}, version ∈ after.results.keys → version ∈ before.results.keys ∨
    version ∈ versions ∧ ∃ prompts, loadDirectly config world version = .ok prompts

theorem Truthful.settled (h : Truthful config world state) {stuck : List Load}
    (hstuck : Stuck config world stuck) {versions : List String}
    (hloads : state.loads = stuck ++ loadsAfter config world versions 0) :
    Settled config world stuck versions state (settle config world state) := by
  have hinformed := h.iterate_informed versions.length
  rw [h.settle_loadsAfter hstuck.not_goesOn hloads]
  refine ⟨⟨hinformed.metadata_sound, fun hm => ?_⟩, rfl, ?_, rfl, fun hm => ?_⟩
  · exact (mem_foldl_keep hm).elim And.left h.results_sound
  · cases versions with
    | nil => rfl
    | cons version versions =>
      rw [if_neg (List.cons_ne_nil _ _), List.length_cons, Function.iterate_succ_apply']
      rfl
  · obtain ⟨entry, hentry, rfl⟩ := List.mem_map.mp hm
    rcases mem_foldl_keep hentry with ⟨hload, hv⟩ | hentry
    · exact .inr ⟨hv, _, hload⟩
    · exact .inl (List.mem_map_of_mem (f := Prod.fst) hentry)

theorem mem_loads_forget {load : Load} (h : load ∈ state.forget.loads) :
    load ∈ state.loads ∧ ¬load.stage.hasEnded := by
  simpa [State.forget] using h

/-- Behind loads that began together a service comes to rest, once it forgets those that ended. -/
theorem Settled.atRest {stuck : List Load} {versions : List String} {before after : State}
    (h : Settled config world stuck versions before after) (hstuck : Stuck config world stuck) :
    AtRest config world after.forget where
  metadata_sound := h.metadata_sound
  results_sound := h.results_sound
  stuck := fun load hm => by
    obtain ⟨hm, he⟩ := mem_loads_forget hm
    rw [h.loads_eq] at hm
    rcases List.mem_append.mp hm with hm | hm
    · exact hstuck load hm
    · obtain ⟨version, -, rfl⟩ := List.mem_map.mp hm
      have hendless := isEndless_stageAfter_four he
      exact ⟨hendless, (found_stageAfter_four config world version).symm.trans hendless.found⟩

theorem Settled.covers {stuck : List Load} {versions : List String} {before after : State}
    (h : Settled config world stuck versions before after)
    (hcovers : after.forget.Covers version) :
    (version ∈ before.results.keys ∨ version ∈ stuck.map Load.version) ∨ version ∈ versions ∧
      ∀ failure, loadDirectly config world version ≠ .error (0, .failure failure) := by
  rcases hcovers with hkey | hload
  · rcases h.mem_keys hkey with hkey | ⟨hm, prompts, hprompts⟩
    · exact .inl (.inl hkey)
    · exact .inr ⟨hm, by rw [hprompts]; exact nofun⟩
  · obtain ⟨load, hm, rfl⟩ := List.mem_map.mp hload
    obtain ⟨hm, he⟩ := mem_loads_forget hm
    rw [h.loads_eq] at hm
    rcases List.mem_append.mp hm with hm | hm
    · exact .inl (.inr (List.mem_map_of_mem hm))
    · obtain ⟨version, hversion, rfl⟩ := List.mem_map.mp hm
      have hfound := (isEndless_stageAfter_four he).found
      rw [found_stageAfter_four] at hfound
      exact .inr ⟨hversion, by rw [hfound]; exact nofun⟩

/-! ## What is found of a version -/

/-- What is found of a version once loads that began together have come as far as they can, one of
them of it. -/
theorem endOf_loadsAfter {versions : List String} (h : version ∈ versions) (place : Nat) :
    endOf version place (loadsAfter config world versions 4) =
      (loadDirectly config world version).mapError fun (steps, problem) =>
        ((steps, place + versions.idxOf version), problem) := by
  induction versions generalizing place with
  | nil => cases h
  | cons first versions ih =>
    rw [loadsAfter, List.map_cons, endOf]
    by_cases hfirst : first = version
    · subst hfirst
      rw [if_pos rfl, found_stageAfter_four, List.idxOf_cons_self]
      rfl
    · rw [if_neg hfirst, List.idxOf_cons_ne _ hfirst]
      have hrest := ih (List.mem_of_ne_of_mem (Ne.symm hfirst) h) (place + 1)
      rw [loadsAfter] at hrest
      rw [hrest, Nat.add_right_comm, Nat.add_assoc]

/-- Loads of other versions are passed over. -/
theorem endOf_append_of_not_mem {first : List Load} (h : version ∉ first.map Load.version)
    (place : Nat) (second : List Load) :
    endOf version place (first ++ second) = endOf version (place + first.length) second := by
  induction first generalizing place with
  | nil => rfl
  | cons load first ih =>
    obtain ⟨hload, hfirst⟩ := not_or.mp (mt List.mem_cons.mpr h)
    rw [List.cons_append, endOf, if_neg (Ne.symm hload), ih hfirst, List.length_cons]
    congr 1
    omega

/-- Of a version with a load that never ends nothing is found. -/
theorem endOf_append_of_mem {stuck : List Load} (hstuck : Stuck config world stuck)
    (h : version ∈ stuck.map Load.version) (place : Nat) (others : List Load) :
    ∃ found, endOf version place (stuck ++ others) = .error ((4, found), .unanswered) := by
  induction stuck generalizing place with
  | nil => cases h
  | cons load stuck ih =>
    rw [List.cons_append, endOf]
    split
    · rw [(hstuck load List.mem_cons_self).1.found]
      exact ⟨place, rfl⟩
    · next hne =>
      exact ih (fun load hm => hstuck load (List.mem_cons_of_mem _ hm))
        ((List.mem_cons.mp h).resolve_left (Ne.symm hne)) (place + 1)

/-- What it means for a service that someone asks it for the prompts of a version while loads of
others have begun and some are stuck: it begins a load of the version unless it keeps the prompts or
one is stuck, and the ticket gives what can be found of the version. -/
structure Joined (config : Config) (world : World) (version : String) (stuck : List Load)
    (others : List String) (before : State) (ticket : Ticket) (after : State)
    (versions : List String) : Prop where
  versions_eq : versions = others ++
    if version ∈ before.results.keys ∨ version ∈ stuck.map Load.version then [] else [version]
  loads_eq : after.loads = stuck ++ loadsAfter config world versions 0
  truthful : Truthful config world after
  metadata_eq : after.metadata = before.metadata
  sent_eq : after.sent = before.sent
  mem_keys : ∀ {other}, other ∈ after.results.keys ↔ other ∈ before.results.keys
  /-- The place counts only where the load fails. -/
  redeem_eq : ∀ (more : List String) (settled : State),
    settled.loads = stuck ++ loadsAfter config world (versions ++ more) 4 →
      ∃ place, settled.redeem ticket =
          ((loadDirectly config world version).mapError fun (steps, problem) =>
            ((steps, place), problem)) ∧
        (place = stuck.length + others.length ∨
          loadDirectly config world version = .error (4, .unanswered))

theorem Truthful.join (h : Truthful config world state) (version : String) {stuck : List Load}
    (hstuck : Stuck config world stuck) (others : List String)
    (hloads : state.loads = stuck ++ loadsAfter config world others 0) (hversion : version ∉ others) :
    ∃ versions, Joined config world version stuck others state (state.join version).1
      (state.join version).2 versions := by
  have hsound : ∀ {other prompts}, (other, prompts) ∈ (state.results.get version).2.entries →
      loadDirectly config world other = .ok prompts :=
    fun hm => h.results_sound (Cache.Store.mem_of_mem_get hm)
  have hkeys : ∀ {other}, other ∈ (state.results.get version).2.keys ↔ other ∈ state.results.keys :=
    Cache.Store.mem_keys_get
  rcases hget : state.results.get version with ⟨_ | prompts, results⟩
  · have hkey : version ∉ state.results.keys :=
      Cache.Store.get_eq_none_iff.mp (congrArg Prod.fst hget)
    have hany : (state.loads.any fun load => load.version == version) = true ↔
        version ∈ stuck.map Load.version := by
      simp [hloads, loadsAfter, hversion]
    rw [hget] at hsound hkeys
    by_cases hmem : version ∈ stuck.map Load.version
    · -- the caller joins the load that is stuck
      simp only [State.join, hget, if_pos (hany.mpr hmem)]
      refine ⟨others, by simp only [hmem, or_true, if_true, List.append_nil], hloads,
        ⟨h.metadata_sound, hsound⟩, rfl, rfl, hkeys,
        fun more settled hsettled => ?_⟩
      obtain ⟨load, hm, rfl⟩ := List.mem_map.mp hmem
      have hnone := (hstuck load hm).2
      obtain ⟨place, hend⟩ := endOf_append_of_mem hstuck hmem 0
        (loadsAfter config world (others ++ more) 4)
      refine ⟨place, ?_, .inr hnone⟩
      rw [State.redeem, hsettled, hend, hnone]
      rfl
    · -- the caller begins a load
      simp only [State.join, hget, if_neg (mt hany.mp hmem)]
      refine ⟨others ++ [version], by rw [if_neg (not_or.mpr ⟨hkey, hmem⟩)], ?_,
        ⟨h.metadata_sound, hsound⟩, rfl, rfl, hkeys,
        fun more settled hsettled => ?_⟩
      · simp [hloads, loadsAfter, stageAfter]
      · have hm : version ∈ others ++ [version] ++ more := by simp
        have hplace : (others ++ [version] ++ more).idxOf version = others.length := by
          simp [List.idxOf_append, hversion]
        refine ⟨stuck.length + others.length, ?_, .inl rfl⟩
        rw [State.redeem, hsettled, endOf_append_of_not_mem hmem, endOf_loadsAfter hm, hplace,
          Nat.zero_add]
  · have hkept := Cache.Store.mem_entries_of_get (congrArg Prod.fst hget)
    have hkey : version ∈ state.results.keys := List.mem_map_of_mem (f := Prod.fst) hkept
    rw [hget] at hsound hkeys
    simp only [State.join, hget]
    refine ⟨others, by simp [hkey], hloads,
      ⟨h.metadata_sound, hsound⟩, rfl, rfl, hkeys,
      fun more settled _ => ⟨stuck.length + others.length, ?_, .inl rfl⟩⟩
    rw [State.redeem, h.results_sound hkept]
    rfl

end ReleasePrompts.Service
