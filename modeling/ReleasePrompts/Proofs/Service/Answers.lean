import ReleasePrompts.Proofs.Service.Resting

/-!
# Answers do not tell what is kept

A service that is true to the registry meets every demand in one way (`Met`): the answer is what the
registry alone decides (`Demand.answer`), and asked for are the metadata, unless they are known, and
the tarballs of the versions that are needed and not covered. So two services that differ in what they
keep stay alike (`Alike.met`), and the room that a service has for prompts shows in nothing but how
often it downloads a version (`answers_unaffected_by_room`).
-/

namespace ReleasePrompts.Service

open Document Registry Prompt Web

variable {config : Config} {world : World} {state : State}

/-! ## What is asked for, and what it is answered -/

/-- A request that needs the prompts of versions. -/
inductive Demand where
  | load (version : String)
  | compare (base compared tab : String)

/-- Whether the registry names a tarball of a version. -/
def isPublished (config : Config) (world : World) (version : String) : Bool :=
  (located config world version).isOk

/-- What comes of two loads side by side. If both fail the problem counts that came after fewer
steps, and otherwise that of the first. -/
def gather {α β : Type} : Except (Nat × Problem) α → Except (Nat × Problem) β →
    Except Problem (α × β)
  | .ok left, .ok right => .ok (left, right)
  | .error a, .error b => .error (if b.1 < a.1 then b.2 else a.2)
  | .error a, .ok _ => .error a.2
  | .ok _, .error b => .error b.2

/-- What comes of the comparison of two versions that are published. -/
def compareDirectly (config : Config) (world : World) (base compared : String) (name : Name) :
    Except Problem Answer := do
  let (left, right) ← gather (loadDirectly config world base) (loadDirectly config world compared)
  ((compareSets config.markers base compared name left right).mapError .failure).map .comparison

namespace Demand

/-- The request that makes a demand. -/
def request : Demand → Request
  | load version => .loadVersion version
  | compare base compared tab => .compare (some base) (some compared) tab

/-- What the registry alone decides about the answer. -/
def answer (config : Config) (world : World) : Demand → Except Problem Answer
  | load version => ((loadDirectly config world version).mapError Prod.snd).map .prompts
  | compare base compared tab => do
    let name ← (tabOf tab).mapError .failure
    if base = compared then
      throw (.failure .sameVersion)
    discard ((located config world base).mapError .failure)
    discard ((located config world compared).mapError .failure)
    compareDirectly config world base compared name

/-- The versions of a demand. -/
def versions : Demand → List String
  | load version => [version]
  | compare base compared _ => [base, compared]

/-- Whether a demand is one for which the metadata are needed. -/
def isProper : Demand → Bool
  | load _ => true
  | compare base compared tab => (tabOf tab).isOk && base ≠ compared

/-- The versions whose prompts are needed to meet a demand. -/
def needs (config : Config) (world : World) (demand : Demand) : List String :=
  if demand.isProper && demand.versions.all (isPublished config world) then demand.versions else []

theorem isProper_compare {base compared tab : String} {name : Name} (htab : tabOf tab = .ok name)
    (hne : base ≠ compared) : (compare base compared tab).isProper = true := by
  simp [isProper, htab, hne, Except.isOk, Except.toBool]

theorem needs_load (version : String) : (load version).needs config world =
    if isPublished config world version then [version] else [] := by
  simp [needs, isProper, versions]

theorem needs_compare {base compared tab : String} {name : Name} (htab : tabOf tab = .ok name)
    (hne : base ≠ compared) (hbase : isPublished config world base = true)
    (hcompared : isPublished config world compared = true) :
    (compare base compared tab).needs config world = [base, compared] := by
  simp [needs, isProper_compare htab hne, versions, hbase, hcompared]

theorem isPublished_of_mem_needs {demand : Demand} {version : String}
    (h : version ∈ demand.needs config world) : isPublished config world version = true := by
  rw [needs] at h
  split at h
  · next hall =>
      obtain ⟨-, hall⟩ := Bool.and_eq_true_iff.mp hall
      exact List.all_eq_true.mp hall version h
  · cases h

end Demand

/-! ## One demand -/

/-- A service at rest that knows the metadata if it covers a version. -/
structure Steady (config : Config) (world : World) (state : State) : Prop
    extends AtRest config world state where
  metadata_eq : ∀ {version}, state.Covers version →
    state.metadata = (published config world).toOption

/-- What it means to meet a demand. -/
structure Met (config : Config) (world : World) (demand : Demand) (before : State)
    (outcome : Except Problem Answer) (after : State) : Prop where
  answer_eq : outcome = demand.answer config world
  steady : Steady config world after
  metadata_eq : after.metadata =
    if demand.isProper then (published config world).toOption else before.metadata
  sent_eq : after.sent = before.sent ++
    (if demand.isProper then metadataTargets config world before.metadata else []) ++
    ((demand.needs config world).filter (¬before.Covers ·)).flatMap (tarballTargets config world)
  covers : ∀ {version}, after.Covers version →
    before.Covers version ∨ version ∈ demand.needs config world

theorem isPublished_of_located {version : String} {tarball : Value}
    (h : located config world version = .ok tarball) : isPublished config world version = true := by
  rw [isPublished, h]
  rfl

theorem isPublished_of_not_located {version : String} {failure : Failure}
    (h : located config world version = .error failure) : isPublished config world version = false := by
  rw [isPublished, h]
  rfl

theorem tarballTargets_of_not_published {version : String}
    (h : ¬isPublished config world version = true) : tarballTargets config world version = [] := by
  rw [tarballTargets]
  cases hlocated : located config world version with
  | error failure => rfl
  | ok tarball => exact absurd (isPublished_of_located hlocated) h

/-- A version that is to be loaded has its tarball asked for unless it is covered. -/
theorem targets_load (state : State) (version : String) :
    (((Demand.load version).needs config world).filter (¬state.Covers ·)).flatMap
        (tarballTargets config world) =
      if state.Covers version then [] else tarballTargets config world version := by
  rw [Demand.needs_load]
  by_cases hpublished : isPublished config world version = true
  · by_cases hcovers : state.Covers version <;> simp [hpublished, hcovers]
  · simp [hpublished, tarballTargets_of_not_published hpublished]

theorem isPublished_of_loadDirectly {version : String}
    (h : ∀ failure, loadDirectly config world version ≠ .error (0, .failure failure)) :
    isPublished config world version = true := by
  obtain ⟨tarball, hlocated⟩ := located_ok_of_loadDirectly h
  exact isPublished_of_located hlocated

/-- Only a registry with metadata publishes a version. -/
theorem published_of_isPublished {version : String} (h : isPublished config world version = true) :
    ∃ metadata, published config world = .ok metadata := by
  cases hpublished : published config world with
  | ok metadata => exact ⟨metadata, rfl⟩
  | error failure =>
    rw [isPublished, located, hpublished] at h
    cases h

theorem Settled.steady {stuck : List Load} {versions : List String} {before after : State}
    (h : Settled config world stuck versions before after) (hstuck : Stuck config world stuck)
    (hbefore : ∀ {version}, version ∈ before.results.keys ∨ version ∈ stuck.map Load.version →
      before.metadata = (published config world).toOption) :
    Steady config world after.forget where
  toAtRest := h.atRest hstuck
  metadata_eq := fun {version} hcovers => by
    have hmetadata : after.forget.metadata = _ := h.metadata_eq
    rw [hmetadata]
    split
    · next hnil =>
        rcases h.covers hcovers with hold | ⟨hm, -⟩
        · exact hbefore hold
        · rw [hnil] at hm
          cases hm
    · rfl

namespace Steady

theorem isPublished_of_covers (h : Steady config world state) {version : String}
    (hcovers : state.Covers version) : isPublished config world version = true := by
  rcases hcovers with hkey | hload
  · obtain ⟨⟨version, prompts⟩, hentry, rfl⟩ := List.mem_map.mp hkey
    have hprompts := h.results_sound hentry
    exact isPublished_of_loadDirectly (by rw [hprompts]; exact nofun)
  · obtain ⟨load, hm, rfl⟩ := List.mem_map.mp hload
    have hnone := (h.stuck load hm).2
    exact isPublished_of_loadDirectly (by rw [hnone]; exact nofun)

theorem metadataTargets_eq_nil (h : Steady config world state) {version : String}
    (hcovers : state.Covers version) : metadataTargets config world state.metadata = [] := by
  obtain ⟨metadata, hpublished⟩ := published_of_isPublished (h.isPublished_of_covers hcovers)
  rw [h.metadata_eq hcovers, hpublished]
  rfl

/-- A demand is met once the loads that it lets begin have come as far as they can. -/
theorem met_of_settled (h : Steady config world state) {demand : Demand}
    (hproper : demand.isProper = true) {versions : List String} {joined settled : State}
    (hs : Settled config world state.loads versions joined settled)
    (hkeys : ∀ {version}, version ∈ joined.results.keys ↔ version ∈ state.results.keys)
    (hmetadata : joined.metadata = state.metadata ∨
      joined.metadata = (published config world).toOption)
    (hknown : versions = [] → joined.metadata = (published config world).toOption)
    (hneeds : ∀ version ∈ versions, isPublished config world version = true →
      version ∈ demand.needs config world)
    {outcome : Except Problem Answer} (hanswer : outcome = demand.answer config world)
    (hsent : settled.sent = state.sent ++ metadataTargets config world state.metadata ++
      ((demand.needs config world).filter (¬state.Covers ·)).flatMap (tarballTargets config world)) :
    Met config world demand state outcome settled.forget := by
  have hold {version : String} :
      version ∈ joined.results.keys ∨ version ∈ state.loads.map Load.version ↔
        state.Covers version := or_congr_left hkeys
  refine ⟨hanswer, hs.steady h.stuck fun hm => ?_, ?_, ?_, fun hm => ?_⟩
  · rcases hmetadata with hsame | hpublished
    · exact hsame.trans (h.metadata_eq (hold.mp hm))
    · exact hpublished
  · rw [if_pos hproper]
    refine hs.metadata_eq.trans ?_
    split
    · next hnil => exact hknown hnil
    · rfl
  · rw [if_pos hproper]
    exact hsent
  · rcases hs.covers hm with hm | ⟨hm, hload⟩
    · exact .inl (hold.mp hm)
    · exact .inr (hneeds _ hm (isPublished_of_loadDirectly hload))

theorem load (h : Steady config world state) (version : String) :
    Met config world (.load version) state
      (serveOne config world state (.loadVersion version)).1
      (serveOne config world state (.loadVersion version)).2 := by
  obtain ⟨versions, hj⟩ := h.join version h.stuck [] (List.append_nil _).symm List.not_mem_nil
  have hs := hj.truthful.settled h.stuck hj.loads_eq
  have hversions : versions = if state.Covers version then [] else [version] := hj.versions_eq
  have hserved : serveOne config world state (.loadVersion version) =
      ((((settle config world (state.join version).2).redeem
        (state.join version).1).mapError Prod.snd).map .prompts,
      (settle config world (state.join version).2).forget) := rfl
  rw [hserved]
  generalize settle config world (state.join version).2 = settled at hs
  generalize state.join version = joined at hj hs
  have hanswer : ((settled.redeem joined.1).mapError Prod.snd).map .prompts =
      (Demand.load version).answer config world := by
    obtain ⟨place, hredeem, -⟩ := hj.redeem_eq [] _ (by rw [List.append_nil, hs.loads_eq])
    rw [hredeem, Demand.answer]
    cases loadDirectly config world version <;> rfl
  by_cases hcovers : state.Covers version
  · obtain rfl : versions = [] := by rwa [if_pos hcovers] at hversions
    refine h.met_of_settled rfl hs hj.mem_keys (.inl hj.metadata_eq)
      (fun _ => hj.metadata_eq.trans (h.metadata_eq hcovers))
      (fun _ hm => absurd hm List.not_mem_nil) hanswer ?_
    have hsent : settled.sent = joined.2.sent ++ [] := hs.sent_eq
    rw [hsent, hj.sent_eq, targets_load, if_pos hcovers, h.metadataTargets_eq_nil hcovers,
      List.append_nil, List.append_nil]
  · obtain rfl : versions = [version] := by rwa [if_neg hcovers] at hversions
    refine h.met_of_settled rfl hs hj.mem_keys (.inl hj.metadata_eq)
      (fun hnil => absurd hnil (List.cons_ne_nil _ _)) (fun other hm hpublished => ?_) hanswer ?_
    · obtain rfl := List.mem_singleton.mp hm
      simp [Demand.needs_load, hpublished]
    · rw [hs.sent_eq, List.flatMap_singleton, targets_load, if_neg hcovers, ← hj.sent_eq,
        ← hj.metadata_eq]
      rfl

/-- Nothing but the answer comes of a comparison that asks for nothing. -/
theorem met_of_not_isProper (h : Steady config world state) {demand : Demand}
    (hproper : demand.isProper = false) {outcome : Except Problem Answer}
    (hanswer : outcome = demand.answer config world) :
    Met config world demand state outcome (settle config world state).forget := by
  rw [h.settle_eq, h.forget_eq]
  exact ⟨hanswer, h, by simp [hproper], by simp [hproper, Demand.needs], .inl⟩

theorem informed (h : Steady config world state) : Steady config world (state.informed config world) :=
  ⟨⟨h.toTruthful.informed, h.stuck⟩, fun _ => rfl⟩

/-- A comparison of versions that are not both published asks for the metadata only. -/
theorem met_of_not_published (h : Steady config world state) {demand : Demand}
    (hproper : demand.isProper = true)
    (hpublished : demand.versions.all (isPublished config world) = false)
    {outcome : Except Problem Answer} (hanswer : outcome = demand.answer config world) :
    Met config world demand state outcome
      (settle config world (state.informed config world)).forget := by
  rw [h.informed.settle_eq, h.informed.forget_eq]
  refine ⟨hanswer, h.informed, by simp [hproper, State.informed], ?_, .inl⟩
  simp [hproper, hpublished, Demand.needs, State.informed]

end Steady

/-! ## Comparisons -/

section

variable {base compared tab : String} {name : Name} {failure : Failure} {checked : State}

theorem serveOne_of_refused
    (h : state.checkComparison config world base compared tab = (.error failure, checked)) :
    serveOne config world state (.compare (some base) (some compared) tab) =
      (.error (.failure failure), (settle config world checked).forget) := by
  simp [serveOne, begin, State.versionsToCompare, h, joinBoth, Service.answer]

theorem serveOne_of_checked
    (h : state.checkComparison config world base compared tab = (.ok name, checked)) :
    serveOne config world state (.compare (some base) (some compared) tab) =
      let left := checked.join base
      let right := left.2.join compared
      let settled := settle config world right.2
      (Service.answer config settled (.comparing base compared name left.1 right.1),
        settled.forget) := by
  simp [serveOne, begin, State.versionsToCompare, h, joinBoth]

theorem Truthful.checkComparison_eq (h : Truthful config world state) (htab : tabOf tab = .ok name)
    (hne : base ≠ compared) :
    state.checkComparison config world base compared tab =
      (do
        discard (located config world base)
        discard (located config world compared)
        return name, state.informed config world) := by
  rw [State.checkComparison, htab]
  simp only [if_neg hne, h.getMetadata_eq, located]
  cases published config world <;> rfl

/-- The loads that two tickets begin, one after the other, are those of the versions not covered. -/
theorem Joined.versions_eq_filter {first both : List String} {left right : Ticket × State}
    (hleft : Joined config world base state.loads [] state left.1 left.2 first)
    (hright : Joined config world compared state.loads first left.2 right.1 right.2 both) :
    both = [base, compared].filter (¬state.Covers ·) := by
  have hcompared : compared ∈ left.2.results.keys ∨ compared ∈ state.loads.map Load.version ↔
      state.Covers compared := or_congr_left hleft.mem_keys
  have hbase : base ∈ state.results.keys ∨ base ∈ state.loads.map Load.version ↔
      state.Covers base := .rfl
  rw [hright.versions_eq, hleft.versions_eq]
  simp only [hbase, hcompared, List.filter_cons, List.filter_nil]
  by_cases hb : state.Covers base <;> by_cases hc : state.Covers compared <;> simp [hb, hc]

/-- Of two problems that came after equally many steps the one in the earlier load counts, and of two
loads that never end it does not matter which. -/
theorem firstProblem_eq {steps others place later : Nat} {problem other : Problem}
    (h : steps = others → place ≤ later ∨ problem = other) :
    firstProblem ((steps, place), problem) ((others, later), other) =
      if others < steps then other else problem := by
  rw [firstProblem]
  by_cases hless : others < steps
  · simp [hless]
  · by_cases heq : others = steps
    · rcases h heq.symm with hplace | rfl
      · simp [hless, Nat.not_lt.mpr hplace]
      · simp
    · simp [hless, heq]

/-- Whatever the tickets are, their comparison is that of what can be found of the versions. -/
theorem answer_comparing {settled : State} {left right : Ticket} {place later : Nat}
    (hleft : settled.redeem left = (loadDirectly config world base).mapError fun (steps, problem) =>
      ((steps, place), problem))
    (hright : settled.redeem right =
      (loadDirectly config world compared).mapError fun (steps, problem) =>
        ((steps, later), problem))
    (hplace : place ≤ later ∨ loadDirectly config world base = .error (4, .unanswered) ∨
      loadDirectly config world compared = .error (4, .unanswered)) :
    Service.answer config settled (.comparing base compared name left right) =
      compareDirectly config world base compared name := by
  rw [compareDirectly, Service.answer, hleft, hright]
  rcases hb : loadDirectly config world base with ⟨steps, problem⟩ | prompts <;>
    rcases hc : loadDirectly config world compared with ⟨others, other⟩ | prompts'
  · have hsame : steps = others → place ≤ later ∨ problem = other := fun hsteps => by
      refine hplace.imp_right fun hnone => ?_
      have hfour : steps = 4 := by
        rcases hnone with hnone | hnone
        · rw [hb] at hnone
          cases hnone
          rfl
        · rw [hc] at hnone
          cases hnone
          exact hsteps
      have hproblem : problem = .unanswered := problem_of_four (hb.trans (by rw [hfour]))
      have hother : other = .unanswered := problem_of_four (hc.trans (by rw [← hsteps, hfour]))
      rw [hproblem, hother]
    simp only [Except.mapError, gather, firstProblem_eq hsame, bind, Except.bind]
  all_goals simp [gather, Except.mapError, Except.map, bind, Except.bind]

end

namespace Steady

/-- A comparison of versions that are both published loads those that are not kept, side by side. -/
theorem compare_of_published (h : Steady config world state) {base compared tab : String} {name : Name}
    (htab : tabOf tab = .ok name) (hne : base ≠ compared)
    (hbase : isPublished config world base = true)
    (hcompared : isPublished config world compared = true)
    (hcheck : state.checkComparison config world base compared tab =
      (.ok name, state.informed config world))
    (hanswer : (Demand.compare base compared tab).answer config world =
      compareDirectly config world base compared name) :
    Met config world (.compare base compared tab) state
      (serveOne config world state (.compare (some base) (some compared) tab)).1
      (serveOne config world state (.compare (some base) (some compared) tab)).2 := by
  have hproper := Demand.isProper_compare htab hne
  have hinformed := h.informed
  rw [serveOne_of_checked hcheck]
  obtain ⟨first, hleft⟩ := hinformed.join base hinformed.stuck [] (List.append_nil _).symm
    List.not_mem_nil
  have hnot : compared ∉ first := by
    rw [hleft.versions_eq]
    split <;> simp [Ne.symm hne]
  obtain ⟨both, hright⟩ := hleft.truthful.join compared hinformed.stuck first hleft.loads_eq hnot
  have hs := hright.truthful.settled hinformed.stuck hright.loads_eq
  simp only
  generalize settle config world _ = settled at hs ⊢
  generalize State.join _ compared = right at hright hs ⊢
  generalize State.join _ base = left at hleft hright ⊢
  have hmetadata : right.2.metadata = (published config world).toOption :=
    hright.metadata_eq.trans hleft.metadata_eq
  have hboth := hleft.versions_eq_filter hright
  have hneeds := Demand.needs_compare htab hne hbase hcompared
  refine h.met_of_settled hproper hs (hright.mem_keys.trans hleft.mem_keys) (.inr hmetadata)
    (fun _ => hmetadata) (fun version hm _ => ?_) ?_ ?_
  · rw [hboth] at hm
    exact hneeds ▸ (List.mem_filter.mp hm).1
  · have hloads := hs.loads_eq
    rw [hright.versions_eq] at hloads
    rw [hanswer]
    obtain ⟨place, hbase, hplace⟩ := hleft.redeem_eq _ settled hloads
    obtain ⟨later, hcompared, hlater⟩ :=
      hright.redeem_eq [] settled (by rw [List.append_nil, hs.loads_eq])
    refine answer_comparing hbase hcompared ?_
    -- the load of the second version did not begin before that of the first
    rcases hplace with rfl | hnone
    · rcases hlater with rfl | hnone
      · exact .inl (Nat.add_le_add_left (Nat.zero_le _) _)
      · exact .inr (.inr hnone)
    · exact .inr (.inl hnone)
  · obtain ⟨metadata, hpublished⟩ := published_of_isPublished hbase
    have hknown : right.2.metadata = some metadata := by
      rw [hmetadata, hpublished]
      rfl
    have hsent := hs.sent_eq
    rw [hright.truthful.iterate_informed_eq hknown, hright.sent_eq, hleft.sent_eq, hboth] at hsent
    rw [hneeds]
    exact hsent

theorem compare (h : Steady config world state) (base compared tab : String) :
    Met config world (.compare base compared tab) state
      (serveOne config world state (.compare (some base) (some compared) tab)).1
      (serveOne config world state (.compare (some base) (some compared) tab)).2 := by
  cases htab : tabOf tab with
  | error failure =>
    have hcheck : state.checkComparison config world base compared tab = (.error failure, state) := by
      rw [State.checkComparison, htab]
    rw [serveOne_of_refused hcheck]
    refine h.met_of_not_isProper (by rw [Demand.isProper, htab]; rfl) ?_
    rw [Demand.answer, htab]
    rfl
  | ok name =>
    by_cases hsame : base = compared
    · have hcheck : state.checkComparison config world base compared tab =
          (.error .sameVersion, state) := by
        rw [State.checkComparison, htab]
        exact if_pos hsame
      rw [serveOne_of_refused hcheck]
      refine h.met_of_not_isProper (by simp [Demand.isProper, hsame]) ?_
      rw [Demand.answer, htab]
      simp only [if_pos hsame]
      rfl
    · have hproper := Demand.isProper_compare htab hsame
      have hcheck := h.checkComparison_eq htab hsame
      have hanswer : (Demand.compare base compared tab).answer config world = (do
          discard ((located config world base).mapError .failure)
          discard ((located config world compared).mapError .failure)
          compareDirectly config world base compared name) := by
        rw [Demand.answer, htab]
        simp only [if_neg hsame]
        rfl
      cases hbase : located config world base with
      | error failure =>
        rw [hbase] at hcheck hanswer
        rw [serveOne_of_refused hcheck]
        exact h.met_of_not_published hproper
          (by simp [Demand.versions, isPublished_of_not_located hbase]) hanswer.symm
      | ok tarball =>
        cases hcompared : located config world compared with
        | error failure =>
          rw [hbase, hcompared] at hcheck hanswer
          rw [serveOne_of_refused hcheck]
          exact h.met_of_not_published hproper
            (by simp [Demand.versions, isPublished_of_not_located hcompared]) hanswer.symm
        | ok other =>
          rw [hbase, hcompared] at hcheck hanswer
          exact h.compare_of_published htab hsame (isPublished_of_located hbase)
            (isPublished_of_located hcompared) hcheck hanswer

end Steady

theorem Steady.met (h : Steady config world state) (demand : Demand) :
    Met config world demand state (serveOne config world state demand.request).1
      (serveOne config world state demand.request).2 := by
  cases demand with
  | load version => exact h.load version
  | compare base compared tab => exact h.compare base compared tab

/-! ## Two services -/

/-- What is asked for by so many questions for the metadata. -/
def fetchTargets (config : Config) (world : World) (count : Nat) : List Target :=
  (List.replicate count (config.client.fetchMetadata world.reply).sent).flatten

/-- What a service has asked for: first the metadata, so many times, then the tarballs of versions,
among them those that it covers. -/
structure Accounts (config : Config) (world : World) (state : State) (fetches : Nat)
    (downloads : List String) : Prop where
  sent_eq : state.sent =
    fetchTargets config world fetches ++ downloads.flatMap (tarballTargets config world)
  downloads_eq : state.metadata = none → downloads = []
  mem_downloads : ∀ {version}, state.Covers version → version ∈ downloads

theorem fetchTargets_succ (count : Nat) : fetchTargets config world (count + 1) =
    fetchTargets config world count ++ (config.client.fetchMetadata world.reply).sent := by
  rw [fetchTargets, List.replicate_succ', List.flatten_append, List.flatten_singleton]
  rfl

section

variable {demand : Demand} {before after : State} {outcome : Except Problem Answer}

/-- A demand after which the metadata are not known needed no version. -/
theorem Met.needs_eq_nil (h : Met config world demand before outcome after)
    (hbefore : Steady config world before) (hnone : after.metadata = none) :
    before.metadata = none ∧ demand.needs config world = [] := by
  rw [h.metadata_eq] at hnone
  cases hproper : demand.isProper with
  | false =>
    rw [hproper] at hnone
    exact ⟨hnone, by simp [Demand.needs, hproper]⟩
  | true =>
    rw [hproper] at hnone
    have hno : ∀ metadata, published config world ≠ .ok metadata := by
      intro metadata hpublished
      rw [hpublished] at hnone
      cases hnone
    constructor
    · exact Option.eq_none_iff_forall_ne_some.mpr fun metadata hm =>
        hno metadata (hbefore.metadata_sound hm)
    · refine List.eq_nil_iff_forall_not_mem.mpr fun version hm => ?_
      obtain ⟨metadata, hpublished⟩ := published_of_isPublished (Demand.isPublished_of_mem_needs hm)
      exact hno metadata hpublished

/-- The tarballs asked for are those of all versions that were needed so far, whatever is covered. -/
theorem Accounts.mem_append {fetches : Nat} {downloads : List String}
    (h : Accounts config world before fetches downloads) (needed : List String) {version : String} :
    version ∈ downloads ++ needed.filter (¬before.Covers ·) ↔
      version ∈ downloads ∨ version ∈ needed := by
  rw [List.mem_append, List.mem_filter, decide_eq_true_iff]
  constructor
  · exact Or.imp_right And.left
  · rintro (hm | hm)
    · exact .inl hm
    · exact (em (before.Covers version)).imp h.mem_downloads fun hnot => ⟨hm, hnot⟩

theorem Accounts.met {fetches : Nat} {downloads : List String}
    (h : Accounts config world before fetches downloads) (hbefore : Steady config world before)
    (hmet : Met config world demand before outcome after) :
    Accounts config world after
      (fetches + if demand.isProper && before.metadata.isNone then 1 else 0)
      (downloads ++ (demand.needs config world).filter (¬before.Covers ·)) where
  sent_eq := by
    rw [hmet.sent_eq, h.sent_eq, List.flatMap_append]
    cases hmetadata : before.metadata with
    | none => cases demand.isProper <;> simp [h.downloads_eq hmetadata, metadataTargets, fetchTargets_succ]
    | some metadata => simp [metadataTargets]
  downloads_eq := fun hnone => by
    obtain ⟨hmetadata, hneeds⟩ := hmet.needs_eq_nil hbefore hnone
    rw [h.downloads_eq hmetadata, hneeds]
    rfl
  mem_downloads := fun hm =>
    (h.mem_append _).mpr ((hmet.covers hm).imp_left h.mem_downloads)

end

/-- Two services that differ in nothing but the prompts that they keep and in how often they asked
for a tarball. -/
structure Alike (config : Config) (world : World) (one two : State) : Prop where
  left : Steady config world one
  right : Steady config world two
  metadata_eq : one.metadata = two.metadata
  accounts : ∃ fetches downloads downloads', Accounts config world one fetches downloads ∧
    Accounts config world two fetches downloads' ∧
    ∀ version, version ∈ downloads ↔ version ∈ downloads'

theorem Alike.met {one two : State} (h : Alike config world one two) (demand : Demand) :
    Alike config world (serveOne config world one demand.request).2
      (serveOne config world two demand.request).2 := by
  have hone := h.left.met demand
  have htwo := h.right.met demand
  obtain ⟨fetches, downloads, downloads', ha, ha', hsame⟩ := h.accounts
  have hleft := ha.met h.left hone
  have hright := ha'.met h.right htwo
  rw [← h.metadata_eq] at hright
  refine ⟨hone.steady, htwo.steady, ?_, _, _, _, hleft, hright, fun version => ?_⟩
  · rw [hone.metadata_eq, htwo.metadata_eq, h.metadata_eq]
  · rw [ha.mem_append, ha'.mem_append, hsame]

/-- Demands one after the other are answered as the registry decides. -/
theorem Steady.answers (h : Steady config world state) (demands : List Demand) :
    (eachWith (serveOne config world) state (demands.map Demand.request)).1 =
      demands.map (Demand.answer config world) := by
  induction demands generalizing state with
  | nil => rfl
  | cons demand demands ih =>
    have hmet := h.met demand
    simp only [List.map_cons, eachWith]
    rw [hmet.answer_eq, ih hmet.steady]

/-- Two services that are alike stay so through the same demands. -/
theorem Alike.demands {one two : State} (h : Alike config world one two) (demands : List Demand) :
    Alike config world (eachWith (serveOne config world) one (demands.map Demand.request)).2
      (eachWith (serveOne config world) two (demands.map Demand.request)).2 := by
  induction demands generalizing one two with
  | nil => exact h
  | cons demand demands ih => exact ih (h.met demand)

/-- A service that was asked for nothing yet, with room for so many prompts. -/
def State.fresh (limit : Int) : State := { results := .ofLimit limit }

theorem entries_fresh (limit : Int) : (State.fresh limit).results.entries = [] :=
  Cache.Store.entries_ofLimit limit

theorem not_covers_fresh (limit : Int) (version : String) : ¬(State.fresh limit).Covers version := by
  rw [State.Covers, Cache.Store.keys, entries_fresh]
  rintro (hm | hm) <;> cases hm

theorem steady_fresh (config : Config) (world : World) (limit : Int) :
    Steady config world (State.fresh limit) where
  metadata_sound := nofun
  results_sound := fun hm => by
    rw [entries_fresh] at hm
    cases hm
  stuck := nofun
  metadata_eq := fun hcovers => absurd hcovers (not_covers_fresh limit _)

theorem accounts_fresh (config : Config) (world : World) (limit : Int) :
    Accounts config world (State.fresh limit) 0 [] where
  sent_eq := rfl
  downloads_eq := fun _ => rfl
  mem_downloads := fun hcovers => absurd hcovers (not_covers_fresh limit _)

/-- However many prompts a service has room for, it answers each demand with what the registry alone
decides, the same after the same demands. All that may differ is how often it asks for a tarball: the
metadata are asked for equally often, and the tarballs are those of the same versions. -/
theorem answers_unaffected_by_room (config : Config) (world : World) (demands : List Demand)
    (limit other : Int) :
    let requests := demands.map Demand.request
    let one := eachWith (serveOne config world) (.fresh limit) requests
    let two := eachWith (serveOne config world) (.fresh other) requests
    one.1 = two.1 ∧ one.1 = demands.map (Demand.answer config world) ∧
      one.2.metadata = two.2.metadata ∧
      ∃ (fetches : Nat) (downloads downloads' : List String),
        one.2.sent =
          fetchTargets config world fetches ++ downloads.flatMap (tarballTargets config world) ∧
        two.2.sent =
          fetchTargets config world fetches ++ downloads'.flatMap (tarballTargets config world) ∧
        ∀ version, version ∈ downloads ↔ version ∈ downloads' := by
  intro requests one two
  have hfresh := steady_fresh config world limit
  have hother := steady_fresh config world other
  have halike : Alike config world one.2 two.2 :=
    Alike.demands ⟨hfresh, hother, rfl, 0, [], [], accounts_fresh config world limit,
      accounts_fresh config world other, fun _ => Iff.rfl⟩ demands
  obtain ⟨fetches, downloads, downloads', ha, ha', hsame⟩ := halike.accounts
  have hone := hfresh.answers demands
  exact ⟨hone.trans (hother.answers demands).symm, hone, halike.metadata_eq, fetches, downloads,
    downloads', ha.sent_eq, ha'.sent_eq, hsame⟩

end ReleasePrompts.Service
