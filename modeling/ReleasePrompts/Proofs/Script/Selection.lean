import Mathlib.Data.List.Basic
import ReleasePrompts.Script.Profile

/-!
# The profile that accepts a source

A source is read under the first profile that forbids nothing its syntax tree holds
(`select?_eq_some_iff`), whatever was looked for in the tree before (`selectKnowing?_probeAll`). So a
profile behind one that forbids no more than it does reads no source, and may be left out
(`readUnder?_firstMatch`).
-/

namespace ReleasePrompts.Script

variable {tree : Node} {known : Probes}

/-! ## What is known of a tree -/

/-- Whether all that is known of a tree is true of it. -/
def Probes.TrueOf (known : Probes) (tree : Node) : Prop :=
  ∀ feature held, Pairs.get? known feature = some held → held = tree.hasFeature feature

theorem trueOf_nil (tree : Node) : Probes.TrueOf [] tree := nofun

theorem Probes.TrueOf.probe (h : known.TrueOf tree) (feature : Feature) :
    (probe tree known feature).1 = tree.hasFeature feature ∧
      (probe tree known feature).2.TrueOf tree := by
  unfold Script.probe
  cases hknown : Pairs.get? known feature with
  | some held => exact ⟨h feature held hknown, h⟩
  | none =>
    refine ⟨rfl, fun other held hother => ?_⟩
    by_cases heq : other = feature
    · subst heq
      rw [Pairs.get?_put_self] at hother
      exact (Option.some.inj hother).symm
    · rw [Pairs.get?_put_of_ne _ _ heq] at hother
      exact h other held hother

theorem Probes.TrueOf.probeAll (h : known.TrueOf tree) (features : List Feature) :
    (probeAll tree known features).1 = features.filter tree.hasFeature ∧
      (probeAll tree known features).2.TrueOf tree := by
  induction features generalizing known with
  | nil => exact ⟨rfl, h⟩
  | cons feature features ih =>
    obtain ⟨hheld, hafter⟩ := h.probe feature
    obtain ⟨hothers, hend⟩ := ih hafter
    refine ⟨?_, hend⟩
    simp only [Script.probeAll, hheld, hothers, List.filter_cons]

/-! ## The first profile that accepts a tree -/

/-- Whether a profile accepts a tree: no construct that it forbids occurs anywhere in it. -/
def Profile.Accepts (profile : Profile) (tree : Node) : Prop :=
  ∀ feature ∈ profile.forbidden, ∀ node ∈ tree.preorder, node.kind ≠ .feature feature

instance (profile : Profile) (tree : Node) : Decidable (profile.Accepts tree) :=
  inferInstanceAs (Decidable (∀ feature ∈ profile.forbidden, ∀ node ∈ tree.preorder, _ ≠ _))

theorem Node.hasFeature_eq_false_iff {feature : Feature} :
    tree.hasFeature feature = false ↔ ∀ node ∈ tree.preorder, node.kind ≠ .feature feature := by
  simp only [hasFeature, List.any_eq_false, beq_iff_eq, ne_eq]

theorem Profile.accepts_iff {profile : Profile} :
    profile.Accepts tree ↔ profile.forbidden.filter tree.hasFeature = [] := by
  simp only [Accepts, List.filter_eq_nil_iff, Bool.not_eq_true, Node.hasFeature_eq_false_iff]

/-- To forbid less is to accept more. -/
theorem Profile.Accepts.of_subset {profile other : Profile} (h : profile.Accepts tree)
    (hsub : other.forbidden ⊆ profile.forbidden) : other.Accepts tree :=
  fun feature hfeature => h feature (hsub hfeature)

/-- The choice is the first profile that accepts the tree, whatever is known of it. -/
theorem Probes.TrueOf.selectKnowing?_eq (h : known.TrueOf tree) (profiles : List Profile) :
    selectKnowing? tree known profiles = profiles.find? fun profile => profile.Accepts tree := by
  induction profiles generalizing known with
  | nil => rfl
  | cons profile profiles ih =>
    obtain ⟨hheld, hafter⟩ := h.probeAll profile.forbidden
    simp only [selectKnowing?, hheld, List.isEmpty_iff, ← Profile.accepts_iff, ih hafter,
      List.find?_cons]
    by_cases haccepts : profile.Accepts tree <;> simp [haccepts]

theorem select?_eq (profiles : List Profile) (tree : Node) :
    select? profiles tree = profiles.find? fun profile => profile.Accepts tree :=
  (trueOf_nil tree).selectKnowing?_eq profiles

/-- What was looked for before does not change the choice. -/
theorem selectKnowing?_probeAll (tree : Node) (features : List Feature) (profiles : List Profile) :
    selectKnowing? tree (probeAll tree [] features).2 profiles = select? profiles tree := by
  rw [((trueOf_nil tree).probeAll features).2.selectKnowing?_eq, select?_eq]

/-- The first profile of a list that accepts a tree, and its place. -/
structure IsFirst (profiles : List Profile) (tree : Node) (place : Nat) (profile : Profile) :
    Prop where
  at_place : profiles[place]? = some profile
  accepts : profile.Accepts tree
  before : ∀ earlier < place, ∀ other, profiles[earlier]? = some other → ¬other.Accepts tree

theorem select?_eq_some_iff {profiles : List Profile} {profile : Profile} :
    select? profiles tree = some profile ↔ ∃ place, IsFirst profiles tree place profile := by
  rw [select?_eq, List.find?_eq_some_iff_getElem]
  constructor
  · rintro ⟨haccepts, place, hlt, hat, hbefore⟩
    refine ⟨place, ?_, of_decide_eq_true haccepts, fun earlier hearlier other hother => ?_⟩
    · rw [List.getElem?_eq_getElem hlt, hat]
    · obtain ⟨_, rfl⟩ := List.getElem?_eq_some_iff.mp hother
      simpa using hbefore earlier hearlier
  · rintro ⟨place, hat, haccepts, hbefore⟩
    obtain ⟨hlt, hat⟩ := List.getElem?_eq_some_iff.mp hat
    refine ⟨decide_eq_true haccepts, place, hlt, hat, fun earlier hearlier => ?_⟩
    simpa using hbefore earlier hearlier _ (List.getElem?_eq_getElem (Nat.lt_trans hearlier hlt))

theorem select?_eq_none_iff {profiles : List Profile} :
    select? profiles tree = none ↔ ∀ profile ∈ profiles, ¬profile.Accepts tree := by
  simp only [select?_eq, List.find?_eq_none, decide_eq_true_eq]

theorem readUnder?_eq_some_iff {profiles : List Profile} {source : List Char} {reader : Reader}
    {parsed : Parsed} :
    readUnder? profiles source reader = some parsed ↔
      parsed.source = source ∧ reader source = some parsed.tree ∧
        select? profiles parsed.tree = some parsed.profile := by
  simp only [readUnder?, Option.bind_eq_bind, Option.bind_eq_some_iff, Option.pure_def,
    Option.some.injEq]
  constructor
  · rintro ⟨tree, hparse, profile, hselect, rfl⟩
    exact ⟨rfl, hparse, hselect⟩
  · rintro ⟨rfl, hparse, hselect⟩
    exact ⟨_, hparse, _, hselect, rfl⟩

theorem readUnder?_eq_none_iff {profiles : List Profile} {source : List Char} {reader : Reader} :
    readUnder? profiles source reader = none ↔
      ∀ tree, reader source = some tree → ∀ profile ∈ profiles, ¬profile.Accepts tree := by
  simp only [readUnder?, Option.bind_eq_bind, Option.bind_eq_none_iff, Option.pure_def,
    reduceCtorEq, imp_false, ← Option.eq_none_iff_forall_ne_some, select?_eq_none_iff]

/-! ## Profiles that are never chosen -/

/-- Whether one of some profiles forbids no more than another profile does. -/
def Covered (before : List Profile) (profile : Profile) : Prop :=
  ∃ other ∈ before, other.forbidden ⊆ profile.forbidden

/-- A profile that is covered is not the first to accept anything. -/
theorem Covered.not_isFirst {before behind : List Profile} {profile other : Profile}
    (h : Covered before profile) :
    ¬IsFirst (before ++ profile :: behind) tree before.length other := by
  intro hfirst
  obtain ⟨cover, hcover, hsub⟩ := h
  obtain ⟨place, hlt, hat⟩ := List.getElem_of_mem hcover
  have hother : profile = other := by
    have := hfirst.at_place
    rwa [List.getElem?_append_right (Nat.le_refl _), Nat.sub_self, List.getElem?_cons_zero,
      Option.some.injEq] at this
  refine hfirst.before place hlt cover ?_ ((hother ▸ hfirst.accepts).of_subset hsub)
  rw [List.getElem?_append_left hlt, List.getElem?_eq_getElem hlt, hat]

/-- A profile that is covered may be left out. -/
theorem Covered.select?_eq {before behind : List Profile} {profile : Profile}
    (h : Covered before profile) :
    select? (before ++ profile :: behind) tree = select? (before ++ behind) tree := by
  simp only [Script.select?_eq, List.find?_append]
  cases hbefore : before.find? fun earlier => earlier.Accepts tree with
  | some earlier => rfl
  | none =>
    obtain ⟨cover, hcover, hsub⟩ := h
    have hrejected : ¬profile.Accepts tree := fun haccepts =>
      of_decide_eq_false (Bool.eq_false_iff.mpr (List.find?_eq_none.mp hbefore cover hcover))
        (haccepts.of_subset hsub)
    rw [List.find?_cons_of_neg (by simpa using hrejected)]

theorem Covered.readUnder?_eq {before behind : List Profile} {profile : Profile}
    (h : Covered before profile) (source : List Char) (reader : Reader) :
    readUnder? (before ++ profile :: behind) source reader =
      readUnder? (before ++ behind) source reader := by
  simp only [readUnder?, h.select?_eq]

/-- The default profiles of the edition 2020 are covered by those of 2022 before them. -/
theorem select?_default_edition {profile : Profile}
    (h : select? defaultProfiles tree = some profile) : profile.edition ≠ some 2020 := by
  have hmodule : Covered [⟨"module-es2022", .module, some 2022, false⟩,
      ⟨"script-es2022", .script, some 2022, false⟩] ⟨"module-es2020", .module, some 2020, false⟩ :=
    ⟨_, List.mem_cons_self, by decide⟩
  have hscript : Covered [⟨"module-es2022", .module, some 2022, false⟩,
      ⟨"script-es2022", .script, some 2022, false⟩] ⟨"script-es2020", .script, some 2020, false⟩ :=
    ⟨_, List.mem_cons_of_mem _ List.mem_cons_self, by decide⟩
  have hleft : select? defaultProfiles tree =
      select? [⟨"module-es2022", .module, some 2022, false⟩,
        ⟨"script-es2022", .script, some 2022, false⟩,
        ⟨"latest-permissive", .module, none, true⟩] tree :=
    hmodule.select?_eq.trans hscript.select?_eq
  rw [hleft, select?_eq] at h
  have hmem := List.mem_of_find?_eq_some h
  simp only [List.mem_cons, List.not_mem_nil, or_false] at hmem
  rcases hmem with rfl | rfl | rfl <;> decide

/-- A tree is read under the first profile that forbids none of the constructs in it, whatever was
looked for in it before, and whichever reader gives the tree. There is none just if the source has
no tree or all profiles reject it. A profile behind one that forbids no more than it does is never
that profile, and without it every source is read as before; so the default profiles of the edition
2020 read nothing. -/
theorem readUnder?_firstMatch (profiles : List Profile) (reader : Reader) :
    (∀ tree profile, select? profiles tree = some profile ↔
      ∃ place, IsFirst profiles tree place profile) ∧
    (∀ tree features,
      selectKnowing? tree (probeAll tree [] features).2 profiles = select? profiles tree) ∧
    (∀ source parsed, readUnder? profiles source reader = some parsed ↔
      parsed.source = source ∧ reader source = some parsed.tree ∧
        ∃ place, IsFirst profiles parsed.tree place parsed.profile) ∧
    (∀ source, readUnder? profiles source reader = none ↔
      ∀ tree, reader source = some tree → ∀ profile ∈ profiles, ¬profile.Accepts tree) ∧
    (∀ before profile behind, profiles = before ++ profile :: behind →
      (∃ other ∈ before, other.forbidden ⊆ profile.forbidden) →
        (∀ tree other, ¬IsFirst profiles tree before.length other) ∧
        (∀ tree, select? (before ++ behind) tree = select? profiles tree) ∧
        ∀ source, readUnder? (before ++ behind) source reader =
          readUnder? profiles source reader) ∧
    ∀ source parsed, readUnder? defaultProfiles source reader = some parsed →
      parsed.profile.edition ≠ some 2020 := by
  refine ⟨fun tree profile => select?_eq_some_iff,
    fun tree features => selectKnowing?_probeAll tree features profiles, fun source parsed => ?_,
    fun source => readUnder?_eq_none_iff, ?_, fun source parsed h =>
      select?_default_edition (readUnder?_eq_some_iff.mp h).2.2⟩
  · rw [readUnder?_eq_some_iff, select?_eq_some_iff]
  · rintro before profile behind rfl hcovered
    have hcovered : Covered before profile := hcovered
    exact ⟨fun tree other => hcovered.not_isFirst, fun tree => hcovered.select?_eq.symm,
      fun source => (hcovered.readUnder?_eq source reader).symm⟩

/-- Of an unknown goal and an edition that is not told apart nothing is forbidden, so the profile
behind it reads no source, though it alone would read this one. -/
theorem readUnder?_firstMatch_unknown :
    (∃ other ∈ [(⟨"markup", .unknown, some 2021, false⟩ : Profile)],
      other.forbidden ⊆ (⟨"script", .script, none, false⟩ : Profile).forbidden) ∧
    (readUnder? [⟨"script", .script, none, false⟩] "a(<b/>)".toList).isSome ∧
    (∀ tree other, ¬IsFirst [⟨"markup", .unknown, some 2021, false⟩, ⟨"script", .script, none, false⟩]
      tree 1 other) ∧
    readUnder? [⟨"markup", .unknown, some 2021, false⟩] "a(<b/>)".toList =
      readUnder? [⟨"markup", .unknown, some 2021, false⟩, ⟨"script", .script, none, false⟩]
        "a(<b/>)".toList := by
  have hcovered : ∃ other ∈ [(⟨"markup", .unknown, some 2021, false⟩ : Profile)],
      other.forbidden ⊆ (⟨"script", .script, none, false⟩ : Profile).forbidden :=
    ⟨_, List.mem_cons_self, by decide⟩
  obtain ⟨-, -, -, -, hdead, -⟩ := readUnder?_firstMatch
    [⟨"markup", .unknown, some 2021, false⟩, ⟨"script", .script, none, false⟩] parse?
  obtain ⟨hfirst, -, hread⟩ := hdead [_] _ [] rfl hcovered
  exact ⟨hcovered, by decide +kernel, hfirst, hread _⟩

end ReleasePrompts.Script
