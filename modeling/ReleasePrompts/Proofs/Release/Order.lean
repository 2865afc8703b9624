import Mathlib
import ReleasePrompts.Release.Version

/-!
# How consistent the order of versions is

`compareVersions` joins two orders, that of numbers between plain versions and that of texts between
all others. It always says the opposite of two versions the other way round
(`compareVersions_swap`). It is transitive on some versions just if they are `Consistent`: where a
version that is not plain stands, as text, between two that are, their numbers have to be in the
order of their texts (`atMost_trans_iff`).
-/

namespace ReleasePrompts.Release

open Number Text

/-! ## The two orders -/

theorem compareNumbers_eq (as bs : List Nat) : compareNumbers as bs = as.compareLex compare bs := by
  induction as generalizing bs with
  | nil => cases bs <;> rfl
  | cons a as ih =>
    cases bs with
    | nil => rfl
    | cons b bs =>
      rw [compareNumbers, ih, List.compareLex_cons_cons]

instance : Std.TransCmp compareNumbers := by
  have h : compareNumbers = List.compareLex compare := funext₂ compareNumbers_eq
  rw [h]
  infer_instance

theorem compareText_eq_lt {a b : String} : compareText a b = .lt ↔ a < b := by
  rw [compareText]
  split
  · simp [*]
  · split <;> simp [*]

theorem compareText_eq_gt {a b : String} : compareText a b = .gt ↔ b < a := by
  rw [compareText]
  split
  case isTrue h => exact ⟨nofun, fun h' => absurd (h.trans h') (lt_irrefl a)⟩
  case isFalse => split <;> simp [*]

theorem isLE_compareText {a b : String} : (compareText a b).isLE ↔ a ≤ b := by
  rw [← not_lt, ← compareText_eq_gt]
  cases compareText a b <;> simp

instance : Std.TransCmp compareText where
  eq_swap {a b} := by
    cases h : compareText b a with
    | lt => exact compareText_eq_gt.mpr (compareText_eq_lt.mp h)
    | gt => exact compareText_eq_lt.mpr (compareText_eq_gt.mp h)
    | eq =>
      have hle : b ≤ a := isLE_compareText.mp (by simp [h])
      have hge : ¬b < a := fun hlt => by simp [compareText_eq_lt.mpr hlt] at h
      have heq : a = b := le_antisymm (not_lt.mp hge) hle
      subst heq
      exact h
  isLE_trans hab hbc := isLE_compareText.mpr
    ((isLE_compareText.mp hab).trans (isLE_compareText.mp hbc))

/-! ## Versions -/

/-- A version that consists of three numbers. -/
def IsPlain (version : String) : Prop := (plainParts? version).isSome

instance (version : String) : Decidable (IsPlain version) :=
  inferInstanceAs (Decidable (_ = true))

/-- A version whose numbers, if it is plain, have no more digits than are read. -/
def IsReadable (version : String) : Prop :=
  ∀ parts ∈ plainParts? version, ∀ digits ∈ parts, digits.length ≤ digitLimit

instance (version : String) : Decidable (IsReadable version) :=
  inferInstanceAs (Decidable (∀ parts ∈ plainParts? version, _))

/-- The numbers of a plain version. -/
def numbersOf (parts : List (List Char)) : List Nat :=
  parts.map fun digits => ofDigits 10 (digits.filterMap digitValue?)

/-- The order of two versions whose numbers are read. -/
def order (a b : String) : Ordering :=
  match plainParts? a, plainParts? b with
  | some as, some bs => compareNumbers (numbersOf as) (numbersOf bs)
  | _, _ => compareText a b

theorem mapM_readNumber {parts : List (List Char)}
    (h : ∀ digits ∈ parts, digits.length ≤ digitLimit) :
    parts.mapM readNumber = .ok (numbersOf parts) := by
  induction parts with
  | nil => rfl
  | cons digits parts ih =>
    obtain ⟨hdigits, hparts⟩ := List.forall_mem_cons.mp h
    rw [List.mapM_cons, ih hparts, readNumber, if_neg (Nat.not_lt.mpr hdigits)]
    rfl

theorem compareVersions_eq_order {a b : String} (ha : IsReadable a) (hb : IsReadable b) :
    compareVersions a b = .ok (order a b) := by
  rw [compareVersions, order]
  cases has : plainParts? a with
  | none => rfl
  | some as =>
    cases hbs : plainParts? b with
    | none => rfl
    | some bs =>
      simp only [mapM_readNumber (ha as has), mapM_readNumber (hb bs hbs)]
      rfl

theorem order_of_plain {a b : String} (ha : IsPlain a) (hb : IsPlain b) :
    ∃ as bs, plainParts? a = some as ∧ plainParts? b = some bs ∧
      order a b = compareNumbers (numbersOf as) (numbersOf bs) := by
  obtain ⟨as, has⟩ := Option.isSome_iff_exists.mp ha
  obtain ⟨bs, hbs⟩ := Option.isSome_iff_exists.mp hb
  exact ⟨as, bs, has, hbs, by simp only [order, has, hbs]⟩

theorem order_of_not_plain_left {a : String} (h : ¬IsPlain a) (b : String) :
    order a b = compareText a b := by
  rw [order, Option.not_isSome_iff_eq_none.mp h]

theorem order_of_not_plain_right {b : String} (h : ¬IsPlain b) (a : String) :
    order a b = compareText a b := by
  rw [order, Option.not_isSome_iff_eq_none.mp h]
  cases plainParts? a <;> rfl

theorem order_swap (a b : String) : order b a = (order a b).swap := by
  by_cases ha : IsPlain a
  · by_cases hb : IsPlain b
    · obtain ⟨as, bs, has, hbs, hab⟩ := order_of_plain ha hb
      rw [hab, order, hbs, has]
      exact Std.OrientedCmp.eq_swap
    · rw [order_of_not_plain_left hb, order_of_not_plain_right hb]
      exact Std.OrientedCmp.eq_swap
  · rw [order_of_not_plain_left ha, order_of_not_plain_right ha]
    exact Std.OrientedCmp.eq_swap

/-- The other way round two versions compare the opposite way. -/
theorem compareVersions_swap {a b : String} (ha : IsReadable a) (hb : IsReadable b) :
    ∃ order, compareVersions a b = .ok order ∧ compareVersions b a = .ok order.swap :=
  ⟨order a b, compareVersions_eq_order ha hb, order_swap a b ▸ compareVersions_eq_order hb ha⟩

/-- The comparison says of a version that it is not greater than another. -/
def AtMost (a b : String) : Prop := ∃ order, compareVersions a b = .ok order ∧ order.isLE

theorem atMost_iff {a b : String} (ha : IsReadable a) (hb : IsReadable b) :
    AtMost a b ↔ (order a b).isLE := by
  simp only [AtMost, compareVersions_eq_order ha hb, Except.ok.injEq, exists_eq_left']

/-! ## Transitivity -/

/-- Wherever a version that is not plain stands, as text, between two that are, their numbers are in
the order of their texts. -/
def Consistent (versions : List String) : Prop :=
  ∀ p ∈ versions, ∀ q ∈ versions, ∀ r ∈ versions, IsPlain p → IsPlain q → ¬IsPlain r →
    p < r → r < q → compareVersions p q = .ok .lt

set_option synthInstance.maxSize 1000 in
instance (versions : List String) : Decidable (Consistent versions) :=
  inferInstanceAs (Decidable (∀ p ∈ versions, ∀ q ∈ versions, ∀ r ∈ versions, _))

theorem isLE_order_of_plain {a b c : String} (ha : IsPlain a) (hb : IsPlain b) (hc : IsPlain c)
    (hab : (order a b).isLE) (hbc : (order b c).isLE) : (order a c).isLE := by
  obtain ⟨as, bs, has, hbs, horder⟩ := order_of_plain ha hb
  obtain ⟨cs, hcs⟩ := Option.isSome_iff_exists.mp hc
  simp only [order, has, hbs, hcs] at hab hbc ⊢
  exact Std.TransCmp.isLE_trans hab hbc

theorem lt_of_isLE_order {a b : String} (h : ¬(IsPlain a ↔ IsPlain b)) (hab : (order a b).isLE) :
    a < b := by
  have hne : a ≠ b := fun e => h (e ▸ Iff.rfl)
  by_cases ha : IsPlain a
  · rw [order_of_not_plain_right (fun hb => h ⟨fun _ => hb, fun _ => ha⟩), isLE_compareText] at hab
    exact lt_of_le_of_ne hab hne
  · rw [order_of_not_plain_left ha, isLE_compareText] at hab
    exact lt_of_le_of_ne hab hne

/-- Among consistent versions no three go round. -/
theorem isLE_order_trans {versions : List String} (hread : ∀ v ∈ versions, IsReadable v)
    (h : Consistent versions) {a b c : String} (ha : a ∈ versions) (hb : b ∈ versions)
    (hc : c ∈ versions) (hab : (order a b).isLE) (hbc : (order b c).isLE) : (order a c).isLE := by
  have between : ∀ {p q r : String}, p ∈ versions → q ∈ versions → r ∈ versions → IsPlain p →
      IsPlain q → ¬IsPlain r → p < r → r < q → order p q = .lt := by
    intro p q r hp hq hr hpp hqp hrp hpr hrq
    have := h p hp q hq r hr hpp hqp hrp hpr hrq
    rwa [compareVersions_eq_order (hread p hp) (hread q hq), Except.ok.injEq] at this
  have isLE_of_lt : ∀ {x y : String}, order x y = .lt → (order x y).isLE := fun e => by rw [e]; rfl
  have not_lt_swap : ∀ {x y : String}, order x y = .lt → ¬(order y x).isLE := fun {x y} e => by
    rw [order_swap x y, e]
    decide
  by_cases hap : IsPlain a <;> by_cases hbp : IsPlain b <;> by_cases hcp : IsPlain c
  · exact isLE_order_of_plain hap hbp hcp hab hbc
  · -- `c` alone is not plain, so the text of `a` may not come behind it
    have hlt : b < c := lt_of_isLE_order (by simp [hbp, hcp]) hbc
    rw [order_of_not_plain_right hcp, isLE_compareText]
    by_contra hca
    exact not_lt_swap (between hb ha hc hbp hap hcp hlt (not_le.mp hca)) hab
  · -- `b` alone is not plain
    exact isLE_of_lt (between ha hc hb hap hcp hbp (lt_of_isLE_order (by simp [hap, hbp]) hab)
      (lt_of_isLE_order (by simp [hbp, hcp]) hbc))
  · rw [order_of_not_plain_right hbp, isLE_compareText] at hab
    rw [order_of_not_plain_left hbp, isLE_compareText] at hbc
    rw [order_of_not_plain_right hcp, isLE_compareText]
    exact hab.trans hbc
  · -- `a` alone is not plain, so the text of `c` may not come before it
    have hlt : a < b := lt_of_isLE_order (by simp [hap, hbp]) hab
    rw [order_of_not_plain_left hap, isLE_compareText]
    by_contra hca
    exact not_lt_swap (between hc hb ha hcp hbp hap (not_le.mp hca) hlt) hbc
  all_goals
    rw [order_of_not_plain_left hap, isLE_compareText] at hab ⊢
    first
      | rw [order_of_not_plain_left hbp, isLE_compareText] at hbc
      | rw [order_of_not_plain_right hcp, isLE_compareText] at hbc
    exact hab.trans hbc

/-- The comparison is transitive on versions just if they are consistent. -/
theorem atMost_trans_iff {versions : List String} (hread : ∀ v ∈ versions, IsReadable v) :
    (∀ a ∈ versions, ∀ b ∈ versions, ∀ c ∈ versions, AtMost a b → AtMost b c → AtMost a c) ↔
      Consistent versions := by
  constructor
  · intro htrans p hp q hq r hr hpp hqp hrp hpr hrq
    have isLE : ∀ {a b : String}, a ∈ versions → b ∈ versions → (AtMost a b ↔ (order a b).isLE) :=
      fun ha hb => atMost_iff (hread _ ha) (hread _ hb)
    have hpr' : AtMost p r := by
      rw [isLE hp hr, order_of_not_plain_right hrp, isLE_compareText]
      exact hpr.le
    have hrq' : AtMost r q := by
      rw [isLE hr hq, order_of_not_plain_left hrp, isLE_compareText]
      exact hrq.le
    have hpq := (isLE hp hq).mp (htrans p hp r hr q hq hpr' hrq')
    rw [compareVersions_eq_order (hread p hp) (hread q hq)]
    cases horder : order p q with
    | lt => rfl
    | gt => simp [horder] at hpq
    | eq =>
      -- equal numbers would lead from `q` through `p` to `r`, whose text comes before
      have hqp' : AtMost q p := by
        rw [isLE hq hp, order_swap p q, horder]
        rfl
      have hqr := htrans q hq p hp r hr hqp' hpr'
      rw [isLE hq hr, order_of_not_plain_right hrp, isLE_compareText] at hqr
      exact absurd hrq (not_lt.mpr hqr)
  · intro h a ha b hb c hc hab hbc
    rw [atMost_iff (hread _ ha) (hread _ hb)] at hab
    rw [atMost_iff (hread _ hb) (hread _ hc)] at hbc
    rw [atMost_iff (hread _ ha) (hread _ hc)]
    exact isLE_order_trans hread h ha hb hc hab hbc

end ReleasePrompts.Release
