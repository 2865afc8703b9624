import Mathlib
import ReleasePrompts.Proofs.Number.Numeral
import ReleasePrompts.Proofs.Release.Order

/-!
# The numbers of a plain version

A plain version spells three numbers, with points between them (`Spells`, `exists_spells_iff`), and
these are the numbers that are read from it (`Spells.plainParts?_eq`). Two such versions are in the
order of their numbers: by the first, then by the second, then by the third (`order_eq_lt_iff`).
-/

namespace ReleasePrompts.Release

open Number Text

/-- The numbers of a plain version. -/
@[ext] structure Numbers where
  major : Nat
  minor : Nat
  patch : Nat
  deriving Repr

namespace Numbers

/-- The numbers, to be compared place by place. -/
def key (numbers : Numbers) : ℕ ×ₗ ℕ ×ₗ ℕ :=
  toLex (numbers.major, toLex (numbers.minor, numbers.patch))

theorem key_injective : Function.Injective key := fun a b h => by
  obtain ⟨hmajor, h⟩ := Prod.mk.inj h
  obtain ⟨hminor, hpatch⟩ := Prod.mk.inj h
  exact Numbers.ext hmajor hminor hpatch

instance : LinearOrder Numbers := LinearOrder.lift' key key_injective

theorem lt_iff {a b : Numbers} : a < b ↔ a.major < b.major ∨ a.major = b.major ∧
    (a.minor < b.minor ∨ a.minor = b.minor ∧ a.patch < b.patch) := by
  have h : a < b ↔ a.key < b.key := Iff.rfl
  rw [h, key, key, Prod.Lex.toLex_lt_toLex, Prod.Lex.toLex_lt_toLex]

/-- The numbers in a list. -/
def toList (numbers : Numbers) : List Nat := [numbers.major, numbers.minor, numbers.patch]

theorem compareNumbers_toList {a b : Numbers} :
    compareNumbers a.toList b.toList = .lt ↔ a < b := by
  simp only [toList, compareNumbers, Ordering.then_eq_lt, compare_lt_iff_lt, compare_eq_iff_eq,
    reduceCtorEq, and_false, or_false, lt_iff]

end Numbers

/-- Digits, of any script and perhaps with zeros in front, that spell a number and are read. -/
structure SpellsNumber (digits : List Char) (n : Nat) : Prop where
  ne_nil : digits ≠ []
  decimal : digits.all isDecimalDigit = true
  length_le : digits.length ≤ digitLimit
  value_eq : ofDigits 10 (digits.filterMap digitValue?) = n

instance (digits : List Char) (n : Nat) : Decidable (SpellsNumber digits n) :=
  decidable_of_iff
    (digits ≠ [] ∧ digits.all isDecimalDigit = true ∧ digits.length ≤ digitLimit ∧
      ofDigits 10 (digits.filterMap digitValue?) = n)
    ⟨fun ⟨hne, hdecimal, hlength, hvalue⟩ => ⟨hne, hdecimal, hlength, hvalue⟩,
      fun h => ⟨h.ne_nil, h.decimal, h.length_le, h.value_eq⟩⟩

/-- A version that spells three numbers with points between them. One line feed may end it. -/
def Spells (version : String) (numbers : Numbers) : Prop :=
  ∃ major minor patch ending : List Char,
    version.toList = major ++ '.' :: (minor ++ '.' :: (patch ++ ending)) ∧
      (ending = [] ∨ ending = ['\n']) ∧ SpellsNumber major numbers.major ∧
      SpellsNumber minor numbers.minor ∧ SpellsNumber patch numbers.patch

theorem SpellsNumber.takeDigits?_append {digits behind : List Char} {n : Nat}
    (h : SpellsNumber digits n) (hbehind : ∀ c ∈ behind.head?, isDecimalDigit c = false) :
    takeDigits? (digits ++ behind) = some (digits, behind) := by
  have hne : digits.isEmpty = false := by simpa using h.ne_nil
  have hall : ∀ c ∈ digits, isDecimalDigit c = true := List.all_eq_true.mp h.decimal
  simp only [takeDigits?, takeWhile_of_stop hall hbehind, dropWhile_of_stop hall hbehind, hne,
    Bool.false_eq_true, if_false]

theorem isDecimalDigit_point : ∀ (behind : List Char), ∀ c ∈ ('.' :: behind).head?,
    isDecimalDigit c = false := by
  rintro behind _ ⟨⟩
  decide

variable {version : String} {numbers : Numbers}

theorem Spells.plainParts?_eq (h : Spells version numbers) :
    ∃ parts, plainParts? version = some parts ∧ numbersOf parts = numbers.toList ∧
      ∀ digits ∈ parts, digits.length ≤ digitLimit := by
  obtain ⟨major, minor, patch, ending, hversion, hending, hmajor, hminor, hpatch⟩ := h
  have hend : (∀ c ∈ ending.head?, isDecimalDigit c = false) ∧
      (ending.isEmpty || ending == ['\n']) = true := by
    rcases hending with rfl | rfl
    · exact ⟨nofun, rfl⟩
    · refine ⟨?_, rfl⟩
      rintro _ ⟨⟩
      decide
  refine ⟨[major, minor, patch], ?_, ?_, ?_⟩
  · simp only [plainParts?, hversion, hmajor.takeDigits?_append (isDecimalDigit_point _),
      hminor.takeDigits?_append (isDecimalDigit_point _), hpatch.takeDigits?_append hend.1, hend.2,
      if_true, Option.bind_eq_bind, Option.bind_some]
  · simp only [numbersOf, List.map_cons, List.map_nil, hmajor.value_eq, hminor.value_eq,
      hpatch.value_eq, Numbers.toList]
  · simp only [List.forall_mem_cons, List.not_mem_nil, false_imp_iff, implies_true, and_true]
    exact ⟨hmajor.length_le, hminor.length_le, hpatch.length_le⟩

theorem Spells.isReadable (h : Spells version numbers) : IsReadable version := by
  obtain ⟨parts, hparts, -, hlength⟩ := h.plainParts?_eq
  intro parts' hparts'
  obtain rfl : parts = parts' := Option.some.inj (hparts.symm.trans hparts')
  exact hlength

theorem eq_append_of_takeDigits? {cs digits behind : List Char}
    (h : takeDigits? cs = some (digits, behind)) :
    cs = digits ++ behind ∧ digits ≠ [] ∧ digits.all isDecimalDigit = true := by
  rw [takeDigits?] at h
  split at h
  · cases h
  · next hne =>
      cases h
      refine ⟨List.takeWhile_append_dropWhile.symm, by simpa using hne, ?_⟩
      exact List.all_eq_true.mpr fun _ => List.mem_takeWhile_imp

/-- The parts of a plain version, with points between them. -/
theorem eq_append_of_plainParts? {parts : List (List Char)}
    (h : plainParts? version = some parts) :
    ∃ major minor patch ending, parts = [major, minor, patch] ∧
      version.toList = major ++ '.' :: (minor ++ '.' :: (patch ++ ending)) ∧
      (ending = [] ∨ ending = ['\n']) ∧
      ∀ digits ∈ parts, digits ≠ [] ∧ digits.all isDecimalDigit = true := by
  simp only [plainParts?, Option.bind_eq_bind, Option.bind_eq_some_iff] at h
  obtain ⟨⟨major, _⟩, hmajor, h⟩ := h
  dsimp only at h
  split at h
  case h_2 => cases h
  obtain ⟨⟨minor, _⟩, hminor, h⟩ := Option.bind_eq_some_iff.mp h
  dsimp only at h
  split at h
  case h_2 => cases h
  obtain ⟨⟨patch, ending⟩, hpatch, h⟩ := Option.bind_eq_some_iff.mp h
  split at h
  case isFalse => cases h
  next hending =>
    cases h
    obtain ⟨hversion, hmajor'⟩ := eq_append_of_takeDigits? hmajor
    obtain ⟨rfl, hminor'⟩ := eq_append_of_takeDigits? hminor
    obtain ⟨rfl, hpatch'⟩ := eq_append_of_takeDigits? hpatch
    refine ⟨major, minor, patch, ending, rfl, hversion, by simpa using hending, ?_⟩
    simp only [List.forall_mem_cons, List.not_mem_nil, false_imp_iff, implies_true, and_true]
    exact ⟨hmajor', hminor', hpatch'⟩

/-- The versions that spell numbers are the plain ones whose numbers are read. -/
theorem exists_spells_iff :
    (∃ numbers, Spells version numbers) ↔ IsPlain version ∧ IsReadable version := by
  constructor
  · rintro ⟨numbers, h⟩
    obtain ⟨parts, hparts, -⟩ := h.plainParts?_eq
    exact ⟨Option.isSome_iff_exists.mpr ⟨parts, hparts⟩, h.isReadable⟩
  · rintro ⟨hplain, hread⟩
    obtain ⟨parts, hparts⟩ := Option.isSome_iff_exists.mp hplain
    have hlength := hread parts hparts
    obtain ⟨major, minor, patch, ending, rfl, hversion, hending, hdigits⟩ :=
      eq_append_of_plainParts? hparts
    have hspells : ∀ digits ∈ [major, minor, patch],
        SpellsNumber digits (ofDigits 10 (digits.filterMap digitValue?)) := fun digits hmem =>
      ⟨(hdigits digits hmem).1, (hdigits digits hmem).2, hlength digits hmem, rfl⟩
    exact ⟨⟨_, _, _⟩, major, minor, patch, ending, hversion, hending, hspells major (by simp),
      hspells minor (by simp), hspells patch (by simp)⟩

/-- Plain versions are in the order of their numbers. -/
theorem order_eq_lt_iff {a b : String} {m n : Numbers} (ha : Spells a m) (hb : Spells b n) :
    order a b = .lt ↔ m < n := by
  obtain ⟨as, has, hm, -⟩ := ha.plainParts?_eq
  obtain ⟨bs, hbs, hn, -⟩ := hb.plainParts?_eq
  simp only [order, has, hbs, hm, hn]
  exact Numbers.compareNumbers_toList

end ReleasePrompts.Release
