import Mathlib
import ReleasePrompts.Number.Numeral

/-!
# What an integer is read from

`exists_of_readInteger` says what an integer that is read is made of: a sign and the digits of one
base. Only a minus sign in the text makes it negative (`minus_mem_of_readInteger`), and digits alone
are read as the number that they spell (`readInteger_map_digitChar`).
-/

namespace ReleasePrompts.Number

open Text

theorem mem_of_mem_trimBoth {p : Char → Bool} {c : Char} {cs : List Char}
    (h : c ∈ trimBoth p cs) : c ∈ cs := by
  rw [trimBoth, List.mem_reverse] at h
  have h := (List.dropWhile_sublist p).subset h
  rw [List.mem_reverse] at h
  exact (List.dropWhile_sublist p).subset h

/-- No other character is read as a minus sign. -/
theorem eq_minus_of_asciiForm? {c : Char} (h : asciiForm? c = some '-') : c = '-' := by
  unfold asciiForm? at h
  split at h
  · exact Option.some.inj h
  split at h
  · cases h
  obtain ⟨value, hvalue, hd⟩ := Option.map_eq_some_iff.1 h
  obtain ⟨first, hfirst, rfl⟩ := Option.map_eq_some_iff.1 hvalue
  have hrange := List.find?_some hfirst
  simp only [Bool.and_eq_true, decide_eq_true_eq] at hrange
  have hcode := congrArg Char.toNat hd
  rw [digitChar, Char.toNat_ofNat, if_pos (.inl (by omega))] at hcode
  have hminus : '-'.toNat = 45 := rfl
  omega

theorem mem_of_mapM {α β : Type} {f : α → Option β} {xs : List α} {ys : List β} {y : β}
    (h : xs.mapM f = some ys) (hy : y ∈ ys) : ∃ x ∈ xs, f x = some y := by
  induction xs generalizing ys with
  | nil =>
    cases h
    cases hy
  | cons x xs ih =>
    simp only [List.mapM_cons, Option.bind_eq_bind, Option.bind_eq_some_iff, Option.pure_def,
      Option.some.injEq] at h
    obtain ⟨z, hz, zs, hzs, rfl⟩ := h
    rcases List.mem_cons.1 hy with rfl | hy
    · exact ⟨x, List.mem_cons_self, hz⟩
    · obtain ⟨x', hx', hf⟩ := ih hzs hy
      exact ⟨x', List.mem_cons_of_mem _ hx', hf⟩

/-- An integer that is read is a sign and the digits of one base. -/
theorem exists_of_readInteger {radix : Radix} {cs : List Char} {n : Int}
    (h : readInteger radix cs = .ok n) :
    ∃ form run, numeralForm? cs = some form ∧
      digitRun? (splitPrefix radix (splitSign form).2).1 (splitPrefix radix (splitSign form).2).2.1 =
        some run ∧
      n = if (splitSign form).1 then -(ofDigits (splitPrefix radix (splitSign form).2).1 run : Int)
        else ofDigits (splitPrefix radix (splitSign form).2).1 run := by
  unfold readInteger at h
  split at h
  case h_2 => cases h
  rename_i form hform
  simp only [] at h
  split at h
  case h_2 => cases h
  rename_i run hrun
  split at h
  · cases h
  split at h
  · cases h
  exact ⟨form, run, hform, hrun, (Except.ok.inj h).symm⟩

/-- An integer that is read as negative has a minus sign. -/
theorem minus_mem_of_readInteger {radix : Radix} {cs : List Char} {n : Int}
    (h : readInteger radix cs = .ok n) (hn : n < 0) : '-' ∈ cs := by
  obtain ⟨form, run, hform, -, rfl⟩ := exists_of_readInteger h
  obtain ⟨read, hread, rfl⟩ := Option.map_eq_some_iff.1 hform
  have hmem : '-' ∈ trimBoth isSurroundingBlank read := by
    generalize trimBoth isSurroundingBlank read = form at hn
    unfold splitSign at hn
    split at hn
    · exact List.mem_cons_self
    · simp only [Bool.false_eq_true, if_false] at hn
      omega
    · simp only [Bool.false_eq_true, if_false] at hn
      omega
  obtain ⟨c, hc, hminus⟩ := mem_of_mapM hread (mem_of_mem_trimBoth hmem)
  exact eq_minus_of_asciiForm? hminus ▸ hc

/-! ## Digits alone -/

theorem toNat_of_isDigit {c : Char} (h : c.isDigit = true) : 48 ≤ c.toNat ∧ c.toNat ≤ 57 := by
  simp only [Char.isDigit, Bool.and_eq_true, decide_eq_true_eq, ge_iff_le] at h
  exact ⟨UInt32.le_iff_toNat_le.1 h.1, UInt32.le_iff_toNat_le.1 h.2⟩

theorem toLower_of_isDigit {c : Char} (h : c.isDigit = true) : c.toLower = c := by
  have hbounds := toNat_of_isDigit h
  have hcode : c.val.toNat = c.toNat := rfl
  refine Char.toLower_eq_of_not_isUpper ?_
  simp [Char.isUpper, UInt32.le_iff_toNat_le, hcode]
  omega

theorem ne_of_isDigit {c d : Char} (hc : c.isDigit = true) (hd : d.isDigit = false) : c ≠ d :=
  fun h => by rw [h, hd] at hc; cases hc

theorem baseOfLetter?_of_isDigit {c : Char} (h : c.isDigit = true) : baseOfLetter? c = none := by
  simp [baseOfLetter?, ne_of_isDigit h (d := 'x') rfl, ne_of_isDigit h (d := 'X') rfl,
    ne_of_isDigit h (d := 'o') rfl, ne_of_isDigit h (d := 'O') rfl,
    ne_of_isDigit h (d := 'b') rfl, ne_of_isDigit h (d := 'B') rfl]

theorem toNat_digitChar {d : Nat} (h : d < 10) : (digitChar d).toNat = 48 + d := by
  rw [digitChar, Char.toNat_ofNat, if_pos (.inl (by omega))]

theorem digitChar_ne {d : Nat} (h : d < 10) {c : Char} (hc : c.toNat < 48 ∨ 57 < c.toNat) :
    digitChar d ≠ c := fun he => by
  rw [← he, toNat_digitChar h] at hc
  omega

theorem isDigit_digitChar {d : Nat} (h : d < 10) : (digitChar d).isDigit = true := by
  have hcode := toNat_digitChar h
  rw [Char.isDigit, Bool.and_eq_true, decide_eq_true_eq, decide_eq_true_eq]
  exact ⟨UInt32.le_iff_toNat_le.mpr (show 48 ≤ (digitChar d).toNat by omega),
    UInt32.le_iff_toNat_le.mpr (show (digitChar d).toNat ≤ 57 by omega)⟩

theorem digitInBase?_digitChar {base d : Nat} (hbase : base ≤ 10) (h : d < base) :
    digitInBase? base (digitChar d) = some d := by
  have hcode := toNat_digitChar (d := d) (by omega)
  have hdigit := isDigit_digitChar (d := d) (by omega)
  have hvalue : hexDigitValue (digitChar d) = d := by
    rw [hexDigitValue, if_pos hdigit, hcode]
    omega
  rw [digitInBase?, isHexDigit, hdigit, hvalue]
  simp [Option.filter, h]

/-- Digits without separators, however they are spelled. -/
theorem digitRun?_map {base : Nat} {spell : Nat → Char} {digits : List Nat} (hne : digits ≠ [])
    (h : ∀ d ∈ digits, digitInBase? base (spell d) = some d) :
    digitRun? base (digits.map spell) = some digits := by
  induction digits with
  | nil => exact absurd rfl hne
  | cons d digits ih =>
    obtain ⟨hd, h⟩ := List.forall_mem_cons.mp h
    cases digits with
    | nil => simp [digitRun?, hd]
    | cons e digits =>
      have hrest := ih (List.cons_ne_nil e digits) h
      have he : spell e ≠ '_' := fun hseparator => by
        have := h e List.mem_cons_self
        rw [hseparator] at this
        cases this
      rw [List.map_cons] at hrest
      rw [List.map_cons, List.map_cons, digitRun?, hd, hrest]
      · rfl
      · exact he

theorem mapM_eq_some {α : Type} {f : α → Option α} {xs : List α} (h : ∀ x ∈ xs, f x = some x) :
    xs.mapM f = some xs := by
  induction xs with
  | nil => rfl
  | cons x xs ih =>
    obtain ⟨hx, h⟩ := List.forall_mem_cons.mp h
    simp [hx, ih h]

theorem dropWhile_eq_self {α : Type} {p : α → Bool} {xs : List α} (h : ∀ x ∈ xs, p x = false) :
    xs.dropWhile p = xs := by
  cases xs with
  | nil => rfl
  | cons x xs => rw [List.dropWhile_cons, h x List.mem_cons_self, if_neg Bool.false_ne_true]

theorem takeWhile_of_stop {α : Type} {p : α → Bool} {xs ys : List α} (h : ∀ x ∈ xs, p x = true)
    (hstop : ∀ y ∈ ys.head?, p y = false) : (xs ++ ys).takeWhile p = xs := by
  rw [List.takeWhile_append_of_pos h]
  cases ys with
  | nil => rw [List.takeWhile_nil, List.append_nil]
  | cons y ys => simp [hstop y rfl]

theorem dropWhile_of_stop {α : Type} {p : α → Bool} {xs ys : List α} (h : ∀ x ∈ xs, p x = true)
    (hstop : ∀ y ∈ ys.head?, p y = false) : (xs ++ ys).dropWhile p = ys := by
  rw [List.dropWhile_append_of_pos h]
  cases ys with
  | nil => rfl
  | cons y ys => simp [hstop y rfl]

theorem trimBoth_eq_self {p : Char → Bool} {cs : List Char} (h : ∀ c ∈ cs, p c = false) :
    trimBoth p cs = cs := by
  have hreverse : ∀ c ∈ cs.reverse, p c = false := fun c hc => h c (List.mem_reverse.mp hc)
  rw [trimBoth, dropWhile_eq_self h, dropWhile_eq_self hreverse, List.reverse_reverse]

/-- A text of ASCII without blanks is in ASCII already. -/
theorem numeralForm?_eq_self {cs : List Char} (h : ∀ c ∈ cs, 32 < c.toNat ∧ c.toNat < 127) :
    numeralForm? cs = some cs := by
  rw [numeralForm?, mapM_eq_some, Option.map_some, trimBoth_eq_self]
  · intro c hc
    have hbounds := h c hc
    have hspace : c ≠ ' ' := fun h => by
      rw [h] at hbounds
      exact absurd hbounds.1 (by decide)
    simp [isSurroundingBlank, hspace]
    omega
  · intro c hc
    rw [asciiForm?, if_pos (h c hc).2]

variable {base : Nat} {digits : List Nat}

theorem numeralForm?_map (hlt : ∀ d ∈ digits, d < 10) :
    numeralForm? (digits.map digitChar) = some (digits.map digitChar) := by
  refine numeralForm?_eq_self fun c hc => ?_
  obtain ⟨d, hd, rfl⟩ := List.mem_map.mp hc
  have := hlt d hd
  rw [toNat_digitChar this]
  omega

theorem splitSign_map (hlt : ∀ d ∈ digits, d < 10) :
    splitSign (digits.map digitChar) = (false, digits.map digitChar) := by
  cases digits with
  | nil => rfl
  | cons first others =>
    have hfirst := hlt first List.mem_cons_self
    have hminus : digitChar first ≠ '-' := digitChar_ne hfirst (.inl (by decide))
    have hplus : digitChar first ≠ '+' := digitChar_ne hfirst (.inl (by decide))
    rw [List.map_cons, splitSign]
    · exact fun _ h => hminus (List.cons.inj h).1
    · exact fun _ h => hplus (List.cons.inj h).1

/-- The base of a numeral that does not name its base. -/
def Radix.unnamed : Radix → Nat
  | .given base => base
  | .written => 10

/-- No digit names a base. -/
theorem splitPrefix_map (radix : Radix) (hlt : ∀ d ∈ digits, d < 10) :
    splitPrefix radix (digits.map digitChar) = (radix.unnamed, digits.map digitChar, false) := by
  match digits with
  | [] => cases radix <;> rfl
  | [_] => cases radix <;> simp [splitPrefix, Radix.unnamed]
  | first :: second :: others =>
    have hnone : baseOfLetter? (digitChar second) = none :=
      baseOfLetter?_of_isDigit (isDigit_digitChar (hlt second (by simp)))
    by_cases hzero : digitChar first = '0'
    · cases radix <;> simp [splitPrefix, hzero, hnone, Radix.unnamed]
    · cases radix <;>
      · rw [List.map_cons, List.map_cons, splitPrefix]
        · rfl
        · exact fun _ _ h => hzero (List.cons.inj h).1

/-- Digits of a base that is given are read as the number that they spell. -/
theorem readInteger_map_digitChar (hbase : base ≤ 10) (hne : digits ≠ [])
    (hlt : ∀ d ∈ digits, d < base)
    (hlimit : isPowerOfTwo base = true ∨ digits.length ≤ digitLimit) :
    readInteger (.given base) (digits.map digitChar) = .ok (ofDigits base digits : Int) := by
  have hten : ∀ d ∈ digits, d < 10 := fun d hd => Nat.lt_of_lt_of_le (hlt d hd) hbase
  have hlength : (!isPowerOfTwo base && decide (digitLimit < digits.length)) = false := by
    rw [Bool.and_eq_false_iff, decide_eq_false_iff_not, Nat.not_lt, Bool.not_eq_false']
    exact hlimit
  have hradix : (Radix.given base == Radix.written) = false := rfl
  unfold readInteger
  simp only [numeralForm?_map hten, splitSign_map hten, splitPrefix_map _ hten, Radix.unnamed,
    digitRun?_map hne fun d hd => digitInBase?_digitChar hbase (hlt d hd), hlength, hradix]
  rfl

/-- Digits spell the number that they are the digits of. -/
theorem ofDigits_eq (base : Nat) (digits : List Nat) :
    ofDigits base digits = Nat.ofDigits base digits.reverse := by
  rw [ofDigits, Nat.ofDigits_eq_foldr, List.foldr_reverse]
  congr 1
  funext value digit
  rw [Nat.cast_id, Nat.add_comm, Nat.mul_comm]

end ReleasePrompts.Number
