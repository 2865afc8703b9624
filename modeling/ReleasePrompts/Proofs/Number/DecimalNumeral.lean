import ReleasePrompts.Proofs.Number.Numeral
import ReleasePrompts.Proofs.Number.Shortest

/-!
# Decimal numerals

A decimal numeral is a sign, digits, perhaps digits behind a point, and perhaps a power of ten with
its sign. A text is the spelling of one numeral at most (`DecimalNumeral.eq_of_spelled_eq`), so that
it denotes one value at most, and a real is read from it that is nearest to the value
(`readReal?_spelled`).
-/

namespace ReleasePrompts.Number

open Text

/-- A numeral such as `-12.50e-7`: its sign, the digits before the point, those behind it, and the
sign and the digits of the power of ten. -/
@[ext] structure DecimalNumeral where
  negative : Bool
  whole : List Char
  fraction : Option (List Char)
  power : Option (Bool × List Char)
  whole_ne_nil : whole ≠ []
  isDigit_whole : ∀ c ∈ whole, c.isDigit = true
  isDigit_fraction : ∀ digits ∈ fraction, ∀ c ∈ digits, c.isDigit = true
  power_ne_nil : ∀ e ∈ power, e.2 ≠ []
  isDigit_power : ∀ e ∈ power, ∀ c ∈ e.2, c.isDigit = true

namespace DecimalNumeral

/-- The text of a fraction. -/
def fractionText : Option (List Char) → List Char
  | none => []
  | some digits => '.' :: digits

/-- The text of a power of ten, its sign written in any case. -/
def powerText : Option (Bool × List Char) → List Char
  | none => []
  | some (negative, digits) => 'e' :: (if negative then '-' else '+') :: digits

/-- The text of a numeral without its sign. -/
def unsigned (n : DecimalNumeral) : List Char :=
  n.whole ++ fractionText n.fraction ++ powerText n.power

/-- The text of a numeral. -/
def spelled (n : DecimalNumeral) : List Char := (if n.negative then ['-'] else []) ++ n.unsigned

/-- The value of the digits behind the point. -/
def fractionValue : Option (List Char) → ℚ
  | none => 0
  | some digits => Nat.ofDigitChars 10 digits 0 / 10 ^ digits.length

/-- The exponent of the power of ten. -/
def exponent : Option (Bool × List Char) → ℤ
  | none => 0
  | some (negative, digits) => (if negative then -1 else 1) * (Nat.ofDigitChars 10 digits 0 : ℤ)

/-- The value of a numeral without its sign. -/
def size (n : DecimalNumeral) : ℚ :=
  (Nat.ofDigitChars 10 n.whole 0 + fractionValue n.fraction) * 10 ^ exponent n.power

/-- The value of a numeral. -/
def value (n : DecimalNumeral) : ℚ := (if n.negative then -1 else 1) * n.size

theorem size_nonneg (n : DecimalNumeral) : 0 ≤ n.size := by
  have hfraction : 0 ≤ fractionValue n.fraction := by
    cases n.fraction <;> simp only [fractionValue] <;> positivity
  exact mul_nonneg (add_nonneg (Nat.cast_nonneg _) hfraction) (Binary64.ten_zpow_pos _).le

theorem abs_value (n : DecimalNumeral) : |n.value| = n.size := by
  rw [value]
  split_ifs
  · rw [neg_one_mul, abs_neg, abs_of_nonneg n.size_nonneg]
  · rw [one_mul, abs_of_nonneg n.size_nonneg]

/-- A numeral without a power of ten. -/
def plain (negative : Bool) (whole : List Char) (fraction : Option (List Char)) (hne : whole ≠ [])
    (hwhole : ∀ c ∈ whole, c.isDigit = true)
    (hfraction : ∀ digits ∈ fraction, ∀ c ∈ digits, c.isDigit = true) : DecimalNumeral where
  negative
  whole
  fraction
  power := none
  whole_ne_nil := hne
  isDigit_whole := hwhole
  isDigit_fraction := hfraction
  power_ne_nil := by simp
  isDigit_power := by simp

theorem unsigned_plain {negative : Bool} {whole : List Char} {fraction : Option (List Char)}
    (hne : whole ≠ []) (hwhole : ∀ c ∈ whole, c.isDigit = true)
    (hfraction : ∀ digits ∈ fraction, ∀ c ∈ digits, c.isDigit = true) :
    (plain negative whole fraction hne hwhole hfraction).unsigned =
      whole ++ fractionText fraction :=
  List.append_nil _

/-! ## One numeral for a text -/

/-- Digits end where something else stands. -/
theorem append_inj_of_isDigit {digits digits' behind behind' : List Char}
    (hdigits : ∀ c ∈ digits, c.isDigit = true) (hdigits' : ∀ c ∈ digits', c.isDigit = true)
    (hbehind : ∀ c ∈ behind.head?, c.isDigit = false)
    (hbehind' : ∀ c ∈ behind'.head?, c.isDigit = false)
    (h : digits ++ behind = digits' ++ behind') : digits = digits' ∧ behind = behind' := by
  have hfront := congrArg (List.takeWhile Char.isDigit) h
  have hback := congrArg (List.dropWhile Char.isDigit) h
  rw [takeWhile_of_stop hdigits hbehind, takeWhile_of_stop hdigits' hbehind'] at hfront
  rw [dropWhile_of_stop hdigits hbehind, dropWhile_of_stop hdigits' hbehind'] at hback
  exact ⟨hfront, hback⟩

theorem powerText_inj {p p' : Option (Bool × List Char)} (h : powerText p = powerText p') :
    p = p' := by
  match p, p' with
  | none, none => rfl
  | some (negative, digits), some (negative', digits') =>
    obtain ⟨hsign, rfl⟩ := List.cons.inj (List.cons.inj h).2
    cases negative <;> cases negative' <;> first | rfl | exact absurd hsign (by decide)

theorem isDigit_head?_powerText (p : Option (Bool × List Char)) :
    ∀ c ∈ (powerText p).head?, c.isDigit = false := by
  cases p with
  | none => simp [powerText]
  | some e => simp [powerText]

theorem isDigit_head?_fractionText (f : Option (List Char)) (p : Option (Bool × List Char)) :
    ∀ c ∈ (fractionText f ++ powerText p).head?, c.isDigit = false := by
  cases f with
  | none => exact isDigit_head?_powerText p
  | some digits => simp [fractionText]

theorem fractionText_append_inj {f f' : Option (List Char)} {p p' : Option (Bool × List Char)}
    (hf : ∀ digits ∈ f, ∀ c ∈ digits, c.isDigit = true)
    (hf' : ∀ digits ∈ f', ∀ c ∈ digits, c.isDigit = true)
    (h : fractionText f ++ powerText p = fractionText f' ++ powerText p') : f = f' ∧ p = p' := by
  -- a power of ten does not begin with a point
  have hpoint : ∀ (p : Option (Bool × List Char)) rest, powerText p ≠ '.' :: rest := by
    rintro (_ | ⟨negative, digits⟩) rest h <;> simp [powerText] at h
  match f, f' with
  | none, none => exact ⟨rfl, powerText_inj h⟩
  | none, some _ => exact absurd h (hpoint p _)
  | some _, none => exact absurd h.symm (hpoint p' _)
  | some digits, some digits' =>
    obtain ⟨rfl, hpower⟩ := append_inj_of_isDigit (hf _ rfl) (hf' _ rfl)
      (isDigit_head?_powerText p) (isDigit_head?_powerText p') (List.cons.inj h).2
    exact ⟨rfl, powerText_inj hpower⟩

theorem exists_unsigned_eq_cons (n : DecimalNumeral) :
    ∃ c rest, n.unsigned = c :: rest ∧ c.isDigit = true := by
  obtain ⟨c, whole, hwhole⟩ := List.exists_cons_of_ne_nil n.whole_ne_nil
  refine ⟨c, whole ++ fractionText n.fraction ++ powerText n.power, ?_,
    n.isDigit_whole c (hwhole ▸ List.mem_cons_self)⟩
  rw [unsigned, hwhole, List.cons_append, List.cons_append]

/-- A text spells one numeral at most. -/
theorem eq_of_spelled_eq {m n : DecimalNumeral} (h : m.spelled = n.spelled) : m = n := by
  obtain ⟨c, rest, hm, hc⟩ := m.exists_unsigned_eq_cons
  obtain ⟨d, rest', hn, hd⟩ := n.exists_unsigned_eq_cons
  have hminus : ∀ {c : Char}, c.isDigit = true → '-' ≠ c := by
    rintro _ hdigit rfl
    cases hdigit
  obtain ⟨hnegative, hunsigned⟩ : m.negative = n.negative ∧ m.unsigned = n.unsigned := by
    rw [spelled, spelled] at h
    cases hmn : m.negative <;> cases hnn : n.negative <;>
      simp only [hmn, hnn, if_true, if_false, Bool.false_eq_true, List.nil_append,
        List.cons_append] at h
    · exact ⟨rfl, h⟩
    · rw [hm] at h
      exact absurd (List.cons.inj h).1.symm (hminus hc)
    · rw [hn] at h
      exact absurd (List.cons.inj h).1 (hminus hd)
    · exact ⟨rfl, (List.cons.inj h).2⟩
  rw [unsigned, unsigned, List.append_assoc, List.append_assoc] at hunsigned
  obtain ⟨hwhole, hbehind⟩ := append_inj_of_isDigit m.isDigit_whole n.isDigit_whole
    (isDigit_head?_fractionText _ _) (isDigit_head?_fractionText _ _) hunsigned
  obtain ⟨hfraction, hpower⟩ :=
    fractionText_append_inj m.isDigit_fraction n.isDigit_fraction hbehind
  exact DecimalNumeral.ext hnegative hwhole hfraction hpower

/-! ## Reading -/

theorem readDecimalDigits_eq {digits : List Char} (h : ∀ c ∈ digits, c.isDigit = true) :
    readDecimalDigits digits = Nat.ofDigitChars 10 digits 0 := by
  rw [readDecimalDigits, readDigits, Nat.ofDigitChars]
  refine List.foldl_ext _ _ _ fun value c hc => ?_
  rw [hexDigitValue, if_pos (h c hc), Nat.mul_comm]
  rfl

theorem readExponent?_powerText (n : DecimalNumeral) :
    readExponent? (powerText n.power) = some (exponent n.power) := by
  have hne := n.power_ne_nil
  have hdigits := n.isDigit_power
  cases hpower : n.power with
  | none => rfl
  | some e =>
    obtain ⟨negative, digits⟩ := e
    have hdigits : ∀ c ∈ digits, c.isDigit = true := hdigits _ hpower
    have hempty : digits.isEmpty = false := List.isEmpty_eq_false_iff.mpr (hne _ hpower)
    have hall : digits.all Char.isDigit = true := List.all_eq_true.mpr hdigits
    cases negative <;>
      simp [powerText, readExponent?, splitSign, hempty, hall, exponent,
        readDecimalDigits_eq hdigits]

/-- The digits on both sides of the point, read together. -/
theorem size_eq (n : DecimalNumeral) : n.size =
    Nat.ofDigitChars 10 (n.whole ++ n.fraction.getD []) 0 *
      10 ^ (exponent n.power - (n.fraction.getD []).length) := by
  rw [size, Nat.ofDigitChars_append,
    Nat.ofDigitChars_eq_ofDigitChars_zero (l := n.fraction.getD []), zpow_sub₀ (by norm_num),
    zpow_natCast]
  cases n.fraction with
  | none => simp [fractionValue]
  | some digits =>
    have hpos : (0 : ℚ) < 10 ^ digits.length := by positivity
    rw [fractionValue, Option.getD_some]
    push_cast
    field_simp

theorem size_plain {negative : Bool} {whole : List Char} {fraction : Option (List Char)}
    (hne : whole ≠ []) (hwhole : ∀ c ∈ whole, c.isDigit = true)
    (hfraction : ∀ digits ∈ fraction, ∀ c ∈ digits, c.isDigit = true) :
    (plain negative whole fraction hne hwhole hfraction).size =
      Nat.ofDigitChars 10 (whole ++ fraction.getD []) 0 *
        10 ^ (-(fraction.getD []).length : ℤ) := by
  rw [size_eq, plain, exponent, zero_sub]

theorem readMagnitude?_unsigned (n : DecimalNumeral) :
    readMagnitude? n.unsigned = some (Binary64.nearest n.size) := by
  have hwhole := takeWhile_of_stop n.isDigit_whole (isDigit_head?_fractionText n.fraction n.power)
  have hbehind := dropWhile_of_stop n.isDigit_whole (isDigit_head?_fractionText n.fraction n.power)
  rw [← List.append_assoc] at hwhole hbehind
  have hne : n.whole.isEmpty = false := List.isEmpty_eq_false_iff.mpr n.whole_ne_nil
  have hdigits : ∀ c ∈ n.whole ++ n.fraction.getD [], c.isDigit = true := fun c hc => by
    rcases List.mem_append.mp hc with hc | hc
    · exact n.isDigit_whole c hc
    · cases hf : n.fraction with
      | none => simp [hf] at hc
      | some digits => exact n.isDigit_fraction digits hf c (by rwa [hf] at hc)
  rw [size_eq, ← Binary64.magnitudeOfDecimal_eq, ← readDecimalDigits_eq hdigits]
  simp only [readMagnitude?, unsigned, hwhole, hbehind, hne, Bool.false_and, Bool.false_eq_true,
    if_false]
  cases hf : n.fraction with
  | none =>
    cases hp : n.power with
    | none => simp [fractionText, powerText, readExponent?, exponent]
    | some e =>
      have hpower := n.readExponent?_powerText
      rw [hp] at hpower
      simp [fractionText, powerText] at hpower ⊢
      simp [hpower]
  | some digits =>
    have hfraction := n.isDigit_fraction digits hf
    simp only [fractionText, List.cons_append,
      takeWhile_of_stop hfraction (isDigit_head?_powerText n.power),
      dropWhile_of_stop hfraction (isDigit_head?_powerText n.power), n.readExponent?_powerText,
      Option.map_some, Option.getD_some]

theorem mem_spelled {n : DecimalNumeral} {c : Char} (hc : c ∈ n.spelled) :
    c.isDigit = true ∨ c ∈ ['-', '.', 'e', '+'] := by
  simp only [spelled, unsigned, List.mem_append] at hc
  rcases hc with hsign | (hwhole | hfraction) | hpower
  · cases hn : n.negative <;> simp_all
  · exact .inl (n.isDigit_whole c hwhole)
  · cases hf : n.fraction with
    | none => simp [hf, fractionText] at hfraction
    | some digits =>
      rw [hf, fractionText] at hfraction
      rcases List.mem_cons.mp hfraction with rfl | hdigit
      · exact .inr (by decide)
      · exact .inl (n.isDigit_fraction digits hf c hdigit)
  · cases hp : n.power with
    | none => simp [hp, powerText] at hpower
    | some e =>
      rw [hp, powerText] at hpower
      rcases List.mem_cons.mp hpower with rfl | hpower
      · exact .inr (by decide)
      rcases List.mem_cons.mp hpower with rfl | hdigit
      · exact .inr (by cases e.1 <;> decide)
      · exact .inl (n.isDigit_power e hp c hdigit)

/-- No character of a numeral is a blank or lies above ASCII. -/
theorem spelled_range (n : DecimalNumeral) : ∀ c ∈ n.spelled, 32 < c.toNat ∧ c.toNat < 127 := by
  intro c hc
  rcases mem_spelled hc with hdigit | hother
  · have := toNat_of_isDigit hdigit
    omega
  · simp only [List.mem_cons, List.not_mem_nil, or_false] at hother
    rcases hother with rfl | rfl | rfl | rfl <;> decide

/-- A numeral is read as the double nearest to its value. -/
theorem readReal?_spelled (n : DecimalNumeral) :
    readReal? n.spelled = some ⟨n.negative, Binary64.nearest |n.value|⟩ := by
  obtain ⟨c, rest, hunsigned, hc⟩ := n.exists_unsigned_eq_cons
  have hsplit : splitSign n.spelled = (n.negative, n.unsigned) := by
    rw [spelled, hunsigned]
    cases n.negative with
    | true => rfl
    | false =>
      rw [if_neg Bool.false_ne_true, List.nil_append, splitSign]
      all_goals
        rintro _ heq
        rw [(List.cons.inj heq).1] at hc
        cases hc
  -- a digit begins neither a name of infinity nor that of no number
  have hname : ∀ first name, first.isDigit = false →
      (n.unsigned.map Char.toLower == first :: name) = false := fun first name hfirst => by
    rw [hunsigned, List.map_cons, beq_eq_false_iff_ne]
    intro heq
    rw [← (List.cons.inj heq).1, toLower_of_isDigit hc, hc] at hfirst
    cases hfirst
  have hinf : (n.unsigned.map Char.toLower == "inf".toList) = false := hname 'i' _ rfl
  have hinfinity : (n.unsigned.map Char.toLower == "infinity".toList) = false := hname 'i' _ rfl
  have hnan : (n.unsigned.map Char.toLower == "nan".toList) = false := hname 'n' _ rfl
  simp only [readReal?, numeralForm?_eq_self n.spelled_range, hsplit, hinf, hinfinity, hnan,
    Option.bind_eq_bind, Option.bind_some, Bool.or_self, Bool.false_eq_true, if_false,
    n.readMagnitude?_unsigned, n.abs_value]
  rfl

end DecimalNumeral

end ReleasePrompts.Number
