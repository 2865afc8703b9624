import ReleasePrompts.Number.Layout
import ReleasePrompts.Proofs.Number.DecimalNumeral

/-!
# Texts of numbers

However a layout writes a decimal, plainly or with a power of ten, the text is a numeral with the
value of the decimal (`exists_writes`), and where it changes from the one to the other is seen from
the value (`plain_iff`). So every finite double other than zero has texts that denote its shortest
decimal (`exists_numeral`), and two layouts denote the same (`scriptNumber_text_keeps_value`). An
integer that doubles count to is written with its own digits (`text_nearest_integer`).
-/

namespace ReleasePrompts.Number

namespace DecimalNumeral

/-- Digits without a zero in front of another digit. -/
def Unpadded (digits : List Char) : Prop := digits = ['0'] ∨ digits.head? ≠ some '0'

/-- A numeral without zeros or points that could be left out; a power of ten follows one digit
before the point. -/
structure Tidy (n : DecimalNumeral) : Prop where
  whole : Unpadded n.whole
  fraction : ∀ digits ∈ n.fraction, digits ≠ [] ∧ digits.getLast? ≠ some '0'
  mantissa : n.power ≠ none → n.whole.length = 1 ∧ n.whole ≠ ['0']
  power : ∀ e ∈ n.power, Unpadded e.2

end DecimalNumeral

/-! ## Digits of numbers -/

theorem digitChar_ne_zero {d : ℕ} (hd : 0 < d) (hlt : d < 10) : d.digitChar ≠ '0' := by
  interval_cases d <;> decide

theorem head?_toDigits {n : ℕ} (hn : 0 < n) : (Nat.toDigits 10 n).head? ≠ some '0' := by
  induction n using Nat.strong_induction_on with
  | h n ih =>
    rw [Nat.toDigits_eq_if (by norm_num)]
    split_ifs with hlt
    · exact fun h => digitChar_ne_zero hn hlt (Option.some.inj h)
    · rw [List.head?_append_of_ne_nil _ Nat.toDigits_ne_nil]
      exact ih _ (Nat.div_lt_self hn (by norm_num)) (Nat.div_pos (by omega) (by norm_num))

theorem getLast?_toDigits {n : ℕ} (hn : n % 10 ≠ 0) : (Nat.toDigits 10 n).getLast? ≠ some '0' := by
  have hlast : (Nat.toDigits 10 n).getLast? = some (n % 10).digitChar := by
    rw [Nat.toDigits_eq_if (by norm_num)]
    split_ifs with hlt
    · rw [Nat.mod_eq_of_lt hlt]
      rfl
    · exact List.getLast?_concat
  rw [hlast]
  exact fun h => digitChar_ne_zero (by omega) (by omega) (Option.some.inj h)

theorem toDigits_mul_pow {n : ℕ} (hn : 0 < n) (zeros : ℕ) :
    Nat.toDigits 10 (n * 10 ^ zeros) = Nat.toDigits 10 n ++ List.replicate zeros '0' := by
  induction zeros with
  | zero => simp
  | succ zeros ih =>
    have hpos : 0 < n * 10 ^ zeros := by positivity
    rw [List.replicate_succ', ← List.append_assoc, ← ih, pow_succ, ← mul_assoc, mul_comm _ 10]
    exact (Nat.toDigits_append_toDigits (b := 10) (d := 0) (by norm_num) hpos (by norm_num)).symm

theorem unpadded_toDigits (n : ℕ) : DecimalNumeral.Unpadded (Nat.toDigits 10 n) := by
  rcases Nat.eq_zero_or_pos n with rfl | hn
  · exact .inl rfl
  · exact .inr (head?_toDigits hn)

namespace Layout

open DecimalNumeral

/-- A numeral is how a layout writes digits with the point at `point`. -/
structure Writes (layout : Layout) (digits : List Char) (point : ℤ) (n : DecimalNumeral) :
    Prop where
  unsigned : n.unsigned = layout.digitsText digits point
  size : n.size = Nat.ofDigitChars 10 digits 0 * 10 ^ (point - digits.length)
  plain : n.power = none ↔ layout.plainAbove < point ∧ point ≤ layout.plainUpTo
  tidy : layout.wholeSuffix = [] → layout.exponentWidth ≤ 1 → n.Tidy

theorem isDigit_replicate (count : ℕ) : ∀ c ∈ List.replicate count '0', c.isDigit = true :=
  fun c hc => by rw [List.eq_of_mem_replicate hc]; rfl

/-- The sign and the digits of a power of ten. -/
def powerOf (layout : Layout) (e : ℤ) : Bool × List Char :=
  (!decide (0 ≤ e), List.replicate (layout.exponentWidth - (Nat.toDigits 10 e.natAbs).length) '0' ++
    Nat.toDigits 10 e.natAbs)

theorem powerText_powerOf (layout : Layout) (e : ℤ) :
    powerText (some (layout.powerOf e)) = layout.exponentText e := by
  by_cases he : 0 ≤ e <;> simp [powerText, powerOf, exponentText, he]

theorem isDigit_powerOf (layout : Layout) (e : ℤ) : ∀ c ∈ (layout.powerOf e).2, c.isDigit = true :=
  List.forall_mem_append.mpr ⟨isDigit_replicate _, fun _ hc =>
    Nat.isDigit_of_mem_toDigits (by norm_num) le_rfl hc⟩

theorem powerOf_ne_nil (layout : Layout) (e : ℤ) : (layout.powerOf e).2 ≠ [] := by
  simp [powerOf, Nat.toDigits_ne_nil]

theorem exponent_powerOf (layout : Layout) (e : ℤ) : exponent (some (layout.powerOf e)) = e := by
  rw [powerOf, exponent, Nat.ofDigitChars_append, Nat.ofDigitChars_replicate_zero, Nat.mul_zero,
    Nat.ofDigitChars_ten_toDigits]
  by_cases he : 0 ≤ e
  · simp [he]
  · simp [he, abs_of_neg (not_le.mp he)]

theorem unpadded_powerOf {layout : Layout} (hwidth : layout.exponentWidth ≤ 1) (e : ℤ) :
    Unpadded (layout.powerOf e).2 := by
  have hlength : 0 < (Nat.toDigits 10 e.natAbs).length := Nat.length_toDigits_pos
  rw [powerOf, Nat.sub_eq_zero_of_le (by omega), List.replicate_zero, List.nil_append]
  exact unpadded_toDigits _

section Writing

variable {layout : Layout} {digits : List Char} {point : ℤ} (negative : Bool)
variable (hne : digits ≠ []) (hdigit : ∀ c ∈ digits, c.isDigit = true)
variable (hhead : digits.head? ≠ some '0') (hlast : digits.getLast? ≠ some '0')

/-- Digits are written plainly as a numeral that has the same text and value. -/
theorem exists_writes_plain (whole : List Char) (fraction : Option (List Char)) (hne : whole ≠ [])
    (hwhole : ∀ c ∈ whole, c.isDigit = true)
    (hfraction : ∀ places ∈ fraction, ∀ c ∈ places, c.isDigit = true)
    (hplain : layout.plainAbove < point ∧ point ≤ layout.plainUpTo)
    (htext : whole ++ fractionText fraction = layout.digitsText digits point)
    (hsize : (Nat.ofDigitChars 10 (whole ++ fraction.getD []) 0 : ℚ) *
        10 ^ (-(fraction.getD []).length : ℤ) =
      Nat.ofDigitChars 10 digits 0 * 10 ^ (point - digits.length))
    (htidy : layout.wholeSuffix = [] → Unpadded whole ∧
      ∀ places ∈ fraction, places ≠ [] ∧ places.getLast? ≠ some '0') :
    ∃ n : DecimalNumeral, n.negative = negative ∧ layout.Writes digits point n := by
  refine ⟨plain negative whole fraction hne hwhole hfraction, rfl, ?_, ?_, ?_, ?_⟩
  · rw [unsigned_plain, htext]
  · rw [size_plain, hsize]
  · simpa [plain] using hplain
  · intro hsuffix _
    obtain ⟨hunpadded, hplaces⟩ := htidy hsuffix
    exact ⟨hunpadded, hplaces, fun h => absurd rfl h, fun e he => by cases he⟩

include hne hdigit hhead in
theorem exists_writes_whole {zeros : Option ℕ}
    (hsuffix : layout.wholeSuffix = fractionText (zeros.map (List.replicate · '0')))
    (hplain : layout.plainAbove < point ∧ point ≤ layout.plainUpTo)
    (hpoint : digits.length ≤ point) :
    ∃ n : DecimalNumeral, n.negative = negative ∧ layout.Writes digits point n := by
  obtain ⟨count, rfl⟩ : ∃ count : ℕ, point = digits.length + count :=
    ⟨(point - digits.length).toNat, by omega⟩
  refine exists_writes_plain negative (digits ++ List.replicate count '0')
    (zeros.map (List.replicate · '0')) (by simp [hne])
    (List.forall_mem_append.mpr ⟨hdigit, isDigit_replicate count⟩) (by simp) hplain ?_ ?_ ?_
  · unfold digitsText
    simp only [if_pos hplain, if_pos hpoint, add_sub_cancel_left, Int.toNat_natCast]
    rw [hsuffix]
  · rw [add_sub_cancel_left, Nat.ofDigitChars_append, Nat.ofDigitChars_append,
      Nat.ofDigitChars_replicate_zero]
    cases zeros with
    | none => simp [mul_comm]
    | some behind =>
      -- as many zeros behind the point as places
      have hpow : (10 : ℚ) ^ behind ≠ 0 := by positivity
      simp only [Option.map_some, Option.getD_some, List.length_replicate,
        Nat.ofDigitChars_replicate_zero, zpow_neg, zpow_natCast]
      push_cast
      field_simp
  · intro hnone
    rw [hsuffix] at hnone
    cases zeros with
    | none => exact ⟨.inr (by rwa [List.head?_append_of_ne_nil _ hne]), by simp⟩
    | some behind => cases hnone

include hdigit hhead hlast in
theorem exists_writes_split (hplain : layout.plainAbove < point ∧ point ≤ layout.plainUpTo)
    (hpos : 0 < point) (hpoint : point < digits.length) :
    ∃ n : DecimalNumeral, n.negative = negative ∧ layout.Writes digits point n := by
  obtain ⟨place, rfl⟩ : ∃ place : ℕ, point = place := ⟨point.toNat, by omega⟩
  have hplace : 0 < (digits.take place).length ∧ 0 < (digits.drop place).length := by
    rw [List.length_take, List.length_drop]
    omega
  refine exists_writes_plain negative (digits.take place) (some (digits.drop place))
    (List.length_pos_iff.mp hplace.1) (fun c hc => hdigit c (List.mem_of_mem_take hc)) ?_ hplain
    ?_ ?_ ?_
  · rintro _ ⟨⟩ c hc
    exact hdigit c (List.mem_of_mem_drop hc)
  · unfold digitsText
    simp only [if_pos hplain, if_neg hpoint.not_ge, if_pos hpos, Int.toNat_natCast]
    rfl
  · rw [Option.getD_some, List.take_append_drop, List.length_drop]
    congr 2
    omega
  · refine fun _ => ⟨.inr ?_, ?_⟩
    · rwa [List.head?_take, if_neg (by omega)]
    · rintro _ ⟨⟩
      rw [List.getLast?_drop, if_neg (by omega)]
      exact ⟨List.length_pos_iff.mp hplace.2, hlast⟩

include hne hdigit hlast in
theorem exists_writes_small (hplain : layout.plainAbove < point ∧ point ≤ layout.plainUpTo)
    (hpoint : point ≤ 0) :
    ∃ n : DecimalNumeral, n.negative = negative ∧ layout.Writes digits point n := by
  obtain ⟨count, rfl⟩ : ∃ count : ℕ, point = -count := ⟨(-point).toNat, by omega⟩
  have hlength : ¬(digits.length : ℤ) ≤ -count := by
    have := List.length_pos_iff.mpr hne
    omega
  refine exists_writes_plain negative ['0'] (some (List.replicate count '0' ++ digits))
    (List.cons_ne_nil _ _) (by simp) ?_ hplain ?_ ?_ ?_
  · rintro _ ⟨⟩
    exact List.forall_mem_append.mpr ⟨isDigit_replicate count, hdigit⟩
  · unfold digitsText
    simp only [if_pos hplain, if_neg hpoint.not_gt, if_neg hlength, neg_neg, Int.toNat_natCast]
    rfl
  · rw [Option.getD_some, Nat.ofDigitChars_append, Nat.ofDigitChars_append,
      Nat.ofDigitChars_replicate_zero, List.length_append, List.length_replicate]
    congr 2
    push_cast
    ring
  · refine fun _ => ⟨.inl rfl, ?_⟩
    rintro _ ⟨⟩
    rw [List.getLast?_append_of_ne_nil _ hne]
    exact ⟨by simp [hne], hlast⟩

include hne hdigit hhead hlast in
theorem exists_writes_power (hplain : ¬(layout.plainAbove < point ∧ point ≤ layout.plainUpTo)) :
    ∃ n : DecimalNumeral, n.negative = negative ∧ layout.Writes digits point n := by
  obtain ⟨first, others, rfl⟩ := List.exists_cons_of_ne_nil hne
  obtain ⟨hfirst, hothers⟩ := List.forall_mem_cons.mp hdigit
  have hzero : first ≠ '0' := fun h => hhead (congrArg some h)
  refine ⟨{
      negative
      whole := [first]
      fraction := if others = [] then none else some others
      power := some (layout.powerOf (point - 1))
      whole_ne_nil := List.cons_ne_nil _ _
      isDigit_whole := by simpa using hfirst
      isDigit_fraction := by
        split_ifs
        · simp
        · rintro _ ⟨⟩
          exact hothers
      power_ne_nil := by
        rintro _ ⟨⟩
        exact layout.powerOf_ne_nil _
      isDigit_power := by
        rintro _ ⟨⟩
        exact layout.isDigit_powerOf _ }, rfl, ?_, ?_, ?_, ?_⟩
  · unfold digitsText
    simp only [if_neg hplain]
    rw [DecimalNumeral.unsigned, powerText_powerOf]
    cases others <;> simp [fractionText]
  · rw [size_eq, exponent_powerOf]
    cases others with
    | nil => simp
    | cons second rest =>
      simp only [List.cons_ne_nil, if_false, Option.getD_some, List.singleton_append,
        List.length_cons]
      congr 2
      push_cast
      ring
  · simpa using hplain
  · refine fun _ hwidth => ⟨.inr hhead, ?_, fun _ => ⟨rfl, fun h => hzero (List.cons.inj h).1⟩, ?_⟩
    · intro digits hdigits
      split_ifs at hdigits with hnil
      · cases hdigits
      · obtain rfl := Option.some.inj hdigits
        rw [List.getLast?_cons_of_ne_nil hnil] at hlast
        exact ⟨hnil, hlast⟩
    · rintro _ ⟨⟩
      exact unpadded_powerOf hwidth _

end Writing

/-- A layout that puts no digit but zeros behind an integer writes a decimal as a numeral with the
value of the decimal. -/
theorem exists_writes {layout : Layout} {zeros : Option ℕ}
    (hsuffix : layout.wholeSuffix = fractionText (zeros.map (List.replicate · '0')))
    (negative : Bool) {x : Decimal} (hx : x.digits % 10 ≠ 0) :
    ∃ n : DecimalNumeral, n.negative = negative ∧
      layout.Writes (Nat.toDigits 10 x.digits)
        (x.exponent + (Nat.toDigits 10 x.digits).length) n := by
  have hne := Nat.toDigits_ne_nil (b := 10) (n := x.digits)
  have hdigit : ∀ c ∈ Nat.toDigits 10 x.digits, c.isDigit = true := fun c hc =>
    Nat.isDigit_of_mem_toDigits (by norm_num) le_rfl hc
  have hhead : (Nat.toDigits 10 x.digits).head? ≠ some '0' := head?_toDigits (by omega)
  have hlast := getLast?_toDigits hx
  generalize Nat.toDigits 10 x.digits = digits at *
  generalize hpoint : x.exponent + digits.length = point
  by_cases hplain : layout.plainAbove < point ∧ point ≤ layout.plainUpTo
  · rcases le_or_gt (digits.length : ℤ) point with hwhole | hsplit
    · exact exists_writes_whole negative hne hdigit hhead hsuffix hplain hwhole
    · rcases lt_or_ge 0 point with hpos | hsmall
      · exact exists_writes_split negative hdigit hhead hlast hplain hpos hsplit
      · exact exists_writes_small negative hne hdigit hlast hplain hsmall
  · exact exists_writes_power negative hne hdigit hhead hlast hplain

/-- The place of the point tells between which powers of ten a decimal lies. -/
theorem plain_iff (layout : Layout) {x : Decimal} (hx : 0 < x.digits) :
    (layout.plainAbove < x.exponent + (Nat.toDigits 10 x.digits).length ∧
        x.exponent + (Nat.toDigits 10 x.digits).length ≤ layout.plainUpTo) ↔
      10 ^ layout.plainAbove ≤ x.value ∧ x.value < 10 ^ layout.plainUpTo := by
  have hten := Binary64.ten_zpow_pos x.exponent
  obtain ⟨hlow, hhigh⟩ := toDigits_bounds hx
  generalize ((Nat.toDigits 10 x.digits).length : ℤ) = length at *
  have hlow : (10 : ℚ) ^ (x.exponent + length - 1) ≤ x.value := by
    rw [Decimal.value, add_sub_assoc, add_comm, zpow_add₀ (by norm_num)]
    exact mul_le_mul_of_nonneg_right hlow hten.le
  have hhigh : x.value < 10 ^ (x.exponent + length) := by
    rw [Decimal.value, add_comm, zpow_add₀ (by norm_num)]
    exact mul_lt_mul_of_pos_right hhigh hten
  have hmono : StrictMono fun e : ℤ => (10 : ℚ) ^ e := zpow_right_strictMono₀ (by norm_num)
  constructor
  · rintro ⟨habove, hupTo⟩
    exact ⟨(hmono.monotone (Int.le_sub_one_of_lt habove)).trans hlow,
      hhigh.trans_le (hmono.monotone hupTo)⟩
  · rintro ⟨habove, hupTo⟩
    exact ⟨hmono.lt_iff_lt.mp (habove.trans_lt hhigh),
      Int.sub_one_lt_iff.mp (hmono.lt_iff_lt.mp (hlow.trans_lt hupTo))⟩

theorem text_of_finite (layout : Layout) {x : Binary64} (hx : 0 < x.magnitude)
    (hfinite : x.magnitude < Binary64.infinite) : layout.text x =
      (if x.negative then ['-'] else []) ++ layout.decimalText (Binary64.shortest x.magnitude) := by
  have hnan : x.isNaN = false := decide_eq_false hfinite.not_gt
  have hinfinite : x.isInfinite = false := beq_eq_false_iff_ne.mpr hfinite.ne
  have hzero : x.isZero = false := beq_eq_false_iff_ne.mpr hx.ne'
  simp only [text, hnan, hinfinite, hzero, Bool.false_eq_true, if_false]

/-- The text of a finite double other than zero is a numeral with the value of the shortest
decimal. -/
theorem exists_numeral {layout : Layout} {zeros : Option ℕ}
    (hsuffix : layout.wholeSuffix = fractionText (zeros.map (List.replicate · '0')))
    {x : Binary64} (hx : 0 < x.magnitude) (hfinite : x.magnitude < Binary64.infinite) :
    ∃ n : DecimalNumeral, n.spelled = layout.text x ∧ n.negative = x.negative ∧
      n.size = (Binary64.shortest x.magnitude).value ∧
      (n.power = none ↔ 10 ^ layout.plainAbove ≤ |n.value| ∧ |n.value| < 10 ^ layout.plainUpTo) ∧
      (layout.wholeSuffix = [] → layout.exponentWidth ≤ 1 → n.Tidy) := by
  obtain ⟨-, hdigits, hmod⟩ := Binary64.shortest_spec hx hfinite.le
  obtain ⟨n, hnegative, hwrites⟩ := exists_writes hsuffix x.negative hmod
  have hsize : n.size = (Binary64.shortest x.magnitude).value := by
    rw [hwrites.size, Nat.ofDigitChars_ten_toDigits, add_sub_cancel_right, Decimal.value]
  refine ⟨n, ?_, hnegative, hsize, ?_, hwrites.tidy⟩
  · rw [text_of_finite layout hx hfinite, spelled, hnegative, hwrites.unsigned]
    rfl
  · rw [hwrites.plain, plain_iff layout hdigits, n.abs_value, hsize]

/-- The texts of a double in a document and from a script are numerals of one value, and that of the
script is tidy. -/
theorem exists_numerals {x : Binary64} (hx : 0 < x.magnitude)
    (hfinite : x.magnitude < Binary64.infinite) :
    ∃ repr script : DecimalNumeral,
      repr.spelled = documentNumber.text x ∧ script.spelled = scriptNumber.text x ∧
      script.value = repr.value ∧
      (script.power = none ↔ 10 ^ (-6 : ℤ) ≤ |repr.value| ∧ |repr.value| < 10 ^ (21 : ℤ)) ∧
      script.Tidy := by
  obtain ⟨repr, hrepr, hsign, hsize, -⟩ :=
    @exists_numeral documentNumber (some 1) rfl x hx hfinite
  obtain ⟨script, hscript, hsign', hsize', hplain, htidy⟩ :=
    @exists_numeral scriptNumber none rfl x hx hfinite
  have hvalue : script.value = repr.value := by
    rw [DecimalNumeral.value, DecimalNumeral.value, hsign, hsign', hsize, hsize']
  exact ⟨repr, script, hrepr, hscript, hvalue, hvalue ▸ hplain, htidy rfl le_rfl⟩

/-- The text that a script gives a finite double other than zero denotes what the text in a document
denotes. It is plain from `1e-6` up to but not including `1e21`, and otherwise has one digit before
the point and a power of ten; nothing in it could be left out. So texts differ where the values
do. -/
theorem scriptNumber_text_keeps_value (x : Binary64) (hx : 0 < x.magnitude)
    (hfinite : x.magnitude < Binary64.infinite) :
    ∃ repr script : DecimalNumeral,
      repr.spelled = documentNumber.text x ∧ script.spelled = scriptNumber.text x ∧
      script.value = repr.value ∧
      (script.power = none ↔ 10 ^ (-6 : ℤ) ≤ |repr.value| ∧ |repr.value| < 10 ^ (21 : ℤ)) ∧
      script.Tidy ∧
      ∀ (y : Binary64) (other : DecimalNumeral), 0 < y.magnitude → y.magnitude < Binary64.infinite →
        other.spelled = documentNumber.text y → other.value ≠ repr.value →
        scriptNumber.text y ≠ scriptNumber.text x := by
  obtain ⟨repr, script, hrepr, hscript, hvalue, hplain, htidy⟩ := exists_numerals hx hfinite
  refine ⟨repr, script, hrepr, hscript, hvalue, hplain, htidy, ?_⟩
  intro y other hy hyfinite hother hne htext
  obtain ⟨repr', script', hrepr', hscript', hvalue', -⟩ := exists_numerals hy hyfinite
  -- a text spells one numeral only, so equal texts have equal values
  obtain rfl := eq_of_spelled_eq (hother.trans hrepr'.symm)
  obtain rfl := eq_of_spelled_eq (hscript'.trans (htext.trans hscript.symm))
  exact hne (hvalue'.symm.trans hvalue)

theorem scriptNumber_text_keeps_millionth :
    (0 < 0x3EB0C6F7A0B5ED8D ∧ 0x3EB0C6F7A0B5ED8D < Binary64.infinite) ∧
    ∃ repr script : DecimalNumeral,
      repr.spelled = "-1e-06".toList ∧ script.spelled = "-0.000001".toList ∧
      script.value = repr.value := by
  have hpos : 0 < 0x3EB0C6F7A0B5ED8D := by decide
  have hfinite : 0x3EB0C6F7A0B5ED8D < Binary64.infinite := by decide
  obtain ⟨repr, script, hrepr, hscript, hvalue, -⟩ :=
    scriptNumber_text_keeps_value ⟨true, 0x3EB0C6F7A0B5ED8D⟩ hpos hfinite
  refine ⟨⟨hpos, hfinite⟩, repr, script, ?_, ?_, hvalue⟩
  · rw [hrepr]
    decide +kernel
  · rw [hscript]
    decide +kernel

/-! ## Integers -/

/-- A layout that writes an integer plainly writes the zeros behind its digits. -/
theorem decimalText_integer {layout : Layout} {x : Decimal} {zeros n : ℕ}
    (hsuffix : layout.wholeSuffix = []) (hn : 0 < n) (hexponent : x.exponent = zeros)
    (hdigits : x.digits * 10 ^ zeros = n)
    (hplain : layout.plainAbove < (Nat.toDigits 10 n).length ∧
      (Nat.toDigits 10 n).length ≤ layout.plainUpTo) :
    layout.decimalText x = Nat.toDigits 10 n := by
  have hx : 0 < x.digits := Nat.pos_of_mul_pos_right (hdigits ▸ hn)
  have htext := toDigits_mul_pow hx zeros
  rw [hdigits] at htext
  rw [htext, List.length_append, List.length_replicate, Nat.cast_add, add_comm] at hplain
  unfold decimalText digitsText
  simp only [hexponent, if_pos hplain, if_pos (show ((Nat.toDigits 10 x.digits).length : ℤ) ≤
    zeros + (Nat.toDigits 10 x.digits).length by omega), add_sub_cancel_right, Int.toNat_natCast]
  rw [hsuffix, List.append_nil, htext]

/-- The double nearest to an integer of fifty-three bits has the decimal numeral of the integer as
its text. -/
theorem text_nearest_integer {n : ℕ} (hn : n ≤ 2 ^ 53) :
    scriptNumber.text ⟨false, Binary64.nearest n⟩ = Nat.toDigits 10 n := by
  rcases Nat.eq_zero_or_pos n with rfl | hpos
  · rw [Nat.cast_zero, Binary64.nearest_zero]
    rfl
  obtain ⟨m, hle, hvalue⟩ := Binary64.exists_value (k := n) (e := 0) hn (by norm_num) (by norm_num)
  rw [zpow_zero, mul_one] at hvalue
  have hm := Binary64.pos_of_value hpos hvalue
  have hfinite : m < Binary64.infinite := Binary64.strictMono_value.lt_iff_lt.mp (by
    rw [Binary64.value_infinite, hvalue]
    calc (n : ℚ) ≤ 2 ^ 53 := mod_cast hn
      _ < 2 ^ 1024 := pow_lt_pow_right₀ (by norm_num) (by norm_num))
  have hlength : (Nat.toDigits 10 n).length ≤ 21 :=
    (Nat.length_toDigits_le_iff (by norm_num) (by norm_num)).mpr (by omega)
  obtain ⟨zeros, hexponent, hdigits⟩ := Binary64.shortest_integer hle hpos hn hvalue
  rw [← hvalue, Binary64.nearest_value hle, text_of_finite scriptNumber hm hfinite]
  refine decimalText_integer rfl hpos hexponent hdigits ?_
  show (-6 : ℤ) < _ ∧ _ ≤ (21 : ℤ)
  omega

end Layout

end ReleasePrompts.Number
