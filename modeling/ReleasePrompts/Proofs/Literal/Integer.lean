import ReleasePrompts.Proofs.Literal.NumberText

/-!
# Integer literals

The integer literals of scripts are decimal, or name a base behind a zero, or have digits behind a
zero; the first two may have separators between their digits and may end in `n` (`IntegerLiteral`).
Each is read as the integer that its digits spell (`IntegerLiteral.numberText?_eq`), in whichever
way the literal is taken, and up to the largest integer that doubles count to its text is the
decimal numeral of that integer (`numberText?_integerLiteral`).
-/

namespace ReleasePrompts.Literal

open Number Text

/-! ## Spellings -/

/-- A digit of a base and its value; the letters of base sixteen are of either case. -/
def IsDigitOf (base : ℕ) (c : Char) (d : ℕ) : Prop :=
  d < base ∧ (c = d.digitChar ∨ c = d.digitChar.toUpper)

/-- Digits with their values, where a separator may stand between two digits. -/
inductive Separated (base : ℕ) : List Char → List ℕ → Prop
  | last {c d} (digit : IsDigitOf base c d) : Separated base [c] [d]
  | cons {c d cs ds} (digit : IsDigitOf base c d) (rest : Separated base cs ds) :
    Separated base (c :: cs) (d :: ds)
  | separator {c d cs ds} (digit : IsDigitOf base c d) (rest : Separated base cs ds) :
    Separated base (c :: '_' :: cs) (d :: ds)

/-- The letters behind a zero that name a base. -/
def basePrefixes : List (Char × ℕ) := [('x', 16), ('X', 16), ('o', 8), ('O', 8), ('b', 2), ('B', 2)]

/-- What ends an integer of any size. -/
def suffixText (big : Bool) : List Char := if big then ['n'] else []

/-- The integer literals of scripts, with their base and the values of their digits. -/
inductive IntegerLiteral : (big : Bool) → (base : ℕ) → (digits : List ℕ) → List Char → Prop
  | zero (big) : IntegerLiteral big 10 [0] ('0' :: suffixText big)
  /-- Digits of which the first is no zero. -/
  | decimal (big) {d ds cs} (first : 0 < d) (digits : Separated 10 cs (d :: ds)) :
    IntegerLiteral big 10 (d :: ds) (cs ++ suffixText big)
  /-- Digits of a base that is named. -/
  | withPrefix (big) {letter base cs ds} (letter_mem : (letter, base) ∈ basePrefixes)
    (digits : Separated base cs ds) :
    IntegerLiteral big base ds ('0' :: letter :: cs ++ suffixText big)
  /-- Digits behind a zero that are all octal. -/
  | legacyOctal {ds} (nonempty : ds ≠ []) (octal : ∀ d ∈ ds, d < 8) :
    IntegerLiteral false 8 (0 :: ds) ('0' :: ds.map Nat.digitChar)
  /-- Digits behind a zero that are not all octal. -/
  | zeroLed {ds} (decimal : ∀ d ∈ ds, d < 10) (not_octal : ∃ d ∈ ds, 8 ≤ d) :
    IntegerLiteral false 10 (0 :: ds) ('0' :: ds.map Nat.digitChar)

theorem digitChar_eq {d : ℕ} (h : d < 10) : digitChar d = d.digitChar := by
  interval_cases d <;> rfl

theorem digitInBase?_toDigit {base d : ℕ} (hbase : base ≤ 16) (h : d < base) :
    digitInBase? base d.digitChar = some d := by
  have hdigit : isHexDigit d.digitChar = true ∧ hexDigitValue d.digitChar = d := by
    have : d < 16 := by omega
    interval_cases d <;> decide
  rw [digitInBase?, if_pos hdigit.1, hdigit.2]
  simp [Option.filter, h]

theorem IsDigitOf.toLower {base d : ℕ} {c : Char} (hbase : base ≤ 16) (h : IsDigitOf base c d) :
    c ≠ '_' ∧ c.toLower = d.digitChar := by
  obtain ⟨hlt, hc⟩ := h
  have : d < 16 := by omega
  interval_cases d <;> rcases hc with rfl | rfl <;> decide

theorem IsDigitOf.eq_digitChar {base d : ℕ} {c : Char} (hbase : base ≤ 10)
    (h : IsDigitOf base c d) : c = d.digitChar := by
  obtain ⟨hlt, hc⟩ := h
  have : d < 10 := by omega
  interval_cases d <;> rcases hc with rfl | rfl <;> rfl

theorem isOctalDigit_digitChar {d : ℕ} (h : d < 10) :
    isOctalDigit (digitChar d) = decide (d < 8) := by
  interval_cases d <;> decide

/-- Digits without their separators. -/
theorem Separated.map_filter {base : ℕ} {f : Char → Char} {cs : List Char} {ds : List ℕ}
    (h : Separated base cs ds)
    (hf : ∀ c d, IsDigitOf base c d → c ≠ '_' ∧ f c = d.digitChar) :
    (cs.filter (· != '_')).map f = ds.map Nat.digitChar := by
  induction h with
  | last digit => simp [hf _ _ digit]
  | cons digit _ ih => simp [hf _ _ digit, ih]
  | separator digit _ ih => simp [hf _ _ digit, ih]

theorem Separated.lt {base : ℕ} {cs : List Char} {ds : List ℕ} (h : Separated base cs ds) :
    ds ≠ [] ∧ ∀ d ∈ ds, d < base := by
  induction h with
  | last digit => simpa using digit.1
  | cons digit _ ih => exact ⟨List.cons_ne_nil _ _, List.forall_mem_cons.mpr ⟨digit.1, ih.2⟩⟩
  | separator digit _ ih => exact ⟨List.cons_ne_nil _ _, List.forall_mem_cons.mpr ⟨digit.1, ih.2⟩⟩

/-! ## Digits as a numeral -/

variable {ds : List ℕ}

theorem map_digitChar (h : ∀ d ∈ ds, d < 10) : ds.map Nat.digitChar = ds.map digitChar :=
  List.map_congr_left fun d hd => (digitChar_eq (h d hd)).symm

theorem ofDigitChars_map (h : ∀ d ∈ ds, d < 10) (n : ℕ) :
    Nat.ofDigitChars 10 (ds.map Nat.digitChar) n =
      ds.foldl (fun value digit => value * 10 + digit) n := by
  induction ds generalizing n with
  | nil => rfl
  | cons d ds ih =>
    obtain ⟨hd, h⟩ := List.forall_mem_cons.mp h
    rw [List.map_cons, Nat.ofDigitChars_cons, ih h, List.foldl_cons,
      Nat.toNat_digitChar_of_lt_ten hd, Nat.mul_comm]
    simp

/-- Decimal digits as a numeral. -/
def wholeNumeral (ds : List ℕ) (hne : ds ≠ []) (h : ∀ d ∈ ds, d < 10) : DecimalNumeral :=
  .plain false (ds.map Nat.digitChar) none (by simpa using hne)
    (by
      rw [map_digitChar h]
      exact List.forall_mem_map.mpr fun d hd => isDigit_digitChar (h d hd))
    (by simp)

theorem spelled_wholeNumeral (hne : ds ≠ []) (h : ∀ d ∈ ds, d < 10) :
    (wholeNumeral ds hne h).spelled = ds.map Nat.digitChar := by
  rw [DecimalNumeral.spelled, wholeNumeral, DecimalNumeral.unsigned_plain]
  exact List.append_nil _

theorem value_wholeNumeral (hne : ds ≠ []) (h : ∀ d ∈ ds, d < 10) :
    (wholeNumeral ds hne h).value = ofDigits 10 ds := by
  rw [DecimalNumeral.value, wholeNumeral, DecimalNumeral.size_plain]
  simp [DecimalNumeral.plain, ofDigitChars_map h, ofDigits]

/-! ## Reading -/

theorem digitChar_range {d : ℕ} (h : d < 16) :
    32 < d.digitChar.toNat ∧ d.digitChar.toNat < 127 ∧ d.digitChar ≠ '_' ∧ d.digitChar ≠ 'n' := by
  interval_cases d <;> decide

/-- An integer whose base is written is read as the number that its digits spell. -/
theorem readInteger_withPrefix {letter : Char} {base : ℕ}
    (hletter : (letter, base) ∈ [('x', 16), ('o', 8), ('b', 2)]) (hne : ds ≠ [])
    (h : ∀ d ∈ ds, d < base) :
    readInteger .written ('0' :: letter :: ds.map Nat.digitChar) = .ok (ofDigits base ds : ℤ) := by
  have hbase : base ≤ 16 ∧ isPowerOfTwo base = true ∧ baseOfLetter? letter = some base ∧
      32 < letter.toNat ∧ letter.toNat < 127 := by
    simp only [List.mem_cons, Prod.mk.injEq, List.not_mem_nil, or_false] at hletter
    rcases hletter with ⟨rfl, rfl⟩ | ⟨rfl, rfl⟩ | ⟨rfl, rfl⟩ <;> decide
  obtain ⟨hbase, hpower, hnamed, hrange⟩ := hbase
  have hform : numeralForm? ('0' :: letter :: ds.map Nat.digitChar) =
      some ('0' :: letter :: ds.map Nat.digitChar) := by
    refine numeralForm?_eq_self (List.forall_mem_cons.mpr ⟨by decide,
      List.forall_mem_cons.mpr ⟨hrange, List.forall_mem_map.mpr fun d hd => ?_⟩⟩)
    obtain ⟨hlow, hhigh, -⟩ := digitChar_range ((h d hd).trans_le hbase)
    exact ⟨hlow, hhigh⟩
  have hsplit : splitPrefix .written ('0' :: letter :: ds.map Nat.digitChar) =
      (base, ds.map Nat.digitChar, true) := by
    cases ds with
    | nil => exact absurd rfl hne
    | cons d ds =>
      have hseparator := (digitChar_range ((h d List.mem_cons_self).trans_le hbase)).2.2.1
      simp only [splitPrefix, hnamed, List.map_cons]
      split
      · rename_i heq
        exact absurd (List.cons.inj heq).1 hseparator
      · rfl
  have hrun := digitRun?_map hne fun d hd => digitInBase?_toDigit hbase (h d hd)
  have hsign : splitSign ('0' :: letter :: ds.map Nat.digitChar) =
      (false, '0' :: letter :: ds.map Nat.digitChar) := rfl
  simp only [readInteger, hform, hsign, hsplit, hrun, hpower]
  rfl

/-- Decimal digits without a leading zero are read as the number that they spell. -/
theorem readInteger_decimal (hne : ds ≠ []) (h : ∀ d ∈ ds, d < 10) (hlimit : ds.length ≤ digitLimit)
    (hhead : ds = [0] ∨ ds.head? ≠ some 0) :
    readInteger .written (ds.map Nat.digitChar) = .ok (ofDigits 10 ds : ℤ) := by
  have hrun := digitRun?_map hne fun d hd => digitInBase?_digitChar le_rfl (h d hd)
  have hlength : decide (digitLimit < ds.length) = false := decide_eq_false (Nat.not_lt.mpr hlimit)
  have hzero : (ds.head? == some 0 && ofDigits 10 ds != 0) = false := by
    rcases hhead with rfl | hhead
    · rfl
    · rw [beq_eq_false_iff_ne.mpr hhead, Bool.false_and]
  rw [map_digitChar h]
  simp only [readInteger, numeralForm?_map h, splitSign_map h, splitPrefix_map _ h, Radix.unnamed,
    hrun, hlength, Bool.and_false, beq_self_eq_true, Bool.not_false, Bool.true_and, hzero]
  rfl

/-! ## Texts -/

theorem integerText?_natCast {n : ℕ} (h : (Nat.toDigits 10 n).length ≤ digitLimit) :
    integerText? n = some (Nat.toDigits 10 n) := by
  simp [integerText?, Nat.not_lt.mpr h]

theorem doubleText_natCast (n : ℕ) :
    doubleText n = Layout.scriptNumber.text ⟨false, Binary64.nearest n⟩ := by
  have hnonneg : decide ((n : ℤ) < 0) = false := decide_eq_false (by omega)
  rw [doubleText, Binary64.ofInt, hnonneg, Int.natAbs_natCast,
    Binary64.magnitudeOfRatio_eq n Nat.one_pos, Nat.cast_one, div_one]

/-- The text of the value of an integer literal. -/
def integerLiteralText? (big : Bool) (n : ℕ) : Option (List Char) :=
  if big then integerText? n else some (doubleText n)

theorem integerLiteralText?_eq {big : Bool} {n : ℕ}
    (h : if big then (Nat.toDigits 10 n).length ≤ digitLimit else n ≤ 2 ^ 53) :
    integerLiteralText? big n = some (Nat.toDigits 10 n) := by
  cases big with
  | true => exact integerText?_natCast h
  | false => exact congrArg some ((doubleText_natCast n).trans (Layout.text_nearest_integer h))

/-- A literal that ends in `n` is read as an integer. -/
theorem numberText?_big {cs form : List Char} {n : ℕ}
    (hform : (cs.filter (· != '_')).map Char.toLower = form)
    (h : readInteger .written form = .ok (n : ℤ)) :
    numberText? (cs ++ ['n']) = integerText? n := by
  subst hform
  simp [numberText?, h, Except.toOption]

theorem numberText?_withPrefix {letter : Char} {base : ℕ} {cs : List Char} (big : Bool)
    (hletter : (letter, base) ∈ basePrefixes) (h : Separated base cs ds) :
    numberText? ('0' :: letter :: cs ++ suffixText big) =
      integerLiteralText? big (ofDigits base ds) := by
  obtain ⟨hne, hlt⟩ := h.lt
  have hlower : (letter.toLower, base) ∈ [('x', 16), ('o', 8), ('b', 2)] ∧ base ≤ 16 ∧
      letter ≠ '_' ∧ letter.toLower ≠ 'n' ∧ (baseOfLetter? letter.toLower).isSome = true := by
    simp only [basePrefixes, List.mem_cons, Prod.mk.injEq, List.not_mem_nil, or_false] at hletter
    rcases hletter with ⟨rfl, rfl⟩ | ⟨rfl, rfl⟩ | ⟨rfl, rfl⟩ | ⟨rfl, rfl⟩ | ⟨rfl, rfl⟩ | ⟨rfl, rfl⟩
    all_goals decide
  obtain ⟨hmem, hbase, hseparator, hn, hnamed⟩ := hlower
  have hform : (('0' :: letter :: cs).filter (· != '_')).map Char.toLower =
      '0' :: letter.toLower :: ds.map Nat.digitChar := by
    simp [hseparator, h.map_filter fun c d => IsDigitOf.toLower hbase]
  have hread := readInteger_withPrefix hmem hne hlt
  cases big with
  | true => exact numberText?_big hform hread
  | false =>
    have hlast :
        (('0' :: letter.toLower :: ds.map Nat.digitChar).getLast? == some 'n') = false := by
      rw [beq_eq_false_iff_ne]
      intro heq
      rcases List.mem_cons.mp (List.mem_of_getLast? heq) with hzero | hmem
      · cases hzero
      rcases List.mem_cons.mp hmem with hletter | hmem
      · exact hn hletter.symm
      obtain ⟨d, hd, heq⟩ := List.mem_map.mp hmem
      exact (digitChar_range ((hlt d hd).trans_le hbase)).2.2.2 heq
    have hprefix : hasBasePrefix ('0' :: letter.toLower :: ds.map Nat.digitChar) = true := hnamed
    have hnil : '0' :: letter :: cs ++ suffixText false = '0' :: letter :: cs := List.append_nil _
    simp only [numberText?, hnil, hform, hlast, hprefix, hread, Bool.false_eq_true, if_false,
      if_true]
    rfl

theorem numberText?_map_digitChar (hne : ds ≠ []) (h : ∀ d ∈ ds, d < 10)
    (hhead : ds = [0] ∨ ds.head? ≠ some 0) :
    numberText? (ds.map Nat.digitChar) = some (doubleText (ofDigits 10 ds : ℕ)) := by
  have hunpadded : DecimalNumeral.Unpadded (wholeNumeral ds hne h).whole := by
    rcases hhead with rfl | hhead
    · exact .inl rfl
    · obtain ⟨d, ds, rfl⟩ := List.exists_cons_of_ne_nil hne
      refine .inr fun hzero => ?_
      have hd : 0 < d := Nat.pos_of_ne_zero fun hd => hhead (congrArg some hd)
      exact digitChar_ne_zero hd (h d List.mem_cons_self) (Option.some.inj hzero)
  rw [← spelled_wholeNumeral hne h, numberText?_spelled hunpadded, value_wholeNumeral,
    doubleText_natCast, abs_of_nonneg (Nat.cast_nonneg _)]
  rfl

theorem numberText?_decimal {cs : List Char} (big : Bool)
    (hfilter : cs.filter (· != '_') = ds.map Nat.digitChar) (hne : ds ≠ []) (h : ∀ d ∈ ds, d < 10)
    (hhead : ds = [0] ∨ ds.head? ≠ some 0) (hlimit : ds.length ≤ digitLimit) :
    numberText? (cs ++ suffixText big) = integerLiteralText? big (ofDigits 10 ds) := by
  cases big with
  | true =>
    refine numberText?_big ?_ (readInteger_decimal hne h hlimit hhead)
    rw [hfilter, List.map_map]
    refine List.map_congr_left fun d hd => ?_
    have hdigit : IsDigitOf 10 d.digitChar d := ⟨h d hd, .inl rfl⟩
    exact (hdigit.toLower (by norm_num)).2
  | false =>
    have hnil : cs ++ suffixText false = cs := List.append_nil cs
    rw [hnil, ← numberText?_filter, hfilter, numberText?_map_digitChar hne h hhead]
    rfl

/-- Digits behind a zero are octal where they can be. -/
theorem numberText?_zeroLed {base : ℕ} (hne : ds ≠ []) (h : ∀ d ∈ ds, d < base)
    (hbase : base = 8 ∨ base = 10 ∧ ∃ d ∈ ds, 8 ≤ d) (hlimit : (0 :: ds).length ≤ digitLimit) :
    numberText? ('0' :: ds.map Nat.digitChar) =
      some (doubleText (ofDigits base (0 :: ds) : ℕ)) := by
  have hten : base ≤ 10 := by omega
  have hlt : ∀ d ∈ 0 :: ds, d < base := List.forall_mem_cons.mpr ⟨by omega, h⟩
  have hlt' : ∀ d ∈ 0 :: ds, d < 10 := fun d hd => (hlt d hd).trans_le hten
  have hread := readInteger_map_digitChar hten (List.cons_ne_nil 0 ds) hlt (.inr hlimit)
  have hspelled : '0' :: ds.map Nat.digitChar = (0 :: ds).map digitChar := map_digitChar hlt'
  have hdigit : ∀ c ∈ (0 :: ds).map digitChar, c.isDigit = true :=
    List.forall_mem_map.mpr fun d hd => isDigit_digitChar (hlt' d hd)
  have hzeroLed : isZeroLed ((0 :: ds).map digitChar) = true := by
    have hlength := List.length_pos_iff.mpr hne
    rw [isZeroLed, Bool.and_eq_true, Bool.and_eq_true]
    refine ⟨⟨decide_eq_true ?_, rfl⟩, List.all_eq_true.mpr fun c hc => ?_⟩
    · simpa using hlength
    · rw [digitValue?_of_isDigit (hdigit c hc), Option.isSome_some]
  have hoctal : (if ((0 :: ds).map digitChar).all isOctalDigit then 8 else 10) = base := by
    rcases hbase with rfl | ⟨rfl, d, hd, hlarge⟩
    · refine if_pos (List.all_eq_true.mpr (List.forall_mem_map.mpr fun d hd => ?_))
      rw [isOctalDigit_digitChar (hlt' d hd), decide_eq_true_eq]
      exact hlt d hd
    · have hd := List.mem_cons_of_mem 0 hd
      refine if_neg fun hall => ?_
      have := List.forall_mem_map.mp (List.all_eq_true.mp hall) d hd
      rw [isOctalDigit_digitChar (hlt' d hd), decide_eq_true_eq] at this
      omega
  rw [hspelled, numberText?_eq fun c hc => isDecimalChar_of_isDigit (hdigit c hc), hzeroLed,
    if_pos rfl, hoctal, hread]
  rfl

/-- The text of an integer literal is what its digits spell. -/
theorem IntegerLiteral.numberText?_eq {big : Bool} {base : ℕ} {digits : List ℕ} {raw : List Char}
    (h : IntegerLiteral big base digits raw) (hlimit : digits.length ≤ digitLimit) :
    numberText? raw = integerLiteralText? big (ofDigits base digits) := by
  cases h with
  | zero big =>
    exact numberText?_decimal big (show ['0'].filter (· != '_') = [0].map Nat.digitChar from rfl)
      (List.cons_ne_nil _ _) (by simp) (.inl rfl) hlimit
  | decimal big first digits =>
    obtain ⟨hne, hlt⟩ := digits.lt
    refine numberText?_decimal big ?_ hne hlt (.inr fun h => first.ne' (Option.some.inj h)) hlimit
    have hfilter := digits.map_filter (f := id) fun c d hc =>
      ⟨(hc.toLower (by norm_num)).1, hc.eq_digitChar le_rfl⟩
    rwa [List.map_id] at hfilter
  | withPrefix big letter_mem digits => exact numberText?_withPrefix big letter_mem digits
  | legacyOctal nonempty octal => exact numberText?_zeroLed nonempty octal (.inl rfl) hlimit
  | zeroLed decimal not_octal =>
    have hne := not_octal.elim fun d hd => List.ne_nil_of_mem hd.1
    exact numberText?_zeroLed hne decimal (.inr ⟨rfl, not_octal⟩) hlimit

/-- An integer literal has the decimal numeral of its integer as its text, if the integer is one of
the first that doubles count to, or if the literal ends in `n` and the numeral is not too long. -/
theorem numberText?_integerLiteral {big : Bool} {base n : ℕ} {digits : List ℕ} {raw : List Char}
    (h : IntegerLiteral big base digits raw) (hvalue : Nat.ofDigits base digits.reverse = n)
    (hlimit : digits.length ≤ digitLimit)
    (hexact : if big then (Nat.toDigits 10 n).length ≤ digitLimit else n ≤ 2 ^ 53) :
    numberText? raw = some (Nat.toDigits 10 n) := by
  rw [← ofDigits_eq] at hvalue
  rw [h.numberText?_eq hlimit, hvalue, integerLiteralText?_eq hexact]

theorem numberText?_integerLiteral_prefixed_or_led :
    (IntegerLiteral true 16 [2, 0, 15, 1] "0X2_0F1n".toList ∧
      numberText? "0X2_0F1n".toList = some "8433".toList) ∧
    IntegerLiteral false 8 [0, 7, 1] "071".toList ∧
      numberText? "071".toList = some "57".toList := by
  have hletter : ('X', 16) ∈ basePrefixes := by decide
  have hdigits : Separated 16 "2_0F1".toList [2, 0, 15, 1] :=
    .separator ⟨by decide, by decide⟩ (.cons ⟨by decide, by decide⟩
      (.cons ⟨by decide, by decide⟩ (.last ⟨by decide, by decide⟩)))
  have hprefixed : IntegerLiteral true 16 [2, 0, 15, 1] "0X2_0F1n".toList :=
    .withPrefix true hletter hdigits
  have hled : IntegerLiteral false 8 [0, 7, 1] "071".toList := .legacyOctal (by decide) (by decide)
  refine ⟨⟨hprefixed, ?_⟩, hled, ?_⟩
  · exact numberText?_integerLiteral hprefixed (n := 8433) (by decide) (by decide) (by decide)
  · exact numberText?_integerLiteral hled (n := 57) (by decide) (by decide) (by decide)

end ReleasePrompts.Literal
