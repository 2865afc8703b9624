import ReleasePrompts.Literal.NumberText
import ReleasePrompts.Proofs.Number.Layout

/-!
# Reading numbers that were written

A decimal numeral without a leading zero is taken for nothing but a decimal: not for an integer of
any size, nor for digits of another base. So its text is that of the double nearest to its value
(`numberText?_spelled`), and what a script prints of a double is read as that double again
(`numberText?_text`).
-/

namespace ReleasePrompts.Literal

open Number Text

/-- Separators do not count. -/
theorem numberText?_filter (raw : List Char) :
    numberText? (raw.filter (· != '_')) = numberText? raw := by
  simp only [numberText?, List.filter_filter, Bool.and_self]

/-- No base is named without its letter. -/
theorem hasBasePrefix_eq_false {cs : List Char} (h : ∀ c ∈ cs, baseOfLetter? c = none) :
    hasBasePrefix cs = false := by
  unfold hasBasePrefix
  split
  · rw [h _ (by simp)]
    rfl
  · rfl

/-- A character that neither separates digits nor tells that a literal is no decimal. -/
def IsDecimalChar (c : Char) : Prop :=
  c ≠ '_' ∧ c.toLower = c ∧ c ≠ 'n' ∧ baseOfLetter? c = none

theorem isDecimalChar_of_isDigit {c : Char} (h : c.isDigit = true) : IsDecimalChar c :=
  ⟨ne_of_isDigit h rfl, toLower_of_isDigit h, ne_of_isDigit h rfl, baseOfLetter?_of_isDigit h⟩

/-- Such characters leave two ways to read a literal. -/
theorem numberText?_eq {cs : List Char} (h : ∀ c ∈ cs, IsDecimalChar c) : numberText? cs =
    if isZeroLed cs then
      (readInteger (.given (if cs.all isOctalDigit then 8 else 10)) cs).toOption.map doubleText
    else (readReal? cs).map Layout.scriptNumber.text := by
  have hfilter : cs.filter (· != '_') = cs :=
    List.filter_eq_self.mpr fun c hc => bne_iff_ne.mpr (h c hc).1
  have hlower : cs.map Char.toLower = cs :=
    (List.map_congr_left fun c hc => (h c hc).2.1).trans (List.map_id _)
  have hlast : (cs.getLast? == some 'n') = false :=
    beq_eq_false_iff_ne.mpr fun hlast => (h _ (List.mem_of_getLast? hlast)).2.2.1 rfl
  have hprefix : hasBasePrefix cs = false := hasBasePrefix_eq_false fun c hc => (h c hc).2.2.2
  simp only [numberText?, hfilter, hlower, hlast, hprefix, Bool.false_eq_true, if_false]

theorem isZeroLed_spelled {n : DecimalNumeral} (h : DecimalNumeral.Unpadded n.whole) :
    isZeroLed n.spelled = false := by
  rw [DecimalNumeral.spelled, DecimalNumeral.unsigned]
  rcases h with hzero | hhead
  · -- what stands behind the zero is no digit
    have hpoint : digitValue? '.' = none := by decide
    have hpower : digitValue? 'e' = none := by decide
    rw [hzero]
    rcases n.negative with _ | _ <;> rcases n.fraction with _ | digits <;>
      rcases n.power with _ | ⟨sign, power⟩ <;>
      simp [isZeroLed, DecimalNumeral.fractionText, DecimalNumeral.powerText, hpoint, hpower]
  · cases n.negative with
    | true => simp [isZeroLed]
    | false =>
      rw [if_neg Bool.false_ne_true, List.nil_append, List.append_assoc, isZeroLed,
        List.head?_append_of_ne_nil _ n.whole_ne_nil, beq_eq_false_iff_ne.mpr hhead, Bool.and_false,
        Bool.false_and]

/-- A decimal numeral without a leading zero has the text of the double nearest to its value. -/
theorem numberText?_spelled {n : DecimalNumeral} (h : DecimalNumeral.Unpadded n.whole) :
    numberText? n.spelled =
      some (Layout.scriptNumber.text ⟨n.negative, Binary64.nearest |n.value|⟩) := by
  have hchars : ∀ c ∈ n.spelled, IsDecimalChar c := fun c hc => by
    rcases DecimalNumeral.mem_spelled hc with hdigit | hother
    · exact isDecimalChar_of_isDigit hdigit
    · simp only [List.mem_cons, List.not_mem_nil, or_false] at hother
      rcases hother with rfl | rfl | rfl | rfl
      all_goals exact ⟨by decide, by decide, by decide, by decide⟩
  rw [numberText?_eq hchars, isZeroLed_spelled h, if_neg Bool.false_ne_true, n.readReal?_spelled,
    Option.map_some]

/-- What a script prints of a double is printed of the same double again. -/
theorem numberText?_text (x : Binary64) (h : x.isNaN = false) :
    numberText? (Layout.scriptNumber.text x) = some (Layout.scriptNumber.text x) := by
  obtain ⟨negative, magnitude⟩ := x
  have hle : magnitude ≤ Binary64.infinite := Nat.not_lt.mp (of_decide_eq_false h)
  rcases Nat.eq_zero_or_pos magnitude with rfl | hpos
  · cases negative <;> decide +kernel
  rcases hle.eq_or_lt with rfl | hfinite
  · cases negative <;> decide +kernel
  obtain ⟨n, hspelled, hnegative, hsize, -, htidy⟩ :=
    @Layout.exists_numeral Layout.scriptNumber none rfl ⟨negative, magnitude⟩ hpos hfinite
  rw [← hspelled, numberText?_spelled (htidy rfl le_rfl).whole, n.abs_value, hsize,
    (Binary64.shortest_spec hpos hle).1, hnegative, hspelled]

theorem numberText?_text_least :
    (⟨false, 1⟩ : Binary64).isNaN = false ∧ numberText? "5e-324".toList = some "5e-324".toList := by
  have htext : Layout.scriptNumber.text ⟨false, 1⟩ = "5e-324".toList := by decide +kernel
  exact ⟨rfl, htext ▸ numberText?_text ⟨false, 1⟩ rfl⟩

end ReleasePrompts.Literal
