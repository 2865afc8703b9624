import Mathlib.Algebra.Group.Nat.Defs
import Mathlib.Data.List.TakeWhile
import ReleasePrompts.Literal.Escape

/-!
# How far an escape goes

What an escape stands for depends on no more than the characters that may go on it
(`escape_append_of_stop`). Where an escape at the end of a text goes on into what is written behind
it, the text alone would have ended in an escape for one code point (`escape_open`).
-/

namespace ReleasePrompts.Literal

open Text

/-- A character that may be part of an escape behind its first character. -/
def goesOn (c : Char) : Bool := isHexDigit c || c == '{' || c == '}'

theorem isDigit_of_isOctalDigit {c : Char} (h : isOctalDigit c = true) : c.isDigit = true := by
  simp only [isOctalDigit, Bool.and_eq_true, decide_eq_true_eq] at h
  have h9 : c ≤ '9' := Char.le_trans h.2 (by decide)
  simp only [Char.isDigit, Bool.and_eq_true, decide_eq_true_eq]
  exact ⟨h.1, h9⟩

theorem isHexDigit_of_isOctalDigit {c : Char} (h : isOctalDigit c = true) :
    isHexDigit c = true := by
  simp [isHexDigit, isDigit_of_isOctalDigit h]

theorem isHexDigit_of_stop {behind : List Char} (h : ∀ d ∈ behind.head?, goesOn d = false) :
    ∀ d ∈ behind.head?, isHexDigit d = false := by
  intro d hd
  have := h d hd
  simp only [goesOn, Bool.or_eq_false_iff] at this
  exact this.1.1

/-- A text as what may go on an escape and what is behind it. -/
theorem exists_goesOn_append (rest : List Char) : ∃ front behind, rest = front ++ behind ∧
    (∀ d ∈ front, goesOn d = true) ∧ ∀ d ∈ behind.head?, goesOn d = false := by
  refine ⟨rest.takeWhile goesOn, rest.dropWhile goesOn, List.takeWhile_append_dropWhile.symm,
    fun _ => List.mem_takeWhile_imp, fun d hd => ?_⟩
  have := List.head?_dropWhile_not goesOn rest
  rwa [Option.mem_def.mp hd] at this

theorem takeWhile_append_of_stop {α : Type} {p : α → Bool} {xs ys : List α}
    (h : ∀ y ∈ ys.head?, p y = false) : (xs ++ ys).takeWhile p = xs.takeWhile p := by
  induction xs with
  | nil =>
    cases ys with
    | nil => rfl
    | cons y ys => simp [h y rfl]
  | cons x xs ih =>
    by_cases hx : p x = true
    · simp [hx, ih]
    · simp [hx]

/-- What a text begins with in so many digits does not depend on what stands behind a character that
is none. -/
theorem ite_take_append {α β : Type} {p : α → Bool} {xs ys : List α}
    (h : ∀ y ∈ ys.head?, p y = false) (n : Nat) (f : List α → β) (b : β) :
    (if ((xs ++ ys).take n).length == n && ((xs ++ ys).take n).all p then f ((xs ++ ys).take n)
      else b) =
      if (xs.take n).length == n && (xs.take n).all p then f (xs.take n) else b := by
  by_cases hn : n ≤ xs.length
  · rw [List.take_append_of_le_length hn]
  · have hshort : ((xs.take n).length == n) = false := by
      simp only [List.length_take, beq_eq_false_iff_ne]
      omega
    simp only [hshort, Bool.false_and, Bool.false_eq_true, if_false]
    rw [if_neg]
    rw [Bool.not_eq_true, Bool.and_eq_false_iff]
    cases ys with
    | nil => exact .inl (by rw [List.append_nil]; exact hshort)
    | cons y ys =>
      refine .inr (List.all_eq_false.mpr ⟨y, ?_, by simp [h y rfl]⟩)
      rw [List.take_append, show n - xs.length = (n - xs.length - 1) + 1 by omega, List.take_succ_cons]
      exact List.mem_append_right _ List.mem_cons_self

/-! ## The forms of an escape -/

theorem escape_braced (rest : List Char) :
    escape ('u' :: '{' :: rest) =
      if !(rest.takeWhile isHexDigit).isEmpty &&
          (rest.drop (rest.takeWhile isHexDigit).length).head? == some '}' then
        ([bracedCodePoint (rest.takeWhile isHexDigit)], (rest.takeWhile isHexDigit).length + 3)
      else (singleEscape 'u', 1) := by
  simp only [escape]

theorem escape_unbraced {rest : List Char} (h : rest.head? ≠ some '{') :
    escape ('u' :: rest) =
      if (rest.take 4).length == 4 && (rest.take 4).all isHexDigit then
        ([readDigits 16 (rest.take 4)], 5)
      else (singleEscape 'u', 1) := by
  cases rest with
  | nil => rfl
  | cons d rest =>
    have hd : d ≠ '{' := fun e => h (congrArg some e)
    rw [escape]
    intro rest' e
    exact hd (List.cons.inj e).1

theorem escape_byte (rest : List Char) :
    escape ('x' :: rest) =
      if (rest.take 2).length == 2 && (rest.take 2).all isHexDigit then
        ([readDigits 16 (rest.take 2)], 3)
      else (singleEscape 'x', 1) := by
  simp only [escape]

theorem escape_other {c : Char} (hu : c ≠ 'u') (hx : c ≠ 'x') (hr : c ≠ '\r') (rest : List Char) :
    escape (c :: rest) =
      if isOctalDigit c then
        ([readDigits 8 ((c :: rest.take 2).takeWhile isOctalDigit)],
          ((c :: rest.take 2).takeWhile isOctalDigit).length)
      else (singleEscape c, 1) := by
  rw [escape]
  · exact fun _ e => absurd e hu
  · exact hu
  · exact hx
  · exact fun _ e => absurd e hr

/-- A backslash before a line break stands for nothing. -/
theorem escape_return {rest : List Char} (h : rest.head? ≠ some '\n') :
    escape ('\r' :: rest) = ([], 1) := by
  rw [escape]
  · rfl
  · exact nofun
  · exact nofun
  · exact nofun
  · rintro rest' - rfl
    exact h rfl

theorem escape_braced_append (rest : List Char) {behind : List Char}
    (h : ∀ d ∈ behind.head?, goesOn d = false) :
    escape ('u' :: '{' :: (rest ++ behind)) = escape ('u' :: '{' :: rest) := by
  have hlen : (rest.takeWhile isHexDigit).length ≤ rest.length :=
    (List.takeWhile_prefix _).length_le
  have hclose : ((rest ++ behind).drop (rest.takeWhile isHexDigit).length).head? == some '}' ↔
      (rest.drop (rest.takeWhile isHexDigit).length).head? == some '}' := by
    rw [List.drop_append_of_le_length hlen]
    cases rest.drop (rest.takeWhile isHexDigit).length with
    | nil =>
      refine ⟨fun e => absurd (h '}' (beq_iff_eq.mp e)) (by decide), fun e => ?_⟩
      exact absurd (beq_iff_eq.mp e) nofun
    | cons d tail => exact .rfl
  rw [escape_braced, escape_braced, takeWhile_append_of_stop (isHexDigit_of_stop h)]
  simp only [Bool.and_eq_true, hclose]

theorem octal_append_of_stop (c : Char) (rest : List Char) {behind : List Char}
    (h : ∀ d ∈ behind.head?, goesOn d = false) :
    (c :: (rest ++ behind).take 2).takeWhile isOctalDigit =
      (c :: rest.take 2).takeWhile isOctalDigit := by
  rw [List.take_append, ← List.cons_append]
  refine takeWhile_append_of_stop fun d hd => ?_
  have hd : d ∈ behind.head? := by
    cases behind with
    | nil => simp at hd
    | cons y ys => cases hk : 2 - rest.length <;> simp_all
  by_contra ho
  have := isHexDigit_of_isOctalDigit ((Bool.not_eq_false _).mp ho)
  rw [isHexDigit_of_stop h d hd] at this
  cases this

/-- What stands behind a character that goes on no escape does not count for one. -/
theorem escape_append_of_stop {c : Char} (hc : c ≠ '\r') (rest : List Char) {behind : List Char}
    (h : ∀ d ∈ behind.head?, goesOn d = false) :
    escape (c :: (rest ++ behind)) = escape (c :: rest) := by
  have hhex := isHexDigit_of_stop h
  by_cases hu : c = 'u'
  · subst hu
    by_cases hb : rest.head? = some '{'
    · obtain ⟨rest, rfl⟩ := List.head?_eq_some_iff.mp hb
      exact escape_braced_append rest h
    · have hb' : (rest ++ behind).head? ≠ some '{' := by
        cases rest with
        | nil => exact fun e => absurd (h '{' e) (by decide)
        | cons d tail => exact hb
      rw [escape_unbraced hb, escape_unbraced hb']
      exact ite_take_append hhex 4 (fun digits => ([readDigits 16 digits], 5)) _
  · by_cases hx : c = 'x'
    · subst hx
      rw [escape_byte, escape_byte]
      exact ite_take_append hhex 2 (fun digits => ([readDigits 16 digits], 3)) _
    · rw [escape_other hu hx hc, escape_other hu hx hc, octal_append_of_stop c rest h]

/-! ## What an escape takes -/

/-- An escape of a code point in hexadecimal digits: no more counts for it than what it takes. -/
structure IsWhole (c : Char) (rest : List Char) (value width : Nat) : Prop where
  escape_eq : escape (c :: rest) = ([value], width)
  one_lt : 1 < width
  width_le : width ≤ rest.length + 1
  of_take : ∀ other : List Char, other.take (width - 1) = rest.take (width - 1) →
    escape (c :: other) = ([value], width)

/-- An escape of a fixed number of digits is whole if they are all there. -/
theorem isWhole_of_digits {c : Char} {rest : List Char} {n : Nat} (hn : 0 < n)
    (hform : ∀ other : List Char, other.take n = rest.take n → escape (c :: other) =
      if (other.take n).length == n && (other.take n).all isHexDigit then
        ([readDigits 16 (other.take n)], n + 1)
      else (singleEscape c, 1)) :
    escape (c :: rest) = (singleEscape c, 1) ∨ ∃ value width, IsWhole c rest value width := by
  by_cases hd : ((rest.take n).length == n && (rest.take n).all isHexDigit) = true
  · have heq : ∀ other : List Char, other.take n = rest.take n →
        escape (c :: other) = ([readDigits 16 (rest.take n)], n + 1) := fun other ho => by
      rw [hform other ho, ho, if_pos hd]
    have hlen : n ≤ rest.length := by
      have := beq_iff_eq.mp (Bool.and_eq_true_iff.mp hd).1
      rw [List.length_take] at this
      omega
    exact .inr ⟨_, n + 1, heq rest rfl, by omega, by omega, heq⟩
  · exact .inl (by rw [hform rest rfl, if_neg hd])

/-- An escape of digits in braces is whole if there are digits and the closing brace. -/
theorem isWhole_of_braces (rest : List Char) :
    escape ('u' :: '{' :: rest) = (singleEscape 'u', 1) ∨
      ∃ value width, IsWhole 'u' ('{' :: rest) value width := by
  let digits := rest.takeWhile isHexDigit
  by_cases hc : (!digits.isEmpty && (rest.drop digits.length).head? == some '}') = true
  · obtain ⟨hne, hclose⟩ := Bool.and_eq_true_iff.mp hc
    have hnext : rest[digits.length]? = some '}' := by
      rw [← List.head?_drop]
      exact beq_iff_eq.mp hclose
    have hlen : digits.length < rest.length := (List.getElem?_eq_some_iff.mp hnext).choose
    have hpre : rest.take (digits.length + 1) = digits ++ ['}'] := by
      rw [List.take_add_one, hnext, (List.prefix_iff_eq_take.mp (List.takeWhile_prefix _)).symm]
      rfl
    have heq : escape ('u' :: '{' :: rest) = ([bracedCodePoint digits], digits.length + 3) := by
      rw [escape_braced, if_pos hc]
    refine .inr ⟨_, _, heq, by omega, by simp only [List.length_cons]; omega, fun other ho => ?_⟩
    obtain ⟨tail, rfl⟩ : ∃ tail, other = '{' :: (digits ++ '}' :: tail) := by
      refine ⟨other.drop (digits.length + 2), ?_⟩
      calc other = other.take (digits.length + 2) ++ other.drop (digits.length + 2) :=
          (List.take_append_drop _ other).symm
        _ = '{' :: rest.take (digits.length + 1) ++ other.drop (digits.length + 2) :=
          congrArg (· ++ _) ho
        _ = _ := by rw [hpre]; simp
    have hall : ∀ d ∈ digits, isHexDigit d := fun _ => List.mem_takeWhile_imp
    rw [escape_braced, List.takeWhile_append_of_pos hall, List.takeWhile_cons_of_neg (by decide),
      List.append_nil, List.drop_left, if_pos (by simpa using hne)]
  · exact .inl (by rw [escape_braced, if_neg hc])

/-- An escape is a single character, the break of a line in two characters, octal digits, or whole. -/
theorem escape_cases (c : Char) (rest : List Char) :
    escape (c :: rest) = (singleEscape c, 1) ∨
    (c = '\r' ∧ escape (c :: rest) = ([], 2) ∧ rest.head? = some '\n') ∨
    (isOctalDigit c = true ∧ escape (c :: rest) =
      ([readDigits 8 ((c :: rest.take 2).takeWhile isOctalDigit)],
        ((c :: rest.take 2).takeWhile isOctalDigit).length)) ∨
    ∃ value width, IsWhole c rest value width := by
  by_cases hu : c = 'u'
  · subst hu
    by_cases hb : rest.head? = some '{'
    · obtain ⟨rest, rfl⟩ := List.head?_eq_some_iff.mp hb
      exact (isWhole_of_braces rest).imp_right fun h => .inr (.inr h)
    · refine (isWhole_of_digits (by decide : 0 < 4) fun other ho => escape_unbraced ?_).imp_right
        fun h => .inr (.inr h)
      have := congrArg List.head? ho
      rw [List.head?_take, List.head?_take] at this
      exact fun e => hb (this.symm.trans e)
  · by_cases hx : c = 'x'
    · subst hx
      exact (isWhole_of_digits (by decide : 0 < 2) fun other _ => escape_byte other).imp_right
        fun h => .inr (.inr h)
    · by_cases hr : c = '\r'
      · subst hr
        by_cases hn : rest.head? = some '\n'
        · obtain ⟨tail, rfl⟩ := List.head?_eq_some_iff.mp hn
          exact .inr (.inl ⟨rfl, rfl, rfl⟩)
        · exact .inl (escape_return hn)
      · rw [escape_other hu hx hr]
        split
        · next ho => exact .inr (.inr (.inl ⟨ho, rfl⟩))
        · exact .inl rfl

theorem length_singleEscape_le (c : Char) : (singleEscape c).length ≤ 1 := by
  simp only [singleEscape]
  split <;> simp

/-- An escape stands for one code point at most, and takes some of what there is. -/
theorem escape_bounds (c : Char) (rest : List Char) :
    (escape (c :: rest)).1.length ≤ 1 ∧ 1 ≤ (escape (c :: rest)).2 ∧
      (escape (c :: rest)).2 ≤ rest.length + 1 := by
  rcases escape_cases c rest with he | ⟨-, he, hn⟩ | ⟨ho, he⟩ | ⟨value, width, he, hw, hl, -⟩
  all_goals rw [he]
  · exact ⟨length_singleEscape_le c, Nat.le_refl 1, Nat.le_add_left 1 _⟩
  · cases rest with
    | nil => cases hn
    | cons d rest => exact ⟨Nat.zero_le 1, by decide, by simp⟩
  · rw [List.takeWhile_cons_of_pos ho]
    have := (List.takeWhile_prefix (l := rest.take 2) isOctalDigit).length_le
    have := List.length_take_le' 2 rest
    exact ⟨Nat.le_refl 1, by simp, by simp only [List.length_cons]; omega⟩
  · exact ⟨Nat.le_refl 1, by simp only; omega, hl⟩

/-- Behind its first character an escape takes only what may go on one. -/
theorem goesOn_of_mem_escape {c : Char} (hc : c ≠ '\r') {rest : List Char} {d : Char}
    (hd : d ∈ rest.take ((escape (c :: rest)).2 - 1)) : goesOn d = true := by
  obtain ⟨front, behind, rfl, hfront, hstop⟩ := exists_goesOn_append rest
  rw [escape_append_of_stop hc _ hstop, List.take_append_of_le_length] at hd
  · exact hfront d (List.mem_of_mem_take hd)
  · have := (escape_bounds c front).2.2
    omega

/-! ## Escapes that go on -/

theorem escape_octal {c : Char} (h : isOctalDigit c = true) (rest : List Char) :
    escape (c :: rest) =
      ([readDigits 8 ((c :: rest.take 2).takeWhile isOctalDigit)],
        ((c :: rest.take 2).takeWhile isOctalDigit).length) := by
  rw [escape_other, if_pos h]
  all_goals
    rintro rfl
    exact absurd h (by decide)

theorem octal_append_of_le {c : Char} {rest behind : List Char}
    (h : ((c :: (rest ++ behind).take 2).takeWhile isOctalDigit).length ≤ rest.length + 1) :
    (c :: (rest ++ behind).take 2).takeWhile isOctalDigit =
      (c :: rest.take 2).takeWhile isOctalDigit := by
  rw [List.take_append, ← List.cons_append, List.takeWhile_append] at h ⊢
  split
  · next hall =>
      have hself := List.IsPrefix.eq_of_length (List.takeWhile_prefix _) hall
      rw [if_pos hall, List.length_append, List.length_cons, List.length_take] at h
      have hnil : (behind.take (2 - rest.length)).takeWhile isOctalDigit = [] := by
        have := (List.takeWhile_prefix (l := behind.take (2 - rest.length)) isOctalDigit).length_le
        rw [List.length_take] at this
        exact List.length_eq_zero_iff.mp (by omega)
      rw [hnil, List.append_nil, hself]
  · rfl

/-- An escape that takes no more than a text is the escape of the text. -/
theorem escape_append_of_le {c : Char} {rest behind : List Char}
    (h : (escape (c :: (rest ++ behind))).2 ≤ rest.length + 1) :
    escape (c :: (rest ++ behind)) = escape (c :: rest) := by
  by_cases ho : isOctalDigit c = true
  · rw [escape_octal ho] at h
    rw [escape_octal ho, escape_octal ho, octal_append_of_le h]
  · have htake : ∀ {width : Nat}, width ≤ rest.length + 1 →
        (rest ++ behind).take (width - 1) = rest.take (width - 1) := fun hw =>
      List.take_append_of_le_length (by omega)
    rcases escape_cases c (rest ++ behind) with he | ⟨rfl, he, hn⟩ | ⟨ho', -⟩ |
        ⟨value, width, he, -, -, hwhole⟩
    · rcases escape_cases c rest with he' | ⟨rfl, he', hn⟩ | ⟨ho', -⟩ |
          ⟨value, width, he', -, hl, hwhole⟩
      · rw [he, he']
      · cases rest with
        | nil => cases hn
        | cons d rest =>
          obtain rfl : d = '\n' := Option.some.inj hn
          cases he
      · exact absurd ho' ho
      · rw [he', hwhole _ (htake hl)]
    · rw [he] at h ⊢
      cases rest with
      | nil => simp at h
      | cons d rest =>
        obtain rfl : d = '\n' := Option.some.inj hn
        rfl
    · exact absurd ho' ho
    · rw [he] at h ⊢
      rw [hwhole rest (htake h).symm]

theorem hexDigitValue_lt_of_isOctalDigit {c : Char} (h : isOctalDigit c = true) :
    hexDigitValue c < 8 := by
  rw [hexDigitValue, if_pos (isDigit_of_isOctalDigit h)]
  simp only [isOctalDigit, Bool.and_eq_true, decide_eq_true_eq] at h
  have hlow : 48 ≤ c.toNat := h.1
  have hhigh : c.toNat ≤ 55 := h.2
  omega

theorem hexDigitValue_lt (c : Char) : hexDigitValue c < 16 := by
  simp only [hexDigitValue, Char.isDigit, Bool.and_eq_true, decide_eq_true_eq]
  split
  · next h =>
    have hle : c.toNat ≤ 57 := h.2
    omega
  · split
    · next h =>
      have hle : c.toNat ≤ 102 := h.2
      omega
    · split
      · next h =>
        have hle : c.toNat ≤ 70 := h.2
        omega
      · decide

theorem readDigits_lt {base : Nat} {cs : List Char} (h : ∀ c ∈ cs, hexDigitValue c < base) :
    readDigits base cs < base ^ cs.length := by
  have hfold : ∀ value, cs.foldl (fun value c => value * base + hexDigitValue c) value <
      (value + 1) * base ^ cs.length := by
    induction cs with
    | nil => simp
    | cons c cs ih =>
      intro value
      have hc := h c List.mem_cons_self
      have hstep : value * base + hexDigitValue c + 1 ≤ (value + 1) * base := by
        rw [Nat.add_mul]
        omega
      refine Nat.lt_of_lt_of_le (ih (fun d hd => h d (List.mem_cons_of_mem _ hd)) _) ?_
      rw [List.length_cons, Nat.pow_succ', ← Nat.mul_assoc]
      exact Nat.mul_le_mul_right _ hstep
  simpa [readDigits] using hfold 0

/-- Where an escape goes on behind a text, it takes the rest of the text and some of what is behind,
all of it what may go on an escape, and the text alone would have ended in an escape for one code
point that is no surrogate. -/
theorem escape_open {c : Char} (hc : c ≠ '\r') {rest behind : List Char}
    (h : rest.length + 1 < (escape (c :: (rest ++ behind))).2) :
    (∀ d ∈ rest, goesOn d = true) ∧
      (∀ d ∈ behind.take ((escape (c :: (rest ++ behind))).2 - 1 - rest.length), goesOn d = true) ∧
      ∃ value < 0xD800, (escape (c :: rest)).1 = [value] := by
  have hall : ∀ d ∈ (rest ++ behind).take ((escape (c :: (rest ++ behind))).2 - 1), goesOn d = true :=
    fun d => goesOn_of_mem_escape hc
  rw [List.take_append, List.take_of_length_le (by omega)] at hall
  refine ⟨fun d hd => hall d (List.mem_append_left _ hd),
    fun d hd => hall d (List.mem_append_right _ hd), ?_⟩
  by_cases ho : isOctalDigit c = true
  · refine ⟨_, ?_, congrArg Prod.fst (escape_octal ho rest)⟩
    refine Nat.lt_of_lt_of_le
      (readDigits_lt fun d hd => hexDigitValue_lt_of_isOctalDigit (List.mem_takeWhile_imp hd)) ?_
    have hlen := (List.takeWhile_prefix (l := c :: rest.take 2) isOctalDigit).length_le
    have hthree : (c :: rest.take 2).length ≤ 3 := by
      rw [List.length_cons, List.length_take]
      omega
    exact Nat.le_trans (Nat.pow_le_pow_right (by decide) (Nat.le_trans hlen hthree)) (by decide)
  · have hletter : c = 'u' ∨ c = 'x' := by
      by_contra hn
      rw [escape_other (fun e => hn (.inl e)) (fun e => hn (.inr e)) hc, if_neg ho] at h
      simp only at h
      omega
    rcases escape_cases c rest with he | ⟨rfl, -⟩ | ⟨ho', -⟩ | ⟨value, width, he, -, hl, hwhole⟩
    · rcases hletter with rfl | rfl
      · exact ⟨_, by decide, congrArg Prod.fst he⟩
      · exact ⟨_, by decide, congrArg Prod.fst he⟩
    · exact absurd rfl hc
    · exact absurd ho' ho
    · rw [hwhole (rest ++ behind) (List.take_append_of_le_length (by omega))] at h
      simp only at h
      omega

end ReleasePrompts.Literal
