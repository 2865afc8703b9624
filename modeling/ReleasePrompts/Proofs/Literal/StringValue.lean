import ReleasePrompts.Proofs.Literal.Deviation
import ReleasePrompts.Proofs.Text.Utf16

/-!
# The value of a string

The inside of a string literal of ECMAScript has a value in code units (`StringBody`): each character
has its own units, and each escape those of the form it has (`EscapeValue`), octal escapes of sloppy
mode included. What `cook` gives is the text that the units spell, unless three octal digits of which
the first is beyond `3` stand behind a backslash (`cook_spells_value_iff`): they are two lexemes, the
third digit being a character of its own, and are read as one.
-/

namespace ReleasePrompts.Literal

open Text

/-! ## The grammar -/

/-- The code unit that a single character behind a backslash names. -/
def singleEscapeUnit? : Char → Option Nat
  | 'b' => some 0x08
  | 't' => some 0x09
  | 'n' => some 0x0A
  | 'v' => some 0x0B
  | 'f' => some 0x0C
  | 'r' => some 0x0D
  | '"' => some 0x22
  | '\'' => some 0x27
  | '\\' => some 0x5C
  | _ => none

/-- What stands behind the backslash of an escape, the character `next` behind that, and the code
units that the escape stands for. -/
inductive EscapeValue : (text : List Char) → (next : Option Char) → (units : List Nat) → Prop where
  | single {c : Char} {n : Nat} {next : Option Char} (h : singleEscapeUnit? c = some n) :
    EscapeValue [c] next [n]
  /-- Any other character that begins no longer escape stands for itself. -/
  | other {c : Char} {next : Option Char} (hs : singleEscapeUnit? c = none)
    (hd : c.isDigit = false) (hx : c ≠ 'x') (hu : c ≠ 'u') (ht : isLineTerminator c = false) :
    EscapeValue [c] next (codeUnits c.toNat)
  /-- One octal digit with no other behind it. That of zero has two rules in the standard, of which
  the one before `8` and `9` is for sloppy mode. -/
  | octalOne {a : Char} {next : Option Char} (ha : isOctalDigit a = true)
    (hnext : ∀ d ∈ next, isOctalDigit d = false) : EscapeValue [a] next [readDigits 8 [a]]
  | octalTwo {a b : Char} {next : Option Char} (ha : isOctalDigit a = true) (hle : a ≤ '3')
    (hb : isOctalDigit b = true) (hnext : ∀ d ∈ next, isOctalDigit d = false) :
    EscapeValue [a, b] next [readDigits 8 [a, b]]
  /-- Behind a first digit beyond `3` there is room for one more, whatever stands behind it. -/
  | octalHigh {a b : Char} {next : Option Char} (ha : isOctalDigit a = true) (hlt : '3' < a)
    (hb : isOctalDigit b = true) : EscapeValue [a, b] next [readDigits 8 [a, b]]
  | octalThree {a b c : Char} {next : Option Char} (ha : isOctalDigit a = true) (hle : a ≤ '3')
    (hb : isOctalDigit b = true) (hc : isOctalDigit c = true) :
    EscapeValue [a, b, c] next [readDigits 8 [a, b, c]]
  | decimal {c : Char} {next : Option Char} (h : c = '8' ∨ c = '9') : EscapeValue [c] next [c.toNat]
  | byte {a b : Char} {next : Option Char} (ha : isHexDigit a = true) (hb : isHexDigit b = true) :
    EscapeValue ['x', a, b] next [readDigits 16 [a, b]]
  | unit {a b c d : Char} {next : Option Char} (ha : isHexDigit a = true) (hb : isHexDigit b = true)
    (hc : isHexDigit c = true) (hd : isHexDigit d = true) :
    EscapeValue ['u', a, b, c, d] next [readDigits 16 [a, b, c, d]]
  | codePoint {digits : List Char} {next : Option Char} (hne : digits ≠ [])
    (hall : ∀ d ∈ digits, isHexDigit d = true) (hle : readDigits 16 digits ≤ 0x10FFFF) :
    EscapeValue ('u' :: '{' :: (digits ++ ['}'])) next (codeUnits (readDigits 16 digits))
  /-- A line that goes on. -/
  | continued {c : Char} {next : Option Char} (hc : isLineTerminator c = true)
    (hnext : ¬(c = '\r' ∧ next = some '\n')) : EscapeValue [c] next []
  | continuedPair {next : Option Char} : EscapeValue ['\r', '\n'] next []

/-- The inside of a string literal between quotes, and the code units of its value. -/
inductive StringBody (quote : Char) : List Char → List Nat → Prop where
  | nil : StringBody quote [] []
  | char {c : Char} {rest : List Char} {units : List Nat} (hq : c ≠ quote) (hb : c ≠ '\\')
    (hf : c ≠ '\n') (hr : c ≠ '\r') (h : StringBody quote rest units) :
    StringBody quote (c :: rest) (codeUnits c.toNat ++ units)
  | escape {text rest : List Char} {value units : List Nat}
    (he : EscapeValue text rest.head? value) (h : StringBody quote rest units) :
    StringBody quote ('\\' :: (text ++ rest)) (value ++ units)

/-- Whether a text begins with three octal digits the first of which is beyond `3`. -/
def startsWide : List Char → Bool
  | a :: b :: c :: _ => '3' < a && isOctalDigit a && isOctalDigit b && isOctalDigit c
  | _ => false

/-- Whether such digits stand behind a backslash that begins an escape. -/
def hasWideOctal : List Char → Bool
  | '\\' :: c :: rest => startsWide (c :: rest) || hasWideOctal rest
  | _ :: rest => hasWideOctal rest
  | [] => false

/-! ## One escape -/

/-- What a text gives when it is read as an escape: code points for the units. -/
def ReadsAs (text rest : List Char) (units : List Nat) : Prop :=
  ∃ points : List Nat, units = points.flatMap codeUnits ∧ (∀ n ∈ points, n < 0x110000) ∧
    escape (text ++ rest) = (points, text.length)

theorem ReadsAs.one {text rest : List Char} {n : Nat} (hn : n < 0x110000)
    (h : escape (text ++ rest) = ([n], text.length)) : ReadsAs text rest (codeUnits n) :=
  ⟨[n], by simp, by simpa using hn, h⟩

theorem ReadsAs.small {text rest : List Char} {n : Nat} (hn : n < 0x10000)
    (h : escape (text ++ rest) = ([n], text.length)) : ReadsAs text rest [n] := by
  have hunits : codeUnits n = [n] := if_pos hn
  rw [← hunits]
  exact .one (Nat.lt_trans hn (by decide)) h

theorem readsAs_single {c : Char} {n : Nat} (h : singleEscapeUnit? c = some n) (rest : List Char) :
    ReadsAs [c] rest [n] := by
  rw [singleEscapeUnit?.eq_def] at h
  split at h
  case h_10 => cases h
  all_goals
    obtain rfl := Option.some.inj h
    refine .small (by decide) ?_
    rw [List.singleton_append, escape_other (by decide) (by decide) (by decide)]
    rfl

theorem letterEscape?_of_single {c : Char} (h : singleEscapeUnit? c = none) :
    letterEscape? c = none := by
  rw [singleEscapeUnit?.eq_def] at h
  rw [letterEscape?.eq_def]
  split at h <;> simp_all

/-- Up to three octal digits are read if they end there. -/
theorem readsAs_octal {a : Char} {more rest : List Char}
    (hall : ∀ d ∈ a :: more, isOctalDigit d = true) (hle : more.length ≤ 2)
    (hstop : more.length = 2 ∨ ∀ d ∈ rest.head?, isOctalDigit d = false) :
    ReadsAs (a :: more) rest [readDigits 8 (a :: more)] := by
  have hend : ∀ d ∈ (rest.take (2 - more.length)).head?, isOctalDigit d = false := by
    intro d hd
    rcases hstop with hfull | hstop
    · simp [hfull] at hd
    · cases rest with
      | nil => simp at hd
      | cons e rest => cases hk : 2 - more.length <;> simp_all
  have htake : (a :: (more ++ rest).take 2).takeWhile isOctalDigit = a :: more := by
    rw [List.take_append, List.take_of_length_le hle, ← List.cons_append,
      takeWhile_append_of_stop hend]
    exact List.takeWhile_eq_self_iff.mpr hall
  have hlt : readDigits 8 (a :: more) < 8 ^ 3 :=
    Nat.lt_of_lt_of_le (readDigits_lt fun d hd => hexDigitValue_lt_of_isOctalDigit (hall d hd))
      (Nat.pow_le_pow_right (by decide) (Nat.succ_le_succ hle))
  refine .small (Nat.lt_trans hlt (by decide)) ?_
  rw [List.cons_append, escape_octal (hall a List.mem_cons_self), htake]

theorem readsAs_braced {digits : List Char} (hne : digits ≠ [])
    (hall : ∀ d ∈ digits, isHexDigit d = true) (hle : readDigits 16 digits ≤ 0x10FFFF)
    (rest : List Char) :
    ReadsAs ('u' :: '{' :: (digits ++ ['}'])) rest (codeUnits (readDigits 16 digits)) := by
  have htake : (digits ++ '}' :: rest).takeWhile isHexDigit = digits := by
    rw [List.takeWhile_append_of_pos hall, List.takeWhile_cons_of_neg (by decide), List.append_nil]
  have hclose : (!digits.isEmpty &&
      ((digits ++ '}' :: rest).drop digits.length).head? == some '}') = true := by
    rw [List.drop_left]
    simpa using hne
  have hvalue : bracedCodePoint digits = readDigits 16 digits := if_pos hle
  refine .one (Nat.lt_succ_of_le hle) ?_
  rw [List.cons_append, List.cons_append, List.append_assoc, List.singleton_append, escape_braced,
    htake, if_pos hclose, hvalue]
  simp

theorem readsAs_continued {c : Char} {rest : List Char} (hc : isLineTerminator c = true)
    (hpair : ¬(c = '\r' ∧ rest.head? = some '\n')) : ReadsAs [c] rest [] := by
  refine ⟨[], rfl, nofun, ?_⟩
  rw [List.singleton_append]
  by_cases hr : c = '\r'
  · subst hr
    exact escape_return fun h => hpair ⟨rfl, h⟩
  · have hform : c ≠ 'u' ∧ c ≠ 'x' ∧ isOctalDigit c = false := by
      simp only [isLineTerminator, Bool.or_eq_true, beq_iff_eq] at hc
      rcases hc with ((rfl | rfl) | rfl) | rfl <;> decide
    rw [escape_other hform.1 hform.2.1 hr, hform.2.2, singleEscape, hc]
    rfl

/-- What an escape stands for is read of it, unless its digits go on in what stands behind it. -/
theorem EscapeValue.readsAs {text : List Char} {units : List Nat} {rest : List Char}
    (h : EscapeValue text rest.head? units) (hwide : startsWide (text ++ rest) = false) :
    ReadsAs text rest units := by
  generalize hnext : rest.head? = next at h
  cases h with
  | single h => exact readsAs_single h rest
  | @other c _ hs hd hx hu ht =>
    have ho : isOctalDigit c = false := Bool.eq_false_iff.mpr fun ho => by
      rw [isDigit_of_isOctalDigit ho] at hd
      cases hd
    have hr : c ≠ '\r' := by
      rintro rfl
      cases ht
    refine .one (isValidChar_iff.mp c.valid).2 ?_
    rw [List.singleton_append, escape_other hu hx hr, ho, singleEscape, ht,
      letterEscape?_of_single hs]
    rfl
  | octalOne ha hstop => exact readsAs_octal (by simpa using ha) (by simp) (.inr (hnext ▸ hstop))
  | octalTwo ha hle hb hstop =>
    exact readsAs_octal (by simp [ha, hb]) (by simp) (.inr (hnext ▸ hstop))
  | octalHigh ha hlt hb =>
    refine readsAs_octal (by simp [ha, hb]) (by simp) (.inr fun d hd => ?_)
    obtain ⟨rest, rfl⟩ := List.head?_eq_some_iff.mp hd
    simpa [startsWide, ha, hb, hlt] using hwide
  | octalThree ha hle hb hc => exact readsAs_octal (by simp [ha, hb, hc]) (by simp) (.inl rfl)
  | decimal h =>
    rcases h with rfl | rfl
    · refine .small (by decide) ?_
      rw [List.singleton_append, escape_other (by decide) (by decide) (by decide)]
      rfl
    · refine .small (by decide) ?_
      rw [List.singleton_append, escape_other (by decide) (by decide) (by decide)]
      rfl
  | @byte a b _ ha hb =>
    have hlt : readDigits 16 [a, b] < 16 ^ 2 := readDigits_lt fun d _ => hexDigitValue_lt d
    refine .small (Nat.lt_trans hlt (by decide)) ?_
    rw [List.cons_append, escape_byte]
    simp [ha, hb]
  | @unit a b c d _ ha hb hc hd =>
    have hbrace : (a :: b :: c :: d :: rest).head? ≠ some '{' := fun h => by
      obtain rfl := Option.some.inj h
      exact absurd ha (by decide)
    have hlt : readDigits 16 [a, b, c, d] < 16 ^ 4 := readDigits_lt fun d _ => hexDigitValue_lt d
    refine .small (Nat.lt_of_lt_of_le hlt (by decide)) ?_
    rw [List.cons_append]
    refine (escape_unbraced hbrace).trans ?_
    simp [ha, hb, hc, hd]
  | codePoint hne hall hle => exact readsAs_braced hne hall hle rest
  | continued hc hpair => exact readsAs_continued hc (hnext ▸ hpair)
  | continuedPair =>
    exact ⟨[], rfl, by simp, by rw [List.cons_append, List.cons_append, escape]; rfl⟩

/-! ## The whole body -/

theorem hasWideOctal_cons {c : Char} (h : c ≠ '\\') (rest : List Char) :
    hasWideOctal (c :: rest) = hasWideOctal rest := by
  rw [hasWideOctal.eq_def]
  split <;> simp_all

/-- An escape begins with one character, behind which it has hexadecimal digits, braces or a line
feed. -/
theorem EscapeValue.exists_cons {text : List Char} {next : Option Char} {units : List Nat}
    (h : EscapeValue text next units) :
    ∃ c more, text = c :: more ∧ ∀ d ∈ more, goesOn d = true ∨ d = '\n' := by
  have hhex : ∀ {d : Char}, isHexDigit d = true → goesOn d = true ∨ d = '\n' := fun h =>
    .inl (by simp [goesOn, h])
  have hoctal : ∀ {d : Char}, isOctalDigit d = true → goesOn d = true ∨ d = '\n' := fun h =>
    hhex (isHexDigit_of_isOctalDigit h)
  cases h with
  | single | other | octalOne | decimal | continued => exact ⟨_, [], rfl, by simp⟩
  | octalTwo _ _ hb => exact ⟨_, _, rfl, by simpa using hoctal hb⟩
  | octalHigh _ _ hb => exact ⟨_, _, rfl, by simpa using hoctal hb⟩
  | octalThree _ _ hb hc => exact ⟨_, _, rfl, by simpa using ⟨hoctal hb, hoctal hc⟩⟩
  | byte ha hb => exact ⟨_, _, rfl, by simpa using ⟨hhex ha, hhex hb⟩⟩
  | unit ha hb hc hd => exact ⟨_, _, rfl, by simpa using ⟨hhex ha, hhex hb, hhex hc, hhex hd⟩⟩
  | codePoint _ hall _ =>
    refine ⟨_, _, rfl, fun d hd => ?_⟩
    rw [List.mem_cons, List.mem_append, List.mem_singleton] at hd
    rcases hd with rfl | hd | rfl
    · exact .inl (by decide)
    · exact hhex (hall d hd)
    · exact .inl (by decide)
  | continuedPair => exact ⟨_, _, rfl, by simp⟩

theorem hasWideOctal_escape {text rest : List Char} {value : List Nat}
    (h : EscapeValue text rest.head? value) :
    hasWideOctal ('\\' :: (text ++ rest)) = (startsWide (text ++ rest) || hasWideOctal rest) := by
  obtain ⟨c, more, rfl, hmore⟩ := h.exists_cons
  have hskip : ∀ more : List Char, (∀ d ∈ more, goesOn d = true ∨ d = '\n') →
      hasWideOctal (more ++ rest) = hasWideOctal rest := by
    intro more hmore
    induction more with
    | nil => rfl
    | cons d more ih =>
      obtain ⟨hd, hmore⟩ := List.forall_mem_cons.mp hmore
      have hb : d ≠ '\\' := by
        rintro rfl
        exact absurd hd (by decide)
      rw [List.cons_append, hasWideOctal_cons hb, ih hmore]
  rw [List.cons_append, hasWideOctal, hskip more hmore]

theorem exists_of_startsWide {text : List Char} (h : startsWide text = true) :
    ∃ a b c rest, text = a :: b :: c :: rest ∧ '3' < a ∧ isOctalDigit a = true ∧
      isOctalDigit b = true ∧ isOctalDigit c = true := by
  rw [startsWide.eq_def] at h
  split at h
  · next a b c rest =>
    simp only [Bool.and_eq_true, decide_eq_true_eq] at h
    obtain ⟨⟨⟨hlt, ha⟩, hb⟩, hc⟩ := h
    exact ⟨a, b, c, rest, rfl, hlt, ha, hb, hc⟩
  · cases h

/-- Only an escape of two octal digits can be the first two of such three. -/
theorem EscapeValue.of_startsWide {text rest : List Char} {units : List Nat}
    (h : EscapeValue text rest.head? units) (hwide : startsWide (text ++ rest) = true) :
    ∃ a b c behind, text = [a, b] ∧ rest = c :: behind ∧ units = [readDigits 8 [a, b]] ∧
      isOctalDigit a = true ∧ isOctalDigit b = true ∧ isOctalDigit c = true := by
  obtain ⟨a, b, c, behind, heq, hlt, ha, hb, hc⟩ := exists_of_startsWide hwide
  generalize hnext : rest.head? = next at h
  cases h with
  | octalHigh =>
    obtain ⟨rfl, hbehind⟩ := List.cons.inj heq
    obtain ⟨rfl, rfl⟩ := List.cons.inj hbehind
    exact ⟨_, _, c, behind, rfl, rfl, rfl, ha, hb, hc⟩
  | octalOne _ hstop =>
    obtain ⟨rfl, rfl⟩ := List.cons.inj heq
    rw [hstop b hnext.symm] at hb
    cases hb
  | octalTwo _ hle | octalThree _ hle =>
    obtain ⟨rfl, -⟩ := List.cons.inj heq
    exact absurd hlt (Char.not_lt.mpr hle)
  | single hs =>
    obtain ⟨rfl, -⟩ := List.cons.inj heq
    rw [singleEscapeUnit?.eq_def] at hs
    split at hs
    case h_10 => cases hs
    all_goals exact absurd ha (by decide)
  | other _ hd =>
    obtain ⟨rfl, -⟩ := List.cons.inj heq
    rw [isDigit_of_isOctalDigit ha] at hd
    cases hd
  | decimal hd =>
    obtain ⟨rfl, -⟩ := List.cons.inj heq
    rcases hd with rfl | rfl <;> exact absurd ha (by decide)
  | continued ht =>
    obtain ⟨rfl, -⟩ := List.cons.inj heq
    simp only [isLineTerminator, Bool.or_eq_true, beq_iff_eq] at ht
    rcases ht with ((rfl | rfl) | rfl) | rfl <;> exact absurd ha (by decide)
  | byte | unit | codePoint | continuedPair =>
    obtain ⟨rfl, -⟩ := List.cons.inj heq
    exact absurd ha (by decide)

theorem cookUnits_octalThree {a b c : Char} (ha : isOctalDigit a = true) (hb : isOctalDigit b = true)
    (hc : isOctalDigit c = true) (rest : List Char) :
    cookUnits ('\\' :: a :: b :: c :: rest) = [readDigits 8 [a, b, c]] ++ cookUnits rest := by
  have htake : (a :: (b :: c :: rest).take 2).takeWhile isOctalDigit = [a, b, c] := by
    simp [ha, hb, hc]
  rw [cookUnits_escape, escape_octal ha, htake]
  rfl

/-- What is read of a body beside the code units of its value: they agree but for octal digits that
are read as one lexeme where they are two. -/
def ReadsBeside (body : List Char) (units : List Nat) : Prop :=
  ∃ (points : List Nat) (right : Bool), units = points.flatMap codeUnits ∧
    (∀ n ∈ points, n < 0x110000) ∧
    Compares right (some (Token.ofUnits (cookUnits body))) (Token.ofUnits points) ∧
    (right = true ↔ hasWideOctal body = false)

theorem readsBeside_nil : ReadsBeside [] [] := by
  refine ⟨[], true, rfl, nofun, ?_, iff_of_true rfl rfl⟩
  rw [cookUnits]
  exact .done

theorem ReadsBeside.char {c : Char} {rest : List Char} {units : List Nat} (hb : c ≠ '\\')
    (h : ReadsBeside rest units) : ReadsBeside (c :: rest) (codeUnits c.toNat ++ units) := by
  obtain ⟨points, right, rfl, hlt, hcompares, hright⟩ := h
  refine ⟨c.toNat :: points, right, by rw [List.flatMap_cons], ?_, ?_, ?_⟩
  · exact List.forall_mem_cons.mpr ⟨(isValidChar_iff.mp c.valid).2, hlt⟩
  · rw [cookUnits_cons hb]
    exact hcompares.same [.unit c.toNat]
  · rw [hasWideOctal_cons hb, hright]

theorem ReadsBeside.escape {text rest : List Char} {value units : List Nat}
    (he : EscapeValue text rest.head? value) (hwide : startsWide (text ++ rest) = false)
    (h : ReadsBeside rest units) : ReadsBeside ('\\' :: (text ++ rest)) (value ++ units) := by
  obtain ⟨front, rfl, hfront, hescape⟩ := he.readsAs hwide
  obtain ⟨points, right, rfl, hlt, hcompares, hright⟩ := h
  have hcook : cookUnits ('\\' :: (text ++ rest)) = front ++ cookUnits rest := by
    obtain ⟨c, more, rfl, -⟩ := he.exists_cons
    rw [List.cons_append] at hescape ⊢
    rw [cookUnits_escape, hescape, List.length_cons, Nat.add_sub_cancel, List.drop_left]
  refine ⟨front ++ points, right, by rw [List.flatMap_append], ?_, ?_, ?_⟩
  · exact List.forall_mem_append.mpr ⟨hfront, hlt⟩
  · rw [hcook]
    simp only [Token.ofUnits, List.map_append]
    exact hcompares.same (Token.ofUnits front)
  · rw [hasWideOctal_escape he, hwide, Bool.false_or, hright]

/-- Of three octal digits that are read as one lexeme, the third has a unit of its own. -/
theorem ReadsBeside.wide {a b c : Char} {rest : List Char} {units : List Nat}
    (ha : isOctalDigit a = true) (hb : isOctalDigit b = true) (hc : isOctalDigit c = true)
    (hwide : hasWideOctal ('\\' :: a :: b :: c :: rest) = true) (h : ReadsBeside rest units) :
    ReadsBeside ('\\' :: a :: b :: c :: rest)
      ([readDigits 8 [a, b]] ++ (codeUnits c.toNat ++ units)) := by
  obtain ⟨points, right, rfl, hlt, hcompares, -⟩ := h
  have hdigits : ∀ d ∈ [a, b], isOctalDigit d = true := by simp [ha, hb]
  have htwo : readDigits 8 [a, b] < 8 ^ 2 :=
    readDigits_lt fun d hd => hexDigitValue_lt_of_isOctalDigit (hdigits d hd)
  have hthird : c.toNat ≤ 55 := of_decide_eq_true (Bool.and_eq_true_iff.mp hc).2
  have hunits : codeUnits (readDigits 8 [a, b]) = [readDigits 8 [a, b]] := if_pos (by omega)
  have hsmall : ∀ n ∈ [readDigits 8 [a, b], c.toNat], n < 0x110000 :=
    List.forall_mem_cons.mpr ⟨by omega, List.forall_mem_singleton.mpr (by omega)⟩
  refine ⟨[readDigits 8 [a, b], c.toNat] ++ points, false, ?_, ?_, ?_, ?_⟩
  · rw [List.flatMap_append, List.flatMap_cons, List.flatMap_singleton, hunits, List.append_assoc]
  · exact List.forall_mem_append.mpr ⟨hsmall, hlt⟩
  · rw [cookUnits_octalThree ha hb hc]
    simp only [Token.ofUnits, List.map_append]
    exact @Compares.merged _ _ _ [readDigits 8 [a, b, c]] [readDigits 8 [a, b], c.toNat]
      (Nat.lt_succ_self 1) (List.forall_mem_cons.mpr ⟨by omega, List.forall_mem_singleton.mpr
        (by omega)⟩) hcompares
  · rw [hwide]
    exact iff_of_false Bool.false_ne_true (Ne.symm Bool.false_ne_true)

theorem StringBody.readsBeside {quote : Char} {body : List Char} {units : List Nat}
    (h : StringBody quote body units) : ReadsBeside body units := by
  -- Not by the grammar: behind digits that are read too far, the body behind the third is needed.
  induction hlen : body.length using Nat.strongRecOn generalizing body units with
  | ind length ih =>
  subst hlen
  cases h with
  | nil => exact readsBeside_nil
  | char _ hb _ _ h => exact (ih _ (Nat.lt_succ_self _) h rfl).char hb
  | @escape text rest value units he h =>
    by_cases hwide : startsWide (text ++ rest) = true
    · have hescape := hasWideOctal_escape he
      obtain ⟨a, b, c, behind, rfl, rfl, rfl, ha, hb, hc⟩ := he.of_startsWide hwide
      rw [hwide, Bool.true_or] at hescape
      cases h with
      | escape => exact absurd hc (by decide)
      | char _ _ _ _ h =>
        exact (ih behind.length (by simp only [List.length_cons, List.length_append]; omega) h
          rfl).wide ha hb hc hescape
    · exact (ih rest.length (by simp only [List.length_cons, List.length_append]; omega) h
        rfl).escape he (Bool.eq_false_iff.mpr hwide)

/-- What is read of the inside of a string is the text of its value, unless three octal digits of
which the first is beyond `3` stand behind a backslash that begins an escape. -/
theorem cook_spells_value_iff {quote : Char} {body : List Char} {units : List Nat}
    (h : StringBody quote body units) :
    Spells16 units (cook body) ↔ hasWideOctal body = false := by
  obtain ⟨points, right, rfl, hlt, hcompares, hright⟩ := h.readsBeside
  rw [spells16_iff hlt, ← hright, ← hcompares.cooked_eq_iff, Option.map_some, Option.some_inj,
    cooked_ofUnits, cooked_ofUnits, List.map_inj_right fun _ _ => Sum.inl.inj, cook]

/-- A pair of surrogates, a byte, and a zero behind which stands a digit that is not octal. -/
theorem cook_spells_value_of_pair :
    StringBody '"' "\\uD83D\\uDE00\\x41\\08".toList [0xD83D, 0xDE00, 0x41, 0, 0x38] ∧
      Spells16 [0xD83D, 0xDE00, 0x41, 0, 0x38] (cook "\\uD83D\\uDE00\\x41\\08".toList) := by
  have hnext : ∀ d ∈ ['8'].head?, isOctalDigit d = false := by simp [isOctalDigit]
  have hbody : StringBody '"' "\\uD83D\\uDE00\\x41\\08".toList [0xD83D, 0xDE00, 0x41, 0, 0x38] :=
    .escape (.unit (by decide) (by decide) (by decide) (by decide)) <|
      .escape (.unit (by decide) (by decide) (by decide) (by decide)) <|
      .escape (.byte (by decide) (by decide)) <|
      .escape (.octalOne (by decide) hnext) <|
      .char (by decide) (by decide) (by decide) (by decide) .nil
  exact ⟨hbody, (cook_spells_value_iff hbody).mpr (by decide)⟩

/-- A space and the digit `0` are read as one character, of the number that all three digits have. -/
theorem cook_ne_value_of_wide :
    StringBody '"' "\\400".toList [0x20, 0x30] ∧ cook "\\400".toList = [Char.ofNat 0x100] ∧
      ¬Spells16 [0x20, 0x30] (cook "\\400".toList) := by
  have hcook : cook "\\400".toList = [Char.ofNat 0x100] := by
    have hunits : cookUnits "\\400".toList = [readDigits 8 ['4', '0', '0']] ++ cookUnits [] :=
      cookUnits_octalThree (by decide) (by decide) (by decide) []
    rw [cook, hunits, cookUnits]
    decide
  refine ⟨.escape (.octalHigh (by decide) (by decide) (by decide)) <|
    .char (by decide) (by decide) (by decide) (by decide) .nil, hcook, fun h => ?_⟩
  rw [hcook] at h
  exact absurd h.eq_joinSurrogates (by decide)

end ReleasePrompts.Literal
