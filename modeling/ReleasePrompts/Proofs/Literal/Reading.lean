import ReleasePrompts.Proofs.Literal.Escape
import ReleasePrompts.Text.Surrogate

/-!
# Reading a template literal

A template literal is read as code units and the code of its substitutions (`readBody`). What stands
between two substitutions is read as `cook` reads it once its line breaks are normalized
(`textUnits`), one lexeme after the other; `cooked` joins the surrogates. A text is `Plain` if
none of its lexemes ends the literal or begins a substitution.
-/

namespace ReleasePrompts.Literal

open Text

/-! ## The units of raw text -/

/-- The code units that the raw text of a template literal stands for. -/
def textUnits (raw : List Char) : List Nat := cookUnits (normalizeBreaks raw)

theorem normalizeBreaks_append {xs : List Char} (h : '\r' ∉ xs) (ys : List Char) :
    normalizeBreaks (xs ++ ys) = xs ++ normalizeBreaks ys := by
  induction xs with
  | nil => rfl
  | cons x xs ih =>
    have hx : x ≠ '\r' := fun e => h (e ▸ List.mem_cons_self)
    rw [List.cons_append, normalizeBreaks, if_neg hx, ih fun e => h (List.mem_cons_of_mem _ e),
      List.cons_append]
    exact fun rest e => absurd e hx

theorem goesOn_ne_return {c : Char} (h : goesOn c = true) : c ≠ '\r' := by
  rintro rfl
  exact absurd h (by decide)

theorem normalizeBreaks_cons {c : Char} (h : c ≠ '\r') (rest : List Char) :
    normalizeBreaks (c :: rest) = c :: normalizeBreaks rest :=
  @normalizeBreaks_append [c] (by simpa using h.symm) rest

theorem normalizeBreaks_return {rest : List Char} (h : rest.head? ≠ some '\n') :
    normalizeBreaks ('\r' :: rest) = '\n' :: normalizeBreaks rest := by
  rw [normalizeBreaks]
  · rfl
  · rintro rest' - rfl
    exact h rfl

theorem normalizeBreaks_pair (rest : List Char) :
    normalizeBreaks ('\r' :: '\n' :: rest) = '\n' :: normalizeBreaks rest := by
  rw [normalizeBreaks]

theorem head?_normalizeBreaks (c : Char) (rest : List Char) :
    (normalizeBreaks (c :: rest)).head? = some (if c = '\r' then '\n' else c) := by
  unfold normalizeBreaks
  split <;> simp_all

theorem cookUnits_cons {c : Char} (h : c ≠ '\\') (rest : List Char) :
    cookUnits (c :: rest) = c.toNat :: cookUnits rest := by
  rw [cookUnits]
  exact fun _ _ e => absurd e h

theorem cookUnits_escape (c : Char) (rest : List Char) :
    cookUnits ('\\' :: c :: rest) =
      (escape (c :: rest)).1 ++ cookUnits (rest.drop ((escape (c :: rest)).2 - 1)) := by
  rw [cookUnits]

theorem textUnits_nil : textUnits [] = [] := by
  rw [textUnits, normalizeBreaks, cookUnits]

theorem textUnits_cons {c : Char} (hb : c ≠ '\\') (hr : c ≠ '\r') (rest : List Char) :
    textUnits (c :: rest) = c.toNat :: textUnits rest := by
  rw [textUnits, normalizeBreaks_cons hr, cookUnits_cons hb, textUnits]

theorem textUnits_return {rest : List Char} (h : rest.head? ≠ some '\n') :
    textUnits ('\r' :: rest) = 10 :: textUnits rest := by
  rw [textUnits, normalizeBreaks_return h, cookUnits_cons (by decide), textUnits]
  rfl

theorem textUnits_pair (rest : List Char) :
    textUnits ('\r' :: '\n' :: rest) = 10 :: textUnits rest := by
  rw [textUnits, normalizeBreaks_pair, cookUnits_cons (by decide), textUnits]
  rfl

/-- To normalize line breaks changes no escape but the break of a line, which stands for nothing
either way. -/
theorem textUnits_escape (c : Char) (rest : List Char) :
    textUnits ('\\' :: c :: rest) =
      (escape (c :: rest)).1 ++ textUnits (rest.drop ((escape (c :: rest)).2 - 1)) := by
  rw [textUnits, normalizeBreaks_cons (by decide)]
  by_cases hc : c = '\r'
  · subst hc
    by_cases hn : rest.head? = some '\n'
    · obtain ⟨tail, rfl⟩ := List.head?_eq_some_iff.mp hn
      rw [normalizeBreaks_pair, cookUnits_escape]
      rfl
    · rw [normalizeBreaks_return hn, cookUnits_escape, escape_return hn]
      rfl
  · obtain ⟨front, behind, rfl, hfront, hstop⟩ := exists_goesOn_append rest
    have hno : '\r' ∉ front := fun hm => goesOn_ne_return (hfront _ hm) rfl
    have hstop' : ∀ d ∈ (normalizeBreaks behind).head?, goesOn d = false := by
      rcases behind with _ | ⟨b, behind⟩
      · exact nofun
      · intro d hd
        rw [head?_normalizeBreaks] at hd
        have hb := hstop b rfl
        split at hd
        · exact Option.some.inj hd ▸ rfl
        · exact Option.some.inj hd ▸ hb
    have hle : (escape (c :: front)).2 - 1 ≤ front.length := by
      have := (escape_bounds c front).2.2
      omega
    rw [normalizeBreaks_cons hc, normalizeBreaks_append hno, cookUnits_escape,
      escape_append_of_stop hc _ hstop', escape_append_of_stop hc _ hstop, textUnits,
      List.drop_append_of_le_length hle, List.drop_append_of_le_length hle,
      normalizeBreaks_append fun hm => hno (List.mem_of_mem_drop hm)]

/-! ## Template literals -/

/-- What a template literal is read as: code units of its text, and the code of its substitutions. -/
inductive Token where
  | unit (n : Nat)
  | code (text : List Char)
  deriving DecidableEq, Repr

/-- The tokens of code units. -/
def Token.ofUnits (units : List Nat) : List Token := units.map .unit

/-- Reads what is behind the opening backtick of a template literal. How far the code of a
substitution goes, `extent` tells from what is behind its opening delimiter. -/
def readBody (extent : List Char → Option Nat) : List Char → Option (List Token)
  | [] => none
  | '`' :: rest => if rest.isEmpty then some [] else none
  | '\\' :: c :: rest =>
    (readBody extent (rest.drop ((escape (c :: rest)).2 - 1))).map
      (Token.ofUnits (escape (c :: rest)).1 ++ ·)
  | '$' :: '{' :: rest =>
    match extent rest with
    | none => none
    | some length =>
      (readBody extent (rest.drop (length + 1))).map ([.code (rest.take length)] ++ ·)
  | '\r' :: '\n' :: rest => (readBody extent rest).map ([.unit 10] ++ ·)
  | c :: rest => (readBody extent rest).map ([.unit (if c = '\r' then 10 else c.toNat)] ++ ·)
termination_by text => text.length
decreasing_by
  all_goals simp only [List.length_cons, List.length_drop]
  all_goals omega

/-- Reads a template literal. -/
def readTemplate (extent : List Char → Option Nat) : List Char → Option (List Token)
  | '`' :: rest => readBody extent rest
  | _ => none

/-- What is read, with a character for each pair of surrogates and for each other unit. -/
def cooked : List Token → List (Char ⊕ List Char)
  | [] => []
  | .code text :: rest => .inr text :: cooked rest
  | .unit high :: .unit low :: rest =>
    if isHighSurrogate high && isLowSurrogate low then
      .inl (Char.ofNat (pairValue high low)) :: cooked rest
    else .inl (charOfNat high) :: cooked (.unit low :: rest)
  | .unit n :: rest => .inl (charOfNat n) :: cooked rest

/-- Text without substitutions is cooked as any literal is. -/
theorem cooked_ofUnits (units : List Nat) :
    cooked (Token.ofUnits units) = (joinSurrogates units).map .inl := by
  simp only [Token.ofUnits]
  fun_induction joinSurrogates units with
  | case1 => rfl
  | case2 n => rfl
  | case3 high low rest h ih => simp [cooked, h, ih]
  | case4 high low rest h ih => simpa [cooked, h] using ih

section Equations

variable (extent : List Char → Option Nat)

theorem readBody_end : readBody extent ['`'] = some [] := by
  rw [readBody]
  rfl

theorem readBody_escape (c : Char) (rest : List Char) :
    readBody extent ('\\' :: c :: rest) =
      (readBody extent (rest.drop ((escape (c :: rest)).2 - 1))).map
        (Token.ofUnits (escape (c :: rest)).1 ++ ·) := by
  rw [readBody]

theorem readBody_code {rest : List Char} {length : Nat} (h : extent rest = some length) :
    readBody extent ('$' :: '{' :: rest) =
      (readBody extent (rest.drop (length + 1))).map ([.code (rest.take length)] ++ ·) := by
  rw [readBody, h]

theorem readBody_pair (rest : List Char) :
    readBody extent ('\r' :: '\n' :: rest) = (readBody extent rest).map ([.unit 10] ++ ·) := by
  rw [readBody]

theorem readBody_return {rest : List Char} (h : rest.head? ≠ some '\n') :
    readBody extent ('\r' :: rest) = (readBody extent rest).map ([.unit 10] ++ ·) := by
  rw [readBody]
  · rfl
  · exact nofun
  · exact nofun
  · exact nofun
  · rintro rest' - rfl
    exact h rfl

theorem readBody_cons {c : Char} (hb : c ≠ '\\') (ht : c ≠ '`') (hr : c ≠ '\r') {rest : List Char}
    (hd : ¬(c = '$' ∧ rest.head? = some '{')) :
    readBody extent (c :: rest) = (readBody extent rest).map ([.unit c.toNat] ++ ·) := by
  rw [readBody, if_neg hr]
  · exact ht
  · exact fun _ _ e => absurd e hb
  · rintro rest' rfl rfl
    exact hd ⟨rfl, rfl⟩
  · exact fun _ e => absurd e hr

end Equations

/-! ## Text whose lexemes are all its own -/

/-- Text of a template literal: no lexeme of it ends the literal or begins a substitution, and no
backslash stands at its end. -/
inductive Plain : List Char → Prop where
  | nil : Plain []
  | escape {c : Char} {rest : List Char}
    (h : Plain (rest.drop ((escape (c :: rest)).2 - 1))) : Plain ('\\' :: c :: rest)
  | char {c : Char} {rest : List Char} (hb : c ≠ '\\') (ht : c ≠ '`')
    (hd : ¬(c = '$' ∧ rest.head? = some '{')) (h : Plain rest) : Plain (c :: rest)

/-- Whether the last lexeme of a text goes on in what stands behind the text. -/
def crosses (behind : List Char) : List Char → Bool
  | '\\' :: c :: rest =>
    decide (rest.length + 1 < (escape (c :: (rest ++ behind))).2) ||
      crosses behind (rest.drop ((escape (c :: rest)).2 - 1))
  | [c] => c == '\r' && behind.head? == some '\n' || c == '$' && behind.head? == some '{'
  | _ :: rest => crosses behind rest
  | [] => false
termination_by raw => raw.length
decreasing_by
  all_goals simp only [List.length_cons, List.length_drop]
  all_goals omega

theorem crosses_escape (behind : List Char) (c : Char) (rest : List Char) :
    crosses behind ('\\' :: c :: rest) =
      (decide (rest.length + 1 < (escape (c :: (rest ++ behind))).2) ||
        crosses behind (rest.drop ((escape (c :: rest)).2 - 1))) := by
  rw [crosses]

theorem crosses_singleton (behind : List Char) (c : Char) :
    crosses behind [c] =
      (c == '\r' && behind.head? == some '\n' || c == '$' && behind.head? == some '{') := by
  rw [crosses]

theorem crosses_cons (behind : List Char) {c : Char} (h : c ≠ '\\') (d : Char)
    (rest : List Char) : crosses behind (c :: d :: rest) = crosses behind (d :: rest) := by
  rw [crosses]
  · exact fun _ _ e => absurd e h
  · exact nofun

/-- No lexeme goes on in what begins with neither a line feed nor what may go on an escape. -/
theorem crosses_of_stop {behind : List Char} (hstop : ∀ d ∈ behind.head?, goesOn d = false)
    (hfeed : behind.head? ≠ some '\n') (raw : List Char) : crosses behind raw = false := by
  have hbrace : behind.head? ≠ some '{' := fun e => absurd (hstop '{' e) (by decide)
  fun_induction crosses behind raw with
  | case1 c rest ih =>
    rw [ih, Bool.or_false, decide_eq_false_iff_not, Nat.not_lt]
    by_cases hc : c = '\r'
    · subst hc
      rcases rest with _ | ⟨d, rest⟩
      · rw [List.nil_append, escape_return hfeed]
        exact Nat.le_refl _
      · by_cases hd : d = '\n'
        · subst hd
          exact Nat.le_add_left 2 _
        · have hn : (d :: (rest ++ behind)).head? ≠ some '\n' := fun e => hd (Option.some.inj e)
          rw [List.cons_append, escape_return hn]
          exact Nat.le_add_left 1 _
    · rw [escape_append_of_stop hc _ hstop]
      exact (escape_bounds c rest).2.2
  | case2 c => simp [hfeed, hbrace]
  | case3 _ rest _ _ ih => exact ih
  | case4 => rfl

end ReleasePrompts.Literal
