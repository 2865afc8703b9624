import ReleasePrompts.Literal.Locator

/-!
# Lexemes inside a literal

The inside of a template literal is characters, escapes and substitutions, whose code has escapes and
substitutions of its own (`Nested`). The inside of a string is characters and escapes (`Quoted`). A
closing quote is found just where it stands behind whole lexemes (`closeTemplate?_eq_some_iff`,
`closeQuote?_eq_some_iff`).
-/

namespace ReleasePrompts.Literal

/-! ## Templates -/

/-- Text that stands before the character that closes it: characters, escapes, and substitutions,
whose code stands before a brace. A dollar sign before a brace is no character of the text. -/
inductive Nested : (closer : Char) → List Char → Prop where
  | nil {closer : Char} : Nested closer []
  | char {closer c : Char} {rest : List Char} (hb : c ≠ '\\') (hc : c ≠ closer)
    (hd : ¬(c = '$' ∧ rest.head? = some '{')) (h : Nested closer rest) : Nested closer (c :: rest)
  | escape {closer c : Char} {rest : List Char} (h : Nested closer rest) :
    Nested closer ('\\' :: c :: rest)
  | code {closer : Char} {code rest : List Char} (hcode : Nested '}' code)
    (h : Nested closer rest) : Nested closer ('$' :: '{' :: (code ++ '}' :: rest))

/-- The character that closes a template, or the innermost of the substitutions around a place. -/
def closerAt : (depth : Nat) → Char
  | 0 => '`'
  | _ + 1 => '}'

theorem closeTemplate?_escape (depth : Nat) (c : Char) (rest : List Char) :
    closeTemplate? depth ('\\' :: c :: rest) = (closeTemplate? depth rest).map (· + 2) := by
  rw [closeTemplate?]

theorem closeTemplate?_open (depth : Nat) (rest : List Char) :
    closeTemplate? depth ('$' :: '{' :: rest) = (closeTemplate? (depth + 1) rest).map (· + 2) := by
  rw [closeTemplate?]

theorem closeTemplate?_char {depth : Nat} {c : Char} {rest : List Char} (hb : c ≠ '\\')
    (hc : c ≠ closerAt depth) (hd : ¬(c = '$' ∧ rest.head? = some '{')) :
    closeTemplate? depth (c :: rest) = (closeTemplate? depth rest).map (· + 1) := by
  rw [closeTemplate?.eq_def]
  split <;> simp_all [closerAt]

/-- Whole lexemes are passed over. -/
theorem Nested.closeTemplate?_append {closer : Char} {text : List Char} (h : Nested closer text)
    {depth : Nat} (hc : closer = closerAt depth) {behind : List Char}
    (hb : behind.head? ≠ some '{') :
    closeTemplate? depth (text ++ behind) =
      (closeTemplate? depth behind).map (· + text.length) := by
  induction h generalizing depth behind with
  | nil => simp
  | @char closer c rest hbackslash hcloser hd _ ih =>
    have hd' : ¬(c = '$' ∧ (rest ++ behind).head? = some '{') := by
      cases rest with
      | nil => exact fun h => hb h.2
      | cons d rest => exact hd
    rw [List.cons_append, closeTemplate?_char hbackslash (hc ▸ hcloser) hd', ih hc hb,
      Option.map_map]
    rfl
  | @escape closer c rest _ ih =>
    rw [List.cons_append, List.cons_append, closeTemplate?_escape, ih hc hb, Option.map_map]
    rfl
  | @code closer code rest _ _ ihcode ih =>
    have hbrace : ('}' :: (rest ++ behind)).head? ≠ some '{' := by simp
    rw [List.cons_append, List.cons_append, List.append_assoc, List.cons_append,
      closeTemplate?_open, ihcode rfl hbrace, closeTemplate?, ih hc hb, Option.map_map,
      Option.map_map, Option.map_map]
    congr 1
    funext n
    simp only [Function.comp_apply, List.length_cons, List.length_append]
    omega

/-- What closes a text stands behind whole lexemes. -/
theorem exists_nested {depth : Nat} {text : List Char} {n : Nat}
    (h : closeTemplate? depth text = some n) :
    ∃ inside behind, text = inside ++ closerAt depth :: behind ∧
      Nested (closerAt depth) inside := by
  induction hlen : text.length using Nat.strongRecOn generalizing depth text n with
  | ind length ih =>
  subst hlen
  rcases text with _ | ⟨c, text⟩
  · simp [closeTemplate?] at h
  by_cases hc : c = closerAt depth
  · exact ⟨[], text, by rw [hc]; rfl, .nil⟩
  by_cases hb : c = '\\'
  · subst hb
    rcases text with _ | ⟨d, text⟩
    · cases depth <;> cases h
    · rw [closeTemplate?_escape] at h
      obtain ⟨m, hm, rfl⟩ := Option.map_eq_some_iff.mp h
      obtain ⟨inside, behind, rfl, hinside⟩ :=
        ih text.length (by simp only [List.length_cons]; omega) hm rfl
      exact ⟨'\\' :: d :: inside, behind, rfl, .escape hinside⟩
  by_cases hd : c = '$' ∧ text.head? = some '{'
  · obtain ⟨rfl, hbrace⟩ := hd
    obtain ⟨text, rfl⟩ := List.head?_eq_some_iff.mp hbrace
    rw [closeTemplate?_open] at h
    obtain ⟨m, hm, rfl⟩ := Option.map_eq_some_iff.mp h
    -- First the code of the substitution, then what stands behind it.
    obtain ⟨code, rest, rfl, hcode⟩ :=
      ih text.length (by simp only [List.length_cons]; omega) hm rfl
    rw [hcode.closeTemplate?_append rfl (by simp [closerAt]), closerAt, closeTemplate?,
      Option.map_map] at hm
    obtain ⟨k, hk, -⟩ := Option.map_eq_some_iff.mp hm
    obtain ⟨inside, behind, rfl, hinside⟩ := ih rest.length (by simp; omega) hk rfl
    exact ⟨'$' :: '{' :: (code ++ '}' :: inside), behind, by simp [closerAt], .code hcode hinside⟩
  · rw [closeTemplate?_char hb hc hd] at h
    obtain ⟨m, hm, rfl⟩ := Option.map_eq_some_iff.mp h
    obtain ⟨inside, behind, rfl, hinside⟩ := ih text.length (by simp) hm rfl
    refine ⟨c :: inside, behind, rfl, .char hb hc (fun ⟨hdollar, hbrace⟩ => hd ⟨hdollar, ?_⟩) hinside⟩
    obtain ⟨inside, rfl⟩ := List.head?_eq_some_iff.mp hbrace
    rfl

/-- The backtick that closes a template is the one behind whole lexemes. -/
theorem closeTemplate?_eq_some_iff {text : List Char} {n : Nat} :
    closeTemplate? 0 text = some n ↔
      ∃ inside behind, text = inside ++ '`' :: behind ∧ inside.length = n ∧
        Nested '`' inside := by
  have hclose : ∀ {inside : List Char}, Nested '`' inside → ∀ behind,
      closeTemplate? 0 (inside ++ '`' :: behind) = some inside.length := fun h behind => by
    rw [h.closeTemplate?_append rfl (by simp), closeTemplate?, Option.map_some, Nat.zero_add]
  constructor
  · intro h
    obtain ⟨inside, behind, rfl, hinside⟩ := exists_nested h
    exact ⟨inside, behind, rfl, Option.some.inj ((hclose hinside behind).symm.trans h), hinside⟩
  · rintro ⟨inside, behind, rfl, rfl, hinside⟩
    exact hclose hinside behind

/-! ## Strings -/

/-- Text that stands before the quote that closes it: characters and escapes. -/
inductive Quoted (quote : Char) : List Char → Prop where
  | nil : Quoted quote []
  | char {c : Char} {rest : List Char} (hb : c ≠ '\\') (hq : c ≠ quote) (h : Quoted quote rest) :
    Quoted quote (c :: rest)
  | escape {c : Char} {rest : List Char} (h : Quoted quote rest) :
    Quoted quote ('\\' :: c :: rest)

variable {quote : Char}

theorem closeQuote?_char {c : Char} (hb : c ≠ '\\') (hq : c ≠ quote) (rest : List Char) :
    closeQuote? quote (c :: rest) = (closeQuote? quote rest).map (· + 1) := by
  rw [closeQuote?.eq_def]
  simp [hq, hb]

theorem closeQuote?_escape (hq : quote ≠ '\\') (c : Char) (rest : List Char) :
    closeQuote? quote ('\\' :: c :: rest) = (closeQuote? quote rest).map (· + 2) := by
  rw [closeQuote?.eq_def]
  simp [hq.symm]

/-- The quote that closes a string is the one behind whole lexemes. -/
theorem closeQuote?_eq_some_iff (hquote : quote ≠ '\\') {text : List Char} {n : Nat} :
    closeQuote? quote text = some n ↔
      ∃ inside behind, text = inside ++ quote :: behind ∧ inside.length = n ∧
        Quoted quote inside := by
  constructor
  · intro h
    fun_induction closeQuote? quote text generalizing n with
    | case1 => cases h
    | case2 rest => exact ⟨[], rest, rfl, Option.some.inj h, .nil⟩
    | case3 => cases h
    | case4 d rest _ ih =>
      obtain ⟨m, hm, rfl⟩ := Option.map_eq_some_iff.mp h
      obtain ⟨inside, behind, rfl, rfl, hinside⟩ := ih hm
      exact ⟨'\\' :: d :: inside, behind, rfl, rfl, .escape hinside⟩
    | case5 c rest hq hb ih =>
      obtain ⟨m, hm, rfl⟩ := Option.map_eq_some_iff.mp h
      obtain ⟨inside, behind, rfl, rfl, hinside⟩ := ih hm
      exact ⟨c :: inside, behind, rfl, rfl, .char hb hq hinside⟩
  · rintro ⟨inside, behind, rfl, rfl, hinside⟩
    induction hinside with
    | nil => rw [List.nil_append, closeQuote?.eq_def]; simp
    | char hb hq _ ih => rw [List.cons_append, closeQuote?_char hb hq, ih]; rfl
    | escape _ ih => rw [List.cons_append, List.cons_append, closeQuote?_escape hquote, ih]; rfl

end ReleasePrompts.Literal
