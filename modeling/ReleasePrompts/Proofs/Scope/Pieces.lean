import ReleasePrompts.Proofs.Literal.Deviation

/-!
# Templates in pieces

A template whose substitutions are resolved consists of pieces: its own text, values that are filled
in, and substitutions that are kept. Written one behind the other, the pieces read as they were meant
just if they fit (`cooked_written_iff`): no value holds a carriage return, and no lexeme of one piece
goes on in the next.
-/

namespace ReleasePrompts.Scope

open Literal

/-- A piece of a template whose substitutions are resolved. -/
inductive Piece where
  | text (raw : List Char)
  | filled (value : List Char)
  | kept (code : List Char)

namespace Piece

/-- How a piece is written. -/
def source : Piece → List Char
  | text raw => raw
  | filled value => escapeTemplate value
  | kept code => '$' :: '{' :: (code ++ ['}'])

/-- What a piece is meant to be read as. -/
def meaning : Piece → List Token
  | text raw => Token.ofUnits (textUnits raw)
  | filled value => Token.ofUnits (value.map Char.toNat)
  | kept code => [.code code]

/-- What the parser promises of a piece: text is the text of a template literal, and the code of a
substitution ends at its closing delimiter whatever stands behind that. -/
def Parsed (extent : List Char → Option Nat) : Piece → Prop
  | text raw => Plain raw
  | filled _ => True
  | kept code => ∀ behind, extent (code ++ '}' :: behind) = some code.length

/-- Whether a piece reads as it was meant before what stands behind it. -/
def Fits (behind : List Char) : Piece → Prop
  | text raw => crosses behind raw = false
  | filled value => '\r' ∉ value ∧ ¬(value.getLast? = some '$' ∧ behind.head? = some '{')
  | kept _ => True

end Piece

/-- Pieces, written up to the closing backtick of the template. -/
def written : List Piece → List Char
  | [] => ['`']
  | piece :: pieces => piece.source ++ written pieces

/-- What pieces are meant to be read as. -/
def meaning (pieces : List Piece) : List Token := pieces.flatMap Piece.meaning

/-- Whether each piece fits what stands behind it. -/
def Fit : List Piece → Prop
  | [] => True
  | piece :: pieces => piece.Fits (written pieces) ∧ Fit pieces

instance (behind : List Char) : (piece : Piece) → Decidable (piece.Fits behind)
  | .text raw => inferInstanceAs (Decidable (crosses behind raw = false))
  | .filled value => inferInstanceAs (Decidable ('\r' ∉ value ∧ ¬(_ ∧ _)))
  | .kept _ => inferInstanceAs (Decidable True)

instance decidableFit : (pieces : List Piece) → Decidable (Fit pieces)
  | [] => inferInstanceAs (Decidable True)
  | piece :: pieces =>
    have := decidableFit pieces
    inferInstanceAs (Decidable (piece.Fits (written pieces) ∧ Fit pieces))

variable {extent : List Char → Option Nat}

/-! ## What may be taken off the front -/

/-- A character that is a lexeme wherever no lexeme before it goes on. -/
def IsOrdinary (c : Char) : Prop := c ≠ '\\' ∧ c ≠ '`' ∧ c ≠ '$' ∧ c ≠ '\r'

instance (c : Char) : Decidable (IsOrdinary c) := inferInstanceAs (Decidable (_ ∧ _))

theorem isOrdinary_feed : IsOrdinary '\n' := ⟨by decide, by decide, by decide, by decide⟩

theorem isOrdinary_of_goesOn {c : Char} (h : goesOn c = true) : IsOrdinary c := by
  refine ⟨?_, ?_, ?_, ?_⟩ <;>
  · rintro rfl
    exact absurd h (by decide)

theorem textUnits_ordinary {c : Char} (h : IsOrdinary c) (rest : List Char) :
    textUnits (c :: rest) = c.toNat :: textUnits rest := textUnits_cons h.1 h.2.2.2 rest

theorem plain_of_cons {c : Char} (h : c ≠ '\\') {rest : List Char} (hp : Plain (c :: rest)) :
    Plain rest := by
  cases hp with
  | escape => exact absurd rfl h
  | char _ _ _ hp => exact hp

/-- Whether a value is written with a backslash before its first character. -/
def IsMasked (c : Char) (rest : List Char) : Prop :=
  c = '\\' ∨ c = '`' ∨ (c = '$' ∧ rest.head? = some '{')

theorem escapeTemplate_masked {c : Char} {rest : List Char} (h : IsMasked c rest) :
    escapeTemplate (c :: rest) = '\\' :: c :: escapeTemplate rest := by
  rw [escapeTemplate]
  exact if_pos h

theorem escapeTemplate_bare {c : Char} {rest : List Char} (h : ¬IsMasked c rest) :
    escapeTemplate (c :: rest) = c :: escapeTemplate rest := by
  rw [escapeTemplate]
  exact if_neg h

theorem meaning_text_nil (pieces : List Piece) :
    meaning (.text [] :: pieces) = meaning pieces := by
  rw [meaning, List.flatMap_cons, Piece.meaning, textUnits_nil]
  rfl

/-- An ordinary character at the front of pieces may be taken off them. -/
theorem exists_behind {pieces : List Piece} (hp : ∀ piece ∈ pieces, piece.Parsed extent) {c : Char}
    (hc : IsOrdinary c) {rest : List Char} (hw : written pieces = c :: rest) :
    ∃ others : List Piece, (∀ piece ∈ others, piece.Parsed extent) ∧ written others = rest ∧
      meaning pieces = .unit c.toNat :: meaning others := by
  induction pieces with
  | nil => exact absurd (List.cons.inj hw).1.symm hc.2.1
  | cons piece pieces ih =>
    obtain ⟨hpiece, hpieces⟩ := List.forall_mem_cons.mp hp
    cases piece with
    | text raw =>
      cases raw with
      | nil => exact meaning_text_nil pieces ▸ ih hpieces hw
      | cons d raw =>
        obtain ⟨rfl, rfl⟩ := List.cons.inj hw
        have hraw := plain_of_cons hc.1 hpiece
        refine ⟨.text raw :: pieces, List.forall_mem_cons.mpr ⟨hraw, hpieces⟩, rfl, ?_⟩
        simp only [meaning, List.flatMap_cons, Piece.meaning, textUnits_ordinary hc]
        rfl
    | filled value =>
      cases value with
      | nil => exact ih hpieces hw
      | cons d value =>
        by_cases hm : IsMasked d value
        · rw [written, Piece.source, escapeTemplate_masked hm] at hw
          exact absurd (List.cons.inj hw).1.symm hc.1
        · rw [written, Piece.source, escapeTemplate_bare hm] at hw
          obtain ⟨rfl, rfl⟩ := List.cons.inj hw
          exact ⟨.filled value :: pieces, List.forall_mem_cons.mpr ⟨trivial, hpieces⟩, rfl, rfl⟩
    | kept code => exact absurd (List.cons.inj hw).1.symm hc.2.2.1

/-- And so may several. -/
theorem exists_behind_all {pieces : List Piece} (hp : ∀ piece ∈ pieces, piece.Parsed extent)
    {front rest : List Char} (hf : ∀ c ∈ front, IsOrdinary c) (hw : written pieces = front ++ rest) :
    ∃ others : List Piece, (∀ piece ∈ others, piece.Parsed extent) ∧ written others = rest ∧
      meaning pieces = Token.ofUnits (front.map Char.toNat) ++ meaning others := by
  induction front generalizing pieces with
  | nil => exact ⟨pieces, hp, hw, rfl⟩
  | cons c front ih =>
    obtain ⟨hc, hf⟩ := List.forall_mem_cons.mp hf
    obtain ⟨others, hp', hw', hm⟩ := exists_behind hp hc hw
    obtain ⟨last, hp'', hw'', hm'⟩ := ih hp' hf hw'
    exact ⟨last, hp'', hw'', by rw [hm, hm']; rfl⟩

/-! ## Pieces read beside their meaning -/

/-- What is read of pieces compares with what they were meant to be read as, and all of it is read as
it was meant just if they fit. -/
def Compared (extent : List Char → Option Nat) (pieces : List Piece) : Prop :=
  ∃ right, Compares right (readBody extent (written pieces)) (meaning pieces) ∧
    (right = true ↔ Fit pieces)

theorem compares_opened (extent : List Char → Option Nat) (rest : List Char) (meant : List Token) :
    Compares false (readBody extent ('$' :: '{' :: rest)) ([.unit 36] ++ meant) := by
  cases he : extent rest with
  | none =>
    have : readBody extent ('$' :: '{' :: rest) = none := by rw [readBody, he]
    rw [this]
    exact .opened [] none meant
  | some length =>
    rw [readBody_code extent he]
    exact .opened _ _ meant

theorem toNat_lt_of_goesOn {c : Char} (h : goesOn c = true) : c.toNat < 0xD800 := by
  simp only [goesOn, Text.isHexDigit, Char.isDigit, Bool.or_eq_true, Bool.and_eq_true,
    decide_eq_true_eq, beq_iff_eq] at h
  rcases h with ((((⟨-, h⟩ | ⟨-, h⟩) | ⟨-, h⟩) | rfl) | rfl)
  · exact Nat.lt_of_le_of_lt (show c.toNat ≤ 57 from h) (by decide)
  · exact Nat.lt_of_le_of_lt (show c.toNat ≤ 102 from h) (by decide)
  · exact Nat.lt_of_le_of_lt (show c.toNat ≤ 70 from h) (by decide)
  · decide
  · decide

theorem textUnits_of_goesOn {raw : List Char} (h : ∀ c ∈ raw, goesOn c = true) :
    textUnits raw = raw.map Char.toNat := by
  induction raw with
  | nil => exact textUnits_nil
  | cons c raw ih =>
    obtain ⟨hc, hraw⟩ := List.forall_mem_cons.mp h
    rw [textUnits_ordinary (isOrdinary_of_goesOn hc), ih hraw, List.map_cons]

theorem ofUnits_append (xs ys : List Nat) :
    Token.ofUnits (xs ++ ys) = Token.ofUnits xs ++ Token.ofUnits ys := List.map_append

/-- What is no longer than some pieces compares. -/
def ComparedBelow (extent : List Char → Option Nat) (pieces : List Piece) : Prop :=
  ∀ others : List Piece, (∀ piece ∈ others, piece.Parsed extent) →
    (written others).length ≤ (written pieces).length → Compared extent others

/-- A line continuation that takes the line feed behind the text takes the place of a line break. -/
theorem compares_break_open {rest : List Char} {pieces : List Piece}
    (hp : ∀ piece ∈ pieces, piece.Parsed extent) (ih : ComparedBelow extent pieces)
    (hopen : rest.length + 1 < (escape ('\r' :: (rest ++ written pieces))).2) :
    Compares false (readBody extent ('\\' :: '\r' :: (rest ++ written pieces)))
      (Token.ofUnits (textUnits ('\\' :: '\r' :: rest)) ++ meaning pieces) := by
  have hn : (rest ++ written pieces).head? = some '\n' := by
    by_contra hn
    rw [escape_return hn] at hopen
    simp only at hopen
    omega
  obtain ⟨tail, htail⟩ := List.head?_eq_some_iff.mp hn
  have he : escape ('\r' :: (rest ++ written pieces)) = ([], 2) := by
    rw [htail, escape]
  obtain rfl : rest = [] := by
    rw [he] at hopen
    exact List.eq_nil_of_length_eq_zero (by simp only at hopen; omega)
  obtain ⟨others, ho, hw, hm⟩ := exists_behind hp isOrdinary_feed htail
  obtain ⟨right, h, -⟩ := ih others ho (by
    rw [hw, ← List.nil_append (written pieces), htail]
    exact Nat.le_succ _)
  rw [readBody_escape, he, htail, hm, textUnits_escape, escape_return (by simp), List.drop_nil,
    textUnits_nil, ← hw]
  exact @Compares.merged _ _ _ [] [10] (by decide) (by decide) h

/-- An escape that goes on behind the text takes the place of the characters that it takes. -/
theorem compares_escape_open {c : Char} {rest : List Char} {pieces : List Piece}
    (hp : ∀ piece ∈ pieces, piece.Parsed extent) (ih : ComparedBelow extent pieces)
    (hopen : rest.length + 1 < (escape (c :: (rest ++ written pieces))).2) :
    Compares false (readBody extent ('\\' :: c :: (rest ++ written pieces)))
      (Token.ofUnits (textUnits ('\\' :: c :: rest)) ++ meaning pieces) := by
  by_cases hc : c = '\r'
  · subst hc
    exact compares_break_open hp ih hopen
  obtain ⟨hrest, hfront, value, hv, hval⟩ := escape_open hc hopen
  obtain ⟨others, ho, hw, hm⟩ := exists_behind_all hp
    (fun d hd => isOrdinary_of_goesOn (hfront d hd)) (List.take_append_drop _ _).symm
  obtain ⟨right, h, -⟩ := ih others ho (by
    rw [hw, List.length_drop]
    omega)
  have hbound := (escape_bounds c (rest ++ written pieces)).2.2
  rw [List.length_append] at hbound
  rw [readBody_escape, List.drop_append, List.drop_of_length_le (by omega), List.nil_append, ← hw,
    textUnits_escape, hval, textUnits_of_goesOn fun d hd => hrest d (List.mem_of_mem_drop hd), hm,
    ← List.append_assoc, ← ofUnits_append]
  refine h.merged ?_ ?_
  · have := (escape_bounds c (rest ++ written pieces)).1
    simp only [List.length_append, List.length_map, List.length_take, List.length_singleton]
    omega
  · intro n hn
    simp only [List.mem_append, List.mem_singleton, List.mem_map] at hn
    rcases hn with (rfl | ⟨d, hd, rfl⟩) | ⟨d, hd, rfl⟩
    · exact hv
    · exact toNat_lt_of_goesOn (hrest d (List.mem_of_mem_drop hd))
    · exact toNat_lt_of_goesOn (hfront d hd)

theorem fit_text {raw : List Char} {pieces : List Piece} :
    Fit (.text raw :: pieces) ↔ crosses (written pieces) raw = false ∧ Fit pieces := .rfl

theorem meaning_text (raw : List Char) (pieces : List Piece) :
    meaning (.text raw :: pieces) = Token.ofUnits (textUnits raw) ++ meaning pieces := rfl

/-- A character that is read as it was meant. -/
theorem Compared.text_cons {c : Char} {n : Nat} {rest : List Char} {pieces : List Piece}
    (h : Compared extent (.text rest :: pieces))
    (hread : readBody extent (c :: (rest ++ written pieces)) =
      (readBody extent (rest ++ written pieces)).map ([.unit n] ++ ·))
    (hunits : textUnits (c :: rest) = n :: textUnits rest)
    (hcross : crosses (written pieces) (c :: rest) = crosses (written pieces) rest) :
    Compared extent (.text (c :: rest) :: pieces) := by
  obtain ⟨right, h, hfit⟩ := h
  refine ⟨right, ?_, by rw [hfit, fit_text, fit_text, hcross]⟩
  have hmeaning : meaning (.text (c :: rest) :: pieces) =
      [.unit n] ++ meaning (.text rest :: pieces) := by
    rw [meaning_text, hunits]
    rfl
  rw [hmeaning]
  exact hread ▸ h.same [.unit n]

/-- A carriage return and the line feed behind the text are one line break. -/
theorem compares_pair {pieces : List Piece} (hp : ∀ piece ∈ pieces, piece.Parsed extent)
    (ih : ComparedBelow extent pieces) {n : Nat} (hn : n < 0xD800)
    (hfeed : (written pieces).head? = some '\n') :
    Compares false (readBody extent ('\r' :: written pieces)) ([.unit n] ++ meaning pieces) := by
  obtain ⟨tail, htail⟩ := List.head?_eq_some_iff.mp hfeed
  obtain ⟨others, ho, hw, hm⟩ := exists_behind hp isOrdinary_feed htail
  obtain ⟨right, h, -⟩ := ih others ho (by
    rw [hw, htail]
    exact Nat.le_succ _)
  rw [htail, readBody_pair, hm, ← hw]
  refine @Compares.merged _ _ _ [10] [n, 10] (Nat.lt_succ_self 1) ?_ h
  simpa using hn

theorem Compared.text_nil {pieces : List Piece} (h : Compared extent pieces) :
    Compared extent (.text [] :: pieces) := by
  obtain ⟨right, h, hfit⟩ := h
  refine ⟨right, meaning_text_nil pieces ▸ h, hfit.trans ⟨fun hf => ⟨?_, hf⟩, And.right⟩⟩
  rw [Piece.Fits, crosses]

/-- An escape at the front of text compares if the text behind it does. -/
theorem compared_text_escape {c : Char} {rest : List Char} {pieces : List Piece}
    (h : Compared extent (.text (rest.drop ((escape (c :: rest)).2 - 1)) :: pieces))
    (hp : ∀ piece ∈ pieces, piece.Parsed extent) (ih : ComparedBelow extent pieces) :
    Compared extent (.text ('\\' :: c :: rest) :: pieces) := by
  by_cases hopen : rest.length + 1 < (escape (c :: (rest ++ written pieces))).2
  · refine ⟨false, compares_escape_open hp ih hopen, nofun, fun hf => ?_⟩
    rw [fit_text, crosses_escape, decide_eq_true hopen] at hf
    exact absurd hf.1 nofun
  · obtain ⟨right, h, hfit⟩ := h
    have hle : (escape (c :: rest)).2 - 1 ≤ rest.length := by
      have := (escape_bounds c rest).2.2
      omega
    refine ⟨right, ?_, hfit.trans ?_⟩
    · have hread : readBody extent (written (.text ('\\' :: c :: rest) :: pieces)) =
          (readBody extent
            (written (.text (rest.drop ((escape (c :: rest)).2 - 1)) :: pieces))).map
              (Token.ofUnits (escape (c :: rest)).1 ++ ·) := by
        refine (readBody_escape extent c (rest ++ written pieces)).trans ?_
        rw [escape_append_of_le (Nat.not_lt.mp hopen), List.drop_append_of_le_length hle]
        rfl
      rw [hread, meaning_text, textUnits_escape, ofUnits_append, List.append_assoc]
      exact h.same _
    · rw [fit_text, fit_text, crosses_escape, decide_eq_false hopen, Bool.false_or]

/-- A character that is one lexeme with the first one behind the text is not read as it was meant. -/
theorem compared_text_crossing {c : Char} {pieces : List Piece}
    (hp : ∀ piece ∈ pieces, piece.Parsed extent) (ih : ComparedBelow extent pieces)
    (hcross : crosses (written pieces) [c] = true) : Compared extent (.text [c] :: pieces) := by
  refine ⟨false, ?_, nofun, fun hf => absurd (hcross.symm.trans hf.1) nofun⟩
  rw [crosses_singleton] at hcross
  simp only [Bool.or_eq_true, Bool.and_eq_true, beq_iff_eq] at hcross
  rcases hcross with ⟨rfl, hfeed⟩ | ⟨rfl, hbrace⟩
  · rw [meaning_text, textUnits_return (by simp), textUnits_nil]
    exact compares_pair hp ih (by decide) hfeed
  · obtain ⟨tail, htail⟩ := List.head?_eq_some_iff.mp hbrace
    rw [meaning_text, textUnits_cons (by decide) (by decide), textUnits_nil]
    show Compares false (readBody extent ('$' :: written pieces)) _
    rw [htail]
    exact compares_opened extent tail _

/-- A carriage return at the front of text compares if the text behind it does. -/
theorem compared_text_return {rest : List Char} {pieces : List Piece}
    (h : Compared extent (.text rest :: pieces))
    (hcross : crosses (written pieces) ('\r' :: rest) = crosses (written pieces) rest)
    (hfeed : rest = [] → (written pieces).head? ≠ some '\n') :
    Compared extent (.text ('\r' :: rest) :: pieces) := by
  by_cases hn : rest.head? = some '\n'
  · obtain ⟨tail, rfl⟩ := List.head?_eq_some_iff.mp hn
    obtain ⟨right, h, hfit⟩ := h
    have hpair : readBody extent ('\n' :: (tail ++ written pieces)) =
        readBody extent ('\r' :: '\n' :: (tail ++ written pieces)) := by
      rw [readBody_pair, readBody_cons extent (by decide) (by decide) (by decide) (by simp)]
      rfl
    refine ⟨right, ?_, by rw [hfit, fit_text, fit_text, hcross]⟩
    rw [meaning_text, textUnits_pair]
    rw [meaning_text, textUnits_cons (by decide) (by decide)] at h
    exact hpair ▸ h
  · refine h.text_cons (readBody_return extent ?_) (textUnits_return hn) hcross
    cases rest with
    | nil => exact hfeed rfl
    | cons d rest => exact hn

/-- Text at the front of pieces compares if what is behind it does. -/
theorem compared_text {raw : List Char} (hraw : Plain raw) {pieces : List Piece}
    (hp : ∀ piece ∈ pieces, piece.Parsed extent) (ih : ComparedBelow extent pieces) :
    Compared extent (.text raw :: pieces) := by
  induction hraw with
  | nil => exact (ih pieces hp (Nat.le_refl _)).text_nil
  | escape _ ihraw => exact compared_text_escape ihraw hp ih
  | @char c rest hb ht hd hrest ihraw =>
    by_cases hlast : rest = [] ∧ crosses (written pieces) [c] = true
    · obtain ⟨rfl, hcross⟩ := hlast
      exact compared_text_crossing hp ih hcross
    · have hcross : crosses (written pieces) (c :: rest) = crosses (written pieces) rest := by
        cases rest with
        | nil => rw [Bool.not_eq_true _ |>.mp fun h => hlast ⟨rfl, h⟩, crosses]
        | cons d rest => exact crosses_cons _ hb d rest
      by_cases hc : c = '\r'
      · subst hc
        refine compared_text_return ihraw hcross fun hnil hfeed => hlast ⟨hnil, ?_⟩
        rw [crosses_singleton, hfeed]
        rfl
      · refine ihraw.text_cons (readBody_cons extent hb ht hc ?_) (textUnits_cons hb hc rest) hcross
        rintro ⟨rfl, hbrace⟩
        cases rest with
        | nil =>
          refine hlast ⟨rfl, ?_⟩
          rw [crosses_singleton, show (written pieces).head? = some '{' from hbrace]
          rfl
        | cons d rest => exact hd ⟨rfl, hbrace⟩

theorem meaning_filled (c : Char) (rest : List Char) (pieces : List Piece) :
    meaning (.filled (c :: rest) :: pieces) =
      [.unit c.toNat] ++ meaning (.filled rest :: pieces) := rfl

theorem fit_filled {value : List Char} {pieces : List Piece} :
    Fit (.filled value :: pieces) ↔
      ('\r' ∉ value ∧ ¬(value.getLast? = some '$' ∧ (written pieces).head? = some '{')) ∧
        Fit pieces := .rfl

/-- A character other than a carriage return changes nothing, unless it is a dollar sign that ends
the value before a brace. -/
theorem fit_filled_cons {c : Char} {rest : List Char} {pieces : List Piece} (hc : c ≠ '\r')
    (hlast : ¬(rest = [] ∧ c = '$' ∧ (written pieces).head? = some '{')) :
    Fit (.filled (c :: rest) :: pieces) ↔ Fit (.filled rest :: pieces) := by
  have hreturn : '\r' ∉ c :: rest ↔ '\r' ∉ rest := by simp [hc.symm]
  rw [fit_filled, fit_filled, hreturn]
  cases rest with
  | nil =>
    have : ¬(c = '$' ∧ (written pieces).head? = some '{') := fun h => hlast ⟨rfl, h⟩
    simp [this]
  | cons d rest => rw [List.getLast?_cons_cons]

theorem escape_of_masked {c : Char} {rest : List Char} (h : IsMasked c rest) (behind : List Char) :
    escape (c :: behind) = ([c.toNat], 1) := by
  rcases h with rfl | rfl | ⟨rfl, -⟩ <;>
  · rw [escape_other (by decide) (by decide) (by decide)]
    rfl

theorem head?_written_filled {rest : List Char} (hbrace : rest.head? ≠ some '{') (hne : rest ≠ [])
    (pieces : List Piece) : (written (.filled rest :: pieces)).head? ≠ some '{' := by
  cases rest with
  | nil => exact absurd rfl hne
  | cons d rest =>
    rw [written, Piece.source]
    by_cases hm : IsMasked d rest
    · rw [escapeTemplate_masked hm]
      simp
    · rw [escapeTemplate_bare hm]
      exact hbrace

theorem written_filled_bare {c : Char} {rest : List Char} (hm : ¬IsMasked c rest)
    (pieces : List Piece) :
    written (.filled (c :: rest) :: pieces) = c :: written (.filled rest :: pieces) := by
  rw [written, Piece.source, escapeTemplate_bare hm]
  rfl

/-- A character that is written with a backslash before it is read as it was meant. -/
theorem compared_filled_masked {c : Char} {rest : List Char} {pieces : List Piece}
    (hm : IsMasked c rest) (h : Compared extent (.filled rest :: pieces)) :
    Compared extent (.filled (c :: rest) :: pieces) := by
  obtain ⟨right, h, hfit⟩ := h
  have hread : readBody extent (written (.filled (c :: rest) :: pieces)) =
      (readBody extent (written (.filled rest :: pieces))).map ([.unit c.toNat] ++ ·) := by
    rw [written, Piece.source, escapeTemplate_masked hm]
    refine (readBody_escape extent c (escapeTemplate rest ++ written pieces)).trans ?_
    rw [escape_of_masked hm]
    rfl
  refine ⟨right, ?_, hfit.trans (fit_filled_cons ?_ ?_).symm⟩
  · rw [hread, meaning_filled]
    exact h.same _
  · rcases hm with rfl | rfl | ⟨rfl, -⟩ <;> decide
  · rintro ⟨rfl, rfl, -⟩
    rcases hm with hm | hm | ⟨-, hm⟩
    · exact absurd hm (by decide)
    · exact absurd hm (by decide)
    · cases hm

/-- A carriage return in a value is not read as it was meant. -/
theorem compared_filled_return {rest : List Char} {pieces : List Piece}
    (hp : ∀ piece ∈ pieces, piece.Parsed extent)
    (ih : ComparedBelow extent (.filled rest :: pieces)) :
    Compared extent (.filled ('\r' :: rest) :: pieces) := by
  have hp' : ∀ piece ∈ Piece.filled rest :: pieces, piece.Parsed extent :=
    List.forall_mem_cons.mpr ⟨trivial, hp⟩
  have hbare : ¬IsMasked '\r' rest := by
    rintro (h | h | ⟨h, -⟩)
    all_goals exact absurd h (by decide)
  refine ⟨false, ?_, nofun, fun hf => absurd List.mem_cons_self hf.1.1⟩
  rw [written_filled_bare hbare, meaning_filled]
  by_cases hfeed : (written (.filled rest :: pieces)).head? = some '\n'
  · exact compares_pair hp' ih (by decide) hfeed
  · obtain ⟨right, h, -⟩ := ih _ hp' (Nat.le_refl _)
    rw [readBody_return extent hfeed]
    exact h.broken

/-- A character at the front of a value compares if what is behind it does. -/
theorem compared_filled {c : Char} {rest : List Char} {pieces : List Piece}
    (hp : ∀ piece ∈ pieces, piece.Parsed extent)
    (ih : ComparedBelow extent (.filled rest :: pieces)) :
    Compared extent (.filled (c :: rest) :: pieces) := by
  have hrest := ih (.filled rest :: pieces) (List.forall_mem_cons.mpr ⟨trivial, hp⟩) (Nat.le_refl _)
  by_cases hm : IsMasked c rest
  · exact compared_filled_masked hm hrest
  by_cases hc : c = '\r'
  · exact hc ▸ compared_filled_return hp ih
  by_cases hlast : rest = [] ∧ c = '$' ∧ (written pieces).head? = some '{'
  · -- The dollar sign and the brace behind the value open a substitution.
    obtain ⟨rfl, rfl, hbrace⟩ := hlast
    refine ⟨false, ?_, nofun, fun hf => absurd ⟨rfl, hbrace⟩ hf.1.2⟩
    obtain ⟨tail, htail⟩ := List.head?_eq_some_iff.mp hbrace
    rw [written_filled_bare hm, meaning_filled,
      show written (.filled [] :: pieces) = '{' :: tail from htail]
    exact compares_opened extent tail _
  · obtain ⟨right, h, hfit⟩ := hrest
    refine ⟨right, ?_, hfit.trans (fit_filled_cons hc hlast).symm⟩
    rw [written_filled_bare hm, meaning_filled, readBody_cons]
    · exact h.same _
    · exact fun e => hm (.inl e)
    · exact fun e => hm (.inr (.inl e))
    · exact hc
    · rintro ⟨rfl, hbrace⟩
      by_cases hne : rest = []
      · exact hlast ⟨hne, rfl, by rw [hne] at hbrace; exact hbrace⟩
      · exact head?_written_filled (fun e => hm (.inr (.inr ⟨rfl, e⟩))) hne pieces hbrace

/-! ## All pieces -/

theorem Compared.filled_nil {pieces : List Piece} (h : Compared extent pieces) :
    Compared extent (.filled [] :: pieces) := by
  obtain ⟨right, h, hfit⟩ := h
  exact ⟨right, h, hfit.trans ⟨fun hf => ⟨⟨by simp, by simp⟩, hf⟩, And.right⟩⟩

theorem length_escapeTemplate_lt (c : Char) (rest : List Char) :
    (escapeTemplate rest).length < (escapeTemplate (c :: rest)).length := by
  rw [escapeTemplate]
  split <;> simp only [List.length_cons] <;> omega

theorem compared_kept {code : List Char} {pieces : List Piece}
    (hcode : (Piece.kept code).Parsed extent) (h : Compared extent pieces) :
    Compared extent (.kept code :: pieces) := by
  obtain ⟨right, h, hfit⟩ := h
  refine ⟨right, ?_, hfit.trans ⟨fun hf => ⟨trivial, hf⟩, And.right⟩⟩
  have hread : readBody extent (written (.kept code :: pieces)) =
      (readBody extent (written pieces)).map ([.code code] ++ ·) := by
    have hw : written (.kept code :: pieces) = '$' :: '{' :: (code ++ '}' :: written pieces) := by
      simp [written, Piece.source]
    rw [hw, readBody_code extent (hcode _)]
    simp
  rw [hread]
  exact h.same [.code code]

theorem compared {pieces : List Piece} (hp : ∀ piece ∈ pieces, piece.Parsed extent) :
    Compared extent pieces := by
  induction hn : (written pieces).length using Nat.strongRecOn generalizing pieces with
  | ind n ihn =>
    have hbelow : ∀ {others : List Piece}, (written others).length < n →
        ComparedBelow extent others := fun hlt others ho hle =>
      ihn _ (Nat.lt_of_le_of_lt hle hlt) ho rfl
    have hlt : ∀ {front : List Char} {others : List Piece}, front ≠ [] →
        (front ++ written others).length ≤ n → (written others).length < n := fun hne hle => by
      have := List.length_pos_iff.mpr hne
      rw [List.length_append] at hle
      omega
    replace hn := Nat.le_of_eq hn
    induction pieces with
    | nil => exact ⟨true, by rw [written, readBody_end]; exact .done, by simp [Fit]⟩
    | cons piece pieces ih =>
      obtain ⟨hpiece, hpieces⟩ := List.forall_mem_cons.mp hp
      cases piece with
      | text raw =>
        cases raw with
        | nil => exact (ih hpieces hn).text_nil
        | cons c raw =>
          exact compared_text hpiece hpieces (hbelow (hlt (List.cons_ne_nil c raw) hn))
      | filled value =>
        cases value with
        | nil => exact (ih hpieces hn).filled_nil
        | cons c rest =>
          refine compared_filled hpieces (hbelow (Nat.lt_of_lt_of_le ?_ hn))
          simp only [written, Piece.source, List.length_append]
          exact Nat.add_lt_add_right (length_escapeTemplate_lt c rest) _
      | kept code =>
        exact compared_kept hpiece (ihn _ (hlt (List.cons_ne_nil _ _) hn) hpieces rfl)

/-- Pieces that fit read as they were meant, token by token. -/
theorem readBody_written {pieces : List Piece} (hp : ∀ piece ∈ pieces, piece.Parsed extent)
    (hf : Fit pieces) : readBody extent (written pieces) = some (meaning pieces) := by
  obtain ⟨right, h, hfit⟩ := compared hp
  obtain rfl := hfit.mpr hf
  exact h.eq_of_right

/-- Pieces that are written one behind the other are cooked to what they were meant to be read as
just if they fit. -/
theorem cooked_written_iff {pieces : List Piece} (hp : ∀ piece ∈ pieces, piece.Parsed extent) :
    (readBody extent (written pieces)).map cooked = some (cooked (meaning pieces)) ↔ Fit pieces := by
  obtain ⟨right, h, hfit⟩ := compared hp
  exact h.cooked_eq_iff.trans hfit

end ReleasePrompts.Scope
