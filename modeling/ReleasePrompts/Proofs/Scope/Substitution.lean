import ReleasePrompts.Proofs.Scope.Pieces
import ReleasePrompts.Scope.Template

/-!
# What substitution keeps

The text that `substitute` returns is that of the pieces of the template (`substitute_eq`). Read as a
template literal it has the meaning of the template with its known names filled in just if the
pieces fit (`substitute_keeps_meaning_iff`): a value may otherwise form a token with the text or the
value beside it, and a carriage return in a value is read as a line feed.
-/

namespace ReleasePrompts.Scope

open Script Literal Text

variable {extent : List Char → Option Nat} {source : List Char}

/-- The code of a substitution, with the blanks around it. -/
def codeOf (source : List Char) (substitution : Node) : List Char :=
  slice source (substitution.start + 2) (substitution.stop - 1)

/-- What the parser promises of the inside of a template literal from `place` up to `stop`, where the
closing backtick stands: text of a template literal, and substitutions in order. -/
def ParsedFrom (extent : List Char → Option Nat) (source : List Char) (place stop : Nat) :
    List Node → Prop
  | [] => place ≤ stop ∧ Plain (slice source place stop)
  | substitution :: others =>
    (place ≤ substitution.start ∧ Plain (slice source place substitution.start)) ∧
    (substitution.start + 3 ≤ substitution.stop ∧
      slice source substitution.start (substitution.start + 2) = ['$', '{'] ∧
      slice source (substitution.stop - 1) substitution.stop = ['}'] ∧
      (Piece.kept (codeOf source substitution)).Parsed extent) ∧
    ParsedFrom extent source substitution.stop stop others

/-- What the parser promises of a template literal. -/
structure ParsedTemplate (extent : List Char → Option Nat) (source : List Char) (template : Node) :
    Prop where
  opening : slice source template.start (template.start + 1) = ['`']
  closing : slice source (template.stop - 1) template.stop = ['`']
  inside : ParsedFrom extent source (template.start + 1) (template.stop - 1) (substitutions template)

/-- What becomes of a substitution. -/
def pieceOf (source : List Char) (chain : Chain) (substitution : Node) : Piece :=
  match chain.lookup? (expressionText source substitution) with
  | some value => .filled value
  | none => .kept (codeOf source substitution)

/-- The pieces of the inside of a template literal from `place` up to `stop`. -/
def piecesFrom (source : List Char) (chain : Chain) (place stop : Nat) : List Node → List Piece
  | [] => [.text (slice source place stop)]
  | substitution :: others =>
    .text (slice source place substitution.start) :: pieceOf source chain substitution ::
      piecesFrom source chain substitution.stop stop others

/-- The pieces of a template literal whose substitutions are resolved. -/
def piecesOf (source : List Char) (chain : Chain) (template : Node) : List Piece :=
  piecesFrom source chain (template.start + 1) (template.stop - 1) (substitutions template)

/-- What is read of a template literal, with the values of the names that are known. -/
def fill (chain : Chain) (tokens : List Token) : List Token :=
  tokens.flatMap fun
    | .unit n => [.unit n]
    | .code text =>
      match chain.lookup? (trim text) with
      | some value => Token.ofUnits (value.map Char.toNat)
      | none => [.code text]

/-! ## The text that is returned -/

theorem le_of_parsedFrom {place stop : Nat} {nodes : List Node}
    (h : ParsedFrom extent source place stop nodes) :
    place ≤ stop ∧ ∀ node ∈ nodes, place ≤ node.start := by
  induction nodes generalizing place with
  | nil => exact ⟨h.1, nofun⟩
  | cons node nodes ih =>
    obtain ⟨⟨hle, -⟩, ⟨hlen, -⟩, hrest⟩ := h
    obtain ⟨hstop, hall⟩ := ih hrest
    refine ⟨by omega, List.forall_mem_cons.mpr ⟨hle, fun other ho => ?_⟩⟩
    have := hall other ho
    omega

theorem parsed_piecesFrom (chain : Chain) {place stop : Nat} {nodes : List Node}
    (h : ParsedFrom extent source place stop nodes) :
    ∀ piece ∈ piecesFrom source chain place stop nodes, piece.Parsed extent := by
  induction nodes generalizing place with
  | nil => exact List.forall_mem_singleton.mpr h.2
  | cons node nodes ih =>
    obtain ⟨⟨-, hplain⟩, ⟨-, -, -, hcode⟩, hrest⟩ := h
    refine List.forall_mem_cons.mpr ⟨hplain, List.forall_mem_cons.mpr ⟨?_, ih hrest⟩⟩
    rw [pieceOf]
    split
    · trivial
    · exact hcode

/-- The text before the first substitution may be taken off. -/
theorem substituteFrom_eq (chain : Chain) {place middle stop : Nat} {nodes : List Node}
    (hle : place ≤ middle) (hstop : middle ≤ stop) (hnodes : ∀ node ∈ nodes, middle ≤ node.start) :
    substituteFrom source chain place stop nodes =
      slice source place middle ++ substituteFrom source chain middle stop nodes := by
  induction nodes with
  | nil => exact (slice_append_slice source hle hstop).symm
  | cons node nodes ih =>
    obtain ⟨hnode, hnodes⟩ := List.forall_mem_cons.mp hnodes
    simp only [substituteFrom]
    split
    · exact ih hnodes
    · rw [← slice_append_slice source hle hnode]
      simp only [List.append_assoc]

theorem slice_substitution {node : Node} (hlen : node.start + 3 ≤ node.stop)
    (hopen : slice source node.start (node.start + 2) = ['$', '{'])
    (hclose : slice source (node.stop - 1) node.stop = ['}']) :
    slice source node.start node.stop = (Piece.kept (codeOf source node)).source := by
  rw [← slice_append_slice source (b := node.start + 2) (by omega) (by omega), hopen,
    ← slice_append_slice source (b := node.stop - 1) (by omega) (by omega), hclose]
  rfl

theorem substituteFrom_eq_written (chain : Chain) {place stop : Nat} {nodes : List Node}
    (h : ParsedFrom extent source place (stop - 1) nodes) (hpos : 0 < stop)
    (hclose : slice source (stop - 1) stop = ['`']) :
    substituteFrom source chain place stop nodes =
      written (piecesFrom source chain place (stop - 1) nodes) := by
  induction nodes generalizing place with
  | nil =>
    rw [substituteFrom, ← slice_append_slice source h.1 (by omega), hclose]
    rfl
  | cons node nodes ih =>
    obtain ⟨⟨hle, -⟩, ⟨hlen, hopen, hend, -⟩, hrest⟩ := h
    obtain ⟨hstop, hnodes⟩ := le_of_parsedFrom hrest
    cases hl : chain.lookup? (expressionText source node) with
    | none =>
      simp only [substituteFrom, piecesFrom, written, pieceOf, hl]
      rw [@substituteFrom_eq source chain place node.stop stop nodes (by omega) (by omega) hnodes,
        ih hrest, ← slice_append_slice source hle (by omega), slice_substitution hlen hopen hend,
        List.append_assoc]
      rfl
    | some value =>
      simp only [substituteFrom, piecesFrom, written, pieceOf, hl]
      rw [ih hrest, List.append_assoc]
      rfl

/-- The text that is returned for a template literal is that of its pieces. -/
theorem substitute_eq (chain : Chain) {template : Node} (h : ParsedTemplate extent source template) :
    substitute source chain template = '`' :: written (piecesOf source chain template) := by
  obtain ⟨hstop, hnodes⟩ := le_of_parsedFrom h.inside
  rw [substitute, substituteFrom_eq chain (Nat.le_succ _) (by omega) hnodes, h.opening,
    substituteFrom_eq_written chain h.inside (by omega) h.closing]
  rfl

/-! ## The template as it was -/

theorem substituteFrom_empty (place stop : Nat) (nodes : List Node) :
    substituteFrom source [] place stop nodes = slice source place stop := by
  induction nodes with
  | nil => rfl
  | cons node nodes ih => exact ih

/-- Where nothing is known, the pieces are the text and the substitutions of the template. -/
theorem textOf_eq {template : Node} (h : ParsedTemplate extent source template) :
    textOf source template = '`' :: written (piecesOf source [] template) := by
  rw [← substitute_eq [] h, substitute, substituteFrom_empty, textOf]

/-- A template literal reads as it is meant. -/
theorem fit_piecesFrom_empty {place stop : Nat} {nodes : List Node} :
    Fit (piecesFrom source [] place stop nodes) := by
  induction nodes generalizing place with
  | nil =>
    refine ⟨crosses_of_stop (fun d hd => ?_) (by simp [written]) _, trivial⟩
    obtain rfl : '`' = d := Option.some.inj hd
    rfl
  | cons node nodes ih =>
    refine ⟨crosses_of_stop (fun d hd => ?_) ?_ _, trivial, ih⟩
    · obtain rfl : '$' = d := Option.some.inj hd
      rfl
    · exact fun e => absurd (Option.some.inj e) (by decide)

theorem fill_append (chain : Chain) (xs ys : List Token) :
    fill chain (xs ++ ys) = fill chain xs ++ fill chain ys := List.flatMap_append

theorem fill_ofUnits (chain : Chain) (units : List Nat) :
    fill chain (Token.ofUnits units) = Token.ofUnits units := by
  induction units with
  | nil => rfl
  | cons n units ih => exact congrArg (Token.unit n :: ·) ih

theorem fill_code (chain : Chain) (node : Node) :
    fill chain [.code (codeOf source node)] = (pieceOf source chain node).meaning := by
  simp only [fill, List.flatMap_singleton, pieceOf, expressionText, codeOf]
  split <;> rfl

/-- What pieces are meant to be read as is the template with the values of the known names. -/
theorem meaning_piecesFrom (chain : Chain) (place stop : Nat) (nodes : List Node) :
    meaning (piecesFrom source chain place stop nodes) =
      fill chain (meaning (piecesFrom source [] place stop nodes)) := by
  induction nodes generalizing place with
  | nil => simp only [piecesFrom, meaning, List.flatMap_singleton, Piece.meaning, fill_ofUnits]
  | cons node nodes ih =>
    have hcons : ∀ chain : Chain, meaning (piecesFrom source chain place stop (node :: nodes)) =
        Token.ofUnits (textUnits (slice source place node.start)) ++
          ((pieceOf source chain node).meaning ++
            meaning (piecesFrom source chain node.stop stop nodes)) := fun _ => rfl
    have hkept : (pieceOf source [] node).meaning = [.code (codeOf source node)] := rfl
    rw [hcons, hcons, fill_append, fill_append, fill_ofUnits, hkept, fill_code, ← ih]

theorem readTemplate_textOf {template : Node} (h : ParsedTemplate extent source template) :
    readTemplate extent (textOf source template) = some (meaning (piecesOf source [] template)) := by
  rw [textOf_eq h]
  exact readBody_written (parsed_piecesFrom [] h.inside) fit_piecesFrom_empty

/-- A template literal without substitutions reads as its value. -/
theorem cooked_textOf_eq_literalValue {template : Node} (h : ParsedTemplate extent source template)
    (hkind : template.kind = .template) (hnone : substitutions template = []) :
    (readTemplate extent (textOf source template)).map cooked =
      (literalValue? source template).map (List.map .inl) := by
  have hm : meaning (piecesOf source [] template) =
      Token.ofUnits (textUnits (innerText source template)) := by
    rw [piecesOf, hnone, piecesFrom, meaning, List.flatMap_singleton]
    rfl
  rw [readTemplate_textOf h, hm, Option.map_some, cooked_ofUnits]
  simp only [literalValue?, hkind, hnone, List.isEmpty_nil, if_true, Option.map_some]
  rfl

theorem cooked_substitute_iff (chain : Chain) {template : Node}
    (h : ParsedTemplate extent source template) :
    (readTemplate extent (substitute source chain template)).map cooked =
        some (cooked (fill chain (meaning (piecesOf source [] template)))) ↔
      Fit (piecesOf source chain template) := by
  have hm : fill chain (meaning (piecesOf source [] template)) =
      meaning (piecesOf source chain template) := (meaning_piecesFrom chain _ _ _).symm
  rw [substitute_eq chain h, hm]
  exact cooked_written_iff (parsed_piecesFrom chain h.inside)

/-- Substitution keeps the meaning of a template just if its pieces fit: no value that is filled in
holds a carriage return or ends with a dollar sign before a brace, and no text ends with a lexeme that
goes on in what stands behind the text. -/
theorem substitute_keeps_meaning_iff (chain : Chain) {template : Node}
    (h : ParsedTemplate extent source template) :
    ∃ tokens, readTemplate extent (textOf source template) = some tokens ∧
      ((readTemplate extent (substitute source chain template)).map cooked =
          some (cooked (fill chain tokens)) ↔
        Fit (piecesOf source chain template)) :=
  ⟨_, readTemplate_textOf h, cooked_substitute_iff chain h⟩

/-! ### A dollar sign before a brace -/

/-- Substitutions whose code holds no brace. -/
def toBrace (code : List Char) : Option Nat := indexOf? ['}'] code

/-- A template literal with a brace behind its substitution. -/
def bracedSource : List Char := "`T ${x}{y}`".toList

def bracedTemplate : Node := .mk .template 0 11 [.mk .substitution 3 7 []]

theorem parsed_bracedTemplate : ParsedTemplate toBrace bracedSource bracedTemplate where
  opening := by decide
  closing := by decide
  inside := by
    have hc : ∀ {c : Char} {rest : List Char}, c ≠ '\\' → c ≠ '`' → c ≠ '$' → Plain rest →
        Plain (c :: rest) := fun hb ht hd => .char hb ht fun h => hd h.1
    refine ⟨⟨by decide, ?_⟩, ⟨by decide, by decide, by decide, fun _ => rfl⟩, by decide, ?_⟩
    · exact hc (by decide) (by decide) (by decide) (hc (by decide) (by decide) (by decide) .nil)
    · exact hc (by decide) (by decide) (by decide) (hc (by decide) (by decide) (by decide)
        (hc (by decide) (by decide) (by decide) .nil))

/-- A value that ends in no dollar sign keeps the meaning. -/
theorem substitute_keeps_meaning_of_letter :
    ParsedTemplate toBrace bracedSource bracedTemplate ∧
      ∃ tokens, readTemplate toBrace (textOf bracedSource bracedTemplate) = some tokens ∧
        (readTemplate toBrace
            (substitute bracedSource [[(['x'], some ['a'])]] bracedTemplate)).map cooked =
          some (cooked (fill [[(['x'], some ['a'])]] tokens)) := by
  obtain ⟨tokens, hr, hiff⟩ :=
    substitute_keeps_meaning_iff [[(['x'], some ['a'])]] parsed_bracedTemplate
  have hfit : Fit (piecesOf bracedSource [[(['x'], some ['a'])]] bracedTemplate) := by
    decide +kernel
  exact ⟨parsed_bracedTemplate, tokens, hr, hiff.mpr hfit⟩

/-- A dollar sign that is filled in before a brace opens a substitution that was not there. -/
theorem substitute_opens_substitution :
    ParsedTemplate toBrace bracedSource bracedTemplate ∧
      ∃ tokens, readTemplate toBrace (textOf bracedSource bracedTemplate) = some tokens ∧
        (readTemplate toBrace
            (substitute bracedSource [[(['x'], some ['$'])]] bracedTemplate)).map cooked ≠
          some (cooked (fill [[(['x'], some ['$'])]] tokens)) := by
  refine ⟨parsed_bracedTemplate, _, readTemplate_textOf parsed_bracedTemplate, fun he => ?_⟩
  exact absurd ((cooked_substitute_iff _ parsed_bracedTemplate).mp he) (by decide +kernel)

end ReleasePrompts.Scope
