import ReleasePrompts.Script.Grammar.Statement

/-!
# Programs

`parse?` gives the syntax tree of a source that is a script or a module, in the grammar of
ECMAScript with markup and decorators. Rules that no grammar expresses, such as that a name is
declared once, are not checked. Of the comments those behind three dots are kept in the tree, since
no others bear on what is read from it.
-/

namespace ReleasePrompts.Script

open ReleasePrompts.Script.Parser

/-- The production of a rule. -/
def production (g : Grammar) : Grammar
  | .statement => do return ⟨← statement g, {}⟩
  | .assignment inAllowed => assignment g inAllowed
  | .unary => unary g
  | .primary => primary g
  | .binding => binding g
  | .markup => markupElement g

/-- The grammar of phrases that are at most `depth` rules deep. -/
def Grammar.ofDepth : Nat → Grammar
  | 0 => fun _ => failure
  | depth + 1 => fun rule => production (ofDepth depth) rule

/-- The statements of a source, up to its end. -/
def program (g : Grammar) : Parser Node := do
  let cursor ← get
  if ['#', '!'].isPrefixOf cursor.rest then set (cursor.advance (lineComment cursor.rest))
  let statements ← collect do
    if (← peek).token = .finish then return none
    return some (← g .statement).node
  return .mk .phrase 0 cursor.finish statements

/-- The syntax tree of a source, if it has one. Among any five rules inside one another one takes a
character, so the depth given is enough. -/
def parse? (source : List Char) : Option Node :=
  ((program (Grammar.ofDepth (5 * source.length + 5))).run (.ofSource source)).map Prod.fst

end ReleasePrompts.Script
