import ReleasePrompts.Script.Grammar.Expression

/-!
# Markup

Elements of markup inside scripts: tags with attributes, and between them text, other elements and
expressions in braces. Text holds no mark of markup; an ampersand in it begins the name or number of
a character.
-/

namespace ReleasePrompts.Script

open ReleasePrompts.Script.Parser Text

/-- Takes one character behind the filler. -/
def expectChar (c : Char) : Parser Unit := do
  let lexeme ← peek
  moveTo lexeme.start
  let cursor ← get
  unless cursor.rest.head? == some c do failure
  set (cursor.advance 1)

/-- Whether a character follows behind the filler. -/
def atChar (c : Char) : Parser Bool := do
  let cursor ← get
  let filler := fillerFrom {} false cursor.rest
  return (cursor.rest.drop filler.length).head? == some c

/-- The rest of a word of markup, which may hold hyphens. -/
def markupWord : Parser Unit := do
  match (← next).token with
  | .name _ =>
    let cursor ← get
    let more := cursor.rest.takeWhile fun c => isNameChar c || c == '-'
    set (cursor.advance more.length)
  | _ => failure

/-- The name of an element or an attribute: words with colons or points between them. -/
def markupName : Parser Unit := do
  markupWord
  let _ ← collect do
    let lexeme ← peek
    unless lexeme.token = .mark ":" || lexeme.token = .mark "." do return none
    moveTo lexeme.stop
    markupWord
    return some ()

/-- An expression in braces, which may be missing. -/
def markupExpression (g : Grammar) : Parser Node := do
  let start ← startOfNext
  expectMark "\x7b"
  if ← accept (.mark "\x7d") then return ← nodeFrom .phrase start []
  let inner ←
    if ← accept (.mark "...") then assignmentValue g else expression g
  expectMark "\x7d"
  nodeFrom .phrase start [inner]

/-- A string of markup: any text without its quote. -/
def markupString : Parser Node := do
  let start ← markupStart
  let cursor ← get
  match cursor.rest with
  | [] => failure
  | quote :: rest =>
    unless quote == '"' || quote == '\'' do failure
    let length := (rest.takeWhile (· != quote)).length
    if length = rest.length then failure
    set (cursor.advance (length + 2))
    nodeFrom .phrase start []
where
  markupStart : Parser Nat := do
    let cursor ← get
    let filler := fillerFrom {} false cursor.rest
    set (cursor.advance filler.length)
    return cursor.place + filler.length

/-- An attribute of an element. -/
def markupAttribute (g : Grammar) : Parser (List Node) := do
  if (← peek).token = .mark "\x7b" then return [← markupExpression g]
  markupName
  unless ← accept (.mark "=") do return []
  if ← atChar '\x7b' then return [← markupExpression g]
  if ← atChar '<' then return [(← g .markup).node]
  return [← markupString]

/-- The length of a run of characters that is not empty and not longer than `limit`. -/
def runLength? (p : Char → Bool) (limit : Nat) (cs : List Char) : Option Nat :=
  let length := (cs.takeWhile p).length
  if 0 < length ∧ length ≤ limit then some length else none

/-- The length of the name or number of a character behind its ampersand. -/
def characterReference? (cs : List Char) : Option Nat :=
  let length := match cs with
    | '#' :: 'x' :: rest => (runLength? isHexDigit 6 rest).map (· + 2)
    | '#' :: 'X' :: rest => (runLength? isHexDigit 6 rest).map (· + 2)
    | '#' :: rest => (runLength? Char.isDigit 5 rest).map (· + 1)
    | rest => runLength? Char.isAlpha 30 rest
  length.bind fun n => if (cs.drop n).head? == some ';' then some (n + 1) else none

/-- What stands between the tags of an element, up to its closing tag. -/
def markupChildren (g : Grammar) : Parser (List Node) := do
  let children ← collect do
    let cursor ← get
    match cursor.rest with
    | [] => failure
    | '<' :: rest =>
      let filler := fillerFrom {} false rest
      if (rest.drop filler.length).head? == some '/' then return none
      return some [(← g .markup).node]
    | '\x7b' :: _ => return some [← markupExpression g]
    | '&' :: rest =>
      let some length := characterReference? rest | failure
      set (cursor.advance (length + 1))
      return some []
    | c :: _ =>
      if c == '>' || c == '\x7d' then failure
      set (cursor.advance 1)
      return some []
  return children.flatten

/-- An element of markup. -/
def markupElement (g : Grammar) : Parser Phrase := do
  let start ← startOfNext
  expectChar '<'
  if ← atChar '>' then
    expectChar '>'
    return ← closed start []
  markupName
  let attributes ← collect do
    if (← atChar '>') || (← atChar '/') then return none
    return some (← markupAttribute g)
  if ← atChar '/' then
    expectChar '/'
    expectChar '>'
    return ← valueFrom (.feature .markup) start attributes.flatten
  expectChar '>'
  closed start attributes.flatten
where
  closed (start : Nat) (attributes : List Node) : Parser Phrase := do
    let children ← markupChildren g
    expectChar '<'
    expectChar '/'
    unless ← atChar '>' do markupName
    expectChar '>'
    valueFrom (.feature .markup) start (attributes ++ children)

end ReleasePrompts.Script
