import ReleasePrompts.Script.Lexeme
import ReleasePrompts.Script.Node

/-!
# Phrases and their readings

A script cannot be read by looking ahead a fixed distance: a list in parentheses turns out to be the
parameters of an arrow function, or an object literal the left-hand side of an assignment, only
afterwards. So an expression is read as a `Phrase`: its node together with what it may still turn
out to be (`Reading`). A `Grammar` reads the phrase of each `Rule`; the productions in the modules
beside this one take the grammar for the phrases inside them as an argument.
-/

namespace ReleasePrompts.Script

/-- Readers of a source: they fail, or move the cursor. -/
abbrev Parser := StateT Cursor Option

/-- What an expression may turn out to be. -/
structure Reading where
  /-- It has a value. -/
  value : Bool := true
  /-- It is a name, a member or something in parentheses, which any assignment may change. -/
  simple : Bool := false
  /-- It may stand before the equals sign of an assignment. -/
  target : Bool := false
  /-- It may be a parameter. -/
  binding : Bool := false
  /-- It may be part of a pattern that is assigned to, -/
  elementTarget : Bool := false
  /-- or part of a parameter. -/
  elementBinding : Bool := false
  /-- The parameters that it is if an arrow follows. -/
  parameters : Option (List Node) := none
  /-- It is the word before the parameters of an asynchronous arrow function. -/
  asyncWord : Bool := false

/-- A node and what it may turn out to be. -/
structure Phrase where
  node : Node
  reading : Reading := {}

/-- The phrases that occur inside others. -/
inductive Rule where
  | statement
  /-- An expression without comma, with or without the operator `in`. -/
  | assignment (inAllowed : Bool)
  /-- An operand with what precedes and follows it more closely than any operator of two. -/
  | unary
  /-- An operand alone. -/
  | primary
  /-- A name or pattern that is declared. -/
  | binding
  /-- An element of markup. -/
  | markup
  deriving DecidableEq, Repr

/-- A reader for each rule. -/
abbrev Grammar := Rule → Parser Phrase

namespace Parser

/-- The lexeme at the cursor, left there. -/
def peek : Parser Lexeme := do
  let cursor ← get
  match cursor.lexeme? with
  | some lexeme => return lexeme
  | none => failure

/-- Moves the cursor to a place further on. -/
def moveTo (place : Nat) : Parser Unit := do
  let cursor ← get
  set (cursor.advance (place - cursor.place))

/-- The lexeme at the cursor, taken. -/
def next : Parser Lexeme := do
  let lexeme ← peek
  moveTo lexeme.stop
  return lexeme

/-- The two lexemes at the cursor, left there. -/
def peekTwo : Parser (Lexeme × Lexeme) := do
  let cursor ← get
  let first ← next
  let second ← peek
  set cursor
  return (first, second)

/-- The three lexemes at the cursor, left there. -/
def peekThree : Parser (Lexeme × Lexeme × Lexeme) := do
  let cursor ← get
  let first ← next
  let second ← next
  let third ← peek
  set cursor
  return (first, second, third)

/-- Takes the lexeme at the cursor if it is `token`. -/
def accept (token : Token) : Parser Bool := do
  let lexeme ← peek
  if lexeme.token = token then
    moveTo lexeme.stop
    return true
  return false

/-- Takes the lexeme at the cursor, which has to be `token`. -/
def expect (token : Token) : Parser Unit := do
  unless ← accept token do failure

/-- Takes a mark. -/
def expectMark (text : String) : Parser Unit := expect (.mark text)

/-- Takes a word. -/
def expectWord (text : String) : Parser Unit := expect (.name text)

/-- The place of the lexeme at the cursor. -/
def startOfNext : Parser Nat := do return (← peek).start

/-- The comments before the lexeme at the cursor, as nodes. -/
def commentsOfNext : Parser (List Node) := do
  let cursor ← get
  return cursor.filler.comments.map fun (start, stop) =>
    .mk .comment (cursor.place + start) (cursor.place + stop) []

/-- The node of what was read from the place `start` up to the cursor. -/
def nodeFrom (kind : Kind) (start : Nat) (children : List Node) : Parser Node := do
  return .mk kind start (← get).place children

/-- The lexeme at the cursor, taken, as a node without children. -/
def leaf (kind : Kind) : Parser Node := do
  let lexeme ← next
  return .mk kind lexeme.start lexeme.stop []

/-- The node of a phrase that has a value. -/
def settle (phrase : Phrase) : Parser Node :=
  if phrase.reading.value then pure phrase.node else failure

/-- What `step` reads, again and again until it reads nothing. No two readings end at one place, so
the characters left bound their number. -/
def collect {α : Type} (step : Parser (Option α)) : Parser (List α) := do
  go step ((← get).left + 1) []
where
  go (step : Parser (Option α)) : Nat → List α → Parser (List α)
    | 0, _ => failure
    | bound + 1, read => do
      match ← step with
      | none => return read.reverse
      | some item => go step bound (item :: read)

/-- Items up to a closing mark, which is taken. -/
def itemsUntil {α : Type} (close : String) (item : Parser α) : Parser (List α) :=
  collect do
    if ← accept (.mark close) then return none
    return some (← item)

/-- Items with commas between them up to a closing mark, and whether a comma stands before it. -/
def commaList {α : Type} (close : String) (item : Parser α) : Parser (List α × Bool) := do
  go ((← get).left + 1) []
where
  go : Nat → List α → Parser (List α × Bool)
    | 0, _ => failure
    | bound + 1, read => do
      if ← accept (.mark close) then return (read.reverse, !read.isEmpty)
      let one ← item
      if ← accept (.mark close) then return ((one :: read).reverse, false)
      expectMark ","
      go bound (one :: read)

/-- Carries a value along a chain of steps until a step has nothing to add. -/
def fold {α : Type} (step : α → Parser (Option α)) (first : α) : Parser α := do
  go step ((← get).left + 1) first
where
  go (step : α → Parser (Option α)) : Nat → α → Parser α
    | 0, _ => failure
    | bound + 1, value => do
      match ← step value with
      | none => return value
      | some value => go step bound value

/-- The end of a statement: a semicolon, or a place where one may be left out. -/
def semicolon : Parser Unit := do
  let lexeme ← peek
  if lexeme.token = .mark ";" then moveTo lexeme.stop
  else unless lexeme.token = .mark "\x7d" || lexeme.token = .finish || lexeme.afterBreak do failure

end Parser

open ReleasePrompts.Script.Parser

/-- An expression without comma. -/
def assignmentValue (g : Grammar) (inAllowed : Bool := true) : Parser Node := do
  settle (← g (.assignment inAllowed))

/-- An expression. -/
def expression (g : Grammar) (inAllowed : Bool := true) : Parser Node := do
  let start ← startOfNext
  let first ← assignmentValue g inAllowed
  let others ← collect do
    unless ← accept (.mark ",") do return none
    return some (← assignmentValue g inAllowed)
  if others.isEmpty then return first
  nodeFrom .phrase start (first :: others)

/-- An expression in parentheses, as in the head of a statement. -/
def condition (g : Grammar) : Parser Node := do
  expectMark "("
  let node ← expression g
  expectMark ")"
  return node

/-- Statements in braces. -/
def block (g : Grammar) : Parser Node := do
  let start ← startOfNext
  expectMark "\x7b"
  let statements ← itemsUntil "\x7d" (g .statement)
  nodeFrom .block start (statements.map Phrase.node)

end ReleasePrompts.Script
