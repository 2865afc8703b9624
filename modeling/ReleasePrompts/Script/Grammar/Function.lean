import ReleasePrompts.Script.Grammar.Phrase

/-!
# Patterns, functions and classes

What is declared: a name or a pattern, the parameters of a function, its body, and the members of
object literals and classes that are functions or hold values.
-/

namespace ReleasePrompts.Script

open ReleasePrompts.Script.Parser

/-- A name that may be declared or used as one. -/
def isIdentifier : Token → Bool
  | .name text => isIdentifierName text
  | _ => false

/-- A name, as a node. -/
def identifier : Parser Node := do
  unless isIdentifier (← peek).token do failure
  leaf .identifier

/-- The key in brackets of a member. -/
def computedKey (g : Grammar) : Parser Node := do
  let start ← startOfNext
  expectMark "["
  let key ← assignmentValue g
  expectMark "]"
  nodeFrom .phrase start [key]

/-- Whether a lexeme may begin the key of a member. -/
def startsKey : Token → Bool
  | .name _ => true
  | .string => true
  | .number => true
  | .privateName => true
  | .mark "[" => true
  | _ => false

/-- The key of a member. -/
def memberKey (g : Grammar) : Parser Node := do
  match (← peek).token with
  | .name _ => leaf .phrase
  | .string => leaf .string
  | .number => leaf .number
  | .privateName => leaf (.feature .privateName)
  | .mark "[" => computedKey g
  | _ => failure

/-- What is declared, with the value it takes if none is given. -/
def bindingElement (g : Grammar) : Parser Node := do
  let start ← startOfNext
  let left ← g .binding
  unless ← accept (.mark "=") do return left.node
  let right ← assignmentValue g
  nodeFrom .initialized start [left.node, right]

/-- Three dots and what takes the rest. The comments behind the dots are kept. -/
def restElement (g : Grammar) : Parser Node := do
  let start ← startOfNext
  expectMark "..."
  let comments ← commentsOfNext
  let operand ← g .binding
  nodeFrom .spread start (comments ++ [operand.node])

/-- An element of a declared pattern in brackets, which may be left out. -/
def arrayBindingElement (g : Grammar) : Parser Node := do
  let lexeme ← peek
  match lexeme.token with
  | .mark "," => return .mk .phrase lexeme.start lexeme.start []
  | .mark "..." => restElement g
  | _ => bindingElement g

/-- An element of a declared pattern in braces. -/
def objectBindingElement (g : Grammar) : Parser Node := do
  let (first, second) ← peekTwo
  if first.token = .mark "..." then return ← restElement g
  if isIdentifier first.token && second.token ≠ .mark ":" then
    let name ← leaf .phrase
    unless ← accept (.mark "=") do return name
    let right ← assignmentValue g
    return ← nodeFrom .initialized first.start [name, right]
  let key ← memberKey g
  expectMark ":"
  let value ← bindingElement g
  nodeFrom .phrase first.start [key, value]

/-- A name or pattern that is declared. -/
def binding (g : Grammar) : Parser Phrase := do
  let lexeme ← peek
  match lexeme.token with
  | .mark "[" =>
    moveTo lexeme.stop
    let (elements, _) ← commaList "]" (arrayBindingElement g)
    return ⟨← nodeFrom .phrase lexeme.start elements, {}⟩
  | .mark "\x7b" =>
    moveTo lexeme.stop
    let (elements, _) ← commaList "\x7d" (objectBindingElement g)
    return ⟨← nodeFrom .phrase lexeme.start elements, {}⟩
  | _ => return ⟨← identifier, {}⟩

/-- The parameters of a function, in parentheses. -/
def formalParameters (g : Grammar) : Parser Node := do
  let start ← startOfNext
  expectMark "("
  let (parameters, _) ← commaList ")" do
    if (← peek).token = .mark "..." then restElement g else bindingElement g
  nodeFrom .parameters start parameters

/-- The parameters and the body of a function that begins at `start`, behind the nodes `before`. -/
def functionFrom (g : Grammar) (form : FunctionForm) (start : Nat) (before : List Node) :
    Parser Node := do
  let parameters ← formalParameters g
  let body ← block g
  nodeFrom (.function form) start (before ++ [parameters, body])

/-- The name of a function or class, which may be missing unless `named`. -/
def ownName (named : Bool) : Parser (List Node) := do
  if isIdentifier (← peek).token then return [← leaf .name]
  if named then failure
  return []

/-- A function that begins with its word, which `async` may precede. It has a name if `named`. -/
def functionPhrase (g : Grammar) (named : Bool) (form : FunctionForm) : Parser Node := do
  let start ← startOfNext
  let _ ← accept (.name "async")
  expectWord "function"
  let _ ← accept (.mark "*")
  functionFrom g form start (← ownName named)

/-- Whether a function begins at the cursor. -/
def atFunction : Parser Bool := do
  let (first, second) ← peekTwo
  return first.token = .name "function" ||
    (first.token = .name "async" && second.token = .name "function" && !second.afterBreak)

/-- Takes a word or the star before the key of a member. A word is one only where a key follows it.
-/
def memberModifier (words : List String) : Parser (Option Unit) := do
  let (first, second) ← peekTwo
  match first.token with
  | .mark "*" => return some (← moveTo first.stop)
  | .name word =>
    let keyFollows := startsKey second.token || second.token = .mark "*"
    let joined := word ≠ "async" || !second.afterBreak
    if words.contains word && keyFollows && joined then return some (← moveTo first.stop)
    return none
  | _ => return none

/-- Takes all words and stars before the key of a member. -/
def memberModifiers (words : List String) : Parser Unit := do
  let _ ← collect (memberModifier words)

/-- A decorator. -/
def decorator (g : Grammar) : Parser Node := do
  let start ← startOfNext
  expectMark "@"
  if (← peek).token = .mark "(" then
    let inner ← condition g
    return ← nodeFrom (.feature .decorator) start [inner]
  let _ ← identifier
  let _ ← collect do
    unless ← accept (.mark ".") do return none
    match (← next).token with
    | .name _ => return some ()
    | .privateName => return some ()
    | _ => failure
  let lexeme ← peek
  if lexeme.token = .mark "(" then
    moveTo lexeme.stop
    let (arguments, _) ← commaList ")" do
      let _ ← accept (.mark "...")
      assignmentValue g
    return ← nodeFrom (.feature .decorator) start arguments
  nodeFrom (.feature .decorator) start []

/-- The decorators at the cursor. -/
def decorators (g : Grammar) : Parser (List Node) :=
  collect do
    if (← peek).token = .mark "@" then return some (← decorator g)
    return none

/-- A member of a class that is a function or holds a value, behind its decorators. -/
def classElement (g : Grammar) (start : Nat) (before : List Node) : Parser Node := do
  memberModifiers ["get", "set", "async"]
  let key ← memberKey g
  if (← peek).token = .mark "(" then
    return ← functionFrom g .member start (before ++ [key])
  let value ← do
    if ← accept (.mark "=") then pure [← assignmentValue g] else pure []
  let field ← nodeFrom (.feature .classField) start (before ++ key :: value)
  semicolon
  return field

/-- A member of a class. -/
def classMember (g : Grammar) : Parser Node := do
  let start ← startOfNext
  let before ← decorators g
  let (first, second) ← peekTwo
  if first.token = .name "static" then
    if second.token = .mark "\x7b" then
      moveTo first.stop
      let body ← block g
      return ← nodeFrom (.feature .staticBlock) start [body]
    if startsKey second.token || second.token = .mark "*" then
      moveTo first.stop
  classElement g start before

/-- A class that begins with its word, behind its decorators. It has a name if `named`. -/
def classPhrase (g : Grammar) (named declared : Bool) : Parser Node := do
  let start ← startOfNext
  let before ← decorators g
  expectWord "class"
  let name ← ownName named
  let heritage ← do
    if ← accept (.name "extends") then pure [← settle (← g .unary)] else pure []
  expectMark "\x7b"
  let members ← itemsUntil "\x7d" do
    if ← accept (.mark ";") then return none
    return some (← classMember g)
  nodeFrom (.classPhrase declared) start (before ++ name ++ heritage ++ members.filterMap id)

end ReleasePrompts.Script
