import ReleasePrompts.Script.Grammar.Markup

/-!
# Statements

Declarations, the statements that direct a script, and what a script takes from other modules and
gives to them. Where the language ends a statement by a semicolon it may be left out before a
closing brace, at the end of the source and at the end of a line.
-/

namespace ReleasePrompts.Script

open ReleasePrompts.Script.Parser

/-- The initial value behind an equals sign, if there is one. -/
def initialValue (g : Grammar) (inAllowed : Bool) : Parser (List Node) := do
  unless ← accept (.mark "=") do return []
  return [← assignmentValue g inAllowed]

/-- A declarator. -/
def declarator (g : Grammar) (inAllowed : Bool) : Parser Node := do
  let start ← startOfNext
  let left ← g .binding
  nodeFrom .declarator start (left.node :: (← initialValue g inAllowed))

/-- The declarators behind commas. -/
def moreDeclarators (g : Grammar) (inAllowed : Bool) : Parser (List Node) :=
  collect do
    unless ← accept (.mark ",") do return none
    return some (← declarator g inAllowed)

/-- A declaration that ends as a statement. -/
def declarationStatement (g : Grammar) : Parser Node := do
  let word ← next
  let first ← declarator g true
  let others ← moreDeclarators g true
  semicolon
  nodeFrom (.declaration (word.token = .name "var")) word.start (first :: others)

/-- The place behind the words that begin a declaration of resources, if one begins at the cursor.
What it declares follows on the same line. -/
def resourcePlace? : Parser (Option Nat) := do
  let (first, second, third) ← peekThree <|> do
    let none : Lexeme := ⟨.finish, 0, 0, false⟩
    return (none, none, none)
  let named (lexeme : Lexeme) := isIdentifier lexeme.token && !lexeme.afterBreak
  if first.token = .name "using" && named second then return some first.stop
  if first.token = .name "await" && second.token = .name "using" && !second.afterBreak &&
      named third then return some second.stop
  return none

/-- A declaration of resources that are released at the end of their block, behind its words. -/
def resourceStatement (g : Grammar) (start : Nat) : Parser Node := do
  let first ← declarator g true
  let others ← moreDeclarators g true
  semicolon
  nodeFrom .resources start (first :: others)

/-- Whether a declaration begins at the cursor. The word `let` is a name unless something that can
be declared follows it. -/
def atDeclaration : Parser Bool := do
  let (first, second) ← peekTwo
  match first.token with
  | .name "var" => return true
  | .name "const" => return true
  | .name "let" =>
    return isIdentifier second.token || second.token = .mark "[" || second.token = .mark "\x7b"
  | _ => return false

/-- The rest of the head of a loop over the members or items of a value, from its word on. -/
def overItems (g : Grammar) : Parser Node := do
  let _ ← next
  let items ← expression g
  expectMark ")"
  return items

/-- Whether the word of a loop over members or items is at the cursor. -/
def atItemsWord : Parser Bool := do
  let token := (← peek).token
  return token = .name "of" || token = .name "in"

/-- The rest of the head of a loop with a condition and a step, behind its first semicolon. -/
def conditionAndStep (g : Grammar) : Parser (List Node) := do
  let test ← optionalUntil ";"
  let step ← optionalUntil ")"
  return test ++ step
where
  optionalUntil (close : String) : Parser (List Node) := do
    if ← accept (.mark close) then return []
    let node ← expression g
    expectMark close
    return [node]

/-- The head of a `for` loop, behind its opening parenthesis. The variable of a loop over items is
no declaration. -/
def forHead (g : Grammar) : Parser (List Node) := do
  let first ← peek
  if ← accept (.mark ";") then return ← conditionAndStep g
  if ← atDeclaration then
    let _ ← next
    let hoisted : Bool := first.token = .name "var"
    let start ← startOfNext
    let left ← g .binding
    let item ← nodeFrom (.loopVariable hoisted) start [left.node]
    if ← atItemsWord then return [item, ← overItems g]
    let value ← initialValue g false
    if hoisted then
      if ← atItemsWord then return item :: value ++ [← overItems g]
    let declared ← nodeFrom .declarator start (left.node :: value)
    let others ← moreDeclarators g false
    expectMark ";"
    let declaration ← nodeFrom (.declaration hoisted) first.start (declared :: others)
    return declaration :: (← conditionAndStep g)
  let left ← g (.assignment false)
  if left.reading.target then
    if ← atItemsWord then return [left.node, ← overItems g]
  let value ← settle left
  let others ← collect do
    unless ← accept (.mark ",") do return none
    return some (← assignmentValue g false)
  expectMark ";"
  return value :: others ++ (← conditionAndStep g)

/-- A `for` loop. -/
def forStatement (g : Grammar) : Parser Node := do
  let start ← startOfNext
  expectWord "for"
  let _ ← accept (.name "await")
  expectMark "("
  let head ← forHead g
  let body ← g .statement
  nodeFrom .loop start (head ++ [body.node])

/-- A loop that tests its condition first. -/
def whileStatement (g : Grammar) : Parser Node := do
  let start ← startOfNext
  expectWord "while"
  let test ← condition g
  let body ← g .statement
  nodeFrom .loop start [test, body.node]

/-- A loop that tests its condition last. A semicolon behind it may always be left out. -/
def doStatement (g : Grammar) : Parser Node := do
  let start ← startOfNext
  expectWord "do"
  let body ← g .statement
  expectWord "while"
  let test ← condition g
  let _ ← accept (.mark ";")
  nodeFrom .loop start [body.node, test]

/-- A statement under a condition. -/
def ifStatement (g : Grammar) : Parser Node := do
  let start ← startOfNext
  expectWord "if"
  let test ← condition g
  let positive ← g .statement
  let elseStart ← startOfNext
  unless ← accept (.name "else") do
    return .mk .phrase start positive.node.stop [test, positive.node]
  let negative ← g .statement
  let alternative ← nodeFrom .phrase elseStart [negative.node]
  nodeFrom .phrase start [test, positive.node, alternative]

/-- A case of a switch: its label and its statements. -/
def switchCase (g : Grammar) : Parser Node := do
  let start ← startOfNext
  let label ← do
    if ← accept (.name "default") then pure [] else
      expectWord "case"
      pure [← expression g]
  expectMark ":"
  let statements ← collect do
    let token := (← peek).token
    if token = .mark "\x7d" || token = .name "case" || token = .name "default" then return none
    return some (← g .statement).node
  nodeFrom .phrase start (label ++ statements)

/-- A switch. -/
def switchStatement (g : Grammar) : Parser Node := do
  let start ← startOfNext
  expectWord "switch"
  let value ← condition g
  let bodyStart ← startOfNext
  expectMark "\x7b"
  let cases ← itemsUntil "\x7d" (switchCase g)
  let body ← nodeFrom .cases bodyStart cases
  nodeFrom .phrase start [value, body]

/-- What handles a failure: what it is bound to, and a block. -/
def catchClause (g : Grammar) : Parser Node := do
  let start ← startOfNext
  expectWord "catch"
  let bound ← do
    if ← accept (.mark "(") then
      let left ← g .binding
      expectMark ")"
      pure [left.node]
    else pure []
  nodeFrom .handler start (bound ++ [← block g])

/-- A block whose failures are handled, or that is followed by another in any case. -/
def tryStatement (g : Grammar) : Parser Node := do
  let start ← startOfNext
  expectWord "try"
  let body ← block g
  let handler ← do
    if (← peek).token = .name "catch" then pure [← catchClause g] else pure []
  let finalizer ← do
    let finallyStart ← startOfNext
    if ← accept (.name "finally") then
      pure [← nodeFrom .phrase finallyStart [← block g]]
    else pure []
  if handler.isEmpty && finalizer.isEmpty then failure
  nodeFrom .phrase start (body :: handler ++ finalizer)

/-- A statement whose names are looked up in a value first. -/
def withStatement (g : Grammar) : Parser Node := do
  let start ← startOfNext
  expectWord "with"
  let value ← condition g
  let body ← g .statement
  nodeFrom (.feature .withStatement) start [value, body.node]

/-- A word that leaves a loop or a labelled statement, and the label. -/
def jumpStatement : Parser Node := do
  let start ← startOfNext
  let _ ← next
  let lexeme ← peek
  if isIdentifier lexeme.token && !lexeme.afterBreak then moveTo lexeme.stop
  semicolon
  nodeFrom .phrase start []

/-- A word that is a whole statement. -/
def loneWord : Parser Node := do
  let start ← startOfNext
  let _ ← next
  semicolon
  nodeFrom .phrase start []

/-- A word that leaves a function, and the value it leaves it with. -/
def returnStatement (g : Grammar) : Parser Node := do
  let start ← startOfNext
  let _ ← next
  let lexeme ← peek
  let ended := lexeme.token = .mark ";" || lexeme.token = .mark "\x7d" ||
    lexeme.token = .finish || lexeme.afterBreak
  let value ← if ended then pure [] else pure [← expression g]
  semicolon
  nodeFrom .phrase start value

/-- A failure that is raised. Its value begins on the same line. -/
def throwStatement (g : Grammar) : Parser Node := do
  let start ← startOfNext
  expectWord "throw"
  if (← peek).afterBreak then failure
  let value ← expression g
  semicolon
  nodeFrom .phrase start [value]

/-- The module that names are taken from or given on, with what is said of it. -/
def moduleSource (g : Grammar) : Parser Unit := do
  expect .string
  if ← accept (.name "with") then
    let attributes ← g .primary
    let _ ← settle attributes

/-- A name that a module gives out. -/
def moduleName : Parser Unit := do
  match (← next).token with
  | .name _ => return ()
  | .string => return ()
  | _ => failure

/-- A name of a list of names between modules, and the other name it gets. -/
def moduleItem : Parser Unit := do
  moduleName
  if ← accept (.name "as") then moduleName

/-- Names of an import in braces, or the name for all of them. -/
def importedNames : Parser Unit := do
  if ← accept (.mark "*") then
    expectWord "as"
    let _ ← identifier
  else
    expectMark "\x7b"
    let _ ← commaList "\x7d" moduleItem

/-- Names taken from another module. -/
def importStatement (g : Grammar) : Parser Node := do
  let start ← startOfNext
  expectWord "import"
  unless (← peek).token = .string do
    if isIdentifier (← peek).token then
      let _ ← identifier
      if ← accept (.mark ",") then importedNames
    else importedNames
    expectWord "from"
  moduleSource g
  semicolon
  nodeFrom (.feature .importStatement) start []

/-- A declaration that is given to other modules without a name of its own. -/
def exportedDefault (g : Grammar) : Parser Node := do
  if ← atFunction then return ← functionPhrase g false .declared
  let token := (← peek).token
  if token = .name "class" || token = .mark "@" then return ← classPhrase g false true
  let value ← assignmentValue g
  semicolon
  return value

/-- Names or declarations given to other modules, behind the decorators of one. -/
def exportStatement (g : Grammar) (start : Nat) (before : List Node) : Parser Node := do
  expectWord "export"
  let given ← do
    if ← accept (.name "default") then pure [← exportedDefault g]
    else if ← accept (.mark "*") then
      if ← accept (.name "as") then moduleName
      expectWord "from"
      moduleSource g
      semicolon
      pure []
    else if ← accept (.mark "\x7b") then
      let _ ← commaList "\x7d" moduleItem
      if ← accept (.name "from") then moduleSource g
      semicolon
      pure []
    else if ← atDeclaration then pure [← declarationStatement g]
    else if ← atFunction then pure [← functionPhrase g true .declared]
    else pure [← classPhrase g true true]
  nodeFrom (.feature .exportStatement) start (before ++ given)

/-- A class or an export that decorators precede. -/
def decoratedStatement (g : Grammar) : Parser Node := do
  let cursor ← get
  let start ← startOfNext
  let before ← decorators g
  if (← peek).token = .name "export" then return ← exportStatement g start before
  set cursor
  classPhrase g true true

/-- A statement that is an expression. -/
def expressionStatement (g : Grammar) : Parser Node := do
  let start ← startOfNext
  let node ← expression g
  semicolon
  nodeFrom .phrase start [node]

/-- A statement with a label. -/
def labelledStatement (g : Grammar) : Parser Node := do
  let start ← startOfNext
  let _ ← identifier
  expectMark ":"
  let body ← g .statement
  nodeFrom .phrase start [body.node]

/-- A statement that begins with a word. -/
def wordStatement (g : Grammar) (word : String) : Parser Node := do
  if ← atDeclaration then return ← declarationStatement g
  if ← atFunction then return ← functionPhrase g true .declared
  let (first, second) ← peekTwo
  if let some place ← resourcePlace? then
    moveTo place
    return ← resourceStatement g first.start
  match word with
  | "class" => classPhrase g true true
  | "if" => ifStatement g
  | "for" => forStatement g
  | "while" => whileStatement g
  | "do" => doStatement g
  | "switch" => switchStatement g
  | "try" => tryStatement g
  | "with" => withStatement g
  | "return" => returnStatement g
  | "throw" => throwStatement g
  | "break" => jumpStatement
  | "continue" => jumpStatement
  | "debugger" => loneWord
  | "export" => exportStatement g (← startOfNext) []
  | "import" =>
    if second.token = .mark "(" || second.token = .mark "." then expressionStatement g
    else importStatement g
  | _ =>
    if isIdentifierName word && second.token = .mark ":" then labelledStatement g
    else expressionStatement g

/-- A statement. -/
def statement (g : Grammar) : Parser Node := do
  let lexeme ← peek
  match lexeme.token with
  | .mark "\x7b" => block g
  | .mark ";" => leaf .phrase
  | .mark "@" => decoratedStatement g
  | .name word => wordStatement g word
  | _ => expressionStatement g

end ReleasePrompts.Script
