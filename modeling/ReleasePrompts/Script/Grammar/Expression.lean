import ReleasePrompts.Script.Grammar.Function

/-!
# Expressions

Operands, what follows them, operators, and assignments. Operators of two operands are read as one
chain: nothing that is read from a tree depends on how tightly they bind.
-/

namespace ReleasePrompts.Script

open ReleasePrompts.Script.Parser

/-- A phrase that has a value and is nothing else. -/
def valueFrom (kind : Kind) (start : Nat) (children : List Node) : Parser Phrase := do
  return ⟨← nodeFrom kind start children, {}⟩

/-- What a member turns out to be: any assignment may change it. -/
def memberReading : Reading := { simple := true, target := true, elementTarget := true }

/-- A substitution, from its dollar sign on. -/
def substitution (g : Grammar) : Parser Node := do
  let start := (← get).place
  moveTo (start + 2)
  let inner ← expression g
  expectMark "\x7d"
  nodeFrom .substitution start [inner]

/-- A template literal. Between its substitutions stand characters and valid escapes. -/
def template (g : Grammar) : Parser Node := do
  let start ← startOfNext
  expect .backtick
  let substitutions ← collect do
    let cursor ← get
    match cursor.rest with
    | [] => failure
    | '`' :: _ =>
      set (cursor.advance 1)
      return none
    | '$' :: '\x7b' :: _ => return some (some (← substitution g))
    | '\\' :: rest =>
      let some length := escapeLength? rest | failure
      set (cursor.advance (length + 1))
      return some none
    | _ =>
      set (cursor.advance 1)
      return some none
  nodeFrom .template start (substitutions.filterMap id)

/-- A regular expression, at its opening slash. -/
def regularExpression : Parser Node := do
  let lexeme ← peek
  moveTo (lexeme.start + 1)
  let cursor ← get
  if cursor.rest.head? == some '/' || cursor.rest.head? == some '*' then failure
  let some length := regexLength? false cursor.rest | failure
  let body := cursor.advance length
  set (body.advance (nameLength body.rest))
  nodeFrom .phrase lexeme.start []

/-- Three dots and an expression. The comments behind the dots are kept. -/
def spreadElement (g : Grammar) : Parser Phrase := do
  let start ← startOfNext
  expectMark "..."
  let comments ← commentsOfNext
  let operand ← g (.assignment true)
  let node ← nodeFrom .spread start (comments ++ [operand.node])
  let reading := operand.reading
  return ⟨node, { value := reading.value, elementTarget := reading.target,
                  elementBinding := reading.binding }⟩

/-- An item of a list of expressions. -/
def listItem (g : Grammar) : Parser Phrase := do
  if (← peek).token = .mark "..." then spreadElement g else g (.assignment true)

/-- Expressions in parentheses, which may be the parameters of an arrow function instead. -/
def parenthesized (g : Grammar) : Parser Phrase := do
  let start ← startOfNext
  expectMark "("
  let (items, trailing) ← commaList ")" (listItem g)
  let node ← nodeFrom .phrase start (items.map Phrase.node)
  let value := !items.isEmpty && !trailing &&
    items.all fun item => item.reading.value && item.node.kind != .spread
  let parameters :=
    if items.all fun item => item.reading.elementBinding then some (items.map Phrase.node)
    else none
  return ⟨node, { value, simple := value, target := value, elementTarget := value, parameters }⟩

/-- The reading of a list in brackets or braces with the given elements. -/
def listReading (elements : List Phrase) : Reading :=
  let targets := elements.all fun element => element.reading.elementTarget
  let bindings := elements.all fun element => element.reading.elementBinding
  { value := elements.all fun element => element.reading.value
    target := targets, binding := bindings, elementTarget := targets, elementBinding := bindings }

/-- An element of an array, which may be left out. -/
def arrayElement (g : Grammar) : Parser Phrase := do
  let lexeme ← peek
  if lexeme.token = .mark "," then
    return ⟨.mk .phrase lexeme.start lexeme.start [],
      { elementTarget := true, elementBinding := true }⟩
  listItem g

/-- An array literal or the pattern it may be. -/
def arrayLiteral (g : Grammar) : Parser Phrase := do
  let start ← startOfNext
  expectMark "["
  let (elements, _) ← commaList "]" (arrayElement g)
  return ⟨← nodeFrom .phrase start (elements.map Phrase.node), listReading elements⟩

/-- A member of an object literal or of the pattern it may be. A name with an initial value is only
part of a pattern. -/
def objectElement (g : Grammar) : Parser Phrase := do
  let start ← startOfNext
  if (← peek).token = .mark "..." then return ← spreadElement g
  memberModifiers ["get", "set", "async"]
  let (first, second) ← peekTwo
  if isIdentifier first.token && second.token ≠ .mark ":" && second.token ≠ .mark "(" then
    if first.start ≠ start then failure
    let name ← leaf .phrase
    unless ← accept (.mark "=") do
      return ⟨name, { elementTarget := true, elementBinding := true }⟩
    let right ← assignmentValue g
    let node ← nodeFrom .initialized start [name, right]
    return ⟨node, { value := false, elementTarget := true, elementBinding := true }⟩
  let key ← memberKey g
  if (← peek).token = .mark "(" then
    return ⟨← functionFrom g .member start [key], {}⟩
  if first.start ≠ start then failure
  expectMark ":"
  let value ← g (.assignment true)
  let node ← nodeFrom .phrase start [key, value.node]
  let reading := value.reading
  return ⟨node, { value := reading.value, elementTarget := reading.elementTarget,
                  elementBinding := reading.elementBinding }⟩

/-- An object literal or the pattern it may be. -/
def objectLiteral (g : Grammar) : Parser Phrase := do
  let start ← startOfNext
  expectMark "\x7b"
  let (elements, _) ← commaList "\x7d" (objectElement g)
  return ⟨← nodeFrom .phrase start (elements.map Phrase.node), listReading elements⟩

/-- The arguments of a call, and the parameters they are if an arrow follows. -/
def arguments (g : Grammar) : Parser (List Phrase) := do
  expectMark "("
  return (← commaList ")" (listItem g)).1

/-- What follows an operand: a member, an index, a call or a template. Calls are left to the caller
if not `called`, as behind `new`. -/
def suffix (g : Grammar) (called : Bool) (start : Nat) (operand : Phrase) :
    Parser (Option Phrase) := do
  let lexeme ← peek
  match lexeme.token with
  | .mark "." =>
    let left ← settle operand
    moveTo lexeme.stop
    let name ← memberName
    return some ⟨← nodeFrom .phrase start [left, name], memberReading⟩
  | .mark "?." =>
    if !called then failure
    let left ← settle operand
    moveTo lexeme.stop
    match (← peek).token with
    | .mark "(" =>
      let items ← (← arguments g).mapM settle
      return some (← valueFrom .phrase start (left :: items))
    | .mark "[" =>
      let index ← indexed
      return some ⟨← nodeFrom .phrase start [left, index], memberReading⟩
    | _ =>
      let name ← memberName
      return some ⟨← nodeFrom .phrase start [left, name], memberReading⟩
  | .mark "[" =>
    let left ← settle operand
    let index ← indexed
    return some ⟨← nodeFrom .phrase start [left, index], memberReading⟩
  | .mark "(" =>
    if !called then return none
    let left ← settle operand
    let items ← arguments g
    let node ← nodeFrom .phrase start (left :: items.map Phrase.node)
    if operand.reading.asyncWord && items.all (·.reading.elementBinding) then
      return some ⟨node, { value := items.all (·.reading.value)
                           parameters := some (items.map Phrase.node) }⟩
    if !items.all (·.reading.value) then failure
    return some ⟨node, {}⟩
  | .backtick =>
    let left ← settle operand
    let literal ← template g
    return some (← valueFrom .phrase start [left, literal])
  | _ => return none
where
  memberName : Parser Node := do
    match (← peek).token with
    | .name _ => leaf .phrase
    | .privateName => leaf (.feature .privateName)
    | _ => failure
  indexed : Parser Node := do
    expectMark "["
    let index ← expression g
    expectMark "]"
    return index

/-- An operand and all that follows it. -/
def operandFrom (g : Grammar) (called : Bool) : Parser Phrase := do
  let start ← startOfNext
  let operand ← g .primary
  fold (suffix g called start) operand

/-- What `new` makes, or the target of a call. -/
def newExpression (g : Grammar) : Parser Phrase := do
  let start ← startOfNext
  expectWord "new"
  if ← accept (.mark ".") then
    expectWord "target"
    return ← valueFrom .phrase start []
  let callee ← settle (← operandFrom g false)
  if (← peek).token = .mark "(" then
    let items ← (← arguments g).mapM settle
    return ← valueFrom .phrase start (callee :: items)
  valueFrom .phrase start [callee]

/-- A call of `import`, or what it knows of its module. -/
def importExpression (g : Grammar) : Parser Phrase := do
  let start ← startOfNext
  expectWord "import"
  if ← accept (.mark ".") then
    expectWord "meta"
    return ← valueFrom .phrase start []
  let items ← (← arguments g).mapM settle
  valueFrom .phrase start items

/-- An operand alone. -/
def primary (g : Grammar) : Parser Phrase := do
  let lexeme ← peek
  match lexeme.token with
  | .number => return ⟨← leaf .number, {}⟩
  | .string => return ⟨← leaf .string, {}⟩
  | .backtick => return ⟨← template g, {}⟩
  | .mark "(" => parenthesized g
  | .mark "[" => arrayLiteral g
  | .mark "\x7b" => objectLiteral g
  | .mark "/" => return ⟨← regularExpression, {}⟩
  | .mark "/=" => return ⟨← regularExpression, {}⟩
  | .mark "<" => g .markup
  | .mark "@" => return ⟨← classPhrase g false false, {}⟩
  | .name "class" => return ⟨← classPhrase g false false, {}⟩
  | .name "true" => return ⟨← leaf (.truth true), {}⟩
  | .name "false" => return ⟨← leaf (.truth false), {}⟩
  | .name "this" => return ⟨← leaf .phrase, {}⟩
  | .name "super" => return ⟨← leaf .phrase, {}⟩
  | .name "null" => return ⟨← leaf .phrase, {}⟩
  | .name "new" => newExpression g
  | .name "import" => importExpression g
  | .name text =>
    if ← atFunction then return ⟨← functionPhrase g false .operand, {}⟩
    let name ← identifier
    return ⟨name, { simple := true, target := true, binding := true, elementTarget := true
                    elementBinding := true, parameters := some [name]
                    asyncWord := text == "async" }⟩
  | _ => failure

/-- Whether an operand may begin with a lexeme. -/
def startsOperand : Token → Bool
  | .name word => !(["in", "instanceof", "of"].contains word)
  | .number => true
  | .string => true
  | .backtick => true
  | .privateName => false
  | .mark text =>
    ["(", "[", "\x7b", "!", "~", "+", "-", "++", "--", "/", "/=", "<", "@"].contains text
  | .finish => false

/-- An operator before its operand. -/
def isSignOperator : Token → Bool
  | .mark text => ["!", "~", "+", "-", "++", "--"].contains text
  | .name word => ["typeof", "void", "delete"].contains word
  | _ => false

/-- An operand with the operators of one operand around it. -/
def unary (g : Grammar) : Parser Phrase := do
  let (first, second) ← peekTwo <|> do return (← peek, ⟨.finish, 0, 0, false⟩)
  let waits := first.token = .name "await" && startsOperand second.token
  if isSignOperator first.token || waits then
    moveTo first.stop
    let operand ← settle (← g .unary)
    return ← valueFrom .phrase first.start [operand]
  if first.token = .privateName then
    if second.token ≠ .name "in" then failure
    return ⟨← leaf (.feature .privateName), {}⟩
  let operand ← operandFrom g true
  let lexeme ← peek
  if !lexeme.afterBreak && (lexeme.token = .mark "++" || lexeme.token = .mark "--") then
    let inner ← settle operand
    moveTo lexeme.stop
    return ← valueFrom .phrase first.start [inner]
  return operand

/-- An operator between two operands. -/
def isBinaryOperator (inAllowed : Bool) : Token → Bool
  | .mark text =>
    ["&&", "||", "??", "|", "^", "&", "==", "!=", "===", "!==", "<", ">", "<=", ">=", "<<", ">>",
      ">>>", "+", "-", "*", "/", "%", "**"].contains text
  | .name "instanceof" => true
  | .name "in" => inAllowed
  | _ => false

/-- Operands with operators between them, and the choice that a question mark makes of them. -/
def conditional (g : Grammar) (inAllowed : Bool) : Parser Phrase := do
  let start ← startOfNext
  let first ← g .unary
  let others ← collect do
    let lexeme ← peek
    unless isBinaryOperator inAllowed lexeme.token do return none
    moveTo lexeme.stop
    return some (← settle (← g .unary))
  let test ← if others.isEmpty then pure first else do
    let left ← settle first
    valueFrom .phrase start (left :: others)
  unless (← peek).token = .mark "?" do return test
  let condition ← settle test
  expectMark "?"
  let positive ← assignmentValue g
  expectMark ":"
  let negative ← assignmentValue g inAllowed
  valueFrom .phrase start [condition, positive, negative]

/-- An arrow function from its arrow on. -/
def arrowFrom (g : Grammar) (inAllowed : Bool) (start : Nat) (parameters : List Node) :
    Parser Phrase := do
  let list ← nodeFrom .parameters start parameters
  expectMark "=>"
  let body ←
    if (← peek).token = .mark "\x7b" then block g else assignmentValue g inAllowed
  valueFrom (.function .arrow) start [list, body]

/-- An expression that `yield` begins. -/
def yieldExpression (g : Grammar) (inAllowed : Bool) : Parser Phrase := do
  let start ← startOfNext
  expectWord "yield"
  let lexeme ← peek
  if lexeme.token = .mark "*" && !lexeme.afterBreak then
    moveTo lexeme.stop
    let operand ← assignmentValue g inAllowed
    return ← valueFrom .phrase start [operand]
  if startsOperand lexeme.token && !lexeme.afterBreak then
    let operand ← assignmentValue g inAllowed
    return ← valueFrom .phrase start [operand]
  valueFrom .phrase start []

/-- Whether an asynchronous arrow function of one bare parameter begins at the cursor. -/
def atAsyncArrow : Parser Bool := do
  unless (← peek).token = .name "async" do return false
  let (_, second, third) ← peekThree <|> do
    let none : Lexeme := ⟨.finish, 0, 0, false⟩
    return (none, none, none)
  return isIdentifier second.token && !second.afterBreak && third.token = .mark "=>"

/-- An operator that assigns the value of another operator. -/
def isUpdateOperator : Token → Bool
  | .mark text =>
    ["+=", "-=", "*=", "/=", "%=", "**=", "<<=", ">>=", ">>>=", "&=", "|=", "^=", "&&=", "||=",
      "??="].contains text
  | _ => false

/-- An operator that assigns only as the value of its left side decides. -/
def isLogicalUpdate : Token → Bool
  | .mark text => ["&&=", "||=", "??="].contains text
  | _ => false

/-- An expression without comma, or what may still become one. -/
def assignment (g : Grammar) (inAllowed : Bool) : Parser Phrase := do
  let first ← peek
  if first.token = .name "yield" then return ← yieldExpression g inAllowed
  if ← atAsyncArrow then
    moveTo first.stop
    return ← arrowFrom g inAllowed first.start [← identifier]
  let left ← conditional g inAllowed
  let lexeme ← peek
  let reading := left.reading
  if let .mark "=>" := lexeme.token then
    if let some parameters := reading.parameters then
      if lexeme.afterBreak then failure
      return ← arrowFrom g inAllowed first.start parameters
  if lexeme.token = .mark "=" && reading.target then
    moveTo lexeme.stop
    let right ← assignmentValue g inAllowed
    let node ← nodeFrom .initialized first.start [left.node, right]
    return ⟨node, { elementTarget := reading.target, elementBinding := reading.binding }⟩
  if isUpdateOperator lexeme.token && reading.simple then
    moveTo lexeme.stop
    let right ← assignmentValue g inAllowed
    let kind := if isLogicalUpdate lexeme.token then .feature .logicalAssignment else .phrase
    return ← valueFrom kind first.start [left.node, right]
  return left

end ReleasePrompts.Script
