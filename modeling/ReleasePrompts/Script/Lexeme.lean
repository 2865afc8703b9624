import ReleasePrompts.Literal.Escape
import ReleasePrompts.Text.Search

/-!
# Lexemes of scripts

The words, numbers, strings and marks that a script consists of, and what stands between them. A
`Cursor` is a place of a source and the text from there on; `Cursor.lexeme?` reads the lexeme behind
the blanks and comments at a place, and remembers whether a line ended among them. Template literals
and regular expressions are read by their own scanners, since only the grammar knows where one may
begin.
-/

namespace ReleasePrompts.Script

open Text Literal

/-- A place of a source, the text from there on, and the place behind the last character. -/
structure Cursor where
  place : Nat
  rest : List Char
  finish : Nat

/-- The first place of a source. -/
def Cursor.ofSource (source : List Char) : Cursor := ⟨0, source, source.length⟩

/-- The place `count` characters further on. -/
def Cursor.advance (cursor : Cursor) (count : Nat) : Cursor :=
  { cursor with place := cursor.place + count, rest := cursor.rest.drop count }

/-- The number of characters from the place on. -/
def Cursor.left (cursor : Cursor) : Nat := cursor.finish - cursor.place

/-- A character that may stand between lexemes. -/
def isFiller (c : Char) : Bool :=
  let n := c.toNat
  c == ' ' || (9 ≤ n && n ≤ 13) || n == 0xA0 || n == 0x1680 || (0x2000 ≤ n && n ≤ 0x200B) ||
    n == 0x2028 || n == 0x2029 || n == 0x202F || n == 0x205F || n == 0x2060 || n == 0x3000 ||
    n == 0xFEFF

/-- A mark of ASCII that belongs to no name. -/
def isMark (c : Char) : Bool :=
  [':', ';', '`', '"', '\'', '@', '#', '.', ',', '|', '^', '&', '<', '=', '>', '+', '-', '*', '/',
    '\\', '%', '?', '!', '~', '(', ')', '[', ']', '{', '}'].contains c

/-- A character that may continue a name. -/
def isNameChar (c : Char) : Bool := 32 ≤ c.toNat && !isFiller c && !isMark c

/-- What separates two lexemes: how long it is, whether a line ends in it, and where the comments in
it begin and end, counted from its own beginning. -/
structure Filler where
  length : Nat := 0
  breaksLine : Bool := false
  comments : List (Nat × Nat) := []

/-- A comment to the end of the line. -/
def lineComment (cs : List Char) : Nat := (cs.takeWhile (!isLineTerminator ·)).length

/-- The length of the comment that a text begins with, if it does. Where nothing but filler precedes
it on its line, an arrow of hyphens begins one too. -/
def commentLength? (onNewLine : Bool) : List Char → Option Nat
  | '/' :: '/' :: rest => some (lineComment rest + 2)
  | '/' :: '*' :: rest => (indexOf? ['*', '/'] rest).map (· + 4)
  | '<' :: '!' :: '-' :: '-' :: rest => some (lineComment rest + 4)
  | '-' :: '-' :: '>' :: rest => if onNewLine then some (lineComment rest + 3) else none
  | _ => none

/-- The filler that a text begins with. -/
def fillerFrom (filler : Filler) (onNewLine : Bool) (cs : List Char) : Filler :=
  match cs with
  | [] => filler
  | c :: rest =>
    if isFiller c then
      let broken := isLineTerminator c
      fillerFrom ⟨filler.length + 1, filler.breaksLine || broken, filler.comments⟩
        (onNewLine || broken) rest
    else
      match commentLength? onNewLine (c :: rest) with
      | none => filler
      | some length =>
        let broken := ((c :: rest).take length).any isLineTerminator
        let stop := filler.length + length
        fillerFrom ⟨stop, filler.breaksLine || broken, filler.comments ++ [(filler.length, stop)]⟩
          (onNewLine || broken) (rest.drop (length - 1))
termination_by cs.length
decreasing_by
  all_goals simp only [List.length_cons, List.length_drop]
  all_goals omega

/-- A lexeme without its place. -/
inductive Token where
  | finish
  /-- A name or a word of the language, as it is spelled. -/
  | name (text : String)
  | privateName
  | number
  | string
  | backtick
  | mark (text : String)
  deriving DecidableEq, Repr

/-- A lexeme. -/
structure Lexeme where
  token : Token
  start : Nat
  stop : Nat
  afterBreak : Bool

/-- The length of a valid escape behind a backslash. -/
def escapeLength? : List Char → Option Nat
  | [] => none
  | 'u' :: '{' :: rest =>
    let digits := rest.takeWhile isHexDigit
    if !digits.isEmpty && (rest.drop digits.length).head? == some '}' then
      some (digits.length + 3)
    else none
  | 'u' :: rest =>
    let digits := rest.take 4
    if digits.length == 4 && digits.all isHexDigit then some 5 else none
  | 'x' :: rest =>
    let digits := rest.take 2
    if digits.length == 2 && digits.all isHexDigit then some 3 else none
  | '\r' :: '\n' :: _ => some 2
  | _ :: _ => some 1

/-- The length of a string behind its opening quote, with the closing one. -/
def stringLength? (quote : Char) (cs : List Char) : Option Nat :=
  match cs with
  | [] => none
  | '\\' :: rest =>
    match escapeLength? rest with
    | none => none
    | some length => (stringLength? quote (rest.drop length)).map (· + length + 1)
  | c :: rest =>
    if c = quote then some 1
    else if c = '\n' ∨ c = '\r' then none
    else (stringLength? quote rest).map (· + 1)
termination_by cs.length
decreasing_by
  all_goals simp only [List.length_cons, List.length_drop]
  all_goals omega

/-- The length of the name that a text begins with; a name may hold escapes of code points. -/
def nameLength (cs : List Char) : Nat :=
  match cs with
  | '\\' :: 'u' :: rest =>
    match escapeLength? ('u' :: rest) with
    | some length => nameLength (rest.drop (length - 1)) + length + 1
    | none => 0
  | c :: rest => if isNameChar c then nameLength rest + 1 else 0
  | [] => 0
termination_by cs.length
decreasing_by
  all_goals simp only [List.length_cons, List.length_drop]
  all_goals omega

/-- The length of a run of digits with single underscores between them. -/
def digitRunLength (isDigit : Char → Bool) : List Char → Nat
  | [] => 0
  | [c] => if isDigit c then 1 else 0
  | c :: '_' :: d :: rest =>
    if !isDigit c then 0
    else if isDigit d then digitRunLength isDigit (d :: rest) + 2
    else 1
  | c :: rest => if isDigit c then digitRunLength isDigit rest + 1 else 0

/-- A decimal digit of ASCII. -/
def isDecimalDigit (c : Char) : Bool := c.isDigit

/-- A binary digit. -/
def isBinaryDigit (c : Char) : Bool := c == '0' || c == '1'

/-- The length of a power of ten, or zero where there is none. -/
def exponentLength : List Char → Nat
  | [] => 0
  | c :: rest =>
    if c != 'e' && c != 'E' then 0
    else
      let sign := match rest with
        | '+' :: _ => 1
        | '-' :: _ => 1
        | _ => 0
      let digits := digitRunLength isDecimalDigit (rest.drop sign)
      if digits = 0 then 0 else digits + sign + 1

/-- The length of digits of a base behind its two-letter mark, and of the `n` of a large integer. -/
def basedLength (isDigit : Char → Bool) (rest : List Char) : Nat :=
  let digits := digitRunLength isDigit rest
  if digits = 0 then 1
  else digits + 2 + (if (rest.drop digits).head? == some 'n' then 1 else 0)

/-- Whether integer digits may be followed by a point: one zero at most leads them. -/
def takesPoint : List Char → Bool
  | ['0'] => true
  | '0' :: c :: _ => c != '0' && c != '_'
  | _ => true

/-- The length of a decimal number that begins with a digit. -/
def decimalLength (cs : List Char) : Nat :=
  let whole := digitRunLength isDecimalDigit cs
  match cs.drop whole with
  | 'n' :: _ => whole + 1
  | '.' :: rest =>
    if takesPoint (cs.take whole) then
      let fraction := digitRunLength isDecimalDigit rest
      whole + 1 + fraction + exponentLength (rest.drop fraction)
    else whole
  | rest => whole + exponentLength rest

/-- The length of the number that a text begins with. No name may follow it directly. -/
def numberLength? (cs : List Char) : Option Nat :=
  let length := match cs with
    | '0' :: 'x' :: rest => basedLength isHexDigit rest
    | '0' :: 'X' :: rest => basedLength isHexDigit rest
    | '0' :: 'o' :: rest => basedLength isOctalDigit rest
    | '0' :: 'O' :: rest => basedLength isOctalDigit rest
    | '0' :: 'b' :: rest => basedLength isBinaryDigit rest
    | '0' :: 'B' :: rest => basedLength isBinaryDigit rest
    | '.' :: rest =>
      let fraction := digitRunLength isDecimalDigit rest
      fraction + 1 + exponentLength (rest.drop fraction)
    | _ => decimalLength cs
  match cs.drop length with
  | [] => some length
  | c :: _ => if isNameChar c || c == '\\' then none else some length

/-- The marks of more than one character, longer ones before their beginnings. -/
def longMarks : List (List Char) :=
  [">>>=", "...", "===", "!==", "**=", "<<=", ">>=", ">>>", "&&=", "||=", "??=", "=>", "==", "!=",
    "<=", ">=", "&&", "||", "??", "?.", "++", "--", "+=", "-=", "*=", "/=", "%=", "&=", "|=", "^=",
    "<<", ">>", "**"].map String.toList

/-- The mark that a text begins with. A question mark and a decimal fraction are two lexemes. -/
def readMark : List Char → Option (List Char)
  | [] => none
  | '?' :: '.' :: d :: rest =>
    if d.isDigit then some ['?']
    else longMarks.find? (·.isPrefixOf ('?' :: '.' :: d :: rest))
  | c :: rest =>
    match longMarks.find? (·.isPrefixOf (c :: rest)) with
    | some mark => some mark
    | none => if isMark c && c != '\\' then some [c] else none

/-- The lexeme that a text begins with, and its length. -/
def readToken? : List Char → Option (Token × Nat)
  | [] => some (.finish, 0)
  | c :: rest =>
    if c == '\'' || c == '"' then (stringLength? c rest).map fun length => (.string, length + 1)
    else if c == '`' then some (.backtick, 1)
    else if c.isDigit || (c == '.' && (rest.head?.map Char.isDigit).getD false) then
      (numberLength? (c :: rest)).map (.number, ·)
    else if c == '#' then
      let length := nameLength rest
      if length = 0 || (rest.head?.map Char.isDigit).getD false then none
      else some (.privateName, length + 1)
    else
      let length := nameLength (c :: rest)
      if length ≠ 0 then
        some (.name (String.ofList ((c :: rest).take length)), length)
      else (readMark (c :: rest)).map fun mark => (.mark (String.ofList mark), mark.length)

/-- The filler at a place. -/
def Cursor.filler (cursor : Cursor) : Filler := fillerFrom {} (cursor.place == 0) cursor.rest

/-- The lexeme behind the filler at a place. -/
def Cursor.lexeme? (cursor : Cursor) : Option Lexeme :=
  let filler := cursor.filler
  let start := cursor.place + filler.length
  (readToken? (cursor.rest.drop filler.length)).map fun (token, length) =>
    ⟨token, start, start + length, filler.breaksLine⟩

/-- The length of the body of a regular expression behind its opening slash, with the closing one.
Inside brackets a slash does not close it. -/
def regexLength? (inClass : Bool) : List Char → Option Nat
  | [] => none
  | '\\' :: c :: rest =>
    if isLineTerminator c then none else (regexLength? inClass rest).map (· + 2)
  | c :: rest =>
    if isLineTerminator c || c == '\\' then none
    else if c == '/' && !inClass then some 1
    else (regexLength? ((inClass || c == '[') && c != ']') rest).map (· + 1)

/-- The words of the language that are no names. -/
def reservedWords : List String :=
  ["break", "case", "catch", "class", "const", "continue", "debugger", "default", "delete", "do",
    "else", "export", "extends", "false", "finally", "for", "function", "if", "import", "in",
    "instanceof", "new", "null", "return", "super", "switch", "this", "throw", "true", "try",
    "typeof", "var", "void", "while", "with"]

/-- Whether a spelling is that of a name. -/
def isIdentifierName (text : String) : Bool := !reservedWords.contains text

end ReleasePrompts.Script
