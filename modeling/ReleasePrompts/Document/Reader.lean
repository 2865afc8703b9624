import ReleasePrompts.Document.Value
import ReleasePrompts.Number.Numeral
import ReleasePrompts.Text.Surrogate

/-!
# Reading documents

`Value.read` reads JSON text. Besides the numbers of JSON it knows `NaN`, `Infinity` and
`-Infinity`. A failure (`ReadFault`) names what was expected and where, counted in characters from
the start; its message adds line and column.
-/

namespace ReleasePrompts.Document

open Text Number

/-- What is wrong with a text that is no document. -/
inductive ReadCause where
  | expectedValue
  | expectedName
  | expectedColon
  | expectedComma
  | extraData
  | unterminatedString
  | controlCharacter
  | badEscape
  | badUnicodeEscape
  deriving DecidableEq, Repr

/-- The wording of a cause. -/
def ReadCause.text : ReadCause → String
  | expectedValue => "Expecting value"
  | expectedName => "Expecting property name enclosed in double quotes"
  | expectedColon => "Expecting ':' delimiter"
  | expectedComma => "Expecting ',' delimiter"
  | extraData => "Extra data"
  | unterminatedString => "Unterminated string starting at"
  | controlCharacter => "Invalid control character at"
  | badEscape => "Invalid \\escape"
  | badUnicodeEscape => "Invalid \\uXXXX escape"

/-- Why a text is not read: a cause and the place it was met at, or an integer beyond the limit. -/
inductive ReadFault where
  | at (cause : ReadCause) (place : Nat)
  | tooManyDigits (count : Nat)
  deriving DecidableEq, Repr

/-- The line of a place in a text, counted from one. -/
def lineOf (text : List Char) (place : Nat) : Nat := (text.take place).count '\n' + 1

/-- The column of a place in a text, counted from one. -/
def columnOf (text : List Char) (place : Nat) : Nat :=
  ((text.take place).reverse.takeWhile (· != '\n')).length + 1

/-- The message of a fault met in a text. -/
def ReadFault.message (text : List Char) : ReadFault → String
  | .at cause place =>
    s!"{cause.text}: line {lineOf text place} column {columnOf text place} (char {place})"
  | .tooManyDigits count => tooManyDigitsMessage count

/-- A fault inside a text, which counts the characters that are left there. -/
inductive Stop where
  | at (cause : ReadCause) (left : Nat)
  | tooManyDigits (count : Nat)

/-- White space of a document. -/
def isSpace (c : Char) : Bool := c == ' ' || c == '\t' || c == '\n' || c == '\r'

/-- A text without the white space it begins with. -/
def skipSpace (cs : List Char) : List Char := cs.dropWhile isSpace

/-- The character that a letter behind a backslash names. -/
def simpleEscape? : Char → Option Char
  | '"' => some '"'
  | '\\' => some '\\'
  | '/' => some '/'
  | 'b' => some '\x08'
  | 'f' => some '\x0c'
  | 'n' => some '\n'
  | 'r' => some '\r'
  | 't' => some '\t'
  | _ => none

/-- The code unit that four hexadecimal digits spell, and what follows them, of which there has to
be something. -/
def readUnit? (cs : List Char) : Option (Nat × List Char) :=
  let digits := cs.take 4
  let rest := cs.drop 4
  if digits.length == 4 && digits.all isHexDigit && !rest.isEmpty then
    some (readDigits 16 digits, rest)
  else none

/-- The rest of a string behind its opening quote, as code points still apart, and what follows the
closing quote. `opened` is the number of characters left at the opening quote. -/
def readStringUnits (opened : Nat) (read : List Nat) (cs : List Char) :
    Except Stop (List Nat × List Char) :=
  match cs with
  | [] => .error (.at .unterminatedString opened)
  | '"' :: rest => .ok (read.reverse, rest)
  | '\\' :: [] => .error (.at .unterminatedString opened)
  | '\\' :: 'u' :: rest =>
    match h : readUnit? rest with
    | none => .error (.at .badUnicodeEscape (rest.length + 1))
    | some (unit, rest') =>
      have : rest'.length ≤ rest.length := by
        simp only [readUnit?] at h
        split at h
        · cases h; simp
        · cases h
      readStringUnits opened (unit :: read) rest'
  | '\\' :: c :: rest =>
    match simpleEscape? c with
    | none => .error (.at .badEscape (rest.length + 2))
    | some char => readStringUnits opened (char.toNat :: read) rest
  | c :: rest =>
    if c.toNat < 32 then .error (.at .controlCharacter (rest.length + 1))
    else readStringUnits opened (c.toNat :: read) rest
termination_by cs.length
decreasing_by all_goals (simp only [List.length_cons]; omega)

/-- A string behind its opening quote. -/
def readString (cs : List Char) : Except Stop (String × List Char) := do
  let (units, rest) ← readStringUnits (cs.length + 1) [] cs
  return (String.ofList (joinSurrogates units), rest)

/-- The parts of a number: its sign, its integer digits, its fraction, its exponent, and what
follows. A point or an exponent without digits does not belong to it. -/
structure NumberParts where
  negative : Bool
  whole : List Char
  fraction : List Char
  exponent : Option Int
  rest : List Char

/-- The exponent of a number, where there is one, and what follows. -/
def splitExponent (cs : List Char) : Option Int × List Char :=
  match cs with
  | [] => (none, cs)
  | c :: signed =>
    let (negative, unsigned) := splitSign signed
    let digits := unsigned.takeWhile Char.isDigit
    if (c == 'e' || c == 'E') && !digits.isEmpty then
      let value : Int := readDecimalDigits digits
      (some (if negative then -value else value), unsigned.drop digits.length)
    else (none, cs)

/-- Splits a number off a text. -/
def numberParts? (cs : List Char) : Option NumberParts :=
  let (negative, unsigned) := match cs with
    | '-' :: rest => (true, rest)
    | rest => (false, rest)
  let whole := match unsigned with
    | '0' :: _ => ['0']
    | digits => digits.takeWhile Char.isDigit
  if whole.isEmpty then none
  else
    let afterWhole := unsigned.drop whole.length
    let fraction := match afterWhole with
      | '.' :: rest => rest.takeWhile Char.isDigit
      | _ => []
    let afterFraction :=
      if fraction.isEmpty then afterWhole else afterWhole.drop (fraction.length + 1)
    let (exponent, rest) := splitExponent afterFraction
    some ⟨negative, whole, fraction, exponent, rest⟩

/-- The value of a number. -/
def NumberParts.value (parts : NumberParts) : Except Stop Value :=
  if parts.fraction.isEmpty && parts.exponent.isNone then
    if digitLimit < parts.whole.length then .error (.tooManyDigits parts.whole.length)
    else
      let n : Int := readDecimalDigits parts.whole
      .ok (.int (if parts.negative then -n else n))
  else
    let digits := readDecimalDigits (parts.whole ++ parts.fraction)
    let exponent := parts.exponent.getD 0 - parts.fraction.length
    .ok (.real ⟨parts.negative, Binary64.magnitudeOfDecimal digits exponent⟩)

/-- The values that are written as a word. -/
def wordValues : List (List Char × Value) :=
  [("null".toList, .null), ("true".toList, .bool true), ("false".toList, .bool false),
    ("NaN".toList, .real ⟨false, Binary64.invalid⟩),
    ("Infinity".toList, .real ⟨false, Binary64.infinite⟩),
    ("-Infinity".toList, .real ⟨true, Binary64.infinite⟩)]

/-- A value that is a word or a number. -/
def readAtom (cs : List Char) : Except Stop (Value × List Char) :=
  match wordValues.find? fun word => word.1.isPrefixOf cs with
  | some (word, value) => .ok (value, cs.drop word.length)
  | none =>
    match numberParts? cs with
    | some parts => parts.value.map (·, parts.rest)
    | none => .error (.at .expectedValue cs.length)

mutual

/-- A value, at most `depth` deep. -/
def readValue (depth : Nat) (cs : List Char) : Except Stop (Value × List Char) :=
  match depth with
  | 0 => .error (.at .expectedValue cs.length)
  | depth + 1 =>
    match cs with
    | '"' :: rest => (readString rest).map fun (s, rest) => (.string s, rest)
    | '[' :: rest =>
      match skipSpace rest with
      | ']' :: rest => .ok (.list [], rest)
      | rest => readItems depth [] rest
    | '{' :: rest =>
      match skipSpace rest with
      | '}' :: rest => .ok (.object [], rest)
      | rest => readMembers depth [] rest
    | cs => readAtom cs

/-- The items of a list from one of them on, behind those read before, which stand in reverse. -/
def readItems (depth : Nat) (read : List Value) (cs : List Char) :
    Except Stop (Value × List Char) :=
  match depth with
  | 0 => .error (.at .expectedValue cs.length)
  | depth + 1 =>
    match readValue depth cs with
    | .error stop => .error stop
    | .ok (item, rest) =>
      match skipSpace rest with
      | ']' :: rest => .ok (.list (item :: read).reverse, rest)
      | ',' :: rest => readItems depth (item :: read) (skipSpace rest)
      | rest => .error (.at .expectedComma rest.length)

/-- The members of an object from one of them on. -/
def readMembers (depth : Nat) (read : List (String × Value)) (cs : List Char) :
    Except Stop (Value × List Char) :=
  match depth with
  | 0 => .error (.at .expectedValue cs.length)
  | depth + 1 =>
    match cs with
    | '"' :: rest =>
      match readString rest with
      | .error stop => .error stop
      | .ok (name, rest) =>
        match skipSpace rest with
        | ':' :: rest =>
          match readValue depth (skipSpace rest) with
          | .error stop => .error stop
          | .ok (value, rest) =>
            match skipSpace rest with
            | '}' :: rest => .ok (.object (Pairs.put read name value), rest)
            | ',' :: rest => readMembers depth (Pairs.put read name value) (skipSpace rest)
            | rest => .error (.at .expectedComma rest.length)
        | rest => .error (.at .expectedColon rest.length)
    | rest => .error (.at .expectedName rest.length)

end

/-- Reads a document. Every level of nesting and every item takes a character at least, so the depth
given is enough. -/
def Value.read (text : List Char) : Except ReadFault Value :=
  let fault : Stop → ReadFault
    | .at cause left => .at cause (text.length - left)
    | .tooManyDigits count => .tooManyDigits count
  match readValue (2 * text.length + 2) (skipSpace text) with
  | .error stop => .error (fault stop)
  | .ok (value, rest) =>
    if (skipSpace rest).isEmpty then .ok value
    else .error (fault (.at .extraData (skipSpace rest).length))

end ReleasePrompts.Document
