import ReleasePrompts.Text.Digit
import ReleasePrompts.Text.Surrogate

/-!
# Escapes

`cook` gives the text that the raw body of a string or template literal stands for. Each backslash
begins an escape: one character, a line continuation, up to three octal digits, or a code point in
hexadecimal (`escape`). Surrogates that escapes name are joined afterwards. In the other direction
`escapeTemplate` writes a text so that it stands for itself inside a template literal.
-/

namespace ReleasePrompts.Literal

open Text

/-- The character that a single letter behind a backslash names. -/
def letterEscape? : Char → Option Char
  | 'n' => some '\n'
  | 't' => some '\t'
  | 'r' => some '\r'
  | 'b' => some '\x08'
  | 'f' => some '\x0c'
  | 'v' => some '\x0b'
  | _ => none

/-- A character that ends a line of a script. -/
def isLineTerminator (c : Char) : Bool :=
  c == '\n' || c == '\r' || c == '\u2028' || c == '\u2029'

/-- The code point that hexadecimal digits in braces name; beyond Unicode, the replacement. -/
def bracedCodePoint (digits : List Char) : Nat :=
  let value := readDigits 16 digits
  if value ≤ 0x10FFFF then value else replacement.toNat

/-- The one character behind a backslash, where it begins no longer escape. -/
def singleEscape (c : Char) : List Nat :=
  if isLineTerminator c then [] else [((letterEscape? c).getD c).toNat]

/-- The code points of the escape behind a backslash, and how many characters it takes. -/
def escape : List Char → List Nat × Nat
  | [] => ([], 0)
  | 'u' :: '{' :: rest =>
    let digits := rest.takeWhile isHexDigit
    if !digits.isEmpty && (rest.drop digits.length).head? == some '}' then
      ([bracedCodePoint digits], digits.length + 3)
    else (singleEscape 'u', 1)
  | 'u' :: rest =>
    let digits := rest.take 4
    if digits.length == 4 && digits.all isHexDigit then ([readDigits 16 digits], 5)
    else (singleEscape 'u', 1)
  | 'x' :: rest =>
    let digits := rest.take 2
    if digits.length == 2 && digits.all isHexDigit then ([readDigits 16 digits], 3)
    else (singleEscape 'x', 1)
  | '\r' :: '\n' :: _ => ([], 2)
  | c :: rest =>
    if isOctalDigit c then
      let digits := (c :: rest.take 2).takeWhile isOctalDigit
      ([readDigits 8 digits], digits.length)
    else (singleEscape c, 1)

/-- The code points that a raw body stands for, surrogates still apart. A backslash at the end
stands for itself. -/
def cookUnits : List Char → List Nat
  | [] => []
  | '\\' :: c :: rest =>
    (escape (c :: rest)).1 ++ cookUnits (rest.drop ((escape (c :: rest)).2 - 1))
  | c :: rest => c.toNat :: cookUnits rest
termination_by raw => raw.length
decreasing_by
  all_goals simp only [List.length_cons, List.length_drop]
  all_goals omega

/-- The text that the raw body of a literal stands for. -/
def cook (raw : List Char) : List Char := joinSurrogates (cookUnits raw)

/-- Line breaks as template literals read them: a carriage return, with or without a line feed
behind it, is a line feed. -/
def normalizeBreaks : List Char → List Char
  | [] => []
  | '\r' :: '\n' :: rest => '\n' :: normalizeBreaks rest
  | c :: rest => (if c = '\r' then '\n' else c) :: normalizeBreaks rest

/-- A text as it is written inside a template literal: a backslash before each backslash, each
backtick and each dollar sign that would open a substitution. -/
def escapeTemplate : List Char → List Char
  | [] => []
  | c :: rest =>
    if c = '\\' ∨ c = '`' ∨ (c = '$' ∧ rest.head? = some '{') then
      '\\' :: c :: escapeTemplate rest
    else c :: escapeTemplate rest

end ReleasePrompts.Literal
