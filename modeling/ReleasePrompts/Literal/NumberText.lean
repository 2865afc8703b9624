import ReleasePrompts.Number.Layout
import ReleasePrompts.Number.Numeral

/-!
# Numbers as text

`numberText?` turns the raw text of a number literal into the text a script would print for its
value. A literal that ends in `n` is an integer of any size and keeps every digit; every other is a
double.
-/

namespace ReleasePrompts.Literal

open Number Text

/-- The text of the double nearest to an integer. -/
def doubleText (n : Int) : List Char := Layout.scriptNumber.text (Binary64.ofInt n)

/-- Whether a literal in lower case begins with the prefix of a base. -/
def hasBasePrefix : List Char → Bool
  | '0' :: letter :: _ => (baseOfLetter? letter).isSome
  | _ => false

/-- Whether a literal has more than one digit, a zero first and nothing but digits. -/
def isZeroLed (cs : List Char) : Bool :=
  1 < cs.length && cs.head? == some '0' && cs.all fun c => (digitValue? c).isSome

/-- The text of the value of a number literal, where it is one. Separators between digits do not
count. Digits behind a leading zero are octal unless one of them cannot be. -/
def numberText? (raw : List Char) : Option (List Char) :=
  let spelled := raw.filter (· != '_')
  let lowered := spelled.map Char.toLower
  if lowered.getLast? == some 'n' then
    (readInteger .written lowered.dropLast).toOption.bind integerText?
  else if hasBasePrefix lowered then
    (readInteger .written lowered).toOption.map doubleText
  else if isZeroLed spelled then
    let base := if spelled.all isOctalDigit then 8 else 10
    (readInteger (.given base) spelled).toOption.map doubleText
  else (readReal? spelled).map Layout.scriptNumber.text

end ReleasePrompts.Literal
