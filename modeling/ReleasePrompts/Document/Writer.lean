import ReleasePrompts.Document.Value
import ReleasePrompts.Text.Digit
import ReleasePrompts.Text.Surrogate

/-!
# Writing documents

`Value.write` prints a document on one line. A `Style` gives the separators and says whether
characters beyond ASCII are written as they are or by their units of UTF-16.
-/

namespace ReleasePrompts.Document

open Text Number

/-- How documents are printed. -/
structure Style where
  itemSeparator : List Char
  memberSeparator : List Char
  asciiOnly : Bool

/-- Log lines: blanks behind the separators, and ASCII alone. -/
def Style.log : Style := ⟨[',', ' '], [':', ' '], true⟩

/-- No blanks, and every character as it is. -/
def Style.compact : Style := ⟨[','], [':'], false⟩

/-- The escape of a code unit. -/
def unitEscape (unit : Nat) : List Char := '\\' :: 'u' :: hexDigits 4 unit

/-- A character of a string. -/
def writeChar (style : Style) (c : Char) : List Char :=
  if c = '"' ∨ c = '\\' then ['\\', c]
  else if c = '\n' then ['\\', 'n']
  else if c = '\r' then ['\\', 'r']
  else if c = '\t' then ['\\', 't']
  else if c = '\x08' then ['\\', 'b']
  else if c = '\x0c' then ['\\', 'f']
  else if c.toNat < 32 then unitEscape c.toNat
  else if style.asciiOnly && 126 < c.toNat then (units16 c).flatMap unitEscape
  else [c]

/-- A string between quotes. -/
def writeString (style : Style) (s : String) : List Char :=
  '"' :: (s.toList.flatMap (writeChar style) ++ ['"'])

/-- An integer in decimal. -/
def writeInt (n : Int) : List Char :=
  (if n < 0 then ['-'] else []) ++ Nat.toDigits 10 n.natAbs

mutual

/-- The text of a document. -/
def Value.write (style : Style) : Value → List Char
  | .null => "null".toList
  | .bool b => (if b then "true" else "false").toList
  | .int n => writeInt n
  | .real x => Layout.documentNumberInFull.text x
  | .string s => writeString style s
  | .list items => '[' :: (writeItems style items ++ [']'])
  | .object members => '\x7b' :: (writeMembers style members ++ ['\x7d'])

/-- The items of a list, with separators between them. -/
def writeItems (style : Style) : List Value → List Char
  | [] => []
  | [item] => item.write style
  | item :: items => item.write style ++ style.itemSeparator ++ writeItems style items

/-- The members of an object, with separators between them. -/
def writeMembers (style : Style) : List (String × Value) → List Char
  | [] => []
  | [(name, value)] => writeString style name ++ style.memberSeparator ++ value.write style
  | (name, value) :: members =>
    writeString style name ++ style.memberSeparator ++ value.write style ++ style.itemSeparator ++
      writeMembers style members

end

end ReleasePrompts.Document
