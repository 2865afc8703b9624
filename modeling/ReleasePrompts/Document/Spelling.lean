import ReleasePrompts.Document.Writer
import ReleasePrompts.Text.Quoted

/-!
# Values in messages

How a message shows a value: strings between quotes that fit them, the names of the constants with a
capital, and the kind of a value by a short name.
-/

namespace ReleasePrompts.Document

open Text Number

/-- The name of the kind of a value. -/
def Value.kindName : Value → String
  | .null => "NoneType"
  | .bool _ => "bool"
  | .int _ => "int"
  | .real _ => "float"
  | .string _ => "str"
  | .list _ => "list"
  | .object _ => "dict"

mutual

/-- A value as a message shows it. -/
def Value.shown : Value → List Char
  | .null => "None".toList
  | .bool b => (if b then "True" else "False").toList
  | .int n => writeInt n
  | .real x => Layout.documentNumber.text x
  | .string s => quoted s.toList
  | .list items => '[' :: (shownItems items ++ [']'])
  | .object members => '\x7b' :: (shownMembers members ++ ['\x7d'])

/-- The items of a list as a message shows them. -/
def shownItems : List Value → List Char
  | [] => []
  | [item] => item.shown
  | item :: items => item.shown ++ ',' :: ' ' :: shownItems items

/-- The members of an object as a message shows them. -/
def shownMembers : List (String × Value) → List Char
  | [] => []
  | [(name, value)] => quoted name.toList ++ ':' :: ' ' :: value.shown
  | (name, value) :: members =>
    quoted name.toList ++ ':' :: ' ' :: value.shown ++ ',' :: ' ' :: shownMembers members

end

end ReleasePrompts.Document
