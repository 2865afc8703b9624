import ReleasePrompts.Number.Layout
import ReleasePrompts.Pairs

/-!
# Documents

A document is a JSON value whose objects keep the order of their members. A name that a text repeats
keeps its first place and takes its last value.
-/

namespace ReleasePrompts.Document

open Number

/-- A JSON value. An integer is kept as one, however large. -/
inductive Value where
  | null
  | bool (b : Bool)
  | int (n : Int)
  | real (x : Binary64)
  | string (s : String)
  | list (items : List Value)
  | object (members : List (String × Value))
  deriving Inhabited

namespace Value

/-- The member of an object with a given name. -/
def member? (name : String) : Value → Option Value
  | object members => Pairs.get? members name
  | _ => none

/-- The members of an object. -/
def members? : Value → Option (List (String × Value))
  | object members => some members
  | _ => none

/-- The text of a string. -/
def string? : Value → Option String
  | string s => some s
  | _ => none

/-- Whether a value is neither null, false, zero nor empty. -/
def isTruthy : Value → Bool
  | null => false
  | bool b => b
  | int n => n != 0
  | real x => !x.isZero
  | string s => !s.isEmpty
  | list items => !items.isEmpty
  | object members => !members.isEmpty

/-- A string, or null where there is none. -/
def ofString? : Option String → Value
  | none => null
  | some s => string s

/-- A number, or null where there is none. -/
def ofNat? : Option Nat → Value
  | none => null
  | some n => int n

end Value

end ReleasePrompts.Document
