import ReleasePrompts.Number.Numeral

/-!
# The order of versions

A plain version consists of three decimal numbers with points between them. Two plain versions
compare as triples of numbers. As soon as one of two versions is not plain, both compare as strings,
by code point. A number of more than `digitLimit` digits is not read, so such a version has no order
among plain ones.
-/

namespace ReleasePrompts.Release

open Text Number

/-- A number with more digits than are read. -/
structure ExcessDigits where
  count : Nat
  deriving DecidableEq, Repr

/-- Whether a character is a decimal digit of some script. -/
def isDecimalDigit (c : Char) : Bool := (digitValue? c).isSome

/-- The digits a text begins with, of which there has to be one, and what follows them. -/
def takeDigits? (cs : List Char) : Option (List Char × List Char) :=
  let digits := cs.takeWhile isDecimalDigit
  if digits.isEmpty then none else some (digits, cs.dropWhile isDecimalDigit)

/-- The numbers of a plain version, still as digits. One line feed may end the version. -/
def plainParts? (version : String) : Option (List (List Char)) := do
  let (major, rest) ← takeDigits? version.toList
  let '.' :: rest := rest | none
  let (minor, rest) ← takeDigits? rest
  let '.' :: rest := rest | none
  let (patch, rest) ← takeDigits? rest
  if rest.isEmpty || rest == ['\n'] then some [major, minor, patch] else none

/-- The number that digits spell. -/
def readNumber (digits : List Char) : Except ExcessDigits Nat :=
  if digitLimit < digits.length then .error ⟨digits.length⟩
  else .ok (ofDigits 10 (digits.filterMap digitValue?))

/-- The order of two lists of numbers, by the first place at which they differ. -/
def compareNumbers : List Nat → List Nat → Ordering
  | [], [] => .eq
  | [], _ :: _ => .lt
  | _ :: _, [] => .gt
  | a :: as, b :: bs => (compare a b).then (compareNumbers as bs)

/-- The order of two strings, by the first code point at which they differ. -/
def compareText (a b : String) : Ordering :=
  if a < b then .lt else if b < a then .gt else .eq

/-- The order of two versions. -/
def compareVersions (a b : String) : Except ExcessDigits Ordering :=
  match plainParts? a, plainParts? b with
  | some as, some bs => do return compareNumbers (← as.mapM readNumber) (← bs.mapM readNumber)
  | _, _ => .ok (compareText a b)

end ReleasePrompts.Release
