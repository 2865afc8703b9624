import ReleasePrompts.Number.Shortest

/-!
# Layout of numbers

A double is written with its shortest digits, either plainly or with one digit before the point and
a power of ten. A `Layout` fixes where the one ends and the other begins and how the parts are
spelled; `scriptNumber` is the layout of numbers turned into text by a script, `documentNumber` the
one of numbers in documents and messages.
-/

namespace ReleasePrompts.Number

/-- How doubles are written. The point of a value `0.ddd · 10 ^ n` stands at `n`. -/
structure Layout where
  /-- Points above this one are written plainly, -/
  plainAbove : Int
  /-- up to this one. -/
  plainUpTo : Int
  /-- What follows an integer written plainly. -/
  wholeSuffix : List Char
  /-- The least number of digits of a power of ten. -/
  exponentWidth : Nat
  /-- Whether a negative zero keeps its sign. -/
  signedZero : Bool
  infinity : List Char
  notANumber : List Char

namespace Layout

/-- Plain from `1e-6` up to but not including `1e21`, no point after an integer, and zero without a
sign. -/
def scriptNumber : Layout where
  plainAbove := -6
  plainUpTo := 21
  wholeSuffix := []
  exponentWidth := 1
  signedZero := false
  infinity := "Infinity".toList
  notANumber := "NaN".toList

/-- Plain from `1e-4` up to but not including `1e16`, `.0` after an integer, and at least two digits
of a power of ten. -/
def documentNumber : Layout where
  plainAbove := -4
  plainUpTo := 16
  wholeSuffix := ['.', '0']
  exponentWidth := 2
  signedZero := true
  infinity := "inf".toList
  notANumber := "nan".toList

/-- Numbers of a document that spells the values beyond numbers in full. -/
def documentNumberInFull : Layout :=
  { documentNumber with infinity := "Infinity".toList, notANumber := "NaN".toList }

/-- A power of ten, with its sign and at least the layout's number of digits. -/
def exponentText (layout : Layout) (e : Int) : List Char :=
  let digits := Nat.toDigits 10 e.natAbs
  'e' :: (if 0 ≤ e then '+' else '-') ::
    (List.replicate (layout.exponentWidth - digits.length) '0' ++ digits)

/-- Digits with the point at `point`. -/
def digitsText (layout : Layout) (digits : List Char) (point : Int) : List Char :=
  let count : Int := digits.length
  if layout.plainAbove < point ∧ point ≤ layout.plainUpTo then
    if count ≤ point then
      digits ++ List.replicate (point - count).toNat '0' ++ layout.wholeSuffix
    else if 0 < point then digits.take point.toNat ++ '.' :: digits.drop point.toNat
    else '0' :: '.' :: (List.replicate (-point).toNat '0' ++ digits)
  else
    let mantissa := match digits with
      | first :: second :: rest => first :: '.' :: second :: rest
      | short => short
    mantissa ++ layout.exponentText (point - 1)

/-- A positive decimal without zeros at the end of its digits. -/
def decimalText (layout : Layout) (x : Decimal) : List Char :=
  let digits := Nat.toDigits 10 x.digits
  layout.digitsText digits (x.exponent + digits.length)

/-- The text of a double. -/
def text (layout : Layout) (x : Binary64) : List Char :=
  if x.isNaN then layout.notANumber
  else
    let sign := if x.negative then ['-'] else []
    if x.isInfinite then sign ++ layout.infinity
    else if x.isZero then (if layout.signedZero then sign else []) ++ '0' :: layout.wholeSuffix
    else sign ++ layout.decimalText (Binary64.shortest x.magnitude)

end Layout

end ReleasePrompts.Number
