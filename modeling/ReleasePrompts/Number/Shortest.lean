import ReleasePrompts.Number.Binary64

/-!
# Shortest decimals

The shortest decimal of a double has the fewest digits that read back as the same double, and is the
nearest of those to its value. On the grid of decimals with a given number of digits only the two
neighbours of the value can be nearest, so `shortest` tries these, grid by grid.
-/

namespace ReleasePrompts.Number

/-- The decimal `digits · 10 ^ exponent`. -/
structure Decimal where
  digits : Nat
  exponent : Int
  deriving DecidableEq, Repr

namespace Decimal

/-- The numerator of the decimal as a fraction. -/
def numerator (x : Decimal) : Nat := x.digits * Nat.pow 10 x.exponent.toNat

/-- The denominator of the decimal as a fraction. -/
def denominator (x : Decimal) : Nat := Nat.pow 10 (-x.exponent).toNat

/-- The same decimal without zeros at the end of its digits. -/
def stripped (x : Decimal) : Decimal :=
  if x.digits = 0 then ⟨0, 0⟩
  else if x.digits % 10 = 0 then stripped ⟨x.digits / 10, x.exponent + 1⟩
  else x
termination_by x.digits
decreasing_by omega

end Decimal

namespace Binary64

/-- The number of places before the point of a fraction: the least `k` with `n / d < 10 ^ k`. -/
def decimalOrder (n d : Nat) : Int :=
  if d ≤ n then (Nat.toDigits 10 (n / d)).length
  else
    let shift := (List.range 400).find? (fun k => decide (d ≤ n * Nat.pow 10 (k + 1)))
    Int.neg (shift.getD 400)

/-- The decimal of a grid that is nearest to the magnitude among those that read back as it. -/
def nearestOnGrid (magnitude : Nat) (exponent : Int) : Option Decimal :=
  let n := numerator magnitude * Nat.pow 10 (-exponent).toNat
  let d := denominator magnitude * Nat.pow 10 exponent.toNat
  let below := n / d
  let readsBack (digits : Nat) : Bool := magnitudeOfDecimal digits exponent == magnitude
  let nearest := divHalfEven n d
  let other := if nearest = below then below + 1 else below
  if readsBack nearest then some ⟨nearest, exponent⟩
  else if readsBack other then some ⟨other, exponent⟩
  else none

/-- The shortest decimal of a positive finite magnitude, without zeros at the end. -/
def shortest (magnitude : Nat) : Decimal :=
  let order := decimalOrder (numerator magnitude) (denominator magnitude)
  let grids := (List.range 17).map fun count => order - (count + 1 : Nat)
  ((grids.findSome? (nearestOnGrid magnitude)).getD ⟨0, 0⟩).stripped

end Binary64

end ReleasePrompts.Number
