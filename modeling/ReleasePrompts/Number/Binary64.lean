/-!
# Doubles

A double of IEEE 754 is a sign and a magnitude, the number that its other sixty-three bits spell.
Magnitudes are ordered as the values they stand for, so rounding (`magnitudeOfRatio`) may carry from
one power of two into the next, and from the largest finite value into infinity. All arithmetic is
exact: a finite magnitude is the fraction `numerator / denominator`.
-/

namespace ReleasePrompts.Number

/-- The quotient of two numbers to the nearest integer, a half to the even one. -/
def divHalfEven (n d : Nat) : Nat :=
  if 2 * (n % d) < d then n / d
  else if d < 2 * (n % d) then n / d + 1
  else if n / d % 2 = 0 then n / d
  else n / d + 1

/-- A double. -/
structure Binary64 where
  negative : Bool
  magnitude : Nat
  deriving DecidableEq, Repr

namespace Binary64

/-- The number of magnitudes from one power of two to the next, two to the fifty-second. -/
def stride : Nat := 0x10000000000000

/-- The bit of the sign. -/
def signBit : Nat := 0x8000000000000000

/-- The magnitude of infinity; what lies above is no number. -/
def infinite : Nat := 0x7FF * stride

/-- The magnitude that stands for no number where one has to be chosen. -/
def invalid : Nat := infinite + stride / 2

/-- The double of sixty-four bits. -/
def ofBits (bits : Nat) : Binary64 := ⟨bits / signBit % 2 == 1, bits % signBit⟩

/-- No number. -/
def isNaN (x : Binary64) : Bool := infinite < x.magnitude

/-- Infinity of either sign. -/
def isInfinite (x : Binary64) : Bool := x.magnitude == infinite

/-- Zero of either sign. -/
def isZero (x : Binary64) : Bool := x.magnitude == 0

/-- The exponent field, at least one: the value is `significand · 2 ^ (scale - 1075)`. -/
def scale (magnitude : Nat) : Nat := max (magnitude / stride) 1

/-- The significand, with its leading bit unless the value is subnormal. -/
def significand (magnitude : Nat) : Nat :=
  if magnitude / stride = 0 then magnitude else stride + magnitude % stride

/-- The numerator of a finite magnitude. -/
def numerator (magnitude : Nat) : Nat := significand magnitude * Nat.pow 2 (scale magnitude - 1075)

/-- The denominator of a finite magnitude. -/
def denominator (magnitude : Nat) : Nat := Nat.pow 2 (1075 - scale magnitude)

/-- The power of two at or below a positive fraction. -/
def binaryOrder (n d : Nat) : Int :=
  let guess : Int := (n.log2 : Int) - (d.log2 : Int)
  let reached : Bool :=
    if 0 ≤ guess then decide (d * Nat.pow 2 guess.toNat ≤ n)
    else decide (d ≤ n * Nat.pow 2 (-guess).toNat)
  if reached then guess else guess - 1

/-- The magnitude nearest to the fraction `n / d`, a half to the even one. -/
def magnitudeOfRatio (n d : Nat) : Nat :=
  if n = 0 then 0
  else
    let unit : Int := max (binaryOrder n d - 52) (-1074)
    let quotient := divHalfEven (n * Nat.pow 2 (-unit).toNat) (d * Nat.pow 2 unit.toNat)
    min infinite ((unit + 1074).toNat * stride + quotient)

/-- The magnitude nearest to `digits · 10 ^ exponent`. Beyond the orders that doubles reach, the
power of ten is not computed. -/
def magnitudeOfDecimal (digits : Nat) (exponent : Int) : Nat :=
  if digits = 0 then 0
  else
    let order : Int := exponent + (Nat.toDigits 10 digits).length
    if 310 < order then infinite
    else if order < -330 then 0
    else magnitudeOfRatio (digits * Nat.pow 10 exponent.toNat) (Nat.pow 10 (-exponent).toNat)

/-- The double nearest to an integer. -/
def ofInt (n : Int) : Binary64 := ⟨n < 0, magnitudeOfRatio n.natAbs 1⟩

/-- A finite double rounded to a number of decimal places, an exact half to the even digit. -/
def roundPlaces (x : Binary64) (places : Nat) : Binary64 :=
  if infinite ≤ x.magnitude then x
  else
    let units := divHalfEven (numerator x.magnitude * Nat.pow 10 places) (denominator x.magnitude)
    ⟨x.negative, magnitudeOfRatio units (Nat.pow 10 places)⟩

end Binary64

end ReleasePrompts.Number
