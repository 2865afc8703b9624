import ReleasePrompts.Number.Binary64
import ReleasePrompts.Text.Blank
import ReleasePrompts.Text.Digit

/-!
# Numerals

Reading integers and reals from text. Blanks around a numeral are allowed, a decimal digit of any
script counts as the digit it is, and single underscores may stand between the digits of an integer.
A numeral whose base is no power of two may have at most `digitLimit` digits, and so may an integer
that is written in decimal.
-/

namespace ReleasePrompts.Number

open Text

/-- The most digits of a decimal numeral. -/
def digitLimit : Nat := 4300

/-- Why a text is not read as an integer. -/
inductive NumeralFault where
  | malformed
  | tooManyDigits (count : Nat)
  deriving DecidableEq, Repr

/-- What a message says of a numeral with too many digits. -/
def tooManyDigitsMessage (count : Nat) : String :=
  s!"Exceeds the limit ({digitLimit} digits) for integer string conversion: " ++
    s!"value has {count} digits; use sys.set_int_max_str_digits() to increase the limit"

/-- The base of an integer numeral: given, or written as a prefix of the numeral. -/
inductive Radix where
  | given (base : Nat)
  | written
  deriving DecidableEq, Repr

/-- A base whose numerals have no limit. -/
def isPowerOfTwo (base : Nat) : Bool := base == 2 || base == 4 || base == 8 || base == 16

/-- A character of a numeral in ASCII: digits and blanks above ASCII stand for those of ASCII, and
no other character above ASCII occurs in a numeral. -/
def asciiForm? (c : Char) : Option Char :=
  if c.toNat < 127 then some c
  else if isBlank c then some ' '
  else (digitValue? c).map digitChar

/-- The blanks of ASCII that may surround a numeral. -/
def isSurroundingBlank (c : Char) : Bool := c == ' ' || (9 ≤ c.toNat && c.toNat ≤ 13)

/-- A numeral in ASCII, without the blanks around it. -/
def numeralForm? (cs : List Char) : Option (List Char) :=
  (cs.mapM asciiForm?).map (trimBoth isSurroundingBlank)

/-- The value of an ASCII digit in a base. -/
def digitInBase? (base : Nat) (c : Char) : Option Nat :=
  if isHexDigit c then some (hexDigitValue c) |>.filter (· < base) else none

/-- Digits with single underscores between them. -/
def digitRun? (base : Nat) : List Char → Option (List Nat)
  | [] => none
  | [c] => (digitInBase? base c).map ([·])
  | c :: '_' :: rest => do return (← digitInBase? base c) :: (← digitRun? base rest)
  | c :: d :: rest => do return (← digitInBase? base c) :: (← digitRun? base (d :: rest))

/-- The base that the letter after a leading zero names. -/
def baseOfLetter? (c : Char) : Option Nat :=
  if c == 'x' || c == 'X' then some 16
  else if c == 'o' || c == 'O' then some 8
  else if c == 'b' || c == 'B' then some 2
  else none

/-- The sign of a numeral, and what follows it. -/
def splitSign : List Char → Bool × List Char
  | '-' :: rest => (true, rest)
  | '+' :: rest => (false, rest)
  | cs => (false, cs)

/-- The base of a numeral without sign, its digits, and whether a base was written. -/
def splitPrefix (radix : Radix) (cs : List Char) : Nat × List Char × Bool :=
  let afterLetter : List Char → List Char
    | '_' :: rest => rest
    | rest => rest
  match radix, cs with
  | .given base, '0' :: letter :: rest =>
    if baseOfLetter? letter == some base then (base, afterLetter rest, true) else (base, cs, false)
  | .given base, _ => (base, cs, false)
  | .written, '0' :: letter :: rest =>
    match baseOfLetter? letter with
    | some base => (base, afterLetter rest, true)
    | none => (10, cs, false)
  | .written, _ => (10, cs, false)

/-- The number that digits spell in a base. -/
def ofDigits (base : Nat) (digits : List Nat) : Nat :=
  digits.foldl (fun value digit => value * base + digit) 0

/-- Reads an integer. A numeral that names its own base has no zeros in front of other digits,
unless the base is written. -/
def readInteger (radix : Radix) (cs : List Char) : Except NumeralFault Int := do
  let some form := numeralForm? cs | throw .malformed
  let (negative, unsigned) := splitSign form
  let (base, digits, prefixed) := splitPrefix radix unsigned
  let some run := digitRun? base digits | throw .malformed
  if !isPowerOfTwo base && digitLimit < run.length then throw (.tooManyDigits run.length)
  let value := ofDigits base run
  if radix == .written && !prefixed && run.head? == some 0 && value != 0 then throw .malformed
  return if negative then -(value : Int) else value

/-- The decimal numeral of an integer, unless it has too many digits. -/
def integerText? (n : Int) : Option (List Char) :=
  let digits := Nat.toDigits 10 n.natAbs
  if digitLimit < digits.length then none
  else some (if n < 0 then '-' :: digits else digits)

/-- The value of a run of ASCII digits. -/
def readDecimalDigits (cs : List Char) : Nat := readDigits 10 cs

/-- The power of ten that ends a real: nothing, or `e`, a sign and digits. -/
def readExponent? : List Char → Option Int
  | [] => some 0
  | c :: rest =>
    if c != 'e' && c != 'E' then none
    else
      let (negative, digits) := splitSign rest
      if digits.isEmpty || !digits.all Char.isDigit then none
      else
        let value : Int := readDecimalDigits digits
        some (if negative then -value else value)

/-- The magnitude of a decimal real without sign. -/
def readMagnitude? (cs : List Char) : Option Nat :=
  let whole := cs.takeWhile Char.isDigit
  let afterWhole := cs.dropWhile Char.isDigit
  let (fraction, afterFraction) := match afterWhole with
    | '.' :: rest => (rest.takeWhile Char.isDigit, rest.dropWhile Char.isDigit)
    | rest => ([], rest)
  if whole.isEmpty && fraction.isEmpty then none
  else (readExponent? afterFraction).map fun exponent =>
    Binary64.magnitudeOfDecimal (readDecimalDigits (whole ++ fraction))
      (exponent - fraction.length)

/-- Reads a real: a decimal numeral, or one of the names of infinity and of what is no number. -/
def readReal? (cs : List Char) : Option Binary64 := do
  let form ← numeralForm? cs
  let (negative, unsigned) := splitSign form
  let name := unsigned.map Char.toLower
  if name == "inf".toList || name == "infinity".toList then
    return ⟨negative, Binary64.infinite⟩
  if name == "nan".toList then return ⟨negative, Binary64.invalid⟩
  return ⟨negative, ← readMagnitude? unsigned⟩

end ReleasePrompts.Number
