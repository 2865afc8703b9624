import ReleasePrompts.Text.Utf8

/-!
# Surrogates

Code points read from escapes may be surrogates. `joinSurrogates` makes one character of each high
surrogate with the low one behind it, and a replacement character of each that stands alone.
-/

namespace ReleasePrompts.Text

/-- The first half of a pair. -/
def isHighSurrogate (n : Nat) : Bool := 0xD800 ≤ n && n ≤ 0xDBFF

/-- The second half of a pair. -/
def isLowSurrogate (n : Nat) : Bool := 0xDC00 ≤ n && n ≤ 0xDFFF

/-- The code point that a pair of surrogates stands for. -/
def pairValue (high low : Nat) : Nat := 0x10000 + (high - 0xD800) * 1024 + (low - 0xDC00)

/-- The character of a code point, or the replacement where it is that of no character. -/
def charOfNat (n : Nat) : Char :=
  if n.isValidChar then Char.ofNat n else replacement

/-- The characters of a list of code points. -/
def joinSurrogates : List Nat → List Char
  | [] => []
  | [n] => [charOfNat n]
  | high :: low :: rest =>
    if isHighSurrogate high && isLowSurrogate low then
      Char.ofNat (pairValue high low) :: joinSurrogates rest
    else charOfNat high :: joinSurrogates (low :: rest)

/-- The units of a character in UTF-16. -/
def units16 (c : Char) : List Nat :=
  if c.toNat < 0x10000 then [c.toNat]
  else [0xD800 + (c.toNat - 0x10000) / 1024, 0xDC00 + (c.toNat - 0x10000) % 1024]

end ReleasePrompts.Text
