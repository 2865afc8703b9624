import ReleasePrompts.Text.Digit
import ReleasePrompts.Text.Utf8

/-!
# Percent encoding

In an address a character may be written as its bytes in UTF-8, each as a percent sign and two
hexadecimal digits. A percent sign that no two digits follow stands for itself, and bytes that are
no UTF-8 are replaced.
-/

namespace ReleasePrompts.Text

/-- The hexadecimal digit of a value below sixteen, in upper case. -/
def upperHexDigit (value : Nat) : Char :=
  if value < 10 then Char.ofNat (48 + value) else Char.ofNat (55 + value)

/-- The escape of a byte. -/
def percentByte (b : UInt8) : List Char :=
  ['%', upperHexDigit (b.toNat / 16), upperHexDigit (b.toNat % 16)]

/-- Encodes every character that is not kept. -/
def percentEncode (keep : Char → Bool) (cs : List Char) : List Char :=
  cs.flatMap fun c => if keep c then [c] else (encode [c]).toList.flatMap percentByte

/-- A letter or digit of ASCII, or a mark that is never encoded. -/
def isUnreserved (c : Char) : Bool :=
  c.isAlphanum || c == '-' || c == '.' || c == '_' || c == '~'

/-- The bytes that an encoded text stands for. -/
def percentBytes : List Char → List UInt8
  | [] => []
  | '%' :: high :: low :: rest =>
    if isHexDigit high && isHexDigit low then
      UInt8.ofNat (hexDigitValue high * 16 + hexDigitValue low) :: percentBytes rest
    else 37 :: percentBytes (high :: low :: rest)
  | c :: rest => (encode [c]).toList ++ percentBytes rest

/-- The text that an encoded one stands for. -/
def percentDecode (cs : List Char) : List Char := decodeLossy (percentBytes cs)

end ReleasePrompts.Text
