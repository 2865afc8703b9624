/-!
# UTF-8, decoded leniently

`decodeLossy` reads bytes as UTF-8 and writes one replacement character for each maximal ill-formed
part, as Unicode recommends: a lead byte with the continuation bytes it may be followed by, as far
as they go, or a single byte that can begin no character. `encode` is the usual encoding.
-/

namespace ReleasePrompts

/-- A string of bytes. -/
abbrev Bytes := Array UInt8

namespace Text

/-- The character that stands for what cannot be decoded. -/
def replacement : Char := '\uFFFD'

/-- The bytes of a text in UTF-8. -/
def encode (cs : List Char) : Bytes := (String.ofList cs).toUTF8.data

/-- A byte that continues a character. -/
def isContinuation (b : UInt8) : Bool := 0x80 ≤ b && b ≤ 0xBF

/-- The second bytes that may follow the lead byte of a character of three bytes. -/
def secondOfThree (lead b : UInt8) : Bool :=
  if lead == 0xE0 then 0xA0 ≤ b && b ≤ 0xBF
  else if lead == 0xED then 0x80 ≤ b && b ≤ 0x9F
  else isContinuation b

/-- The second bytes that may follow the lead byte of a character of four bytes. -/
def secondOfFour (lead b : UInt8) : Bool :=
  if lead == 0xF0 then 0x90 ≤ b && b ≤ 0xBF
  else if lead == 0xF4 then 0x80 ≤ b && b ≤ 0x8F
  else isContinuation b

/-- The six payload bits of a continuation byte. -/
def payload (b : UInt8) : Nat := b.toNat % 64

/-- The character that `lead` begins, and the bytes behind it. -/
def decodeOne (lead : UInt8) (rest : List UInt8) : Char × List UInt8 :=
  if lead < 0x80 then (Char.ofNat lead.toNat, rest)
  else if 0xC2 ≤ lead && lead ≤ 0xDF then
    match rest with
    | b :: rest' =>
      if isContinuation b then (Char.ofNat (lead.toNat % 32 * 64 + payload b), rest')
      else (replacement, rest)
    | [] => (replacement, rest)
  else if 0xE0 ≤ lead && lead ≤ 0xEF then
    match rest with
    | b :: c :: rest' =>
      if !secondOfThree lead b then (replacement, rest)
      else if isContinuation c then
        (Char.ofNat ((lead.toNat % 16 * 64 + payload b) * 64 + payload c), rest')
      else (replacement, c :: rest')
    | [b] => (replacement, if secondOfThree lead b then [] else rest)
    | [] => (replacement, rest)
  else if 0xF0 ≤ lead && lead ≤ 0xF4 then
    match rest with
    | b :: c :: d :: rest' =>
      if !secondOfFour lead b then (replacement, rest)
      else if !isContinuation c then (replacement, c :: d :: rest')
      else if isContinuation d then
        (Char.ofNat (((lead.toNat % 8 * 64 + payload b) * 64 + payload c) * 64 + payload d), rest')
      else (replacement, d :: rest')
    | [b, c] =>
      (replacement,
        if !secondOfFour lead b then rest else if isContinuation c then [] else [c])
    | [b] => (replacement, if secondOfFour lead b then [] else rest)
    | [] => (replacement, rest)
  else (replacement, rest)

theorem length_decodeOne_le (lead : UInt8) (rest : List UInt8) :
    (decodeOne lead rest).2.length ≤ rest.length := by
  unfold decodeOne
  repeat' split
  all_goals (simp only [List.length_cons, List.length_nil]; omega)

/-- Decodes bytes behind the characters already read, which stand in reverse. -/
def decodeBehind (read : List Char) : List UInt8 → List Char
  | [] => read.reverse
  | lead :: rest =>
    have := length_decodeOne_le lead rest
    decodeBehind ((decodeOne lead rest).1 :: read) (decodeOne lead rest).2
termination_by bytes => bytes.length
decreasing_by simp only [List.length_cons]; omega

/-- The characters of a list of bytes, with a replacement for each maximal ill-formed part. -/
def decodeLossy (bytes : List UInt8) : List Char := decodeBehind [] bytes

/-- The text of a string of bytes. -/
def ofBytes (bytes : Bytes) : String := String.ofList (decodeLossy bytes.toList)

end Text

end ReleasePrompts
