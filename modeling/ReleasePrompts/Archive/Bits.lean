import ReleasePrompts.Text.Utf8

/-!
# Bits of a compressed stream

Bytes are read as bits, the lowest of each byte first. A reader takes some of the bits that are left
or stops: the bits have run out (`starved`), or they break the format (`failed`).
-/

namespace ReleasePrompts.Archive

/-- What is wrong with a compressed stream. -/
inductive StreamFault where
  | headerCheck
  | compressionMethod
  | headerFlags
  | headerChecksum
  | blockType
  | storedLengths
  | tooManySymbols
  | codeLengthsSet
  | bitLengthRepeat
  | missingEndOfBlock
  | literalLengthsSet
  | distancesSet
  | literalLengthCode
  | distanceCode
  | distanceTooFar
  | dataCheck
  | lengthCheck
  deriving DecidableEq, Repr

/-- The wording of a fault. -/
def StreamFault.text : StreamFault → String
  | headerCheck => "incorrect header check"
  | compressionMethod => "unknown compression method"
  | headerFlags => "unknown header flags set"
  | headerChecksum => "header crc mismatch"
  | blockType => "invalid block type"
  | storedLengths => "invalid stored block lengths"
  | tooManySymbols => "too many length or distance symbols"
  | codeLengthsSet => "invalid code lengths set"
  | bitLengthRepeat => "invalid bit length repeat"
  | missingEndOfBlock => "invalid code -- missing end-of-block"
  | literalLengthsSet => "invalid literal/lengths set"
  | distancesSet => "invalid distances set"
  | literalLengthCode => "invalid literal/length code"
  | distanceCode => "invalid distance code"
  | distanceTooFar => "invalid distance too far back"
  | dataCheck => "incorrect data check"
  | lengthCheck => "incorrect length check"

/-- Why a reader stops. -/
inductive Halt where
  | starved
  | failed (fault : StreamFault)
  deriving DecidableEq, Repr

/-- Bytes, and how many of their bits have been taken. -/
structure Bits where
  bytes : Bytes
  taken : Nat
  deriving DecidableEq, Repr

namespace Bits

/-- The number of bits that are left. -/
def left (bits : Bits) : Nat := 8 * bits.bytes.size - bits.taken

/-- The number of bytes of which at least one bit has been taken. -/
def bytesTouched (bits : Bits) : Nat := (bits.taken + 7) / 8

/-- The bit at a place. -/
def bitAt (bits : Bits) (place : Nat) : Nat :=
  ((bits.bytes.getD (place / 8) 0).toNat >>> (place % 8)) % 2

/-- The number that `count` bits from a place on spell, the lowest first. -/
def numberAt (bits : Bits) : (count place : Nat) → Nat
  | 0, _ => 0
  | count + 1, place => bits.bitAt place + 2 * numberAt bits count (place + 1)

end Bits

/-- Readers of bits. -/
abbrev BitReader := StateT Bits (Except Halt)

namespace BitReader

/-- Stops with a fault. -/
def fail {α : Type} (fault : StreamFault) : BitReader α := throw (.failed fault)

/-- Takes the number that the next `count` bits spell, the lowest first. -/
def number (count : Nat) : BitReader Nat := fun bits =>
  if bits.left < count then .error .starved
  else .ok (bits.numberAt count bits.taken, { bits with taken := bits.taken + count })

/-- Takes the next `count` bits, whatever they are. -/
def skip (count : Nat) : BitReader Unit := fun bits =>
  if bits.left < count then .error .starved
  else .ok ((), { bits with taken := bits.taken + count })

/-- Takes the next byte. -/
def byte : BitReader UInt8 := do return UInt8.ofNat (← number 8)

/-- Takes what is left of the byte that has been begun. -/
def skipToByte : BitReader Unit := fun bits =>
  .ok ((), { bits with taken := 8 * bits.bytesTouched })

/-- Takes bytes up to and including the first that is zero. -/
def skipText : BitReader Unit := do
  go ((← get).left + 1)
where
  go : Nat → BitReader Unit
    | 0 => throw .starved
    | bound + 1 => do
      if (← byte) = 0 then return ()
      go bound

end BitReader

end ReleasePrompts.Archive
