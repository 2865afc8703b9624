import ReleasePrompts.Text.Utf8

/-!
# Checksums

The cyclic redundancy check that ends a gzip member: the remainder of the bytes, as a polynomial
over two elements with its lowest powers first, by the polynomial `0xEDB88320`.
-/

namespace ReleasePrompts.Archive

/-- One bit of the division. -/
def checksumBit (remainder : UInt32) : UInt32 :=
  if remainder &&& 1 = 0 then remainder >>> 1 else (remainder >>> 1) ^^^ 0xEDB88320

/-- One byte of the division. -/
def checksumByte (remainder : UInt32) (byte : UInt8) : UInt32 :=
  let start := remainder ^^^ byte.toUInt32
  checksumBit <| checksumBit <| checksumBit <| checksumBit <|
    checksumBit <| checksumBit <| checksumBit <| checksumBit start

/-- The checksum of some bytes. -/
def checksum (bytes : Bytes) : Nat := ((bytes.foldl checksumByte 0xFFFFFFFF) ^^^ 0xFFFFFFFF).toNat

end ReleasePrompts.Archive
