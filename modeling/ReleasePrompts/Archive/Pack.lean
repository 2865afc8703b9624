import ReleasePrompts.Archive.Checksum
import ReleasePrompts.Archive.Tar
import ReleasePrompts.Text.Digit

/-!
# Writing tarballs

`packFiles` writes files as an archive, each as a header and its content in whole blocks, with two
blocks of zeros at the end. `store` wraps bytes in a gzip member that holds them as they are.
-/

namespace ReleasePrompts.Archive

open Text

/-- Bytes with some of them, from a place on, replaced by others. -/
def overlay (place : Nat) (bytes base : Bytes) : Bytes :=
  base.extract 0 place ++ bytes ++ base.extract (place + bytes.size) base.size

/-- The last `width` octal digits of a number. -/
def octalDigits : (width : Nat) → Nat → List Char
  | 0, _ => []
  | width + 1, n => octalDigits width (n / 8) ++ [digitChar (n % 8)]

/-- The header of a file; a path that ends with a slash is that of a directory. -/
def fileHeader (path : String) (size : Nat) : Bytes :=
  let flag : UInt8 := if path.endsWith "/" then 53 else 48
  overlay 156 #[flag] (overlay 124 (encode (octalDigits 11 size) ++ #[0])
    (overlay 0 (encode path.toList) (Array.replicate blockSize 0)))

/-- The zeros behind bytes of a given size that fill the last block. -/
def blockPadding (size : Nat) : Bytes :=
  Array.replicate ((blockSize - size % blockSize) % blockSize) 0

/-- An archive of files. -/
def packFiles (files : List (String × Bytes)) : Bytes :=
  files.foldl (fun packed (path, content) =>
    packed ++ fileHeader path content.size ++ content ++ blockPadding content.size) #[] ++
    Array.replicate (2 * blockSize) 0

/-- The last `width` bytes of a number, the lowest first. -/
def lowBytes : (width : Nat) → Nat → List UInt8
  | 0, _ => []
  | width + 1, n => UInt8.ofNat (n % 256) :: lowBytes width (n / 256)

/-- The most bytes of a block that is stored. -/
def storedSize : Nat := 65535

/-- The blocks that hold bytes as they are, from a place on. -/
def storedBlocks (bytes : Bytes) : (blocks : Nat) → (place : Nat) → Bytes
  | 0, _ => #[]
  | blocks + 1, place =>
    let part := bytes.extract place (place + storedSize)
    let final : UInt8 := if blocks = 0 then 1 else 0
    let sizes := lowBytes 2 part.size ++ lowBytes 2 (storedSize - part.size)
    #[final] ++ sizes.toArray ++ part ++ storedBlocks bytes blocks (place + storedSize)

/-- A gzip member that holds bytes as they are. -/
def store (bytes : Bytes) : Bytes :=
  let blocks := max 1 ((bytes.size + storedSize - 1) / storedSize)
  #[0x1f, 0x8b, 8, 0, 0, 0, 0, 0, 0, 255] ++ storedBlocks bytes blocks 0 ++
    (lowBytes 4 (checksum bytes)).toArray ++ (lowBytes 4 bytes.size).toArray

end ReleasePrompts.Archive
