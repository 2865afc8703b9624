import ReleasePrompts.Number.Numeral
import ReleasePrompts.Text.Utf8

/-!
# Tar archives

An archive is read in blocks of 512 bytes. A header names a file and the size of its content, which
follows and fills whole blocks. `unpack?` collects the regular files. Sizes are read as they are
written, negative ones too, so a header may send the scan back; where it then runs in a circle the
archive has no end and there is no answer.
-/

namespace ReleasePrompts.Archive

open Text Number

/-- The size of a block. -/
def blockSize : Nat := 512

/-- A regular file of an archive, with the size that its header states. -/
structure Entry where
  path : String
  content : Bytes
  size : Int
  deriving DecidableEq, Repr

/-- The content of a file as text. -/
def Entry.text (entry : Entry) : String := ofBytes entry.content

/-- A place in some bytes: places below zero count from the end, and none lies outside. -/
def placeIn (size : Nat) (place : Int) : Nat :=
  if place < 0 then (place + size).toNat else min place.toNat size

/-- The bytes from one place up to another. -/
def part (data : Bytes) (start stop : Int) : Bytes :=
  data.extract (placeIn data.size start) (placeIn data.size stop)

/-- The bytes of a field up to the first that is zero. -/
def fieldText (field : Bytes) : List UInt8 := field.toList.takeWhile (· != 0)

/-- White space between the digits of a size. -/
def isFieldBlank (byte : UInt8) : Bool := byte == 32 || (9 ≤ byte && byte ≤ 13)

/-- The size that a field states in octal, blanks left out; zero where it states none. -/
def parseSize (field : Bytes) : Int :=
  let digits := (fieldText field).filter fun byte => !isFieldBlank byte
  if digits.any fun byte => 128 ≤ byte then 0
  else
    match readInteger (.given 8) (digits.map fun byte => Char.ofNat byte.toNat) with
    | .ok size => size
    | .error _ => 0

/-- The path that a field states. -/
def parsePath (field : Bytes) : List Char := decodeLossy (fieldText field)

/-- Whether a type flag is that of a regular file. -/
def isRegularFlag (flag : Bytes) : Bool := flag == #[48] || flag == #[0] || flag.isEmpty

/-- A size rounded up to whole blocks. -/
def roundUp (size : Int) : Int := -(Int.fdiv (-size) blockSize) * blockSize

/-- What a scan finds at a block: perhaps a file, and the place to go on at. -/
structure Found where
  entry : Option Entry
  next : Int

/-- Reads the block at a place. The scan ends at the end of the data, where a header does not fit,
and at a block of zeros. A block that names no path is skipped. -/
def scanAt (data : Bytes) (place : Int) : Option Found :=
  let length : Int := data.size
  if length ≤ place || length < place + blockSize then none
  else
    let header := part data place (place + blockSize)
    if header.all (· == 0) then none
    else
      let path := parsePath (header.extract 0 100)
      let content := place + blockSize
      if path.isEmpty then some ⟨none, content⟩
      else
        let size := parseSize (header.extract 124 136)
        let entry : Entry :=
          ⟨String.ofList path, part data content (content + size), size⟩
        some ⟨if isRegularFlag (header.extract 156 157) then some entry else none,
          content + roundUp size⟩

/-- The files from a place on, behind those found before, which stand in reverse. -/
def unpackFrom? (data : Bytes) : Nat → Int → List Entry → Option (List Entry)
  | 0, _, _ => none
  | steps + 1, place, found =>
    match scanAt data place with
    | none => some found.reverse
    | some ⟨none, next⟩ => unpackFrom? data steps next found
    | some ⟨some entry, next⟩ => unpackFrom? data steps next (entry :: found)

/-- The regular files of an archive, in its order. A scan that visits more blocks than there are on
both sides of its start runs in a circle. -/
def unpack? (data : Bytes) : Option (List Entry) :=
  unpackFrom? data (2 * (data.size / blockSize) + 4) 0 []

/-- The first file whose path is one of those wanted. -/
def findEntry? (entries : List Entry) (paths : List String) : Option Entry :=
  entries.find? fun entry => paths.contains entry.path

end ReleasePrompts.Archive
