import ReleasePrompts.Archive.Checksum
import ReleasePrompts.Archive.Code

/-!
# Inflating a gzip stream

An `Inflater` is a gzip stream at some point of its decompression: the bits that are left, what has
been written so far, and the stage that comes next. `step` takes it one stage further, without
writing beyond a limit. `run` repeats that until the stream ends, fails, needs bits that are not
there, or has to write where there is no room (`Rest`), and may be resumed with a higher limit.
-/

namespace ReleasePrompts.Archive

/-- The codes of a block. -/
structure BlockCodes where
  literals : Code
  distances : Code
  deriving DecidableEq, Repr

/-- What comes next in a stream. -/
inductive Stage where
  | header
  | blockHeader
  /-- Bytes that are stored as they are. -/
  | stored (count : Nat) (last : Bool)
  /-- Symbols of a compressed block. -/
  | coded (codes : BlockCodes) (last : Bool)
  /-- A byte that has been read and is to be written. -/
  | literal (byte : UInt8) (codes : BlockCodes) (last : Bool)
  /-- Bytes that are to be written again. -/
  | copy (count distance : Nat) (codes : BlockCodes) (last : Bool)
  | trailer
  | finished
  deriving DecidableEq, Repr

/-- A gzip stream that is being decompressed. -/
structure Inflater where
  bits : Bits
  output : Bytes
  stage : Stage
  deriving DecidableEq, Repr

/-- The state in which a run comes to rest. -/
inductive Rest where
  | finished
  | starved
  | failed (fault : StreamFault)
  /-- There is something to write, but no room. -/
  | full
  deriving DecidableEq, Repr

open BitReader

/-- Reads the header of a gzip member. -/
def readHeader : BitReader Unit := do
  let start := (← get).taken / 8
  if (← number 16) ≠ 0x8B1F then fail .headerCheck
  let flags ← number 16
  if flags % 256 ≠ 8 then fail .compressionMethod
  if 0x2000 ≤ flags then fail .headerFlags
  let has (bit : Nat) : Bool := flags.testBit bit
  -- The time, the level and the system.
  skip 48
  if has 10 then skip (8 * (← number 16))
  if has 11 then skipText
  if has 12 then skipText
  if has 9 then
    let bits ← get
    let header := bits.bytes.extract start (bits.taken / 8)
    if (← number 16) ≠ checksum header % 0x10000 then fail .headerChecksum

/-- The order in which the lengths of the code of lengths are given. -/
def lengthOrder : List Nat := [16, 17, 18, 0, 8, 7, 9, 6, 10, 5, 11, 4, 12, 3, 13, 2, 14, 1, 15]

/-- Reads the lengths of the code of lengths. -/
def readLengthLengths (count : Nat) : BitReader (Array Nat) :=
  (lengthOrder.take count).foldlM
    (fun lengths symbol => do return lengths.setIfInBounds symbol (← number 3))
    (Array.replicate 19 0)

/-- Reads the lengths of the other codes, `total` of them, behind those read before. -/
def readLengths (code : Code) (total : Nat) : Nat → Array Nat → BitReader (Array Nat)
  | 0, _ => throw .starved
  | bound + 1, lengths => do
    if total ≤ lengths.size then return lengths
    let symbol := (← code.symbol).getD 0
    if symbol < 16 then readLengths code total bound (lengths.push symbol)
    else
      let (length, count) ←
        if symbol = 16 then
          let extra ← number 2
          match lengths.back? with
          | none => fail .bitLengthRepeat
          | some last => pure (last, 3 + extra)
        else if symbol = 17 then pure (0, 3 + (← number 3))
        else pure (0, 11 + (← number 7))
      if total < lengths.size + count then fail .bitLengthRepeat
      readLengths code total bound (lengths ++ Array.replicate count length)

/-- Reads the codes of a block that brings its own. -/
def readCodes : BitReader BlockCodes := do
  let literalCount := (← number 5) + 257
  let distanceCount := (← number 5) + 1
  let lengthCount := (← number 4) + 4
  if 286 < literalCount || 30 < distanceCount then fail .tooManySymbols
  let lengthCode := Code.ofLengths (← readLengthLengths lengthCount)
  unless lengthCode.isEmpty || lengthCode.isComplete do fail .codeLengthsSet
  let total := literalCount + distanceCount
  let lengths ← readLengths lengthCode total (total + 1) #[]
  if lengths.getD 256 0 = 0 then fail .missingEndOfBlock
  let literals := Code.ofLengths (lengths.extract 0 literalCount)
  unless literals.isUsable do fail .literalLengthsSet
  let distances := Code.ofLengths (lengths.extract literalCount total)
  unless distances.isUsable do fail .distancesSet
  return ⟨literals, distances⟩

/-- The codes of a block that brings none. -/
def fixedCodes : BlockCodes :=
  ⟨.ofLengths (Array.replicate 144 8 ++ Array.replicate 112 9 ++ Array.replicate 24 7 ++
      Array.replicate 8 8),
    .ofLengths (Array.replicate 32 5)⟩

/-- The least length, and the number of bits to add, of each symbol from 257 on. -/
def lengthBases : List (Nat × Nat) :=
  [(3, 0), (4, 0), (5, 0), (6, 0), (7, 0), (8, 0), (9, 0), (10, 0), (11, 1), (13, 1), (15, 1),
    (17, 1), (19, 2), (23, 2), (27, 2), (31, 2), (35, 3), (43, 3), (51, 3), (59, 3), (67, 4),
    (83, 4), (99, 4), (115, 4), (131, 5), (163, 5), (195, 5), (227, 5), (258, 0)]

/-- The least distance, and the number of bits to add, of each symbol. -/
def distanceBases : List (Nat × Nat) :=
  [(1, 0), (2, 0), (3, 0), (4, 0), (5, 1), (7, 1), (9, 2), (13, 2), (17, 3), (25, 3), (33, 4),
    (49, 4), (65, 5), (97, 5), (129, 6), (193, 6), (257, 7), (385, 7), (513, 8), (769, 8),
    (1025, 9), (1537, 9), (2049, 10), (3073, 10), (4097, 11), (6145, 11), (8193, 12), (12289, 12),
    (16385, 13), (24577, 13)]

/-- The stage behind a block. -/
def afterBlock (last : Bool) : Stage := if last then .trailer else .blockHeader

/-- Reads the header of a block, and what the block brings before its data. -/
def readBlockHeader : BitReader Stage := do
  let last := (← number 1) == 1
  match ← number 2 with
  | 0 =>
    skipToByte
    let length ← number 16
    let complement ← number 16
    if length + complement ≠ 0xFFFF then fail .storedLengths
    return .stored length last
  | 1 => return .coded fixedCodes last
  | 2 => return .coded (← readCodes) last
  | _ => fail .blockType

/-- Reads a symbol of a block, and the length and the distance that a length takes. -/
def readSymbol (codes : BlockCodes) (last : Bool) : BitReader Stage := do
  let some symbol ← codes.literals.symbol | fail .literalLengthCode
  if symbol < 256 then return .literal (UInt8.ofNat symbol) codes last
  if symbol = 256 then return afterBlock last
  let some (lengthBase, lengthBits) := lengthBases[symbol - 257]? | fail .literalLengthCode
  let length := lengthBase + (← number lengthBits)
  let some distanceSymbol ← codes.distances.symbol | fail .distanceCode
  let some (distanceBase, distanceBits) := distanceBases[distanceSymbol]? | fail .distanceCode
  let distance := distanceBase + (← number distanceBits)
  return .copy length distance codes last

/-- Reads the trailer and compares it with what has been written. -/
def readTrailer (output : Bytes) : BitReader Unit := do
  skipToByte
  if (← number 32) ≠ checksum output then fail .dataCheck
  if (← number 32) ≠ output.size % 0x100000000 then fail .lengthCheck

/-- Writes again, `count` times, the byte that stands `distance` bytes back. -/
def copyBack (distance : Nat) : (count : Nat) → Bytes → Bytes
  | 0, output => output
  | count + 1, output =>
    copyBack distance count (output.push (output.getD (output.size - distance) 0))

/-- Where a reader leaves a stream: at a new stage, or at rest. -/
def Inflater.advance (inflater : Inflater) (reader : BitReader Stage) : Inflater × Option Rest :=
  match reader inflater.bits with
  | .ok (stage, bits) => ({ inflater with bits, stage }, none)
  | .error .starved => (inflater, some .starved)
  | .error (.failed fault) => (inflater, some (.failed fault))

/-- Writes what a stream has to write next, `room` bytes at most. -/
def Inflater.write (room : Nat) (inflater : Inflater) : Inflater × Option Rest :=
  match inflater with
  | ⟨bits, output, .stored count last⟩ =>
    let start := bits.bytesTouched
    let amount := min (min count room) (bits.bytes.size - start)
    if amount = 0 then (⟨bits, output, .stored count last⟩, some .starved)
    else
      let bytes := bits.bytes.extract start (start + amount)
      (⟨{ bits with taken := 8 * (start + amount) }, output ++ bytes,
        .stored (count - amount) last⟩, none)
  | ⟨bits, output, .literal byte codes last⟩ => (⟨bits, output.push byte, .coded codes last⟩, none)
  | ⟨bits, output, .copy count distance codes last⟩ =>
    if output.size < distance then
      (⟨bits, output, .copy count distance codes last⟩, some (.failed .distanceTooFar))
    else if count ≤ room then
      (⟨bits, copyBack distance count output, .coded codes last⟩, none)
    else
      (⟨bits, copyBack distance room output, .copy (count - room) distance codes last⟩, none)
  | inflater => (inflater, none)

/-- Takes a stream one stage further, or to its rest. No more than `limit` bytes are written in
all. -/
def Inflater.step (limit : Nat) (inflater : Inflater) : Inflater × Option Rest :=
  match inflater.stage with
  | .header => inflater.advance do
      readHeader
      return .blockHeader
  | .blockHeader => inflater.advance readBlockHeader
  | .coded codes last => inflater.advance (readSymbol codes last)
  | .trailer => inflater.advance do
      readTrailer inflater.output
      return .finished
  | .finished => (inflater, some .finished)
  | .stored 0 last => ({ inflater with stage := afterBlock last }, none)
  | _ =>
    if limit ≤ inflater.output.size then (inflater, some .full)
    else
      let room := limit - inflater.output.size
      inflater.write room

/-- Takes a stream as far as it goes with at most `limit` bytes written, in at most so many steps.
-/
def Inflater.runSteps (limit : Nat) : Nat → Inflater → Inflater × Rest
  | 0, inflater => (inflater, .starved)
  | steps + 1, inflater =>
    match inflater.step limit with
    | (inflater, none) => runSteps limit steps inflater
    | (inflater, some rest) => (inflater, rest)

/-- A number of steps that no run exceeds: of any four steps in a row one takes a bit. -/
def Inflater.stepBound (inflater : Inflater) : Nat := 4 * inflater.bits.left + 8

/-- Takes a stream as far as it goes with at most `limit` bytes written. -/
def Inflater.run (limit : Nat) (inflater : Inflater) : Inflater × Rest :=
  inflater.runSteps limit inflater.stepBound

/-- A stream of which nothing has been read. -/
def Inflater.ofBytes (bytes : Bytes) : Inflater := ⟨⟨bytes, 0⟩, #[], .header⟩

end ReleasePrompts.Archive
