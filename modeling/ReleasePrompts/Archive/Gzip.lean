import ReleasePrompts.Archive.Inflate

/-!
# Decompression within a limit

`decompress` inflates the first member of a gzip stream; bytes behind it do not matter. The output
comes in pieces, and after each its size is compared with the limit, so that a stream which inflates
far beyond it is given up early. A fault met while a piece is written is reported before the size of
that piece. When the input has been taken in, what is left of the output is flushed, and only then is
it seen whether the stream has ended.
-/

namespace ReleasePrompts.Archive

/-- The most bytes of a piece of output. -/
def pieceSize : Nat := 1024 * 1024

/-- Why bytes are not decompressed. -/
inductive GzipFault where
  | invalid (fault : StreamFault)
  | truncated
  | tooLarge (limit : Int)
  deriving DecidableEq, Repr

/-- The wording of a fault. -/
def GzipFault.message : GzipFault → String
  | invalid fault => s!"Invalid gzip data: Error -3 while decompressing data: {fault.text}"
  | truncated => "Truncated gzip data"
  | tooLarge limit => s!"Decompressed archive exceeds {limit} bytes"

/-- Whether a size is beyond a limit. -/
def exceeds (limit : Option Int) (size : Nat) : Bool :=
  match limit with
  | none => false
  | some limit => limit < (size : Int)

/-- Takes in the input piece after piece, until the stream ends or none of the input is handed back.
-/
def inflatePieces (limit : Option Int) : (pieces : Nat) → Inflater → Except GzipFault Inflater
  | 0, _ => .error .truncated
  | pieces + 1, inflater =>
    if inflater.bits.bytes.size ≤ inflater.bits.bytesTouched then .ok inflater
    else
      match inflater.run (inflater.output.size + pieceSize) with
      | (_, .failed fault) => .error (.invalid fault)
      | (inflater, rest) =>
        if exceeds limit inflater.output.size then .error (.tooLarge (limit.getD 0))
        else if rest = .full then inflatePieces limit pieces inflater
        else .ok inflater

/-- The most bytes that one symbol stands for. -/
def maxCopy : Nat := 258

/-- Writes what is still to be written when the input has been taken in. Every symbol takes a bit at
least, so there is more room than can be filled. -/
def Inflater.flush (inflater : Inflater) : Inflater × Rest :=
  inflater.run (inflater.output.size + maxCopy * (inflater.bits.left + 1) + 1)

/-- The bytes that a gzip stream stands for, if they are no more than the limit. A stream that has
not ended when all has been written is cut off, whatever stopped it. Every full piece takes a bit at
least, which bounds their number. -/
def decompress (data : Bytes) (limit : Option Int := none) : Except GzipFault Bytes :=
  match inflatePieces limit (8 * data.size + 2) (.ofBytes data) with
  | .error fault => .error fault
  | .ok inflater =>
    match inflater.flush with
    | (inflater, .finished) =>
      if exceeds limit inflater.output.size then .error (.tooLarge (limit.getD 0))
      else .ok inflater.output
    | _ => .error .truncated

end ReleasePrompts.Archive
