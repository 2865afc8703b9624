import ReleasePrompts.Text.Utf8

/-!
# Downloads within a limit

A body arrives in chunks. `collect` counts the bytes that arrive and keeps the chunks as long as the
count is within the limit. It stops at the first chunk that goes beyond it, without keeping that chunk
and without looking at those behind it.
-/

namespace ReleasePrompts.Registry

/-- What comes of a download: the whole body, or the chunks that were kept when it stopped and those
that were not looked at. -/
inductive Collected where
  | whole (body : Bytes)
  | stopped (kept unread : List Bytes)
  deriving DecidableEq, Repr

/-- The bytes of chunks, one after the other. -/
def joined (chunks : List Bytes) : Bytes := chunks.foldl (· ++ ·) #[]

/-- Whether a number of bytes is beyond a limit. -/
def isBeyond (limit : Option Int) (received : Nat) : Bool :=
  match limit with
  | none => false
  | some limit => limit < (received : Int)

/-- Collects chunks behind those that are kept already, when so many bytes have been received. -/
def collectFrom (limit : Option Int) (received : Nat) (kept : List Bytes) : List Bytes → Collected
  | [] => .whole (joined kept)
  | chunk :: chunks =>
    let received := received + chunk.size
    if isBeyond limit received then .stopped kept chunks
    else collectFrom limit received (kept ++ [chunk]) chunks

/-- Collects chunks. -/
def collect (limit : Option Int) (chunks : List Bytes) : Collected := collectFrom limit 0 [] chunks

end ReleasePrompts.Registry
