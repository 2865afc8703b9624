import ReleasePrompts.Diff.Matching
import ReleasePrompts.Text.Word

/-!
# Differences inside a line

A line that gives way to another is compared with it word by word, so that each side shows which of
its words changed.
-/

namespace ReleasePrompts.Diff

open Text

/-- Words of a line that changed, or that did not. -/
structure Segment where
  text : List Char
  changed : Bool := false
  deriving DecidableEq, Repr

/-- The segment that some words make, if there are any. -/
def segment? (changed : Bool) (words : List (List Char)) : Option Segment :=
  if words.isEmpty then none else some ⟨words.flatten, changed⟩

/-- What the left side shows of a hunk. -/
def leftSegment? : Hunk (List Char) → Option Segment
  | .same items => segment? false items
  | .change old _ => segment? true old

/-- What the right side shows of a hunk. -/
def rightSegment? : Hunk (List Char) → Option Segment
  | .same items => segment? false items
  | .change _ new => segment? true new

/-- The segments of both sides of a line that changed. -/
def wordSegments (old new : List Char) : List Segment × List Segment :=
  let compared := hunks (words old) (words new)
  (compared.filterMap leftSegment?, compared.filterMap rightSegment?)

end ReleasePrompts.Diff
