import ReleasePrompts.Diff.Matching
import ReleasePrompts.Text.Search

/-!
# Differences of texts, line by line

Only a line feed ends a line. `lineDiff` compares the lines of two texts with their ends, so a last
line without end differs from one with it, and gives the parts that stay, that are removed and that
are added. `groupChanges` pairs a removed part with an added one directly behind it.
-/

namespace ReleasePrompts.Diff

open Text

/-- The lines of a text, each with the line feed that ends it. -/
def linesWithEnds : List Char → List (List Char)
  | [] => []
  | '\n' :: rest => ['\n'] :: linesWithEnds rest
  | c :: rest =>
    match linesWithEnds rest with
    | [] => [[c]]
    | line :: lines => if rest.head? = some '\n' then [c, '\n'] :: lines else (c :: line) :: lines

/-- The lines of a text without their ends; what follows the last line feed is a line only if it is
not empty. -/
def splitLines (text : List Char) : List (List Char) :=
  let lines := splitAt '\n' text
  if lines.getLast? = some [] then lines.dropLast else lines

/-- A part of a text: whole lines that stay, or are added or removed. -/
structure Part where
  value : List Char
  added : Bool := false
  removed : Bool := false
  deriving DecidableEq, Repr

/-- The number of lines of a part. -/
def Part.count (part : Part) : Nat := (splitLines part.value).length

/-- The parts of a hunk of lines: what is removed comes before what is added. -/
def hunkParts : Hunk (List Char) → List Part
  | .same lines => [{ value := lines.flatten }]
  | .change old new =>
    (if old.isEmpty then [] else [{ value := old.flatten, removed := true }]) ++
      (if new.isEmpty then [] else [{ value := new.flatten, added := true }])

/-- The parts of a comparison of two texts. -/
def lineDiff (old new : List Char) : List Part :=
  (hunks (linesWithEnds old) (linesWithEnds new)).flatMap hunkParts

/-- How the lines of a group or a row are shown. -/
inductive GroupKind where
  | unchanged
  | change
  | removed
  | added
  deriving DecidableEq, Repr

/-- Lines that are shown together. -/
structure Group where
  kind : GroupKind
  old : List Char := []
  new : List Char := []
  deriving DecidableEq, Repr

/-- The groups of a list of parts. -/
def groupChanges : List Part → List Group
  | [] => []
  | part :: next :: rest =>
    if part.removed && next.added then
      { kind := .change, old := part.value, new := next.value } :: groupChanges rest
    else single part :: groupChanges (next :: rest)
  | [part] => [single part]
where
  /-- The group of a part that is paired with no other. -/
  single (part : Part) : Group :=
    if part.removed then { kind := .removed, old := part.value }
    else if part.added then { kind := .added, new := part.value }
    else { kind := .unchanged, old := part.value, new := part.value }

end ReleasePrompts.Diff
