import ReleasePrompts.Diff.Lines
import ReleasePrompts.Diff.Segments

/-!
# Rows of two columns

A comparison is shown in two columns whose lines are numbered independently. A row shows a line that
stays, a line and the one it gives way to, or a line of one column alone, and then a blank in the
other. The lines of a changed group are paired by their position, and those that are left over stand
alone.
-/

namespace ReleasePrompts.Diff

/-- What a line is in its column. -/
inductive CellKind where
  | context
  | removed
  | added
  | empty
  deriving DecidableEq, Repr

/-- A line of a column; without number where the column has none. -/
structure Cell where
  number : Option Nat
  text : List Char
  kind : CellKind
  segments : Option (List Segment) := none
  deriving DecidableEq, Repr

/-- The cell of a column that has no line in a row. -/
def Cell.blank : Cell := ⟨none, [], .empty, none⟩

/-- A row: how it is shown, and the lines of both columns. -/
structure Row where
  kind : GroupKind
  left : Cell
  right : Cell
  deriving DecidableEq, Repr

/-- A row with a line of the left column alone. -/
def Row.removed (number : Nat) (text : List Char) : Row :=
  ⟨.removed, ⟨some number, text, .removed, none⟩, .blank⟩

/-- A row with a line of the right column alone. -/
def Row.added (number : Nat) (text : List Char) : Row :=
  ⟨.added, .blank, ⟨some number, text, .added, none⟩⟩

/-- Rows of lines that stay. -/
def unchangedRows (left right : Nat) : List (List Char) → List Row
  | [] => []
  | line :: lines =>
    ⟨.unchanged, ⟨some left, line, .context, none⟩, ⟨some right, line, .context, none⟩⟩ ::
      unchangedRows (left + 1) (right + 1) lines

/-- Rows of lines that give way to others, paired by position. -/
def changeRows (left right : Nat) : List (List Char) → List (List Char) → List Row
  | old :: olds, new :: news =>
    let segments := wordSegments old new
    ⟨.change, ⟨some left, old, .removed, some segments.1⟩, ⟨some right, new, .added, some segments.2⟩⟩ ::
      changeRows (left + 1) (right + 1) olds news
  | old :: olds, [] => .removed left old :: changeRows (left + 1) right olds []
  | [], new :: news => .added right new :: changeRows left (right + 1) [] news
  | [], [] => []

/-- The rows of a group whose first lines have the numbers given. -/
def Group.rows (left right : Nat) (group : Group) : List Row :=
  match group.kind with
  | .unchanged => unchangedRows left right (splitLines group.old)
  | .change => changeRows left right (splitLines group.old) (splitLines group.new)
  | .removed => changeRows left right (splitLines group.old) []
  | .added => changeRows left right [] (splitLines group.new)

/-- The number of lines of a group in the left column. -/
def Group.leftLines (group : Group) : Nat :=
  match group.kind with
  | .added => 0
  | _ => (splitLines group.old).length

/-- The number of lines of a group in the right column. -/
def Group.rightLines (group : Group) : Nat :=
  match group.kind with
  | .unchanged => (splitLines group.old).length
  | .removed => 0
  | _ => (splitLines group.new).length

/-- The rows of groups, the first lines of which have the numbers given. -/
def rowsFrom (left right : Nat) : List Group → List Row
  | [] => []
  | group :: groups =>
    group.rows left right ++ rowsFrom (left + group.leftLines) (right + group.rightLines) groups

/-- The rows of groups. -/
def buildRows (groups : List Group) : List Row := rowsFrom 1 1 groups

/-- How many lines are shown as added and as removed. -/
structure Summary where
  added : Int := 0
  removed : Int := 0
  deriving DecidableEq, Repr

/-- Whether any line is shown as added or removed. -/
def Summary.hasChanges (summary : Summary) : Bool := summary.added != 0 || summary.removed != 0

/-- The wording of a summary. -/
def Summary.text (summary : Summary) : String :=
  if !summary.hasChanges then "No differences"
  else
    let plural := if summary.added = 1 then "" else "s"
    s!"{summary.added} line{plural} added, {summary.removed} removed"

/-- Counts the lines that rows show as added and as removed. A line that changed counts as both. -/
def summarize (rows : List Row) : Summary :=
  ⟨rows.countP fun row => row.right.kind == .added,
    rows.countP fun row => row.left.kind == .removed⟩

/-- A comparison as it is shown. -/
structure Table where
  rows : List Row
  summary : Summary
  deriving DecidableEq, Repr

/-- The comparison of two texts. -/
def diffTexts (old new : List Char) : Table :=
  let rows := buildRows (groupChanges (lineDiff old new))
  ⟨rows, summarize rows⟩

end ReleasePrompts.Diff
