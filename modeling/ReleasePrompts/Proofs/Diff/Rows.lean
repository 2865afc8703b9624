import ReleasePrompts.Diff.Rows
import ReleasePrompts.Proofs.Diff.Lines

/-!
# Both columns show the whole texts

The numbered cells of a column, read downwards, are the lines of its text, numbered from one on
(`diffTexts_faithful`). Rows of one group number its lines from where they start
(`columns_rows`), and rows of groups go on where the group before ended (`columns_rowsFrom`). Of all
that two cells and a kind could be, the rows of groups are of four shapes only (`Row.Shows`,
`shows_of_mem_buildRows`).
-/

namespace ReleasePrompts.Diff

/-- The line that a cell shows, with its number. -/
def Cell.line? (cell : Cell) : Option (List Char × Nat) := cell.number.map (cell.text, ·)

/-- The lines of the left column, downwards. -/
def leftColumn (rows : List Row) : List (List Char × Nat) := rows.filterMap fun row => row.left.line?

/-- The lines of the right column, downwards. -/
def rightColumn (rows : List Row) : List (List Char × Nat) :=
  rows.filterMap fun row => row.right.line?

theorem leftColumn_append (rows others : List Row) :
    leftColumn (rows ++ others) = leftColumn rows ++ leftColumn others := List.filterMap_append

theorem rightColumn_append (rows others : List Row) :
    rightColumn (rows ++ others) = rightColumn rows ++ rightColumn others := List.filterMap_append

theorem columns_unchangedRows (left right : Nat) (lines : List (List Char)) :
    leftColumn (unchangedRows left right lines) = lines.zipIdx left ∧
      rightColumn (unchangedRows left right lines) = lines.zipIdx right := by
  induction lines generalizing left right with
  | nil => exact ⟨rfl, rfl⟩
  | cons line lines ih =>
    obtain ⟨hl, hr⟩ := ih (left + 1) (right + 1)
    exact ⟨congrArg ((line, left) :: ·) hl, congrArg ((line, right) :: ·) hr⟩

theorem columns_changeRows (left right : Nat) (olds news : List (List Char)) :
    leftColumn (changeRows left right olds news) = olds.zipIdx left ∧
      rightColumn (changeRows left right olds news) = news.zipIdx right := by
  fun_induction changeRows left right olds news with
  | case1 left right old olds new news segments ih =>
    exact ⟨congrArg ((old, left) :: ·) ih.1, congrArg ((new, right) :: ·) ih.2⟩
  | case2 left right old olds ih => exact ⟨congrArg ((old, left) :: ·) ih.1, ih.2⟩
  | case3 left right new news ih => exact ⟨ih.1, congrArg ((new, right) :: ·) ih.2⟩
  | case4 => exact ⟨rfl, rfl⟩

/-- The rows of a group number its lines on each side from where it starts. -/
theorem columns_rows (left right : Nat) (group : Group) :
    leftColumn (group.rows left right) = group.oldLines.zipIdx left ∧
      rightColumn (group.rows left right) = group.newLines.zipIdx right := by
  obtain ⟨kind, old, new⟩ := group
  cases kind with
  | unchanged => exact columns_unchangedRows left right _
  | change => exact columns_changeRows left right _ _
  | removed => exact columns_changeRows left right _ []
  | added => exact columns_changeRows left right [] _

theorem leftLines_eq (group : Group) : group.leftLines = group.oldLines.length := by
  obtain ⟨kind, old, new⟩ := group
  cases kind <;> rfl

theorem rightLines_eq (group : Group) : group.rightLines = group.newLines.length := by
  obtain ⟨kind, old, new⟩ := group
  cases kind <;> rfl

/-- The rows of groups number the lines of all of them. -/
theorem columns_rowsFrom (left right : Nat) (groups : List Group) :
    leftColumn (rowsFrom left right groups) = (groups.flatMap Group.oldLines).zipIdx left ∧
      rightColumn (rowsFrom left right groups) = (groups.flatMap Group.newLines).zipIdx right := by
  induction groups generalizing left right with
  | nil => exact ⟨rfl, rfl⟩
  | cons group groups ih =>
    obtain ⟨hl, hr⟩ := ih (left + group.leftLines) (right + group.rightLines)
    obtain ⟨hgl, hgr⟩ := columns_rows left right group
    rw [rowsFrom, leftColumn_append, rightColumn_append, hl, hr, hgl, hgr, List.flatMap_cons,
      List.flatMap_cons, List.zipIdx_append, List.zipIdx_append, leftLines_eq, rightLines_eq]
    exact ⟨rfl, rfl⟩

/-! ## Cells -/

/-- What a row may show: one text on both sides, a text and the one it gives way to with the segments
of both, or a text on one side and a blank on the other. -/
inductive Row.Shows : Row → Prop where
  | same (left right : Nat) (text : List Char) :
    Shows ⟨.unchanged, ⟨some left, text, .context, none⟩, ⟨some right, text, .context, none⟩⟩
  | pair (left right : Nat) (old new : List Char) :
    Shows ⟨.change, ⟨some left, old, .removed, some (wordSegments old new).1⟩,
      ⟨some right, new, .added, some (wordSegments old new).2⟩⟩
  | removed (number : Nat) (text : List Char) : Shows (.removed number text)
  | added (number : Nat) (text : List Char) : Shows (.added number text)

theorem shows_of_mem_unchangedRows {left right : Nat} {lines : List (List Char)} {row : Row}
    (h : row ∈ unchangedRows left right lines) : row.Shows := by
  induction lines generalizing left right with
  | nil => cases h
  | cons line lines ih =>
    rcases List.mem_cons.mp h with rfl | h
    · exact .same left right line
    · exact ih h

theorem shows_of_mem_changeRows {left right : Nat} {olds news : List (List Char)} {row : Row}
    (h : row ∈ changeRows left right olds news) : row.Shows := by
  fun_induction changeRows left right olds news with
  | case1 left right old olds new news segments ih =>
    rcases List.mem_cons.mp h with rfl | h
    · exact .pair left right old new
    · exact ih h
  | case2 left right old olds ih =>
    rcases List.mem_cons.mp h with rfl | h
    · exact .removed left old
    · exact ih h
  | case3 left right new news ih =>
    rcases List.mem_cons.mp h with rfl | h
    · exact .added right new
    · exact ih h
  | case4 => cases h

theorem shows_of_mem_rows {left right : Nat} {group : Group} {row : Row}
    (h : row ∈ group.rows left right) : row.Shows := by
  obtain ⟨kind, old, new⟩ := group
  cases kind with
  | unchanged => exact shows_of_mem_unchangedRows h
  | change | removed | added => exact shows_of_mem_changeRows h

theorem shows_of_mem_rowsFrom {left right : Nat} {groups : List Group} {row : Row}
    (h : row ∈ rowsFrom left right groups) : row.Shows := by
  induction groups generalizing left right with
  | nil => cases h
  | cons group groups ih =>
    rcases List.mem_append.mp h with h | h
    · exact shows_of_mem_rows h
    · exact ih h

/-- Whatever the groups are, each of their rows has one of the four shapes. -/
theorem shows_of_mem_buildRows {groups : List Group} {row : Row} (h : row ∈ buildRows groups) :
    row.Shows := shows_of_mem_rowsFrom h

namespace Row.Shows

variable {row : Row}

theorem left_number_eq_none_iff (h : row.Shows) : row.left.number = none ↔ row.left = .blank := by
  cases h <;> simp [Row.removed, Row.added, Cell.blank]

theorem right_number_eq_none_iff (h : row.Shows) :
    row.right.number = none ↔ row.right = .blank := by
  cases h <;> simp [Row.removed, Row.added, Cell.blank]

/-- No row is blank on both sides. -/
theorem not_empty (h : row.Shows) : ¬(row.left.kind = .empty ∧ row.right.kind = .empty) := by
  cases h <;> simp [Row.removed, Row.added, Cell.blank]

/-- A row that stays shows one text. -/
theorem text_eq (h : row.Shows) (hkind : row.kind = .unchanged) : row.left.text = row.right.text := by
  cases h with
  | same left right text => rfl
  | pair | removed | added => cases hkind

end Row.Shows

/-- The two-column comparison of two texts shows all of both, and nothing else. Read downwards, the
numbered cells of each column are the lines of its text, counted from one. A cell without a number
is blank, no row is blank on both sides, and a row that stays has one text. The parts from which the
rows are made are the first text without those added, and the second without those removed. -/
theorem diffTexts_faithful (old new : List Char) :
    leftColumn (diffTexts old new).rows = (splitLines old).zipIdx 1 ∧
      rightColumn (diffTexts old new).rows = (splitLines new).zipIdx 1 ∧
      (∀ row ∈ (diffTexts old new).rows,
        (row.left.number = none ↔ row.left = .blank) ∧
        (row.right.number = none ↔ row.right = .blank) ∧
        ¬(row.left.kind = .empty ∧ row.right.kind = .empty) ∧
        (row.kind = .unchanged → row.left.text = row.right.text)) ∧
      ((lineDiff old new).filter fun part => !part.added).flatMap Part.value = old ∧
      ((lineDiff old new).filter fun part => !part.removed).flatMap Part.value = new := by
  obtain ⟨hl, hr⟩ := columns_rowsFrom 1 1 (groupChanges (lineDiff old new))
  have hplain : ∀ part ∈ lineDiff old new, part.IsPlain := fun _ h => isPlain_of_mem_lineDiff h
  obtain ⟨hold, hnew⟩ := lines_groupChanges hplain
  refine ⟨?_, ?_, fun row hm => ?_, old_lineDiff old new, new_lineDiff old new⟩
  · rw [diffTexts, buildRows, hl, hold, oldLines_lineDiff]
  · rw [diffTexts, buildRows, hr, hnew, newLines_lineDiff]
  · have hshows : row.Shows := shows_of_mem_buildRows hm
    exact ⟨hshows.left_number_eq_none_iff, hshows.right_number_eq_none_iff, hshows.not_empty,
      hshows.text_eq⟩

end ReleasePrompts.Diff
