import ReleasePrompts.Proofs.Diff.Groups
import ReleasePrompts.Proofs.Diff.Rows

/-!
# Summaries count the differences

The rows that a group gives stay exactly if the group does (`kind_eq_unchanged_iff_of_mem_rows`), and
every group of two texts has a line (`hasLine_of_mem_groupChanges`); so no line is shown as added or
removed exactly if the texts are equal (`hasChanges_diffTexts_iff`). On each side a row either stays
or counts as changed, or shows no line there, so both counts add up to the lines of the texts
(`diffTexts_summary`).
-/

namespace ReleasePrompts.Diff

/-! ## Rows of groups -/

theorem kind_of_mem_unchangedRows {left right : Nat} {lines : List (List Char)} {row : Row}
    (h : row ∈ unchangedRows left right lines) : row.kind = .unchanged := by
  induction lines generalizing left right with
  | nil => cases h
  | cons line lines ih =>
    rcases List.mem_cons.1 h with rfl | h
    · rfl
    · exact ih h

theorem kind_of_mem_changeRows {left right : Nat} {olds news : List (List Char)} {row : Row}
    (h : row ∈ changeRows left right olds news) : row.kind ≠ .unchanged := by
  fun_induction changeRows left right olds news with
  | case4 => cases h
  | case1 _ _ _ _ _ _ _ ih | case2 _ _ _ _ ih | case3 _ _ _ _ ih =>
    rcases List.mem_cons.1 h with rfl | h
    · intro hkind
      cases hkind
    · exact ih h

/-- The rows of a group stay exactly if the group does. -/
theorem kind_eq_unchanged_iff_of_mem_rows {left right : Nat} {group : Group} {row : Row}
    (h : row ∈ group.rows left right) : row.kind = .unchanged ↔ group.kind = .unchanged := by
  obtain ⟨kind, old, new⟩ := group
  cases kind with
  | unchanged => exact iff_of_true (kind_of_mem_unchangedRows h) rfl
  | change | removed | added =>
    refine iff_of_false (kind_of_mem_changeRows h) fun hkind => ?_
    cases hkind

/-- A group that shows a line. -/
def Group.HasLine (group : Group) : Prop := group.oldLines ≠ [] ∨ group.newLines ≠ []

theorem rows_ne_nil {group : Group} (h : group.HasLine) (left right : Nat) :
    group.rows left right ≠ [] := by
  intro he
  obtain ⟨hleft, hright⟩ := columns_rows left right group
  rw [he] at hleft hright
  exact h.elim (fun hne => hne (List.zipIdx_eq_nil_iff.1 hleft.symm))
    (fun hne => hne (List.zipIdx_eq_nil_iff.1 hright.symm))

/-- All rows stay exactly if all groups do. -/
theorem forall_kind_rowsFrom_iff {groups : List Group} (h : ∀ group ∈ groups, group.HasLine)
    (left right : Nat) :
    (∀ row ∈ rowsFrom left right groups, row.kind = .unchanged) ↔
      ∀ group ∈ groups, group.kind = .unchanged := by
  induction groups generalizing left right with
  | nil => simp [rowsFrom]
  | cons group groups ih =>
    obtain ⟨hline, hlines⟩ := List.forall_mem_cons.1 h
    have hgroup : (∀ row ∈ group.rows left right, row.kind = .unchanged) ↔
        group.kind = .unchanged := by
      obtain ⟨first, hfirst⟩ := List.exists_mem_of_ne_nil _ (rows_ne_nil hline left right)
      exact ⟨fun hall => (kind_eq_unchanged_iff_of_mem_rows hfirst).1 (hall first hfirst),
        fun hkind row hrow => (kind_eq_unchanged_iff_of_mem_rows hrow).2 hkind⟩
    rw [rowsFrom, List.forall_mem_append, List.forall_mem_cons, hgroup, ih hlines]

/-! ## Groups of texts -/

theorem oldLines_group (hunk : Hunk (List Char)) :
    hunk.group.oldLines = splitLines hunk.left.flatten := by
  cases hunk with
  | same lines => rfl
  | change old new => cases old <;> cases new <;> rfl

theorem newLines_group (hunk : Hunk (List Char)) :
    hunk.group.newLines = splitLines hunk.right.flatten := by
  cases hunk with
  | same lines => rfl
  | change old new => cases old <;> cases new <;> rfl

theorem splitLines_ne_nil {text : List Char} (h : text ≠ []) : splitLines text ≠ [] := by
  rw [splitLines_eq_map, Ne, List.map_eq_nil_iff]
  intro he
  exact h (by rw [← flatten_linesWithEnds text, he, List.flatten_nil])

theorem hasLine_of_mem_groupChanges {old new : List Char} {group : Group}
    (h : group ∈ groupChanges (lineDiff old new)) : group.HasLine := by
  rw [groupChanges_lineDiff] at h
  obtain ⟨hunk, hmem, rfl⟩ := List.mem_map.1 h
  rw [Group.HasLine, oldLines_group, newLines_group]
  exact ((normal_lineHunks old new).hasItems hunk hmem).imp
    (fun hne => splitLines_ne_nil (flatten_left_ne_nil hmem hne))
    (fun hne => splitLines_ne_nil (flatten_right_ne_nil hmem hne))

theorem linesWithEnds_inj {old new : List Char} :
    linesWithEnds old = linesWithEnds new ↔ old = new :=
  ⟨fun h => by rw [← flatten_linesWithEnds old, h, flatten_linesWithEnds], congrArg linesWithEnds⟩

/-! ## Summaries -/

theorem Row.Shows.kind_eq_unchanged_iff {row : Row} (h : row.Shows) :
    row.kind = .unchanged ↔ row.right.kind ≠ .added ∧ row.left.kind ≠ .removed := by
  cases h <;> simp [Row.removed, Row.added, Cell.blank]

theorem hasChanges_summarize_iff {rows : List Row} (hshows : ∀ row ∈ rows, row.Shows) :
    (summarize rows).hasChanges = false ↔ ∀ row ∈ rows, row.kind = .unchanged := by
  simp only [Summary.hasChanges, summarize, Bool.or_eq_false_iff, bne_eq_false_iff_eq,
    Int.natCast_eq_zero, List.countP_eq_zero, beq_iff_eq]
  constructor
  · rintro ⟨hadded, hremoved⟩ row hm
    exact (hshows row hm).kind_eq_unchanged_iff.mpr ⟨hadded row hm, hremoved row hm⟩
  · intro h
    exact ⟨fun row hm => ((hshows row hm).kind_eq_unchanged_iff.mp (h row hm)).1,
      fun row hm => ((hshows row hm).kind_eq_unchanged_iff.mp (h row hm)).2⟩

/-- Two texts are compared without changes exactly if they are equal. -/
theorem hasChanges_diffTexts_iff (old new : List Char) :
    (diffTexts old new).summary.hasChanges = false ↔ old = new := by
  calc (diffTexts old new).summary.hasChanges = false
      ↔ ∀ row ∈ (diffTexts old new).rows, row.kind = .unchanged :=
        hasChanges_summarize_iff fun _ => shows_of_mem_buildRows
    _ ↔ ∀ group ∈ groupChanges (lineDiff old new), group.kind = .unchanged :=
        forall_kind_rowsFrom_iff (fun _ => hasLine_of_mem_groupChanges) 1 1
    _ ↔ ∀ hunk ∈ lineHunks old new, hunk.isSame = true := by
        simp only [groupChanges_lineDiff, List.forall_mem_map, kind_group_eq_unchanged_iff]
    _ ↔ linesWithEnds old = linesWithEnds new := forall_isSame_hunks_iff
    _ ↔ old = new := linesWithEnds_inj

/-- The wording tells whether anything changed. -/
theorem text_eq_noDifferences_iff (summary : Summary) :
    summary.text = "No differences" ↔ summary.hasChanges = false := by
  rw [Summary.text]
  cases summary.hasChanges with
  | false => exact iff_of_true rfl rfl
  | true =>
    -- a wording with counts ends in `d`
    have hlast : (toString " removed").toList.getLast? = some 'd' := by decide +kernel
    refine iff_of_false (fun h => ?_) Bool.true_eq_false.mp
    have hends := congrArg (fun text : String => text.toList.getLast?) h
    simp [String.toList_append, List.getLast?_append, hlast] at hends

/-- Where a row shows a line just if the line is changed or stays, both make up the lines shown. -/
theorem countP_changed_add_unchanged (changed shown : Row → Bool)
    (h : ∀ row : Row, row.Shows →
      ((if changed row then 1 else 0) + if row.kind == .unchanged then 1 else 0) =
        if shown row then 1 else 0) {rows : List Row} (hshows : ∀ row ∈ rows, row.Shows) :
    rows.countP changed + (rows.countP fun row => row.kind == .unchanged) = rows.countP shown := by
  induction rows with
  | nil => rfl
  | cons row rows ih =>
    obtain ⟨hfirst, hrest⟩ := List.forall_mem_cons.mp hshows
    have hrow := h row hfirst
    have hrows := ih hrest
    simp only [List.countP_cons]
    omega

/-- In the left column a row shows a line that is removed, a line that stays, or none. -/
theorem removed_add_unchanged {rows : List Row} (hshows : ∀ row ∈ rows, row.Shows) :
    (summarize rows).removed + (rows.countP fun row => row.kind == .unchanged) =
      (leftColumn rows).length := by
  have hcount := countP_changed_add_unchanged (fun row => row.left.kind == .removed)
    (fun row => row.left.line?.isSome) (fun row h => by cases h <;> rfl) hshows
  rw [leftColumn, List.length_filterMap_eq_countP, ← hcount, Int.natCast_add]
  rfl

/-- In the right column a row shows a line that is added, a line that stays, or none. -/
theorem added_add_unchanged {rows : List Row} (hshows : ∀ row ∈ rows, row.Shows) :
    (summarize rows).added + (rows.countP fun row => row.kind == .unchanged) =
      (rightColumn rows).length := by
  have hcount := countP_changed_add_unchanged (fun row => row.right.kind == .added)
    (fun row => row.right.line?.isSome) (fun row h => by cases h <;> rfl) hshows
  rw [rightColumn, List.length_filterMap_eq_countP, ← hcount, Int.natCast_add]
  rfl

theorem columns_diffTexts (old new : List Char) :
    leftColumn (diffTexts old new).rows = (splitLines old).zipIdx 1 ∧
      rightColumn (diffTexts old new).rows = (splitLines new).zipIdx 1 := by
  obtain ⟨hleft, hright⟩ := columns_rowsFrom 1 1 (groupChanges (lineDiff old new))
  have hplain : ∀ part ∈ lineDiff old new, part.IsPlain := fun _ h => isPlain_of_mem_lineDiff h
  obtain ⟨hold, hnew⟩ := lines_groupChanges hplain
  rw [hold, oldLines_lineDiff] at hleft
  rw [hnew, newLines_lineDiff] at hright
  exact ⟨hleft, hright⟩

/-- The summary of a comparison tells whether the texts differ and counts by how many lines. It has
no changes, and says so, exactly if the texts are equal; and the lines that are added, or removed,
make up the second text, or the first, together with the lines that stay. -/
theorem diffTexts_summary (old new : List Char) :
    ((diffTexts old new).summary.hasChanges = false ↔ old = new) ∧
      ((diffTexts old new).summary.text = "No differences" ↔ old = new) ∧
      (diffTexts old new).summary.added +
          ((diffTexts old new).rows.countP fun row => row.kind == .unchanged) =
        (splitLines new).length ∧
      (diffTexts old new).summary.removed +
          ((diffTexts old new).rows.countP fun row => row.kind == .unchanged) =
        (splitLines old).length := by
  obtain ⟨hleft, hright⟩ := columns_diffTexts old new
  have hchanges := hasChanges_diffTexts_iff old new
  have hshows : ∀ row ∈ (diffTexts old new).rows, row.Shows := fun _ => shows_of_mem_buildRows
  have hadded := added_add_unchanged hshows
  have hremoved := removed_add_unchanged hshows
  rw [hright, List.length_zipIdx] at hadded
  rw [hleft, List.length_zipIdx] at hremoved
  exact ⟨hchanges, (text_eq_noDifferences_iff _).trans hchanges, hadded, hremoved⟩

end ReleasePrompts.Diff
