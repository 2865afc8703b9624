import ReleasePrompts.Proofs.Diff.Groups
import ReleasePrompts.Proofs.Diff.Rows

/-!
# Groups and rows of any parts

The parts of two texts are in normal form, but nothing of the kind is needed for groups and rows to
lose nothing: whatever the parts are, in whatever order, as long as none is both added and removed
(`Part.IsPlain`). Put side by side, the parts of their groups are the parts
(`flatMap_parts_groupChanges`), and the columns of the rows show their lines
(`groups_and_rows_lossless`).
-/

namespace ReleasePrompts.Diff

variable {part : Part} {parts : List Part}

/-! ## Parts of groups -/

theorem Part.IsPlain.eq_of_removed (h : part.IsPlain) (hremoved : part.removed = true) :
    part = { value := part.value, removed := true } := by
  obtain ⟨value, added, removed⟩ := part
  cases added with
  | true => exact absurd ⟨rfl, hremoved⟩ h
  | false => rw [show removed = true from hremoved]

theorem Part.IsPlain.eq_of_added (h : part.IsPlain) (hadded : part.added = true) :
    part = { value := part.value, added := true } := by
  obtain ⟨value, added, removed⟩ := part
  cases removed with
  | true => exact absurd ⟨hadded, rfl⟩ h
  | false => rw [show added = true from hadded]

theorem parts_single (h : part.IsPlain) : (groupChanges.single part).parts = [part] := by
  obtain ⟨value, added, removed⟩ := part
  cases added <;> cases removed
  case true.true => exact absurd ⟨rfl, rfl⟩ h
  all_goals rfl

/-- The parts of the groups are the parts, in the same order. -/
theorem flatMap_parts_groupChanges (h : ∀ part ∈ parts, part.IsPlain) :
    (groupChanges parts).flatMap Group.parts = parts := by
  fun_induction groupChanges parts with
  | case1 => rfl
  | case2 part next rest hpair ih =>
    obtain ⟨hpart, hnext, hrest⟩ : part.IsPlain ∧ next.IsPlain ∧ ∀ p ∈ rest, p.IsPlain := by
      simpa only [List.forall_mem_cons] using h
    obtain ⟨hremoved, hadded⟩ := Bool.and_eq_true_iff.mp hpair
    rw [List.flatMap_cons, ih hrest]
    conv_rhs => rw [hpart.eq_of_removed hremoved, hnext.eq_of_added hadded]
    rfl
  | case3 part next rest _ ih =>
    obtain ⟨hpart, hrest⟩ := List.forall_mem_cons.mp h
    rw [List.flatMap_cons, parts_single hpart, ih hrest, List.singleton_append]
  | case4 part => rw [List.flatMap_singleton, parts_single (h part List.mem_cons_self)]

/-! ## Lines of parts -/

/-- Where some items are hidden, all that is shown is what the others show. -/
theorem flatMap_ite_nil {α β : Type} (hidden : α → Bool) (lines : α → List β) (items : List α) :
    (items.flatMap fun item => if hidden item then [] else lines item) =
      (items.filter fun item => !hidden item).flatMap lines := by
  induction items with
  | nil => rfl
  | cons item items ih => cases hhidden : hidden item <;> simp [hhidden, ih]

theorem flatMap_oldLines (parts : List Part) :
    parts.flatMap Part.oldLines =
      (parts.filter fun part => !part.added).flatMap fun part => splitLines part.value :=
  flatMap_ite_nil Part.added _ parts

theorem flatMap_newLines (parts : List Part) :
    parts.flatMap Part.newLines =
      (parts.filter fun part => !part.removed).flatMap fun part => splitLines part.value :=
  flatMap_ite_nil Part.removed _ parts

/-- Groups and rows lose nothing of any parts, none of which is both added and removed. The parts of
the groups are the parts again; and read downwards, the numbered cells of the left column are the
lines of the parts that are not added, counted from one, and those of the right column the lines of
the parts that are not removed. -/
theorem groups_and_rows_lossless (h : ∀ part ∈ parts, part.IsPlain) :
    (groupChanges parts).flatMap Group.parts = parts ∧
      leftColumn (buildRows (groupChanges parts)) =
        ((parts.filter fun part => !part.added).flatMap fun part => splitLines part.value).zipIdx 1 ∧
      rightColumn (buildRows (groupChanges parts)) =
        ((parts.filter fun part => !part.removed).flatMap
          fun part => splitLines part.value).zipIdx 1 := by
  obtain ⟨hold, hnew⟩ := lines_groupChanges h
  obtain ⟨hleft, hright⟩ := columns_rowsFrom 1 1 (groupChanges parts)
  refine ⟨flatMap_parts_groupChanges h, ?_, ?_⟩
  · rw [buildRows, hleft, hold, flatMap_oldLines]
  · rw [buildRows, hright, hnew, flatMap_newLines]

/-- Only the second of two removed parts is paired, and the lines of a pair need not be as many. -/
theorem groups_and_rows_lossless_uneven :
    let parts : List Part :=
      [{ value := ['a', '\n', 'b'], removed := true }, { value := ['c'], removed := true },
        { value := ['d', '\n', 'e', '\n'], added := true }, { value := ['f', '\n'], added := true }]
    (∀ part ∈ parts, part.IsPlain) ∧
      (groupChanges parts).map Group.kind = [.removed, .change, .added] ∧
      (groupChanges parts).flatMap Group.parts = parts ∧
      leftColumn (buildRows (groupChanges parts)) = [(['a'], 1), (['b'], 2), (['c'], 3)] ∧
      rightColumn (buildRows (groupChanges parts)) = [(['d'], 1), (['e'], 2), (['f'], 3)] := by
  intro parts
  have hplain : ∀ part ∈ parts, part.IsPlain := by
    simp [parts, Part.IsPlain]
  obtain ⟨hparts, hleft, hright⟩ := groups_and_rows_lossless hplain
  exact ⟨hplain, by decide, hparts, hleft.trans (by decide), hright.trans (by decide)⟩

end ReleasePrompts.Diff
