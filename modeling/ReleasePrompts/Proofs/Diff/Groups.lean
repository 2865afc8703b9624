import Mathlib.Data.List.SplitBy
import ReleasePrompts.Proofs.Diff.Hunks
import ReleasePrompts.Proofs.Diff.Lines

/-!
# Groups are the regions of a comparison

Since hunks are in normal form, pairing a removed part with the added one behind it joins exactly the
parts of one hunk (`groupChanges_flatMap`): each hunk gives one group, and the parts of the group are
those of the hunk (`parts_group`). So the groups of two texts are the longest regions of parts that
all stay or all change (`groups_normal`).
-/

namespace ReleasePrompts.Diff

/-- Whether a part is shown on one side only. -/
def Part.isChanged (part : Part) : Bool := part.added || part.removed

/-- The parts that a group shows: what is removed before what is added. -/
def Group.parts (group : Group) : List Part :=
  match group.kind with
  | .unchanged => [{ value := group.old }]
  | .change => [{ value := group.old, removed := true }, { value := group.new, added := true }]
  | .removed => [{ value := group.old, removed := true }]
  | .added => [{ value := group.new, added := true }]

/-- The group of a hunk of lines. -/
def Hunk.group : Hunk (List Char) → Group
  | .same lines => { kind := .unchanged, old := lines.flatten, new := lines.flatten }
  | .change old new =>
    if old.isEmpty then { kind := .added, new := new.flatten }
    else if new.isEmpty then { kind := .removed, old := old.flatten }
    else { kind := .change, old := old.flatten, new := new.flatten }

theorem kind_group_eq_unchanged_iff (hunk : Hunk (List Char)) :
    hunk.group.kind = .unchanged ↔ hunk.isSame = true := by
  cases hunk with
  | same lines => simp [Hunk.group, Hunk.isSame]
  | change old new => cases old <;> cases new <;> simp [Hunk.group, Hunk.isSame]

/-- A hunk whose group changes has lines on both sides. -/
theorem group_eq_of_kind_change {hunk : Hunk (List Char)} (h : hunk.group.kind = .change) :
    hunk.left ≠ [] ∧ hunk.right ≠ [] ∧
      hunk.group = { kind := .change, old := hunk.left.flatten, new := hunk.right.flatten } := by
  cases hunk with
  | same lines => cases h
  | change old new =>
    cases old <;> cases new
    case cons.cons => exact ⟨List.cons_ne_nil _ _, List.cons_ne_nil _ _, rfl⟩
    all_goals cases h

theorem parts_group {hunk : Hunk (List Char)} (h : hunk.HasItems) :
    hunk.group.parts = hunkParts hunk := by
  cases hunk with
  | same lines => rfl
  | change old new =>
    cases old <;> cases new
    case nil.nil => exact absurd h not_hasItems_change_nil
    all_goals rfl

theorem isChanged_of_mem_hunkParts {hunk : Hunk (List Char)} {part : Part}
    (h : part ∈ hunkParts hunk) : part.isChanged = !hunk.isSame := by
  cases hunk with
  | same lines =>
    rw [List.mem_singleton.1 h]
    rfl
  | change old new =>
    rcases List.mem_append.1 h with h | h <;> split at h
    · cases h
    · rw [List.mem_singleton.1 h]
      rfl
    · cases h
    · rw [List.mem_singleton.1 h]
      rfl

theorem hunkParts_ne_nil {hunk : Hunk (List Char)} (h : hunk.HasItems) :
    hunkParts hunk ≠ [] := by
  cases hunk with
  | same lines => simp [hunkParts]
  | change old new =>
    cases old <;> cases new
    case nil.nil => exact absurd h not_hasItems_change_nil
    all_goals simp [hunkParts]

/-- A part is a group of its own unless it is removed and an added one is next. -/
theorem groupChanges_cons {part : Part} {parts : List Part}
    (h : part.removed = false ∨ ∀ next ∈ parts.head?, next.added = false) :
    groupChanges (part :: parts) = groupChanges.single part :: groupChanges parts := by
  cases parts with
  | nil => rfl
  | cons next rest =>
    have hpair : (part.removed && next.added) = false := by
      rw [Bool.and_eq_false_iff]
      exact h.imp_right fun hnext => hnext next rfl
    rw [groupChanges, hpair]
    rfl

/-- Each hunk gives one group. -/
theorem groupChanges_flatMap {hunks : List (Hunk (List Char))} (h : Normal hunks) :
    groupChanges (hunks.flatMap hunkParts) = hunks.map Hunk.group := by
  induction hunks with
  | nil => rfl
  | cons hunk hunks ih =>
    obtain ⟨hitems, hhead, hrest⟩ := normal_cons_iff.1 h
    rw [List.flatMap_cons, List.map_cons, ← ih hrest]
    cases hunk with
    | same lines => exact groupChanges_cons (.inl rfl)
    | change old new =>
      -- what stays is next, so nothing added is
      have hnext : ∀ part ∈ (hunks.flatMap hunkParts).head?, part.added = false := by
        intro part hpart
        cases hunks with
        | nil => cases hpart
        | cons next hunks =>
          cases next with
          | change => exact absurd (hhead _ rfl) Bool.false_ne_true
          | same lines => exact (Option.some.inj hpart) ▸ rfl
      cases old <;> cases new
      case nil.nil => exact absurd hitems not_hasItems_change_nil
      case nil.cons => exact groupChanges_cons (.inl rfl)
      case cons.nil => exact groupChanges_cons (.inr hnext)
      case cons.cons => rfl

/-! ## Groups of two texts -/

theorem Lines.ne_nil {lines : List (List Char)} (h : Lines lines) : ∀ line ∈ lines, line ≠ [] := by
  induction h with
  | nil => exact fun _ h => absurd h List.not_mem_nil
  | «open» hne _ => exact List.forall_mem_singleton.2 hne
  | cons _ _ ih => exact List.forall_mem_cons.2 ⟨List.append_ne_nil_of_right_ne_nil _ (by simp), ih⟩

/-- Some consecutive lines of a text are some of its characters. -/
theorem flatten_ne_nil_of_mem {β : Type} {piece : β → List (List Char)} {pieces : List β} {b : β}
    (h : Lines (pieces.flatMap piece)) (hb : b ∈ pieces) (hne : piece b ≠ []) :
    (piece b).flatten ≠ [] := by
  obtain ⟨line, hline⟩ := List.exists_mem_of_ne_nil _ hne
  have hmem : line ∈ pieces.flatMap piece := List.mem_flatMap.2 ⟨b, hb, hline⟩
  exact List.flatten_ne_nil_iff.2 ⟨line, hline, h.ne_nil line hmem⟩

/-- The hunks of the lines of two texts. -/
def lineHunks (old new : List Char) : List (Hunk (List Char)) :=
  hunks (linesWithEnds old) (linesWithEnds new)

variable {old new : List Char} {hunk : Hunk (List Char)}

theorem normal_lineHunks (old new : List Char) : Normal (lineHunks old new) := normal_hunks _ _

theorem flatten_left_ne_nil (h : hunk ∈ lineHunks old new) (hne : hunk.left ≠ []) :
    hunk.left.flatten ≠ [] := by
  have hlines : Lines ((lineHunks old new).flatMap Hunk.left) := by
    rw [lineHunks, hunks_left]
    exact lines_linesWithEnds old
  exact flatten_ne_nil_of_mem hlines h hne

theorem flatten_right_ne_nil (h : hunk ∈ lineHunks old new) (hne : hunk.right ≠ []) :
    hunk.right.flatten ≠ [] := by
  have hlines : Lines ((lineHunks old new).flatMap Hunk.right) := by
    rw [lineHunks, hunks_right]
    exact lines_linesWithEnds new
  exact flatten_ne_nil_of_mem hlines h hne

theorem groupChanges_lineDiff (old new : List Char) :
    groupChanges (lineDiff old new) = (lineHunks old new).map Hunk.group :=
  groupChanges_flatMap (normal_hunks _ _)

/-- Cutting parts wherever one that stays meets one that changes gives the parts of each hunk. -/
theorem splitBy_lineDiff (old new : List Char) :
    (lineDiff old new).splitBy (fun part next => part.isChanged == next.isChanged) =
      (lineHunks old new).map hunkParts := by
  have hnormal := normal_lineHunks old new
  have hparts : ∀ hunk ∈ lineHunks old new, hunkParts hunk ≠ [] := fun hunk h =>
    hunkParts_ne_nil (hnormal.hasItems hunk h)
  rw [lineDiff, List.flatMap_def]
  refine List.splitBy_flatten ?_ ?_ ?_
  · intro hmem
    obtain ⟨hunk, h, he⟩ := List.mem_map.1 hmem
    exact hparts hunk h he
  · intro parts hmem
    obtain ⟨hunk, -, rfl⟩ := List.mem_map.1 hmem
    refine (List.pairwise_of_forall_mem_list fun part hp next hn => ?_).isChain
    rw [isChanged_of_mem_hunkParts hp, isChanged_of_mem_hunkParts hn, beq_self_eq_true]
  · refine (List.isChain_map _).2 (hnormal.takeTurns.imp_of_mem_imp fun hunk next h hn hturn => ?_)
    refine ⟨hparts hunk h, hparts next hn, ?_⟩
    rw [isChanged_of_mem_hunkParts (List.getLast_mem _), isChanged_of_mem_hunkParts (List.head_mem _),
      hturn]
    cases hunk.isSame <;> rfl

/-- Groups in normal form. Those that stay and those that change take turns. Each is one region of
the parts: cut wherever a part that stays and one that changes meet, they are the parts of the
groups, one after the other. A group that changes has text on both sides, and what is removed stands
before what is added. -/
theorem groups_normal (old new : List Char) :
    (groupChanges (lineDiff old new)).IsChain
        (fun group next => group.kind = .unchanged ↔ next.kind ≠ .unchanged) ∧
      (lineDiff old new).splitBy (fun part next => part.isChanged == next.isChanged) =
        (groupChanges (lineDiff old new)).map Group.parts ∧
      ∀ group ∈ groupChanges (lineDiff old new), group.kind = .change →
        group.old ≠ [] ∧ group.new ≠ [] ∧
          group.parts =
            [{ value := group.old, removed := true }, { value := group.new, added := true }] := by
  have hnormal := normal_lineHunks old new
  rw [splitBy_lineDiff, groupChanges_lineDiff]
  refine ⟨?_, ?_, ?_⟩
  · refine (List.isChain_map _).2 (hnormal.takeTurns.imp fun hunk next hturn => ?_)
    rw [Ne, kind_group_eq_unchanged_iff, kind_group_eq_unchanged_iff, hturn]
    simp
  · rw [List.map_map]
    exact List.map_congr_left fun hunk h => (parts_group (hnormal.hasItems hunk h)).symm
  · intro group hmem hkind
    obtain ⟨hunk, h, rfl⟩ := List.mem_map.1 hmem
    obtain ⟨hleft, hright, hgroup⟩ := group_eq_of_kind_change hkind
    rw [hgroup]
    exact ⟨flatten_left_ne_nil h hleft, flatten_right_ne_nil h hright, rfl⟩

end ReleasePrompts.Diff
