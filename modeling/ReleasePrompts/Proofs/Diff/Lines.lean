import ReleasePrompts.Diff.Lines
import ReleasePrompts.Proofs.Diff.Matching

/-!
# Lines, parts and groups keep both texts

A text is cut into lines in two ways: `linesWithEnds` before two texts are compared, `splitLines`
for each part afterwards. `Lines` says what the first gives, and that any consecutive lines of it
are cut by the second exactly where they were joined (`splitLines_flatten`). So the lines of the
parts of one side are those of its text (`oldLines_lineDiff`, `newLines_lineDiff`), and pairing
parts to groups keeps them (`lines_groupChanges`).
-/

namespace ReleasePrompts.Diff

open Text

/-- Lines with their ends: only the last of them may lack its line feed, and is not empty then. -/
inductive Lines : List (List Char) → Prop
  | nil : Lines []
  | open {line : List Char} : line ≠ [] → '\n' ∉ line → Lines [line]
  | cons {line : List Char} {lines : List (List Char)} :
    '\n' ∉ line → Lines lines → Lines ((line ++ ['\n']) :: lines)

/-- A line without the line feed that ends it. -/
def withoutEnd (line : List Char) : List Char :=
  if line.getLast? = some '\n' then line.dropLast else line

@[simp] theorem withoutEnd_append (line : List Char) : withoutEnd (line ++ ['\n']) = line := by
  simp [withoutEnd]

theorem withoutEnd_of_not_mem {line : List Char} (h : '\n' ∉ line) : withoutEnd line = line :=
  if_neg fun e => h (List.mem_of_getLast? e)

theorem Lines.of_append {first others : List (List Char)} (h : Lines (first ++ others)) :
    Lines first ∧ Lines others := by
  induction first with
  | nil => exact ⟨.nil, h⟩
  | cons line first ih =>
    rw [List.cons_append] at h
    generalize e : first ++ others = behind at h
    cases h with
    | «open» hne hmem =>
      obtain ⟨rfl, rfl⟩ := List.append_eq_nil_iff.1 e
      exact ⟨.open hne hmem, .nil⟩
    | cons hmem hlines =>
      rw [← e] at hlines
      exact ⟨.cons hmem (ih hlines).1, (ih hlines).2⟩

/-! ## Cutting a text -/

theorem splitAt_append {α : Type} [DecidableEq α] {separator : α} {piece : List α}
    (h : separator ∉ piece) (rest : List α) :
    splitAt separator (piece ++ separator :: rest) = piece :: splitAt separator rest := by
  induction piece with
  | nil => simp [splitAt]
  | cons c piece ih =>
    rw [List.mem_cons, not_or] at h
    rw [List.cons_append, splitAt, if_neg (Ne.symm h.1), ih h.2]

theorem splitAt_of_not_mem {α : Type} [DecidableEq α] {separator : α} {piece : List α}
    (h : separator ∉ piece) : splitAt separator piece = [piece] := by
  induction piece with
  | nil => rfl
  | cons c piece ih =>
    rw [List.mem_cons, not_or] at h
    rw [splitAt, if_neg (Ne.symm h.1), ih h.2]

@[simp] theorem splitLines_nil : splitLines [] = [] := rfl

theorem splitLines_append {line : List Char} (h : '\n' ∉ line) (rest : List Char) :
    splitLines (line ++ '\n' :: rest) = line :: splitLines rest := by
  have hne := splitAt_ne_nil '\n' rest
  simp only [splitLines, splitAt_append h, List.getLast?_cons_of_ne_nil hne,
    List.dropLast_cons_of_ne_nil hne]
  split <;> rfl

theorem splitLines_of_not_mem {line : List Char} (hne : line ≠ []) (h : '\n' ∉ line) :
    splitLines line = [line] := by
  simp [splitLines, splitAt_of_not_mem h, hne]

/-- Lines that are joined are cut where they were joined. -/
theorem splitLines_flatten {lines : List (List Char)} (h : Lines lines) :
    splitLines lines.flatten = lines.map withoutEnd := by
  induction h with
  | nil => rfl
  | «open» hne hmem =>
    rw [List.flatten_singleton, splitLines_of_not_mem hne hmem, List.map_singleton,
      withoutEnd_of_not_mem hmem]
  | cons hmem _ ih =>
    rw [List.flatten_cons, List.append_assoc, List.singleton_append, splitLines_append hmem, ih,
      List.map_cons, withoutEnd_append]

theorem linesWithEnds_cons {c : Char} (hc : c ≠ '\n') (rest : List Char) :
    linesWithEnds (c :: rest) =
      match linesWithEnds rest with
      | [] => [[c]]
      | line :: lines => (c :: line) :: lines := by
  cases hl : linesWithEnds rest with
  | nil => simp only [linesWithEnds.eq_3 c rest hc, hl]
  | cons line lines =>
    simp only [linesWithEnds.eq_3 c rest hc, hl]
    split
    · -- a line feed next: the line behind is that line feed alone
      rename_i hr
      obtain ⟨rest, rfl⟩ : ∃ behind, rest = '\n' :: behind := by
        cases rest with
        | nil => cases hr
        | cons d behind => exact ⟨behind, by rw [Option.some.inj hr]⟩
      rw [linesWithEnds] at hl
      rw [← (List.cons.inj hl).1]
    · rfl

/-- The lines of a text are the text. -/
theorem flatten_linesWithEnds (text : List Char) : (linesWithEnds text).flatten = text := by
  induction text with
  | nil => rfl
  | cons c rest ih =>
    by_cases hc : c = '\n'
    · rw [hc, linesWithEnds, List.flatten_cons, ih, List.singleton_append]
    · rw [linesWithEnds_cons hc]
      split
      · rename_i hl
        rw [hl] at ih
        simp [← ih]
      · rename_i line lines hl
        rw [hl] at ih
        rw [List.flatten_cons, List.cons_append, ← List.flatten_cons, ih]

theorem lines_linesWithEnds (text : List Char) : Lines (linesWithEnds text) := by
  induction text with
  | nil => exact .nil
  | cons c rest ih =>
    by_cases hc : c = '\n'
    · rw [hc, linesWithEnds]
      exact @Lines.cons [] _ List.not_mem_nil ih
    · have hmem : ∀ line : List Char, '\n' ∉ line → '\n' ∉ c :: line := fun line h hn =>
        (List.mem_cons.1 hn).elim (fun e => hc e.symm) h
      rw [linesWithEnds_cons hc]
      split
      · exact .open (List.cons_ne_nil _ _) (hmem [] List.not_mem_nil)
      · rename_i line lines hl
        rw [hl] at ih
        cases ih with
        | «open» _ h => exact .open (List.cons_ne_nil _ _) (hmem _ h)
        | cons h hlines => exact @Lines.cons (c :: _) _ (hmem _ h) hlines

theorem splitLines_eq_map (text : List Char) :
    splitLines text = (linesWithEnds text).map withoutEnd := by
  rw [← splitLines_flatten (lines_linesWithEnds text), flatten_linesWithEnds]

/-! ## Parts and groups -/

/-- The lines of the first text that a part shows. -/
def Part.oldLines (part : Part) : List (List Char) :=
  if part.added then [] else splitLines part.value

/-- The lines of the second text that a part shows. -/
def Part.newLines (part : Part) : List (List Char) :=
  if part.removed then [] else splitLines part.value

/-- The parts of a hunk that are not added are the items that the first list has. -/
theorem old_hunkParts (hunk : Hunk (List Char)) :
    ((hunkParts hunk).filter fun part => !part.added).flatMap Part.value = hunk.left.flatten := by
  cases hunk with
  | same lines => simp [hunkParts, Hunk.left]
  | change old new => cases old <;> cases new <;> simp [hunkParts, Hunk.left]

/-- The parts of a hunk that are not removed are the items that the second list has. -/
theorem new_hunkParts (hunk : Hunk (List Char)) :
    ((hunkParts hunk).filter fun part => !part.removed).flatMap Part.value = hunk.right.flatten := by
  cases hunk with
  | same lines => simp [hunkParts, Hunk.right]
  | change old new => cases old <;> cases new <;> simp [hunkParts, Hunk.right]

theorem oldLines_hunkParts (hunk : Hunk (List Char)) :
    (hunkParts hunk).flatMap Part.oldLines = splitLines hunk.left.flatten := by
  cases hunk with
  | same lines => simp [hunkParts, Hunk.left, Part.oldLines]
  | change old new =>
    cases old <;> cases new <;> simp [hunkParts, Hunk.left, Part.oldLines]

theorem newLines_hunkParts (hunk : Hunk (List Char)) :
    (hunkParts hunk).flatMap Part.newLines = splitLines hunk.right.flatten := by
  cases hunk with
  | same lines => simp [hunkParts, Hunk.right, Part.newLines]
  | change old new =>
    cases old <;> cases new <;> simp [hunkParts, Hunk.right, Part.newLines]

/-- Lines in consecutive pieces are cut piece by piece as they are all at once. -/
theorem flatMap_splitLines {β : Type} {piece : β → List (List Char)} {pieces : List β}
    (h : Lines (pieces.flatMap piece)) :
    pieces.flatMap (fun b => splitLines (piece b).flatten) =
      (pieces.flatMap piece).map withoutEnd := by
  induction pieces with
  | nil => rfl
  | cons b pieces ih =>
    rw [List.flatMap_cons] at h
    rw [List.flatMap_cons, List.flatMap_cons, List.map_append, splitLines_flatten h.of_append.1,
      ih h.of_append.2]

theorem flatMap_flatten {β : Type} (piece : β → List (List Char)) (pieces : List β) :
    pieces.flatMap (fun b => (piece b).flatten) = (pieces.flatMap piece).flatten := by
  simpa only [List.flatMap_id] using (List.flatMap_assoc (l := pieces) (f := piece) (g := id)).symm

/-- The parts that are not added are the first text. -/
theorem old_lineDiff (old new : List Char) :
    ((lineDiff old new).filter fun part => !part.added).flatMap Part.value = old := by
  rw [lineDiff, List.filter_flatMap, List.flatMap_assoc]
  simp only [old_hunkParts]
  rw [flatMap_flatten, hunks_left, flatten_linesWithEnds]

/-- The parts that are not removed are the second text. -/
theorem new_lineDiff (old new : List Char) :
    ((lineDiff old new).filter fun part => !part.removed).flatMap Part.value = new := by
  rw [lineDiff, List.filter_flatMap, List.flatMap_assoc]
  simp only [new_hunkParts]
  rw [flatMap_flatten, hunks_right, flatten_linesWithEnds]

theorem oldLines_lineDiff (old new : List Char) :
    (lineDiff old new).flatMap Part.oldLines = splitLines old := by
  have h := hunks_left (linesWithEnds old) (linesWithEnds new)
  rw [lineDiff, List.flatMap_assoc, splitLines_eq_map]
  simp only [oldLines_hunkParts]
  rw [flatMap_splitLines (h.symm ▸ lines_linesWithEnds old), h]

theorem newLines_lineDiff (old new : List Char) :
    (lineDiff old new).flatMap Part.newLines = splitLines new := by
  have h := hunks_right (linesWithEnds old) (linesWithEnds new)
  rw [lineDiff, List.flatMap_assoc, splitLines_eq_map]
  simp only [newLines_hunkParts]
  rw [flatMap_splitLines (h.symm ▸ lines_linesWithEnds new), h]

/-- No part is both added and removed. -/
def Part.IsPlain (part : Part) : Prop := ¬(part.added = true ∧ part.removed = true)

theorem isPlain_of_mem_lineDiff {old new : List Char} {part : Part}
    (h : part ∈ lineDiff old new) : part.IsPlain := by
  obtain ⟨hunk, -, h⟩ := List.mem_flatMap.1 h
  unfold Part.IsPlain
  cases hunk with
  | same lines =>
    rw [List.mem_singleton.1 h]
    simp
  | change removed added =>
    rcases List.mem_append.1 h with h | h <;> split at h
    · cases h
    · rw [List.mem_singleton.1 h]
      simp
    · cases h
    · rw [List.mem_singleton.1 h]
      simp

/-- The lines of the first text that a group shows. -/
def Group.oldLines (group : Group) : List (List Char) :=
  match group.kind with
  | .added => []
  | _ => splitLines group.old

/-- The lines of the second text that a group shows. -/
def Group.newLines (group : Group) : List (List Char) :=
  match group.kind with
  | .unchanged => splitLines group.old
  | .removed => []
  | _ => splitLines group.new

theorem lines_single {part : Part} (h : part.IsPlain) :
    (groupChanges.single part).oldLines = part.oldLines ∧
      (groupChanges.single part).newLines = part.newLines := by
  obtain ⟨value, added, removed⟩ := part
  cases added <;> cases removed
  case true.true => exact absurd ⟨rfl, rfl⟩ h
  all_goals exact ⟨rfl, rfl⟩

/-- Pairing parts to groups keeps the lines of both sides. -/
theorem lines_groupChanges {parts : List Part} (h : ∀ part ∈ parts, part.IsPlain) :
    (groupChanges parts).flatMap Group.oldLines = parts.flatMap Part.oldLines ∧
      (groupChanges parts).flatMap Group.newLines = parts.flatMap Part.newLines := by
  fun_induction groupChanges parts with
  | case1 => exact ⟨rfl, rfl⟩
  | case2 part next rest hpair ih =>
    obtain ⟨hold, hnew⟩ := ih fun p hp => h p (List.mem_cons_of_mem _ (List.mem_cons_of_mem _ hp))
    simp only [Bool.and_eq_true] at hpair
    have hpart : part.added = false := by simpa [Part.IsPlain, hpair.1] using h part (by simp)
    have hnext : next.removed = false := by simpa [Part.IsPlain, hpair.2] using h next (by simp)
    simp [Group.oldLines, Group.newLines, Part.oldLines, Part.newLines, hold, hnew, hpart, hnext,
      hpair]
  | case3 part next rest hpair ih =>
    obtain ⟨hold, hnew⟩ := ih fun p hp => h p (List.mem_cons_of_mem _ hp)
    obtain ⟨hpold, hpnew⟩ := lines_single (h part List.mem_cons_self)
    exact ⟨congr (congrArg _ hpold) hold, congr (congrArg _ hpnew) hnew⟩
  | case4 part =>
    simpa only [List.flatMap_singleton] using lines_single (h part List.mem_cons_self)

end ReleasePrompts.Diff
