import ReleasePrompts.Diff.Segments
import ReleasePrompts.Proofs.Diff.Hunks
import ReleasePrompts.Proofs.Diff.Lines

/-!
# Segments keep both lines

The segments of a side are what the hunks of the words hold on that side (`segmentsOn`), so together
they are the line (`flatMap_text_segmentsOn`). Words are never empty, hence segments are not
(`text_ne_nil_of_mem_segmentsOn`), and what stays is on both sides
(`filter_unchanged_segmentsOn_congr`).
-/

namespace ReleasePrompts.Diff

open Text

variable {side other : Hunk (List Char) → List (List Char)} {compared : List (Hunk (List Char))}

/-- The segments of the items that `side` takes from hunks. -/
def segmentsOn (side : Hunk (List Char) → List (List Char)) (compared : List (Hunk (List Char))) :
    List Segment :=
  compared.filterMap fun hunk => segment? (!hunk.isSame) (side hunk)

theorem wordSegments_eq (old new : List Char) :
    wordSegments old new = (segmentsOn Hunk.left (hunks (words old) (words new)),
      segmentsOn Hunk.right (hunks (words old) (words new))) := by
  have hleft : leftSegment? = fun hunk => segment? (!hunk.isSame) hunk.left := by
    funext hunk
    cases hunk <;> rfl
  have hright : rightSegment? = fun hunk => segment? (!hunk.isSame) hunk.right := by
    funext hunk
    cases hunk <;> rfl
  rw [wordSegments, hleft, hright, segmentsOn, segmentsOn]

theorem flatMap_text_segment? (changed : Bool) (items : List (List Char)) :
    (segment? changed items).toList.flatMap Segment.text = items.flatten := by
  cases items <;> simp [segment?]

/-- The segments of a side hold all that the hunks hold there. -/
theorem flatMap_text_segmentsOn :
    (segmentsOn side compared).flatMap Segment.text = (compared.flatMap side).flatten := by
  rw [segmentsOn, List.filterMap_eq_flatMap_toList, List.flatMap_assoc]
  simp only [flatMap_text_segment?]
  exact flatMap_flatten side compared

theorem text_ne_nil_of_mem_segmentsOn (h : ∀ word ∈ compared.flatMap side, word ≠ [])
    {segment : Segment} (hmem : segment ∈ segmentsOn side compared) : segment.text ≠ [] := by
  obtain ⟨hunk, hhunk, hs⟩ := List.mem_filterMap.1 hmem
  cases hitems : side hunk with
  | nil => simp [segment?, hitems] at hs
  | cons word items =>
    have hword : word ∈ side hunk := hitems ▸ List.mem_cons_self
    have hne := h word (List.mem_flatMap.2 ⟨hunk, hhunk, hword⟩)
    rw [hitems] at hs
    rw [← Option.some.inj hs]
    exact List.append_ne_nil_of_left_ne_nil hne _

theorem filter_unchanged_segment?_true (items : List (List Char)) :
    (segment? true items).filter (fun segment => !segment.changed) = none := by
  cases items <;> rfl

/-- Sides that agree where a hunk stays have the same unchanged segments. -/
theorem filter_unchanged_segmentsOn_congr
    (h : ∀ hunk : Hunk (List Char), hunk.isSame = true → side hunk = other hunk) :
    (segmentsOn side compared).filter (fun segment => !segment.changed) =
      (segmentsOn other compared).filter fun segment => !segment.changed := by
  rw [segmentsOn, segmentsOn, List.filter_filterMap, List.filter_filterMap]
  refine List.filterMap_congr fun hunk _ => ?_
  cases hkind : hunk.isSame with
  | true => rw [h hunk hkind]
  | false => rw [Bool.not_false, filter_unchanged_segment?_true, filter_unchanged_segment?_true]

/-- The segments of two lines lose nothing and agree on what stays. Put together, those of each side
are its line, and none is empty; and the unchanged texts of both sides are the same, in the same
order. -/
theorem wordSegments_lossless (old new : List Char) :
    (wordSegments old new).1.flatMap Segment.text = old ∧
      (wordSegments old new).2.flatMap Segment.text = new ∧
      (∀ segment ∈ (wordSegments old new).1 ++ (wordSegments old new).2, segment.text ≠ []) ∧
      ((wordSegments old new).1.filter fun segment => !segment.changed).map Segment.text =
        ((wordSegments old new).2.filter fun segment => !segment.changed).map Segment.text := by
  have hleft := hunks_left (words old) (words new)
  have hright := hunks_right (words old) (words new)
  rw [wordSegments_eq]
  refine ⟨?_, ?_, fun segment h => ?_, ?_⟩
  · rw [flatMap_text_segmentsOn, hleft, flatten_words]
  · rw [flatMap_text_segmentsOn, hright, flatten_words]
  · rcases List.mem_append.1 h with h | h
    · exact text_ne_nil_of_mem_segmentsOn (fun _ hw => ne_nil_of_mem_words (hleft ▸ hw)) h
    · exact text_ne_nil_of_mem_segmentsOn (fun _ hw => ne_nil_of_mem_words (hright ▸ hw)) h
  · refine congrArg (List.map Segment.text) (filter_unchanged_segmentsOn_congr fun hunk hsame => ?_)
    cases hunk with
    | same items => rfl
    | change removed added => cases hsame

end ReleasePrompts.Diff
