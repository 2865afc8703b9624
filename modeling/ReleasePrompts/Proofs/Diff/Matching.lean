import ReleasePrompts.Diff.Matching

/-!
# Hunks tile both lists

The longest run is a run of both lists (`longestRun_shared`): the lengths kept while it is searched
for are lengths of shared beginnings (`searchRun_shared`). So the hunks of two lists tile them
(`hunks_left`, `hunks_right`): what they keep and take out is the first list, and what they keep and
put in the second.
-/

namespace ReleasePrompts.Diff

variable {α : Type}

/-- Two lists begin with the same `n` items. -/
structure Shared (a b : List α) (n : Nat) : Prop where
  le_left : n ≤ a.length
  le_right : n ≤ b.length
  take_eq : a.take n = b.take n

theorem Shared.zero (a b : List α) : Shared a b 0 := ⟨Nat.zero_le _, Nat.zero_le _, rfl⟩

theorem Shared.cons {a b : List α} {n : Nat} (h : Shared a b n) (x : α) :
    Shared (x :: a) (x :: b) (n + 1) where
  le_left := Nat.succ_le_succ h.le_left
  le_right := Nat.succ_le_succ h.le_right
  take_eq := by simp only [List.take_succ_cons, h.take_eq]

/-- The first largest number is one of the list, unless it is zero. -/
theorem getElem?_of_firstLargest (place : Nat) (ns : List Nat) :
    (firstLargest place ns).2 = 0 ∨ ∃ i, (firstLargest place ns).1 = place + i ∧
      ns[i]? = some (firstLargest place ns).2 := by
  induction ns generalizing place with
  | nil => exact .inl rfl
  | cons n rest ih =>
    simp only [firstLargest]
    split
    · exact .inr ⟨0, rfl, rfl⟩
    · rcases ih (place + 1) with h | ⟨i, hi, hn⟩
      · exact .inl h
      · exact .inr ⟨i + 1, by rw [hi]; omega, by simpa using hn⟩

variable [DecidableEq α]

theorem sharedLengths_shared {x : α} {a b : List α} {next : List Nat}
    (h : ∀ i n, next[i]? = some n → Shared a (b.drop i) n) :
    ∀ i n, (sharedLengths x b next)[i]? = some n → Shared (x :: a) (b.drop i) n := by
  intro i n hn
  rw [sharedLengths, List.getElem?_zipWith] at hn
  split at hn
  case h_2 => cases hn
  rename_i y m hy hm
  obtain ⟨hi, hy⟩ := List.getElem?_eq_some_iff.1 hy
  have hd : b.drop i = y :: b.drop (i + 1) := by rw [List.drop_eq_getElem_cons hi, hy]
  have hs : Shared a (b.drop (i + 1)) m := by
    rw [List.getElem?_append] at hm
    split at hm
    · rw [List.getElem?_drop, Nat.add_comm] at hm
      exact h _ _ hm
    · have hz : m = 0 := by
        have := List.mem_of_getElem? hm
        simpa using this
      exact hz ▸ Shared.zero _ _
  have hn := Option.some.inj hn
  split at hn
  · rename_i hx
    rw [hd, ← hn, hx]
    exact hs.cons y
  · exact hn ▸ Shared.zero _ _

/-- A run that stands at its places in both lists. -/
def Run.IsIn (run : Run) (a b : List α) : Prop :=
  run.size = 0 ∨ Shared (a.drop run.left) (b.drop run.right) run.size

/-- The lengths found for a list are lengths of beginnings that it shares with the suffixes of the
other, and the run found is one of both lists. -/
theorem searchRun_shared (b a : List α) :
    (∀ i n, (searchRun b a).1[i]? = some n → Shared a (b.drop i) n) ∧
      (searchRun b a).2.IsIn a b := by
  induction a with
  | nil =>
    refine ⟨fun i n hn => ?_, .inl rfl⟩
    have hz := List.mem_of_getElem? hn
    simp only [searchRun, List.mem_map] at hz
    obtain ⟨_, _, rfl⟩ := hz
    exact Shared.zero _ _
  | cons x rest ih =>
    obtain ⟨hlengths, hbest⟩ := ih
    have hl := sharedLengths_shared (x := x) hlengths
    refine ⟨hl, ?_⟩
    simp only [searchRun]
    split
    · -- the largest of the new lengths is that of the run at the front
      rcases getElem?_of_firstLargest 0 (sharedLengths x b (searchRun b rest).1) with h | ⟨i, hi, hn⟩
      · exact .inl h
      · rw [Nat.zero_add] at hi
        exact .inr (by simpa [hi] using hl i _ hn)
    · exact hbest

/-- The longest run is one of both lists. -/
theorem longestRun_shared {a b : List α} (h : (longestRun a b).size ≠ 0) :
    Shared (a.drop (longestRun a b).left) (b.drop (longestRun a b).right) (longestRun a b).size :=
  (searchRun_shared b a).2.resolve_left h

/-! ## Tiling -/

namespace Hunk

/-- The items of a hunk that the first list has. -/
def left : Hunk α → List α
  | same items => items
  | change old _ => old

/-- The items of a hunk that the second list has. -/
def right : Hunk α → List α
  | same items => items
  | change _ new => new

end Hunk

omit [DecidableEq α] in
theorem flatMap_left_gap (a b : List α) : (gap a b).flatMap Hunk.left = a := by
  unfold gap
  split
  · rename_i h
    simp only [Bool.and_eq_true, List.isEmpty_iff] at h
    rw [h.1, List.flatMap_nil]
  · simp [Hunk.left]

omit [DecidableEq α] in
theorem flatMap_right_gap (a b : List α) : (gap a b).flatMap Hunk.right = b := by
  unfold gap
  split
  · rename_i h
    simp only [Bool.and_eq_true, List.isEmpty_iff] at h
    rw [h.2, List.flatMap_nil]
  · simp [Hunk.right]

omit [DecidableEq α] in
/-- Joining runs that touch loses no item, on the side that `side` takes from a hunk. -/
theorem flatMap_joinHunk {side : Hunk α → List α} (hs : ∀ items, side (.same items) = items)
    (hunk : Hunk α) (others : List (Hunk α)) :
    (joinHunk hunk others).flatMap side = side hunk ++ others.flatMap side := by
  unfold joinHunk
  split
  · simp only [List.flatMap_cons, hs, List.append_assoc]
  · rw [List.flatMap_cons]

omit [DecidableEq α] in
theorem flatMap_joinHunks {side : Hunk α → List α} (hs : ∀ items, side (.same items) = items)
    (first others : List (Hunk α)) :
    (joinHunks first others).flatMap side = first.flatMap side ++ others.flatMap side := by
  induction first with
  | nil => rfl
  | cons hunk first ih =>
    rw [joinHunks, List.foldr_cons, flatMap_joinHunk hs, ← joinHunks, ih, List.flatMap_cons,
      List.append_assoc]

/-- What hunks keep and take out is the first list. -/
theorem hunks_left (a b : List α) : (hunks a b).flatMap Hunk.left = a := by
  fun_induction hunks a b with
  | case1 a b run _ => exact flatMap_left_gap a b
  | case2 a b run _ ihBefore ihBehind =>
    rw [flatMap_joinHunks fun _ => rfl, flatMap_joinHunk fun _ => rfl, ihBefore, ihBehind,
      Hunk.left, ← List.drop_drop, List.take_append_drop, List.take_append_drop]

/-- What hunks keep and put in is the second list. -/
theorem hunks_right (a b : List α) : (hunks a b).flatMap Hunk.right = b := by
  fun_induction hunks a b with
  | case1 a b run _ => exact flatMap_right_gap a b
  | case2 a b run hsize ihBefore ihBehind =>
    rw [flatMap_joinHunks fun _ => rfl, flatMap_joinHunk fun _ => rfl, ihBefore, ihBehind,
      Hunk.right, (longestRun_shared hsize).take_eq, ← List.drop_drop, List.take_append_drop,
      List.take_append_drop]

end ReleasePrompts.Diff
