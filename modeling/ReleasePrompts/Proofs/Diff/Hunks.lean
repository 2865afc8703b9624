import Mathlib.Data.List.Chain
import ReleasePrompts.Proofs.Diff.Matching

/-!
# Hunks in normal form

What stays and what changes take turns in the hunks of two lists, and no hunk is empty
(`normal_hunks`): the hunks before a run, the run and those behind it are joined (`Normal.joinHunk`,
`Normal.joinHunks`), and runs that touch become one. A list compared with itself is one run
(`longestRun_self`), so two lists are equal exactly if nothing changes between them
(`forall_isSame_hunks_iff`).
-/

namespace ReleasePrompts.Diff

variable {α : Type}

/-- Whether the items of a hunk stay. -/
def Hunk.isSame : Hunk α → Bool
  | same _ => true
  | change _ _ => false

/-- A hunk has items on one side at least. -/
def Hunk.HasItems (hunk : Hunk α) : Prop := hunk.left ≠ [] ∨ hunk.right ≠ []

theorem not_hasItems_change_nil : ¬ (Hunk.change [] [] : Hunk α).HasItems :=
  fun h => h.elim (absurd rfl) (absurd rfl)

/-- Hunks that stay and hunks that change take turns, and none is empty. -/
structure Normal (hunks : List (Hunk α)) : Prop where
  takeTurns : hunks.IsChain fun hunk next => next.isSame = !hunk.isSame
  hasItems : ∀ hunk ∈ hunks, hunk.HasItems

theorem normal_nil : Normal ([] : List (Hunk α)) := ⟨.nil, fun _ h => absurd h List.not_mem_nil⟩

theorem normal_cons_iff {hunk : Hunk α} {hunks : List (Hunk α)} :
    Normal (hunk :: hunks) ↔
      hunk.HasItems ∧ (∀ next ∈ hunks.head?, next.isSame = !hunk.isSame) ∧ Normal hunks := by
  constructor
  · intro h
    obtain ⟨hhead, htail⟩ := List.isChain_cons.1 h.takeTurns
    obtain ⟨hitems, hall⟩ := List.forall_mem_cons.1 h.hasItems
    exact ⟨hitems, hhead, htail, hall⟩
  · rintro ⟨hitems, hhead, h⟩
    exact ⟨List.isChain_cons.2 ⟨hhead, h.takeTurns⟩, List.forall_mem_cons.2 ⟨hitems, h.hasItems⟩⟩

theorem normal_gap (a b : List α) : Normal (gap a b) := by
  unfold gap
  split
  · exact normal_nil
  · rename_i h
    refine normal_cons_iff.2 ⟨?_, by simp, normal_nil⟩
    rw [Bool.and_eq_true, List.isEmpty_iff, List.isEmpty_iff, not_and_or] at h
    exact h

/-- A hunk that is joined to others still comes first. -/
theorem isSame_of_mem_head?_joinHunk {hunk next : Hunk α} {others : List (Hunk α)}
    (h : next ∈ (joinHunk hunk others).head?) : next.isSame = hunk.isSame := by
  unfold joinHunk at h
  split at h <;> exact Option.some.inj h ▸ rfl

/-- A run can be joined to any hunks, a change only to those that do not begin with one. -/
theorem Normal.joinHunk {hunk : Hunk α} {others : List (Hunk α)} (h : Normal others)
    (hitems : hunk.HasItems)
    (hbegin : hunk.isSame = true ∨ ∀ next ∈ others.head?, next.isSame = true) :
    Normal (joinHunk hunk others) := by
  unfold Diff.joinHunk
  split
  · rename_i items more rest
    obtain ⟨-, hhead, hrest⟩ := normal_cons_iff.1 h
    have hne : items ≠ [] := hitems.elim id id
    exact normal_cons_iff.2 ⟨.inl (List.append_ne_nil_of_left_ne_nil hne _), hhead, hrest⟩
  · rename_i hruns
    refine normal_cons_iff.2 ⟨hitems, fun next hnext => ?_, h⟩
    cases hunk with
    | change => exact (hbegin.resolve_left Bool.false_ne_true) next hnext
    | same items =>
      -- a run behind a run would have been joined to it
      cases next with
      | change => rfl
      | same more =>
        obtain ⟨rest, rfl⟩ := List.head?_eq_some_iff.1 hnext
        exact absurd rfl (hruns items more rest rfl)

theorem Normal.joinHunks {first others : List (Hunk α)} (hfirst : Normal first)
    (h : Normal others) (hbegin : ∀ next ∈ others.head?, next.isSame = true) :
    Normal (joinHunks first others) := by
  induction first with
  | nil => exact h
  | cons hunk first ih =>
    obtain ⟨hitems, hhead, hfirst⟩ := normal_cons_iff.1 hfirst
    refine (ih hfirst).joinHunk hitems ?_
    cases hkind : hunk.isSame with
    | true => exact .inl rfl
    | false =>
      refine .inr fun next hnext => ?_
      cases first with
      | nil => exact hbegin next hnext
      | cons second first =>
        rw [isSame_of_mem_head?_joinHunk hnext, hhead second rfl, hkind, Bool.not_false]

variable [DecidableEq α]

/-- The hunks of two lists are in normal form. -/
theorem normal_hunks (a b : List α) : Normal (hunks a b) := by
  fun_induction hunks a b with
  | case1 a b run _ => exact normal_gap a b
  | case2 a b run hsize ihBefore ihBehind =>
    have hle : run.left + run.size ≤ a.length := longestRun_le a b
    have hrun : (a.drop run.left).take run.size ≠ [] := by
      rw [Ne, ← List.length_eq_zero_iff, List.length_take, List.length_drop]
      omega
    refine ihBefore.joinHunks (ihBehind.joinHunk (.inl hrun) (.inl rfl)) fun next hnext => ?_
    exact isSame_of_mem_head?_joinHunk hnext

/-! ## A list compared with itself -/

theorem length_sharedLengths {x : α} {b : List α} {next : List Nat} (h : next.length = b.length) :
    (sharedLengths x b next).length = b.length := by
  rw [sharedLengths, List.length_zipWith, List.length_append, List.length_drop, h]
  cases b <;> simp

theorem fst_searchRun_cons (b : List α) (x : α) (rest : List α) :
    (searchRun b (x :: rest)).1 = sharedLengths x b (searchRun b rest).1 := rfl

theorem length_searchRun (b a : List α) : (searchRun b a).1.length = b.length := by
  induction a with
  | nil => exact List.length_map _
  | cons x rest ih => exact length_sharedLengths ih

/-- A suffix shares all of itself with the whole. -/
theorem getElem?_searchRun_append (before a : List α) :
    ((searchRun (before ++ a) a).1 ++ [0])[before.length]? = some a.length := by
  induction a generalizing before with
  | nil => simp [searchRun]
  | cons x rest ih =>
    have hnext := ih (before ++ [x])
    rw [List.append_assoc, List.singleton_append, List.length_append, List.length_singleton] at hnext
    have hlength := length_searchRun (before ++ x :: rest) rest
    have hlt : before.length < (before ++ x :: rest).length := by simp
    have hshifted : ((searchRun (before ++ x :: rest) rest).1.drop 1 ++ [0])[before.length]? =
        some rest.length := by
      rw [← List.drop_append_of_le_length (by omega), List.getElem?_drop, Nat.add_comm, hnext]
    have hx : (before ++ x :: rest)[before.length]? = some x := by simp
    rw [fst_searchRun_cons,
      List.getElem?_append_left (by rw [length_sharedLengths hlength]; exact hlt),
      sharedLengths, List.getElem?_zipWith, hx, hshifted]
    simp

theorem firstLargest_cons_of_le {n : Nat} {ns : List Nat} (h : ∀ m ∈ ns, m ≤ n) (place : Nat) :
    firstLargest place (n :: ns) = (place, n) := by
  rw [firstLargest, if_pos (firstLargest_le h (place + 1))]

/-- The longest run of a list with itself is the whole list. -/
theorem longestRun_self (a : List α) : longestRun a a = ⟨0, 0, a.length⟩ := by
  cases a with
  | nil => rfl
  | cons x rest =>
    have hwhole := getElem?_searchRun_append [] (x :: rest)
    have hbounds := (searchRun_le (x :: rest) (x :: rest)).1
    have hbest := (searchRun_le (x :: rest) rest).2
    rw [List.nil_append, List.length_nil, fst_searchRun_cons] at hwhole
    rw [fst_searchRun_cons] at hbounds
    simp only [longestRun, searchRun]
    -- the first of the lengths is that of the whole list, and no other is above it
    cases hlengths : sharedLengths x (x :: rest) (searchRun (x :: rest) rest).1 with
    | nil => simp [hlengths] at hwhole
    | cons n ns =>
      rw [hlengths] at hwhole hbounds
      obtain rfl : n = (x :: rest).length := by simpa using hwhole
      rw [firstLargest_cons_of_le fun m hm => hbounds m (List.mem_cons_of_mem _ hm)]
      exact if_pos (by rw [List.length_cons]; omega)

theorem hunks_nil : hunks ([] : List α) [] = [] := by
  have hsize : (longestRun ([] : List α) []).size = 0 := rfl
  rw [hunks, dif_pos hsize]
  rfl

theorem hunks_self {a : List α} (h : a ≠ []) : hunks a a = [.same a] := by
  have hsize : (longestRun a a).size ≠ 0 := by
    rw [longestRun_self]
    exact fun he => h (List.length_eq_zero_iff.1 he)
  rw [hunks, dif_neg hsize, longestRun_self]
  simp [hunks_nil, joinHunks, joinHunk]

/-- Two lists are equal exactly if nothing changes between them. -/
theorem forall_isSame_hunks_iff {a b : List α} :
    (∀ hunk ∈ hunks a b, hunk.isSame = true) ↔ a = b := by
  constructor
  · intro h
    have hsides : ∀ hunk ∈ hunks a b, hunk.left = hunk.right := fun hunk hmem => by
      cases hunk with
      | same items => rfl
      | change old new => exact absurd (h _ hmem) Bool.false_ne_true
    calc a = (hunks a b).flatMap Hunk.left := (hunks_left a b).symm
      _ = (hunks a b).flatMap Hunk.right := List.flatMap_congr hsides
      _ = b := hunks_right a b
  · rintro rfl hunk hmem
    by_cases ha : a = []
    · rw [ha, hunks_nil] at hmem
      cases hmem
    · rw [hunks_self ha, List.mem_singleton] at hmem
      rw [hmem]
      rfl

end ReleasePrompts.Diff
