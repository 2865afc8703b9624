/-!
# Matching two lists

Two lists are compared by their longest common run, which stays, and the parts before and behind it,
which are compared in the same way. Of several longest runs the one that starts earliest in the
first list counts, and then the one earliest in the second. `hunks` gives the result: runs that stay
and, between them, what is taken out and put in.
-/

namespace ReleasePrompts.Diff

variable {α : Type} [DecidableEq α]

/-- A common run: its places in both lists, and its length. -/
structure Run where
  left : Nat
  right : Nat
  size : Nat
  deriving DecidableEq, Repr

/-- For each suffix of `b` the length of the beginning it shares with `x :: a`, given those it
shares with `a`. -/
def sharedLengths (x : α) (b : List α) (next : List Nat) : List Nat :=
  List.zipWith (fun y shared => if x = y then shared + 1 else 0) b (next.drop 1 ++ [0])

/-- The place and the size of the first largest number, counted from `place`. -/
def firstLargest (place : Nat) : List Nat → Nat × Nat
  | [] => (place, 0)
  | n :: rest =>
    let found := firstLargest (place + 1) rest
    if found.2 ≤ n then (place, n) else found

/-- The lengths that the suffixes of `b` share with the list, and the longest run of both. -/
def searchRun (b : List α) : List α → List Nat × Run
  | [] => (b.map fun _ => 0, ⟨0, 0, 0⟩)
  | x :: rest =>
    let (next, best) := searchRun b rest
    let lengths := sharedLengths x b next
    let (place, size) := firstLargest 0 lengths
    (lengths, if best.size ≤ size then ⟨0, place, size⟩ else { best with left := best.left + 1 })

/-- The longest common run of two lists. -/
def longestRun (a b : List α) : Run := (searchRun b a).2

omit [DecidableEq α] in
theorem firstLargest_le {bound : Nat} {ns : List Nat} (h : ∀ n ∈ ns, n ≤ bound) (place : Nat) :
    (firstLargest place ns).2 ≤ bound := by
  induction ns generalizing place with
  | nil => simp [firstLargest]
  | cons n rest ih =>
    simp only [firstLargest]
    split
    · exact h n List.mem_cons_self
    · exact ih (fun m hm => h m (List.mem_cons_of_mem _ hm)) _

theorem mem_sharedLengths_le {bound : Nat} {next : List Nat} (x : α) (b : List α)
    (h : ∀ n ∈ next, n ≤ bound) : ∀ n ∈ sharedLengths x b next, n ≤ bound + 1 := by
  intro n hn
  simp only [sharedLengths, List.mem_iff_getElem, List.length_zipWith, List.getElem_zipWith] at hn
  obtain ⟨i, hi, rfl⟩ := hn
  have hle : ∀ m ∈ next.drop 1 ++ [0], m ≤ bound := by
    intro m hm
    rcases List.mem_append.1 hm with hm | hm
    · exact h m (List.mem_of_mem_drop hm)
    · have := List.mem_singleton.1 hm
      omega
  have hm := hle _ (List.getElem_mem (show i < (next.drop 1 ++ [0]).length by omega))
  split <;> omega

theorem searchRun_le (b a : List α) :
    (∀ n ∈ (searchRun b a).1, n ≤ a.length) ∧
      (searchRun b a).2.left + (searchRun b a).2.size ≤ a.length := by
  induction a with
  | nil => simp [searchRun]
  | cons x rest ih =>
    have hl := mem_sharedLengths_le x b ih.1
    refine ⟨by simpa [searchRun] using hl, ?_⟩
    have hs := firstLargest_le hl 0
    have hb := ih.2
    simp only [searchRun, List.length_cons]
    split <;> simp only <;> omega

/-- The longest run lies inside the first list. -/
theorem longestRun_le (a b : List α) : (longestRun a b).left + (longestRun a b).size ≤ a.length :=
  (searchRun_le b a).2

/-- A part of a comparison: items that stay, or items that give way to others. -/
inductive Hunk (α : Type) where
  | same (items : List α)
  | change (old new : List α)
  deriving DecidableEq, Repr

/-- What lies between two runs. -/
def gap (a b : List α) : List (Hunk α) := if a.isEmpty && b.isEmpty then [] else [.change a b]

/-- A hunk before others; runs that touch are one. -/
def joinHunk (hunk : Hunk α) (others : List (Hunk α)) : List (Hunk α) :=
  match hunk, others with
  | .same items, .same more :: rest => .same (items ++ more) :: rest
  | hunk, others => hunk :: others

/-- Hunks before others. -/
def joinHunks (hunks others : List (Hunk α)) : List (Hunk α) := hunks.foldr joinHunk others

/-- The comparison of two lists. -/
def hunks (a b : List α) : List (Hunk α) :=
  let run := longestRun a b
  if _ : run.size = 0 then gap a b
  else
    joinHunks (hunks (a.take run.left) (b.take run.right))
      (joinHunk (.same ((a.drop run.left).take run.size))
        (hunks (a.drop (run.left + run.size)) (b.drop (run.right + run.size))))
termination_by a.length
decreasing_by
  all_goals
    have hle := longestRun_le a b
    have hpos : 0 < (longestRun a b).size := Nat.pos_of_ne_zero ‹¬(longestRun a b).size = 0›
    simp only [List.length_take, List.length_drop]
    omega

end ReleasePrompts.Diff
