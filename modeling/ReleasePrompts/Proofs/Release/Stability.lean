import Mathlib
import ReleasePrompts.Proofs.Release.Sorting

/-!
# Sorting by keys is stable

Where the comparison is that of keys in a linear order, the items of one key stay in their order
(`SameByKey`): an item is inserted behind all others of its key, a run that is turned round has no two
of one key, and a merge takes items out of the second run only where the first has none of their keys
left. So `sortBy` returns the items in the order of their keys, and those of each key as they were
(`sortBy_stable`).
-/

namespace ReleasePrompts.Release

variable {α κ ε : Type} [LinearOrder κ] {key : α → κ} {before : α → α → Except ε Bool} {P : α → Prop}

/-- Two lists have, for each key, the same items of it in the same order. -/
def SameByKey (key : α → κ) (xs ys : List α) : Prop :=
  ∀ k, xs.filter (key · = k) = ys.filter (key · = k)

namespace SameByKey

variable {xs ys zs : List α}

theorem refl (xs : List α) : SameByKey key xs xs := fun _ => rfl

theorem trans (h : SameByKey key xs ys) (h' : SameByKey key ys zs) : SameByKey key xs zs :=
  fun k => (h k).trans (h' k)

theorem append {xs' ys' : List α} (h : SameByKey key xs ys) (h' : SameByKey key xs' ys') :
    SameByKey key (xs ++ xs') (ys ++ ys') := fun k => by
  rw [List.filter_append, List.filter_append, h k, h' k]

theorem append_left (zs : List α) (h : SameByKey key xs ys) : SameByKey key (zs ++ xs) (zs ++ ys) :=
  (refl zs).append h

theorem append_right (h : SameByKey key xs ys) (zs : List α) :
    SameByKey key (xs ++ zs) (ys ++ zs) := h.append (refl zs)

theorem reverse (h : SameByKey key xs ys) : SameByKey key xs.reverse ys.reverse := fun k => by
  rw [List.filter_reverse, List.filter_reverse, h k]

/-- Items may change places with items of other keys. -/
theorem append_comm (h : ∀ a ∈ xs, ∀ b ∈ ys, key a ≠ key b) :
    SameByKey key (xs ++ ys) (ys ++ xs) := fun k => by
  rw [List.filter_append, List.filter_append]
  by_cases hk : ∃ a ∈ xs, key a = k
  · obtain ⟨a, ha, rfl⟩ := hk
    have hnone : ys.filter (key · = key a) = [] :=
      List.filter_eq_nil_iff.mpr fun b hb => by simpa using (h a ha b hb).symm
    rw [hnone, List.append_nil, List.nil_append]
  · have hnone : xs.filter (key · = k) = [] :=
      List.filter_eq_nil_iff.mpr fun a ha => by simpa using fun e => hk ⟨a, ha, e⟩
    rw [hnone, List.append_nil, List.nil_append]

/-- Items of which no two have the same key may be turned round. -/
theorem reverse_right (h : xs.Pairwise fun a b => key a ≠ key b) :
    SameByKey key xs xs.reverse := by
  induction xs with
  | nil => exact refl []
  | cons item xs ih =>
    obtain ⟨hitem, hxs⟩ := List.pairwise_cons.mp h
    rw [List.reverse_cons]
    have hmoved : SameByKey key ([item] ++ xs) (xs ++ [item]) :=
      append_comm fun a ha b hb => List.mem_singleton.mp ha ▸ hitem b hb
    exact hmoved.trans ((ih hxs).append_right [item])

end SameByKey

/-! ## Keys in order -/

theorem InOrder.pairwise_key {items : List α}
    (h : InOrder (fun a b => decide (key a < key b)) items) :
    items.Pairwise fun a b => key a ≤ key b :=
  pairwise_of_chain (fun _ _ _ _ _ _ h h' => le_trans h h')
    (h.imp fun _ _ hab => not_lt.mp (of_decide_eq_false hab))

/-- Items in order have greater keys if the first one has. -/
theorem key_lt_of_head {k : κ} {items : List α} (hpairwise : items.Pairwise fun a b => key a ≤ key b)
    (h : ∀ a ∈ items.head?, k < key a) : ∀ a ∈ items, k < key a := by
  cases items with
  | nil => exact nofun
  | cons first items =>
    have hfirst : k < key first := h first rfl
    exact List.forall_mem_cons.mpr
      ⟨hfirst, fun a ha => hfirst.trans_le ((List.pairwise_cons.mp hpairwise).1 a ha)⟩

/-- Items in order have smaller keys if the last one has. -/
theorem key_lt_of_getLast {k : κ} {items : List α}
    (hpairwise : items.Pairwise fun a b => key a ≤ key b) (h : ∀ a ∈ items.getLast?, key a < k) :
    ∀ a ∈ items, key a < k := by
  induction items using List.reverseRecOn with
  | nil => exact nofun
  | append_singleton items last =>
    have hlast : key last < k := h last (by simp)
    rw [List.forall_mem_append]
    refine ⟨fun a ha => ?_, by simpa using hlast⟩
    exact ((List.pairwise_append.mp hpairwise).2.2 a ha last (by simp)).trans_lt hlast

/-! ## What keeps the order of each key -/

/-- Items of `ys` that are moved have smaller keys than all that are left of `xs`. -/
theorem Merged.sameByKey {first : α → α → Bool} {xs ys merged : List α}
    (h : Merged first xs ys merged) (hfirst : ∀ x y, first x y = true → key y < key x)
    (hxs : xs.Pairwise fun a b => key a ≤ key b) (hys : ys.Pairwise fun a b => key a ≤ key b)
    (hlast : ∀ x ∈ xs.getLast?, ∀ y ∈ ys.getLast?, key y < key x) :
    SameByKey key merged (xs ++ ys) := by
  induction h with
  | @done xs ys h =>
    refine .append_comm fun y hy x hx => ?_
    rcases h with rfl | h
    · cases hy
    · obtain ⟨x', rfl⟩ := List.length_eq_one_iff.mp (le_antisymm h (List.length_pos_of_mem hx))
      obtain rfl := List.mem_singleton.mp hx
      exact (key_lt_of_getLast hys (hlast x rfl) y hy).ne
  | @moveXs moved others ys merged y _ _ ih =>
    rw [List.append_assoc]
    refine .append_left moved (ih (List.pairwise_append.mp hxs).2.1 hys fun x hx => hlast x ?_)
    rw [List.getLast?_append, Option.mem_def.mp hx]
    rfl
  | @moveYs moved others xs merged x hmoved _ ih =>
    obtain ⟨hm, ho, -⟩ := List.pairwise_append.mp hys
    have hrest := ih hxs ho fun a ha y hy => hlast a ha y (by
      rw [List.getLast?_append, Option.mem_def.mp hy]
      rfl)
    have hcomm : SameByKey key (moved ++ (x :: xs)) ((x :: xs) ++ moved) :=
      .append_comm fun y hy a ha => by
        have hyx := key_lt_of_getLast hm (fun y hy => hfirst x y (hmoved y hy)) y hy
        have hxa : key x ≤ key a := (List.mem_cons.mp ha).elim (fun e => e ▸ le_rfl)
          ((List.pairwise_cons.mp hxs).1 a)
        exact (hyx.trans_le hxa).ne
    refine (hrest.append_left moved).trans ?_
    rw [← List.append_assoc, ← List.append_assoc]
    exact hcomm.append_right others

/-- From the back the items come in the dual order. -/
theorem MergedAt.sameByKey {side : Side} {xs ys merged : List α}
    (h : MergedAt (fun a b => decide (key a < key b)) side xs ys merged)
    (hxs : xs.Pairwise fun a b => key a ≤ key b) (hys : ys.Pairwise fun a b => key a ≤ key b)
    (hfirst : ∀ x ∈ xs.head?, ∀ y ∈ ys.head?, key y < key x)
    (hlast : ∀ x ∈ xs.getLast?, ∀ y ∈ ys.getLast?, key y < key x) :
    SameByKey key merged (xs ++ ys) := by
  cases side with
  | front => exact Merged.sameByKey h (fun x y hxy => of_decide_eq_true hxy) hxs hys hlast
  | back =>
    have hdual := @Merged.sameByKey _ _ _ (fun a => OrderDual.toDual (key a)) _ _ _ _ h
      (fun x y hxy => of_decide_eq_true hxy) (List.pairwise_reverse.mpr hys)
      (List.pairwise_reverse.mpr hxs) (fun y hy x hx => by
        rw [List.getLast?_reverse] at hx hy
        exact hfirst x hx y hy)
    have hreverse : SameByKey key merged.reverse (xs ++ ys).reverse := fun k => by
      simpa using hdual (OrderDual.toDual k)
    simpa using hreverse.reverse

theorem Merges.sameByKey {left right merged : List α}
    (h : Merges (fun a b => decide (key a < key b)) left right merged)
    (hleft : left.Pairwise fun a b => key a ≤ key b)
    (hright : right.Pairwise fun a b => key a ≤ key b) : SameByKey key merged (left ++ right) := by
  cases h with
  | apart => exact .refl _
  | @overlap stay xs ys kept merged side hoverlap hmerged =>
    have hmiddle := hmerged.sameByKey (List.pairwise_append.mp hleft).2.1
      (List.pairwise_append.mp hright).1
      (fun x hx y hy => of_decide_eq_true (hoverlap.first x hx y hy))
      fun x hx y hy => of_decide_eq_true (hoverlap.last x hx y hy)
    rw [show (stay ++ xs) ++ (ys ++ kept) = stay ++ (xs ++ ys) ++ kept by simp]
    exact (hmiddle.append_left stay).append_right kept

theorem Arises.sameByKey {lead items sorted : List α}
    (h : Arises (fun a b => decide (key a < key b)) lead items sorted) :
    SameByKey key sorted items := by
  have hasymm : ∀ a b, decide (key a < key b) = true → decide (key b < key a) = false :=
    fun a b hab => decide_eq_false (of_decide_eq_true hab).not_gt
  induction h with
  | ascending => exact .refl _
  | @descending run h =>
    have hlt : run.Pairwise fun a b => key a < key b :=
      pairwise_of_chain (fun _ _ _ _ _ _ h h' => lt_trans h h') (h.imp fun a b => of_decide_eq_true)
    exact .reverse_right (hlt.imp fun h => ne_of_lt h)
  | @insert lead items front behind item hsorted _ hbehind ih =>
    obtain ⟨-, hb, -⟩ := List.pairwise_append.mp (hsorted.inOrder hasymm).pairwise_key
    have hgreater := key_lt_of_head hb fun b hmem => of_decide_eq_true (hbehind b hmem)
    have hcomm : SameByKey key ([item] ++ behind) (behind ++ [item]) :=
      .append_comm fun a ha b hmem => List.mem_singleton.mp ha ▸ (hgreater b hmem).ne
    refine (hcomm.append_left front).trans ?_
    rw [← List.append_assoc]
    exact ih.append_right [item]
  | merge hleft hright h ihleft ihright =>
    exact (h.sameByKey (hleft.inOrder hasymm).pairwise_key (hright.inOrder hasymm).pairwise_key).trans
      (ihleft.append ihright)

/-- Sorting by keys returns the same items in the order of their keys, and leaves the items of each
key in their order. -/
theorem sortBy_stable (h : Answers before (fun a b => decide (key a < key b)) P) {items : List α}
    (hitems : ∀ a ∈ items, P a) :
    ∃ result, sortBy before items = .ok result ∧ result.Perm items ∧
      (result.Pairwise fun a b => key a ≤ key b) ∧ SameByKey key result items := by
  obtain ⟨lead, others, result, -, hr, harises⟩ := sortBy_spec h hitems
  exact ⟨result, hr, harises.perm, (harises.inOrder h.asymm).pairwise_key, harises.sameByKey⟩

end ReleasePrompts.Release
