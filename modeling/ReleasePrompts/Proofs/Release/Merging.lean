import Mathlib.Data.List.Chain
import Mathlib.Data.List.Infix
import ReleasePrompts.Release.Merging

/-!
# What a merge does with any comparison

The searches of a merge find a place whose two neighbours they have compared (`bisect_spec`,
`gallop_spec`), so that no merge puts an item behind another without having asked, or having known
from the order of a run, whether it may stand there. What is left of the algorithm is a way to take
items from the fronts of two lists (`Merged`, `mergeFrom_spec`), and where that is done for two runs
(`Merges`, `mergeRuns_spec`). Whatever the comparison, a merge keeps the items and the order of each
run (`Merges.perm`, `Merges.sublist_left`), and no item comes before its predecessor
(`Merges.inOrder`).
-/

namespace ReleasePrompts.Release

variable {α ε : Type} {before : α → α → Except ε Bool} {lt : α → α → Bool} {P : α → Prop}

/-- On the items that satisfy `P`, the comparison answers what `lt` says, and `lt` never holds both
ways. -/
structure Answers (before : α → α → Except ε Bool) (lt : α → α → Bool) (P : α → Prop) : Prop where
  answer : ∀ a b, P a → P b → before a b = .ok (lt a b)
  asymm : ∀ a b, lt a b = true → lt b a = false

/-- Items of which none comes before its predecessor. -/
abbrev InOrder (lt : α → α → Bool) (items : List α) : Prop :=
  items.IsChain fun a b => lt b a = false

/-! ## Searches -/

section Search

variable {behind : Nat → Except ε Bool} {q : Nat → Bool}

/-- Whether the answers change at a place between two others: from the one before it on it is so, and
at the place it is not, as far as these are between the two. -/
structure ChangesAt (q : Nat → Bool) (low high place : Nat) : Prop where
  low_le : low ≤ place
  le_high : place ≤ high
  before : low < place → q (place - 1) = true
  at_place : place < high → q place = false

/-- What is found among some places is found among more of them, if the answers that end these places
are right. -/
theorem ChangesAt.widen {low high low' high' place : Nat} (h : ChangesAt q low high place)
    (hlow : low' ≤ low) (hhigh : high ≤ high') (hbefore : low' < low → q (low - 1) = true)
    (hbehind : high < high' → q high = false) : ChangesAt q low' high' place := by
  have hle := h.low_le
  have hle' := h.le_high
  refine ⟨hlow.trans hle, hle'.trans hhigh, fun hplace => ?_, fun hplace => ?_⟩
  · rcases Nat.eq_or_lt_of_le hle with heq | hlt
    · rw [← heq]
      exact hbefore (by omega)
    · exact h.before hlt
  · rcases Nat.eq_or_lt_of_le hle' with heq | hlt
    · rw [heq]
      exact hbehind (by omega)
    · exact h.at_place hlt

theorem bisect_spec (low high : Nat) (hle : low ≤ high)
    (h : ∀ n, low ≤ n → n < high → behind n = .ok (q n)) :
    ∃ place, bisect behind low high = .ok place ∧ ChangesAt q low high place := by
  induction hn : high - low using Nat.strongRecOn generalizing low high with
  | ind n ih =>
    rw [bisect]
    by_cases hl : low < high
    · have hmiddle := h (low + (high - low) / 2) (by omega) (by omega)
      simp only [if_pos hl, hmiddle]
      cases hq : q (low + (high - low) / 2) with
      | true =>
        obtain ⟨place, hp, hat⟩ := ih _ (by omega) (low + (high - low) / 2 + 1) high (by omega)
          (fun n hlow hhigh => h n (by omega) hhigh) rfl
        exact ⟨place, hp, hat.widen (by omega) (Nat.le_refl _) (fun _ => hq)
          fun hlt => absurd hlt (Nat.lt_irrefl _)⟩
      | false =>
        obtain ⟨place, hp, hat⟩ := ih _ (by omega) low (low + (high - low) / 2) (by omega)
          (fun n hlow hhigh => h n hlow (by omega)) rfl
        exact ⟨place, hp, hat.widen (Nat.le_refl _) (by omega)
          (fun hlt => absurd hlt (Nat.lt_irrefl _)) fun _ => hq⟩
    · rw [if_neg hl]
      exact ⟨low, rfl, Nat.le_refl _, hle, fun h => absurd h (Nat.lt_irrefl _),
        fun h => absurd h hl⟩

/-- The strides end with one that goes on, or the first one, and one that does not, or the limit. -/
theorem goOn_spec {further : Nat → Except ε Bool} (limit last stride : Nat) (hlast : last < limit)
    (hle : last < stride) (hq : 0 < last → q last = true)
    (h : ∀ n < limit, further n = .ok (q n)) :
    ∃ last' stride', goOn further limit last stride = .ok (last', stride') ∧ last' < stride' ∧
      stride' ≤ limit ∧ (0 < last' → q last' = true) ∧ (stride' < limit → q stride' = false) := by
  induction hn : limit - stride using Nat.strongRecOn generalizing last stride with
  | ind n ih =>
    rw [goOn]
    by_cases hl : stride < limit
    · simp only [if_pos hl, h stride hl]
      cases hs : q stride with
      | true =>
        exact ih _ (by omega) stride (2 * stride + 1) hl (by omega) (fun _ => hs) rfl
      | false => exact ⟨last, stride, rfl, hle, by omega, hq, fun _ => hs⟩
    · rw [if_neg hl]
      exact ⟨last, limit, rfl, hlast, Nat.le_refl _, hq, fun h => absurd h (Nat.lt_irrefl _)⟩

/-- What is found by galloping has the same neighbours as what is found by halves. -/
theorem gallop_spec {size hint : Nat} (hhint : hint < size)
    (h : ∀ n < size, behind n = .ok (q n)) :
    ∃ place, gallop behind size hint = .ok place ∧ ChangesAt q 0 size place := by
  simp only [gallop, h hint hhint]
  cases hq : q hint with
  | true =>
    obtain ⟨last, stride, hstrides, hlt, hlimit, hlast, hstride⟩ :=
      @goOn_spec _ (fun n => q (hint + n)) (fun n => behind (hint + n)) (size - hint) 0 1 (by omega)
        (by omega) (fun h => absurd h (Nat.lt_irrefl _)) fun n hn => h _ (by omega)
    obtain ⟨place, hp, hat⟩ := @bisect_spec _ behind q (hint + last + 1) (hint + stride) (by omega)
      fun n _ hhigh => h n (by omega)
    refine ⟨place, ?_, hat.widen (Nat.zero_le _) (by omega) (fun _ => ?_) fun hlt => ?_⟩
    · simp only [hstrides]
      exact hp
    · rcases Nat.eq_zero_or_pos last with rfl | hpos
      · exact hq
      · exact hlast hpos
    · exact hstride (by omega)
  | false =>
    obtain ⟨last, stride, hstrides, hlt, hlimit, hlast, hstride⟩ :=
      @goOn_spec _ (fun n => !q (hint - n)) (fun n => (!·) <$> behind (hint - n)) (hint + 1) 0 1
        (by omega) (by omega) (fun h => absurd h (Nat.lt_irrefl _)) fun n hn => by
          rw [h (hint - n) (by omega)]; rfl
    obtain ⟨place, hp, hat⟩ := @bisect_spec _ behind q (hint + 1 - stride) (hint - last) (by omega)
      fun n _ hhigh => h n (by omega)
    refine ⟨place, ?_, hat.widen (Nat.zero_le _) (by omega) (fun hlt => ?_) fun _ => ?_⟩
    · simp only [hstrides]
      exact hp
    · rw [show hint + 1 - stride - 1 = hint - stride by omega]
      simpa using hstride (by omega)
    · rcases Nat.eq_zero_or_pos last with rfl | hpos
      · exact hq
      · simpa using hlast hpos

/-- At either end, the last of the items that lead does so and the one behind it does not. -/
theorem leading_spec (side : Side) {leads : Nat → Except ε Bool} {size : Nat} (hsize : 0 < size)
    (h : ∀ n < size, leads n = .ok (q n)) :
    ∃ count, leading side leads size = .ok count ∧ ChangesAt q 0 size count := by
  cases side with
  | front => exact gallop_spec hsize h
  | back =>
    obtain ⟨place, hp, hat⟩ := @gallop_spec _ (fun n => (!·) <$> leads (size - 1 - n))
      (fun n => !q (size - 1 - n)) size (size - 1) (by omega) fun n hn => by
        rw [h (size - 1 - n) (by omega)]; rfl
    have hle := hat.le_high
    refine ⟨size - place, ?_, Nat.zero_le _, Nat.sub_le _ _, fun hcount => ?_, fun hcount => ?_⟩
    · rw [leading, hp]
      rfl
    · have := hat.at_place (by omega)
      rw [show size - place - 1 = size - 1 - place by omega]
      simpa using this
    · have := hat.before (by omega)
      rw [show size - place = size - 1 - (place - 1) by omega]
      simpa using this

end Search

/-! ## Which items lead -/

/-- What `overtakes` answers. -/
def goesFirst (lt : α → α → Bool) (side : Side) (x y : α) : Bool :=
  match side with
  | .front => lt y x
  | .back => lt x y

theorem Answers.overtakes (h : Answers before lt P) (side : Side) {x y : α} (hx : P x) (hy : P y) :
    overtakes before side x y = .ok (goesFirst lt side x y) := by
  cases side with
  | front => exact h.answer y x hy hx
  | back => exact h.answer x y hx hy

/-- A list is cut where an answer on its items changes. -/
theorem ChangesAt.cut {q : α → Bool} {items : List α} {count : Nat}
    (h : ChangesAt (fun n => (items[n]?).any q) 0 items.length count) :
    (∀ a ∈ (items.take count).getLast?, q a = true) ∧
      ∀ a ∈ (items.drop count).head?, q a = false := by
  refine ⟨fun a ha => ?_, fun a ha => ?_⟩
  · rw [List.getLast?_eq_getElem?, List.length_take_of_le h.le_high] at ha
    obtain ⟨hlt, rfl⟩ := List.getElem?_eq_some_iff.mp ha
    rw [List.length_take_of_le h.le_high] at hlt
    have hbefore := h.before (by omega)
    rw [List.getElem?_eq_getElem (by have := h.le_high; omega)] at hbefore
    rw [List.getElem_take]
    exact hbefore
  · rw [List.head?_drop] at ha
    obtain ⟨hlt, rfl⟩ := List.getElem?_eq_some_iff.mp ha
    have hat := h.at_place hlt
    rw [List.getElem?_eq_getElem hlt] at hat
    exact hat

theorem leadingXs_spec (h : Answers before lt P) (side : Side) {y : α} (hy : P y) {xs : List α}
    (hxs : ∀ x ∈ xs, P x) (hne : xs ≠ []) :
    ∃ count, leadingXs before side y xs = .ok count ∧
      (∀ x ∈ (xs.take count).getLast?, goesFirst lt side x y = false) ∧
      ∀ x ∈ (xs.drop count).head?, goesFirst lt side x y = true := by
  obtain ⟨count, hcount, hat⟩ : ∃ count, leadingXs before side y xs = .ok count ∧
      ChangesAt (fun n => (xs[n]?).any fun x => !goesFirst lt side x y) 0 xs.length count := by
    refine leading_spec side (List.length_pos_iff.mpr hne) fun n hn => ?_
    simp only [List.getElem?_eq_getElem hn, h.overtakes side (hxs _ (List.getElem_mem hn)) hy]
    rfl
  exact ⟨count, hcount, by simpa using hat.cut.1, by simpa using hat.cut.2⟩

theorem leadingYs_spec (h : Answers before lt P) (side : Side) {x : α} (hx : P x) {ys : List α}
    (hys : ∀ y ∈ ys, P y) (hne : ys ≠ []) :
    ∃ count, leadingYs before side x ys = .ok count ∧
      (∀ y ∈ (ys.take count).getLast?, goesFirst lt side x y = true) ∧
      ∀ y ∈ (ys.drop count).head?, goesFirst lt side x y = false := by
  obtain ⟨count, hcount, hat⟩ : ∃ count, leadingYs before side x ys = .ok count ∧
      ChangesAt (fun n => (ys[n]?).any (goesFirst lt side x)) 0 ys.length count := by
    refine leading_spec side (List.length_pos_iff.mpr hne) fun n hn => ?_
    simp only [List.getElem?_eq_getElem hn, h.overtakes side hx (hys _ (List.getElem_mem hn))]
    rfl
  exact ⟨count, hcount, hat.cut⟩

/-! ## A merge, item by item -/

/-- How two lists become one: items of one of them are moved if the last of these goes before the
first item of the other, until one list has no items left or `xs` has one. -/
inductive Merged (first : α → α → Bool) : List α → List α → List α → Prop where
  | done {xs ys : List α} (h : ys = [] ∨ xs.length ≤ 1) : Merged first xs ys (ys ++ xs)
  | moveXs {moved others ys merged : List α} {y : α} (h : ∀ x ∈ moved.getLast?, first x y = false)
      (hrest : Merged first others (y :: ys) merged) :
      Merged first (moved ++ others) (y :: ys) (moved ++ merged)
  | moveYs {moved others xs merged : List α} {x : α} (h : ∀ y ∈ moved.getLast?, first x y = true)
      (hrest : Merged first (x :: xs) others merged) :
      Merged first (x :: xs) (moved ++ others) (moved ++ merged)

namespace Merged

variable {first : α → α → Bool} {x y : α} {xs ys merged : List α}

theorem takeX (h : first x y = false) (hrest : Merged first xs (y :: ys) merged) :
    Merged first (x :: xs) (y :: ys) (x :: merged) :=
  @moveXs _ _ [x] _ _ _ _ (fun a ha => by obtain rfl : x = a := Option.some.inj ha; exact h) hrest

theorem takeY (h : first x y = true) (hrest : Merged first (x :: xs) ys merged) :
    Merged first (x :: xs) (y :: ys) (y :: merged) :=
  @moveYs _ _ [y] _ _ _ _ (fun a ha => by obtain rfl : y = a := Option.some.inj ha; exact h) hrest

end Merged

/-- A move leaves items of both lists behind, such that whatever these become by a merge is behind
what was moved. -/
structure Move.Keeps (first : α → α → Bool) (xs ys : List α) {size : Nat} (move : Move α size) :
    Prop where
  xs_subset : move.xs ⊆ xs
  ys_subset : move.ys ⊆ ys
  merged : ∀ merged, Merged first move.xs move.ys merged →
    Merged first xs ys (move.moved ++ merged)

theorem moveOne_spec (h : Answers before lt P) (side : Side) (patience xWins yWins : Nat) {x y : α}
    (hx : P x) (hy : P y) (xs ys : List α) :
    ∃ move, moveOne before side patience xWins yWins x xs y ys = .ok move ∧
      move.Keeps (goesFirst lt side) (x :: xs) (y :: ys) := by
  simp only [moveOne, h.overtakes side hx hy]
  cases hfirst : goesFirst lt side x y with
  | true => exact ⟨_, rfl, List.Subset.refl _, List.subset_cons_self _ _, fun _ => .takeY hfirst⟩
  | false => exact ⟨_, rfl, List.subset_cons_self _ _, List.Subset.refl _, fun _ => .takeX hfirst⟩

theorem moveXs_spec (h : Answers before lt P) (side : Side) (next : Nat → Pace) {xs ys : List α}
    (htwo : 2 ≤ xs.length) {y : α} (hxs : ∀ x ∈ xs, P x) (hy : P y) :
    ∃ move, moveXs before side next xs htwo y ys = .ok move ∧
      move.Keeps (goesFirst lt side) xs (y :: ys) := by
  obtain ⟨count, hcount, hled, hothers⟩ :=
    leadingXs_spec h side hy hxs (List.ne_nil_of_length_pos (by omega))
  simp only [moveXs, hcount]
  have hcut := List.take_append_drop count xs
  -- behind the items that lead, those that stay may be merged in any way
  have hmove : ∀ merged, Merged (goesFirst lt side) (xs.drop count) (y :: ys) merged →
      Merged (goesFirst lt side) xs (y :: ys) (xs.take count ++ merged) := fun merged hmerged => by
    simpa only [hcut] using Merged.moveXs hled hmerged
  by_cases hlength : (xs.drop count).length ≤ 1
  · exact ⟨_, dif_pos hlength, List.drop_subset _ _, List.Subset.refl _, hmove⟩
  · refine ⟨_, dif_neg hlength, List.drop_subset _ _, List.subset_cons_self _ _,
      fun merged hmerged => ?_⟩
    obtain ⟨x, others, hx⟩ := List.exists_cons_of_length_pos (by omega : 0 < (xs.drop count).length)
    show Merged _ xs (y :: ys) ((xs.take count ++ [y]) ++ merged)
    rw [List.append_assoc]
    refine hmove _ ?_
    rw [hx] at hothers ⊢
    exact .takeY (hothers x rfl) (hx ▸ hmerged)

theorem moveYs_spec (h : Answers before lt P) (side : Side) (next : Nat → Pace) {x : α}
    {xs ys : List α} (hne : ys ≠ []) (hx : P x) (hys : ∀ y ∈ ys, P y) :
    ∃ move, moveYs before side next x xs ys hne = .ok move ∧
      move.Keeps (goesFirst lt side) (x :: xs) ys := by
  obtain ⟨count, hcount, hled, hothers⟩ := leadingYs_spec h side hx hys hne
  simp only [moveYs, hcount]
  have hcut := List.take_append_drop count ys
  have hmove : ∀ merged, Merged (goesFirst lt side) (x :: xs) (ys.drop count) merged →
      Merged (goesFirst lt side) (x :: xs) ys (ys.take count ++ merged) := fun merged hmerged => by
    simpa only [hcut] using Merged.moveYs hled hmerged
  by_cases hnone : ys.drop count = []
  · exact ⟨_, dif_pos hnone, List.Subset.refl _, List.drop_subset _ _, hmove⟩
  · refine ⟨_, dif_neg hnone, List.subset_cons_self _ _, List.drop_subset _ _,
      fun merged hmerged => ?_⟩
    obtain ⟨y, others, hy⟩ := List.exists_cons_of_ne_nil hnone
    show Merged _ (x :: xs) ys ((ys.take count ++ [x]) ++ merged)
    rw [List.append_assoc]
    refine hmove _ ?_
    rw [hy] at hothers ⊢
    exact .takeX (hothers y rfl) (hy ▸ hmerged)

theorem move_spec (h : Answers before lt P) (side : Side) (pace : Pace) (patience : Nat)
    {x x' y : α} {xs ys : List α} (hxs : ∀ a ∈ x :: x' :: xs, P a) (hys : ∀ a ∈ y :: ys, P a) :
    ∃ found, move before side pace patience x x' xs y ys = .ok found ∧
      found.Keeps (goesFirst lt side) (x :: x' :: xs) (y :: ys) := by
  have hx := hxs x (by simp)
  have hy := hys y (by simp)
  cases pace with
  | single again xWins yWins => exact moveOne_spec h side patience xWins yWins hx hy (x' :: xs) ys
  | opening again =>
    cases side with
    | front => exact moveXs_spec h .front .closing (by simp) hxs hy
    | back => exact moveYs_spec h .back .closing (by simp) hx hys
  | closing found =>
    cases side with
    | front => exact moveYs_spec h .front (.behindRound found) (by simp) hx hys
    | back => exact moveXs_spec h .back (.behindRound found) (by simp) hxs hy

/-- A merge takes items from the fronts of its lists. -/
theorem mergeFrom_spec (h : Answers before lt P) (side : Side) (pace : Pace) (patience : Nat)
    {xs ys : List α} (hxs : ∀ x ∈ xs, P x) (hys : ∀ y ∈ ys, P y) :
    ∃ merged patience', mergeFrom before side pace patience xs ys = .ok (merged, patience') ∧
      Merged (goesFirst lt side) xs ys merged := by
  induction hn : xs.length + ys.length using Nat.strongRecOn
    generalizing pace patience xs ys with
  | ind n ih =>
    rcases xs with _ | ⟨x, _ | ⟨x', xs⟩⟩
    · rw [mergeFrom]
      · exact ⟨_, _, rfl, .done (.inr (by simp))⟩
      · simp
    · rw [mergeFrom]
      · exact ⟨_, _, rfl, .done (.inr (by simp))⟩
      · simp
    rcases ys with _ | ⟨y, ys⟩
    · rw [mergeFrom]
      · exact ⟨_, _, rfl, .done (.inl rfl)⟩
      · simp
    · obtain ⟨found, hfound, hkeeps⟩ := move_spec h side pace (pace.patience patience) hxs hys
      obtain ⟨merged, patience', hmerge, hmerged⟩ := ih _ (hn ▸ found.fewer) found.pace
        (pace.patience patience) (fun a ha => hxs a (hkeeps.xs_subset ha))
        (fun a ha => hys a (hkeeps.ys_subset ha)) rfl
      refine ⟨_, patience', ?_, hkeeps.merged merged hmerged⟩
      rw [mergeFrom]
      simp only [hfound, bind, Except.bind, hmerge]
      rfl

/-! ## What every merge keeps -/

/-- A list in which every item may follow the one before it, and which begins and ends as one of two
lists does. -/
structure Woven (C : α → α → Prop) (xs ys merged : List α) : Prop where
  chain : merged.IsChain C
  head : ∀ a ∈ merged.head?, a ∈ xs.head? ∨ a ∈ ys.head?
  last : ∀ a ∈ merged.getLast?, a ∈ xs.getLast? ∨ a ∈ ys.getLast?

theorem mem_getLast?_append {items others : List α} {a : α} (h : a ∈ others.getLast?) :
    a ∈ (items ++ others).getLast? := by
  rw [List.getLast?_append, Option.mem_def.mp h]
  rfl

section Woven

variable {C : α → α → Prop} {xs ys merged : List α}

theorem Woven.symm (h : Woven C xs ys merged) : Woven C ys xs merged :=
  ⟨h.chain, fun a ha => (h.head a ha).symm, fun a ha => (h.last a ha).symm⟩

theorem woven_append (hxs : xs.IsChain C) (hys : ys.IsChain C)
    (hjoin : ∀ x ∈ xs.getLast?, ∀ y ∈ ys.head?, C x y) : Woven C xs ys (xs ++ ys) := by
  refine ⟨List.isChain_append.mpr ⟨hxs, hys, hjoin⟩, fun a ha => ?_, fun a ha => ?_⟩
  · cases xs with
    | nil => exact .inr ha
    | cons x xs => exact .inl ha
  · cases hy : ys.getLast? with
    | none => exact .inl (by simpa [List.getLast?_append, hy] using ha)
    | some y => exact .inr (by simpa [List.getLast?_append, hy] using ha)

/-- Items may be moved in front that were in front of one of the lists. -/
theorem Woven.move {moved others : List α} (h : Woven C others ys merged)
    (hxs : (moved ++ others).IsChain C) (hne : merged ≠ [])
    (hjoin : ∀ x ∈ moved.getLast?, ∀ y ∈ ys.head?, C x y) :
    Woven C (moved ++ others) ys (moved ++ merged) := by
  obtain ⟨hmoved, -, hothers⟩ := List.isChain_append.mp hxs
  refine ⟨List.isChain_append.mpr ⟨hmoved, h.chain, fun x hx a ha => ?_⟩, fun a ha => ?_,
    fun a ha => ?_⟩
  · exact (h.head a ha).elim (hothers x hx a) (hjoin x hx a)
  · cases moved with
    | nil => exact h.head a ha
    | cons x moved => exact .inl ha
  · rw [List.getLast?_append_of_ne_nil _ hne] at ha
    exact (h.last a ha).imp_left mem_getLast?_append

end Woven

namespace Merged

variable {first : α → α → Bool} {xs ys merged : List α}

theorem perm (h : Merged first xs ys merged) : merged.Perm (xs ++ ys) := by
  induction h with
  | done => exact List.perm_append_comm
  | moveXs _ _ ih => simpa using ih.append_left _
  | @moveYs moved others xs merged x _ _ ih =>
    refine (ih.append_left moved).trans ?_
    rw [← List.append_assoc, ← List.append_assoc]
    exact List.perm_append_comm.append_right others

theorem sublist_xs (h : Merged first xs ys merged) : xs.Sublist merged := by
  induction h with
  | done => exact List.sublist_append_right _ _
  | moveXs _ _ ih => exact ih.append_left _
  | moveYs _ _ ih => exact ih.trans (List.sublist_append_right _ _)

theorem sublist_ys (h : Merged first xs ys merged) : ys.Sublist merged := by
  induction h with
  | done => exact List.sublist_append_left _ _
  | moveXs _ _ ih => exact ih.trans (List.sublist_append_right _ _)
  | moveYs _ _ ih => exact ih.append_left _

theorem ne_nil_of_left (h : Merged first xs ys merged) (hxs : xs ≠ []) : merged ≠ [] := fun hnil =>
  hxs (List.sublist_nil.mp (hnil ▸ h.sublist_xs))

theorem ne_nil_of_right (h : Merged first xs ys merged) (hys : ys ≠ []) : merged ≠ [] := fun hnil =>
  hys (List.sublist_nil.mp (hnil ▸ h.sublist_ys))

/-- Two lists in which every item may follow the one before it become such a list, if the last item
of `xs` goes behind that of `ys`. -/
theorem woven {C : α → α → Prop} (h : Merged first xs ys merged)
    (hC : ∀ x ∈ xs, ∀ y ∈ ys, (first x y = false → C x y) ∧ (first x y = true → C y x))
    (hxs : xs.IsChain C) (hys : ys.IsChain C)
    (hlast : ∀ x ∈ xs.getLast?, ∀ y ∈ ys.getLast?, first x y = true) : Woven C xs ys merged := by
  induction h with
  | @done xs ys h =>
    refine (woven_append hys hxs fun y hy x hx => ?_).symm
    rcases h with rfl | h
    · cases hy
    · obtain ⟨others, rfl⟩ := List.head?_eq_some_iff.mp hx
      obtain rfl : others = [] := List.length_eq_zero_iff.mp (by simpa using h)
      exact (hC x (by simp) y (List.mem_of_getLast? hy)).2 (hlast x rfl y hy)
  | @moveXs moved others ys merged y h hrest ih =>
    have hothers : Woven C others (y :: ys) merged :=
      ih (fun x hx => hC x (List.mem_append_right _ hx)) (List.isChain_append.mp hxs).2.1 hys
        fun x hx => hlast x (mem_getLast?_append hx)
    refine hothers.move hxs (hrest.ne_nil_of_right (List.cons_ne_nil y ys)) fun x hx a ha => ?_
    obtain rfl : y = a := Option.some.inj ha
    exact (hC x (List.mem_append_left _ (List.mem_of_getLast? hx)) y (by simp)).1 (h x hx)
  | @moveYs moved others xs merged x h hrest ih =>
    have hothers : Woven C (x :: xs) others merged :=
      ih (fun x hx y hy => hC x hx y (List.mem_append_right _ hy)) hxs
        (List.isChain_append.mp hys).2.1 fun x hx y hy => hlast x hx y (mem_getLast?_append hy)
    refine (hothers.symm.move hys (hrest.ne_nil_of_left (List.cons_ne_nil x xs)) fun y hy a ha =>
      ?_).symm
    obtain rfl : x = a := Option.some.inj ha
    exact (hC x (by simp) y (List.mem_append_left _ (List.mem_of_getLast? hy))).2 (h y hy)

end Merged

/-! ## Two runs -/

/-- How the middle of two runs becomes one list, at the end at which they are merged. -/
def MergedAt (lt : α → α → Bool) (side : Side) (xs ys merged : List α) : Prop :=
  match side with
  | .front => Merged (goesFirst lt .front) xs ys merged
  | .back => Merged (goesFirst lt .back) ys.reverse xs.reverse merged.reverse

/-- Two runs of which the middle has to be merged: `stay` and `kept` are in place. -/
structure Overlap (lt : α → α → Bool) (stay xs ys kept : List α) : Prop where
  xs_ne : xs ≠ []
  start : ∀ a ∈ stay.getLast?, ∀ b ∈ ys.head?, lt b a = false
  first : ∀ a ∈ xs.head?, ∀ b ∈ ys.head?, lt b a = true
  last : ∀ a ∈ xs.getLast?, ∀ b ∈ ys.getLast?, lt b a = true
  finish : ∀ a ∈ xs.getLast?, ∀ b ∈ kept.head?, lt b a = false

/-- How two runs of which one follows the other become one. -/
inductive Merges (lt : α → α → Bool) : List α → List α → List α → Prop where
  | apart {left right : List α} (h : ∀ a ∈ left.getLast?, ∀ b ∈ right.head?, lt b a = false) :
      Merges lt left right (left ++ right)
  | overlap {stay xs ys kept merged : List α} (side : Side) (h : Overlap lt stay xs ys kept)
      (hmerged : MergedAt lt side xs ys merged) :
      Merges lt (stay ++ xs) (ys ++ kept) (stay ++ merged ++ kept)

theorem mergeBehind_spec (h : Answers before lt P) (side : Side) (patience : Nat)
    {xs ys : List α} (hxs : ∀ x ∈ xs, P x) (hys : ∀ y ∈ ys, P y) (hne : xs ≠ [])
    (hfirst : ∀ x ∈ xs.head?, ∀ y ∈ ys.head?, goesFirst lt side x y = true) :
    ∃ merged patience', mergeBehind before side patience xs ys = .ok (merged, patience') ∧
      Merged (goesFirst lt side) xs ys merged := by
  cases ys with
  | nil => exact ⟨xs, patience, rfl, .done (.inl rfl)⟩
  | cons y ys =>
    obtain ⟨x, xs, rfl⟩ := List.exists_cons_of_ne_nil hne
    obtain ⟨merged, patience', hmerge, hmerged⟩ := mergeFrom_spec h side (.single false 0 0) patience
      hxs (List.forall_mem_cons.mp hys).2
    refine ⟨y :: merged, patience', ?_, .takeY (hfirst x rfl y rfl) hmerged⟩
    rw [mergeBehind, hmerge]
    rfl

theorem leadingXs_nil (y : α) : leadingXs before .front y [] = .ok 0 := by
  have hgoOn : goOn (fun n => (!·) <$> Except.ok (ε := ε) false) 1 0 1 = .ok (0, 1) := by
    rw [goOn, if_neg (Nat.lt_irrefl 1)]
  show gallop (fun _ => Except.ok false) 0 0 = .ok 0
  simp only [gallop, hgoOn]
  show bisect (fun _ => Except.ok false) 0 0 = .ok 0
  rw [bisect, if_neg (Nat.lt_irrefl 0)]

theorem mergeMiddle_spec (h : Answers before lt P) (patience : Nat) {xs ys : List α}
    (hxs : ∀ x ∈ xs, P x) (hys : ∀ y ∈ ys, P y) (hx : xs ≠ []) (hy : ys ≠ [])
    (hfirst : ∀ x ∈ xs.head?, ∀ y ∈ ys.head?, lt y x = true)
    (hlast : ∀ x ∈ xs.getLast?, ∀ y ∈ ys.getLast?, lt y x = true) :
    ∃ merged patience', mergeMiddle before patience xs ys = .ok (merged, patience') ∧
      ∃ side, MergedAt lt side xs ys merged := by
  by_cases hside : xs.length ≤ ys.length
  · obtain ⟨merged, patience', hmerge, hmerged⟩ :=
      mergeBehind_spec h .front patience hxs hys hx hfirst
    exact ⟨merged, patience', by rw [mergeMiddle, if_pos hside, hmerge], .front, hmerged⟩
  · obtain ⟨merged, patience', hmerge, hmerged⟩ := mergeBehind_spec h .back patience
      (fun y hmem => hys y (List.mem_reverse.mp hmem))
      (fun x hmem => hxs x (List.mem_reverse.mp hmem)) (by simpa using hy)
      (fun y hmem x hmem' => by
        rw [List.head?_reverse] at hmem hmem'
        exact hlast x hmem' y hmem)
    refine ⟨merged.reverse, patience', ?_, .back, ?_⟩
    · rw [mergeMiddle, if_neg hside, hmerge]
      rfl
    · simpa only [MergedAt, List.reverse_reverse] using hmerged

/-- At the back of a run those items lead that an item goes in front of. -/
theorem leadingXs_reverse_spec (h : Answers before lt P) {last : α} (hlast : P last) {right : List α}
    (hright : ∀ a ∈ right, P a) (hne : right ≠ []) :
    ∃ kept, leadingXs before .back last right.reverse = .ok kept ∧
      (∀ b ∈ (right.drop (right.length - kept)).head?, lt b last = false) ∧
      ∀ b ∈ (right.take (right.length - kept)).getLast?, lt b last = true := by
  obtain ⟨kept, hkept, hkeep, hys⟩ := leadingXs_spec h .back hlast
    (fun a ha => hright a (List.mem_reverse.mp ha)) (by simpa using hne : right.reverse ≠ [])
  rw [List.take_reverse, List.getLast?_reverse] at hkeep
  rw [List.drop_reverse, List.head?_reverse] at hys
  exact ⟨kept, hkept, hkeep, hys⟩

/-- The middle of two runs is merged, unless one of them is in place as a whole. -/
theorem mergeRuns_spec (h : Answers before lt P) (patience : Nat) {left right : List α}
    (hleft : ∀ a ∈ left, P a) (hright : ∀ a ∈ right, P a) :
    ∃ merged patience', mergeRuns before patience left right = .ok (merged, patience') ∧
      Merges lt left right merged := by
  rcases right with _ | ⟨item, right⟩
  · refine ⟨left, patience, rfl, ?_⟩
    simpa using @Merges.apart _ lt left [] fun _ _ _ hb => nomatch hb
  rcases eq_or_ne left [] with rfl | hne
  · refine ⟨item :: right, patience, ?_, .apart fun _ ha => nomatch ha⟩
    simp only [mergeRuns, leadingXs_nil]
    rfl
  obtain ⟨staying, hstaying, hstay, hxs⟩ :=
    leadingXs_spec h .front (hright item List.mem_cons_self) hleft hne
  simp only [mergeRuns, hstaying, bind, Except.bind, pure, Except.pure]
  -- from here on, the runs are what they are cut into
  have hcut := List.take_append_drop staying left
  generalize left.take staying = stay at hcut hstay ⊢
  generalize left.drop staying = xs at hcut hxs ⊢
  cases hlast : xs.getLast? with
  | none =>
    obtain rfl := List.getLast?_eq_none_iff.mp hlast
    refine ⟨_, patience, rfl, .apart ?_⟩
    rintro a ha _ ⟨⟩
    exact hstay a (by simpa [← hcut] using ha)
  | some last =>
    have hmem : last ∈ left := hcut ▸ List.mem_append_right _ (List.mem_of_getLast? hlast)
    obtain ⟨kept, hkept, hkeep, hys⟩ :=
      leadingXs_reverse_spec h (hleft last hmem) hright (List.cons_ne_nil item right)
    simp only [hkept]
    have hcut' := List.take_append_drop ((item :: right).length - kept) (item :: right)
    generalize (item :: right).take ((item :: right).length - kept) = ys at hcut' hys ⊢
    generalize (item :: right).drop ((item :: right).length - kept) = behind at hcut' hkeep ⊢
    rcases ys with _ | ⟨y, ys⟩
    · refine ⟨_, patience, rfl, .apart fun a ha b hb => ?_⟩
      obtain rfl : last = a := by simpa [← hcut, List.getLast?_append, hlast] using ha
      exact hkeep b (by rwa [show behind = item :: right from hcut'])
    · obtain ⟨rfl, rfl⟩ : y = item ∧ ys ++ behind = right := List.cons.inj hcut'
      obtain rfl := hcut
      have hoverlap : Overlap lt stay xs (y :: ys) behind := by
        refine ⟨fun hnil => by simp [hnil] at hlast, ?_, ?_, ?_, ?_⟩
        · rintro a ha _ ⟨⟩
          exact hstay a ha
        · rintro a ha _ ⟨⟩
          exact hxs a ha
        · rw [hlast]
          rintro _ ⟨⟩ b hb
          exact hys b hb
        · rw [hlast]
          rintro _ ⟨⟩ b hb
          exact hkeep b hb
      obtain ⟨merged, patience', hmerge, side, hmerged⟩ := mergeMiddle_spec h patience
        (fun a ha => hleft a (List.mem_append_right _ ha))
        (fun a ha => hright a (List.mem_append_left behind ha))
        hoverlap.xs_ne (List.cons_ne_nil y ys) hoverlap.first hoverlap.last
      refine ⟨stay ++ merged ++ behind, patience', ?_, .overlap side hoverlap hmerged⟩
      simp only [List.isEmpty_cons, Bool.false_eq_true, if_false, hmerge]

namespace MergedAt

variable {side : Side} {xs ys merged : List α}

theorem perm (h : MergedAt lt side xs ys merged) : merged.Perm (xs ++ ys) := by
  cases side with
  | front => exact Merged.perm h
  | back =>
    have hperm := (List.reverse_perm merged).symm.trans (Merged.perm h)
    rw [← List.reverse_append] at hperm
    exact hperm.trans (List.reverse_perm _)

theorem sublist_xs (h : MergedAt lt side xs ys merged) : xs.Sublist merged := by
  cases side with
  | front => exact Merged.sublist_xs h
  | back => exact List.reverse_sublist.mp (Merged.sublist_ys h)

theorem ne_nil (h : MergedAt lt side xs ys merged) (hxs : xs ≠ []) : merged ≠ [] := fun hnil =>
  hxs (List.sublist_nil.mp (hnil ▸ h.sublist_xs))

/-- The middle of two runs in order is merged in order. -/
theorem woven {stay kept : List α} (h : MergedAt lt side xs ys merged)
    (hasymm : ∀ a b, lt a b = true → lt b a = false) (hoverlap : Overlap lt stay xs ys kept)
    (hxs : InOrder lt xs) (hys : InOrder lt ys) : Woven (fun a b => lt b a = false) xs ys merged := by
  cases side with
  | front =>
    exact Merged.woven h (fun x _ y _ => ⟨fun hxy => hxy, hasymm y x⟩) hxs hys hoverlap.last
  | back =>
    have hwoven : Woven (fun a b => lt a b = false) ys.reverse xs.reverse merged.reverse := by
      refine Merged.woven h (fun x _ y _ => ⟨fun hxy => hxy, hasymm x y⟩) (List.isChain_reverse.mpr hys)
        (List.isChain_reverse.mpr hxs) fun b hb a ha => ?_
      rw [List.getLast?_reverse] at ha hb
      exact hoverlap.first a ha b hb
    refine ⟨List.isChain_reverse.mp hwoven.chain, fun a ha => ?_, fun a ha => ?_⟩
    · simpa using (hwoven.last a (by rwa [List.getLast?_reverse])).symm
    · simpa using (hwoven.head a (by rwa [List.head?_reverse])).symm

end MergedAt

namespace Merges

variable {left right merged : List α}

theorem perm (h : Merges lt left right merged) : merged.Perm (left ++ right) := by
  cases h with
  | apart => exact .rfl
  | overlap side _ hmerged => simpa using (hmerged.perm.append_left _).append_right _

theorem sublist_left (h : Merges lt left right merged) : left.Sublist merged := by
  cases h with
  | apart => exact List.sublist_append_left _ _
  | overlap side _ hmerged =>
    exact (hmerged.sublist_xs.append_left _).trans (List.sublist_append_left _ _)

theorem inOrder (h : Merges lt left right merged) (hasymm : ∀ a b, lt a b = true → lt b a = false)
    (hleft : InOrder lt left) (hright : InOrder lt right) : InOrder lt merged := by
  cases h with
  | apart h => exact List.isChain_append.mpr ⟨hleft, hright, h⟩
  | overlap side hoverlap hmerged =>
    obtain ⟨hstay, hxs, hjoin⟩ := List.isChain_append.mp hleft
    obtain ⟨hys, hkept, hjoin'⟩ := List.isChain_append.mp hright
    have hwoven := hmerged.woven hasymm hoverlap hxs hys
    have hfront := List.isChain_append.mpr ⟨hstay, hwoven.chain, fun a ha b hb =>
      (hwoven.head b hb).elim (hjoin a ha b) (hoverlap.start a ha b)⟩
    refine List.isChain_append.mpr ⟨hfront, hkept, fun a ha b hb => ?_⟩
    rw [List.getLast?_append_of_ne_nil _ (hmerged.ne_nil hoverlap.xs_ne)] at ha
    exact (hwoven.last a ha).elim (fun ha => hoverlap.finish a ha b hb) fun ha => hjoin' a ha b hb

end Merges

end ReleasePrompts.Release
