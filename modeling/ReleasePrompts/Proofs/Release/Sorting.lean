import Mathlib
import ReleasePrompts.Proofs.Release.Merging
import ReleasePrompts.Release.Sorting

/-!
# What sorting keeps of any comparison

A sorted list arises from the runs of a list by insertions and merges (`Arises`, `sortBy_spec`).
A comparison need not be an order for that: as long as it answers, and never says of two items that
each comes before the other, the list that is returned holds the same items and no item comes before
its predecessor (`sortBy_chain`), and the items of the first run stay in its order. That no item comes
before any earlier one needs more: the comparison has to be transitive on the items
(`pairwise_of_chain`).
-/

namespace ReleasePrompts.Release

variable {α ε : Type} {before : α → α → Except ε Bool} {lt : α → α → Bool} {P : α → Prop}

/-! ## How a sorted list arises -/

/-- How a list becomes a sorted one whose first run is `lead`. -/
inductive Arises (lt : α → α → Bool) : (lead items sorted : List α) → Prop where
  | ascending {run : List α} (h : InOrder lt run) : Arises lt run run run
  | descending {run : List α} (h : run.IsChain fun a b => lt a b = true) :
      Arises lt run run.reverse run
  | insert {lead items front behind : List α} {item : α}
      (hsorted : Arises lt lead items (front ++ behind))
      (hfront : ∀ a ∈ front.getLast?, lt item a = false)
      (hbehind : ∀ b ∈ behind.head?, lt item b = true) :
      Arises lt lead (items ++ [item]) (front ++ item :: behind)
  | merge {lead lead' items items' left right merged : List α} (hleft : Arises lt lead items left)
      (hright : Arises lt lead' items' right) (h : Merges lt left right merged) :
      Arises lt lead (items ++ items') merged

namespace Arises

variable {lead items sorted : List α}

theorem perm (h : Arises lt lead items sorted) : sorted.Perm items := by
  induction h with
  | ascending => exact .rfl
  | descending => exact (List.reverse_perm _).symm
  | insert _ _ _ ih =>
    exact List.perm_middle.trans ((ih.cons _).trans (List.perm_append_singleton _ _).symm)
  | merge _ _ h ihleft ihright => exact h.perm.trans (ihleft.append ihright)

theorem lead_sublist (h : Arises lt lead items sorted) : lead.Sublist sorted := by
  induction h with
  | ascending => exact .refl _
  | descending => exact .refl _
  | insert _ _ _ ih => exact ih.trans ((List.sublist_cons_self _ _).append_left _)
  | merge _ _ h ihleft => exact ihleft.trans h.sublist_left

theorem inOrder (h : Arises lt lead items sorted)
    (hasymm : ∀ a b, lt a b = true → lt b a = false) : InOrder lt sorted := by
  induction h with
  | ascending h => exact h
  | descending h => exact h.imp hasymm
  | @insert _ _ front behind item _ hfront hbehind ih =>
    obtain ⟨hf, hb, -⟩ := List.isChain_append.mp ih
    refine List.isChain_append.mpr ⟨hf, List.isChain_cons.mpr ⟨fun b hmem => ?_, hb⟩, ?_⟩
    · exact hasymm item b (hbehind b hmem)
    · rintro a ha _ ⟨⟩
      exact hfront a ha
  | merge _ _ h ihleft ihright => exact h.inOrder hasymm ihleft ihright

theorem forall_mem (h : Arises lt lead items sorted) (hitems : ∀ a ∈ items, P a) :
    ∀ a ∈ sorted, P a := fun a ha => hitems a (h.perm.mem_iff.mp ha)

end Arises

/-! ## Runs -/

/-- The search finds a place where the item fits between its neighbours. -/
theorem searchPlace_spec (h : Answers before lt P) {item : α} (hitem : P item) {sorted : List α}
    (hsorted : ∀ a ∈ sorted, P a) :
    ∃ place, searchPlace before item sorted = .ok place ∧
      (∀ a ∈ (sorted.take place).getLast?, lt item a = false) ∧
      ∀ b ∈ (sorted.drop place).head?, lt item b = true := by
  obtain ⟨place, hp, hat⟩ : ∃ place, searchPlace before item sorted = .ok place ∧
      ChangesAt (fun n => (sorted[n]?).any fun a => !lt item a) 0 sorted.length place := by
    refine bisect_spec 0 sorted.length (Nat.zero_le _) fun n _ hn => ?_
    simp only [List.getElem?_eq_getElem hn, h.answer _ _ hitem (hsorted _ (List.getElem_mem hn))]
    rfl
  exact ⟨place, hp, by simpa using hat.cut.1, by simpa using hat.cut.2⟩

theorem insertEach_spec (h : Answers before lt P) {lead items sorted more : List α}
    (hsorted : Arises lt lead items sorted) (hitems : ∀ a ∈ items, P a) (hmore : ∀ a ∈ more, P a) :
    ∃ result, insertEach before sorted more = .ok result ∧ Arises lt lead (items ++ more) result := by
  induction more generalizing items sorted with
  | nil => exact ⟨sorted, rfl, by rwa [List.append_nil]⟩
  | cons item more ih =>
    obtain ⟨hitem, hmore⟩ := List.forall_mem_cons.mp hmore
    obtain ⟨place, hp, hfront, hbehind⟩ :=
      searchPlace_spec h hitem (hsorted.forall_mem hitems)
    have hinserted : Arises lt lead (items ++ [item])
        (sorted.take place ++ item :: sorted.drop place) :=
      .insert (by rwa [List.take_append_drop]) hfront hbehind
    obtain ⟨result, hr, harises⟩ := ih hinserted
      (List.forall_mem_append.mpr ⟨hitems, by simpa using hitem⟩) hmore
    refine ⟨result, ?_, by simpa using harises⟩
    rw [insertEach, hp]
    exact hr

/-- What goes on descending is ascending once it is turned round. -/
theorem turnDescending_chain (h : Answers before lt P) {last : α} {turned items : List α}
    (hturned : ∀ a ∈ last :: turned, P a) (hitems : ∀ a ∈ items, P a)
    (hchain : (last :: turned).IsChain fun a b => lt a b = true) :
    ∃ run others, turnDescending before last (last :: turned) items = .ok (run, others) ∧
      run.reverse ++ others = (last :: turned).reverse ++ items ∧ run ≠ [] ∧
      run.IsChain fun a b => lt a b = true := by
  induction items generalizing last turned with
  | nil => exact ⟨last :: turned, [], rfl, rfl, List.cons_ne_nil _ _, hchain⟩
  | cons item items ih =>
    obtain ⟨hitem, hitems⟩ := List.forall_mem_cons.mp hitems
    simp only [turnDescending, h.answer _ _ hitem (hturned last List.mem_cons_self)]
    cases hlt : lt item last with
    | false => exact ⟨last :: turned, item :: items, rfl, rfl, List.cons_ne_nil _ _, hchain⟩
    | true =>
      obtain ⟨run, others, hr, happend, hne, hrun⟩ :=
        ih (List.forall_mem_cons.mpr ⟨hitem, hturned⟩) hitems (.cons_cons hlt hchain)
      exact ⟨run, others, hr, by simpa using happend, hne, hrun⟩

/-- What goes on without falling is in order. -/
theorem splitAscending_chain (h : Answers before lt P) {last : α} {items : List α}
    (hlast : P last) (hitems : ∀ a ∈ items, P a) :
    ∃ run others, splitAscending before last items = .ok (run, others) ∧
      run ++ others = items ∧ InOrder lt (last :: run) := by
  induction items generalizing last with
  | nil => exact ⟨[], [], rfl, rfl, .singleton last⟩
  | cons item items ih =>
    obtain ⟨hitem, hitems⟩ := List.forall_mem_cons.mp hitems
    simp only [splitAscending, h.answer _ _ hitem hlast]
    cases hlt : lt item last with
    | true => exact ⟨[], item :: items, rfl, rfl, .singleton last⟩
    | false =>
      obtain ⟨run, others, hr, happend, hrun⟩ := ih hitem hitems
      refine ⟨item :: run, others, ?_, congrArg (item :: ·) happend, .cons_cons hlt hrun⟩
      simp only [hr]
      rfl

/-- The first run is in order as it is, or ascending once it is turned round. -/
theorem firstRun_spec (h : Answers before lt P) {items : List α} (hitems : ∀ a ∈ items, P a) :
    ∃ run others taken, firstRun before items = .ok (run, others) ∧ taken ++ others = items ∧
      Arises lt run taken run ∧ (items ≠ [] → others.length < items.length) := by
  match items with
  | [] => exact ⟨[], [], [], rfl, rfl, .ascending .nil, fun hne => absurd rfl hne⟩
  | [item] => exact ⟨[item], [], [item], rfl, rfl, .ascending (.singleton item), fun _ => by simp⟩
  | first :: second :: rest =>
    obtain ⟨hfirst, hrest⟩ := List.forall_mem_cons.mp hitems
    obtain ⟨hsecond, hrest⟩ := List.forall_mem_cons.mp hrest
    simp only [firstRun, h.answer _ _ hsecond hfirst]
    cases hlt : lt second first with
    | true =>
      obtain ⟨run, others, hr, happend, hne, hrun⟩ :=
        @turnDescending_chain _ _ _ _ _ h second [first] rest (by simp [hfirst, hsecond]) hrest
          (.cons_cons hlt (.singleton first))
      have hlength := congrArg List.length happend
      have hpos := List.length_pos_iff.mpr hne
      refine ⟨run, others, run.reverse, hr, happend, .descending hrun, fun _ => ?_⟩
      simp only [List.length_append, List.length_reverse, List.length_cons, List.length_nil]
        at hlength ⊢
      omega
    | false =>
      obtain ⟨run, others, hr, happend, hrun⟩ := splitAscending_chain h hsecond hrest
      refine ⟨first :: second :: run, others, first :: second :: run, ?_, by simp [happend],
        .ascending (.cons_cons hlt hrun), fun _ => ?_⟩
      · simp only [hr]
        rfl
      · rw [← happend]
        simp only [List.length_cons, List.length_append]
        omega

/-- A run that is filled up takes the items behind it. -/
theorem nextRun_spec (h : Answers before lt P) (least : Nat) {items : List α}
    (hitems : ∀ a ∈ items, P a) :
    ∃ lead others run others' taken, firstRun before items = .ok (lead, others) ∧
      nextRun before least items = .ok (run, others') ∧ taken ++ others' = items ∧
      Arises lt lead taken run ∧ (items ≠ [] → others'.length < items.length) := by
  obtain ⟨lead, others, taken, hlead, rfl, harises, hfewer⟩ := firstRun_spec h hitems
  obtain ⟨htaken, hothers⟩ := List.forall_mem_append.mp hitems
  obtain ⟨run, hrun, harises'⟩ := insertEach_spec h harises htaken
    fun a ha => hothers a (List.mem_of_mem_take (i := least - lead.length) ha)
  refine ⟨lead, others, run, others.drop (least - lead.length), _, hlead, ?_, ?_, harises',
    fun hne => ?_⟩
  · simp only [nextRun, hlead, hrun, bind, Except.bind, pure, Except.pure]
  · rw [List.append_assoc, List.take_append_drop]
  · have := hfewer hne
    rw [List.length_drop]
    omega

/-! ## Merges of all runs -/

/-- How runs, the last one first, cover a list. The first of them has the first run `lead`. -/
inductive Covers (lt : α → α → Bool) (lead : List α) : (runs : List (List α)) → List α → Prop where
  | one {run items : List α} (h : Arises lt lead items run) : Covers lt lead [run] items
  | cons {runs : List (List α)} {lead' run items items' : List α} (hrest : Covers lt lead runs items)
      (h : Arises lt lead' items' run) : Covers lt lead (run :: runs) (items ++ items')

namespace Covers

variable {lead items left right merged : List α} {runs : List (List α)}

theorem forall_mem (h : Covers lt lead runs items) (hitems : ∀ a ∈ items, P a) :
    ∀ run ∈ runs, ∀ a ∈ run, P a := by
  induction h with
  | one h => simpa using h.forall_mem hitems
  | cons _ h ih =>
    obtain ⟨hitems, hitems'⟩ := List.forall_mem_append.mp hitems
    exact List.forall_mem_cons.mpr ⟨h.forall_mem hitems', ih hitems⟩

/-- Two neighbours may be merged. -/
theorem merge (h : Covers lt lead (right :: left :: runs) items)
    (hmerges : Merges lt left right merged) : Covers lt lead (merged :: runs) items := by
  cases h with
  | cons hrest hright =>
    cases hrest with
    | one hleft => exact .one (.merge hleft hright hmerges)
    | cons hrest hleft =>
      rw [List.append_assoc]
      exact .cons hrest (.merge hleft hright hmerges)

theorem merge_below {top : List α} (h : Covers lt lead (top :: right :: left :: runs) items)
    (hmerges : Merges lt left right merged) : Covers lt lead (top :: merged :: runs) items := by
  cases h with
  | cons hrest htop => exact .cons (hrest.merge hmerges) htop

end Covers

theorem mergeDeeper_spec (h : Answers before lt P) (depth patience : Nat) {lead items top : List α}
    {waiting : List (Waiting α)} (hitems : ∀ a ∈ items, P a)
    (hcovers : Covers lt lead (top :: waiting.map Waiting.items) items) :
    ∃ merged waiting' patience',
      mergeDeeper before depth patience top waiting = .ok (merged, waiting', patience') ∧
      Covers lt lead (merged :: waiting'.map Waiting.items) items := by
  induction waiting generalizing top patience with
  | nil => exact ⟨top, [], patience, rfl, hcovers⟩
  | cons run waiting ih =>
    rw [mergeDeeper]
    by_cases hdepth : depth < run.depth
    · obtain ⟨merged, patience', hmerge, hmerges⟩ := mergeRuns_spec h patience
        (hcovers.forall_mem hitems run.items (by simp)) (hcovers.forall_mem hitems top (by simp))
      simp only [if_pos hdepth, hmerge]
      exact ih patience' (hcovers.merge hmerges)
    · exact ⟨top, run :: waiting, patience, if_neg hdepth, hcovers⟩

theorem mergeAll_spec (h : Answers before lt P) (patience : Nat) {lead items top : List α}
    {runs : List (List α)} (hitems : ∀ a ∈ items, P a) (hcovers : Covers lt lead (top :: runs) items) :
    ∃ result, mergeAll before patience top runs = .ok result ∧ Arises lt lead items result := by
  induction hn : runs.length generalizing top runs patience with
  | zero =>
    obtain rfl := List.length_eq_zero_iff.mp hn
    rw [mergeAll]
    cases hcovers with
    | one harises => exact ⟨top, rfl, harises⟩
    | cons hrest => cases hrest
  | succ n ih =>
    have hP := hcovers.forall_mem hitems
    rcases runs with _ | ⟨run, _ | ⟨other, runs⟩⟩
    · cases hn
    · obtain ⟨merged, patience', hmerge, hmerges⟩ :=
        mergeRuns_spec h patience (hP run (by simp)) (hP top (by simp))
      rw [mergeAll, hmerge]
      cases hcovers.merge hmerges with
      | one harises => exact ⟨merged, rfl, harises⟩
      | cons hrest => cases hrest
    · rw [mergeAll]
      by_cases hlength : other.length < top.length
      · obtain ⟨merged, patience', hmerge, hmerges⟩ :=
          mergeRuns_spec h patience (hP other (by simp)) (hP run (by simp))
        simp only [if_pos hlength, hmerge]
        exact ih patience' (hcovers.merge_below hmerges) (by simpa using hn)
      · obtain ⟨merged, patience', hmerge, hmerges⟩ :=
          mergeRuns_spec h patience (hP run (by simp)) (hP top (by simp))
        simp only [if_neg hlength, hmerge]
        exact ih patience' (hcovers.merge hmerges) (by simpa using hn)

theorem sortBehind_spec (h : Answers before lt P) (size start patience : Nat)
    {lead front top items : List α} {waiting : List (Waiting α)} {count : Nat}
    (hfront : ∀ a ∈ front, P a) (hitems : ∀ a ∈ items, P a)
    (hcovers : Covers lt lead (top :: waiting.map Waiting.items) front)
    (hcount : items.length ≤ count) :
    ∃ result, sortBehind before size start patience top waiting count items = .ok result ∧
      Arises lt lead (front ++ items) result := by
  induction count generalizing start patience front top items waiting with
  | zero =>
    obtain rfl := List.length_eq_zero_iff.mp (Nat.le_zero.mp hcount)
    rw [List.append_nil]
    exact mergeAll_spec h patience hfront hcovers
  | succ count ih =>
    cases items with
    | nil =>
      rw [List.append_nil]
      exact mergeAll_spec h patience hfront hcovers
    | cons item items =>
      obtain ⟨_, _, run, others, taken, -, hrun, htaken, harises, hfewer⟩ :=
        nextRun_spec h (leastRun size) hitems
      obtain ⟨merged, waiting', patience', hmerge, hcovers'⟩ := mergeDeeper_spec h
        (meetingDepth size (2 * start + top.length) (2 * start + top.length + top.length + run.length))
        patience hfront hcovers
      rw [← htaken] at hitems
      obtain ⟨htakenP, hothers⟩ := List.forall_mem_append.mp hitems
      have hless : others.length < items.length + 1 := hfewer (List.cons_ne_nil item items)
      obtain ⟨result, hr, hresult⟩ := @ih (start + top.length) patience' _ _ others
        (⟨merged, _⟩ :: waiting') (List.forall_mem_append.mpr ⟨hfront, htakenP⟩) hothers
        (.cons hcovers' harises) (by rw [List.length_cons] at hcount; omega)
      refine ⟨result, ?_, ?_⟩
      · rw [sortBehind]
        · simp only [hrun, bind, Except.bind, hmerge]
          exact hr
        · exact List.cons_ne_nil item items
      · rwa [← htaken, ← List.append_assoc]

/-- Sorting returns what arises from the list, with the first run that is found in it. -/
theorem sortBy_spec (h : Answers before lt P) {items : List α} (hitems : ∀ a ∈ items, P a) :
    ∃ lead others result, firstRun before items = .ok (lead, others) ∧
      sortBy before items = .ok result ∧ Arises lt lead items result := by
  obtain ⟨lead, others, run, others', taken, hlead, hrun, htaken, harises, -⟩ :=
    nextRun_spec h (leastRun items.length) hitems
  obtain ⟨htakenP, hothers⟩ := List.forall_mem_append.mp (htaken ▸ hitems)
  obtain ⟨result, hr, hresult⟩ := @sortBehind_spec _ _ _ _ _ h items.length 0 worthwhile _ _ _ _ []
    _ htakenP hothers (.one harises) (Nat.le_refl _)
  refine ⟨lead, others, result, hlead, ?_, htaken ▸ hresult⟩
  rw [sortBy, hrun]
  exact hr

/-- Sorting returns the same items, and none comes before its predecessor. -/
theorem sortBy_chain (h : Answers before lt P) {items : List α} (hitems : ∀ a ∈ items, P a) :
    ∃ result, sortBy before items = .ok result ∧ result.Perm items ∧ InOrder lt result := by
  obtain ⟨lead, others, result, -, hr, harises⟩ := sortBy_spec h hitems
  exact ⟨result, hr, harises.perm, harises.inOrder h.asymm⟩

/-- Three items that come first and do not fall stay in their order. -/
theorem sublist_sortBy (h : Answers before lt P) {first second third : α} {items result : List α}
    (hitems : ∀ a ∈ first :: second :: third :: items, P a) (hfirst : lt second first = false)
    (hsecond : lt third second = false)
    (hr : sortBy before (first :: second :: third :: items) = .ok result) :
    [first, second, third].Sublist result := by
  obtain ⟨lead, others, result', hlead, hr', harises⟩ := sortBy_spec h hitems
  obtain rfl : result' = result := Except.ok.inj (hr'.symm.trans hr)
  refine .trans ?_ harises.lead_sublist
  obtain ⟨run, others', hsplit, -, -⟩ := @splitAscending_chain _ _ _ _ _ h third items
    (hitems third (by simp)) fun a ha => hitems a (by simp [ha])
  simp only [firstRun, splitAscending, h.answer _ _ (hitems second (by simp)) (hitems first (by simp)),
    h.answer _ _ (hitems third (by simp)) (hitems second (by simp)), hfirst, hsecond, hsplit] at hlead
  obtain ⟨rfl, -⟩ := Prod.mk.inj (Except.ok.inj hlead)
  exact .cons_cons _ (.cons_cons _ (.cons_cons _ (List.nil_sublist run)))

/-- Where no item comes before its predecessor, none comes before any earlier one, if that is
transitive on the items. -/
theorem pairwise_of_chain {R : α → α → Prop} {items : List α}
    (htrans : ∀ a ∈ items, ∀ b ∈ items, ∀ c ∈ items, R a b → R b c → R a c)
    (h : items.IsChain R) : items.Pairwise R := by
  induction items with
  | nil => exact .nil
  | cons a items ih =>
    have htail := ih (fun x hx y hy z hz => htrans x (List.mem_cons_of_mem a hx) y
      (List.mem_cons_of_mem a hy) z (List.mem_cons_of_mem a hz)) h.tail
    refine List.pairwise_cons.mpr ⟨fun c hc => ?_, htail⟩
    cases items with
    | nil => cases hc
    | cons b items =>
      have hab : R a b := (List.isChain_cons_cons.mp h).1
      rcases List.mem_cons.mp hc with rfl | hmem
      · exact hab
      · exact htrans a List.mem_cons_self b (by simp) c (List.mem_cons_of_mem a hc) hab
          ((List.pairwise_cons.mp htail).1 c hmem)

end ReleasePrompts.Release
