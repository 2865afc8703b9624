import Mathlib.Data.List.Infix
import ReleasePrompts.Text.Search

/-!
# Occurrences of a text

A text occurs at a place just if it stands between what is before the place and what is behind
(`mem_occurrences_iff`), and its occurrences are listed in order (`pairwise_occurrences`). The place
that is found is that of the first one (`indexOf?_eq_some_iff`). A part of a text holds another just
if an occurrence lies within it (`contains_slice_iff`).
-/

namespace ReleasePrompts.Text

variable {α : Type}

/-- A text is what lies between where it begins and where it ends. -/
theorem slice_of_append (before needle rest : List α) :
    slice (before ++ needle ++ rest) before.length (before.length + needle.length) = needle := by
  rw [slice, List.append_assoc, List.drop_left, Nat.add_sub_cancel_left, List.take_left]

theorem slice_infix_slice (source : List α) {a b c d : Nat} (hab : a ≤ b) (hbc : b ≤ c)
    (hcd : c ≤ d) : slice source b c <:+: slice source a d :=
  ⟨slice source a b, slice source c d, by
    rw [slice_append_slice source hab hbc, slice_append_slice source (Nat.le_trans hab hbc) hcd]⟩

theorem slice_ne_nil {source : List α} {start stop : Nat} (h : start < source.length)
    (hlt : start < stop) : slice source start stop ≠ [] := by
  refine List.ne_nil_of_length_pos ?_
  rw [slice, List.length_take, List.length_drop]
  omega

/-- A character and what is before it, from a place on. -/
theorem drop_eq_iff {text : List α} {place n : Nat} {c : α} {P : List α → Prop} :
    (∃ inside behind, text.drop place = inside ++ c :: behind ∧ inside.length = n ∧ P inside) ↔
      text[place + n]? = some c ∧ P (slice text place (place + n)) := by
  rw [slice, Nat.add_sub_cancel_left, ← List.getElem?_drop]
  constructor
  · rintro ⟨inside, behind, heq, rfl, h⟩
    rw [heq, List.take_left]
    exact ⟨by simp, h⟩
  · rintro ⟨hc, h⟩
    obtain ⟨hlt, rfl⟩ := List.getElem?_eq_some_iff.mp hc
    refine ⟨_, (text.drop place).drop (n + 1), ?_, ?_, h⟩
    · rw [← List.drop_eq_getElem_cons hlt, List.take_append_drop]
    · rw [List.length_take]
      omega

/-- A text begins at a place, and at none before it. -/
def FirstAt (needle text : List α) (place : Nat) : Prop :=
  needle <+: text.drop place ∧ ∀ earlier < place, ¬needle <+: text.drop earlier

theorem firstAt_zero {needle text : List α} : FirstAt needle text 0 ↔ needle <+: text :=
  and_iff_left fun _ h => absurd h (Nat.not_lt_zero _)

instance [DecidableEq α] (needle text : List α) (place : Nat) :
    Decidable (FirstAt needle text place) :=
  inferInstanceAs (Decidable (_ ∧ ∀ earlier < place, _))

theorem FirstAt.lt {needle text : List α} {place : Nat} (h : FirstAt needle text place)
    (hne : needle ≠ []) : place < text.length := by
  have hle := h.1.length_le
  have hpos := List.length_pos_iff.mpr hne
  rw [List.length_drop] at hle
  omega

theorem firstAt_cons_succ {needle text : List α} {c : α} {place : Nat} :
    FirstAt needle (c :: text) (place + 1) ↔
      ¬needle <+: c :: text ∧ FirstAt needle text place := by
  constructor
  · rintro ⟨hat, hearlier⟩
    exact ⟨hearlier 0 (Nat.succ_pos place), hat, fun earlier hlt =>
      hearlier (earlier + 1) (Nat.succ_lt_succ hlt)⟩
  · rintro ⟨hzero, hat, hearlier⟩
    refine ⟨hat, fun earlier hlt => ?_⟩
    cases earlier with
    | zero => exact hzero
    | succ earlier => exact hearlier earlier (Nat.lt_of_succ_lt_succ hlt)

variable [DecidableEq α]

theorem indexOf?_eq_some_iff {needle text : List α} {place : Nat} :
    indexOf? needle text = some place ↔ FirstAt needle text place := by
  induction text generalizing place with
  | nil =>
    by_cases hp : needle <+: []
    · rw [indexOf?, if_pos (List.isPrefixOf_iff_prefix.mpr hp)]
      cases place with
      | zero => exact iff_of_true rfl (firstAt_zero.mpr hp)
      | succ place => exact iff_of_false nofun fun h => h.2 0 (Nat.succ_pos place) hp
    · rw [indexOf?, if_neg (mt List.isPrefixOf_iff_prefix.mp hp)]
      exact iff_of_false nofun fun h => hp (List.drop_nil ▸ h.1)
  | cons c text ih =>
    by_cases hp : needle <+: c :: text
    · rw [indexOf?, if_pos (List.isPrefixOf_iff_prefix.mpr hp)]
      cases place with
      | zero => exact iff_of_true rfl (firstAt_zero.mpr hp)
      | succ place => exact iff_of_false nofun fun h => (firstAt_cons_succ.mp h).1 hp
    · rw [indexOf?, if_neg (mt List.isPrefixOf_iff_prefix.mp hp)]
      cases place with
      | zero => exact iff_of_false (by simp) fun h => hp (firstAt_zero.mp h)
      | succ place => rw [firstAt_cons_succ, ← ih, and_iff_right hp]; simp

theorem indexOf?_eq_some {needle text : List α} {n : Nat} (h : indexOf? needle text = some n) :
    ∃ before rest, text = before ++ needle ++ rest ∧ before.length = n := by
  fun_induction indexOf? needle text generalizing n with
  | case1 hp =>
    obtain rfl := Option.some.inj h
    obtain ⟨rest, hrest⟩ := List.isPrefixOf_iff_prefix.mp hp
    exact ⟨[], rest, hrest.symm, rfl⟩
  | case2 => cases h
  | case3 c rest hp =>
    obtain rfl := Option.some.inj h
    obtain ⟨tail, htail⟩ := List.isPrefixOf_iff_prefix.mp hp
    exact ⟨[], tail, htail.symm, rfl⟩
  | case4 c rest _ ih =>
    obtain ⟨m, hm, rfl⟩ := Option.map_eq_some_iff.mp h
    obtain ⟨before, tail, rfl, rfl⟩ := ih hm
    exact ⟨c :: before, tail, rfl, rfl⟩

theorem contains_iff {needle text : List α} :
    contains text needle = true ↔ needle <:+: text := by
  rw [contains]
  fun_induction indexOf? needle text with
  | case1 hp => simpa using (List.isPrefixOf_iff_prefix.mp hp).isInfix
  | case2 hp =>
    rw [List.isPrefixOf_iff_prefix, List.prefix_nil] at hp
    simpa using hp
  | case3 c rest hp => simpa using (List.isPrefixOf_iff_prefix.mp hp).isInfix
  | case4 c rest hp ih =>
    rw [List.isPrefixOf_iff_prefix] at hp
    rw [Option.isSome_map, ih, List.infix_cons_iff]
    exact (or_iff_right hp).symm

theorem mem_occurrencesFrom_iff {needle text : List α} {place found : Nat} :
    found ∈ occurrencesFrom needle place text ↔
      ∃ before rest, text = before ++ needle ++ rest ∧ found = place + before.length := by
  induction text generalizing place with
  | nil =>
    rw [occurrencesFrom]
    constructor
    · intro h
      split at h
      · next hp =>
        rw [List.isPrefixOf_iff_prefix, List.prefix_nil] at hp
        exact ⟨[], [], by rw [hp]; rfl, List.mem_singleton.mp h⟩
      · cases h
    · rintro ⟨before, rest, heq, rfl⟩
      simp only [List.nil_eq, List.append_eq_nil_iff] at heq
      obtain ⟨⟨rfl, rfl⟩, rfl⟩ := heq
      simp
  | cons c text ih =>
    have hcons : (∃ before rest, c :: text = before ++ needle ++ rest ∧
        found = place + before.length) ↔
        (needle <+: c :: text ∧ found = place) ∨
          ∃ before rest, text = before ++ needle ++ rest ∧
            found = place + 1 + before.length := by
      constructor
      · rintro ⟨_ | ⟨d, before⟩, rest, heq, rfl⟩
        · exact .inl ⟨⟨rest, heq.symm⟩, rfl⟩
        · obtain ⟨rfl, rfl⟩ := List.cons_eq_cons.mp heq
          exact .inr ⟨before, rest, rfl, by simp only [List.length_cons]; omega⟩
      · rintro (⟨⟨rest, heq⟩, rfl⟩ | ⟨before, rest, rfl, rfl⟩)
        · exact ⟨[], rest, heq.symm, rfl⟩
        · exact ⟨c :: before, rest, rfl, by simp only [List.length_cons]; omega⟩
    rw [hcons, ← ih, occurrencesFrom]
    split
    · next hp => simp [List.isPrefixOf_iff_prefix.mp hp]
    · next hp => simp [mt List.isPrefixOf_iff_prefix.mpr hp]

theorem mem_occurrences_iff {needle text : List α} {found : Nat} :
    found ∈ occurrences needle text ↔
      ∃ before rest, text = before ++ needle ++ rest ∧ before.length = found := by
  simp only [occurrences, mem_occurrencesFrom_iff, Nat.zero_add, eq_comm]

/-- An occurrence of a text reads as the text. -/
theorem slice_of_mem_occurrences {needle text : List α} {found : Nat}
    (h : found ∈ occurrences needle text) :
    slice text found (found + needle.length) = needle := by
  obtain ⟨before, rest, rfl, rfl⟩ := mem_occurrences_iff.mp h
  exact slice_of_append before needle rest

theorem lt_of_mem_occurrences {needle text : List α} {found : Nat} (h : found ∈ occurrences needle text)
    (hne : needle ≠ []) : found < text.length := by
  obtain ⟨before, rest, rfl, rfl⟩ := mem_occurrences_iff.mp h
  have hpos := List.length_pos_iff.mpr hne
  simp only [List.length_append]
  omega

/-- Occurrences are listed in order, each once. -/
theorem pairwise_occurrences (needle text : List α) :
    (occurrences needle text).Pairwise (· < ·) := by
  suffices h : ∀ place, (occurrencesFrom needle place text).Pairwise (· < ·) from h 0
  induction text with
  | nil =>
    intro place
    rw [occurrencesFrom]
    split <;> simp
  | cons c text ih =>
    intro place
    have hbehind : ∀ found ∈ occurrencesFrom needle (place + 1) text, place < found := by
      intro found hfound
      obtain ⟨before, -, -, rfl⟩ := mem_occurrencesFrom_iff.mp hfound
      omega
    rw [occurrencesFrom]
    split
    · exact List.pairwise_cons.mpr ⟨hbehind, ih (place + 1)⟩
    · exact ih (place + 1)

/-- A part of a text holds another just if an occurrence lies within it. -/
theorem contains_slice_iff {needle text : List α} {start stop : Nat} (hne : needle ≠ []) :
    contains (slice text start stop) needle = true ↔
      ∃ found ∈ occurrences needle text, start ≤ found ∧ found + needle.length ≤ stop := by
  have hpos : 0 < needle.length := List.length_pos_iff.mpr hne
  rw [contains_iff]
  constructor
  · rintro ⟨before, rest, heq⟩
    have hlen := congrArg List.length heq
    simp only [slice, List.length_append, List.length_take, List.length_drop] at hlen
    refine ⟨start + before.length, mem_occurrences_iff.mpr ⟨text.take start ++ before,
      rest ++ (text.drop start).drop (stop - start), ?_, ?_⟩, by omega, by omega⟩
    · calc text = text.take start ++ (slice text start stop ++
            (text.drop start).drop (stop - start)) := by
            rw [slice, List.take_append_drop, List.take_append_drop]
        _ = _ := by simp only [← heq, List.append_assoc]
    · rw [List.length_append, List.length_take]
      omega
  · rintro ⟨found, hfound, hstart, hstop⟩
    rw [← slice_of_mem_occurrences hfound]
    exact slice_infix_slice text hstart (Nat.le_add_right _ _) hstop

end ReleasePrompts.Text
