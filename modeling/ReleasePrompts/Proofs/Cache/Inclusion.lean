import ReleasePrompts.Proofs.Cache.Recency

/-!
# A larger cache does no worse

The same operations are done on two caches. What the smaller one holds the larger one holds too, with
the same value, so it finds whatever the smaller one finds (`larger_never_worse`).

The orders of two bounded caches may differ: a key that only the larger one holds is used there alone.
But the entries of the smaller one stand in the larger one in the same order, and the smaller one has
given something up only if it is full (`Lru.Within`). Hence the larger one never gives up an entry
that the smaller one keeps (`Lru.Within.use`). A cache without bound gives up nothing at all.
-/

namespace ReleasePrompts.Cache

variable {κ α : Type}

/-! ## Two bounded caches -/

namespace Lru

/-- The entries of a cache are among those of one that has no less room. -/
structure Within (smaller larger : Lru κ α) : Prop where
  capacity_le : smaller.capacity ≤ larger.capacity
  /-- The keys that both hold were used in the same order. -/
  sublist : smaller.entries.Sublist larger.entries
  /-- Only a full cache has given entries up. -/
  full_or_eq : smaller.entries.length = smaller.capacity ∨ smaller.entries = larger.entries
  nodup : (Pairs.keys larger.entries).Nodup

variable {smaller larger : Lru κ α}

theorem Within.keys_sublist (h : smaller.Within larger) :
    (Pairs.keys smaller.entries).Sublist (Pairs.keys larger.entries) := h.sublist.map _

variable [DecidableEq κ]

theorem nodup_keys_use {cache : Lru κ α} (h : (Pairs.keys cache.entries).Nodup) (key : κ)
    (value : α) : (Pairs.keys (cache.use key value).entries).Nodup := by
  rw [keys_use]
  refine (List.drop_sublist _ _).nodup ((h.filter _).append (List.nodup_singleton _) ?_)
  simp

/-- For a key that both use the smaller cache makes room for no fewer entries than the larger one. -/
theorem Within.given_up_le (h : smaller.Within larger) (key : κ) :
    (Pairs.erase larger.entries key).length + 1 - larger.capacity ≤
      (Pairs.erase smaller.entries key).length + 1 - smaller.capacity := by
  have hcapacity := h.capacity_le
  have hlarger := larger.length_entries_le
  rcases h.full_or_eq with hfull | heq
  · by_cases hkey : key ∈ Pairs.keys larger.entries
    · have := Pairs.length_erase_lt hkey
      omega
    · have hsmaller : key ∉ Pairs.keys smaller.entries := fun hmem =>
        hkey (h.keys_sublist.subset hmem)
      rw [Pairs.erase_of_not_mem hkey, Pairs.erase_of_not_mem hsmaller]
      omega
  · rw [heq]
    omega

/-- A full cache is full again when a key was used. -/
theorem length_entries_use_of_full {cache : Lru κ α} (hnodup : (Pairs.keys cache.entries).Nodup)
    (hfull : cache.entries.length = cache.capacity) (key : κ) (value : α) :
    (cache.use key value).entries.length = cache.capacity := by
  have hle := length_le_filter_ne hnodup key
  rw [← Pairs.keys_erase, Pairs.keys, Pairs.keys, List.length_map, List.length_map] at hle
  simp only [use, List.length_drop, List.length_append, List.length_singleton]
  omega

/-- Both caches use a key. Where the larger one gives up its first entry, so does the smaller one. -/
theorem Within.use (h : smaller.Within larger) (key : κ) (value : α) :
    (smaller.use key value).Within (larger.use key value) := by
  refine ⟨h.capacity_le, ?_, ?_, nodup_keys_use h.nodup key value⟩
  · have hothers : (Pairs.erase smaller.entries key).Sublist (Pairs.erase larger.entries key) :=
      h.sublist.filter _
    have hgiven := h.given_up_le key
    simp only [Lru.use, List.length_append, List.length_singleton]
    exact ((hothers.append_right _).drop _).trans (List.drop_sublist_drop_left _ hgiven)
  · rcases h.full_or_eq with hfull | heq
    · exact .inl (length_entries_use_of_full (h.keys_sublist.nodup h.nodup) hfull key value)
    · -- with the same entries they stay the same until the smaller one is full
      by_cases hroom : (Pairs.erase smaller.entries key).length < smaller.capacity
      · right
        have hlarger := Nat.lt_of_lt_of_le hroom h.capacity_le
        rw [entries_use_of_lt value hroom, entries_use_of_lt value (heq ▸ hlarger), heq]
      · left
        simp only [Lru.use, List.length_drop, List.length_append, List.length_singleton]
        omega

/-- The larger cache uses a key that only it holds. -/
theorem Within.use_larger (h : smaller.Within larger) {key : κ} (value : α)
    (hsmaller : key ∉ Pairs.keys smaller.entries) (hlarger : key ∈ Pairs.keys larger.entries) :
    smaller.Within (larger.use key value) := by
  refine ⟨h.capacity_le, ?_, .inl ?_, nodup_keys_use h.nodup key value⟩
  · rw [entries_use_of_mem value hlarger, ← Pairs.erase_of_not_mem hsmaller]
    exact (h.sublist.filter _).trans (List.sublist_append_left _ _)
  · exact h.full_or_eq.resolve_right fun heq => hsmaller (heq ▸ hlarger)

/-- Every operation that is done on both keeps the smaller cache within the larger one. -/
theorem Within.perform (h : smaller.Within larger) (operation : Operation κ α) :
    (smaller.perform operation).2.Within (larger.perform operation).2 := by
  cases operation with
  | get key =>
    cases hsmaller : Pairs.get? smaller.entries key with
    | some value =>
      have hmem := h.sublist.subset (Pairs.mem_of_get? hsmaller)
      have hlarger := (Pairs.get?_eq_some_iff h.nodup).mpr hmem
      simp only [Lru.perform, Lru.get, hsmaller, hlarger]
      exact h.use key value
    | none =>
      cases hlarger : Pairs.get? larger.entries key with
      | some value =>
        have hkey := List.mem_map_of_mem (f := Prod.fst) (Pairs.mem_of_get? hlarger)
        simp only [Lru.perform, Lru.get, hsmaller, hlarger]
        exact h.use_larger value (Pairs.get?_eq_none_iff.mp hsmaller) hkey
      | none =>
        simp only [Lru.perform, Lru.get, hsmaller, hlarger]
        exact h
  | set key value => exact h.use key value
  | contains key => exact h
  | clear => exact ⟨h.capacity_le, .slnil, .inr rfl, .nil⟩

end Lru

/-! ## A bounded cache and any larger one -/

/-- What one event found, another found as well. -/
structure Event.Covers (event other : Event κ α) : Prop where
  got : ∀ key value, other = .got key (some value) → event = .got key (some value)
  asked : ∀ key, other = .asked key true → event = .asked key true

namespace Store

/-- The entries of a bounded cache are among those of another with at least as much room. -/
inductive Within : Store κ α → Store κ α → Prop
  | bounded {smaller larger : Lru κ α} : smaller.Within larger →
    Within (bounded smaller) (bounded larger)
  | unbounded {smaller : Lru κ α} {entries : List (κ × α)} : smaller.entries ⊆ entries →
    (Pairs.keys entries).Nodup → Within (bounded smaller) (unbounded entries)

variable {smaller larger : Store κ α}

theorem Within.subset (h : smaller.Within larger) : smaller.entries ⊆ larger.entries := by
  cases h with
  | bounded h => exact h.sublist.subset
  | unbounded h _ => exact h

theorem Within.nodup (h : smaller.Within larger) : larger.keys.Nodup := by
  cases h with
  | bounded h => exact h.nodup
  | unbounded _ hnodup => exact hnodup

theorem Within.keys_subset (h : smaller.Within larger) : smaller.keys ⊆ larger.keys :=
  List.map_subset _ h.subset

/-- The caches are empty at first. -/
theorem within_ofLimit {size room : Int} (hsize : 1 ≤ size) (hroom : size ≤ room ∨ room ≤ 0) :
    (ofLimit size : Store κ α).Within (ofLimit room) := by
  have hsmaller : 0 < size := hsize
  rw [ofLimit_of_pos hsmaller]
  rcases hroom with hle | hnonpos
  · rw [ofLimit_of_pos (Int.lt_of_lt_of_le hsmaller hle)]
    exact .bounded ⟨Int.toNat_le_toNat hle, .slnil, .inr rfl, .nil⟩
  · rw [ofLimit_of_nonpos hnonpos]
    exact .unbounded (List.nil_subset _) .nil

variable [DecidableEq κ]

/-- Does one operation. -/
def perform (store : Store κ α) : Operation κ α → Event κ α × Store κ α
  | .get key =>
    let (found, store) := store.get key
    (.got key found, store)
  | .set key value => (.set key value, store.set key value)
  | .contains key => (.asked key (store.contains key), store)
  | .clear => (.cleared, store.clear)

/-- Does operations one after the other. -/
def run (store : Store κ α) : List (Operation κ α) → List (Event κ α) × Store κ α
  | [] => ([], store)
  | operation :: operations =>
    let (event, store) := store.perform operation
    let (events, store) := store.run operations
    (event :: events, store)

theorem perform_bounded (lru : Lru κ α) (operation : Operation κ α) :
    (bounded lru).perform operation =
      ((lru.perform operation).1, bounded (lru.perform operation).2) := by
  cases operation <;> rfl

/-- What the smaller cache finds the larger one finds. -/
theorem Within.get (h : smaller.Within larger) {key : κ} {value : α}
    (hget : (smaller.get key).1 = some value) : (larger.get key).1 = some value :=
  get_of_mem_entries h.nodup (h.subset (mem_entries_of_get hget))

theorem Within.covers (h : smaller.Within larger) (operation : Operation κ α) :
    (larger.perform operation).1.Covers (smaller.perform operation).1 := by
  cases operation with
  | get key =>
    refine ⟨fun other value hother => ?_, nofun⟩
    obtain ⟨rfl, hfound⟩ := Event.got.inj hother
    exact congrArg (Event.got key) (h.get hfound)
  | contains key =>
    refine ⟨nofun, fun other hother => ?_⟩
    obtain ⟨rfl, hheld⟩ := Event.asked.inj hother
    have hmem := h.keys_subset (List.contains_iff_mem.mp hheld)
    exact congrArg (Event.asked key) (List.contains_iff_mem.mpr hmem)
  | set | clear => exact ⟨nofun, nofun⟩

/-- What a bounded cache holds once a key is set, an unbounded one holds as well. -/
theorem subset_put {lru : Lru κ α} {entries : List (κ × α)} (hsubset : lru.entries ⊆ entries)
    (hnodup : (Pairs.keys entries).Nodup) (key : κ) (value : α) :
    (lru.use key value).entries ⊆ Pairs.put entries key value := by
  intro entry hentry
  rcases Lru.mem_use_cases hentry with rfl | hentry
  · exact Pairs.mem_of_get? (Pairs.get?_put_self entries key value)
  · obtain ⟨hmem, hne⟩ := Pairs.mem_erase.mp hentry
    have hget := (Pairs.get?_eq_some_iff hnodup).mpr (hsubset hmem)
    exact Pairs.mem_of_get? ((Pairs.get?_put_of_ne entries value hne).trans hget)

/-- Every operation that is done on both keeps the smaller cache within the larger one. -/
theorem Within.perform (h : smaller.Within larger) (operation : Operation κ α) :
    (smaller.perform operation).2.Within (larger.perform operation).2 := by
  cases h with
  | bounded h =>
    rw [perform_bounded, perform_bounded]
    exact .bounded (h.perform operation)
  | @unbounded lru entries hsubset hnodup =>
    cases operation with
    | get key =>
      have hget : ((Store.bounded lru).get key).2.entries ⊆ lru.entries := fun _ => mem_of_mem_get
      exact .unbounded (List.Subset.trans hget hsubset) hnodup
    | set key value =>
      exact .unbounded (subset_put hsubset hnodup key value) (Pairs.nodup_keys_put hnodup key value)
    | contains key => exact .unbounded hsubset hnodup
    | clear => exact .unbounded (List.nil_subset _) .nil

theorem Within.run (h : smaller.Within larger) (operations : List (Operation κ α)) :
    (smaller.run operations).2.Within (larger.run operations).2 ∧
      List.Forall₂ Event.Covers (larger.run operations).1 (smaller.run operations).1 := by
  induction operations generalizing smaller larger with
  | nil => exact ⟨h, .nil⟩
  | cons operation operations ih =>
    obtain ⟨hwithin, hcovers⟩ := ih (h.perform operation)
    exact ⟨hwithin, .cons (h.covers operation) hcovers⟩

end Store

/-- A larger cache never does worse. The same operations are done on a cache of at least one entry
and on one with no less room, or with no bound, both empty at first. Then the keys that the smaller
one holds are among those of the larger one, with the same values; and whatever the smaller one found
on the way, when a value was asked for or whether a key is held, the larger one found as well. Since
the operations are any, this is so after each of them. -/
theorem larger_never_worse [DecidableEq κ] {size room : Int} (hsize : 1 ≤ size)
    (hroom : size ≤ room ∨ room ≤ 0) (operations : List (Operation κ α)) :
    let smaller := (Store.ofLimit size).run operations
    let larger := (Store.ofLimit room).run operations
    (∀ key ∈ smaller.2.keys,
        key ∈ larger.2.keys ∧ (larger.2.get key).1 = (smaller.2.get key).1) ∧
      List.Forall₂ Event.Covers larger.1 smaller.1 := by
  obtain ⟨hwithin, hcovers⟩ := (Store.within_ofLimit hsize hroom).run operations
  refine ⟨fun key hkey => ⟨hwithin.keys_subset hkey, ?_⟩, hcovers⟩
  have hheld := mt Store.get_eq_none_iff.mp (not_not.mpr hkey)
  obtain ⟨value, hvalue⟩ := Option.ne_none_iff_exists'.mp hheld
  rw [hvalue, hwithin.get hvalue]

/-- The first key is found by the larger cache alone, which so uses its keys in another order; yet it
holds the third as the smaller one does. -/
theorem larger_never_worse_of_other_order :
    let operations : List (Operation Nat Char) :=
      [.set 1 'a', .set 2 'b', .set 3 'c', .get 1, .set 4 'd', .get 1, .get 3, .contains 4]
    let smaller := (Store.ofLimit 2).run operations
    let larger := (Store.ofLimit 3).run operations
    smaller.2.keys = [4, 3] ∧ larger.2.keys = [4, 1, 3] ∧ (larger.2.get 3).1 = some 'c' := by
  intro operations smaller larger
  obtain ⟨hheld, -⟩ := larger_never_worse (show (1 : Int) ≤ 2 by decide)
    (.inl (show (2 : Int) ≤ 3 by decide)) operations
  have hthird : 3 ∈ smaller.2.keys := by decide
  exact ⟨by decide, by decide, (hheld 3 hthird).2.trans (by decide)⟩

end ReleasePrompts.Cache
