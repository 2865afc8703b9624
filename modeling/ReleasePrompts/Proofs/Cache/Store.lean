import ReleasePrompts.Cache.Store

/-!
# The keys that a cache holds

To get a key changes no key of a cache (`mem_keys_get`), and to set one adds at most that key
(`mem_keys_of_set`, and `mem_of_mem_set` with the value): what a bounded cache gives up makes the
keys fewer. A cache without bound gives up nothing (`mem_keys_set_of_unbounded`).
-/

namespace ReleasePrompts.Pairs

variable {κ α : Type} [DecidableEq κ]

theorem get?_eq_none_iff {pairs : List (κ × α)} {key : κ} :
    get? pairs key = none ↔ key ∉ keys pairs := by
  simp only [get?, keys, Option.map_eq_none_iff, List.find?_eq_none, List.mem_map, decide_eq_true_eq,
    not_exists, not_and]

theorem mem_of_get? {pairs : List (κ × α)} {key : κ} {value : α}
    (h : get? pairs key = some value) : (key, value) ∈ pairs := by
  simp only [get?, Option.map_eq_some_iff] at h
  obtain ⟨pair, hf, rfl⟩ := h
  have hk : pair.1 = key := by simpa using List.find?_some hf
  exact hk ▸ List.mem_of_find?_eq_some hf

/-- Where no key is twice, the value of a key is the one that stands with it. -/
theorem get?_eq_some_iff {pairs : List (κ × α)} (hn : (keys pairs).Nodup) {key : κ} {value : α} :
    get? pairs key = some value ↔ (key, value) ∈ pairs := by
  refine ⟨mem_of_get?, fun h => ?_⟩
  induction pairs with
  | nil => cases h
  | cons pair rest ih =>
    obtain ⟨hm, hn⟩ := List.nodup_cons.mp hn
    rcases List.mem_cons.mp h with rfl | h
    · simp [get?]
    · have hne : pair.1 ≠ key := fun e => hm (e ▸ List.mem_map_of_mem (f := Prod.fst) h)
      simpa [get?, hne] using ih hn h

/-- A new key goes to the end. -/
theorem put_of_not_mem {pairs : List (κ × α)} {key : κ} (value : α) (h : key ∉ keys pairs) :
    put pairs key value = pairs ++ [(key, value)] := by
  induction pairs with
  | nil => rfl
  | cons pair rest ih =>
    obtain ⟨hp, hr⟩ := not_or.mp (mt List.mem_cons.mpr h)
    rw [put, if_neg (Ne.symm hp), ih hr, List.cons_append]

theorem mem_keys_put {pairs : List (κ × α)} {key other : κ} {value : α} :
    other ∈ keys (put pairs key value) ↔ other = key ∨ other ∈ keys pairs := by
  rw [keys_put]
  by_cases h : key ∈ keys pairs
  · rw [if_pos h]
    exact ⟨.inr, fun h' => h'.elim (· ▸ h) id⟩
  · simp [h, or_comm]

theorem nodup_keys_put {pairs : List (κ × α)} (hn : (keys pairs).Nodup) (key : κ) (value : α) :
    (keys (put pairs key value)).Nodup := by
  rw [keys_put]
  split
  · exact hn
  · next h =>
    refine List.nodup_append.mpr ⟨hn, by simp, fun other ho last hl e => h ?_⟩
    rwa [← List.mem_singleton.mp hl, ← e]

/-- The pairs that are there once a key is given a value. -/
theorem mem_of_mem_put {pairs : List (κ × α)} {key : κ} {value : α} {pair : κ × α}
    (h : pair ∈ put pairs key value) : pair = (key, value) ∨ pair ∈ pairs := by
  induction pairs with
  | nil => exact .inl (List.mem_singleton.mp h)
  | cons first rest ih =>
    rw [put] at h
    split at h
    · exact (List.mem_cons.mp h).imp_right (List.mem_cons_of_mem _)
    · rcases List.mem_cons.mp h with rfl | h
      · exact .inr List.mem_cons_self
      · exact (ih h).imp_right (List.mem_cons_of_mem _)

theorem mem_erase {pairs : List (κ × α)} {key : κ} {pair : κ × α} :
    pair ∈ erase pairs key ↔ pair ∈ pairs ∧ pair.1 ≠ key := by
  simp [erase]

theorem erase_of_not_mem {pairs : List (κ × α)} {key : κ} (h : key ∉ keys pairs) :
    erase pairs key = pairs :=
  List.filter_eq_self.mpr fun _ hp => decide_eq_true fun e => h (e ▸ List.mem_map_of_mem hp)

theorem keys_erase (pairs : List (κ × α)) (key : κ) :
    keys (erase pairs key) = (keys pairs).filter fun other => other ≠ key := by
  rw [keys, erase, keys, List.filter_map]
  rfl

theorem keys_erase_sublist (pairs : List (κ × α)) (key : κ) :
    (keys (erase pairs key)).Sublist (keys pairs) := List.filter_sublist.map _

theorem length_erase_lt {pairs : List (κ × α)} {key : κ} (h : key ∈ keys pairs) :
    (erase pairs key).length < pairs.length := by
  obtain ⟨pair, hp, hk⟩ := List.mem_map.mp h
  exact List.length_filter_lt_length_iff_exists.mpr ⟨pair, hp, by simpa using hk⟩

theorem mem_keys_erase_or {pairs : List (κ × α)} (key : κ) {other : κ} (h : other ∈ keys pairs) :
    other = key ∨ other ∈ keys (erase pairs key) := by
  obtain ⟨pair, hp, rfl⟩ := List.mem_map.mp h
  by_cases hk : pair.1 = key
  · exact .inl hk
  · exact .inr (List.mem_map.mpr ⟨pair, mem_erase.mpr ⟨hp, hk⟩, rfl⟩)

end ReleasePrompts.Pairs

namespace ReleasePrompts.Cache

variable {κ α : Type} [DecidableEq κ]

namespace Lru

theorem get_fst (cache : Lru κ α) (key : κ) :
    (cache.get key).1 = Pairs.get? cache.entries key := by
  rw [get]
  split <;> simp [*]

/-- What a use leaves behind: the entry that is used, and entries of other keys. -/
theorem mem_use_cases {cache : Lru κ α} {key : κ} {value : α} {pair : κ × α}
    (h : pair ∈ (cache.use key value).entries) :
    pair = (key, value) ∨ pair ∈ Pairs.erase cache.entries key :=
  (List.mem_append.mp (List.mem_of_mem_drop h)).symm.imp_left List.mem_singleton.mp

theorem mem_of_mem_use {cache : Lru κ α} {key : κ} {value : α} {pair : κ × α}
    (h : pair ∈ (cache.use key value).entries) : pair = (key, value) ∨ pair ∈ cache.entries :=
  (mem_use_cases h).imp_right fun h => (Pairs.mem_erase.mp h).1

theorem mem_keys_of_use {cache : Lru κ α} {key other : κ} {value : α}
    (h : other ∈ Pairs.keys (cache.use key value).entries) :
    other = key ∨ other ∈ Pairs.keys cache.entries := by
  obtain ⟨pair, hp, rfl⟩ := List.mem_map.mp h
  exact (mem_of_mem_use hp).imp (congrArg Prod.fst) (List.mem_map_of_mem (f := Prod.fst))

/-- A use of a key drives nothing out where there is room for it besides the others. -/
theorem entries_use_of_lt {cache : Lru κ α} {key : κ} (value : α)
    (h : (Pairs.erase cache.entries key).length < cache.capacity) :
    (cache.use key value).entries = Pairs.erase cache.entries key ++ [(key, value)] := by
  have : (Pairs.erase cache.entries key ++ [(key, value)]).length - cache.capacity = 0 := by
    simp only [List.length_append, List.length_singleton]
    omega
  simp only [use, this, List.drop_zero]

/-- A use of a key that is held drives nothing out. -/
theorem entries_use_of_mem {cache : Lru κ α} {key : κ} (value : α)
    (h : key ∈ Pairs.keys cache.entries) :
    (cache.use key value).entries = Pairs.erase cache.entries key ++ [(key, value)] :=
  entries_use_of_lt value (Nat.lt_of_lt_of_le (Pairs.length_erase_lt h) cache.length_entries_le)

theorem mem_keys_use_of_mem {cache : Lru κ α} {key other : κ} (value : α)
    (hk : key ∈ Pairs.keys cache.entries) (h : other ∈ Pairs.keys cache.entries) :
    other ∈ Pairs.keys (cache.use key value).entries := by
  rw [entries_use_of_mem value hk, Pairs.keys, List.map_append, List.mem_append]
  rcases Pairs.mem_keys_erase_or key h with rfl | h
  · exact .inr (List.mem_singleton.mpr rfl)
  · exact .inl h

end Lru

namespace Store

theorem get_eq_none_iff {store : Store κ α} {key : κ} :
    (store.get key).1 = none ↔ key ∉ store.keys := by
  cases store with
  | unbounded entries => exact Pairs.get?_eq_none_iff
  | bounded lru =>
    rw [keys, entries, ← Pairs.get?_eq_none_iff]
    cases h : Pairs.get? lru.entries key <;> simp [get, Lru.get, h]

theorem mem_keys_of_get {store : Store κ α} {key : κ} {value : α}
    (h : (store.get key).1 = some value) : key ∈ store.keys :=
  Decidable.byContradiction fun hk => by
    rw [get_eq_none_iff.mpr hk] at h
    cases h

/-- To get a key that is not held changes nothing. -/
theorem get_of_not_mem {store : Store κ α} {key : κ} (h : key ∉ store.keys) :
    store.get key = (none, store) := by
  have hnone := get_eq_none_iff.mpr h
  cases store with
  | unbounded entries => exact Prod.ext hnone rfl
  | bounded lru =>
    have hget : Pairs.get? lru.entries key = none := (lru.get_fst key).symm.trans hnone
    simp only [get, Lru.get, hget]

theorem mem_entries_of_get {store : Store κ α} {key : κ} {value : α}
    (h : (store.get key).1 = some value) : (key, value) ∈ store.entries := by
  cases store with
  | unbounded entries => exact Pairs.mem_of_get? h
  | bounded lru => exact Pairs.mem_of_get? ((lru.get_fst key).symm.trans h)

/-- Where no key is twice, to get a key gives the value that is held. -/
theorem get_of_mem_entries {store : Store κ α} (hn : store.keys.Nodup) {key : κ} {value : α}
    (h : (key, value) ∈ store.entries) : (store.get key).1 = some value := by
  cases store with
  | unbounded entries => exact (Pairs.get?_eq_some_iff hn).mpr h
  | bounded lru => exact (lru.get_fst key).trans ((Pairs.get?_eq_some_iff hn).mpr h)

/-- To get a key brings no entry in. -/
theorem mem_of_mem_get {store : Store κ α} {key : κ} {pair : κ × α}
    (h : pair ∈ (store.get key).2.entries) : pair ∈ store.entries := by
  cases store with
  | unbounded entries => exact h
  | bounded lru =>
    cases hvalue : Pairs.get? lru.entries key with
    | none => simpa only [get, Lru.get, hvalue, entries] using h
    | some value =>
      simp only [get, Lru.get, hvalue, entries] at h
      exact (Lru.mem_of_mem_use h).elim (· ▸ Pairs.mem_of_get? hvalue) id

/-- What is set is the only entry that may be new. -/
theorem mem_of_mem_set {store : Store κ α} {key : κ} {value : α} {pair : κ × α}
    (h : pair ∈ (store.set key value).entries) : pair = (key, value) ∨ pair ∈ store.entries := by
  cases store with
  | unbounded entries => exact Pairs.mem_of_mem_put h
  | bounded lru => exact Lru.mem_of_mem_use h

/-- To get a key drives no key out, and brings none in. -/
theorem mem_keys_get {store : Store κ α} {key other : κ} :
    other ∈ (store.get key).2.keys ↔ other ∈ store.keys := by
  cases store with
  | unbounded entries => rfl
  | bounded lru =>
    cases h : Pairs.get? lru.entries key with
    | none => simp only [get, Lru.get, h, keys, entries]
    | some value =>
      have hk : key ∈ Pairs.keys lru.entries := List.mem_map_of_mem (Pairs.mem_of_get? h)
      simp only [get, Lru.get, h, keys, entries]
      exact ⟨fun ho => (Lru.mem_keys_of_use ho).elim (· ▸ hk) id, Lru.mem_keys_use_of_mem value hk⟩

theorem mem_keys_of_set {store : Store κ α} {key other : κ} {value : α}
    (h : other ∈ (store.set key value).keys) : other = key ∨ other ∈ store.keys := by
  cases store with
  | unbounded entries => exact Pairs.mem_keys_put.mp h
  | bounded lru => exact Lru.mem_keys_of_use h

/-- Whether a cache keeps everything. -/
def IsUnbounded (store : Store κ α) : Prop := store.limit? = none

theorem limit?_get (store : Store κ α) (key : κ) : (store.get key).2.limit? = store.limit? := by
  cases store with
  | unbounded entries => rfl
  | bounded lru => cases h : Pairs.get? lru.entries key <;> simp [get, Lru.get, h, limit?, Lru.use]

theorem limit?_set (store : Store κ α) (key : κ) (value : α) :
    (store.set key value).limit? = store.limit? := by
  cases store <;> rfl

theorem mem_keys_set_of_unbounded {store : Store κ α} (hu : store.IsUnbounded) {key other : κ}
    {value : α} : other ∈ (store.set key value).keys ↔ other = key ∨ other ∈ store.keys := by
  cases store with
  | unbounded entries => exact Pairs.mem_keys_put
  | bounded lru => simp [IsUnbounded, limit?] at hu

end Store

end ReleasePrompts.Cache
