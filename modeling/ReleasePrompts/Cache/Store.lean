import ReleasePrompts.Cache.Lru

/-!
# Caches with and without bound

A `Store` either keeps everything, in the order in which the keys were set first, or holds a limited
number of entries and gives up those that were not used for the longest time.
-/

namespace ReleasePrompts.Cache

/-- A cache. -/
inductive Store (κ α : Type) where
  | unbounded (entries : List (κ × α))
  | bounded (lru : Lru κ α)

namespace Store

variable {κ α : Type}

/-- A cache of at most `limit` entries, or one without bound if that is not positive. -/
def ofLimit (limit : Int) : Store κ α :=
  match Lru.ofCapacity? limit with
  | none => unbounded []
  | some lru => bounded lru

/-- The largest number of entries, if there is one. -/
def limit? : Store κ α → Option Nat
  | unbounded _ => none
  | bounded lru => some lru.capacity

/-- The entries, in order. -/
def entries : Store κ α → List (κ × α)
  | unbounded entries => entries
  | bounded lru => lru.entries

theorem ofLimit_of_pos {limit : Int} (h : 0 < limit) :
    (ofLimit limit : Store κ α) = bounded ⟨limit.toNat, [], Int.lt_toNat.mpr h, Nat.zero_le _⟩ := by
  rw [ofLimit, Lru.ofCapacity?, dif_pos h]

theorem ofLimit_of_nonpos {limit : Int} (h : limit ≤ 0) :
    (ofLimit limit : Store κ α) = unbounded [] := by
  rw [ofLimit, Lru.ofCapacity?, dif_neg (Int.not_lt.mpr h)]

theorem entries_ofLimit (limit : Int) : (ofLimit limit : Store κ α).entries = [] := by
  by_cases h : 0 < limit
  · rw [ofLimit_of_pos h, entries]
  · rw [ofLimit_of_nonpos (Int.not_lt.mp h), entries]

/-- The keys, in order. -/
def keys (store : Store κ α) : List κ := Pairs.keys store.entries

/-- The number of entries. -/
def size (store : Store κ α) : Nat := store.entries.length

/-- The cache without its entries. -/
def clear : Store κ α → Store κ α
  | unbounded _ => unbounded []
  | bounded lru => bounded lru.clear

variable [DecidableEq κ]

/-- The value of a key; a bounded cache counts this as a use. -/
def get (store : Store κ α) (key : κ) : Option α × Store κ α :=
  match store with
  | unbounded entries => (Pairs.get? entries key, store)
  | bounded lru =>
    let (value, lru) := lru.get key
    (value, bounded lru)

/-- Gives a key a value. -/
def set (store : Store κ α) (key : κ) (value : α) : Store κ α :=
  match store with
  | unbounded entries => unbounded (Pairs.put entries key value)
  | bounded lru => bounded (lru.set key value)

/-- Whether a key is held. -/
def contains (store : Store κ α) (key : κ) : Bool := store.keys.contains key

end Store

end ReleasePrompts.Cache
