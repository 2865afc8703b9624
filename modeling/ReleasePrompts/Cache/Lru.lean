import ReleasePrompts.Pairs

/-!
# A bounded cache

An `Lru` holds at most `capacity` entries, in the order of their last use. To set a key is a use of
it, and so is to get a key that is held. An entry that finds no room drives out those that were not
used for the longest time.
-/

namespace ReleasePrompts.Cache

variable {κ α : Type}

/-- A cache of at most `capacity` entries, the least recently used one first. -/
structure Lru (κ α : Type) where
  capacity : Nat
  entries : List (κ × α)
  capacity_pos : 0 < capacity
  length_entries_le : entries.length ≤ capacity

namespace Lru

/-- The wording for a capacity below one. -/
def capacityMessage : String := "max_size must be at least 1"

/-- A cache without entries; there is none of a capacity below one. -/
def ofCapacity? (capacity : Int) : Option (Lru κ α) :=
  if h : 0 < capacity then some ⟨capacity.toNat, [], by omega, Nat.zero_le _⟩ else none

variable [DecidableEq κ]

/-- Puts an entry behind all others, without the entries for which no room is left. -/
def use (cache : Lru κ α) (key : κ) (value : α) : Lru κ α :=
  let entries := Pairs.erase cache.entries key ++ [(key, value)]
  { cache with
    entries := entries.drop (entries.length - cache.capacity)
    length_entries_le := by rw [List.length_drop]; omega }

/-- The value of a key, whose use this is. -/
def get (cache : Lru κ α) (key : κ) : Option α × Lru κ α :=
  match Pairs.get? cache.entries key with
  | none => (none, cache)
  | some value => (some value, cache.use key value)

/-- Gives a key a value. -/
def set (cache : Lru κ α) (key : κ) (value : α) : Lru κ α := cache.use key value

/-- Whether a key is held; this is no use of it. -/
def contains (cache : Lru κ α) (key : κ) : Bool := (Pairs.keys cache.entries).contains key

/-- The cache without its entries. -/
def clear (cache : Lru κ α) : Lru κ α := { cache with entries := [], length_entries_le := by simp }

end Lru

end ReleasePrompts.Cache
