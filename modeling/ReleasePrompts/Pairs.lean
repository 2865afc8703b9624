/-!
# Lists of pairs

A list of pairs with distinct keys, in an order that matters. `put` gives a key a value: a key that
is there already keeps its place, and a new one goes to the end.
-/

namespace ReleasePrompts.Pairs

variable {κ α : Type} [DecidableEq κ]

/-- Gives a key a value. -/
def put (pairs : List (κ × α)) (key : κ) (value : α) : List (κ × α) :=
  match pairs with
  | [] => [(key, value)]
  | pair :: rest => if pair.1 = key then (key, value) :: rest else pair :: put rest key value

/-- Gives keys values, one pair after the other. -/
def putAll (pairs added : List (κ × α)) : List (κ × α) :=
  added.foldl (fun pairs pair => put pairs pair.1 pair.2) pairs

/-- The value of a key. -/
def get? (pairs : List (κ × α)) (key : κ) : Option α :=
  (pairs.find? fun pair => pair.1 = key).map Prod.snd

/-- The pairs without the one of a key. -/
def erase (pairs : List (κ × α)) (key : κ) : List (κ × α) := pairs.filter fun pair => pair.1 ≠ key

/-- The keys, in order. -/
def keys (pairs : List (κ × α)) : List κ := pairs.map Prod.fst

/-- A new key goes to the end; any other leaves the keys as they are. -/
theorem keys_put (pairs : List (κ × α)) (key : κ) (value : α) :
    keys (put pairs key value) =
      if key ∈ keys pairs then keys pairs else keys pairs ++ [key] := by
  induction pairs with
  | nil => simp [put, keys]
  | cons pair rest ih =>
    by_cases h : pair.1 = key
    · simp [put, keys, h]
    · have h' : key ≠ pair.1 := fun e => h e.symm
      simp only [keys] at ih
      by_cases hm : key ∈ rest.map Prod.fst
      · simp only [put, h, if_false, keys, List.map_cons, ih, hm, if_true, List.mem_cons, or_true]
      · simp only [put, h, if_false, keys, List.map_cons, ih, hm, List.mem_cons, h', or_self,
          List.cons_append]

theorem get?_put_self (pairs : List (κ × α)) (key : κ) (value : α) :
    get? (put pairs key value) key = some value := by
  induction pairs with
  | nil => simp [put, get?]
  | cons pair rest ih =>
    by_cases h : pair.1 = key
    · simp [put, get?, h]
    · simp only [get?] at ih
      simp [put, get?, h, ih]

theorem get?_put_of_ne (pairs : List (κ × α)) {key other : κ} (value : α) (h : other ≠ key) :
    get? (put pairs key value) other = get? pairs other := by
  induction pairs with
  | nil => simp [put, get?, h.symm]
  | cons pair rest ih =>
    simp only [get?] at ih
    by_cases hk : pair.1 = key
    · simp [put, get?, h.symm, hk]
    · by_cases ho : pair.1 = other
      · simp [put, get?, ho, h]
      · simp [put, get?, hk, ho, ih]

end ReleasePrompts.Pairs
