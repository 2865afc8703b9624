/-!
# Merging two runs by a comparison that may fail

Two runs of which one follows the other are merged at their front or, from the last items on, at
their back, whichever leaves more in place. One item after the other is taken from the run whose item
goes first, until one run has won several times in a row; then the items that go before the next one
of the other run are searched for in growing strides and taken together (`gallop`). For a consistent
order this is a stable merge. For any other the result depends on which items are compared.
-/

namespace ReleasePrompts.Release

variable {α ε : Type}

/-- The first place between `low` and `high` that an item does not go behind, by halves. -/
def bisect (behind : Nat → Except ε Bool) (low high : Nat) : Except ε Nat :=
  if low < high then do
    let middle := low + (high - low) / 2
    if ← behind middle then bisect behind (middle + 1) high
    else bisect behind low middle
  else .ok low
termination_by high - low
decreasing_by all_goals omega

/-- Strides that grow from `stride` on, as long as they lead to places of one kind and stay below
`limit`: the last of them, and the first one behind it. -/
def goOn (further : Nat → Except ε Bool) (limit last stride : Nat) : Except ε (Nat × Nat) :=
  if stride < limit then do
    if ← further stride then goOn further limit stride (2 * stride + 1)
    else return (last, stride)
  else .ok (last, limit)
termination_by limit - stride
decreasing_by omega

/-- The first of `size` places that an item does not go behind, searched from `hint` on. -/
def gallop (behind : Nat → Except ε Bool) (size hint : Nat) : Except ε Nat := do
  if ← behind hint then
    let (last, stride) ← goOn (fun n => behind (hint + n)) (size - hint) 0 1
    bisect behind (hint + last + 1) (hint + stride)
  else
    let (last, stride) ← goOn (fun n => (!·) <$> behind (hint - n)) (hint + 1) 0 1
    bisect behind (hint + 1 - stride) (hint - last)

/-- The end at which two runs are merged. -/
inductive Side where
  | front
  | back
  deriving DecidableEq, Repr

/-- How many of `size` items lead, where each is asked for by its place behind the end at which runs
are merged. -/
def leading (side : Side) (leads : Nat → Except ε Bool) (size : Nat) : Except ε Nat :=
  match side with
  | .front => gallop leads size 0
  | .back => (size - ·) <$> gallop (fun n => (!·) <$> leads (size - 1 - n)) size (size - 1)

/-- How a merge goes on. -/
inductive Pace where
  /-- By single items, of which each run has won some in a row; `again` if it has galloped before. -/
  | single (again : Bool) (xWins yWins : Nat)
  /-- With the first search of a round, which may follow another one. -/
  | opening (again : Bool)
  /-- With the second search of a round, whose first one found some items. -/
  | closing (found : Nat)
  deriving DecidableEq, Repr

/-- How many items in a row are worth to gallop. -/
def worthwhile : Nat := 7

/-- How many items in a row make a merge gallop: fewer with every round, more once it has stopped. -/
def Pace.patience (patience : Nat) : Pace → Nat
  | single true _ _ => patience + 1
  | opening true => if 1 < patience then patience - 1 else patience
  | _ => patience

/-- The pace behind a round of two searches. -/
def Pace.behindRound (first second : Nat) : Pace :=
  if worthwhile ≤ first ∨ worthwhile ≤ second then .opening true else .single true 0 0

variable (before : α → α → Except ε Bool)

/-- Whether the item `y` goes before `x`. At the front `x` is of the first run, and so it is `x` if
they are alike; at the back it is of the second. -/
def overtakes (side : Side) (x y : α) : Except ε Bool :=
  match side with
  | .front => before y x
  | .back => before x y

/-- How many of the items `xs` go before `y`. -/
def leadingXs (side : Side) (y : α) (xs : List α) : Except ε Nat :=
  leading side (fun n => match xs[n]? with
    | some x => (!·) <$> overtakes before side x y
    | none => .ok false) xs.length

/-- How many of the items `ys` go before `x`. -/
def leadingYs (side : Side) (x : α) (ys : List α) : Except ε Nat :=
  leading side (fun n => match ys[n]? with
    | some y => overtakes before side x y
    | none => .ok false) ys.length

/-- What one move of a merge leaves of fewer than `size` items, both runs given from the end at which
they are merged, and how the merge goes on. -/
structure Move (α : Type) (size : Nat) where
  moved : List α
  xs : List α
  ys : List α
  pace : Pace
  fewer : xs.length + ys.length < size

/-- Moves one item. -/
def moveOne (side : Side) (patience xWins yWins : Nat) (x : α) (xs : List α) (y : α)
    (ys : List α) : Except ε (Move α ((x :: xs).length + (y :: ys).length)) := do
  let pace (xWins yWins : Nat) : Pace :=
    if patience ≤ max xWins yWins then .opening false else .single false xWins yWins
  if ← overtakes before side x y then
    return ⟨[y], x :: xs, ys, pace 0 (yWins + 1), by simp⟩
  else return ⟨[x], xs, y :: ys, pace (xWins + 1) 0, by simp⟩

/-- Moves the items that go before `y`, and then `y` unless only one item stays behind. -/
def moveXs (side : Side) (next : Nat → Pace) (xs : List α) (h : 2 ≤ xs.length) (y : α)
    (ys : List α) : Except ε (Move α (xs.length + (y :: ys).length)) := do
  let count ← leadingXs before side y xs
  let others := xs.drop count
  if hothers : others.length ≤ 1 then
    return ⟨xs.take count, others, y :: ys, next count, by omega⟩
  else
    return ⟨xs.take count ++ [y], others, ys, next count, by
      simp only [others, List.length_drop, List.length_cons]; omega⟩

/-- Moves the items that go before `x`, and then `x` unless none stays behind. -/
def moveYs (side : Side) (next : Nat → Pace) (x : α) (xs ys : List α) (h : ys ≠ []) :
    Except ε (Move α ((x :: xs).length + ys.length)) := do
  let count ← leadingYs before side x ys
  let others := ys.drop count
  if hothers : others = [] then
    return ⟨ys.take count, x :: xs, others, next count, by
      simpa [hothers] using List.length_pos_iff.mpr h⟩
  else
    return ⟨ys.take count ++ [x], xs, others, next count, by
      simp only [others, List.length_drop, List.length_cons]; omega⟩

/-- The next move of a merge. -/
def move (side : Side) (pace : Pace) (patience : Nat) (x x' : α) (xs : List α) (y : α)
    (ys : List α) : Except ε (Move α ((x :: x' :: xs).length + (y :: ys).length)) :=
  match pace, side with
  | .single _ xWins yWins, _ => moveOne before side patience xWins yWins x (x' :: xs) y ys
  | .opening _, .front => moveXs before side .closing (x :: x' :: xs) (by simp) y ys
  | .opening _, .back => moveYs before side .closing x (x' :: xs) (y :: ys) (by simp)
  | .closing found, .front =>
    moveYs before side (.behindRound found) x (x' :: xs) (y :: ys) (by simp)
  | .closing found, .back => moveXs before side (.behindRound found) (x :: x' :: xs) (by simp) y ys

/-- Merges runs, both given from the end at which they are merged. The last item of `xs` is known to
go behind all of `ys`. -/
def mergeFrom (side : Side) (pace : Pace) (patience : Nat) (xs ys : List α) :
    Except ε (List α × Nat) :=
  match xs, ys with
  | x :: x' :: xs, y :: ys => do
    let patience := pace.patience patience
    let ⟨moved, xs, ys, pace, _⟩ ← move before side pace patience x x' xs y ys
    let (merged, patience) ← mergeFrom side pace patience xs ys
    return (moved ++ merged, patience)
  | xs, ys => .ok (ys ++ xs, patience)
termination_by xs.length + ys.length

/-- Merges runs of which the first item of `ys` goes first. -/
def mergeBehind (side : Side) (patience : Nat) (xs : List α) : List α → Except ε (List α × Nat)
  | [] => .ok (xs, patience)
  | y :: ys => do
    let (merged, patience) ← mergeFrom before side (.single false 0 0) patience xs ys
    return (y :: merged, patience)

/-- Merges runs, at the front if the first one is not longer than the other. The first item of each
and the last item of each are known to be the wrong way round. -/
def mergeMiddle (patience : Nat) (xs ys : List α) : Except ε (List α × Nat) :=
  if xs.length ≤ ys.length then mergeBehind before .front patience xs ys
  else do
    let (merged, patience) ← mergeBehind before .back patience ys.reverse xs.reverse
    return (merged.reverse, patience)

/-- Merges two runs of which one follows the other. The items at both ends that are in place already
stay there. -/
def mergeRuns (patience : Nat) (left right : List α) : Except ε (List α × Nat) :=
  match right with
  | [] => .ok (left, patience)
  | item :: _ => do
    let staying ← leadingXs before .front item left
    let xs := left.drop staying
    match xs.getLast? with
    | none => return (left ++ right, patience)
    | some last =>
      let kept ← leadingXs before .back last right.reverse
      let ys := right.take (right.length - kept)
      if ys.isEmpty then return (left ++ right, patience)
      else
        let (merged, patience) ← mergeMiddle before patience xs ys
        return (left.take staying ++ merged ++ right.drop (right.length - kept), patience)

end ReleasePrompts.Release
