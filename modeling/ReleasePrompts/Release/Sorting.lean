import ReleasePrompts.Release.Merging

/-!
# Sorting by a comparison that may fail

A list is sorted run by run. The items at its front that are in order already are a run, or are
turned round if each is smaller than the one before it; a run that is too short is filled up with the
items behind it, each of which goes behind the items that are not greater, at the place a binary
search finds. Runs are merged with their neighbours such that every item takes part in few merges,
which is told from where the runs meet (`meetingDepth`). For a consistent order this is the stable
sort. The order of versions is not consistent when plain versions and others are mixed, and then the
result depends on these rules.
-/

namespace ReleasePrompts.Release

variable {α ε : Type} (before : α → α → Except ε Bool)

/-! ## Runs -/

/-- The items that go on descending below `last`, put in front of those already turned round, and
the items behind them. -/
def turnDescending (last : α) (turned : List α) : List α → Except ε (List α × List α)
  | [] => .ok (turned, [])
  | item :: rest => do
    if ← before item last then turnDescending item (item :: turned) rest
    else return (turned, item :: rest)

/-- The items that go on without falling below `last`, and the items behind them. -/
def splitAscending (last : α) : List α → Except ε (List α × List α)
  | [] => .ok ([], [])
  | item :: rest => do
    if ← before item last then return ([], item :: rest)
    else
      let (run, others) ← splitAscending item rest
      return (item :: run, others)

/-- The run at the front of a list, in order, and the items behind it. -/
def firstRun : List α → Except ε (List α × List α)
  | [] => .ok ([], [])
  | [item] => .ok ([item], [])
  | first :: second :: rest => do
    if ← before second first then turnDescending before second [second, first] rest
    else
      let (run, others) ← splitAscending before second rest
      return (first :: second :: run, others)

/-- The place of an item in a sorted list. -/
def searchPlace (item : α) (sorted : List α) : Except ε Nat :=
  bisect (fun n => match sorted[n]? with
    | some other => (!·) <$> before item other
    | none => .ok false) 0 sorted.length

/-- Inserts items into a sorted list, one after the other. -/
def insertEach (sorted : List α) : List α → Except ε (List α)
  | [] => .ok sorted
  | item :: rest => do
    let place ← searchPlace before item sorted
    insertEach (sorted.take place ++ item :: sorted.drop place) rest

/-- How many items a run should have at least: all if they are fewer than 64, else what is left of
their number after some halvings, and one more (`odd`) if any of these left a remainder. -/
def leastRun (size : Nat) (odd : Nat := 0) : Nat :=
  if size < 64 then size + odd else leastRun (size / 2) (odd ||| size % 2)
termination_by size
decreasing_by omega

/-- The run at the front of a list, with at least as many items as there should be if the list has
so many, and the items behind it. -/
def nextRun (least : Nat) (items : List α) : Except ε (List α × List α) := do
  let (run, others) ← firstRun before items
  let missing := least - run.length
  let run ← insertEach before run (others.take missing)
  return (run, others.drop missing)

/-! ## Merging the runs of a list -/

/-- How often a range of `size` is halved before the places `a` and `b`, both counted in halves, fall
into different parts. -/
def meetingDepth (size a b : Nat) : Nat :=
  if a < b ∧ b < 2 * size then
    if size ≤ a then meetingDepth size (2 * (a - size)) (2 * (b - size)) + 1
    else if size ≤ b then 1
    else meetingDepth size (2 * a) (2 * b) + 1
  else 0
termination_by 2 * size - (b - a)
decreasing_by all_goals omega

/-- A run that waits to be merged, and how deep it and the run behind it meet. -/
structure Waiting (α : Type) where
  items : List α
  depth : Nat

/-- Merges a run with those before it that meet their next run deeper. -/
def mergeDeeper (depth patience : Nat) (top : List α) :
    List (Waiting α) → Except ε (List α × List (Waiting α) × Nat)
  | [] => .ok (top, [], patience)
  | run :: runs =>
    if depth < run.depth then do
      let (top, patience) ← mergeRuns before patience run.items top
      mergeDeeper depth patience top runs
    else .ok (top, run :: runs, patience)

/-- Merges all runs, the last one first given, each time the last run or, if it is longer than the
one two before it, that one with its neighbour. -/
def mergeAll (patience : Nat) (top : List α) : List (List α) → Except ε (List α)
  | [] => .ok top
  | [run] => Prod.fst <$> mergeRuns before patience run top
  | run :: other :: runs =>
    if other.length < top.length then do
      let (merged, patience) ← mergeRuns before patience other run
      mergeAll patience top (merged :: runs)
    else do
      let (top, patience) ← mergeRuns before patience run top
      mergeAll patience top (other :: runs)
termination_by runs => runs.length

/-- Sorts the items behind a run that begins at the place `start`, and merges all runs. The number
of runs to come is at most `count`. -/
def sortBehind (size start patience : Nat) (top : List α) (waiting : List (Waiting α)) :
    (count : Nat) → List α → Except ε (List α)
  | 0, _ | _, [] => mergeAll before patience top (waiting.map Waiting.items)
  | count + 1, items => do
    let (run, others) ← nextRun before (leastRun size) items
    let middle := 2 * start + top.length
    let depth := meetingDepth size middle (middle + top.length + run.length)
    let (merged, waiting, patience) ← mergeDeeper before depth patience top waiting
    sortBehind size (start + top.length) patience run (⟨merged, depth⟩ :: waiting) count others

/-- Sorts a list. -/
def sortBy (items : List α) : Except ε (List α) := do
  let (run, others) ← nextRun before (leastRun items.length) items
  sortBehind before items.length 0 worthwhile run [] others.length others

end ReleasePrompts.Release
