import DiceFormula.Sorting.Merge
import DiceFormula.Sorting.Run

/-!
# Sorting by runs

`sort` takes run after run from the items and merges neighbours, so that equal items stay as they
came. Which neighbours are merged is fixed by halving the whole: two of them meet at the depth of
the first halving that parts their middles, and what meets deeper is merged earlier. Less than 64
items are a single run, so that they are sorted by bisection alone.

Comparisons may fail, and may fit no order. The rule above fixes which items are compared, and so
the outcome in these cases too: the first comparison that fails ends the sorting, and items without
an order stay wherever no comparison moves them.
-/

namespace DiceFormula.Sorting

variable {α ε : Type}

/-- A run that waits to be merged: the number of items in front of it, its own items, and the depth
at which it meets the next run. -/
structure Run (α : Type) where
  start : Nat
  items : List α
  depth : Nat := 0

/-- The least length of a run among `n` items: they are halved until less than 64 are left. -/
def leastRun (n : Nat) : Nat :=
  let parts := Nat.pow 2 (n.log2 - 5)
  (n + parts - 1) / parts

/-- The depth at which a run among `n` items meets the next one, of the given length: the number of
halvings of the whole that leave their middles in one part. -/
def Run.depthBefore (n length : Nat) (run : Run α) : Nat :=
  let middle := 2 * run.start + run.items.length
  let next := middle + run.items.length + length
  ((List.range n).find? fun k => middle * Nat.pow 2 k / n != next * Nat.pow 2 k / n).getD n

/-- Merges the last of the waiting runs, the last one first, for as long as they meet deeper than
the last one meets a run to come. -/
def mergeDeeper (below : α → α → Except ε Bool) (depth patience : Nat) :
    List (Run α) → Except ε (Nat × List (Run α))
  | last :: run :: runs =>
    if depth < run.depth then do
      let (patience, items) ← merge below patience run.items last.items
      mergeDeeper below depth patience ({ run with items } :: runs)
    else .ok (patience, { last with depth } :: run :: runs)
  | [last] => .ok (patience, [{ last with depth }])
  | [] => .ok (patience, [])
termination_by runs => runs.length

/-- Merges all waiting runs, the last one first: the last two, or the two before the last where the
earlier one of these is shorter than the last. -/
def mergeAll (below : α → α → Except ε Bool) (patience : Nat) : List (Run α) → Except ε (List α)
  | last :: run :: first :: runs =>
    if first.items.length < last.items.length then do
      let (patience, items) ← merge below patience first.items run.items
      mergeAll below patience (last :: { first with items } :: runs)
    else do
      let (patience, items) ← merge below patience run.items last.items
      mergeAll below patience ({ run with items } :: first :: runs)
  | [last, run] => return (← merge below patience run.items last.items).2
  | [last] => .ok last.items
  | [] => .ok []
termination_by runs => runs.length

/-- Takes runs from the rest of `n` items, `start` of which lie in the waiting runs, and merges
them. Each run has an item, so that their number is enough `fuel`. -/
def collect (below : α → α → Except ε Bool) (n : Nat) :
    Nat → Nat → Nat → List (Run α) → List α → Except ε (List α)
  | 0, _, patience, runs, _ => mergeAll below patience runs
  | fuel + 1, start, patience, runs, rest =>
    if rest.isEmpty then mergeAll below patience runs
    else do
      let (items, rest) ← nextRun below (leastRun n) rest
      let depth := (runs.head?.map (Run.depthBefore n items.length)).getD 0
      let (patience, runs) ← mergeDeeper below depth patience runs
      collect below n fuel (start + items.length) patience ({ start, items } :: runs) rest

/-- Sorts items in ascending order. -/
def sort (below : α → α → Except ε Bool) (as : List α) : Except ε (List α) :=
  collect below as.length as.length 0 longStretch [] as

end DiceFormula.Sorting
