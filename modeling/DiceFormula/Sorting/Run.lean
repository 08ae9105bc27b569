import DiceFormula.Sorting.Search

/-!
# Runs

A run is a stretch of items that are in order. `nextRun` takes the one at the front of some items,
turned round if it falls, and makes one that is too short longer by putting further items in their
place.
-/

namespace DiceFormula.Sorting

variable {α ε : Type} (below : α → α → Except ε Bool)

/-- The longest stretch behind `last` in which every item is, or is not, below the one before; and
what follows it. -/
def takeRun (falling : Bool) (last : α) : List α → Except ε (List α × List α)
  | [] => .ok ([], [])
  | a :: as => do
    if (← below a last) == falling then
      let (run, rest) ← takeRun falling a as
      return (a :: run, rest)
    else return ([], a :: as)

/-- The run at the front in ascending order, and what follows it. -/
def frontRun : List α → Except ε (List α × List α)
  | a :: b :: as => do
    let falling ← below b a
    let (run, rest) ← takeRun below falling b as
    let run := a :: b :: run
    return (if falling then run.reverse else run, rest)
  | as => .ok (as, [])

/-- Puts an item in its place: behind all that it is not below. -/
def insert (as : List α) (a : α) : Except ε (List α) := do
  let i ← bisect (fails (below a)) as as.length 0 as.length
  return as.take i ++ a :: as.drop i

/-- The run at the front, with at least `least` items if there are so many, and what follows it. -/
def nextRun (least : Nat) (as : List α) : Except ε (List α × List α) := do
  let (run, rest) ← frontRun below as
  let missing := least - run.length
  return (← (rest.take missing).foldlM (insert below) run, rest.drop missing)

end DiceFormula.Sorting
