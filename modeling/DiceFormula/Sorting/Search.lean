/-!
# Searching sorted items

The items of a sorted list pass a test up to some place and fail it from there on. `bisect` finds
that place between two given ones, `boundary` from a place where it is expected: by steps of growing
length away from it, then between the last two places tried. A test that cannot judge an item ends
the search. Where the items are not sorted, the same items are tried, so that what is found is still
determined.
-/

namespace DiceFormula.Sorting

variable {α ε : Type}

/-- The opposite of a test. -/
def fails (test : α → Except ε Bool) (a : α) : Except ε Bool := return !(← test a)

/-- The first place from `low` up to `high` at which the test fails, `high` if there is none. The
distance halves at each item tried, so that the number of items is enough `fuel`. -/
def bisect (test : α → Except ε Bool) (as : List α) : Nat → Nat → Nat → Except ε Nat
  | 0, low, _ => .ok low
  | fuel + 1, low, high =>
    let middle := (low + high) / 2
    match as[middle]? with
    | some a =>
      if low < high then do
        if ← test a then bisect test as fuel (middle + 1) high else bisect test as fuel low middle
      else .ok low
    | none => .ok low

/-- Steps to the distances 1, 3, 7, … below `limit` for as long as they pass the test. Answers the
last distance that did and the next one, which is at most `limit`. -/
def widen (test : Nat → Except ε Bool) (limit : Nat) : Nat → Nat → Nat → Except ε (Nat × Nat)
  | 0, last, next => .ok (last, next)
  | fuel + 1, last, next =>
    if next < limit then do
      if ← test next then widen test limit fuel next (2 * next + 1) else return (last, next)
    else .ok (last, limit)

/-- The first place at which the test fails, the number of items if there is none. The search starts
at the place `start`. -/
def boundary (test : α → Except ε Bool) (as : List α) (start : Nat) : Except ε Nat :=
  let testAt (i : Nat) : Except ε Bool := (as[i]?.map test).getD (.ok false)
  if start < as.length then do
    if ← testAt start then
      let (last, next) ← widen (fun d => testAt (start + d)) (as.length - start) as.length 0 1
      bisect test as as.length (start + last + 1) (start + next)
    else
      let (last, next) ← widen (fun d => fails testAt (start - d)) (start + 1) as.length 0 1
      bisect test as as.length (start + 1 - next) (start - last)
  else .ok as.length

end DiceFormula.Sorting
