import DiceFormula.Sorting.Search

/-!
# Merging two sorted runs

`merge` makes one sorted run of two that follow each other; of equal items those of the first run
stay in front. Items that already are in place at either end are found by a search and left out. The
rest is merged from the end where the shorter run stands: one by one, until one run has won a number
of times in a row that is called the patience; then by whole stretches, found by a search, until
stretches become short. Stretches that pay lower the patience and others raise it, from one merge to
the next.
-/

namespace DiceFormula.Sorting

variable {α ε : Type}

/-- Two runs on the way to one, seen from the end where the merge started: the placed items, the
last one first, and what is left of the shorter run and of the other one. -/
structure Merging (α : Type) where
  placed : List α
  shorter : List α
  longer : List α

namespace Merging

/-- Whether the order of what is left is known: the last item of the shorter run comes last. -/
def isSettled (m : Merging α) : Bool := m.longer.isEmpty || m.shorter.length ≤ 1

/-- All items, those in front first, once the merge is settled. -/
def items (m : Merging α) : List α := m.placed.reverse ++ m.longer ++ m.shorter

end Merging

/-- The stretches that are long enough to go on by stretches. -/
def longStretch : Nat := 7

/-- How the merge of two runs compares their items. A merge that starts at the far end sees both
runs in reverse order. -/
structure Side (α ε : Type) where
  below : α → α → Except ε Bool
  atEnd : Bool

namespace Side

variable (side : Side α ε)

/-- Whether an item of the longer run is placed before one of the shorter run. -/
def prefers (longer shorter : α) : Except ε Bool :=
  if side.atEnd then side.below shorter longer else side.below longer shorter

/-- The number of leading items that pass a test. A search always runs along the order of the items,
and starts where the merge does. -/
def leading (test : α → Except ε Bool) (as : List α) : Except ε Nat :=
  if side.atEnd then return as.length - (← boundary (fails test) as.reverse (as.length - 1))
  else boundary test as 0

/-- Places items one by one, until one of the runs has won `patience` times in a row or the merge is
settled. The counters are the wins in a row of the two runs. -/
def placeSingly (patience : Nat) (placed : List α) (wins losses : Nat) :
    List α → List α → Except ε (Merging α)
  | a :: a' :: as, b :: bs => do
    if ← side.prefers b a then
      if patience ≤ losses + 1 then return ⟨b :: placed, a :: a' :: as, bs⟩
      else placeSingly patience (b :: placed) 0 (losses + 1) (a :: a' :: as) bs
    else
      if patience ≤ wins + 1 then return ⟨a :: placed, a' :: as, b :: bs⟩
      else placeSingly patience (a :: placed) (wins + 1) 0 (a' :: as) (b :: bs)
  | as, bs => .ok ⟨placed, as, bs⟩
termination_by as bs => as.length + bs.length

/-- Places the items of the shorter run that come before the next item of the longer one, and then
that item, with the number of items found. -/
def placeShorter (m : Merging α) : Except ε (Nat × Merging α) :=
  match m.longer with
  | [] => .ok (0, m)
  | b :: bs => do
    let n ← side.leading (fails (side.prefers b)) m.shorter
    let m := { m with
      placed := (m.shorter.take n).reverse ++ m.placed
      shorter := m.shorter.drop n }
    return (n, if m.isSettled then m else { m with placed := b :: m.placed, longer := bs })

/-- Places the items of the longer run that come before the next item of the shorter one, and then
that item, with the number of items found. -/
def placeLonger (m : Merging α) : Except ε (Nat × Merging α) :=
  match m.shorter with
  | [] => .ok (0, m)
  | a :: as => do
    let n ← side.leading (side.prefers · a) m.longer
    let m := { m with
      placed := (m.longer.take n).reverse ++ m.placed
      longer := m.longer.drop n }
    return (n, if m.isSettled then m else { m with placed := a :: m.placed, shorter := as })

/-- Places items by stretches for as long as one of two stretches is long, with the patience after
that. Each round places an item, so that the number of items is enough `fuel`. -/
def placeStretches : Nat → Nat → Merging α → Except ε (Nat × Merging α)
  | 0, patience, m => .ok (patience, m)
  | fuel + 1, patience, m => do
    let patience := max 1 (patience - 1)
    let (p, m) ← if side.atEnd then side.placeLonger m else side.placeShorter m
    if m.isSettled then return (patience, m)
    let (q, m) ← if side.atEnd then side.placeShorter m else side.placeLonger m
    if m.isSettled then return (patience, m)
    if longStretch ≤ p || longStretch ≤ q then placeStretches fuel patience m
    else return (patience + 1, m)

/-- Places items until the merge is settled, with the patience after that. Each round places an
item, so that the number of items is enough `fuel`. -/
def settle : Nat → Nat → Merging α → Except ε (Nat × Merging α)
  | 0, patience, m => .ok (patience, m)
  | fuel + 1, patience, m => do
    let m ← side.placeSingly patience m.placed 0 0 m.shorter m.longer
    if m.isSettled then return (patience, m)
    let left := m.shorter.length + m.longer.length
    let (patience, m) ← side.placeStretches left (patience + 1) m
    settle fuel patience m

/-- Merges two runs, of which the longer one is known to have the first item. -/
def merged (patience : Nat) (shorter : List α) : List α → Except ε (Nat × List α)
  | [] => .ok (patience, shorter)
  | b :: bs => do
    let (patience, m) ← side.settle (shorter.length + bs.length + 1) patience ⟨[b], shorter, bs⟩
    return (patience, m.items)

end Side

/-- One sorted run of two that follow each other, with the patience for the next merge. -/
def merge (below : α → α → Except ε Bool) (patience : Nat) (as bs : List α) :
    Except ε (Nat × List α) :=
  match as.getLast?, bs.head? with
  | some last, some first => do
    let i ← boundary (fails (below first)) as 0
    if i = as.length then return (patience, as ++ bs)
    let j ← boundary (below · last) bs (bs.length - 1)
    let front := as.drop i
    let back := bs.take j
    let (patience, middle) ←
      if front.length ≤ j then Side.merged ⟨below, false⟩ patience front back
      else do
        let (patience, middle) ← Side.merged ⟨below, true⟩ patience back.reverse front.reverse
        pure (patience, middle.reverse)
    return (patience, as.take i ++ middle ++ bs.drop j)
  | _, _ => .ok (patience, as ++ bs)

end DiceFormula.Sorting
