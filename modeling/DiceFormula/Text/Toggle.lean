/-!
# Sets of characters as boundary lists

A set of code points is kept as the ascending list of the points at which membership changes,
starting outside. `Toggle.mem` walks the list once.
-/

namespace DiceFormula.Toggle

/-- Whether `c` lies inside the set, given whether the walk is inside so far. -/
def memFrom (c : Nat) : Bool → List Nat → Bool
  | inside, [] => inside
  | inside, b :: bs => if c < b then inside else memFrom c (!inside) bs

/-- Membership in the set with the boundaries `bs`. -/
def mem (bs : List Nat) (c : Char) : Bool := memFrom c.toNat false bs

theorem memFrom_of_lt {c b : Nat} {bs : List Nat} {inside : Bool} (h : c < b) :
    memFrom c inside (b :: bs) = inside := by
  simp [memFrom, h]

end DiceFormula.Toggle
