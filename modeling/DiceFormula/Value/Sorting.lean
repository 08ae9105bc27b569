import DiceFormula.Sorting.Pending
import DiceFormula.Value.Comparison

/-!
# Sorting values

`Value.sortedOn` puts items in the order of their values, those with equal ones as they came.
Numbers other than the undefined double have a linear order, in which any stable sort gives the
same. Other data are sorted by runs, which fixes what becomes of data of which some have no order:
two that are compared are refused, and the undefined double stays wherever no comparison moves it.
A descending order is an ascending one of the items in reverse.
-/

namespace DiceFormula.Value

variable {β : Type}

/-- Whether a value is a number that compares with every number. -/
def isLinear (v : Value) : Bool :=
  match v.number? with
  | some n => n.eq n
  | none => false

/-- Whether `a` is below `b`, for numbers. -/
def numberBelow (a b : Value) : Bool :=
  match a.number?, b.number? with
  | some x, some y => x.lt y
  | _, _ => false

/-- The items in ascending or descending order of their values. -/
def sortedOn (ascending : Bool) (value : β → Value) (bs : List β) : Except Error (List β) :=
  let runs := Sorting.sort fun a b => Comparison.lt.holds (value a) (value b)
  if bs.all fun b => isLinear (value b) then
    .ok (bs.mergeSort fun a b =>
      if ascending then !numberBelow (value b) (value a) else !numberBelow (value a) (value b))
  else if ascending then runs bs
  else return (← runs bs.reverse).reverse

/-- The values in ascending or descending order. -/
def sorted (ascending : Bool) (vs : List Value) : Except Error (List Value) :=
  sortedOn ascending id vs

end DiceFormula.Value
