import DiceFormula.Error

/-!
# Comparisons of values

The comparisons that modifiers ask for, on all data. Numbers compare by value, texts by code points,
lists and tuples by the first place where they differ. Everything else is at most equal: it has no
order, and asking for one has the wrong type.
-/

namespace DiceFormula

/-- The comparisons of modifiers. -/
inductive Comparison
  | eq | lt | le | gt | ge
  deriving DecidableEq, Repr

namespace Comparison

/-- How a comparison is written. -/
def text : Comparison → String
  | eq => "="
  | lt => "<"
  | le => "<="
  | gt => ">"
  | ge => ">="

/-- The comparison that a text writes. -/
def ofText? (t : String) : Option Comparison := [eq, lt, le, gt, ge].find? (·.text == t)

theorem ofText?_text (c : Comparison) : ofText? c.text = some c := by
  cases c <;> decide

/-- The comparison that a piece of data writes. Anything else is refused, by its name where it could
be one. -/
def read (v : Value) : Except Error Comparison :=
  match v.str?.bind ofText? with
  | some c => .ok c
  | none => .error (Error.ofName .unknownComparison v)

/-- Whether two numbers stand in the relation. -/
def ofNumbers : Comparison → Number → Number → Bool
  | eq, a, b => a.eq b
  | lt, a, b => a.lt b
  | le, a, b => a.le b
  | gt, a, b => b.lt a
  | ge, a, b => b.le a

/-- Whether two texts stand in the relation. -/
def ofTexts : Comparison → String → String → Bool
  | eq, a, b => a == b
  | lt, a, b => Surrogate.precedes a b
  | le, a, b => !Surrogate.precedes b a
  | gt, a, b => Surrogate.precedes b a
  | ge, a, b => !Surrogate.precedes a b

/-- Whether two lists stand in the relation of which the shorter one is all of the longer one's
beginning. -/
def ofLengths (c : Comparison) (a b : Nat) : Bool := c.ofNumbers (.int a) (.int b)

mutual

/-- Whether two values stand in the relation, if they have an order. -/
def ordered (c : Comparison) : Value → Value → Except Error Bool
  | .str a, .str b => .ok (c.ofTexts a b)
  | .list a, .list b => orderedAll c a b
  | .tuple a, .tuple b => orderedAll c a b
  | a, b =>
    match a.number?, b.number? with
    | some x, some y => .ok (c.ofNumbers x y)
    | _, _ => if c = eq then .ok (a.equals b) else .error .wrongType

/-- Whether two lists stand in the relation: the first place where they differ decides. -/
def orderedAll (c : Comparison) : List Value → List Value → Except Error Bool
  | a :: as, b :: bs => if a.equals b then orderedAll c as bs else ordered c a b
  | as, bs => .ok (c.ofLengths as.length bs.length)

end

/-- Whether two values stand in the relation. Equality asks for no order. -/
def holds (c : Comparison) (a b : Value) : Except Error Bool :=
  if c = eq then .ok (a.equals b) else c.ordered a b

@[simp] theorem holds_int (c : Comparison) (a b : Int) :
    c.holds (.int a) (.int b) = .ok (c.ofNumbers (.int a) (.int b)) := by
  cases c <;> simp [holds, ordered, Value.int, Value.number?, ofNumbers, Value.equals, Value.sameBy,
    Value.sameNumber]

/-- Compares by a comparison that is given as data. -/
def apply (comparison a b : Value) : Except Error Bool := do (← read comparison).holds a b

end Comparison

end DiceFormula
