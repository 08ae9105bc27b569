import DiceFormula.Result.Basic

/-!
# Counting successes

Instead of its face a result may count as 1 or 0: `tally` marks the results that meet a comparison
as successes or failures and counts them. `deduct` then lets failures count against the total. Both
stop at the first result that cannot be compared.
-/

namespace DiceFormula.DieResult

/-- What a tally marks: successes, failures, or nothing. -/
inductive Marking
  | successes
  | failures
  | nothing
  deriving DecidableEq, Repr

/-- The marking of two requests, of which successes go first. -/
def Marking.of (success failure : Bool) : Marking :=
  if success then .successes else if failure then .failures else .nothing

/-- Notes whether a result met the comparison. What it meets, it cannot be the opposite of. -/
def tallyOne (m : Marking) (met : Bool) (r : DieResult) : DieResult :=
  let r := match m with
    | .successes => { r with success := .bool met, failure := if met then .null else r.failure }
    | .failures => { r with failure := .bool met, success := if met then .null else r.success }
    | .nothing => r
  { r with count := .int (if met then 1 else 0) }

/-- Counts every result that meets a comparison as 1, the others as 0. -/
def tally (comparison target : Value) (m : Marking) (rs : List DieResult) :
    Change (List DieResult) :=
  Change.each
    (fun r => Change.ofExcept r do
      return tallyOne m (← Comparison.apply comparison r.face target) r)
    rs

/-- What failures count as. -/
inductive Penalty
  | none
  | minusOne
  | minusFace
  deriving DecidableEq, Repr

/-- The penalty of two requests, of which minus one goes first. -/
def Penalty.of (deduct invert : Bool) : Penalty :=
  if deduct then .minusOne else if invert then .minusFace else .none

/-- Marks a result as a failure. -/
def fail (r : DieResult) : DieResult := { r with failure := .bool true, success := .null }

/-- Whether a tally found the result unsuccessful. -/
def isUnsuccessful (r : DieResult) : Bool :=
  match r.success with
  | .bool b => !b
  | _ => false

/-- Lets a failure count against the total. -/
def penalize (p : Penalty) (r : DieResult) : Except Error DieResult :=
  if r.isFailure then
    match p with
    | .none => .ok r
    | .minusOne => .ok { r with count := .int (-1) }
    | .minusFace =>
      match r.face.negated? with
      | some v => .ok { r with count := v }
      | Option.none => .error .wrongType
  else .ok r

/-- What a failure has to meet: a comparison and its target. -/
abbrev Condition := Value × Value

/-- Whether a result is a failure: it meets the condition, or without one a tally found it
unsuccessful. -/
def fails (condition : Option Condition) (r : DieResult) : Except Error Bool :=
  match condition with
  | some (comparison, target) => Comparison.apply comparison r.face target
  | Option.none => .ok r.isUnsuccessful

/-- Marks a result as a failure if it is one, and penalises it. -/
def deductOne (condition : Option Condition) (p : Penalty) (r : DieResult) : Change DieResult :=
  match r.fails condition with
  | .error e => ⟨r, some e⟩
  | .ok b =>
    let r := if b then r.fail else r
    Change.ofExcept r (r.penalize p)

/-- Marks failures and penalises them. -/
def deduct (condition : Option Condition) (p : Penalty) (rs : List DieResult) :
    Change (List DieResult) := Change.each (deductOne condition p) rs

end DiceFormula.DieResult
