import DiceFormula.Evaluation.Modifiers
import DiceFormula.Formula.Grammar

/-!
# Evaluating terms

A term is evaluated once. Dice are rolled; a pool rolls its members and counts their totals as
results; a call applies its function to the totals of its arguments; a group is worth what its
formula is worth. Formulas inside a term become rolls of their own, whose evaluation is a parameter
here. Stopping an evaluation clears the rolls and results of the term and lets it wait again.
-/

namespace DiceFormula

namespace Roll

/-- The roll of a formula inside a term. -/
def ofFormula (formula : Value) (config : Config) : Except Error Roll := do
  let p ← Formula.parse formula .null config
  return ofTerms p.terms [] config

/-- Gives a term a flavor unless it has one. -/
def flavorTerm (flavor : Value) (t : Term) : Term :=
  if t.label.options.flavor.truthy then t
  else { t with label := { t.label with options := Value.put "flavor" flavor t.label.options } }

/-- Gives all terms of an evaluated roll a flavor unless they have one. -/
def propagateFlavor (flavor : Value) (r : Roll) : Roll :=
  if flavor.truthy then
    let terms := r.terms.map (flavorTerm flavor)
    { r with terms, dice := diceOfTerms terms }
  else r

end Roll

/-- The evaluation of a roll. -/
abbrev RollEvaluation := Context → Task Roll Unit

namespace Term

/-- The hand of dice or a pool; other terms have an empty one. -/
def hand (t : Term) : Hand :=
  match t.body with
  | .pool _ _ hand => hand
  | .dice d => d.hand
  | _ => {}

/-- Changes the hand of dice or a pool. -/
def setHand (hand : Hand) (t : Term) : Term :=
  match t.body with
  | .pool args rolls _ => { t with body := .pool args rolls hand }
  | .dice d => { t with body := .dice { d with hand } }
  | _ => t

/-- Works on the hand of a term. -/
def withHand {α : Type} (task : Task Hand α) : Task Term α := Task.within hand setHand task

/-- The rolls of a call or a pool. -/
def rolls (t : Term) : List Roll :=
  match t.body with
  | .call _ _ rolls _ => rolls
  | .pool _ rolls _ => rolls
  | _ => []

/-- Adds an evaluated roll to a call or a pool. A pool counts its total as a result. -/
def addRoll (r : Roll) (t : Term) : Term :=
  match t.body with
  | .call fn args rolls result => { t with body := .call fn args (rolls ++ [r]) result }
  | .pool args rolls hand =>
    let hand := { hand with results := hand.results ++ [{ face := r.total }] }
    { t with body := .pool args (rolls ++ [r]) hand }
  | _ => t

/-- Notes the result of a call. -/
def setResult (v : Value) (t : Term) : Term :=
  match t.body with
  | .call fn args rolls _ => { t with body := .call fn args rolls v }
  | _ => t

/-- The roll of a group. -/
def groupRoll? (t : Term) : Option Roll :=
  match t.body with
  | .group _ roll => roll
  | _ => none

/-- Gives a group its roll. -/
def setGroupRoll (r : Roll) (t : Term) : Term :=
  match t.body with
  | .group source _ => { t with body := .group source (some r) }
  | _ => t

/-- Forgets the partial work of a stopped evaluation. -/
def rollback (t : Term) : Term :=
  let body := match t.body with
    | .call fn args _ _ => .call fn args [] .null
    | .pool args _ hand => .pool args [] { hand with results := [] }
    | .dice d => .dice { d with hand := { d.hand with results := [] } }
    | body => body
  { t with body }.setMark (.bool false)

/-- Evaluates a formula inside a term. -/
def evaluateFormula (inner : RollEvaluation) (context : Context) (formula : Value) :
    Task Term Roll := do
  let r ← Task.ofExcept (Roll.ofFormula formula context.config)
  let (r, _) ← Task.aside r (inner context)
  return r

/-- Evaluates a group: the roll it has, or that of its formula. -/
def evaluateGroup (inner : RollEvaluation) (context : Context) (source : Value)
    (roll : Option Roll) : Task Term Unit := do
  match roll with
  | some r => Task.within (fun t => t.groupRoll?.getD r) setGroupRoll (inner context)
  | none =>
    let r ← evaluateFormula inner context source
    Task.modify (setGroupRoll r)
  Task.modify fun t =>
    match t.groupRoll? with
    | some r => t.setGroupRoll (r.propagateFlavor t.flavor)
    | none => t

/-- Evaluates the formulas of a call or a pool one after the other. The rolls of a call take over
its flavor. -/
def evaluateMembers (inner : RollEvaluation) (context : Context) (flavored : Bool) :
    List String → Task Term Unit
  | [] => pure ()
  | formula :: formulas => do
    let r ← evaluateFormula inner context (.str formula)
    let t ← Task.get
    let r := if flavored then r.propagateFlavor t.flavor else r
    Task.set (t.addRoll r)
    evaluateMembers inner context flavored formulas

/-- Applies a function of an engine to the totals of some rolls. -/
def applyFunction (f : FunctionEntry) (rolls : List Roll) : Except Error Value :=
  match f with
  | .own f => f.call (rolls.map Roll.total)
  | .foreign _ => .error .wrongType

/-- Evaluates a call. -/
def evaluateCall (inner : RollEvaluation) (context : Context) (fn : Value) (args : List String) :
    Task Term Unit := do
  let f ← Task.ofExcept (context.config.function fn)
  evaluateMembers inner context true args
  let t ← Task.get
  let v ← Task.ofExcept (applyFunction f t.rolls)
  Task.modify (setResult v)

/-- Evaluates a pool and carries out its modifiers. -/
def evaluatePool (inner : RollEvaluation) (context : Context) (args : List String) :
    Task Term Unit := do
  evaluateMembers inner context false args
  withHand (Hand.carryOutModifiers Command.ofPools Hand.performOnPool)

/-- Evaluates the content of a term. -/
def evaluateBody (inner : RollEvaluation) (context : Context) : Body → Task Term Unit
  | .number _ | .operator _ => pure ()
  | .text v => Task.fail (.unevaluated v)
  | .group source roll => evaluateGroup inner context source roll
  | .call fn args _ _ => evaluateCall inner context fn args
  | .pool args _ _ => evaluatePool inner context args
  | .dice d => withHand (d.roll context)

/-- Evaluates a term. A text that was never classified cannot be evaluated, and nothing is evaluated
twice. -/
def evaluationBy (inner : RollEvaluation) (context : Context) : Task Term Unit := do
  let t ← Task.get
  match t.body with
  | .text v => Task.fail (.unevaluated v)
  | body =>
    if t.evaluated then Task.fail (.alreadyEvaluated t.termClass.name)
    else
      Task.modify (setMark (.bool true))
      (evaluateBody inner context body).onStop fun t => .clean t.rollback

end Term

end DiceFormula
