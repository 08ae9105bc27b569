import DiceFormula.Item.Basic
import DiceFormula.Roll.Alter
import DiceFormula.Roll.Create

/-!
# Compounds

Terms and rolls are put together to a roll if all of them are terms, and to a compound if not. A
compound works on its terms as a roll does, with its rolls left out: its dice are altered, and its
groups and calls evaluated up to the first roll. There the evaluation fails, for a whole roll cannot
be evaluated as a part of another. A stopped evaluation is not undone either, since the record of a
roll describes no term.
-/

namespace DiceFormula

/-! ## Putting items together -/

/-- The formula of an item as text. -/
def Item.formulaText (i : Item) : Except Error String := do
  match ← i.formula with
  | .str s => return s
  | _ => .error .wrongType

/-- The formulas of some items one after the other. -/
def formulaOfItems (is : List Item) : Except Error String := do
  return String.join (← is.mapM Item.formulaText)

/-- Puts items together. -/
def Item.assemble (members : List Item) (options : Value) (config : Config) :
    Except Error Item := do
  match members.mapM Item.term? with
  | some terms => return .roll (← Roll.assemble terms options config)
  | none =>
    let options ← Options.ofValue options
    let formula ← formulaOfItems members
    return .compound
      { members
        shared := Roll.identified (members.filterMap Item.term?)
        sheet := { formula := .str formula, options, config } }

/-- Items after an attempt to put them together: their formulas were asked for up to the first that
has none. -/
def Item.askedInOrder (members : List Item) : List Item :=
  (members.takeWhile fun i => i.formula.toBool).map Item.asked

namespace Compound

/-! ## Terms of a compound -/

/-- The terms of a compound in front of its first roll. -/
def front (c : Compound) : List Term :=
  (c.members.takeWhile fun i => i.term?.isSome).filterMap Item.term?

/-- Some terms of a compound as a roll. -/
def toRoll (terms : List Term) (c : Compound) : Roll :=
  { terms, dice := [], shared := c.shared, sheet := c.sheet }

/-- Puts terms in the places of the first terms of some items. -/
def refill : List Item → List Term → List Item
  | .term _ :: is, t :: ts => .term t :: refill is ts
  | i :: is, ts => i :: refill is ts
  | [], _ => []

/-- Takes over what became of the first terms of a compound. -/
def takeOver (r : Roll) (c : Compound) : Compound :=
  { members := r.shared.foldl (fun is t => updateItems (.term t) is) (refill c.members r.terms)
    shared := r.shared
    sheet := r.sheet }

/-- Works on some terms of a compound. -/
def onTerms (terms : Compound → List Term) (task : Task Roll Unit) : Task Compound Unit :=
  Task.within (fun c => c.toRoll (terms c)) takeOver task

/-! ## Evaluating and altering -/

/-- Evaluates the terms in front of the first roll, and fails there. -/
def evaluateFront (context : Context) (records : List Value) (terms : List Term) :
    Task Roll Unit := do
  let inner := Roll.evaluationWithin (nestingOfTerms terms + 1)
  Task.modify (Roll.setState .evaluating)
  let task : Task Roll Unit := do
    Roll.evaluateIntermediates inner context terms.length 0
    Task.fail .missingAttribute
  (task.onFail fun e => Roll.setState (.failed e)).onStop (Roll.restoreTerms records)

/-- The evaluation of a compound. -/
def evaluation (context : Context) : Task Compound Unit := do
  let c ← Task.get
  if !c.sheet.state.isCreated then Task.fail (.alreadyEvaluated "roll")
  else onTerms front (evaluateFront context (recordsOfItems c.members) c.front)

/-- Alters the number of dice of every dice term of a compound. -/
def alter (multiply add : Value) : Task Compound Unit := do
  let c ← Task.get
  if !c.sheet.state.isCreated then Task.fail (.alreadyEvaluated "roll")
  else
    let terms (c : Compound) := c.members.filterMap Item.term?
    onTerms terms (Roll.alterFrom multiply add (terms c).length 0)
    let c ← Task.get
    let formula ← Task.ofExcept (formulaOfItems c.members)
    Task.set { c with sheet := { c.sheet with formula := .str formula } }

/-- The record of a compound as JSON. -/
def toJson (c : Compound) : Except Error String := Roll.recordJson c.toRecord

end Compound

end DiceFormula
