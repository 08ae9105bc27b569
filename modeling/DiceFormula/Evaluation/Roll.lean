import DiceFormula.Arithmetic.Grammar
import DiceFormula.Evaluation.Term
import DiceFormula.Term.Make
import DiceFormula.Term.Restore

/-!
# Evaluating rolls

A roll is evaluated in two passes. First every group and call becomes the number it evaluates to;
then neighbours that no operator separates are joined and classified again, so that the `3` of
`(1d4)d6` makes `3d6`; then all other terms are evaluated, and the totals are taken together as
plain arithmetic. A stopped evaluation leaves the roll as it was; a failed one leaves it failed.
-/

namespace DiceFormula

namespace Roll

/-! ## Joining neighbours -/

/-- Joins two neighbours into one term. The flavor of the left one stands in for a missing one. -/
def fuse (left right : Term) (config : Config) : Except Error Term := do
  let t ← Leaf.classify (left.written ++ right.formulaText) config false
  let t := if !t.flavor.truthy && left.flavor.truthy then
      { t with label := { t.label with options := Value.put "flavor" left.flavor t.label.options } }
    else t
  return { t with carried := left.carried ++ right.carried }

/-- Adds a term to simplified ones, which are given last one first. -/
def joinTerm (config : Config) (done : List Term) (t : Term) : Except Error (List Term) :=
  match done with
  | [] => .ok [t]
  | left :: rest =>
    if t.isOperator || left.isOperator then .ok (t :: left :: rest)
    else do return (← fuse left t config) :: rest

/-- Joins all neighbours that no operator separates; operators at the end are dropped. -/
def simplify (config : Config) (ts : List Term) : Except Error (List Term) := do
  let reversed ← ts.foldlM (joinTerm config) []
  return (reversed.dropWhile Term.isOperator).reverse

/-! ## States of a roll -/

/-- Replaces the term with the identity of `t`. -/
def updateTag (t : Term) (ts : List Term) : List Term :=
  if t.label.tag.isSome then ts.map fun u => if u.label.tag == t.label.tag then t else u else ts

/-- Puts a changed term back in its place, and wherever else the same term stands. -/
def putTerm (i : Nat) (t : Term) (r : Roll) : Roll :=
  { r with terms := (updateTag t r.terms).set i t, shared := updateTag t r.shared }

/-- Replaces the term at a place by another one. -/
def replaceTerm (i : Nat) (t : Term) (r : Roll) : Roll := { r with terms := r.terms.set i t }

/-- Moves a roll to another state. -/
def setState (state : RollState) (r : Roll) : Roll := { r with sheet := { r.sheet with state } }

/-- Works on the term at a place. -/
def onTerm (i : Nat) (t : Term) (task : Task Term Unit) : Task Roll Unit :=
  Task.within (fun r => r.terms[i]?.getD t) (putTerm i) task

/-- Restores the terms of a stopped evaluation from their records. -/
def restoreTerms (records : List Value) (r : Roll) : Left Roll :=
  match records.mapM (Term.ofRecord r.sheet.config) with
  | .ok terms => .clean ({ r with terms }.setState .created)
  | .error e => .broken r e

/-! ## The passes -/

/-- The number that a group or a call evaluated to. It carries the dice that were rolled for it. -/
def numberFor (t : Term) (config : Config) : Except Error Term := do
  let n ← definedNumber (← t.total)
  let number := Term.make (.number n) t.label.options config
  return { number with carried := t.dice }.setMark (.bool true)

/-- First pass, from place `i` on: groups and calls become numbers. -/
def evaluateIntermediates (inner : RollEvaluation) (context : Context) : Nat → Nat → Task Roll Unit
  | 0, _ => pure ()
  | count + 1, i => do
    let r ← Task.get
    match r.terms[i]? with
    | none => pure ()
    | some t =>
      if t.isIntermediate && !t.evaluated then
        onTerm i t (Term.evaluationBy inner context)
        let r ← Task.get
        let n ← Task.ofExcept (numberFor (r.terms[i]?.getD t) r.sheet.config)
        Task.modify (replaceTerm i n)
        Task.pause
      evaluateIntermediates inner context count (i + 1)

/-- Second pass, from place `i` on: all other terms. -/
def evaluateRest (inner : RollEvaluation) (context : Context) : Nat → Nat → Task Roll Unit
  | 0, _ => pure ()
  | count + 1, i => do
    let r ← Task.get
    match r.terms[i]? with
    | none => pure ()
    | some t =>
      if !t.evaluated then onTerm i t (Term.evaluationBy inner context)
      Task.pause
      evaluateRest inner context count (i + 1)

/-- The total of a roll whose terms are evaluated, and its dice. -/
def settle (r : Roll) : Except Error Roll := do
  let n ← Arithmetic.evaluate (← flatten r.terms)
  return { r with dice := diceOfTerms r.terms, sheet := { r.sheet with total := .num n } }

/-- Evaluates the terms of a roll. -/
def evaluateTerms (inner : RollEvaluation) (context : Context) : Task Roll Unit := do
  let r ← Task.get
  evaluateIntermediates inner context r.terms.length 0
  let r ← Task.get
  let terms ← Task.ofExcept (simplify r.sheet.config r.terms)
  Task.set { r with terms }
  evaluateRest inner context terms.length 0
  let r ← Task.get
  Task.set (← Task.ofExcept r.settle)

/-- Evaluates a roll; `inner` evaluates the rolls inside its terms. A restored roll is final; any
other is evaluated at most once. -/
def evaluationBy (inner : RollEvaluation) (context : Context) : Task Roll Unit := do
  let r ← Task.get
  if r.sheet.replayed then pure ()
  else if !r.sheet.state.isCreated then Task.fail (.alreadyEvaluated "roll")
  else
    let records := termRecords r.terms
    Task.set (r.setState .evaluating)
    let task := (evaluateTerms inner context).onFail fun e => setState (.failed e)
    task.onStop (restoreTerms records)
    Task.modify (setState .evaluated)

/-- Evaluates a roll in which rolls are nested less deep than `fuel`. -/
def evaluationWithin : Nat → RollEvaluation
  | 0, _ => pure ()
  | fuel + 1, context => evaluationBy (evaluationWithin fuel) context

end Roll

/-! ## Nesting -/

/-- The length of all texts of a list. -/
def textLength : List String → Nat
  | [] => 0
  | s :: ss => s.length + textLength ss

mutual

/-- A bound on how deep rolls are nested in a term. -/
def Term.nesting : Term → Nat
  | ⟨.group _ (some r), _, _⟩ => Roll.nesting r + 1
  | ⟨.group (.str s) none, _, _⟩ => s.length + 1
  | ⟨.call _ args _ _, _, _⟩ => textLength args + 1
  | ⟨.pool args _ _, _, _⟩ => textLength args + 1
  | ⟨_, _, _⟩ => 1

/-- A bound on how deep rolls are nested in a roll. -/
def Roll.nesting : Roll → Nat
  | ⟨terms, _, _, _⟩ => nestingOfTerms terms + 1

/-- A bound for all terms of a list. -/
def nestingOfTerms : List Term → Nat
  | [] => 0
  | t :: ts => max t.nesting (nestingOfTerms ts)

end

namespace Roll

/-- The evaluation of a roll. -/
def evaluation (context : Context) : Task Roll Unit :=
  fun r => evaluationWithin (r.nesting + 1) context r

end Roll

namespace Term

/-- The evaluation of a term by itself. -/
def evaluation (context : Context) : Task Term Unit :=
  fun t => evaluationBy (Roll.evaluationWithin (t.nesting + 1)) context t

end Term

end DiceFormula
