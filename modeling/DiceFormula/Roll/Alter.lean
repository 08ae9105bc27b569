import DiceFormula.Evaluation.Roll

/-!
# Altering the number of dice

Before a roll is evaluated the number of its dice can be scaled, for instance for a critical hit:
multiplied, rounded to the nearest integer with halves up, and increased. Only the dice of the
formula itself are altered, not those inside groups, calls and pools. An alteration that fails keeps
what was altered before.
-/

namespace DiceFormula

/-- The factor that a piece of data stands for: anything but a finite number from zero up leaves the
number of dice as it is. -/
def factorOf (v : Value) : Except Error Number :=
  match v.number? with
  | none => .ok 1
  | some n => do
    let x ← ofNumeric n.toFloat
    return if x.isInf || x.isNaN || n.isNegative then 1 else n

/-- The increment that a piece of data stands for: anything but an integer is none. -/
def incrementOf (v : Value) : Int :=
  match v.number? with
  | some (.int n) => n
  | _ => 0

/-- The fault of scaling what is no number of dice. A text or a list could be repeated, though not
as often as a factor of 64 bits says. -/
def scalingFault (number : Value) (factor : Number) : Error :=
  match number, factor with
  | .str _, .int n | .list _, .int n | .tuple _, .int n =>
    if Int.pow 2 63 ≤ n then .number .integerTooLarge else .wrongType
  | _, _ => .wrongType

/-- The number of dice after an alteration. -/
def alteredNumber (number multiply add : Value) : Except Error Value := do
  let factor ← factorOf multiply
  match number.number? with
  | none => .error (scalingFault number factor)
  | some n =>
    let scaled ← ofNumeric (do (← (← n.mul factor).add (.float 0.5)).toInt Dyadic.floor)
    return .int (scaled + incrementOf add)

namespace Term

/-- Alters the number of dice of a term; only dice have one, and only before they are rolled. -/
def alter (multiply add : Value) : Task Term Unit := do
  let t ← Task.get
  match t.body with
  | .dice d =>
    if t.evaluated then Task.fail (.alreadyEvaluated t.termClass.name)
    else
      let number ← Task.ofExcept (alteredNumber d.number multiply add)
      Task.set { t with body := .dice { d with number } }
  | _ => Task.fail .missingAttribute

end Term

namespace Roll

/-- Alters the dice terms from place `i` on. -/
def alterFrom (multiply add : Value) : Nat → Nat → Task Roll Unit
  | 0, _ => pure ()
  | count + 1, i => do
    let r ← Task.get
    match r.terms[i]? with
    | none => pure ()
    | some t =>
      if t.isDice then onTerm i t (Term.alter multiply add)
      alterFrom multiply add count (i + 1)

/-- Alters the number of dice of every dice term of a roll that waits for its evaluation. -/
def alter (multiply add : Value) : Task Roll Unit := do
  let r ← Task.get
  if !r.sheet.state.isCreated then Task.fail (.alreadyEvaluated "roll")
  else
    alterFrom multiply add r.terms.length 0
    Task.modify fun r => { r with sheet := { r.sheet with formula := .str (formulaOf r.terms) } }

end Roll

end DiceFormula
