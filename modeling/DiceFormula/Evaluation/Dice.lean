import DiceFormula.Evaluation.Steps
import DiceFormula.Modifier.Text
import DiceFormula.Term.Text

/-!
# Rolling dice

Dice are rolled one after the other into a `Hand`, with a pause after each. A draw between 0 and 1
becomes a face; the smallest and the largest outcome take the extreme faces and draw nothing. A
modifier may roll further dice, but never beyond the dice cap of the engine.
-/

namespace DiceFormula

/-- How faces are found: at random, or always the smallest or the largest. -/
inductive Mode
  | random
  | minimum
  | maximum
  deriving DecidableEq, Repr

/-- The mode of two requests, which exclude each other. -/
def Mode.of (minimize maximize : Bool) : Except Error Mode :=
  match minimize, maximize with
  | true, true => .error .wrongValue
  | true, false => .ok .minimum
  | false, true => .ok .maximum
  | false, false => .ok .random

/-- What an evaluation goes by. -/
structure Context where
  config : Config
  mode : Mode := .random

namespace Dice

/-! ## Limits -/

/-- Dice that may be rolled: how many, and the number of their faces. -/
structure Checked where
  number : Nat
  faces : Int
  deriving DecidableEq, Repr

/-- The number of dice, which must be an integer from zero up to the dice cap. -/
def checkNumber (config : Config) (number : Value) : Except Error Nat :=
  match number.int? with
  | none => .error (.invalidArgument (.diceCount number))
  | some n =>
    if n < 0 then .error (.invalidArgument (.diceCount number))
    else if config.maxDice < n then .error (.tooManyDice config.maxDiceText number)
    else .ok n.toNat

/-- The number of faces, which must be an integer from one up. -/
def checkFaces (faces : Value) : Except Error Int :=
  match faces.int? with
  | none => .error (.invalidArgument (.faceCount faces))
  | some n => if n < 1 then .error (.noFaces faces) else .ok n

/-- Checks the number of dice and then that of the faces. -/
def check (config : Config) (d : Dice) : Except Error Checked := do
  return { number := ← checkNumber config d.number, faces := ← checkFaces d.faces }

/-! ## Faces -/

/-- The integer that a draw, scaled to a number of faces, is rounded up to. -/
def scaled (x : Float) (faces : Int) : Except Error Int :=
  ofNumeric do (← (Number.float x).mul (.int faces)).toInt Dyadic.ceil

/-- The face of a draw. A draw of exactly zero gives the lowest face. -/
def faceOfDraw (kind : DiceKind) (faces : Int) (x : Float) : Except Error Int :=
  match kind with
  | .die => return max 1 (← scaled x faces)
  | .coin => ofNumeric (Number.toInt Dyadic.floor (.float (x + 0.5)))
  | .fate => return max (-1) ((← scaled x faces) - 2)

/-- The lowest face. -/
def lowestFace : DiceKind → Int
  | .die => 1
  | .coin => 0
  | .fate => -1

/-- The highest face. -/
def highestFace (kind : DiceKind) (faces : Int) : Int :=
  match kind with
  | .die => faces
  | .coin | .fate => 1

/-- A fresh result. A Fate die notes its outer faces as failure and success. -/
def resultOf (kind : DiceKind) (face : Int) : DieResult :=
  match kind with
  | .fate => { face := .int face
               failure := if face = -1 then .bool true else .null
               success := if face = 1 then .bool true else .null }
  | .die | .coin => { face := .int face }

/-- The face of a die. -/
def face (context : Context) (kind : DiceKind) (faces : Int) : Task Hand Int :=
  match context.mode with
  | .minimum => pure (lowestFace kind)
  | .maximum => pure (highestFace kind faces)
  | .random => do Task.ofExcept (faceOfDraw kind faces (← Task.draw))

/-! ## Rolling -/

/-- Rolls a die. -/
def rollOne (context : Context) (kind : DiceKind) (faces : Int) : Task Hand Unit := do
  let n ← face context kind faces
  Task.modify fun h => { h with results := h.results ++ [resultOf kind n] }

/-- Rolls a number of dice, with a pause after each. -/
def rollMany (context : Context) (kind : DiceKind) (faces : Int) : Nat → Task Hand Unit
  | 0 => pure ()
  | n + 1 => do
    rollOne context kind faces
    Task.pause
    rollMany context kind faces n

/-- Rolls a die that a modifier asked for, within the dice cap. -/
def rollExtra (context : Context) (d : Dice) (faces : Int) : Task Hand Unit := do
  let h ← Task.get
  if context.config.maxDice ≤ h.results.length then
    Task.fail (.diceCapReached { d with hand := h }.written context.config.maxDiceText)
  else rollOne context d.kind faces

/-- What a match does to its result: a reroll takes it out, an explosion leaves it. -/
def mark (reroll : Bool) (r : DieResult) : DieResult :=
  if reroll then { r with rerolled := .bool true, active := .bool false }
  else { r with exploded := .bool true }

/-- How far matches are looked for: in all results, or only in the first ones. -/
abbrev Reach := Option Nat

/-- Whether the result at a place is still looked at. -/
def inReach (reach : Reach) (i : Nat) : Bool := reach.all (i < ·)

/-- Rolls one more die for every active result from place `i` on that stands in the comparison to
the target, at most `limit` in all. Results never get more than the dice cap allows, so that `fuel`
bounds the number of places. -/
def rollMatchesFrom (context : Context) (d : Dice) (faces : Int) (reroll : Bool)
    (comparison target : Value) (reach : Reach) :
    Nat → Nat → Option Nat → Task Hand Unit
  | 0, _, _ => pure ()
  | fuel + 1, i, limit => do
    let h ← Task.get
    if !inReach reach i || limit == some 0 then pure ()
    else
      match h.results[i]? with
      | none => pure ()
      | some r =>
        let go := rollMatchesFrom context d faces reroll comparison target reach fuel (i + 1)
        if !r.isActive then go limit
        else
          if !(← Task.ofExcept (Comparison.apply comparison r.face target)) then go limit
          else
            Task.modify fun h => { h with results := h.results.set i (mark reroll r) }
            rollExtra context d faces
            go (limit.map (· - 1))

/-- Rolls one more die for every active result that stands in the comparison to the target. Unless
`recursive`, the new dice are not looked at themselves. -/
def rollMatches (context : Context) (d : Dice) (faces : Int) (reroll recursive : Bool)
    (m : Modifier.Matching) (default : Int) : Task Hand Unit := do
  let h ← Task.get
  let target := Value.int ((m.target.map fun n => (n : Int)).getD default)
  let reach : Reach := if recursive then none else some h.results.length
  rollMatchesFrom context d faces reroll (.str m.comparison) target reach
    (max h.results.length context.config.maxDice + 1) 0 m.limit

/-- Whether new dice may be looked at again. The extreme faces would match forever. -/
def mayRepeat (context : Context) (recursive : Bool) : Bool :=
  recursive && context.mode == .random

/-- Carries out `r` and `rr`: rerolls the results that stand in a comparison, by default the
ones. -/
def reroll (context : Context) (d : Dice) (faces : Int) (recursive : Bool) (text : List Char) :
    Task Hand Bool :=
  match Modifier.strip? ['r'] text with
  | none => pure false
  | some r => do
    let r := (Modifier.strip? ['r'] r).getD r
    rollMatches context d faces true (mayRepeat context recursive) (Modifier.takeMatching r) 1
    pure true

/-- Carries out `x` and `xo`: rolls one more die for the results that stand in a comparison, by
default those with the highest face. -/
def explode (context : Context) (d : Dice) (faces : Int) (recursive : Bool) (text : List Char) :
    Task Hand Bool :=
  match Modifier.strip? ['x'] text with
  | none => pure false
  | some r => do
    let r := (Modifier.strip? ['o'] r).getD r
    rollMatches context d faces false (mayRepeat context recursive) (Modifier.takeMatching r) faces
    pure true

end Dice

end DiceFormula
