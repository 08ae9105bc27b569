import DiceFormula.Evaluation.Dice
import DiceFormula.Modifier.Plain

/-!
# Carrying out modifiers

The modifiers asked of a term are carried out in order. A modifier begins with a command of its
kind of term; a longer run of letters is cut into commands, longest first. What is not understood is
dropped: afterwards the hand lists just the modifiers that took effect.
-/

namespace DiceFormula

/-- The commands of modifiers. -/
inductive Command
  | reroll (recursive : Bool)
  | explode (recursive : Bool)
  | keep
  | drop
  | minimum
  | maximum
  | parity (even : Bool)
  | countSuccesses
  | countFailures
  | deductFailures
  | subtractFailures
  | call
  deriving DecidableEq, Repr

namespace Command

/-- The commands of terms, by what is written. -/
abbrev Table := List (String × Command)

/-- Keeping and dropping. -/
def selection : Table :=
  [("k", keep), ("kh", keep), ("kl", keep), ("d", drop), ("dh", drop), ("dl", drop)]

/-- The commands of a kind of dice. -/
def ofKind : DiceKind → Table
  | .die =>
    [("r", reroll false), ("rr", reroll true), ("x", explode true), ("xo", explode false)]
      ++ selection
      ++ [("min", minimum), ("max", maximum), ("even", parity true), ("odd", parity false),
          ("cs", countSuccesses), ("cf", countFailures),
          ("df", deductFailures), ("sf", subtractFailures)]
  | .coin => [("c", call)]
  | .fate => [("r", reroll false), ("rr", reroll true)] ++ selection

/-- The commands of pools. -/
def ofPools : Table := selection ++ [("cs", countSuccesses), ("cf", countFailures)]

end Command

namespace Hand

/-- A modifier that rolls nothing, as a step on the results; it tells whether the modifier was
understood. A change that was cut short keeps what was changed before. -/
def plain (f : List DieResult → Modifier.Outcome) : Task Hand Bool := do
  let h ← Task.get
  match f h.results with
  | none => pure false
  | some c => do
    Task.set { h with results := c.state }
    match c.fault with
    | none => pure true
    | some e => Task.fail e

/-- A modifier that cannot fail. -/
def simple (f : List DieResult → Option (List DieResult)) : Task Hand Bool :=
  plain fun rs => (f rs).map fun rs => { state := rs }

/-- Carries out a command on dice. -/
def performOnDice (context : Context) (d : Dice) (faces : Int) (c : Command) (text : List Char) :
    Task Hand Bool :=
  match c with
  | .reroll recursive => d.reroll context faces recursive text
  | .explode recursive => d.explode context faces recursive text
  | .keep => plain (Modifier.keep text)
  | .drop => plain (Modifier.drop text)
  | .minimum => simple (Modifier.minimum text)
  | .maximum => simple (Modifier.maximum text)
  | .parity even => simple fun rs => some (Modifier.parity even rs)
  | .countSuccesses => plain (Modifier.count (.int faces) .successes text)
  | .countFailures => plain (Modifier.count (.int faces) .failures text)
  | .deductFailures => plain (Modifier.deduct .minusOne text)
  | .subtractFailures => plain (Modifier.deduct .minusFace text)
  | .call => simple (Modifier.callSide text)

/-- Carries out a command on the results of a pool. Pools know no default target. -/
def performOnPool (c : Command) (text : List Char) : Task Hand Bool :=
  match c with
  | .keep => plain (Modifier.keep text)
  | .drop => plain (Modifier.drop text)
  | .countSuccesses => plain (Modifier.count .null .successes text)
  | .countFailures => plain (Modifier.count .null .failures text)
  | _ => pure false

/-- Carries out a command and lists its modifier if it was understood; then pauses. -/
def carryOut (perform : Command → List Char → Task Hand Bool) (c : Command) (text : List Char) :
    Task Hand Unit := do
  if ← perform c text then
    Task.modify fun h => { h with modifiers := h.modifiers ++ [.str (String.ofList text)] }
  Task.pause

/-- The longest command at the front of a run of letters. -/
def longest? (table : Command.Table) (letters : List Char) : Option (List Char × Command) :=
  table.foldl
    (fun best (name, c) =>
      if name.toList.isPrefixOf letters && best.all fun b => b.1.length < name.length then
        some (name.toList, c)
      else best)
    none

/-- Cuts a run of letters into commands and carries them out, until one is unknown. Commands are not
empty, so that `fuel` bounds the length. -/
def carryOutRun (table : Command.Table) (perform : Command → List Char → Task Hand Bool) :
    Nat → List Char → Task Hand Unit
  | 0, _ => pure ()
  | fuel + 1, letters =>
    match longest? table letters with
    | none => pure ()
    | some (name, c) => do
      carryOut perform c name
      carryOutRun table perform fuel (letters.drop name.length)

/-- Carries out a modifier. -/
def carryOutModifier (table : Command.Table) (perform : Command → List Char → Task Hand Bool)
    (text : List Char) : Task Hand Unit :=
  let letters := text.takeWhile Modifier.isLetter
  match table.lookup (String.ofList letters) with
  | some c => carryOut perform c text
  | none => carryOutRun table perform letters.length letters

/-- Carries out modifiers in order. -/
def carryOutAll (table : Command.Table) (perform : Command → List Char → Task Hand Bool) :
    List (List Char) → Task Hand Unit
  | [] => pure ()
  | text :: texts => do
    carryOutModifier table perform text
    carryOutAll table perform texts

/-- A modifier in lower case; only texts have one. -/
def lowerModifier (m : Value) : Except Error (List Char) := do
  return Case.lower (← Config.textOf m).toList

/-- Carries out the modifiers of the hand, in lower case, and keeps those that took effect. -/
def carryOutModifiers (table : Command.Table) (perform : Command → List Char → Task Hand Bool) :
    Task Hand Unit := do
  let h ← Task.get
  let texts ← Task.ofExcept (h.modifiers.mapM lowerModifier)
  Task.set { h with modifiers := [] }
  carryOutAll table perform texts

end Hand

namespace Dice

/-- Rolls dice and carries out their modifiers. -/
def roll (context : Context) (d : Dice) : Task Hand Unit := do
  let c ← Task.ofExcept (d.check context.config)
  rollMany context d.kind c.faces c.number
  Hand.carryOutModifiers (Command.ofKind d.kind) (Hand.performOnDice context d c.faces)

end Dice

end DiceFormula
