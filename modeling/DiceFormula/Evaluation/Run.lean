import DiceFormula.Evaluation.Steps

/-!
# Running an evaluation

`Steps.run` carries an evaluation out on a source of draws, until it ends or a rule asks to stop it
at a pause. What is reported are the state, the way it ended, and for every pause how many draws had
been made before.
-/

namespace DiceFormula

/-- A source of draws: a sequence, and what comes after its end, if anything does. -/
structure Source where
  pending : List Float
  fill : Option Float
  /-- How many draws were made. -/
  used : Nat := 0

/-- The next draw. -/
def Source.next (src : Source) : Option Float × Source :=
  match src.pending with
  | x :: xs => (some x, { src with pending := xs, used := src.used + 1 })
  | [] =>
    match src.fill with
    | some x => (some x, { src with used := src.used + 1 })
    | none => (none, src)

/-- How an evaluation ended. -/
inductive Ending (α : Type)
  | finished (a : α)
  | failed (e : Error)
  | stopped

/-- What came of an evaluation. -/
structure Report (σ α : Type) where
  state : σ
  ending : Ending α
  /-- The number of draws made before each pause. -/
  points : List Nat
  source : Source

/-- When to stop: at a pause, given how many pauses and draws there were so far. -/
structure StopRule where
  stops : (points draws : Nat) → Bool

namespace StopRule

/-- Never. -/
def never : StopRule := ⟨fun _ _ => false⟩

/-- At the pause of the given number. -/
def atPoint (n : Nat) : StopRule := ⟨fun points _ => points == n⟩

/-- At the first pause after the draw of the given number. -/
def afterDraw (n : Nat) : StopRule := ⟨fun _ draws => n ≤ draws⟩

end StopRule

namespace Steps

variable {σ α : Type}

/-- Carries an evaluation out. `start` is the number of draws made before it began, and `points`
holds the pauses so far, last one first. -/
def runFrom (rule : StopRule) (start : Nat) : Steps σ α → List Nat → Source → Report σ α
  | done s a, points, src => ⟨s, .finished a, points.reverse, src⟩
  | fail s e, points, src => ⟨s, .failed e, points.reverse, src⟩
  | pause _ left rest, points, src =>
    let points := (src.used - start) :: points
    if rule.stops points.length (src.used - start) then
      match left with
      | .clean s => ⟨s, .stopped, points.reverse, src⟩
      | .broken s e => ⟨s, .failed e, points.reverse, src⟩
    else runFrom rule start (rest ()) points src
  | draw rest, points, src =>
    let (x, src) := src.next
    runFrom rule start (rest x) points src

/-- Carries an evaluation out on a source. -/
def run (rule : StopRule) (steps : Steps σ α) (src : Source) : Report σ α :=
  runFrom rule src.used steps [] src

end Steps

end DiceFormula
