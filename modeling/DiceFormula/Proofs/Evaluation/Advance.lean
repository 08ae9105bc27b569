import DiceFormula.Proofs.Evaluation.Contract

/-!
# Evaluations one step at a time

`Steps.advance` carries an evaluation out up to its next pause. What it halts at keeps the contract of
the evaluation (`Steps.Meets.advance`), and a run that nothing stops goes on from there to the same
end (`Steps.outcome_advance`).
-/

namespace DiceFormula

/-- What an evaluation halts at: a pause, with what is left behind by stopping there, or its end. -/
inductive Halt (σ α : Type)
  | paused (now : σ) (left : Left σ) (rest : Steps σ α)
  | finished (s : σ) (a : α)
  | failed (s : σ) (e : Error)

/-- What comes of a run, without its pauses. -/
def Report.outcome {σ α : Type} (report : Report σ α) : σ × Ending α × Source :=
  (report.state, report.ending, report.source)

namespace Steps

variable {σ α : Type}

/-- Goes on to the next pause. -/
def advance : Steps σ α → Source → Halt σ α × Source
  | done s a, src => (.finished s a, src)
  | fail s e, src => (.failed s e, src)
  | pause now left rest, src => (.paused now left (rest ()), src)
  | draw rest, src =>
    let (x, src) := src.next
    advance (rest x) src

end Steps

namespace Halt

variable {σ α : Type}

/-- What the evaluation halts at keeps the contract. -/
def Meets (c : Contract σ α) : Halt σ α → Prop
  | paused now left rest => c.seen now ∧ c.left left ∧ rest.Meets c
  | finished s a => c.done s a
  | failed s e => c.fail s e

/-- What comes of the evaluation when nothing stops it any more. -/
def outcome : Halt σ α → Source → σ × Ending α × Source
  | paused _ _ rest, src => (rest.run .never src).outcome
  | finished s a, src => (s, .finished a, src)
  | failed s e, src => (s, .failed e, src)

end Halt

namespace Steps

variable {σ α : Type}

theorem Meets.advance {c : Contract σ α} {x : Steps σ α} (h : x.Meets c) (src : Source) :
    (x.advance src).1.Meets c := by
  induction x generalizing src with
  | done s a => exact h
  | fail s e => exact h
  | pause now left rest ih => exact h
  | draw rest ih => exact ih _ (h _) _

/-- Pauses do not matter to a run that is never stopped. -/
theorem outcome_runFrom (x : Steps σ α) (start start' : Nat) (points points' : List Nat)
    (src : Source) :
    (x.runFrom .never start points src).outcome = (x.runFrom .never start' points' src).outcome := by
  induction x generalizing points points' src with
  | done s a => rfl
  | fail s e => rfl
  | pause now left rest ih => exact ih () _ _ _
  | draw rest ih => exact ih _ _ _ _

/-- **A run may be taken up wherever the evaluation halted.** -/
theorem outcome_advance (x : Steps σ α) (src : Source) :
    (x.run .never src).outcome = (x.advance src).1.outcome (x.advance src).2 := by
  induction x generalizing src with
  | done s a => rfl
  | fail s e => rfl
  | pause now left rest ih => exact outcome_runFrom (rest ()) src.used src.used _ [] src
  | draw rest ih =>
    exact (outcome_runFrom (rest src.next.1) src.used src.next.2.used [] [] src.next.2).trans
      (ih _ _)

end Steps

end DiceFormula
