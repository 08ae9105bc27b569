import DiceFormula.Proofs.Evaluation.Roll

/-!
# Stopping an evaluation

To stop an evaluation undoes it, wherever that happens: between two dice, inside a modifier, or deep
inside nested groups. The roll waits again, shows the formula and the record it had, and any later
evaluation goes as if there had not been one before (`Roll.Built.stop_restores`).
-/

namespace DiceFormula

namespace Roll

/-- The roll `s` waits for its evaluation and is in every respect what `r` is: it shows the same
formula and the same record, and its evaluation comes to the same on every source of draws. -/
structure AsBefore (r s : Roll) : Prop where
  created : s.sheet.state = .created
  total : s.total = .null
  formula : s.formula = r.formula
  record : s.toRecord = r.toRecord
  again : ∀ (context : Context) (rule : StopRule) (src : Source),
    (evaluation context s).run rule src = (evaluation context r).run rule src

theorem Waiting.asBefore {config : Config} {r : Roll} (h : r.Waiting config) : AsBefore r r where
  created := h.state
  total := by rw [Roll.total, evaluated, h.state]; rfl
  formula := rfl
  record := rfl
  again := fun _ _ _ => rfl

/-- **Stopping is atomic.** Before its first step a built roll has not changed; at every pause the
evaluation can be stopped; and however a run may be stopped, it either goes on to its end as if
nothing could stop it, or leaves the roll as it was before. -/
theorem Built.stop_restores {config : Config} {r : Roll} (h : r.Built config) (mode : Mode)
    (src : Source) :
    let steps := evaluation { config, mode } r
    let whole := steps.run .never src
    AsBefore r r
      ∧ (∀ n, 0 < n → n ≤ whole.points.length →
          (steps.run (.atPoint n) src).ending = .stopped
            ∧ AsBefore r (steps.run (.atPoint n) src).state)
      ∧ ∀ rule : StopRule, steps.run rule src = whole
          ∨ (steps.run rule src).ending = .stopped ∧ AsBefore r (steps.run rule src).state := by
  intro steps whole
  have waiting := h.waiting
  have meets := @meets_evaluation { config, mode } r waiting
  have clean : steps.Meets { left := Left.IsClean } :=
    meets.mono (fun _ _ => trivial) (fun l hl => hl.mono fun _ _ => trivial)
      (fun _ _ _ => trivial) (fun _ _ _ => trivial)
  have stopped (rule : StopRule) (hs : (steps.run rule src).ending = .stopped) :
      AsBefore r (steps.run rule src).state := by
    have allowed := Steps.allows_run rule meets src
    simp only [Contract.Allows, steps, hs] at allowed
    have same : (steps.run rule src).state = r := allowed
    rw [same]
    exact waiting.asBefore
  refine ⟨waiting.asBefore, ?_, ?_⟩
  · intro n hpos hle
    have hs := Steps.runFrom_atPoint clean [] src hpos hle
    exact ⟨hs, stopped _ hs⟩
  · intro rule
    have ends : steps.run rule src = whole ∨ (steps.run rule src).ending = .stopped :=
      Steps.runFrom_eq_or_stopped clean [] src
    rcases ends with same | hs
    · exact .inl same
    · exact .inr ⟨hs, stopped rule hs⟩

/-- A pool with a group in it, stopped at the third pause. -/
theorem stop_restores_pool :
    ∃ r, create (.str "{1d4, (2d6)+1}cs>2") .null .null .diceOnly = .ok r
      ∧ let src : Source := { pending := [0.25, 0.75, 0.5], fill := none }
        let report := (evaluation { config := .diceOnly } r).run (.atPoint 3) src
        report.ending = .stopped ∧ AsBefore r report.state := by
  obtain ⟨r, h, pauses⟩ := exists_of_create_any (.str "{1d4, (2d6)+1}cs>2") .null .null .diceOnly
    (fun r => 3 ≤ ((evaluation { config := .diceOnly } r).run .never
      { pending := [0.25, 0.75, 0.5], fill := none }).points.length)
    (by decide +kernel)
  exact ⟨r, h, (Built.stop_restores (.create h) .random _).2.1 3 (by decide)
    (of_decide_eq_true pauses)⟩

end Roll

end DiceFormula
