import DiceFormula.Proofs.Evaluation.Roll
import DiceFormula.Roll.Tooltip

/-!
# Records of rolls

A roll that waits for its evaluation, and one that has been evaluated, can be restored from its
record. What comes back shows all that the roll shows: record, formula, total, flat text, dice and
tooltips. It also behaves alike: a roll that waits is evaluated as before, and one that was
evaluated is final (`Roll.Standing.ofRecord_showsSame`).
-/

namespace DiceFormula

/-! ## What a restored roll shows -/

theorem Term.total_restored (t : Term) : t.restored.total = t.total := by
  obtain ⟨body, l, carried⟩ := t
  cases body <;> rfl

theorem Term.tooltip_restored (flavor : Value) (t : Term) :
    t.restored.tooltip flavor = t.tooltip flavor := by
  obtain ⟨body, l, carried⟩ := t
  cases body <;> rfl

theorem Term.isDice_restored (t : Term) : t.restored.isDice = t.isDice := by
  obtain ⟨body, l, carried⟩ := t
  cases body <;> rfl

namespace Roll

theorem flatten_restoredTerms (ts : List Term) : flatten (restoredTerms ts) = flatten ts := by
  have same : (restoredTerms ts).mapM flatTerm = ts.mapM flatTerm := by
    induction ts with
    | nil => rfl
    | cons t ts ih =>
      simp only [restoredTerms, List.mapM_cons, flatTerm, Term.total_restored] at ih ⊢
      rw [ih]
  simp only [flatten, same]

theorem tooltipsOf_restoredTerms (flavor : Value) (ts : List Term) :
    tooltipsOf flavor (restoredTerms ts) = tooltipsOf flavor ts := by
  have same : ((restoredTerms ts).filter Term.isDice).mapM (Term.tooltip flavor)
      = (ts.filter Term.isDice).mapM (Term.tooltip flavor) := by
    induction ts with
    | nil => rfl
    | cons t ts ih =>
      simp only [restoredTerms, List.filter_cons, Term.isDice_restored]
      split
      · simp only [List.mapM_cons, Term.tooltip_restored, ih]
      · exact ih
  simp only [tooltipsOf, same]

/-- The roll `s` shows all that `r` shows. -/
structure ShowsSame (r s : Roll) : Prop where
  record : s.toRecord = r.toRecord
  formula : s.formula = r.formula
  total : s.total = r.total
  result : s.result = r.result
  evaluated : s.evaluated = r.evaluated
  dice : termRecords s.allDice = termRecords r.allDice
  tooltip : s.tooltip = r.tooltip

/-- An evaluated roll comes back as one that shows the same. -/
theorem showsSame_restored {r : Roll} (h : r.evaluated = true) : ShowsSame r r.restored := by
  obtain ⟨terms, dice, shared, sheet⟩ := r
  have evaluated : sheet.state.isEvaluated = true := h
  have allDice : restoredTerms (Roll.allDice ⟨terms, dice, shared, sheet⟩)
      = (Roll.restored ⟨terms, dice, shared, sheet⟩).allDice := by
    simp only [Roll.allDice, Roll.restored, evaluated, if_true]
  exact
    { record := toRecord_restored _
      formula := rfl
      total := rfl
      result := by
        show (if _ then (flatten (restoredTerms terms)).map Value.str else _) = _
        rw [flatten_restoredTerms]
        rfl
      evaluated := rfl
      dice := by rw [← allDice, termRecords_restored]
      tooltip := by
        unfold Roll.tooltip
        rw [← allDice, tooltipsOf_restoredTerms]
        rfl }

/-- What comes back of an evaluated roll is final: its evaluation changes nothing. -/
theorem evaluation_restored {r : Roll} (h : r.evaluated = true) (context : Context) :
    evaluation context r.restored = .done r.restored () := by
  obtain ⟨terms, dice, shared, sheet⟩ := r
  have replayed : (Roll.restored ⟨terms, dice, shared, sheet⟩).sheet.replayed = true := h
  simp only [evaluation, evaluationWithin, evaluationBy, Task.bind_apply, Task.get_apply,
    Steps.bind, replayed, if_true]
  rfl

/-! ## Rolls that can be restored -/

/-- A built roll, or one that a built roll became by an evaluation that ended well. -/
inductive Standing (config : Config) : Roll → Prop
  | built {r : Roll} : Built config r → Standing config r
  | evaluated {r : Roll} {mode : Mode} {rule : StopRule} {src : Source} :
      Built config r → ((evaluation { config, mode } r).run rule src).ending = .finished () →
      Standing config ((evaluation { config, mode } r).run rule src).state

/-- **Records lose nothing.** A roll that waits or was evaluated is restored from its record as a
roll that shows the same. Restored, an evaluated roll is final: evaluating it draws nothing, pauses
nowhere and changes nothing. A roll that waits is evaluated as before on every source of draws. -/
theorem Standing.ofRecord_showsSame {config : Config} {r : Roll} (h : r.Standing config) :
    ∃ s, ofRecord config r.toRecord = .ok s ∧ ShowsSame r s
      ∧ (r.evaluated = true → ∀ context, evaluation context s = .done s ())
      ∧ (r.evaluated = false → ∀ (context : Context) (rule : StopRule) (src : Source),
          (evaluation context s).run rule src = (evaluation context r).run rule src) := by
  cases h with
  | built h =>
    have waiting := h.waiting
    have evaluated : r.evaluated = false := by rw [Roll.evaluated, waiting.state]; rfl
    refine ⟨r, ?_, ⟨rfl, rfl, rfl, rfl, rfl, rfl, rfl⟩, ?_, fun _ _ _ _ => rfl⟩
    · rw [Roll.ofRecord_toRecord waiting.storable, waiting.restored]
    · intro he
      rw [evaluated] at he
      cases he
  | @evaluated r mode rule src h hend =>
    have allowed := Steps.allows_run rule
      (@meets_evaluation { config, mode } _ h.waiting) src
    simp only [Contract.Allows, hend] at allowed
    obtain ⟨storable, evaluated⟩ := allowed
    refine ⟨_, Roll.ofRecord_toRecord storable, showsSame_restored evaluated, ?_, ?_⟩
    · intro _
      exact evaluation_restored evaluated
    · intro he
      rw [evaluated] at he
      cases he

/-- Dice in a pool, evaluated and restored. -/
theorem ofRecord_showsSame_pool :
    ∃ r, create (.str "{1d4, (2d6)[fire]+1}cs>2 + (1d4)d6") .null .null .diceOnly = .ok r
      ∧ let src : Source := { pending := [0.25, 0.75, 0.5, 0.5, 1.0, 0.25], fill := none }
        let r := ((evaluation { config := .diceOnly } r).run .never src).state
        ∃ s, ofRecord .diceOnly r.toRecord = .ok s ∧ ShowsSame r s := by
  obtain ⟨r, h, finished⟩ := exists_of_create_any
    (.str "{1d4, (2d6)[fire]+1}cs>2 + (1d4)d6") .null .null .diceOnly
    (fun r => ((evaluation { config := .diceOnly } r).run .never
      { pending := [0.25, 0.75, 0.5, 0.5, 1.0, 0.25], fill := none }).ending.isFinished)
    (by decide +kernel)
  obtain ⟨s, hs, same, -⟩ :=
    Standing.ofRecord_showsSame (.evaluated (.create h) (Ending.eq_of_isFinished finished))
  exact ⟨r, h, s, hs, same⟩

end Roll

end DiceFormula
