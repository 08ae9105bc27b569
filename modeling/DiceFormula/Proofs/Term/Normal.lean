import DiceFormula.Proofs.Evaluation.Accepting
import DiceFormula.Proofs.Evaluation.Bounds
import DiceFormula.Proofs.Evaluation.Stages
import DiceFormula.Proofs.Term.Stop

/-!
# Modifiers in normal form

An evaluated term lists just the modifiers that took effect. These are its modifiers in normal form:
a term that is asked for them instead comes to the same on the same draws, and lists the same
modifiers again (`Term.outcome_again`). So what is not understood, and what is left over when a run
of letters is cut into commands, has no effect and takes no draw.
-/

namespace DiceFormula

variable {context : Context} {inner : RollEvaluation}

namespace Term

variable {ms : List String} {t u : Term} {src src' : Source}

/-- The term has a hand: it is dice or a pool. -/
def HasHand (t : Term) : Prop := ∀ hand, (t.setHand hand).hand = hand

theorem hasHand_dice (d : Dice) (l : Label) (carried : List Term) :
    HasHand ⟨.dice d, l, carried⟩ := fun _ => rfl

theorem hasHand_pool (args : List String) (rolls : List Roll) (hand : Hand) (l : Label)
    (carried : List Term) : HasHand ⟨.pool args rolls hand, l, carried⟩ := fun _ => rfl

theorem setHand_setHand (h h' : Hand) (t : Term) : (t.setHand h).setHand h' = t.setHand h' := by
  obtain ⟨body, l, carried⟩ := t
  cases body <;> rfl

/-- What is done to the hand of a term is done once more. -/
theorem result_withHand_again {task : Task Hand Unit} (repeats : Hand.Repeats ms task)
    (has : t.HasHand) (asked : t.hand.modifiers = ms.map .str)
    (ends : (withHand task t).result src = (.ok (u, ()), src')) :
    (withHand task (t.withModifiers u.hand.modifiers)).result src = (.ok (u, ()), src') := by
  rw [result_withHand] at ends ⊢
  cases done : (task t.hand).result src with
  | mk outcome mid =>
    cases outcome with
    | error e =>
      rw [Drawing.map_of_error done] at ends
      cases ends
    | ok p =>
      rw [Drawing.map_of_ok done] at ends
      obtain ⟨rfl, rfl⟩ : t.setHand p.1 = u ∧ mid = src' := by simpa using ends
      have again := repeats asked done
      rw [has p.1, withModifiers, has]
      refine (Drawing.map_of_ok again _).trans ?_
      rw [setHand_setHand]

section

variable {l : Label} {carried : List Term} (waits : l.mark.truthy = false)
  (ascii : ∀ m ∈ ms, ∀ c ∈ m.toList, c.toNat < 128)

include waits ascii

theorem result_dice_again {d : Dice} (asked : d.hand.modifiers = ms.map .str)
    (ends : (evaluationBy inner context ⟨.dice d, l, carried⟩).result src = (.ok (u, ()), src')) :
    (evaluationBy inner context
      (withModifiers u.hand.modifiers ⟨.dice d, l, carried⟩)).result src = (.ok (u, ()), src') := by
  have body (d : Dice) : (evaluationBy inner context ⟨.dice d, l, carried⟩).result
      = (withHand (d.roll context) ⟨.dice d, { l with mark := .bool true }, carried⟩).result :=
    result_evaluationBy rfl waits
  rw [body] at ends
  refine (congrFun (body _) src).trans ?_
  rw [Dice.roll_with_hand]
  exact result_withHand_again (d.repeats_roll ascii) (hasHand_dice _ _ _) asked ends

theorem result_pool_again {args : List String} {rolls : List Roll} {hand : Hand}
    (asked : hand.modifiers = ms.map .str)
    (ends : (evaluationBy inner context ⟨.pool args rolls hand, l, carried⟩).result src
      = (.ok (u, ()), src')) :
    (evaluationBy inner context
      (withModifiers u.hand.modifiers ⟨.pool args rolls hand, l, carried⟩)).result src
      = (.ok (u, ()), src') := by
  have repeats : Hand.Repeats ms (Hand.carryOutModifiers Command.ofPools Hand.performOnPool) :=
    Hand.repeats_carryOutModifiers Hand.deciding_performOnPool Command.proper_ofPools ascii
  rw [result_pool waits] at ends
  refine (congrFun (result_pool waits args rolls _) src).trans ?_
  cases rolled : (Formula.rollAll inner context args) src with
  | mk outcome mid =>
    cases outcome with
    | error e =>
      rw [Drawing.bind_of_error rolled] at ends
      cases ends
    | ok rs =>
      rw [Drawing.bind_of_ok rolled, addRolls_pool] at ends ⊢
      refine result_withHand_again repeats (hasHand_pool _ _ _ _ _) ?_ ends
      exact asked

end

theorem Untouched.waits {t : Term} (h : t.Untouched) : t.label.mark.truthy = false := by
  rw [← h.rollback]
  rfl

theorem nesting_withModifiers (ns : List Value) (t : Term) :
    (t.withModifiers ns).nesting = t.nesting := by
  obtain ⟨body, l, carried⟩ := t
  cases body with
  | pool args rolls hand => simp [withModifiers, setHand, nesting]
  | dice d => simp [withModifiers, setHand, nesting]
  | _ => rfl

/-- **Modifiers in normal form mean the same, and stay as they are.** Whatever dice or a pool are
asked for in ordinary text, if they are evaluated and then list some modifiers, then the term that is
asked for these instead comes to the very same term on the same draws, with the same results and the
same modifiers. -/
theorem outcome_again {t : Term} (untouched : t.Untouched) (asked : t.hand.modifiers = ms.map .str)
    (ascii : ∀ m ∈ ms, ∀ c ∈ m.toList, c.toNat < 128) (context : Context) {src : Source}
    (finished : ((evaluation context t).run .never src).ending = .finished ()) :
    let report := (evaluation context t).run .never src
    ((evaluation context (t.withModifiers report.state.hand.modifiers)).run .never src).outcome
      = report.outcome := by
  intro report
  have ends := Steps.result_of_finished finished
  have waits := untouched.waits
  rw [Steps.outcome_of_ok ends]
  refine Steps.outcome_of_ok ?_
  simp only [evaluation, nesting_withModifiers] at ends ⊢
  obtain ⟨body, l, carried⟩ := t
  cases body with
  | dice d => exact result_dice_again waits ascii asked ends
  | pool args rolls hand => exact result_pool_again waits ascii asked ends
  | _ => exact ends

/-- Four modifiers, two of which are cut into commands, and one of which is unknown: an explosion, two
counts and a test for evenness take effect, and they are carried out once more in the same way. -/
theorem outcome_again_cut :
    let config : Config := { kinds := [], functions := [], maxDice := 9, maxDiceText := .int 9 }
    let modifiers := ["XCS>5", "zz", "CS>4", "evenMAX"]
    let d : Dice := { kind := .die, number := .int 4, faces := .int 6
                      hand := { modifiers := modifiers.map .str } }
    let t := Term.make (.dice d) [] config
    let src : Source := { pending := [0.2, 0.9, 0.5], fill := some 0.75 }
    let report := (evaluation { config } t).run .never src
    t.Untouched ∧ (∀ m ∈ modifiers, ∀ c ∈ m.toList, c.toNat < 128)
      ∧ report.ending = .finished () ∧ report.state.hand.modifiers.length = 4
      ∧ ((evaluation { config } (t.withModifiers report.state.hand.modifiers)).run .never
        src).outcome = report.outcome := by
  intro config modifiers d t src report
  have untouched : t.Untouched := ⟨rfl, rfl⟩
  have ascii : ∀ m ∈ modifiers, ∀ c ∈ m.toList, c.toNat < 128 := by simp [modifiers]
  have finished : report.ending.isFinished = true := by decide +kernel
  have finished := Ending.eq_of_isFinished finished
  exact ⟨untouched, ascii, finished, by decide +kernel,
    outcome_again untouched rfl ascii { config } finished⟩

end Term

end DiceFormula
