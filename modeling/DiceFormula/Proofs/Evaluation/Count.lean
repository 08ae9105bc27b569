import DiceFormula.Proofs.Evaluation.Draws
import DiceFormula.Proofs.Evaluation.Hand

/-!
# Draws become results

A random evaluation of dice or of modifiers makes one draw for every result that comes to the hand,
and an evaluation in any other mode makes none (`Dice.counts_roll`,
`Hand.counts_carryOutModifiers`). Results are never taken away again.
-/

namespace DiceFormula

variable {context : Context}

/-- Only a random evaluation draws. -/
def Context.dealing (context : Context) : Dealing := { mayDraw := context.mode = .random }

namespace Hand

/-- In a random evaluation the hand gains as many results as there are draws. -/
def Counts (context : Context) {α : Type} (task : Task Hand α) : Prop :=
  ∀ h, (task h).Ends context.dealing fun n s _ =>
    context.mode = .random → s.results.length = h.results.length + n

/-- A step that draws nothing and leaves the number of results. -/
theorem counts_modify {f : Hand → Hand} (h : ∀ s, (f s).results.length = s.results.length) :
    Counts context (Task.modify f) := fun s _ => h s

theorem counts_rollOne (kind : DiceKind) (faces : Int) :
    Counts context (Dice.rollOne context kind faces) := by
  intro h
  have face : (Dice.face context kind faces h).Ends context.dealing fun n s _ =>
      s = h ∧ (context.mode = .random → n = 1) := by
    unfold Dice.face
    cases hm : context.mode with
    | minimum | maximum => exact ⟨rfl, nofun⟩
    | random =>
      refine Steps.Ends.bind (Q := fun n s _ => s = h ∧ n = 1)
        (Task.ends_draw hm (fun _ _ => ⟨rfl, rfl⟩) fun _ => trivial) ?_
      rintro k s x ⟨rfl, rfl⟩
      refine Task.ends_ofExcept ?_
      cases Dice.faceOfDraw kind faces x with
      | ok n => exact ⟨rfl, fun _ => rfl⟩
      | error e => exact trivial
  refine face.bind ?_
  rintro k s n ⟨rfl, hk⟩ random
  simp [hk random]

theorem paced_counts (context : Context) : Paced (Counts context) where
  pure := fun _ _ _ => rfl
  bind := by
    intro α β t f ht hf h
    refine (ht h).bind ?_
    intro k s a hs
    refine (hf a s).mono ?_
    intro n s' _ hn random
    rw [hn random, hs random, Nat.add_assoc]
  get_bind := fun hf h => hf h h
  fail := fun _ _ => trivial
  ofExcept := by
    intro α x h
    cases x with
    | ok a => exact fun _ => rfl
    | error e => exact trivial
  pause := fun _ _ => rfl
  setResult := fun _ _ => counts_modify fun _ => List.length_set
  plain := by
    intro f hf h
    simp only [plain, Task.bind_apply, Task.get_apply, Steps.bind]
    cases hc : f h.results with
    | none => exact fun _ => rfl
    | some c =>
      simp only [Task.bind_apply, Task.set_apply, Steps.bind]
      cases c.fault with
      | none => exact fun _ => hf _ _ hc
      | some e => exact trivial
  list := fun _ => counts_modify fun _ => rfl

variable {table : Command.Table} {perform : Command → List Char → Task Hand Bool}

theorem counts_carryOutModifiers (hp : ∀ c text, Counts context (perform c text)) :
    Counts context (carryOutModifiers table perform) := by
  intro h
  simp only [carryOutModifiers, Task.bind_apply, Task.get_apply, Steps.bind]
  cases h.modifiers.mapM lowerModifier with
  | error e => exact trivial
  | ok texts =>
    simp only [Task.ofExcept_ok, Task.set_apply, Steps.bind]
    exact (paced_counts context).carryOutAll hp texts { h with modifiers := [] }

/-- Nothing is drawn for the modifiers of a pool. -/
theorem ends_carryOutOnPool {d : Dealing} (free : ∀ e, d.fail e) (h : Hand) :
    (carryOutModifiers Command.ofPools performOnPool h).Ends d fun n _ _ => n = 0 := by
  -- they do not ask for the mode, so that it may be one that never draws
  have extreme : Hand.Counts { config := default, mode := .minimum }
      (carryOutModifiers Command.ofPools performOnPool) :=
    counts_carryOutModifiers (paced_counts _).performOnPool
  refine ((extreme h).noDraws ?_ free).mono fun _ _ _ hn => hn.1
  simp [Context.dealing]

end Hand

/-- **Dice gain a result by every draw.** -/
theorem Dice.counts_roll (d : Dice) : Hand.Counts context (d.roll context) :=
  have paced := Hand.paced_counts context
  have one := Hand.counts_rollOne d.kind
  paced.bind (paced.ofExcept _) fun c => paced.bind (paced.rollMany (one c.faces) _) fun _ =>
    Hand.counts_carryOutModifiers <| paced.performOnDice <| paced.rollExtra (one c.faces)

end DiceFormula
