import DiceFormula.Proofs.Evaluation.Contract
import DiceFormula.Proofs.Evaluation.Cutting
import DiceFormula.Proofs.Evaluation.Effects
import DiceFormula.Proofs.Record.Storable

/-!
# What holds while dice are rolled

To roll dice and to carry out their modifiers is to put few steps together: a die is rolled into the
hand, results are changed one for one, a modifier is listed, and in between there is a pause or a
failure. A property of tasks that the steps of a modifier have, and that is kept where tasks are put
together, is `Hand.Closed`; if a modifier may also roll a die, it is a property of all that modifiers
do (`Hand.Closed.performOnDice`). A property that pausing and listing a modifier have as well is
`Hand.Paced`, and holds of all that is done with a hand (`Hand.Paced.rollMany`,
`Hand.Paced.carryOutAll`).

The first such property is that modifiers stay texts, wherever the hand is stopped
(`Dice.keeps_roll`, `Hand.keeps_carryOutModifiers`).
-/

namespace DiceFormula

variable {context : Context} {α : Type}

/-! ## Changes one for one -/

namespace Modifier

/-- The modifier leaves as many results as before. -/
def OneForOne (f : List DieResult → Outcome) : Prop :=
  ∀ rs c, f rs = some c → c.state.length = rs.length

theorem Does.oneForOne {c : Command} {f : List DieResult → Outcome} (does : Does c f) :
    OneForOne f := fun rs out h => (does rs out h).length_eq.symm

end Modifier

/-! ## Properties of tasks -/

namespace Hand

/-- A property of tasks on a hand that the single steps of a modifier have, apart from rolling, and
that is kept where tasks are put together. -/
structure Closed (C : {α : Type} → Task Hand α → Prop) : Prop where
  pure : ∀ {α : Type} (a : α), C (Pure.pure a : Task Hand α)
  bind : ∀ {α β : Type} {t : Task Hand α} {f : α → Task Hand β}, C t → (∀ a, C (f a)) → C (t >>= f)
  get_bind : ∀ {α : Type} {f : Hand → Task Hand α}, (∀ h, C (f h)) → C (Task.get >>= f)
  fail : ∀ {α : Type} (e : Error), C (Task.fail e : Task Hand α)
  ofExcept : ∀ {α : Type} (x : Except Error α), C (Task.ofExcept x : Task Hand α)
  setResult : ∀ i r, C (Task.modify fun h : Hand => { h with results := h.results.set i r })
  plain : ∀ {f : List DieResult → Modifier.Outcome}, Modifier.OneForOne f → C (plain f)

/-- A property that also pausing and listing a modifier have. -/
structure Paced (C : {α : Type} → Task Hand α → Prop) : Prop extends Closed C where
  pause : C (Task.pause : Task Hand Unit)
  list : ∀ text, C (Task.modify fun h : Hand => { h with modifiers := h.modifiers ++ [.str text] })

namespace Closed

variable {C : {α : Type} → Task Hand α → Prop} (hC : Closed C)

include hC

theorem rollExtra {d : Dice} {faces : Int} (one : C (Dice.rollOne context d.kind faces)) :
    C (d.rollExtra context faces) := by
  refine hC.get_bind ?_
  intro h
  split
  · exact hC.fail _
  · exact one

section

variable {d : Dice} {faces : Int} (extra : C (d.rollExtra context faces))

include extra

theorem rollMatchesFrom (reroll : Bool) (comparison target : Value) (reach : Dice.Reach)
    (fuel : Nat) :
    ∀ (i : Nat) (limit : Option Nat),
      C (Dice.rollMatchesFrom context d faces reroll comparison target reach fuel i limit) := by
  induction fuel with
  | zero =>
    intro i limit
    exact hC.pure _
  | succ fuel ih =>
    intro i limit
    refine hC.get_bind ?_
    intro h
    split
    · exact hC.pure _
    · split
      · exact hC.pure _
      · dsimp only
        split
        · exact ih _ _
        · refine hC.bind (hC.ofExcept _) ?_
          intro met
          split
          · exact ih _ _
          · exact hC.bind (hC.setResult _ _) fun _ => hC.bind extra fun _ => ih _ _

theorem rollMatches (reroll recursive : Bool) (m : Modifier.Matching) (default : Int) :
    C (d.rollMatches context faces reroll recursive m default) :=
  hC.get_bind fun _ => hC.rollMatchesFrom extra _ _ _ _ _ _ _

theorem reroll (recursive : Bool) (text : List Char) :
    C (d.reroll context faces recursive text) := by
  unfold Dice.reroll
  split
  · exact hC.pure _
  · exact hC.bind (hC.rollMatches extra _ _ _ _) fun _ => hC.pure _

theorem explode (recursive : Bool) (text : List Char) :
    C (d.explode context faces recursive text) := by
  unfold Dice.explode
  split
  · exact hC.pure _
  · exact hC.bind (hC.rollMatches extra _ _ _ _) fun _ => hC.pure _

theorem performOnDice (c : Command) (text : List Char) :
    C (Hand.performOnDice context d faces c text) := by
  cases c with
  | reroll recursive => exact hC.reroll extra recursive text
  | explode recursive => exact hC.explode extra recursive text
  | keep => exact hC.plain (Modifier.does_keep text).oneForOne
  | drop => exact hC.plain (Modifier.does_drop text).oneForOne
  | minimum => exact hC.plain (Modifier.does_minimum text).oneForOne
  | maximum => exact hC.plain (Modifier.does_maximum text).oneForOne
  | parity even => exact hC.plain (Modifier.does_parity even).oneForOne
  | countSuccesses => exact hC.plain (Modifier.does_count .countSuccesses _ text).oneForOne
  | countFailures => exact hC.plain (Modifier.does_count .countFailures _ text).oneForOne
  | deductFailures => exact hC.plain (Modifier.does_deduct .deductFailures _ text).oneForOne
  | subtractFailures => exact hC.plain (Modifier.does_deduct .subtractFailures _ text).oneForOne
  | call => exact hC.plain (Modifier.does_callSide text).oneForOne

end

theorem performOnPool (c : Command) (text : List Char) : C (Hand.performOnPool c text) := by
  cases c with
  | keep => exact hC.plain (Modifier.does_keep text).oneForOne
  | drop => exact hC.plain (Modifier.does_drop text).oneForOne
  | countSuccesses => exact hC.plain (Modifier.does_count .countSuccesses _ text).oneForOne
  | countFailures => exact hC.plain (Modifier.does_count .countFailures _ text).oneForOne
  | _ => exact hC.pure _

end Closed

namespace Paced

variable {C : {α : Type} → Task Hand α → Prop} (hC : Paced C)
  {table : Command.Table} {perform : Command → List Char → Task Hand Bool}

include hC

theorem rollMany {kind : DiceKind} {faces : Int} (one : C (Dice.rollOne context kind faces))
    (n : Nat) : C (Dice.rollMany context kind faces n) := by
  induction n with
  | zero => exact hC.pure _
  | succ n ih => exact hC.bind one fun _ => hC.bind hC.pause fun _ => ih

theorem carryOut (hp : ∀ c text, C (perform c text)) (c : Command) (text : List Char) :
    C (Hand.carryOut perform c text) := by
  refine hC.bind (hp c text) ?_
  intro understood
  split
  · exact hC.bind (hC.list _) fun _ => hC.pause
  · exact hC.pause

theorem carryOutAll (hp : ∀ c text, C (perform c text)) (texts : List (List Char)) :
    C (Hand.carryOutAll table perform texts) := by
  rw [carryOutAll_eq_carryOutEach]
  induction texts.flatMap (Command.cut table) with
  | nil => exact hC.pure _
  | cons p ps ih => exact hC.bind (hC.carryOut hp p.1 p.2) fun _ => ih

end Paced

/-! ## Modifiers are texts -/

/-- The task on a hand can be stopped everywhere and lists texts only. -/
abbrev Keeps {α : Type} (task : Task Hand α) : Prop :=
  Task.Keeps (fun _ => True) Hand.IsWritten task

theorem keeps_rollOne (kind : DiceKind) (faces : Int) :
    Keeps (Dice.rollOne context kind faces) := by
  refine .bind ?_ fun _ => .modify fun _ h => h
  unfold Dice.face
  split
  · exact .pure _
  · exact .pure _
  · exact .bind .draw fun _ => .ofExcept _

theorem paced_keeps : Paced Keeps where
  pure := .pure
  bind := .bind
  get_bind := fun hf => .get_bind fun h _ => hf h
  fail := .fail
  ofExcept := .ofExcept
  pause := .pause fun _ _ => trivial
  setResult := fun _ _ => .modify fun _ h => h
  plain := by
    intro f _
    refine .get_bind ?_
    intro h hw
    split
    · exact .pure _
    · refine .bind (.set hw) ?_
      intro _
      split
      · exact .pure _
      · exact .fail _
  list := fun text => .modify fun h hw m hm => by
    rcases List.mem_append.1 hm with hm | hm
    · exact hw m hm
    · exact ⟨_, List.mem_singleton.1 hm⟩

variable {table : Command.Table} {perform : Command → List Char → Task Hand Bool}

/-- Carrying out modifiers lists them anew, whatever was listed before. -/
theorem keeps_carryOutModifiers (hp : ∀ c text, Keeps (perform c text)) :
    Keeps (carryOutModifiers table perform) :=
  .get_bind fun _ _ => .bind (.ofExcept _) fun _ =>
    .bind (.set fun _ hm => absurd hm List.not_mem_nil) fun _ =>
      paced_keeps.carryOutAll hp _

end Hand

/-- **Dice can be stopped everywhere**, and list texts as their modifiers. -/
theorem Dice.keeps_roll (d : Dice) : Hand.Keeps (d.roll context) :=
  have paced := Hand.paced_keeps
  .bind (.ofExcept _) fun _ => .bind (paced.rollMany (Hand.keeps_rollOne _ _) _) fun _ =>
    Hand.keeps_carryOutModifiers <| paced.performOnDice <| paced.rollExtra (Hand.keeps_rollOne _ _)

end DiceFormula
