import DiceFormula.Proofs.Evaluation.Hand
import DiceFormula.Proofs.Evaluation.Selecting
import DiceFormula.Proofs.Result.Numeric

/-!
# What can go wrong while dice are rolled

A `Regular` hand lists texts as its modifiers and holds results that are numbers. Whatever is done
with a hand leaves it regular, or fails as is expected: `Task.Stays` is this for tasks in general,
with one rule for every way to put them together. A draw is less than one, so that it can be scaled
to any number of faces that is a double, and rounded (`Dice.outcome_faceOfDraw`); a number of faces
that is too large for a double is all that can go wrong with a draw. What else fails are the limits,
the dice cap, and comparisons that are none (`Dice.stays_roll`).
-/

namespace DiceFormula

variable {context : Context}

/-! ## Tasks -/

/-- Draws never run out, and evaluation fails as is expected. -/
def Dealing.endless : Dealing where
  drawn := fun x => ∃ y, x = some y ∧ IsDraw y
  fail := Error.IsExpected

namespace Task

variable {σ α β : Type} {d : Dealing} {I : σ → Prop} {t : Task σ α}

/-- Wherever the task ends, `I` holds if it held before. -/
def Stays (d : Dealing) (I : σ → Prop) (t : Task σ α) : Prop :=
  ∀ s, I s → (t s).Ends d fun _ s _ => I s

namespace Stays

theorem pure (a : α) : Stays d I (pure a : Task σ α) := fun _ h => h

theorem bind {f : α → Task σ β} (ht : Stays d I t) (hf : ∀ a, Stays d I (f a)) :
    Stays d I (t >>= f) := fun s h => (ht s h).bind fun _ s a h => hf a s h

/-- What is done with the state may count on the invariant. -/
theorem get_bind {f : σ → Task σ α} (hf : ∀ s, I s → Stays d I (f s)) :
    Stays d I (get >>= f) := fun s h => hf s h s h

theorem fail {e : Error} (h : d.fail e) : Stays d I (fail e : Task σ α) := fun _ _ => h

theorem ofExcept {x : Except Error α} (h : d.Allows (fun _ => True) x) :
    Stays d I (ofExcept x) := fun _ hs => ends_ofExcept (h.mono (fun _ _ => hs) fun _ => id)

/-- What follows a computation may count on what it came to. -/
theorem ofExcept_bind {x : Except Error α} {P : α → Prop} (h : d.Allows P x)
    {f : α → Task σ β} (hf : ∀ a, P a → Stays d I (f a)) : Stays d I (Task.ofExcept x >>= f) := by
  cases x with
  | ok a => exact hf a h
  | error e => exact fun _ _ => h

theorem pause : Stays d I pause := fun _ h => h

theorem modify {f : σ → σ} (h : ∀ s, I s → I (f s)) : Stays d I (modify f) := h

theorem set {s : σ} (h : I s) : Stays d I (set s) := fun _ _ => h

end Stays

end Task

/-! ## Faces -/

namespace Dice

/-- A draw can be scaled to any number of faces that is a double. -/
theorem outcome_scaled {x : Float} (hx : IsDraw x) {faces : Int} (hf : 1 ≤ faces) :
    Outcome (fun _ => True) Error.IsExpected (scaled x faces) := by
  have size := Number.computes_intToFloat faces
  unfold scaled
  cases hy : intToFloat faces with
  | error c =>
    rw [hy] at size
    have product : (Number.float x).mul (.int faces) = .error c := by
      simp [Number.mul, Number.bothFloat, Number.toFloat, hy]
    rw [product]
    exact .inr ⟨c, size, rfl⟩
  | ok y =>
    have product : (Number.float x).mul (.int faces) = .ok (.float (x * y)) := by
      simp [Number.mul, Number.bothFloat, Number.toFloat, hy]
    obtain ⟨k, hk⟩ := Double.exists_floatToInt_mul hx hf hy Dyadic.ceil
    rw [product, bind_ok, Number.toInt, hk]
    trivial

/-- **A draw gives a face**, unless the number of faces is too large for a double. -/
theorem outcome_faceOfDraw (kind : DiceKind) {x : Float} (hx : IsDraw x) {faces : Int}
    (hf : 1 ≤ faces) : Outcome (fun _ => True) Error.IsExpected (faceOfDraw kind faces x) := by
  cases kind with
  | die | fate => exact (outcome_scaled hx hf).bind fun _ _ => trivial
  | coin =>
    obtain ⟨k, hk⟩ := Double.exists_floatToInt_add_half hx Dyadic.floor
    unfold faceOfDraw
    dsimp only
    rw [Number.toInt, hk]
    trivial

end Dice

/-! ## Hands -/

namespace Hand

/-- All modifiers are texts, and all results numbers. -/
structure Regular (h : Hand) : Prop where
  written : h.IsWritten
  numeric : DieResult.Numeric h.results

/-- Whatever is drawn, the task leaves a regular hand or fails as is expected. -/
abbrev Stays {α : Type} (task : Task Hand α) : Prop := Task.Stays .endless Regular task

theorem stays_face (kind : DiceKind) {faces : Int} (hf : 1 ≤ faces) :
    Stays (Dice.face context kind faces) := by
  unfold Dice.face
  split
  · exact .pure _
  · exact .pure _
  · intro h hh
    refine Steps.Ends.bind (Q := fun _ s x => s.Regular ∧ IsDraw x)
      (Task.ends_draw trivial ?_ ?_) ?_
    · rintro x ⟨_, ⟨⟩, hx⟩
      exact ⟨hh, hx⟩
    · rintro ⟨_, ⟨⟩, -⟩
    · rintro k s x ⟨hs, hx⟩
      exact Task.Stays.ofExcept (Dice.outcome_faceOfDraw kind hx hf) s hs

theorem isNumeric_resultOf (kind : DiceKind) (face : Int) :
    (Dice.resultOf kind face).IsNumeric := by
  cases kind <;> exact ⟨⟨_, rfl⟩, .inl rfl⟩

theorem stays_rollOne (kind : DiceKind) {faces : Int} (hf : 1 ≤ faces) :
    Stays (Dice.rollOne context kind faces) := by
  refine .bind (stays_face kind hf) fun n => .modify fun h hh => ⟨hh.written, ?_⟩
  exact List.forall_mem_append.2
    ⟨hh.numeric, List.forall_mem_singleton.2 (isNumeric_resultOf kind n)⟩

theorem stays_rollMany (kind : DiceKind) {faces : Int} (hf : 1 ≤ faces) (n : Nat) :
    Stays (Dice.rollMany context kind faces n) := by
  induction n with
  | zero => exact .pure _
  | succ n ih => exact .bind (stays_rollOne kind hf) fun _ => .bind .pause fun _ => ih

/-! ## Modifiers -/

/-- A modifier that is sound on results is sound on hands. -/
theorem stays_plain {f : List DieResult → Modifier.Outcome} (hf : Modifier.Sound f) :
    Stays (plain f) := by
  refine .get_bind fun h hh => ?_
  split
  · exact .pure _
  · next c hc =>
    have yields := hf _ hh.numeric c hc
    refine .bind (.set ⟨hh.written, yields.state⟩) fun _ => ?_
    split
    · exact .pure _
    · next e he => exact .fail (.inl (yields.fault e he))

theorem isNumeric_mark (reroll : Bool) {r : DieResult} (h : r.IsNumeric) :
    (Dice.mark reroll r).IsNumeric := by
  cases reroll <;> exact ⟨h.face, h.count⟩

section

variable (d : Dice) {faces : Int} (hf : 1 ≤ faces)

include hf

theorem stays_rollExtra : Stays (d.rollExtra context faces) := by
  refine .get_bind fun h _ => ?_
  split
  · exact .fail (.inl rfl)
  · exact stays_rollOne d.kind hf

theorem stays_rollMatchesFrom (reroll : Bool) (comparison : String) (target : Int)
    (reach : Dice.Reach) (fuel : Nat) : ∀ (i : Nat) (limit : Option Nat),
    Stays (d.rollMatchesFrom context faces reroll (.str comparison) (.int target) reach
      fuel i limit) := by
  induction fuel with
  | zero => exact fun _ _ => .pure _
  | succ fuel ih =>
    intro i limit
    refine .get_bind fun h hh => ?_
    split
    · exact .pure _
    · split
      · exact .pure _
      · next r hr =>
        have numeric := hh.numeric r (List.mem_of_getElem? hr)
        dsimp only
        split
        · exact ih _ _
        · have met := Comparison.replies_apply comparison numeric.face ⟨.int target, rfl⟩
          refine .ofExcept_bind met.expected fun met _ => ?_
          split
          · exact ih _ _
          · refine .bind (.modify fun h hh => ⟨hh.written, fun s hs => ?_⟩) fun _ =>
              .bind (stays_rollExtra d hf) fun _ => ih _ _
            rcases List.mem_or_eq_of_mem_set hs with hs | rfl
            · exact hh.numeric s hs
            · exact isNumeric_mark reroll numeric

theorem stays_rollMatches (reroll recursive : Bool) (m : Modifier.Matching) (default : Int) :
    Stays (d.rollMatches context faces reroll recursive m default) :=
  .get_bind fun _ _ => stays_rollMatchesFrom d hf _ _ _ _ _ _ _

theorem stays_reroll (recursive : Bool) (text : List Char) :
    Stays (d.reroll context faces recursive text) := by
  unfold Dice.reroll
  split
  · exact .pure _
  · exact .bind (stays_rollMatches d hf _ _ _ _) fun _ => .pure _

theorem stays_explode (recursive : Bool) (text : List Char) :
    Stays (d.explode context faces recursive text) := by
  unfold Dice.explode
  split
  · exact .pure _
  · exact .bind (stays_rollMatches d hf _ _ _ _) fun _ => .pure _

theorem stays_performOnDice (c : Command) (text : List Char) :
    Stays (performOnDice context d faces c text) := by
  cases c with
  | reroll recursive => exact stays_reroll d hf recursive text
  | explode recursive => exact stays_explode d hf recursive text
  | keep => exact stays_plain (Modifier.sound_keep text)
  | drop => exact stays_plain (Modifier.sound_drop text)
  | minimum => exact stays_plain (Modifier.sound_minimum text)
  | maximum => exact stays_plain (Modifier.sound_maximum text)
  | parity even => exact stays_plain (Modifier.sound_parity even)
  | countSuccesses => exact stays_plain (Modifier.sound_count (.inr ⟨_, rfl⟩) _ text)
  | countFailures => exact stays_plain (Modifier.sound_count (.inr ⟨_, rfl⟩) _ text)
  | deductFailures => exact stays_plain (Modifier.sound_deduct _ text)
  | subtractFailures => exact stays_plain (Modifier.sound_deduct _ text)
  | call => exact stays_plain (Modifier.sound_callSide text)

end

theorem stays_performOnPool (c : Command) (text : List Char) : Stays (performOnPool c text) := by
  cases c with
  | keep => exact stays_plain (Modifier.sound_keep text)
  | drop => exact stays_plain (Modifier.sound_drop text)
  | countSuccesses => exact stays_plain (Modifier.sound_count (.inl rfl) _ text)
  | countFailures => exact stays_plain (Modifier.sound_count (.inl rfl) _ text)
  | _ => exact .pure _

section

variable {table : Command.Table} {perform : Command → List Char → Task Hand Bool}
  (hp : ∀ c text, Stays (perform c text))

include hp

theorem stays_carryOut (c : Command) (text : List Char) : Stays (carryOut perform c text) := by
  refine .bind (hp c text) fun understood => ?_
  split
  · refine .bind (.modify fun h hh => ⟨?_, hh.numeric⟩) fun _ => .pause
    exact List.forall_mem_append.2 ⟨hh.written, List.forall_mem_singleton.2 ⟨_, rfl⟩⟩
  · exact .pause

theorem stays_carryOutAll (texts : List (List Char)) :
    Stays (carryOutAll table perform texts) := by
  rw [carryOutAll_eq_carryOutEach]
  induction texts.flatMap (Command.cut table) with
  | nil => exact .pure _
  | cons p ps ih => exact .bind (stays_carryOut hp p.1 p.2) fun _ => ih

/-- All modifiers of a regular hand can be carried out. -/
theorem stays_carryOutModifiers : Stays (carryOutModifiers table perform) := by
  refine .get_bind fun h hh => ?_
  have lowered : Outcome (fun _ => True) Error.IsExpected (h.modifiers.mapM lowerModifier) := by
    refine (Outcome.mapM (P := fun _ => True) fun m hm => ?_).mono (fun _ _ => trivial) fun _ => id
    obtain ⟨s, rfl⟩ := hh.written m hm
    trivial
  refine .ofExcept_bind lowered fun texts _ => .bind (.set ⟨?_, hh.numeric⟩) fun _ =>
    stays_carryOutAll hp texts
  exact List.forall_mem_nil _

end

end Hand

/-! ## Dice -/

namespace Dice

/-- Dice that cannot be rolled are refused. -/
theorem outcome_check (config : Config) (d : Dice) :
    Outcome (fun c => 1 ≤ c.faces) Error.IsOwn (d.check config) := by
  have number : Replies (checkNumber config d.number) := by
    unfold checkNumber
    split
    · exact rfl
    · split
      · exact rfl
      · split
        · exact rfl
        · trivial
  have faces : Replies (checkFaces d.faces) := by
    unfold checkFaces
    split
    · exact rfl
    · split
      · exact rfl
      · trivial
  have known : Replies (d.check config) := number.bind fun _ _ => faces.bind fun _ _ => trivial
  exact known.of_ok fun c => one_le_of_check

/-- **Rolling dice leaves a regular hand**, or fails as is expected. -/
theorem stays_roll (d : Dice) : Hand.Stays (d.roll context) := by
  refine .ofExcept_bind (outcome_check context.config d).expected fun c hc => ?_
  exact .bind (Hand.stays_rollMany d.kind hc c.number) fun _ =>
    Hand.stays_carryOutModifiers (Hand.stays_performOnDice d hc)

end Dice

end DiceFormula
