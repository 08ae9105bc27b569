import DiceFormula.Proofs.Evaluation.Follows
import DiceFormula.Proofs.Evaluation.Loops

/-!
# The course of results

Results change while dice are rolled: a die comes to them, or a command changes each of them. A
relation of the results before to the results after that allows for both, and for any number of such
changes, is a `DieResult.Course`. All that is done with dice keeps to it, from every state that is
shown to the next one (`Hand.Takes`), whatever is drawn and whatever the modifiers are
(`Dice.takes_roll`).
-/

namespace DiceFormula

open List (Forall₂)

/-- A relation of results that dice of a kind keep to, as long as they show faces as `shown` and
carry out commands as `may`. -/
structure DieResult.Course (kind : DiceKind) (shown : Int → Prop) (may : Command → Prop)
    (R : List DieResult → List DieResult → Prop) : Prop where
  refl : ∀ rs, R rs rs
  trans : ∀ {rs ss ts}, R rs ss → R ss ts → R rs ts
  roll : ∀ rs n, shown n → R rs (rs ++ [Dice.resultOf kind n])
  change : ∀ {c rs ss}, may c → Forall₂ c.Makes rs ss → R rs ss

/-- What is true of every fresh result, and stays true whatever a command makes of it, stays true of
all results. -/
theorem DieResult.Course.of_forall {kind : DiceKind} {shown : Int → Prop} {may : Command → Prop}
    {P : DieResult → Prop} (fresh : ∀ n, shown n → P (Dice.resultOf kind n))
    (makes : ∀ {c r s}, may c → c.Makes r s → P r → P s) :
    Course kind shown may fun rs ss => (∀ r ∈ rs, P r) → ∀ r ∈ ss, P r where
  refl _ := id
  trans h h' := h' ∘ h
  roll := by
    intro rs n hn all
    exact List.forall_mem_append.2 ⟨all, List.forall_mem_singleton.2 (fresh n hn)⟩
  change := by
    intro c rs ss hc changed
    exact forall_of_forall₂ (fun _ _ h => makes hc h) changed

/-- The faces that may show are as `shown`, whatever is drawn that satisfies `drawn`. -/
structure Dice.Shows (drawn : Option Float → Prop) (kind : DiceKind) (faces : Int)
    (shown : Int → Prop) : Prop where
  lowest : shown (lowestFace kind)
  highest : shown (highestFace kind faces)
  ofDraw : ∀ x n, drawn (some x) → faceOfDraw kind faces x = .ok n → shown n

theorem Hand.shows_any (kind : DiceKind) (faces : Int) :
    Dice.Shows (fun _ => True) kind faces fun _ => True := ⟨trivial, trivial, fun _ _ _ _ => trivial⟩

namespace Hand

variable {drawn : Option Float → Prop} {R : List DieResult → List DieResult → Prop}
  {kind : DiceKind} {shown : Int → Prop} {may : Command → Prop} {context : Context} {α : Type}

/-- How hands follow each other if their results do. -/
def Moves (R : List DieResult → List DieResult → Prop) (h s : Hand) : Prop := R h.results s.results

/-- From every state that the task shows to the next one, results keep to the relation. -/
abbrev Takes (drawn : Option Float → Prop) (R : List DieResult → List DieResult → Prop)
    (task : Task Hand α) : Prop := Task.Follows drawn (Moves R) task

section

variable (hR : DieResult.Course kind shown may R)

include hR

theorem Moves.isTrans : IsTrans Hand (Moves R) := ⟨fun _ _ _ => hR.trans⟩

theorem Moves.isRefl : Std.Refl (Moves R) := ⟨fun h => hR.refl h.results⟩

theorem takes_pure (a : α) : Takes drawn R (pure a : Task Hand α) :=
  have := Moves.isRefl hR
  .pure a

theorem takes_bind {β : Type} {t : Task Hand α} {f : α → Task Hand β} (ht : Takes drawn R t)
    (hf : ∀ a, Takes drawn R (f a)) : Takes drawn R (t >>= f) :=
  have := Moves.isTrans hR
  .bind ht hf

/-! ## Rolling -/

variable {faces : Int} (shows : Dice.Shows drawn kind faces shown)

include shows

theorem takes_rollOne : Takes drawn R (Dice.rollOne context kind faces) := by
  intro h
  simp only [Dice.rollOne, Dice.face]
  cases context.mode with
  | minimum => exact hR.roll _ _ shows.lowest
  | maximum => exact hR.roll _ _ shows.highest
  | random =>
    intro x hx
    cases x with
    | none => exact hR.refl _
    | some x =>
      simp only [Steps.bind]
      cases hf : Dice.faceOfDraw kind faces x with
      | error e => exact hR.refl _
      | ok n => exact hR.roll _ _ (shows.ofDraw x n hx hf)

theorem takes_rollMany (n : ℕ) : Takes drawn R (Dice.rollMany context kind faces n) := by
  have := Moves.isRefl hR
  induction n with
  | zero => exact takes_pure hR ()
  | succ n ih =>
    exact takes_bind hR (takes_rollOne hR shows) fun _ => takes_bind hR .pause fun _ => ih

end

section

variable {d : Dice} (hR : DieResult.Course d.kind shown may R) {faces : Int}
  (shows : Dice.Shows drawn d.kind faces shown)

include hR shows

theorem takes_rollExtra : Takes drawn R (d.rollExtra context faces) := by
  intro h
  simp only [Dice.rollExtra, Task.bind_apply, Task.get_apply, Steps.bind]
  split
  · exact hR.refl _
  · exact takes_rollOne hR shows h

/-- A walk over the results marks some of them, and rolls a die for each. -/
theorem takes_rollMatchesFrom {c : Command} (hc : may c) {reroll : Bool}
    (makes : ∀ r : DieResult, r.isActive = true → c.Makes r (Dice.mark reroll r))
    (comparison target : Value) (reach : Dice.Reach) (fuel : ℕ) :
    ∀ (i : ℕ) (limit : Option ℕ),
      Takes drawn R (d.rollMatchesFrom context faces reroll comparison target reach fuel i limit) := by
  have := Moves.isTrans hR
  induction fuel with
  | zero => exact fun _ _ => takes_pure hR ()
  | succ fuel ih =>
    intro i limit h
    have round := Dice.round context d faces reroll comparison target reach fuel i limit h
    generalize d.rollMatchesFrom context faces reroll comparison target reach (fuel + 1) i limit h = x
      at round ⊢
    cases round with
    | stop => exact hR.refl _
    | fault => exact hR.refl _
    | pass => exact ih (i + 1) limit h
    | follow _ _ place active =>
      have marked : Moves R h { h with results := h.results.set i (Dice.mark reroll _) } :=
        hR.change hc (forall₂_set (.leave c) place (makes _ active))
      exact .of_trans marked ((takes_rollExtra hR shows _).bind fun s _ => ih _ _ s)

theorem takes_rollMatches {c : Command} (hc : may c) {reroll : Bool}
    (makes : ∀ r : DieResult, r.isActive = true → c.Makes r (Dice.mark reroll r))
    (recursive : Bool) (m : Modifier.Matching) (default : Int) :
    Takes drawn R (d.rollMatches context faces reroll recursive m default) :=
  fun h => takes_rollMatchesFrom hR shows hc makes _ _ _ _ _ _ h

end

/-! ## Modifiers -/

section

variable (hR : DieResult.Course kind shown may R)

include hR

theorem takes_plain {c : Command} (hc : may c) {f : List DieResult → Modifier.Outcome}
    (does : Modifier.Does c f) : Takes drawn R (plain f) := by
  intro h
  simp only [plain, Task.bind_apply, Task.get_apply, Steps.bind]
  cases out : f h.results with
  | none => exact hR.refl _
  | some change =>
    have moves : Moves R h { h with results := change.state } := hR.change hc (does _ _ out)
    simp only [Task.bind_apply, Task.set_apply, Steps.bind]
    cases change.fault with
    | none => exact moves
    | some e => exact moves

theorem takes_carryOut {perform : Performing} {c : Command} {text : List Char}
    (hp : Takes drawn R (perform c text)) : Takes drawn R (carryOut perform c text) := by
  have := Moves.isRefl hR
  refine takes_bind hR hp ?_
  intro understood
  split
  · exact takes_bind hR (.modify fun h => hR.refl h.results) fun _ => .pause
  · exact .pause

theorem takes_carryOutEach {perform : Performing} {ps : List Command.Written}
    (hp : ∀ p ∈ ps, Takes drawn R (perform p.1 p.2)) :
    Takes drawn R (carryOutEach perform ps) := by
  induction ps with
  | nil => exact takes_pure hR ()
  | cons p ps ih =>
    obtain ⟨hp, hps⟩ := List.forall_mem_cons.1 hp
    exact takes_bind hR (takes_carryOut hR hp) fun _ => ih hps

end

section

variable {d : Dice} (hR : DieResult.Course d.kind shown may R) {faces : Int}
  (shows : Dice.Shows drawn d.kind faces shown)

include hR shows

/-- **Whatever command dice carry out, they keep to the course of it.** -/
theorem takes_performOnDice {c : Command} (hc : may c) (text : List Char) :
    Takes drawn R (performOnDice context d faces c text) := by
  cases c with
  | reroll recursive =>
    simp only [performOnDice, Dice.reroll]
    split
    · exact takes_pure hR false
    · exact takes_bind hR (takes_rollMatches hR shows hc (fun _ => .reroll recursive) _ _ _)
        fun _ => takes_pure hR true
  | explode recursive =>
    simp only [performOnDice, Dice.explode]
    split
    · exact takes_pure hR false
    · exact takes_bind hR (takes_rollMatches hR shows hc (fun r _ => .explode recursive r) _ _ _)
        fun _ => takes_pure hR true
  | keep => exact takes_plain hR hc (Modifier.does_keep text)
  | drop => exact takes_plain hR hc (Modifier.does_drop text)
  | minimum => exact takes_plain hR hc (Modifier.does_minimum text)
  | maximum => exact takes_plain hR hc (Modifier.does_maximum text)
  | parity even => exact takes_plain hR hc (Modifier.does_parity even)
  | countSuccesses => exact takes_plain hR hc (Modifier.does_count .countSuccesses _ text)
  | countFailures => exact takes_plain hR hc (Modifier.does_count .countFailures _ text)
  | deductFailures => exact takes_plain hR hc (Modifier.does_deduct .deductFailures _ text)
  | subtractFailures => exact takes_plain hR hc (Modifier.does_deduct .subtractFailures _ text)
  | call => exact takes_plain hR hc (Modifier.does_callSide text)

end

/-- What stays true of all results whatever is drawn is an invariant. -/
theorem preserves_of_takes {P : DieResult → Prop} {task : Task Hand α}
    (h : Takes (fun _ => True) (fun rs ss => (∀ r ∈ rs, P r) → ∀ r ∈ ss, P r) task) :
    Task.Preserves (fun h => ∀ r ∈ h.results, P r) task := fun s hs => (h s).meets hs

end Hand

/-- **Dice keep to the course of all their commands.** -/
theorem Dice.takes_roll {drawn : Option Float → Prop} {R : List DieResult → List DieResult → Prop}
    {shown : Int → Prop} {context : Context} {d : Dice}
    (hR : DieResult.Course d.kind shown (fun _ => True) R)
    (shows : ∀ c, d.check context.config = .ok c → Dice.Shows drawn d.kind c.faces shown) :
    Hand.Takes drawn R (d.roll context) := by
  have := Hand.Moves.isTrans hR
  intro h
  simp only [roll, Task.bind_apply]
  cases checked : d.check context.config with
  | error e => exact hR.refl _
  | ok c =>
    simp only [Task.ofExcept_ok, Steps.bind]
    have shows := shows c checked
    refine Hand.takes_bind hR (Hand.takes_rollMany hR shows c.number) ?_ h
    intro _ s
    simp only [Hand.carryOutModifiers, Task.bind_apply, Task.get_apply, Steps.bind]
    cases s.modifiers.mapM Hand.lowerModifier with
    | error e => exact hR.refl _
    | ok texts =>
      simp only [Task.ofExcept_ok, Task.set_apply, Steps.bind, Hand.carryOutAll_eq_carryOutEach]
      have same : Hand.Moves R s { s with modifiers := [] } := hR.refl s.results
      exact .of_trans same (Hand.takes_carryOutEach hR
        (fun p _ => Hand.takes_performOnDice hR shows trivial p.2) { s with modifiers := [] })

/-- The history of dice as a term is that of their hand. -/
theorem Term.history_hand (context : Context) (d : Dice) (options : Options) (config : Config)
    (src : Source) :
    ((evaluation context (Term.make (.dice d) options config)).history src).map Term.hand
      = (d.roll context d.hand).history src := by
  rw [evaluation_dice, Steps.history_onStop, Steps.history_mapState, List.map_map]
  exact List.map_id _

end DiceFormula
