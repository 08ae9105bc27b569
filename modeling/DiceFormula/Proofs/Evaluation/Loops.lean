import DiceFormula.Evaluation.Roll
import DiceFormula.Proofs.Evaluation.Cap
import DiceFormula.Proofs.Evaluation.Congruence
import DiceFormula.Proofs.Evaluation.Result
import Mathlib.Algebra.Order.BigOperators.Group.List
import Mathlib.Algebra.Order.Group.Nat

/-!
# Rolling dice comes to an end

A walk over the results passes one of them at every step, and there are never more than the dice cap
allows (`Dice.rollMatchesFrom_add`); a run of letters gets shorter with every command that is cut off
(`Command.cutRun_add`). So the bounds that the definitions set to these loops are never what ends
them. What a single step of a walk may do is told by `Dice.Round`. There is a pause after every die
that is asked for and after every command (`Dice.pausesWithin_roll`).

All of this together says that evaluating dice always ends, and within the cap
(`Term.evaluation_of_dice_ends`).
-/

namespace DiceFormula

variable {context : Context} {kind : DiceKind} {faces : Int} {α : Type}

/-! ## Loops -/

/-- Wherever a die was rolled for a modifier, the hand is within the cap. -/
theorem Dice.ends_rollExtra (d : Dice) {h : Hand} (hh : h.results.length ≤ context.config.maxDice) :
    (d.rollExtra context faces h).Ends .any
      fun _ s _ => s.results.length ≤ context.config.maxDice := by
  have start : ∃ k, Hand.Within context (k, h) := by
    by_cases hm : context.mode = .random
    · exact ⟨h.results.length, hh, fun _ => rfl, fun hn => absurd hm hn⟩
    · exact ⟨0, hh, fun hr => absurd hr hm, fun _ => rfl⟩
  obtain ⟨k, hw⟩ := start
  refine (Hand.capped_rollExtra d k h hw).of_counted.ends.mono ?_
  rintro n s a ⟨k', hs⟩
  exact Hand.Within.cap hs

/-- **The walk over the results ends by itself.** Every round goes one place further, and there are
never more results than the cap allows. -/
theorem Dice.rollMatchesFrom_add (d : Dice) (reroll : Bool) (comparison target : Value)
    (reach : Reach) (fuel extra : Nat) :
    ∀ {i : Nat} {limit : Option Nat} {h : Hand}, h.results.length ≤ context.config.maxDice →
      context.config.maxDice < i + fuel →
      d.rollMatchesFrom context faces reroll comparison target reach (fuel + extra) i limit h
        = d.rollMatchesFrom context faces reroll comparison target reach fuel i limit h := by
  induction fuel with
  | zero =>
    intro i limit h hh hi
    have past : h.results[i]? = none := by
      apply List.getElem?_eq_none
      omega
    cases extra with
    | zero => rfl
    | succ extra =>
      simp only [rollMatchesFrom, Task.bind_apply, Task.get_apply, Steps.bind, past,
        ite_self]
  | succ fuel ih =>
    intro i limit h hh hi
    have next {limit : Option Nat} {h : Hand} (hh : h.results.length ≤ context.config.maxDice) :=
      @ih (i + 1) limit h hh (by omega)
    rw [Nat.succ_add]
    simp only [rollMatchesFrom, Task.bind_apply, Task.get_apply, Steps.bind]
    split
    · rfl
    · cases h.results[i]? with
      | none => rfl
      | some r =>
        dsimp only
        split
        · exact next hh
        · cases Comparison.apply comparison r.face target with
          | error e => rfl
          | ok met =>
            simp only [Task.ofExcept_ok, Task.bind_apply, Steps.bind]
            split
            · exact next hh
            · have marked : (h.results.set i (mark reroll r)).length
                  ≤ context.config.maxDice := by simpa using hh
              refine Steps.bind_congr
                (x := d.rollExtra context faces { h with results := h.results.set i _ })
                (d.ends_rollExtra marked) ?_
              intro n s _ hs
              exact next hs

/-- What a round of a walk does at place `i`, if `go` is what follows it: it stops, a comparison
fails, a result is passed by, or one is marked and one more die is rolled. -/
inductive Dice.Round (context : Context) (d : Dice) (faces : Int) (reroll : Bool)
    (comparison target : Value) (reach : Reach) (go : Option Nat → Task Hand Unit) (i : Nat)
    (limit : Option Nat) (h : Hand) : Steps Hand Unit → Prop
  | stop : inReach reach i = false ∨ limit = some 0 ∨ h.results[i]? = none →
      Round context d faces reroll comparison target reach go i limit h (.done h ())
  | fault {r : DieResult} {e : Error} : h.results[i]? = some r →
      Comparison.apply comparison r.face target = .error e →
      Round context d faces reroll comparison target reach go i limit h (.fail h e)
  | pass {r : DieResult} : inReach reach i = true → h.results[i]? = some r →
      r.isActive = false ∨ Comparison.apply comparison r.face target = .ok false →
      Round context d faces reroll comparison target reach go i limit h (go limit h)
  | follow {r : DieResult} : inReach reach i = true → limit ≠ some 0 → h.results[i]? = some r →
      r.isActive = true → Comparison.apply comparison r.face target = .ok true →
      Round context d faces reroll comparison target reach go i limit h
        ((d.rollExtra context faces { h with results := h.results.set i (mark reroll r) }).bind
          fun s _ => go (limit.map (· - 1)) s)

/-- **Every round of a walk is one of four.** -/
theorem Dice.round (context : Context) (d : Dice) (faces : Int) (reroll : Bool)
    (comparison target : Value) (reach : Reach) (fuel i : Nat) (limit : Option Nat) (h : Hand) :
    Round context d faces reroll comparison target reach
      (d.rollMatchesFrom context faces reroll comparison target reach fuel (i + 1)) i limit h
      (d.rollMatchesFrom context faces reroll comparison target reach (fuel + 1) i limit h) := by
  simp only [rollMatchesFrom, Task.bind_apply, Task.get_apply, Steps.bind]
  by_cases inside : inReach reach i = true
  case neg => simpa [inside] using Round.stop (.inl (Bool.eq_false_iff.2 inside))
  by_cases more : limit = some 0
  case pos => simpa [more] using Round.stop (.inr (.inl more))
  simp only [inside, beq_eq_false_iff_ne.2 more, Bool.not_true, Bool.or_false, Bool.false_eq_true,
    if_false]
  cases place : h.results[i]? with
  | none => exact .stop (.inr (.inr place))
  | some r =>
    by_cases active : r.isActive = true
    case neg => simpa [active] using Round.pass inside place (.inl (Bool.eq_false_iff.2 active))
    simp only [active, Bool.not_true, Bool.false_eq_true, if_false]
    cases compared : Comparison.apply comparison r.face target with
    | error e => exact .fault place compared
    | ok met =>
      cases met with
      | false => exact .pass inside place (.inr compared)
      | true => exact .follow inside more place active compared

namespace Hand

variable {table : Command.Table} {perform : Command → List Char → Task Hand Bool}

/-! ## Pauses -/

/-- The task does not pause. -/
abbrev Pauseless (task : Task Hand α) : Prop := ∀ h, (task h).PausesWithin 0

theorem closed_pauseless : Closed Pauseless where
  pure := fun _ _ => trivial
  bind := fun ht hf h => (ht h).bind fun s a => hf a s
  get_bind := fun hf h => hf h h
  fail := fun _ _ => trivial
  ofExcept := by
    intro α x h
    cases x <;> exact trivial
  setResult := fun _ _ _ => trivial
  plain := by
    intro f _ h
    simp only [plain, Task.bind_apply, Task.get_apply, Steps.bind]
    cases f h.results with
    | none => exact trivial
    | some c =>
      simp only [Task.bind_apply, Task.set_apply, Steps.bind]
      cases c.fault <;> exact trivial

theorem pauseless_rollOne : Pauseless (Dice.rollOne context kind faces) := by
  intro h
  simp only [Dice.rollOne, Dice.face]
  cases context.mode with
  | minimum | maximum => exact trivial
  | random =>
    intro x
    cases x with
    | none => exact trivial
    | some x =>
      simp only [Steps.bind]
      cases Dice.faceOfDraw kind faces x <;> exact trivial

theorem pausesWithin_rollMany (n : Nat) (h : Hand) :
    (Dice.rollMany context kind faces n h).PausesWithin n := by
  induction n generalizing h with
  | zero => exact trivial
  | succ n ih =>
    have one : (Dice.rollOne context kind faces h).PausesWithin 0 := pauseless_rollOne h
    refine (one.bind (m := n + 1) ?_).mono (by omega)
    intro s _
    exact ⟨Nat.succ_pos n, ih s⟩

section

variable (hp : ∀ c text, Pauseless (perform c text))

include hp

theorem pausesWithin_carryOut (c : Command) (text : List Char) (h : Hand) :
    (carryOut perform c text h).PausesWithin 1 := by
  refine (hp c text h).bind (m := 1) ?_
  intro s understood
  cases understood <;> exact ⟨Nat.one_pos, trivial⟩

theorem pausesWithin_carryOutEach (ps : List Command.Written) (h : Hand) :
    (carryOutEach perform ps h).PausesWithin ps.length := by
  induction ps generalizing h with
  | nil => exact trivial
  | cons p ps ih =>
    refine ((pausesWithin_carryOut hp p.1 p.2 h).bind fun s _ => ih s).mono ?_
    rw [List.length_cons, Nat.add_comm]

/-- There is a pause for every command that is cut off, and none of them is empty. -/
theorem pausesWithin_carryOutAll (proper : ∀ e ∈ table, e.1 ≠ "") (texts : List (List Char))
    (h : Hand) :
    (carryOutAll table perform texts h).PausesWithin (texts.map List.length).sum := by
  rw [carryOutAll_eq_carryOutEach]
  refine (pausesWithin_carryOutEach hp _ h).mono ?_
  rw [List.length_flatMap]
  exact List.sum_le_sum fun text _ => Command.length_cut_le proper text

end

/-- To roll a die does not touch what is asked of it. -/
theorem preserves_rollOne (ms : List Value) :
    Task.Preserves (fun h : Hand => h.modifiers = ms) (Dice.rollOne context kind faces) := by
  refine .bind ?_ fun _ => .modify fun _ => id
  unfold Dice.face
  split
  · exact .pure _
  · exact .pure _
  · exact .bind (fun _ h => Task.meets_draw (fun _ => h) h) fun _ => .ofExcept _

theorem preserves_rollMany (ms : List Value) (n : Nat) :
    Task.Preserves (fun h : Hand => h.modifiers = ms) (Dice.rollMany context kind faces n) := by
  induction n with
  | zero => exact .pure _
  | succ n ih => exact .bind (preserves_rollOne ms) fun _ => .bind .pause fun _ => ih

end Hand

theorem Command.ne_empty_of_mem_ofKind (kind : DiceKind) : ∀ e ∈ ofKind kind, e.1 ≠ "" := by
  cases kind <;> decide

theorem Hand.mapM_lowerModifier (ms : List String) :
    (ms.map Value.str).mapM lowerModifier = .ok (ms.map fun m => Case.lower m.toList) := by
  induction ms with
  | nil => rfl
  | cons m ms ih => simp [lowerModifier, Config.textOf, ih]

/-- **Dice pause once for every die and for every command of a modifier.** -/
theorem Dice.pausesWithin_roll (d : Dice) {ms : List String} {h : Hand}
    (modifiers : h.modifiers = ms.map .str) :
    (d.roll context h).PausesWithin
      (context.config.maxDice + (ms.map fun m => (Case.lowerString m).length).sum) := by
  simp only [roll, check]
  cases hn : checkNumber context.config d.number with
  | error e => exact trivial
  | ok n =>
    cases checkFaces d.faces with
    | error e => exact trivial
    | ok faces =>
      have room := le_of_checkNumber hn
      refine ((Hand.pausesWithin_rollMany n h).bind_of_meets
        (Hand.preserves_rollMany _ n h modifiers) ?_).mono (Nat.add_le_add_right room _)
      intro s _ (hs : s.modifiers = _)
      simp only [Hand.carryOutModifiers, Task.bind_apply, Task.get_apply, Steps.bind, hs,
        Hand.mapM_lowerModifier, Task.ofExcept_ok, Task.set_apply]
      have extra : Hand.Pauseless (d.rollExtra context faces) :=
        Hand.closed_pauseless.rollExtra Hand.pauseless_rollOne
      have pauses := Hand.pausesWithin_carryOutAll (Hand.closed_pauseless.performOnDice extra)
        (Command.ne_empty_of_mem_ofKind d.kind) (ms.map fun m => Case.lower m.toList)
      simpa [Case.lowerString, Function.comp_def] using pauses _

/-! ## Dice as a term -/

/-- The loops on dice end by themselves: it makes no difference how large the bound on their rounds
is, once it is large enough. -/
structure Dice.LoopsEnd (context : Context) (d : Dice) : Prop where
  walk : ∀ faces reroll comparison target reach fuel limit (h : Hand),
    h.results.length ≤ context.config.maxDice → context.config.maxDice < fuel →
      d.rollMatchesFrom context faces reroll comparison target reach fuel 0 limit h
        = d.rollMatchesFrom context faces reroll comparison target reach
            (max h.results.length context.config.maxDice + 1) 0 limit h
  cut : ∀ perform fuel letters, List.length letters ≤ fuel →
    Hand.carryOutRun (Command.ofKind d.kind) perform fuel letters
      = Hand.carryOutRun (Command.ofKind d.kind) perform letters.length letters

theorem Dice.loopsEnd (d : Dice) : d.LoopsEnd context where
  walk := by
    intro faces reroll comparison target reach fuel limit h hh hfuel
    have bound : max h.results.length context.config.maxDice = context.config.maxDice :=
      Nat.max_eq_right hh
    obtain ⟨extra, rfl⟩ := Nat.exists_eq_add_of_le (Nat.succ_le_of_lt hfuel)
    rw [bound]
    exact d.rollMatchesFrom_add reroll comparison target reach _ extra hh (by omega)
  cut := by
    intro perform fuel letters hfuel
    obtain ⟨extra, rfl⟩ := Nat.exists_eq_add_of_le hfuel
    rw [Hand.carryOutRun_eq_carryOutEach, Hand.carryOutRun_eq_carryOutEach,
      Command.cutRun_add (Command.ne_empty_of_mem_ofKind d.kind) _ extra (Nat.le_refl _)]

namespace Term

/-- The evaluation of dice that wait is that of their hand. -/
theorem evaluation_dice (context : Context) (d : Dice) (options : Options) (config : Config) :
    evaluation context (Term.make (.dice d) options config)
      = ((d.roll context d.hand).mapState fun hand =>
          ((Term.make (.dice { d with hand }) options config).setMark (.bool true))).onStop
            fun t => .clean t.rollback := rfl

/-- **Dice keep to the cap as a term.** -/
theorem meets_evaluation_dice (context : Context) {d : Dice} (empty : d.hand.results = [])
    (options : Options) (config : Config) :
    ((evaluation context (Term.make (.dice d) options config)).counted 0).Meets
      { seen := fun s => Hand.Within context (s.1, s.2.hand)
        left := Left.Holds fun s => s.2.hand.results = []
        done := fun s _ => Hand.Within context (s.1, s.2.hand)
        fail := fun s e => Hand.Within context (s.1, s.2.hand)
          ∨ ∃ n, d.faces.int? = some n ∧ Hand.Failed context d.kind n (s.1, s.2.hand) e } := by
  rw [evaluation_dice, Steps.counted_onStop, Steps.counted_mapState]
  refine Steps.Meets.onStop (Steps.Meets.mapState ?_)
  rcases @Dice.capped_roll context d d.hand empty with ⟨e, -, failed⟩ | ⟨c, hc, capped⟩
  · rw [failed]
    refine Or.inl ?_
    constructor <;> simp [hand, setMark, Term.make, empty]
  · refine capped.mono ?_ ?_ ?_ ?_
    · exact fun _ => id
    · intro l hl
      cases l with
      | clean s => rfl
      | broken s e => exact hl
    · exact fun _ _ => id
    · exact fun _ _ h => .inr ⟨c.faces, (Dice.of_check hc).2, h⟩

section

variable (context : Context) {d : Dice} (empty : d.hand.results = []) (options : Options)
  (config : Config) (src : Source)

include empty

/-- However an evaluation is ended, the dice keep to the cap. -/
theorem length_results_run_le (rule : StopRule) :
    ((evaluation context (Term.make (.dice d) options config)).run rule
      src).state.hand.results.length ≤ context.config.maxDice := by
  have allowed := Steps.allows_run rule (meets_evaluation_dice context empty options config) src
  rw [Steps.run_counted, Contract.Allows] at allowed
  cases hending : ((evaluation context (Term.make (.dice d) options config)).run rule src).ending with
  | finished a =>
    rw [hending] at allowed
    exact Hand.Within.cap allowed
  | failed e =>
    rw [hending] at allowed
    rcases allowed with (within | ⟨n, -, failed⟩) | broken
    · exact within.cap
    · exact failed.cap
    · exact absurd broken id
  | stopped =>
    rw [hending] at allowed
    have none : ((evaluation context (Term.make (.dice d) options config)).run rule
      src).state.hand.results = [] := allowed
    simp [none]

/-- An evaluation that is left alone ends with a result for every draw, or because of a draw that
gives no face. -/
theorem within_or_faceless_run :
    let report := (evaluation context (Term.make (.dice d) options config)).run .never src
    let draws := report.source.used - src.used
    Hand.Within context (draws, report.state.hand)
      ∨ ∃ e n y, report.ending = .failed e ∧ context.mode = .random
        ∧ draws = report.state.hand.results.length + 1
        ∧ d.faces.int? = some n ∧ Dice.faceOfDraw d.kind n y = .error e := by
  intro report draws
  have allowed := Steps.allows_run .never (meets_evaluation_dice context empty options config) src
  rw [Steps.run_counted, Contract.Allows] at allowed
  cases hending : report.ending with
  | finished a =>
    rw [show Report.ending _ = _ from hending] at allowed
    exact .inl allowed
  | failed e =>
    rw [show Report.ending _ = _ from hending] at allowed
    rcases allowed with (within | ⟨n, hn, within | ⟨random, before, last, faceless⟩⟩) | broken
    · exact .inl within
    · exact .inl within
    · exact .inr ⟨e, n, _, rfl, random, last.trans (congrArg (· + 1) (before.random random).symm),
        hn, faceless⟩
    · exact absurd broken id
  | stopped => exact absurd hending (Steps.ending_run_ne_stopped _ src)

/-- No more draws are made than results are kept, but one. -/
theorem draws_run_le :
    ((evaluation context (Term.make (.dice d) options config)).run .never src).source.used
      - src.used ≤ context.config.maxDice + 1 := by
  have kept := length_results_run_le context empty options config src .never
  rcases within_or_faceless_run context empty options config src with
    within | ⟨-, -, -, -, -, last, -⟩
  · by_cases random : context.mode = .random
    · have few := within.cap
      have each := within.random random
      omega
    · have none := within.fixed random
      omega
  · omega

end

/-- **Evaluating dice always ends, and never with more results than the cap allows.** The dice may
be of any kind, number and faces, and be asked for any modifiers. On every source the evaluation
ends by itself, by a result or an error, after a bounded number of draws and pauses; the bounds on
the rounds of its loops have no part in this. At every pause and at the end, stopped or not, there are
no more results than the cap allows. In a random evaluation there are as many as draws were made,
unless the error was that the last draw gave no face. -/
theorem evaluation_of_dice_ends (context : Context) (kind : DiceKind) (number faces : Value)
    (modifiers : List String) (options : Options) (config : Config) (src : Source) :
    let d : Dice := { kind, number, faces, hand := { modifiers := modifiers.map .str } }
    let x := evaluation context (Term.make (.dice d) options config)
    let report := x.run .never src
    let draws := report.source.used - src.used
    report.ending ≠ .stopped
      ∧ draws ≤ context.config.maxDice + 1
      ∧ report.points.length
          ≤ context.config.maxDice + (modifiers.map fun m => (Case.lowerString m).length).sum
      ∧ d.LoopsEnd context
      ∧ (∀ s ∈ (x.counted 0).suspensions src, Hand.Within context (s.1, s.2.hand))
      ∧ (∀ rule, (x.run rule src).state.hand.results.length ≤ context.config.maxDice)
      ∧ (Hand.Within context (draws, report.state.hand)
        ∨ ∃ e n y, report.ending = .failed e ∧ context.mode = .random
          ∧ draws = report.state.hand.results.length + 1
          ∧ faces.int? = some n ∧ Dice.faceOfDraw kind n y = .error e) := by
  intro d x report draws
  have pauses : x.PausesWithin _ := (d.pausesWithin_roll rfl).mapState.onStop
  have seen := (meets_evaluation_dice context (d := d) rfl options config).suspensions src
  exact ⟨x.ending_run_ne_stopped src, draws_run_le context rfl options config src,
    pauses.run .never src, d.loopsEnd, seen,
    length_results_run_le context rfl options config src,
    within_or_faceless_run context rfl options config src⟩

end Term

end DiceFormula
