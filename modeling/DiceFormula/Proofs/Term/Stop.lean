import DiceFormula.Proofs.Evaluation.Leaving
import DiceFormula.Proofs.Evaluation.Loops
import DiceFormula.Proofs.Roll.Bounds
import DiceFormula.Proofs.Term.Record

/-!
# Stopping the evaluation of a term

A term that is evaluated by itself can be stopped at every pause, and is then left without a mark,
without results and without rolls. Its modifiers are not restored: they are taken off the term when
the first one is carried out, and put back one by one (`Term.Untouched.stop_leaves`). So what is left
is the term itself as long as none has been carried out: if there are none, as long as dice and
members are rolled, and for all terms that know no modifiers. After that it is the term with the
modifiers that have been carried out so far.
-/

namespace DiceFormula

variable {context : Context} {inner : RollEvaluation} {config : Config}

namespace Term

/-! ## Terms of which nothing has been evaluated -/

/-- Nothing of the term has been evaluated. -/
structure Untouched (t : Term) : Prop where
  rollback : t.rollback = t
  group : t.groupRoll? = none

/-- The term with other modifiers, if it is dice or a pool. -/
def withModifiers (ms : List Value) (t : Term) : Term := t.setHand { t.hand with modifiers := ms }

/-- The term without the roll of a group. -/
def withoutRoll (t : Term) : Term :=
  match t.body with
  | .group source _ => { t with body := .group source none }
  | _ => t

/-- What evaluation leaves as it is. -/
def bare (t : Term) : Term := t.rollback.withoutRoll.withModifiers []

theorem withModifiers_self (t : Term) : t.withModifiers t.hand.modifiers = t := by
  obtain ⟨body, l, carried⟩ := t
  cases body <;> rfl

theorem withModifiers_withModifiers (ms ns : List Value) (t : Term) :
    (t.withModifiers ms).withModifiers ns = t.withModifiers ns := by
  obtain ⟨body, l, carried⟩ := t
  cases body <;> rfl

theorem modifiers_rollback (t : Term) : t.rollback.hand.modifiers = t.hand.modifiers := by
  obtain ⟨body, l, carried⟩ := t
  cases body <;> rfl

theorem withoutRoll_rollback {t : Term} (h : t.groupRoll? = none) :
    t.rollback.withoutRoll = t.rollback := by
  obtain ⟨body, l, carried⟩ := t
  cases body with
  | group source roll =>
    obtain rfl : roll = none := h
    rfl
  | _ => rfl

theorem termClass_bare (t : Term) : t.bare.termClass = t.termClass := by
  obtain ⟨body, l, carried⟩ := t
  cases body <;> rfl

/-- All that evaluation does to a term leaves the bare term. -/
theorem lasting_bare (t : Term) : Lasting fun u => u.bare = t.bare where
  setMark := @fun ⟨body, _, _⟩ h _ => by cases body <;> exact h
  addRoll := @fun ⟨body, _, _⟩ h _ => by cases body <;> exact h
  setResult := @fun ⟨body, _, _⟩ h _ => by cases body <;> exact h
  setGroupRoll := @fun ⟨body, _, _⟩ h _ => by cases body <;> exact h
  setHand := @fun ⟨body, _, _⟩ h _ => by cases body <;> exact h

theorem hand_of_termClass {t : Term} (pool : t.termClass ≠ .pool)
    (dice : ∀ kind, t.termClass ≠ .dice kind) : t.hand = {} := by
  obtain ⟨body, l, carried⟩ := t
  cases body with
  | pool args rolls hand => exact absurd rfl pool
  | dice d => exact absurd rfl (dice d.kind)
  | _ => rfl

theorem Untouched.rolls_of_pool {args : List String} {rolls : List Roll} {hand : Hand} {l : Label}
    {carried : List Term} (h : Untouched ⟨.pool args rolls hand, l, carried⟩) : rolls = [] :=
  (congrArg Term.rolls h.rollback).symm

/-- What is left of an untouched term by rolling it back are its modifiers as they stand. -/
theorem Untouched.rollback_of_bare {t u : Term} (h : t.Untouched) (same : u.bare = t.bare)
    (none : u.groupRoll? = none) : u.rollback = t.withModifiers u.hand.modifiers :=
  calc u.rollback
      = u.rollback.withModifiers u.rollback.hand.modifiers := (withModifiers_self _).symm
    _ = (u.rollback.withModifiers []).withModifiers u.hand.modifiers := by
      rw [modifiers_rollback, withModifiers_withModifiers]
    _ = u.bare.withModifiers u.hand.modifiers := by rw [bare, withoutRoll_rollback none]
    _ = t.withModifiers u.hand.modifiers := by
      rw [same, bare, withoutRoll_rollback h.group, h.rollback, withModifiers_withModifiers]

theorem Read.untouched {t : Term} (h : t.Read config) : t.Untouched := by
  obtain ⟨formula, data, p, hp, ht⟩ := h
  have fresh := (Formula.fresh_of_parse hp).2 t ht
  have results := Formula.results_of_parse hp t ht
  have rolls := fresh.rolls
  have mark := fresh.mark
  obtain ⟨body, ⟨options, _, tag, _⟩, carried⟩ := t
  obtain rfl : _ = Value.bool false := mark
  have content := fresh.storable.2.1
  cases body with
  | group source roll =>
    obtain ⟨-, rfl⟩ := content
    exact ⟨rfl, rfl⟩
  | call fn args rolls result =>
    obtain ⟨-, -, rfl, rfl⟩ := content
    exact ⟨rfl, rfl⟩
  | pool args rolls' hand =>
    obtain rfl : rolls' = [] := rolls
    obtain ⟨modifiers, results'⟩ := hand
    obtain rfl : results' = [] := results
    exact ⟨rfl, rfl⟩
  | dice d =>
    obtain ⟨kind, number, faces, modifiers, results'⟩ := d
    obtain rfl : results' = [] := results
    exact ⟨rfl, rfl⟩
  | _ => exact ⟨rfl, rfl⟩

/-! ## What is seen of a term -/

theorem groupRoll?_of_termClass {t : Term} (h : t.termClass ≠ .group) : t.groupRoll? = none := by
  obtain ⟨body, l, carried⟩ := t
  cases body with
  | group source roll => exact absurd rfl h
  | _ => rfl

/-- At its pauses the content of an untouched term shows what is rolled back to the term. -/
theorem seen_evaluateBody {t : Term} (h : t.Untouched) :
    (evaluateBody inner context t.body (t.setMark (.bool true))).Meets
      { seen := fun u => u.rollback = t.withModifiers u.hand.modifiers } := by
  have start : (t.setMark (.bool true)).bare = t.bare := (lasting_bare t).setMark rfl _
  by_cases group : t.termClass = .group
  · -- a group gets its roll after the last pause
    obtain ⟨body, l, carried⟩ := t
    cases body with
    | group source roll =>
      obtain rfl : roll = none := h.group
      have formula : Task.Preserves (· = setMark (.bool true) ⟨.group source none, l, carried⟩)
          (evaluateFormula inner context source) := Lasting.preserves_evaluateFormula source
      refine Steps.Meets.bind (Q := fun _ _ => True)
        ((formula _ rfl).mono ?_ (fun _ _ => trivial) (fun _ _ _ => trivial) fun _ _ _ => trivial)
        fun _ _ _ => trivial
      rintro u rfl
      exact h.rollback_of_bare start rfl
    | _ => cases group
  · have seen : (evaluateBody inner context t.body (t.setMark (.bool true))).Meets _ :=
      (lasting_bare t).preserves_evaluateBody t.body _ start
    refine seen.mono ?_ (fun _ _ => trivial) (fun _ _ _ => trivial) fun _ _ _ => trivial
    intro u same
    refine h.rollback_of_bare same (groupRoll?_of_termClass ?_)
    rwa [← termClass_bare, same, termClass_bare]

/-- What a term shows at its pauses is what its content shows. -/
theorem shown_evaluateBody {t u : Term} {src : Source} {k : Nat}
    (shown : ((Term.evaluationBy inner context t).suspensions src)[k]? = some u) :
    ((evaluateBody inner context t.body (t.setMark (.bool true))).suspensions src)[k]?
      = some u := by
  obtain ⟨body, l, carried⟩ := t
  simp only [Term.evaluationBy, Task.bind_apply, Task.get_apply, Steps.bind] at shown
  cases body with
  | text v => cases shown
  | _ =>
    dsimp only at shown
    split at shown
    · cases shown
    · rw [← shown]
      exact congrArg (·[k]?)
        (Steps.suspensions_onStop (fun t : Term => .clean t.rollback) _ src).symm

/-- What a term that waits shows at its pauses is what its content shows. -/
theorem meets_evaluationBy_of_seen {seen : Term → Prop} {t : Term}
    (h : (evaluateBody inner context t.body (t.setMark (.bool true))).Meets { seen }) :
    (Term.evaluationBy inner context t).Meets { seen } := by
  obtain ⟨body, l, carried⟩ := t
  simp only [Term.evaluationBy, Task.bind_apply, Task.get_apply, Steps.bind]
  cases body with
  | text v => trivial
  | _ =>
    dsimp only
    split
    · trivial
    · exact Steps.Meets.onStop_of_seen h

end Term

/-! ## Before the first modifier -/

namespace Hand

variable {table : Command.Table} {perform : Command → List Char → Task Hand Bool}

/-- Where there are no modifiers, nothing is carried out. -/
theorem carryOutModifiers_of_nil {h : Hand} (empty : h.modifiers = []) :
    carryOutModifiers table perform h = .done h () := by
  obtain ⟨modifiers, results⟩ := h
  obtain rfl : modifiers = [] := empty
  rfl

end Hand

/-- Dice without modifiers show none. -/
theorem Dice.seen_roll_of_nil {d : Dice} {h : Hand} (empty : h.modifiers = []) :
    (d.roll context h).Meets { seen := fun h => h.modifiers = [] } := by
  simp only [Dice.roll, Task.bind_apply]
  cases d.check context.config with
  | error e => trivial
  | ok c =>
    refine Steps.Meets.bind (x := Dice.rollMany context d.kind c.faces c.number h)
      (Q := fun h _ => h.modifiers = []) ((Hand.preserves_rollMany [] c.number h empty).mono
        (fun _ => id) (fun _ _ => trivial) (fun _ _ => id) fun _ _ _ => trivial) ?_
    intro h _ empty
    rw [Hand.carryOutModifiers_of_nil empty]
    trivial

namespace Steps

variable {σ α β : Type}

/-- An evaluation without pauses shows nothing before what follows it. -/
theorem suspensions_bind_of_pauseless {Q : σ → α → Prop} {x : Steps σ α} {f : σ → α → Steps σ β}
    (pauseless : x.PausesWithin 0) (hx : x.Meets { done := Q }) (src : Source) :
    (x.bind f).suspensions src = []
      ∨ ∃ s a src', Q s a ∧ (x.bind f).suspensions src = (f s a).suspensions src' := by
  induction x generalizing src with
  | done s a => exact .inr ⟨s, a, src, hx, rfl⟩
  | fail s e => exact .inl rfl
  | pause now left rest ih => exact absurd pauseless.1 (Nat.lt_irrefl 0)
  | draw rest ih => exact ih _ (pauseless _) (hx _) _

end Steps

/-- To roll dice does not touch what is asked of them, at any of its pauses. -/
theorem Hand.modifiers_of_rollMany {α : Type} {kind : DiceKind} {faces : Int}
    {f : Hand → Unit → Steps Hand α} :
    ∀ (n : Nat) (h : Hand) (src : Source) (k : Nat) (u : Hand), k < n →
      (((Dice.rollMany context kind faces n h).bind f).suspensions src)[k]? = some u →
      u.modifiers = h.modifiers
  | 0, _, _, k, _, hk, _ => absurd hk (Nat.not_lt_zero k)
  | n + 1, h, src, k, u, hk, shown => by
    have one : (Dice.rollOne context kind faces h).Meets
        { done := fun s _ => s.modifiers = h.modifiers } :=
      (Hand.preserves_rollOne h.modifiers h rfl).mono (fun _ _ => trivial) (fun _ _ => trivial)
        (fun _ _ => id) fun _ _ _ => trivial
    have first := Steps.suspensions_bind_of_pauseless
      (f := fun s _ => .pause s (.clean s) fun _ => (Dice.rollMany context kind faces n s).bind f)
      (Hand.pauseless_rollOne h) one src
    have same : (Dice.rollMany context kind faces (n + 1) h).bind f
        = (Dice.rollOne context kind faces h).bind fun s _ =>
            .pause s (.clean s) fun _ => (Dice.rollMany context kind faces n s).bind f := by
      simp only [Dice.rollMany, Task.bind_apply, Task.pause_apply, Steps.bind_bind, Steps.bind]
    rw [same] at shown
    rcases first with nothing | ⟨s, _, src', hs, rest⟩
    · rw [nothing] at shown
      cases shown
    · rw [rest] at shown
      cases k with
      | zero =>
        obtain rfl : s = u := Option.some.inj shown
        exact hs
      | succ k => exact (Hand.modifiers_of_rollMany n s src' k u (by omega) shown).trans hs

/-- As long as not all dice that are asked for have been rolled, they show all their modifiers. -/
theorem Dice.modifiers_of_roll (d : Dice) {h u : Hand} {n : Int} {k : Nat} {src : Source}
    (number : d.number.int? = some n) (before : k < n)
    (shown : ((d.roll context h).suspensions src)[k]? = some u) : u.modifiers = h.modifiers := by
  simp only [Dice.roll, Task.bind_apply] at shown
  cases checked : d.check context.config with
  | error e =>
    rw [checked] at shown
    cases shown
  | ok c =>
    rw [checked] at shown
    obtain ⟨m, hm, rest⟩ := bind_eq_ok.1 checked
    obtain ⟨faces, -, rest⟩ := bind_eq_ok.1 rest
    obtain rfl := Except.ok.inj rest
    have count : (m : Int) = n := Option.some.inj <|
      (int?_of_checkNumber hm).symm.trans number
    exact Hand.modifiers_of_rollMany m h src k u (by omega) shown

namespace Term

variable {args : List String} {l : Label} {carried : List Term}

/-- No modifier has been carried out at the pause number `k + 1`, at which the term stands as `u`:
there are none, or not all of the dice or members have been rolled before. -/
def Early (t : Term) (k : Nat) (u : Term) : Prop :=
  t.hand.modifiers = []
    ∨ (∃ (d : Dice) (n : Int), t.die? = some d ∧ d.number.int? = some n ∧ k < n)
    ∨ ∃ args rolls hand, t.body = .pool args rolls hand ∧ u.rolls.length < args.length

/-- To roll the members of a pool does not touch what is asked of it. -/
theorem seen_evaluateMembers {ms : List Value} (as : List String) :
    ∀ (rolls : List Roll) (hand : Hand), hand.modifiers = ms →
      (evaluateMembers inner context false as ⟨.pool args rolls hand, l, carried⟩).Meets
        { seen := fun u => u.hand.modifiers = ms
          done := fun u _ => ∃ rolls' hand', u = ⟨.pool args rolls' hand', l, carried⟩
            ∧ hand'.modifiers = ms ∧ rolls'.length = rolls.length + as.length } := by
  induction as with
  | nil => exact fun rolls hand h => ⟨rolls, hand, rfl, h, rfl⟩
  | cons a as ih =>
    intro rolls hand h
    have formula : Task.Preserves (· = (⟨.pool args rolls hand, l, carried⟩ : Term))
        (evaluateFormula inner context (.str a)) := Lasting.preserves_evaluateFormula _
    refine Steps.Meets.bind (Q := fun u _ => u = ⟨.pool args rolls hand, l, carried⟩)
      ((formula _ rfl).mono ?_ (fun _ _ => trivial) (fun _ _ => id) fun _ _ _ => trivial) ?_
    · rintro u rfl
      exact h
    · rintro _ r rfl
      have rest := ih (rolls ++ [r]) { hand with results := hand.results ++ [{ face := r.total }] } h
      refine Steps.Meets.mono rest (fun _ => id) (fun _ => id) ?_ fun _ _ => id
      rintro _ _ ⟨rolls', hand', rfl, h', length⟩
      refine ⟨rolls', hand', rfl, h', ?_⟩
      rw [length, List.length_append, List.length_singleton, List.length_cons]
      omega

/-- A pool shows its modifiers until all members are rolled, and if there are none. -/
theorem seen_evaluatePool (hand : Hand) :
    (evaluatePool inner context args ⟨.pool args [] hand, l, carried⟩).Meets
      { seen := fun u => u.rolls.length < args.length ∨ hand.modifiers = [] →
          u.hand.modifiers = hand.modifiers } := by
  refine Steps.Meets.bind ((seen_evaluateMembers args [] hand rfl).mono
    (fun _ h _ => h) (fun _ _ => trivial) (fun _ _ => id) fun _ _ _ => trivial) ?_
  rintro _ _ ⟨rolls, hand', rfl, same, length⟩
  rw [List.length_nil, Nat.zero_add] at length
  refine Steps.Meets.mapState
    (x := Hand.carryOutModifiers Command.ofPools Hand.performOnPool hand') ?_
  by_cases empty : hand.modifiers = []
  · rw [Hand.carryOutModifiers_of_nil (same.trans empty)]
    trivial
  · refine .of_forall ?_ (fun _ => trivial) (fun _ _ => trivial) (fun _ _ => trivial) _
    rintro h (short | none)
    · exact absurd (length ▸ short) (Nat.lt_irrefl _)
    · exact absurd none empty

/-- What the content of an untouched term shows if no modifiers are asked for. -/
theorem seen_evaluateBody_of_nil {t : Term} (h : t.Untouched) (empty : t.hand.modifiers = []) :
    (evaluateBody inner context t.body (t.setMark (.bool true))).Meets
      { seen := fun u => u.hand.modifiers = [] } := by
  have others (pool : t.termClass ≠ .pool) (dice : ∀ kind, t.termClass ≠ .dice kind) :
      (evaluateBody inner context t.body (t.setMark (.bool true))).Meets
        { seen := fun u => u.hand.modifiers = [] } := by
    refine ((lasting_bare t).preserves_evaluateBody t.body _
      ((lasting_bare t).setMark rfl _)).mono ?_ (fun _ _ => trivial) (fun _ _ _ => trivial)
        fun _ _ _ => trivial
    intro u (bare : u.bare = t.bare)
    have same : u.termClass = t.termClass := by rw [← termClass_bare, bare, termClass_bare]
    have hand : u.hand = {} := hand_of_termClass (same ▸ pool) fun kind => same ▸ dice kind
    exact congrArg Hand.modifiers hand
  obtain ⟨body, l, carried⟩ := t
  cases body with
  | dice d => exact Steps.Meets.mapState (Dice.seen_roll_of_nil empty)
  | pool args rolls hand =>
    obtain rfl := h.rolls_of_pool
    refine (seen_evaluatePool hand).mono ?_ (fun _ _ => trivial) (fun _ _ _ => trivial)
      fun _ _ _ => trivial
    exact fun u hu => (hu (.inr empty)).trans empty
  | _ => exact others nofun nofun

/-- The content of an untouched term shows all that is asked of it as long as no modifier has been
carried out. -/
theorem modifiers_of_early {t u : Term} (h : t.Untouched) {src : Source} {k : Nat}
    (shown : ((evaluateBody inner context t.body (t.setMark (.bool true))).suspensions src)[k]?
      = some u) (early : t.Early k u) : u.hand.modifiers = t.hand.modifiers := by
  have mem := List.mem_of_getElem? shown
  rcases early with empty | ⟨d, n, dice, number, before⟩ | ⟨args, rolls, hand, pool, few⟩
  · rw [(seen_evaluateBody_of_nil h empty).suspensions src u mem, empty]
  · obtain ⟨body, l, carried⟩ := t
    cases body with
    | dice d' =>
      obtain rfl : d' = d := Option.some.inj dice
      have shown : (((d'.roll context d'.hand).mapState fun hand =>
          (⟨.dice { d' with hand }, { l with mark := .bool true }, carried⟩ : Term)).suspensions
            src)[k]? = some u := shown
      rw [Steps.suspensions_mapState, List.getElem?_map, Option.map_eq_some_iff] at shown
      obtain ⟨hand, rolled, rfl⟩ := shown
      exact d'.modifiers_of_roll number before rolled
    | _ => cases dice
  · obtain ⟨body, l, carried⟩ := t
    obtain rfl : body = .pool args rolls hand := pool
    obtain rfl := h.rolls_of_pool
    exact (seen_evaluatePool hand).suspensions src u mem (.inl few)

/-! ## Stopping -/

/-- **Stopping a term.** At every pause the evaluation of a term can be stopped; and however a run may
be stopped, it either goes on to its end as if nothing could stop it, or leaves the term with the
modifiers that it shows at its last pause, and with nothing else that evaluation has done. As long as
no modifier has been carried out that is the term as it was before. -/
theorem Untouched.stop_leaves {t : Term} (h : t.Untouched) (context : Context) (src : Source) :
    let steps := evaluation context t
    let whole := steps.run .never src
    (∀ n, 0 < n → n ≤ whole.points.length → (steps.run (.atPoint n) src).ending = .stopped)
      ∧ ∀ rule : StopRule, steps.run rule src = whole
          ∨ (steps.run rule src).ending = .stopped
            ∧ ∃ k u, (steps.run rule src).points.length = k + 1
              ∧ (steps.suspensions src)[k]? = some u
              ∧ (steps.run rule src).state = t.withModifiers u.hand.modifiers
              ∧ (t.Early k u → (steps.run rule src).state = t) := by
  intro steps whole
  have makes : (Roll.evaluationWithin (t.nesting + 1)).Makes (Roll.Storable context.config) context :=
    Roll.sound_evaluationWithin _
  have leaves : steps.Leaves Term.rollback := by
    refine leaves_evaluationBy makes ?_
    intro source r group
    have none := h.group
    rw [groupRoll?, group] at none
    cases none
  have seen : steps.Meets { seen := fun u => u.rollback = t.withModifiers u.hand.modifiers } :=
    meets_evaluationBy_of_seen (seen_evaluateBody h)
  refine ⟨fun n hpos hle => Steps.runFrom_atPoint leaves.meets [] src hpos hle, fun rule => ?_⟩
  have ends : steps.run rule src = whole ∨ (steps.run rule src).ending = .stopped :=
    Steps.runFrom_eq_or_stopped leaves.meets [] src
  rcases ends with same | stopped
  · exact .inl same
  · obtain ⟨k, u, length, shown, state⟩ := leaves.of_stopped rule src stopped
    have left : (steps.run rule src).state = t.withModifiers u.hand.modifiers :=
      state.trans (seen.suspensions src u (List.mem_of_getElem? shown))
    refine .inr ⟨stopped, k, u, length, shown, left, fun early => ?_⟩
    rw [left, modifiers_of_early h (shown_evaluateBody shown) early, withModifiers_self]

/-- Dice with modifiers, stopped before all of them have been rolled. -/
theorem stop_leaves_dice :
    ∃ t, Read .diceOnly t
      ∧ let src : Source := { pending := [0.25, 0.75, 0.5], fill := some 0 }
        let stopped := (evaluation { config := .diceOnly } t).run (.atPoint 2) src
        stopped.ending = .stopped ∧ stopped.state = t := by
  obtain ⟨t, ht, check⟩ := exists_read_of_any (.str "3d6x>5cs>2") .null .diceOnly
    (fun t =>
      let src : Source := { pending := [0.25, 0.75, 0.5], fill := some 0 }
      let steps := evaluation { config := .diceOnly } t
      (t.die?.any fun d => d.number.int? == some 3)
        && 2 ≤ (steps.run .never src).points.length
        && (steps.run (.atPoint 2) src).points.length == 2)
    (by decide +kernel)
  simp only [Bool.and_eq_true, decide_eq_true_eq, beq_iff_eq] at check
  obtain ⟨⟨dice, pauses⟩, two⟩ := check
  obtain ⟨stops, leaves⟩ := Untouched.stop_leaves ht.untouched { config := .diceOnly }
    { pending := [0.25, 0.75, 0.5], fill := some 0 }
  have stopped := stops 2 (by decide) pauses
  refine ⟨t, ht, stopped, ?_⟩
  rcases leaves (.atPoint 2) with whole | ⟨-, k, u, length, -, -, early⟩
  · rw [whole] at stopped
    exact absurd stopped (Steps.ending_run_ne_stopped _ _)
  · obtain rfl : k = 1 := by omega
    refine early (.inr (.inl ?_))
    obtain ⟨d, die, number⟩ := Option.any_eq_true _ _ |>.1 dice
    exact ⟨d, 3, die, eq_of_beq number, by decide⟩

/-- Dice that are stopped after their first modifier forget the second one: the record is another
one, and so is the total of the next evaluation. -/
theorem stopped_after_modifier :
    ∃ t, Read .diceOnly t
      ∧ let stopped := (evaluation { config := .diceOnly } t).run (.atPoint 2)
          ⟨[0.1], some 0.5, 0⟩
        let again (u : Term) := (evaluation { config := .diceOnly } u).run .never ⟨[], some 0.5, 0⟩
        stopped.points.length = 2 ∧ stopped.state.toRecord ≠ t.toRecord
          ∧ (again stopped.state).state.total ≠ (again t).state.total := by
  obtain ⟨t, ht, check⟩ := exists_read_of_any (.str "1d6x>5cs>2") .null .diceOnly
    (fun t =>
      let stopped := (evaluation { config := .diceOnly } t).run (.atPoint 2) ⟨[0.1], some 0.5, 0⟩
      let again (u : Term) := (evaluation { config := .diceOnly } u).run .never ⟨[], some 0.5, 0⟩
      let modifiers (u : Term) :=
        (u.toRecord.get "modifiers").equals (.list [.str "x>5", .str "cs>2"])
      let total (u : Term) := (again u).state.total.toOption.bind Value.int?
      stopped.points.length == 2 && modifiers stopped.state != modifiers t
        && total stopped.state != total t)
    (by decide +kernel)
  simp only [Bool.and_eq_true, beq_iff_eq, bne_iff_ne] at check
  obtain ⟨⟨points, modifiers⟩, totals⟩ := check
  refine ⟨t, ht, points, fun same => modifiers ?_, fun same => totals ?_⟩
  · rw [same]
  · rw [same]

end Term

end DiceFormula
