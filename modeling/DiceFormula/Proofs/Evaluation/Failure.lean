import DiceFormula.Proofs.Evaluation.Bounds
import DiceFormula.Proofs.Evaluation.Numeric
import DiceFormula.Proofs.Formula.Refusal

/-!
# What can go wrong while terms are evaluated

A term whose content is `Waiting` comes to be worth something: groups and calls are worth numbers,
and the results of dice and pools can be added up (`Term.weighs_evaluationBy`). All that can
go wrong on the way is expected, as long as the functions of the engine are the library's own and
the rolls inside the term `Settle`.
-/

namespace DiceFormula

variable {config : Config} {context : Context} {inner : RollEvaluation}

/-! ## Engines -/

/-- All functions of the engine are the library's own. -/
def Config.Native (config : Config) : Prop := ∀ p ∈ config.functions, ∃ f, p.2 = .own f

namespace Config

theorem outcome_function (native : config.Native) (name : String) :
    Outcome (fun f => ∃ g, f = .own g) Error.IsOwn (config.function (.str name)) := by
  unfold function
  split
  · next f hf =>
    obtain ⟨s, -, hf⟩ := Option.bind_eq_some_iff.1 hf
    obtain ⟨front, back, listed, -⟩ := List.lookup_eq_some_iff.1 hf
    exact native (s, f) (by rw [listed]; exact List.mem_append_right _ List.mem_cons_self)
  · exact Error.isOwn_ofName _ name

theorem forall_putFunction {P : FunctionEntry → Prop} {f : FunctionEntry} (hf : P f) (name : String)
    {fs : List (String × FunctionEntry)} (h : ∀ p ∈ fs, P p.2) :
    ∀ p ∈ putFunction name f fs, P p.2 := by
  induction fs with
  | nil => exact List.forall_mem_singleton.2 hf
  | cons p fs ih =>
    obtain ⟨n, g⟩ := p
    obtain ⟨hg, hfs⟩ := List.forall_mem_cons.1 h
    unfold putFunction
    split
    · exact List.forall_mem_cons.2 ⟨hf, hfs⟩
    · exact List.forall_mem_cons.2 ⟨hg, ih hfs⟩

/-- **Settings choose among the functions of the library.** -/
theorem native_of_ofSettings {settings : Value} (h : ofSettings settings = .ok config) :
    config.Native := by
  have all : ∀ p ∈ allFunctions, ∃ f, p.2 = .own f := by
    intro p hp
    obtain ⟨f, -, rfl⟩ := List.mem_map.1 hp
    exact ⟨f, rfl⟩
  have chosen {names : Value} {fs : List (String × FunctionEntry)} (h : functionsOf names = .ok fs) :
      ∀ p ∈ fs, ∃ f, p.2 = .own f := by
    unfold functionsOf at h
    split at h
    · obtain rfl := Except.ok.inj h
      exact all
    · obtain ⟨items, -, h⟩ := bind_eq_ok.1 h
      refine of_foldlM_eq_ok (I := fun fs => ∀ p ∈ fs, ∃ f, p.2 = .own f) h
        (List.forall_mem_nil _) ?_
      intro item _ fs gs hfs hgs
      obtain ⟨name, -, hgs⟩ := bind_eq_ok.1 hgs
      unfold addNamed at hgs
      dsimp only at hgs
      split at hgs
      · next f _ =>
        obtain rfl := Except.ok.inj hgs
        exact forall_putFunction (P := fun g => ∃ f, g = .own f) ⟨f, rfl⟩ _ hfs
      · cases hgs
  unfold ofSettings at h
  dsimp only at h
  split at h
  · obtain ⟨fs, hfs, h⟩ := bind_eq_ok.1 h
    unfold make at h
    split at h
    · split at h <;> cases h
    · split at h
      · cases h
      · obtain rfl := Except.ok.inj h
        exact chosen hfs
  · cases h

end Config

/-! ## Contents that wait -/

/-- A content that waits for its evaluation: texts stand where texts are asked for, and nothing has
been rolled. -/
def Body.Waiting : Body → Prop
  | .number _ | .operator _ => True
  | .text v => v.IsText
  | .group source roll => source.IsText ∧ roll = none
  | .call fn _ rolls _ => fn.IsText ∧ rolls = []
  | .pool _ _ hand => hand.Regular
  | .dice d => d.hand.Regular

theorem Hand.regular_of_empty {h : Hand} (written : h.IsWritten) (empty : h.results = []) :
    h.Regular := ⟨written, by rw [empty]; exact List.forall_mem_nil _⟩

theorem Term.Fresh.waiting {t : Term} (h : t.Fresh config) (empty : t.hand.results = []) :
    t.body.Waiting := by
  obtain ⟨storable, -, rolls, -, -⟩ := h
  obtain ⟨body, l, carried⟩ := t
  obtain ⟨-, content, -⟩ := storable
  cases body with
  | number | operator => trivial
  | text v => exact content
  | group source roll => exact content
  | call fn args _ _ => exact ⟨content.1, rolls⟩
  | pool args _ hand => exact Hand.regular_of_empty content.2.1 empty
  | dice d => exact Hand.regular_of_empty content.1.hand empty

/-! ## Rolls inside a term -/

/-- The roll was evaluated to a number, and its terms can be shown. -/
structure Roll.Settled (r : Roll) : Prop where
  state : r.sheet.state = .evaluated
  total : r.sheet.total.IsNumber
  flat : ∃ text, flatten r.terms = .ok text

theorem Roll.Settled.isNumber_total {r : Roll} (h : r.Settled) : r.total.IsNumber := by
  unfold Roll.total evaluated
  rw [h.state]
  exact h.total

/-- The rolls of a formula are settled wherever their evaluation ends, and otherwise fail as is
expected. -/
def RollEvaluation.Settles (inner : RollEvaluation) (context : Context) (formula : String) : Prop :=
  ∀ r, Roll.ofFormula (.str formula) context.config = .ok r →
    (inner context r).Ends .endless fun _ s _ => s.Settled

theorem RollEvaluation.Settles.allows {formula : String} (h : inner.Settles context formula) :
    Dealing.endless.Allows (fun r => (inner context r).Ends .endless fun _ s _ => s.Settled)
      (Roll.ofFormula (.str formula) context.config) :=
  (Roll.replies_ofFormula formula context.config).expected.of_ok h

namespace Term

variable {args : List String} {l : Label} {carried : List Term}

/-- The formulas of a call or a pool give rolls whose totals are numbers. -/
theorem settles_evaluateMembers (flavored : Bool) (h : ∀ a ∈ args, inner.Settles context a)
    (t : Term) : (evaluateMembers inner context flavored args t).Ends .endless fun _ u _ =>
      ∃ rs : List Roll, (∀ r ∈ rs, r.total.IsNumber) ∧ u = t.addRolls flavored rs := by
  refine (ends_evaluateMembers (R := fun _ _ r => r.Settled) (fun a ha => (h a ha).allows) t).mono
    ?_
  rintro n u - ⟨rs, hrs, rfl⟩
  refine ⟨rs, fun r hr => ?_, rfl⟩
  obtain ⟨a, -, k, settled⟩ := hrs.exists_of_mem r hr
  exact settled.isNumber_total

/-! ## Terms -/

/-- The term is worth a number. -/
def IsWorth (t : Term) : Prop := ∃ n, t.total = .ok (.num n)

/-- It can be said what the term is worth, unless it is too large for a double. -/
abbrev Weighs (t : Term) : Prop := Outcome (fun _ => True) Error.IsExpected t.total

theorem IsWorth.weighs {t : Term} (h : t.IsWorth) : t.Weighs := by
  obtain ⟨n, hn⟩ := h
  rw [Weighs, hn]
  trivial

theorem outcome_totalOf (evaluated : Bool) {rs : List DieResult} (h : DieResult.Numeric rs) :
    Outcome (fun _ => True) Error.IsExpected (totalOf evaluated rs) := by
  unfold totalOf
  split
  · have settled := DieResult.settles_total h
    cases total : DieResult.total rs with
    | ok n => trivial
    | error e =>
      rw [total] at settled
      exact settled
  · trivial

theorem isWorth_evaluateGroup {s : String} (h : inner.Settles context s) :
    (evaluateGroup inner context (.str s) none ⟨.group (.str s) none, l, carried⟩).Ends .endless
      fun _ u _ => u.IsWorth := by
  refine (ends_evaluateFormula h.allows _).bind ?_
  rintro k _ r ⟨rfl, settled⟩
  obtain ⟨n, hn⟩ := settled.isNumber_total
  refine ⟨n, ?_⟩
  rw [← hn, ← r.total_propagateFlavor]
  rfl

theorem isWorth_evaluateCall (native : context.config.Native) {fn : String}
    (h : ∀ a ∈ args, inner.Settles context a) (result : Value) :
    (evaluateCall inner context (.str fn) args
      ⟨.call (.str fn) args [] result, l, carried⟩).Ends .endless fun _ u _ => u.IsWorth := by
  have known := Config.outcome_function native fn
  simp only [evaluateCall, Task.bind_apply]
  cases hf : context.config.function (.str fn) with
  | error e =>
    rw [hf] at known
    exact .inl known
  | ok f =>
    rw [hf] at known
    obtain ⟨g, rfl⟩ := known
    simp only [Task.ofExcept_ok, Steps.bind]
    refine (settles_evaluateMembers true h _).bind ?_
    rintro k _ - ⟨rs, numbers, rfl⟩
    obtain ⟨added, totals, hadded⟩ :=
      @exists_addRolls_call true (.str fn) args result l carried rs []
    have called := Function.outcome_call g (List.forall_mem_map.2 numbers)
    simp only [hadded, List.nil_append, Task.get_apply, Steps.bind, rolls, applyFunction, totals]
    cases hv : g.call (rs.map Roll.total) with
    | error e =>
      rw [hv] at called
      exact .inl called
    | ok v =>
      rw [hv] at called
      obtain ⟨n, rfl⟩ := called
      exact ⟨n, rfl⟩

theorem weighs_evaluatePool (h : ∀ a ∈ args, inner.Settles context a) {hand : Hand}
    (regular : hand.Regular) (rolls : List Roll) :
    (evaluatePool inner context args ⟨.pool args rolls hand, l, carried⟩).Ends .endless
      fun _ u _ => u.Weighs := by
  refine (settles_evaluateMembers false h _).bind ?_
  rintro k _ - ⟨rs, numbers, rfl⟩
  rw [addRolls_pool]
  have counted : Hand.Regular
      { hand with results := hand.results ++ rs.map fun r => { face := r.total } } := by
    refine ⟨regular.written, List.forall_mem_append.2 ⟨regular.numeric, ?_⟩⟩
    exact List.forall_mem_map.2 fun r hr => DieResult.isNumeric_of_face (numbers r hr)
  refine Steps.Ends.mapState
    ((Hand.stays_carryOutModifiers Hand.stays_performOnPool _ counted).mono ?_)
  intro n hand _ regular
  exact outcome_totalOf _ regular.numeric

theorem weighs_evaluateDice {d : Dice} (regular : d.hand.Regular) :
    (withHand (d.roll context) ⟨.dice d, l, carried⟩).Ends .endless fun _ u _ => u.Weighs := by
  refine Steps.Ends.mapState ((d.stays_roll _ regular).mono ?_)
  intro n hand _ regular
  exact outcome_totalOf _ regular.numeric

/-- **A content that waits comes to be worth something**, and a group or a call a number. -/
theorem weighs_evaluateBody (native : context.config.Native) {t : Term} (waiting : t.body.Waiting)
    (h : ∀ a ∈ t.formulas, inner.Settles context a) :
    (evaluateBody inner context t.body (t.setMark (.bool true))).Ends .endless
      fun _ u _ => (t.isIntermediate = true → u.IsWorth) ∧ u.Weighs := by
  obtain ⟨body, l, carried⟩ := t
  cases body with
  | number | operator => exact ⟨fun whole => (Bool.false_ne_true whole).elim, trivial⟩
  | text v =>
    obtain ⟨s, rfl⟩ := waiting
    exact .inl (Error.isOwn_unevaluated s)
  | group source roll =>
    obtain ⟨⟨s, rfl⟩, rfl⟩ := waiting
    refine (isWorth_evaluateGroup (h s (List.mem_singleton_self s))).mono ?_
    exact fun _ u _ worth => ⟨fun _ => worth, worth.weighs⟩
  | call fn args rolls result =>
    obtain ⟨⟨s, rfl⟩, rfl⟩ := waiting
    refine (isWorth_evaluateCall native h result).mono ?_
    exact fun _ u _ worth => ⟨fun _ => worth, worth.weighs⟩
  | pool args rolls hand =>
    refine (weighs_evaluatePool h waiting rolls).mono ?_
    exact fun _ u _ weighs => ⟨fun whole => (Bool.false_ne_true whole).elim, weighs⟩
  | dice d =>
    refine (weighs_evaluateDice waiting).mono ?_
    exact fun _ u _ weighs => ⟨fun whole => (Bool.false_ne_true whole).elim, weighs⟩

/-- A term that waits comes to be worth something, and a group or a call a number. -/
theorem weighs_evaluationBy (native : context.config.Native) {t : Term}
    (waits : t.evaluated = false) (waiting : t.body.Waiting)
    (h : ∀ a ∈ t.formulas, inner.Settles context a) :
    (Term.evaluationBy inner context t).Ends .endless
      fun _ u _ => (t.isIntermediate = true → u.IsWorth) ∧ u.Weighs := by
  refine ends_evaluationBy ?_ waits (weighs_evaluateBody native waiting h)
  intro v hv
  rw [hv] at waiting
  obtain ⟨s, rfl⟩ := waiting
  exact .inl (Error.isOwn_unevaluated s)

end Term

end DiceFormula
