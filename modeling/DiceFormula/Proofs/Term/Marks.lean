import DiceFormula.Proofs.Evaluation.Course

/-!
# Successes and failures

What a tally or a Fate die marks as a success is not marked as a failure, and the other way round.
Evenness and the call of a coin only mark successes, though: a result that was marked as a failure
before is then marked as both (`Term.both_marks_of_even`). As long as none of these comes after a
command that marks failures, no result is marked as both (`Term.marks_exclude_each_other`).
-/

namespace DiceFormula

namespace Command

/-- Whether a command may mark results as failures. -/
def marksFailures : Command → Bool
  | countFailures | deductFailures | subtractFailures => true
  | _ => false

/-- Whether a command marks successes and leaves failures as they are. -/
def marksSuccessesOnly : Command → Bool
  | parity _ | call => true
  | _ => false

/-- The commands of Fate dice mark nothing. -/
theorem marksSuccessesOnly_of_fate {name : String} {c : Command} (h : (name, c) ∈ ofKind .fate) :
    c.marksSuccessesOnly = false := by
  have none : ∀ e ∈ ofKind .fate, e.2.marksSuccessesOnly = false := by decide
  exact none _ h

end Command

namespace DieResult

/-- The result is marked as a success or as a failure, but not as both. -/
def Clear (r : DieResult) : Prop := ¬(r.isSuccess = true ∧ r.isFailure = true)

theorem clear_of_success_eq {r : DieResult} (h : r.isSuccess = false) : r.Clear := by
  simp [Clear, h]

theorem clear_of_failure_eq {r : DieResult} (h : r.isFailure = false) : r.Clear := by
  simp [Clear, h]

/-- What is true before a command that marks failures: only Fate dice have any. -/
structure Unfailed (kind : DiceKind) (r : DieResult) : Prop where
  clear : r.Clear
  none : kind ≠ .fate → r.isFailure = false

end DieResult

namespace Command.Makes

variable {c : Command} {r s : DieResult}

/-- **A result that is marked once is not marked as both** by any other command. -/
theorem clear (h : c.Makes r s) (other : c.marksSuccessesOnly = false) (hr : r.Clear) : s.Clear := by
  cases h with
  | parity | call => cases other
  | countSuccesses met =>
    cases met with
    | true => exact DieResult.clear_of_failure_eq rfl
    | false => exact DieResult.clear_of_success_eq rfl
  | countFailures met =>
    cases met with
    | true => exact DieResult.clear_of_success_eq rfl
    | false => exact DieResult.clear_of_failure_eq rfl
  | deductFailures failed | subtractFailures failed =>
    cases failed with
    | true => exact DieResult.clear_of_success_eq rfl
    | false => exact hr
  | _ => exact hr

theorem isFailure (h : c.Makes r s) (other : c.marksFailures = false) (hr : r.isFailure = false) :
    s.isFailure = false := by
  cases h with
  | countFailures | deductFailures | subtractFailures => cases other
  | countSuccesses met => cases met <;> first | exact hr | rfl
  | _ => exact hr

/-- **Nothing fails before a command marks failures**, but Fate dice, which mark nothing else. -/
theorem unfailed (h : c.Makes r s) {kind : DiceKind} {name : String}
    (known : (name, c) ∈ ofKind kind) (other : c.marksFailures = false) (hr : r.Unfailed kind) :
    s.Unfailed kind := by
  refine ⟨?_, fun dice => h.isFailure other (hr.none dice)⟩
  by_cases fate : kind = .fate
  · subst fate
    exact h.clear (marksSuccessesOnly_of_fate known) hr.clear
  · exact DieResult.clear_of_failure_eq (h.isFailure other (hr.none fate))

end Command.Makes

namespace DieResult

theorem unfailed_resultOf (kind : DiceKind) (n : ℤ) : (Dice.resultOf kind n).Unfailed kind := by
  cases kind with
  | die | coin => exact ⟨clear_of_failure_eq rfl, fun _ => rfl⟩
  | fate =>
    refine ⟨?_, fun dice => absurd rfl dice⟩
    by_cases up : n = 1
    · subst up
      exact clear_of_failure_eq rfl
    · exact clear_of_success_eq (by simp [Dice.resultOf, isSuccess, up, Value.truthy])

end DieResult

/-! ## Commands in order -/

/-- The commands of modifiers in order, of which none that marks successes only comes after one that
marks failures. -/
def Command.InOrder (cs : List Command) : Prop :=
  cs.Pairwise fun a b => a.marksFailures = true → b.marksSuccessesOnly = false

instance (cs : List Command) : Decidable (Command.InOrder cs) :=
  inferInstanceAs (Decidable (cs.Pairwise _))

theorem Command.marksSuccessesOnly_of_marksFailures {c : Command} (h : c.marksFailures = true) :
    c.marksSuccessesOnly = false := by
  cases c <;> first | rfl | cases h

/-- Commands in order are cut in two: before any failure is marked, and from then on. -/
theorem Command.InOrder.exists_append {ps : List Written} (h : InOrder (ps.map Prod.fst)) :
    ∃ front back, ps = front ++ back ∧ (∀ p ∈ front, p.1.marksFailures = false)
      ∧ ∀ p ∈ back, p.1.marksSuccessesOnly = false := by
  induction ps with
  | nil => exact ⟨[], [], rfl, by simp, by simp⟩
  | cons p ps ih =>
    obtain ⟨after, rest⟩ := List.pairwise_cons.1 h
    by_cases marks : p.1.marksFailures = true
    · refine ⟨[], p :: ps, rfl, by simp, ?_⟩
      refine List.forall_mem_cons.2 ⟨marksSuccessesOnly_of_marksFailures marks, ?_⟩
      exact fun q hq => after q.1 (List.mem_map_of_mem hq) marks
    · obtain ⟨front, back, rfl, quiet, loud⟩ := ih rest
      exact ⟨p :: front, back, rfl,
        List.forall_mem_cons.2 ⟨Bool.eq_false_iff.2 marks, quiet⟩, loud⟩

/-! ## Dice -/

namespace Hand

variable {context : Context} {d : Dice} {faces : ℤ}

/-- No result of the hand is marked as both. -/
abbrev AllClear (h : Hand) : Prop := ∀ r ∈ h.results, r.Clear

/-- Only Fate dice of the hand have failed. -/
abbrev AllUnfailed (kind : DiceKind) (h : Hand) : Prop := ∀ r ∈ h.results, r.Unfailed kind

theorem course_unfailed (kind : DiceKind) :
    DieResult.Course kind (fun _ => True)
      (fun c => (∃ name, (name, c) ∈ Command.ofKind kind) ∧ c.marksFailures = false)
      fun rs ss => (∀ r ∈ rs, r.Unfailed kind) → ∀ r ∈ ss, r.Unfailed kind :=
  .of_forall (fun n _ => DieResult.unfailed_resultOf kind n)
    fun ⟨⟨_, known⟩, other⟩ h hr => h.unfailed known other hr

theorem course_clear (kind : DiceKind) :
    DieResult.Course kind (fun _ => True) (fun c => c.marksSuccessesOnly = false)
      fun rs ss => (∀ r ∈ rs, r.Clear) → ∀ r ∈ ss, r.Clear :=
  .of_forall (fun n _ => (DieResult.unfailed_resultOf kind n).clear) fun other h hr => h.clear other hr

/-- Commands in order mark no result as both, if only Fate dice have failed before. -/
theorem meets_carryOutEach {texts : List (List Char)}
    (order : Command.InOrder (texts.flatMap (Command.ofText (Command.ofKind d.kind)))) {h : Hand}
    (hh : AllUnfailed d.kind h) :
    (carryOutEach (performOnDice context d faces)
      (texts.flatMap (Command.cut (Command.ofKind d.kind))) h).Meets
      { seen := AllClear, done := fun s _ => AllClear s, fail := fun s _ => AllClear s } := by
  have proper := Command.proper_ofKind d.kind
  have commands : (texts.flatMap (Command.cut (Command.ofKind d.kind))).map Prod.fst
      = texts.flatMap (Command.ofText (Command.ofKind d.kind)) := by
    rw [List.map_flatMap]
    exact congrArg (texts.flatMap ·) (funext fun text => (Command.ofText_eq_map _ text).symm)
  rw [← commands] at order
  have known : ∀ p ∈ texts.flatMap (Command.cut (Command.ofKind d.kind)),
      ∃ name, (name, p.1) ∈ Command.ofKind d.kind := by
    intro p hp
    obtain ⟨text, -, hp⟩ := List.mem_flatMap.1 hp
    exact Command.exists_mem_of_mem_cut proper hp
  obtain ⟨front, back, whole, quiet, loud⟩ := order.exists_append
  rw [whole] at known ⊢
  have shows := shows_any d.kind faces
  have first : Task.Preserves (AllUnfailed d.kind)
      (carryOutEach (performOnDice context d faces) front) :=
    preserves_of_takes (takes_carryOutEach (course_unfailed d.kind) fun p hp =>
      takes_performOnDice (course_unfailed d.kind) shows
        ⟨known p (List.mem_append_left back hp), quiet p hp⟩ p.2)
  have second : Task.Preserves AllClear (carryOutEach (performOnDice context d faces) back) :=
    preserves_of_takes (takes_carryOutEach (course_clear d.kind) fun p hp =>
      takes_performOnDice (course_clear d.kind) shows (loud p hp) p.2)
  have clear (s : Hand) (hs : AllUnfailed d.kind s) : AllClear s := fun r hr => (hs r hr).clear
  rw [carryOutEach_append]
  refine Steps.Meets.bind ((first h hh).mono clear (fun _ => id) (fun _ _ => id)
    fun s _ => clear s) ?_
  exact fun s _ hs => second s (clear s hs)

end Hand

/-- **Dice mark no result as both** if their commands are in order. -/
theorem Dice.meets_roll_clear {context : Context} {d : Dice} {ms : List String} {h : Hand}
    (empty : h.results = []) (modifiers : h.modifiers = ms.map .str)
    (order : Command.InOrder
      (ms.flatMap fun m => Command.ofText (Command.ofKind d.kind) (Case.lower m.toList))) :
    (d.roll context h).Meets
      { seen := Hand.AllClear, done := fun s _ => Hand.AllClear s
        fail := fun s _ => Hand.AllClear s } := by
  have clear (s : Hand) (hs : Hand.AllUnfailed d.kind s) : Hand.AllClear s :=
    fun r hr => (hs r hr).clear
  have start : Hand.AllUnfailed d.kind h := by simp [Hand.AllUnfailed, empty]
  simp only [roll, Task.bind_apply]
  cases d.check context.config with
  | error e => exact clear h start
  | ok c =>
    have rolled : Task.Preserves (Hand.AllUnfailed d.kind)
        (rollMany context d.kind c.faces c.number) :=
      Hand.preserves_of_takes (Hand.takes_rollMany (Hand.course_unfailed d.kind)
        (Hand.shows_any d.kind c.faces) c.number)
    simp only [Task.ofExcept_ok, Steps.bind]
    have rolled := (rolled.and (Hand.preserves_rollMany (ms.map .str) c.number)) h
      ⟨start, modifiers⟩
    refine Steps.Meets.bind (rolled.mono (fun s hs => clear s hs.1) (fun _ => id)
      (fun _ _ => id) fun s _ hs => clear s hs.1) ?_
    rintro s _ ⟨unfailed, same⟩
    simp only [Hand.carryOutModifiers, Task.bind_apply, Task.get_apply, Steps.bind, same,
      Hand.mapM_lowerModifier, Task.ofExcept_ok, Task.set_apply, Hand.carryOutAll_eq_carryOutEach]
    have unfailed : Hand.AllUnfailed d.kind { s with modifiers := [] } := unfailed
    refine Hand.meets_carryOutEach ?_ unfailed
    rwa [List.flatMap_map]

namespace Term

/-- **Success and failure exclude each other**, at every pause and at the end, for dice of any kind,
number and faces, in every mode and whatever is drawn, unless a command that marks successes only
comes after one that marks failures. -/
theorem marks_exclude_each_other (context : Context) (kind : DiceKind) (number faces : Value)
    {modifiers : List String} (options : Options) (config : Config) (src : Source)
    (order : Command.InOrder
      (modifiers.flatMap fun m => Command.ofText (Command.ofKind kind) (Case.lower m.toList))) :
    let d : Dice := { kind, number, faces, hand := { modifiers := modifiers.map .str } }
    let x := evaluation context (Term.make (.dice d) options config)
    ∀ t ∈ x.history src, ∀ r ∈ t.hand.results, ¬(r.isSuccess = true ∧ r.isFailure = true) := by
  intro d x t ht
  have meets := @Dice.meets_roll_clear context d modifiers d.hand rfl rfl order
  have all := meets.history src
  rw [← history_hand context d options config] at all
  exact all t.hand (List.mem_map_of_mem ht)

/-- Six dice that are first counted by evenness, and of which the low ones then fail. -/
theorem marks_exclude_each_other_of_deduction :
    let config : Config := { kinds := [], functions := [], maxDice := 9, maxDiceText := .int 9 }
    let modifiers := ["even", "cs>4", "df<3", "Kh4"]
    let d : Dice := { kind := .die, number := .int 6, faces := .int 6
                      hand := { modifiers := modifiers.map .str } }
    let x := evaluation { config } (Term.make (.dice d) [] config)
    let history := x.history { pending := [0.1, 0.3, 0.4, 0.6, 0.7], fill := some 0.9 }
    Command.InOrder (modifiers.flatMap fun m =>
        Command.ofText (Command.ofKind .die) (Case.lower m.toList))
      ∧ (history.any fun t => t.hand.results.any DieResult.isSuccess) = true
      ∧ (history.any fun t => t.hand.results.any DieResult.isFailure) = true
      ∧ ∀ t ∈ history, ∀ r ∈ t.hand.results, ¬(r.isSuccess = true ∧ r.isFailure = true) := by
  intro config modifiers d x history
  have order : Command.InOrder (modifiers.flatMap fun m =>
      Command.ofText (Command.ofKind .die) (Case.lower m.toList)) := by decide +kernel
  refine ⟨order, by decide +kernel, by decide +kernel, ?_⟩
  exact marks_exclude_each_other { config } .die (.int 6) (.int 6) [] config _ order

/-- A two that failed is even: it ends as a failure and as a success. -/
theorem both_marks_of_even :
    let config : Config := { kinds := [], functions := [], maxDice := 9, maxDiceText := .int 9 }
    let d : Dice := { kind := .die, number := .int 1, faces := .int 6
                      hand := { modifiers := ["cf=2", "even"].map .str } }
    let x := evaluation { config } (Term.make (.dice d) [] config)
    ¬∀ t ∈ x.history { pending := [0.3], fill := none },
      ∀ r ∈ t.hand.results, ¬(r.isSuccess = true ∧ r.isFailure = true) := by
  intro config d x
  decide +kernel

end Term

end DiceFormula
