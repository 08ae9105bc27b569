import DiceFormula.Proofs.Evaluation.Pauses
import DiceFormula.Proofs.Evaluation.Term

/-!
# What stopping leaves

A contract asks apart of what is seen at the pauses and of what is left by stopping there.
`Steps.Leaves f` says how the two belong together: at every pause, stopping leaves what is seen
there, changed by `f`. So a run that is stopped leaves one of the states that the whole run shows,
changed by `f`, and the number of its pauses tells which one (`Steps.Leaves.of_stopped`).

The content of a term leaves what is seen (`Term.leaves_evaluateBody`), whatever happens inside the
rolls of its formulas, so that a term is left as it is seen and rolled back
(`Term.leaves_evaluationBy`).
-/

namespace DiceFormula

namespace Steps

variable {σ τ α β : Type} {f : σ → σ}

/-- At every pause, stopping leaves the state that is seen there, changed by `f`. -/
def Leaves (f : σ → σ) : Steps σ α → Prop
  | done _ _ => True
  | fail _ _ => True
  | pause now left rest => left = .clean (f now) ∧ (rest ()).Leaves f
  | draw rest => ∀ x, (rest x).Leaves f

namespace Leaves

theorem bind {x : Steps σ α} {g : σ → α → Steps σ β} (hx : x.Leaves f)
    (hg : ∀ s a, (g s a).Leaves f) : (x.bind g).Leaves f := by
  induction x with
  | done s a => exact hg s a
  | fail s e => trivial
  | pause now left rest ih => exact ⟨hx.1, ih () hx.2⟩
  | draw rest ih => exact fun x => ih x (hx x)

theorem mapState {g : σ → τ} {x : Steps σ α} (hx : x.Leaves id) : (x.mapState g).Leaves id := by
  induction x with
  | done | fail => trivial
  | pause now left rest ih =>
    refine ⟨?_, ih () hx.2⟩
    rw [hx.1]
    rfl
  | draw rest ih => exact fun x => ih x (hx x)

/-- What is evaluated beside a state leaves this state, if it can be stopped everywhere. -/
theorem beside {t : τ} {x : Steps σ α} (hx : x.Meets { left := Left.IsClean }) :
    (x.beside t).Leaves id := by
  induction x with
  | done | fail => trivial
  | pause now left rest ih =>
    refine ⟨?_, ih () hx.2.2⟩
    cases left with
    | clean s => rfl
    | broken s e => exact absurd hx.2.1 id
  | draw rest ih => exact fun x => ih x (hx x)

theorem onStop {x : Steps σ α} (hx : x.Leaves id) : (x.onStop fun s => .clean (f s)).Leaves f := by
  induction x with
  | done | fail => trivial
  | pause now left rest ih =>
    refine ⟨?_, ih () hx.2⟩
    rw [hx.1]
    rfl
  | draw rest ih => exact fun x => ih x (hx x)

theorem meets {x : Steps σ α} (hx : x.Leaves f) : x.Meets { left := Left.IsClean } := by
  induction x with
  | done | fail => trivial
  | pause now left rest ih =>
    refine ⟨trivial, ?_, ih () hx.2⟩
    rw [hx.1]
    trivial
  | draw rest ih => exact fun x => ih x (hx x)

/-- **What a stopped run leaves**: the state that is seen at its last pause, changed by `f`. -/
theorem of_stopped {x : Steps σ α} (hx : x.Leaves f) (rule : StopRule) (src : Source)
    (stopped : (x.run rule src).ending = .stopped) :
    ∃ k s, (x.run rule src).points.length = k + 1 ∧ (x.suspensions src)[k]? = some s
      ∧ (x.run rule src).state = f s := by
  suffices ∀ (start : Nat) (points : List Nat) (src : Source),
      (x.runFrom rule start points src).ending = .stopped →
      ∃ k s, (x.runFrom rule start points src).points.length = points.length + k + 1
        ∧ (x.suspensions src)[k]? = some s ∧ (x.runFrom rule start points src).state = f s by
    obtain ⟨k, s, length, rest⟩ := this src.used [] src stopped
    exact ⟨k, s, by simpa [run] using length, rest⟩
  clear stopped src
  induction x with
  | done s a =>
    intro start points src h
    cases h
  | fail s e =>
    intro start points src h
    cases h
  | pause now left rest ih =>
    intro start points src h
    obtain ⟨rfl, hrest⟩ := hx
    simp only [runFrom] at h ⊢
    split
    · exact ⟨0, now, by simp, rfl, rfl⟩
    · next go =>
      rw [if_neg go] at h
      obtain ⟨k, s, length, shown, state⟩ := ih () hrest start _ src h
      refine ⟨k + 1, s, ?_, shown, state⟩
      rw [length, List.length_cons]
      omega
  | draw rest ih =>
    intro start points src h
    exact ih src.next.1 (hx _) start points src.next.2 h

end Leaves

end Steps

/-! ## Hands -/

namespace Hand

/-- Stopping the task leaves what is seen. -/
abbrev Leaving {α : Type} (task : Task Hand α) : Prop := ∀ h, (task h).Leaves id

theorem leaving_ofExcept {α : Type} (x : Except Error α) : Leaving (Task.ofExcept x) := by
  intro h
  cases x <;> trivial

theorem paced_leaving : Paced Leaving where
  pure := fun _ _ => trivial
  bind := fun ht hf h => (ht h).bind fun s a => hf a s
  get_bind := fun hf h => hf h h
  fail := fun _ _ => trivial
  ofExcept := leaving_ofExcept
  pause := fun _ => ⟨rfl, trivial⟩
  setResult := fun _ _ _ => trivial
  list := fun _ _ => trivial
  plain := by
    intro f _ h
    simp only [plain, Task.bind_apply, Task.get_apply, Steps.bind]
    cases f h.results with
    | none => trivial
    | some c =>
      simp only [Task.bind_apply, Task.set_apply, Steps.bind]
      cases c.fault <;> trivial

variable {context : Context}

theorem leaving_rollOne (kind : DiceKind) (faces : Int) :
    Leaving (Dice.rollOne context kind faces) := by
  refine paced_leaving.bind ?_ fun _ _ => trivial
  unfold Dice.face
  split
  · exact paced_leaving.pure _
  · exact paced_leaving.pure _
  · refine paced_leaving.bind ?_ fun _ => leaving_ofExcept _
    intro h x
    cases x <;> trivial

theorem leaving_carryOutModifiers {table : Command.Table}
    {perform : Command → List Char → Task Hand Bool} (hp : ∀ c text, Leaving (perform c text)) :
    Leaving (carryOutModifiers table perform) :=
  paced_leaving.get_bind fun _ => paced_leaving.bind (leaving_ofExcept _) fun _ =>
    paced_leaving.bind (fun _ => trivial) fun _ => paced_leaving.carryOutAll hp _

theorem leaving_roll (d : Dice) : Leaving (d.roll context) :=
  have paced := paced_leaving
  paced.bind (leaving_ofExcept _) fun _ => paced.bind (paced.rollMany (leaving_rollOne _ _) _)
    fun _ => leaving_carryOutModifiers <| paced.performOnDice <|
      paced.rollExtra (leaving_rollOne _ _)

end Hand

/-! ## Terms -/

namespace Term

variable {context : Context} {inner : RollEvaluation} {P : Roll → Prop}
  (hi : inner.Makes P context)

theorem leaves_ofExcept {α : Type} (x : Except Error α) (t : Term) :
    (Task.ofExcept x t : Steps Term α).Leaves id := by
  cases x <;> trivial

include hi

theorem leaves_evaluateFormula (formula : Value) (t : Term) :
    (evaluateFormula inner context formula t).Leaves id := by
  simp only [evaluateFormula, Task.bind_apply]
  cases hr : Roll.ofFormula formula context.config with
  | error e => trivial
  | ok r =>
    refine Steps.Leaves.bind (x := (inner context r).beside t) (.beside ?_) fun _ _ => trivial
    exact (hi r (Roll.waiting_of_ofFormula hr)).mono_ends (fun l hl => hl.mono fun _ _ => trivial)
      fun _ _ _ => trivial

theorem leaves_evaluateMembers (flavored : Bool) :
    ∀ (args : List String) (t : Term),
      (evaluateMembers inner context flavored args t).Leaves id
  | [], _ => trivial
  | formula :: formulas, t =>
    (leaves_evaluateFormula hi (.str formula) t).bind fun _ _ =>
      leaves_evaluateMembers flavored formulas _

/-- The content of a term that has no roll yet leaves what is seen. -/
theorem leaves_evaluateBody {body : Body} (empty : ∀ source r, body ≠ .group source (some r))
    (t : Term) : (evaluateBody inner context body t).Leaves id := by
  have hand {task : Task Hand Unit} (h : Hand.Leaving task) (t : Term) :
      (withHand task t).Leaves id := (h t.hand).mapState
  cases body with
  | number | operator | text => trivial
  | group source roll =>
    cases roll with
    | some r => exact absurd rfl (empty source r)
    | none => exact (leaves_evaluateFormula hi source t).bind fun _ _ => trivial
  | call fn args rolls result =>
    refine (leaves_ofExcept _ t).bind fun u f => ?_
    refine (leaves_evaluateMembers hi true args u).bind fun v _ => ?_
    exact (leaves_ofExcept _ v).bind fun _ _ => trivial
  | pool args rolls h =>
    exact (leaves_evaluateMembers hi false args t).bind fun u _ =>
      hand (Hand.leaving_carryOutModifiers Hand.paced_leaving.performOnPool) u
  | dice d => exact hand (Hand.leaving_roll d) t

/-- **A term that is stopped is left as it is seen and rolled back.** -/
theorem leaves_evaluationBy {t : Term} (empty : ∀ source r, t.body ≠ .group source (some r)) :
    (Term.evaluationBy inner context t).Leaves rollback := by
  have body := (leaves_evaluateBody hi empty (t.setMark (.bool true))).onStop (f := rollback)
  obtain ⟨b, l, carried⟩ := t
  simp only [Term.evaluationBy, Task.bind_apply, Task.get_apply, Steps.bind]
  cases b with
  | text v => trivial
  | _ =>
    dsimp only
    split
    · trivial
    · exact body

end Term

end DiceFormula
