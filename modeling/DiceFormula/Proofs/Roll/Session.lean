import DiceFormula.Proofs.Evaluation.Advance
import DiceFormula.Proofs.Evaluation.Roll
import Mathlib.Data.List.Induction

/-!
# Histories of a roll

A roll may be asked for its evaluation any number of times. An attempt begins with its first step,
not before, and attempts go on in any order; they can be stopped, and between their steps the roll
can be altered and recorded. `Session` is a roll with all that goes on around it, and
`Session.after` is what a history of actions makes of it.

However they are mixed, the roll is evaluated at most once (`Session.evaluated_once`). What carries
the proof is `Session.Sound`: an attempt that is under way is the only one, the roll is what it
shows, and stopping it would leave the roll that it began with.
-/

namespace DiceFormula

variable {config : Config}

theorem RollState.isCreated_iff {state : RollState} :
    state.isCreated = true ↔ state = .created := by
  cases state <;> simp [isCreated]

/-! ## The course of an evaluation -/

namespace Roll

/-- The state of a roll that was made of a formula and not of a record. -/
def Stands (state : RollState) (r : Roll) : Prop :=
  r.sheet.state = state ∧ r.sheet.replayed = false

theorem Waiting.stands {r : Roll} (h : r.Waiting config) : r.Stands .created := by
  refine ⟨h.state, ?_⟩
  rcases h.sheet.state with hs | hs
  · rw [h.state] at hs
    cases hs
  · exact hs.2.2

/-- What the evaluation of the roll `r` can show: that it goes on, what it was stopped from, and how
it ended. -/
def course (r : Roll) : Contract Roll Unit :=
  { seen := Stands .evaluating, left := (· = .clean r), done := fun s _ => s.Stands .evaluated
    fail := fun s e => s.Stands (.failed e) }

section

variable {inner : RollEvaluation} {context : Context}

theorem preserves_onTerm (i : Nat) (t : Term) (task : Task Term Unit) :
    Task.Preserves (Stands .evaluating) (onTerm i t task) := .within fun _ _ h => h

theorem preserves_visit {step : Nat → Term → Task Roll Unit}
    (one : ∀ i t, Task.Preserves (Stands .evaluating) (step i t)) (count i : Nat) :
    Task.Preserves (Stands .evaluating) (visit step count i) := by
  intro r hr
  refine meets_visit (I := fun _ s => s.Stands .evaluating) ?_ count hr fun _ _ hs _ => hs
  exact fun i s t hs _ => one i t s hs

theorem preserves_evaluateIntermediates (count i : Nat) :
    Task.Preserves (Stands .evaluating) (evaluateIntermediates inner context count i) := by
  rw [evaluateIntermediates_eq]
  refine preserves_visit (fun i t => ?_) count i
  unfold evaluateIntermediate
  split
  · exact .bind (preserves_onTerm _ _ _) fun _ => .get_bind fun _ _ => .bind (.ofExcept _)
      fun _ => .bind (.modify fun _ h => h) fun _ => .pause
  · exact .pure _

theorem preserves_evaluateRest (count i : Nat) :
    Task.Preserves (Stands .evaluating) (evaluateRest inner context count i) := by
  rw [evaluateRest_eq]
  refine preserves_visit (fun i t => ?_) count i
  unfold evaluateWaiting
  split
  · exact .bind (preserves_onTerm _ _ _) fun _ => .pause
  · exact .pause

theorem preserves_evaluateTerms :
    Task.Preserves (Stands .evaluating) (evaluateTerms inner context) := by
  refine .get_bind ?_
  intro r _
  refine .bind (preserves_evaluateIntermediates _ _) fun _ => .get_bind ?_
  intro s hs
  refine .bind (.ofExcept _) fun _ => .bind (.set hs) fun _ =>
    .bind (preserves_evaluateRest _ _) fun _ => .get_bind ?_
  intro u hu v hv
  refine Steps.Meets.bind (Q := fun w x => w = v ∧ u.settle = .ok x)
    (Task.meets_ofExcept (fun _ h => ⟨rfl, h⟩) fun _ _ => hv) ?_
  rintro _ w ⟨rfl, hw⟩
  obtain ⟨n, rfl⟩ := exists_of_settle hw
  exact hu

/-- **The course of an evaluation.** A waiting roll shows that it is being evaluated, can be stopped
as it was before, and ends evaluated or failed. -/
theorem meets_course {r : Roll} (h : r.Waiting context.config) :
    (evaluation context r).Meets r.course := by
  have replayed : r.sheet.replayed = false := h.stands.2
  have created : r.sheet.state.isCreated = true := by rw [h.state]; rfl
  have shown : (evaluation context r).Meets
      { seen := Stands .evaluating, done := fun s _ => s.Stands .evaluated
        fail := fun s e => s.Stands (.failed e) } := by
    simp only [evaluation, evaluationWithin, evaluationBy, Task.bind_apply, Task.get_apply,
      Task.set_apply, Steps.bind, replayed, created, Bool.not_true, Bool.false_eq_true, if_false]
    refine Steps.Meets.bind (Q := fun s _ => s.Stands .evaluating)
      (Steps.Meets.onStop_of_seen (Steps.Meets.onFail_of_seen ?_)) ?_
    · have evaluating : (r.setState .evaluating).Stands .evaluating := ⟨rfl, replayed⟩
      refine (preserves_evaluateTerms _ evaluating).mono ?_ ?_ ?_ ?_
      · exact fun _ hs => hs
      · exact fun _ _ => trivial
      · exact fun _ _ hs => hs
      · exact fun _ _ hs => ⟨rfl, hs.2⟩
    · exact fun s _ hs => ⟨rfl, hs.2⟩
  refine ((meets_evaluation h).and shown).mono ?_ ?_ ?_ ?_
  · exact fun _ hs => hs.2
  · rintro (s | ⟨s, e⟩) ⟨hs, -⟩
    · exact congrArg _ hs
    · exact hs.elim
  · exact fun _ _ hs => hs.2
  · exact fun _ _ hs => hs.2

end

/-- A roll that does not wait for its evaluation refuses it. -/
theorem evaluation_of_stands {state : RollState} {r : Roll} (h : r.Stands state)
    (hs : state.isCreated = false) (context : Context) :
    evaluation context r = .fail r (.alreadyEvaluated "roll") := by
  obtain ⟨rfl, replayed⟩ := h
  simp only [evaluation, evaluationWithin, evaluationBy, Task.bind_apply, Task.get_apply,
    Steps.bind, replayed, hs, Bool.not_false, Bool.false_eq_true, if_false, if_true]
  rfl

/-- A roll that does not wait for its evaluation cannot be altered. -/
theorem alter_of_stands {state : RollState} {r : Roll} (h : r.Stands state)
    (hs : state.isCreated = false) (multiply add : Value) :
    alter multiply add r = .fail r (.alreadyEvaluated "roll") := by
  obtain ⟨rfl, -⟩ := h
  simp only [alter, Task.bind_apply, Task.get_apply, Steps.bind, hs, Bool.not_false, if_true]
  rfl

/-- The roll `s` is the roll `r` after some alterations, which may also have failed. -/
inductive Altered (r : Roll) : Roll → Prop
  | refl : Altered r r
  | alter {s : Roll} (multiply add : Value) (src : Source) : Altered r s →
      s.sheet.state = .created → Altered r ((alter multiply add s).run .never src).state

/-- The error of a roll that failed. -/
def error? (r : Roll) : Option Error :=
  match r.sheet.state with
  | .failed e => some e
  | _ => none

end Roll

/-! ## Sessions -/

/-- How far an attempt has come. Once it is under way it knows what stopping leaves behind. -/
inductive Progress
  | waiting
  | underWay (left : Left Roll) (rest : Steps Roll Unit)
  | ended

/-- An attempt to evaluate a roll. -/
structure Attempt where
  mode : Mode
  /-- The token that its driver looks at before every step, if it has a driver and a token. -/
  token : Option Nat
  progress : Progress := .waiting

/-- A roll with all attempts to evaluate it, the tokens that were cancelled, and the source that all
draws come from. -/
structure Session where
  roll : Roll
  attempts : List Attempt := []
  cancelled : List Nat := []
  source : Source

/-- What can be done in a session. Attempts are numbered in the order they are made. -/
inductive Action
  | attempt (mode : Mode) (token : Option Nat)
  | advance (i : Nat)
  | cancel (token : Nat)
  | stop (i : Nat)
  | close (i : Nat)
  | alter (multiply add : Value)
  | record

/-- What is answered. -/
inductive Reply
  | silent
  | paused
  | finished
  | raised (e : Error)
  | recorded (v : Value)

namespace Session

/-- Notes how far an attempt has come. -/
def setProgress (i : Nat) (p : Progress) (s : Session) : Session :=
  { s with attempts := s.attempts.modify i fun a => { a with progress := p } }

/-- Goes on with an attempt up to its next pause. -/
def resume (i : Nat) (steps : Steps Roll Unit) (s : Session) : Session × Reply :=
  match steps.advance s.source with
  | (.paused now left rest, source) =>
    ({ s with roll := now, source }.setProgress i (.underWay left rest), .paused)
  | (.finished r _, source) => ({ s with roll := r, source }.setProgress i .ended, .finished)
  | (.failed r e, source) => ({ s with roll := r, source }.setProgress i .ended, .raised e)

/-- Stops an attempt with a reply, unless something goes wrong when the roll is restored. -/
def stopWith (reply : Reply) (i : Nat) (a : Attempt) (s : Session) : Session × Reply :=
  match a.progress with
  | .waiting => (s.setProgress i .ended, reply)
  | .underWay (.clean r) _ => ({ s with roll := r }.setProgress i .ended, reply)
  | .underWay (.broken r e) _ => ({ s with roll := r }.setProgress i .ended, .raised e)
  | .ended => (s, reply)

/-- Whether the driver of an attempt finds its token cancelled. -/
def isCancelled (a : Attempt) (s : Session) : Bool := a.token.any s.cancelled.contains

/-- What the driver of an attempt raises when it finds the token cancelled. -/
def cancellation : Error := .cancelled "evaluation was cancelled"

/-- The evaluation that an attempt begins with. -/
def evaluationOf (mode : Mode) (r : Roll) : Steps Roll Unit :=
  Roll.evaluation { config := r.sheet.config, mode } r

/-- Advances an attempt by one step. -/
def advance (i : Nat) (a : Attempt) (s : Session) : Session × Reply :=
  match a.progress with
  | .ended => (s, .silent)
  | .waiting =>
    if s.isCancelled a then s.stopWith (.raised cancellation) i a
    else s.resume i (evaluationOf a.mode s.roll)
  | .underWay _ rest =>
    if s.isCancelled a then s.stopWith (.raised cancellation) i a
    else s.resume i rest

/-- Alters the roll. -/
def alter (multiply add : Value) (s : Session) : Session × Reply :=
  let report := (Roll.alter multiply add s.roll).run .never s.source
  ({ s with roll := report.state, source := report.source },
    match report.ending with
    | .failed e => .raised e
    | _ => .silent)

/-- Carries out an action. -/
def step (action : Action) (s : Session) : Session × Reply :=
  match action with
  | .attempt mode token => ({ s with attempts := s.attempts ++ [{ mode, token }] }, .silent)
  | .cancel token => ({ s with cancelled := token :: s.cancelled }, .silent)
  | .alter multiply add => s.alter multiply add
  | .record => (s, .recorded s.roll.toRecord)
  | .advance i =>
    match s.attempts[i]? with
    | some a => s.advance i a
    | none => (s, .silent)
  | .stop i =>
    match s.attempts[i]? with
    | some a => s.stopWith (.raised (.cancelled "evaluation task was cancelled")) i a
    | none => (s, .silent)
  | .close i =>
    match s.attempts[i]? with
    | some a => s.stopWith .silent i a
    | none => (s, .silent)

/-- What a history of actions makes of a roll. -/
def after (r : Roll) (src : Source) (history : List Action) : Session :=
  history.foldl (fun s action => (s.step action).1) { roll := r, source := src }

/-- The attempt at a place is under way. -/
def UnderWay (s : Session) (i : Nat) : Prop :=
  ∃ a left rest, s.attempts[i]? = some a ∧ a.progress = .underWay left rest

/-! ### Steps that are refused -/

variable {s : Session} {i : Nat} {a : Attempt} {state : RollState}

/-- The first step of an attempt that comes too late is refused, without any draw. -/
theorem advance_of_stands (h : s.roll.Stands state) (hs : state.isCreated = false)
    (ha : s.attempts[i]? = some a) (waits : a.progress = .waiting) :
    s.step (.advance i) = (s.setProgress i .ended,
      .raised (if s.isCancelled a then cancellation else .alreadyEvaluated "roll")) := by
  simp only [step, ha, advance, waits]
  by_cases hc : s.isCancelled a = true
  · simp only [hc, if_true, stopWith, waits]
  · simp only [hc, Bool.false_eq_true, if_false, resume, evaluationOf,
      Roll.evaluation_of_stands h hs, Steps.advance]

theorem alter_of_stands (h : s.roll.Stands state) (hs : state.isCreated = false)
    (multiply add : Value) :
    s.step (.alter multiply add) = (s, .raised (.alreadyEvaluated "roll")) := by
  simp only [step, alter, Roll.alter_of_stands h hs, Steps.run, Steps.runFrom]

/-! ### One attempt at a time -/

/-- Nothing but the attempt at a place may be under way. -/
def Only (s : Session) (i : Nat) : Prop := ∀ j, s.UnderWay j → j = i

/-- Nothing is under way. -/
def Idle (s : Session) : Prop := ∀ j, ¬s.UnderWay j

theorem Idle.only (h : s.Idle) (i : Nat) : s.Only i := fun j hj => absurd hj (h j)

theorem attempts_setProgress (i j : Nat) (p : Progress) (s : Session) :
    (s.setProgress i p).attempts[j]?
      = if i = j then s.attempts[j]?.map fun a => { a with progress := p } else s.attempts[j]? := by
  rw [setProgress, List.getElem?_modify]
  split
  · rfl
  · simp

theorem Only.setProgress (h : s.Only i) (p : Progress) : (s.setProgress i p).Only i := by
  rintro j ⟨a, left, rest, ha, hp⟩
  rw [attempts_setProgress] at ha
  split at ha
  · next e => exact e.symm
  · exact h j ⟨a, left, rest, ha, hp⟩

theorem Only.ended (h : s.Only i) : (s.setProgress i .ended).Idle := by
  intro j hj
  obtain rfl := h.setProgress .ended j hj
  obtain ⟨a, left, rest, ha, hp⟩ := hj
  rw [attempts_setProgress, if_pos rfl] at ha
  obtain ⟨b, -, rfl⟩ := Option.map_eq_some_iff.1 ha
  cases hp

/-! ### Sound sessions -/

section

variable (config) (r : Roll) (src : Source) (history : List Action)

/-- In the course of the history an attempt began with the roll `r₀` and the source `src₀`. Until then
nothing but alterations had changed the roll `r`. -/
structure Origin (i : Nat) (mode : Mode) (r₀ : Roll) (src₀ : Source) : Prop where
  begun : ∃ before rest a, history = before ++ .advance i :: rest
    ∧ (after r src before).attempts[i]? = some a ∧ a.progress = .waiting ∧ a.mode = mode
    ∧ (after r src before).roll = r₀ ∧ (after r src before).source = src₀
  waiting : r₀.Waiting config
  altered : r.Altered r₀

/-- What is known of a session at every moment of the history. -/
inductive Sound : Session → Prop
  | created {s : Session} : s.Idle → s.roll.Waiting config → r.Altered s.roll → Sound s
  | evaluating {s : Session} {i : Nat} {a : Attempt} {rest : Steps Roll Unit} {r₀ : Roll}
      {src₀ : Source} : s.Only i → s.roll.Stands .evaluating → s.attempts[i]? = some a →
      a.progress = .underWay (.clean r₀) rest → Origin config r src history i a.mode r₀ src₀ →
      rest.Meets r₀.course →
      ((evaluationOf a.mode r₀).run .never src₀).outcome = (rest.run .never s.source).outcome →
      Sound s
  | evaluated {s : Session} {i : Nat} {mode : Mode} {r₀ : Roll} {src₀ src' : Source} : s.Idle →
      s.roll.Stands .evaluated → Origin config r src history i mode r₀ src₀ →
      ((evaluationOf mode r₀).run .never src₀).outcome = (s.roll, .finished (), src') → Sound s
  | failed {s : Session} {e : Error} : s.Idle → s.roll.Stands (.failed e) → Sound s

end

variable {r r₀ : Roll} {src src₀ : Source} {history : List Action} {mode : Mode}

theorem Origin.append (h : Origin config r src history i mode r₀ src₀) (action : Action) :
    Origin config r src (history ++ [action]) i mode r₀ src₀ := by
  obtain ⟨⟨before, rest, a, rfl, h⟩, waiting, altered⟩ := h
  exact ⟨⟨before, rest ++ [action], a, by simp, h⟩, waiting, altered⟩

/-- An attempt that goes on leaves a sound session. -/
theorem sound_resume {rest : Steps Roll Unit} (only : s.Only i) (ha : s.attempts[i]? = some a)
    (origin : Origin config r src history i a.mode r₀ src₀) (meets : rest.Meets r₀.course)
    (same : ((evaluationOf a.mode r₀).run .never src₀).outcome
      = (rest.run .never s.source).outcome) :
    Sound config r src history (s.resume i rest).1 := by
  have meets := meets.advance s.source
  rw [Steps.outcome_advance rest] at same
  unfold resume
  split
  · next now left rest source halted =>
    rw [halted] at meets same
    obtain ⟨stands, rfl, meets⟩ := meets
    refine .evaluating (a := { a with progress := .underWay (.clean r₀) rest })
      (only.setProgress _) stands ?_ rfl origin meets same
    rw [attempts_setProgress, if_pos rfl]
    exact congrArg _ ha
  · next u _ source halted =>
    rw [halted] at meets same
    exact .evaluated only.ended meets origin same
  · next u e source halted =>
    rw [halted] at meets same
    exact .failed only.ended meets

/-- What does not touch the roll, the source and the attempt under way leaves a sound session. -/
theorem Sound.congr {t : Session} (h : Sound config r src history s) (roll : t.roll = s.roll)
    (source : t.source = s.source)
    (attempts : ∀ (i : Nat) (a : Attempt) (left : Left Roll) (rest : Steps Roll Unit),
      a.progress = .underWay left rest → (t.attempts[i]? = some a ↔ s.attempts[i]? = some a))
    (action : Action) :
    Sound config r src (history ++ [action]) t := by
  have underWay (i : Nat) (hi : t.UnderWay i) : s.UnderWay i := by
    obtain ⟨a, left, rest, ha, hp⟩ := hi
    exact ⟨a, left, rest, (attempts i a left rest hp).1 ha, hp⟩
  cases h with
  | created idle waiting altered =>
    exact .created (fun i hi => idle i (underWay i hi)) (roll ▸ waiting) (roll ▸ altered)
  | evaluating only stands ha hp origin meets same =>
    exact .evaluating (fun i hi => only i (underWay i hi)) (roll ▸ stands)
      ((attempts _ _ _ _ hp).2 ha) hp (origin.append action) meets (source ▸ same)
  | evaluated idle stands origin same =>
    exact .evaluated (fun i hi => idle i (underWay i hi)) (roll ▸ stands) (origin.append action)
      (roll ▸ same)
  | failed idle stands => exact .failed (fun i hi => idle i (underWay i hi)) (roll ▸ stands)

/-- An attempt that is not under way may be given up. -/
theorem Sound.giveUp (h : Sound config r src history s) (ha : s.attempts[i]? = some a)
    (waits : a.progress = .waiting) (action : Action) :
    Sound config r src (history ++ [action]) (s.setProgress i .ended) := by
  refine h.congr (t := s.setProgress i .ended) rfl rfl ?_ action
  intro j b left rest hp
  rw [attempts_setProgress]
  split
  · next e =>
    subst e
    rw [ha]
    refine ⟨fun hb => ?_, fun hb => ?_⟩
    · rw [← Option.some.inj hb] at hp
      cases hp
    · rw [← Option.some.inj hb, waits] at hp
      cases hp
  · rfl

/-- The attempt under way is the one that the roll shows. -/
theorem Sound.of_underWay {left : Left Roll} {rest : Steps Roll Unit}
    (h : Sound config r src history s) (ha : s.attempts[i]? = some a)
    (hp : a.progress = .underWay left rest) :
    s.Only i ∧ ∃ r₀ src₀, left = .clean r₀ ∧ Origin config r src history i a.mode r₀ src₀
      ∧ rest.Meets r₀.course
      ∧ ((evaluationOf a.mode r₀).run .never src₀).outcome
        = (rest.run .never s.source).outcome := by
  have underWay : s.UnderWay i := ⟨a, left, rest, ha, hp⟩
  cases h with
  | created idle | evaluated idle | failed idle => exact absurd underWay (idle i)
  | evaluating only stands hb hq origin meets same =>
    obtain rfl := only i underWay
    rw [hb] at ha
    obtain rfl := Option.some.inj ha
    rw [hq] at hp
    obtain ⟨rfl, rfl⟩ := Progress.underWay.inj hp
    exact ⟨only, _, _, rfl, origin, meets, same⟩

/-- Stopping an attempt leaves a sound session. -/
theorem Sound.stopWith (h : Sound config r src history s) (ha : s.attempts[i]? = some a)
    (reply : Reply) (action : Action) :
    Sound config r src (history ++ [action]) (s.stopWith reply i a).1 := by
  unfold Session.stopWith
  split
  · next waits => exact h.giveUp ha waits action
  · next u rest hp =>
    obtain ⟨only, r₀, src₀, hu, origin, -⟩ := h.of_underWay ha hp
    obtain rfl := Left.clean.inj hu
    exact .created only.ended origin.waiting origin.altered
  · next u e rest hp =>
    obtain ⟨-, r₀, src₀, hu, -⟩ := h.of_underWay ha hp
    cases hu
  · exact h.congr rfl rfl (fun _ _ _ _ _ => Iff.rfl) action

theorem Sound.stands (h : Sound config r src history s) : ∃ state, s.roll.Stands state := by
  cases h with
  | created _ waiting => exact ⟨_, waiting.stands⟩
  | evaluating _ stands | evaluated _ stands | failed _ stands => exact ⟨_, stands⟩

/-- A roll that waits is what the alterations have made of it. -/
theorem Sound.of_created (h : Sound config r src history s) (hs : s.roll.sheet.state = .created) :
    s.Idle ∧ s.roll.Waiting config ∧ r.Altered s.roll := by
  cases h with
  | created idle waiting altered => exact ⟨idle, waiting, altered⟩
  | evaluating _ stands | evaluated _ stands | failed _ stands =>
    rw [stands.1] at hs
    cases hs

/-- An attempt that is advanced for the first time leaves a sound session. -/
theorem Sound.begin (h : Sound config r src history s) (hs : s = after r src history)
    (ha : s.attempts[i]? = some a) (waits : a.progress = .waiting) :
    Sound config r src (history ++ [.advance i]) (s.resume i (evaluationOf a.mode s.roll)).1 := by
  obtain ⟨state, stands⟩ := h.stands
  cases hstate : state.isCreated with
  | true =>
    have created : s.roll.sheet.state = .created :=
      stands.1.trans (RollState.isCreated_iff.1 hstate)
    obtain ⟨idle, waiting, altered⟩ := h.of_created created
    have origin : Origin config r src (history ++ [.advance i]) i a.mode s.roll s.source :=
      ⟨⟨history, [], a, rfl, hs ▸ ha, waits, rfl, hs ▸ rfl, hs ▸ rfl⟩, waiting, altered⟩
    have meets : (evaluationOf a.mode s.roll).Meets s.roll.course := by
      obtain rfl := waiting.sheet.config
      exact Roll.meets_course waiting
    exact sound_resume (idle.only i) ha origin meets rfl
  | false =>
    have refused : (s.resume i (evaluationOf a.mode s.roll)).1 = s.setProgress i .ended := by
      simp only [resume, evaluationOf, Roll.evaluation_of_stands stands hstate, Steps.advance]
    rw [refused]
    exact h.giveUp ha waits _

/-- Advancing an attempt leaves a sound session. -/
theorem Sound.advance (h : Sound config r src history s) (hs : s = after r src history)
    (ha : s.attempts[i]? = some a) :
    Sound config r src (history ++ [.advance i]) (s.advance i a).1 := by
  unfold Session.advance
  split
  · exact h.congr rfl rfl (fun _ _ _ _ _ => Iff.rfl) _
  · next waits =>
    split
    · exact h.stopWith ha _ _
    · exact h.begin hs ha waits
  · next left rest hp =>
    split
    · exact h.stopWith ha _ _
    · obtain ⟨only, r₀, src₀, rfl, origin, meets, same⟩ := h.of_underWay ha hp
      exact sound_resume only ha (origin.append _) meets same

/-- An alteration leaves a sound session. -/
theorem Sound.alter (h : Sound config r src history s) (multiply add : Value) (action : Action) :
    Sound config r src (history ++ [action]) (s.alter multiply add).1 := by
  obtain ⟨state, stands⟩ := h.stands
  cases hstate : state.isCreated with
  | true =>
    have created : s.roll.sheet.state = .created :=
      stands.1.trans (RollState.isCreated_iff.1 hstate)
    obtain ⟨idle, waiting, altered⟩ := h.of_created created
    exact .created idle (waiting.alter multiply add s.source)
      (altered.alter multiply add s.source created)
  | false =>
    have refused : (s.alter multiply add).1 = s := by
      simp only [Session.alter, Roll.alter_of_stands stands hstate, Steps.run, Steps.runFrom]
    rw [refused]
    exact h.congr rfl rfl (fun _ _ _ _ _ => Iff.rfl) action

/-- **One step.** Every action leaves a sound session. -/
theorem Sound.step (h : Sound config r src history s) (hs : s = after r src history)
    (action : Action) : Sound config r src (history ++ [action]) (s.step action).1 := by
  have same (t : Session) (roll : t.roll = s.roll) (source : t.source = s.source)
      (attempts : t.attempts = s.attempts) : Sound config r src (history ++ [action]) t :=
    h.congr roll source (fun i a left rest hp => by rw [attempts]) action
  cases action with
  | record | cancel token => exact same _ rfl rfl rfl
  | attempt mode token =>
    refine h.congr (t := (s.step (.attempt mode token)).1) rfl rfl ?_ _
    intro i a left rest hp
    show (s.attempts ++ [⟨mode, token, .waiting⟩])[i]? = some a ↔ s.attempts[i]? = some a
    rw [List.getElem?_append]
    split
    · rfl
    · next beyond =>
      rw [List.getElem?_eq_none (Nat.le_of_not_lt beyond)]
      refine ⟨fun ha => ?_, nofun⟩
      obtain rfl := List.mem_singleton.1 (List.mem_of_getElem? ha)
      cases hp
  | alter multiply add => exact h.alter multiply add _
  | advance i =>
    rw [Session.step]
    split
    · next a ha => exact h.advance hs ha
    · exact same _ rfl rfl rfl
  | stop i | close i =>
    rw [Session.step]
    split
    · next a ha => exact h.stopWith ha _ _
    · exact same _ rfl rfl rfl

theorem after_append (r : Roll) (src : Source) (history : List Action) (action : Action) :
    after r src (history ++ [action]) = ((after r src history).step action).1 := by
  rw [after, List.foldl_append]
  rfl

/-- **The whole run.** Every history leaves a sound session. -/
theorem sound_after (h : r.Waiting config) (src : Source) (history : List Action) :
    Sound config r src history (after r src history) := by
  induction history using List.reverseRecOn with
  | nil => exact .created (by rintro i ⟨a, left, rest, ha, -⟩; cases ha) h .refl
  | append_singleton history action ih =>
    rw [after_append]
    exact ih.step rfl action

/-! ### What this means -/

/-- Once the roll is evaluated or failed, no action changes it. -/
theorem roll_step_of_idle (idle : s.Idle) (h : s.roll.Stands state) (hs : state.isCreated = false)
    (action : Action) : (s.step action).1.roll = s.roll := by
  have stopped (reply : Reply) (i : Nat) (a : Attempt) (ha : s.attempts[i]? = some a) :
      (s.stopWith reply i a).1.roll = s.roll := by
    unfold stopWith
    split
    · rfl
    · next r rest hp => exact absurd ⟨a, _, _, ha, hp⟩ (idle i)
    · next r e rest hp => exact absurd ⟨a, _, _, ha, hp⟩ (idle i)
    · rfl
  cases action with
  | record | cancel token | attempt mode token => rfl
  | alter multiply add => rw [alter_of_stands h hs]
  | advance i =>
    cases ha : s.attempts[i]? with
    | none => simp only [step, ha]
    | some a =>
      cases hp : a.progress with
      | waiting => rw [advance_of_stands h hs ha hp]; rfl
      | underWay left rest => exact absurd ⟨a, left, rest, ha, hp⟩ (idle i)
      | ended => simp only [step, ha, advance, hp]
  | stop i | close i =>
    cases ha : s.attempts[i]? with
    | none => simp only [step, ha]
    | some a =>
      simp only [step, ha]
      exact stopped _ i a ha

theorem roll_after_append (h : r.Waiting config) (src : Source) (history : List Action)
    (settled : (after r src history).roll.evaluated = true
      ∨ (after r src history).roll.error?.isSome = true) (further : List Action) :
    (after r src (history ++ further)).roll = (after r src history).roll := by
  induction further using List.reverseRecOn with
  | nil => rw [List.append_nil]
  | append_singleton further action ih =>
    have sound := sound_after h src (history ++ further)
    rw [← ih] at settled ⊢
    rw [← List.append_assoc, after_append]
    rw [Roll.evaluated, Roll.error?] at settled
    cases sound with
    | created _ waiting =>
      rw [waiting.state] at settled
      exact settled.elim nofun nofun
    | evaluating _ stands =>
      rw [stands.1] at settled
      exact settled.elim nofun nofun
    | evaluated idle stands | failed idle stands => exact roll_step_of_idle idle stands rfl action

/-- What may be relied on at every moment. -/
structure Orderly (s : Session) : Prop where
  /-- At most one attempt is under way. -/
  one : ∀ i j, s.UnderWay i → s.UnderWay j → i = j
  /-- One is, just while the roll is being evaluated. -/
  evaluating : s.roll.sheet.state = .evaluating ↔ ∃ i, s.UnderWay i
  /-- Only an evaluated roll has a total. -/
  total : s.roll.total ≠ .null → s.roll.sheet.state = .evaluated
  /-- Only a failed roll has an error. -/
  error : s.roll.error?.isSome = true → ∃ e, s.roll.sheet.state = .failed e
  /-- An attempt whose first step comes too late is refused; neither the roll nor the source
  changes. -/
  late : s.roll.sheet.state ≠ .created → ∀ i a, s.attempts[i]? = some a → a.progress = .waiting →
    s.step (.advance i) = (s.setProgress i .ended,
      .raised (if s.isCancelled a then cancellation else .alreadyEvaluated "roll"))
  /-- An alteration that comes too late is refused and changes nothing. -/
  altered : s.roll.sheet.state ≠ .created → ∀ multiply add,
    s.step (.alter multiply add) = (s, .raised (.alreadyEvaluated "roll"))

theorem Sound.orderly (h : Sound config r src history s) : s.Orderly := by
  obtain ⟨state, stands⟩ := h.stands
  have refuses (hs : s.roll.sheet.state ≠ .created) : state.isCreated = false := by
    rw [stands.1] at hs
    exact Bool.eq_false_iff.2 fun created => hs (RollState.isCreated_iff.1 created)
  refine
    { one := ?_
      evaluating := ?_
      total := ?_
      error := ?_
      late := fun hs i a ha waits => advance_of_stands stands (refuses hs) ha waits
      altered := fun hs multiply add => alter_of_stands stands (refuses hs) multiply add }
  · intro i j hi hj
    cases h with
    | created idle | evaluated idle | failed idle => exact absurd hi (idle i)
    | evaluating only => exact (only i hi).trans (only j hj).symm
  · cases h with
    | created idle waiting =>
      rw [waiting.state]
      exact ⟨nofun, fun ⟨i, hi⟩ => absurd hi (idle i)⟩
    | evaluating only stands ha hp =>
      exact ⟨fun _ => ⟨_, _, _, _, ha, hp⟩, fun _ => stands.1⟩
    | evaluated idle stands | failed idle stands =>
      rw [stands.1]
      exact ⟨nofun, fun ⟨i, hi⟩ => absurd hi (idle i)⟩
  · intro total
    rw [Roll.total, Roll.evaluated, stands.1] at total
    rw [stands.1]
    cases state with
    | evaluated => rfl
    | _ => exact absurd rfl total
  · intro error
    rw [Roll.error?, stands.1] at error
    rw [stands.1]
    cases state with
    | failed e => exact ⟨e, rfl⟩
    | _ => cases error

/-- **A roll is evaluated at most once**, whatever is done with it in whatever order. At every moment
its session is orderly; once it is evaluated or failed it never changes again; and when it is
evaluated, it is what a single run that nothing stops makes of it: of the roll as it waited when some
attempt began, changed by alterations only, on the draws that came next. -/
theorem evaluated_once {formula data options : Value} {r : Roll}
    (h : Roll.create formula data options config = .ok r) (src : Source)
    (history : List Action) :
    let s := after r src history
    s.Orderly
      ∧ (s.roll.evaluated = true ∨ s.roll.error?.isSome = true →
          ∀ further, (after r src (history ++ further)).roll = s.roll)
      ∧ (s.roll.evaluated = true →
          ∃ before i rest a, history = before ++ .advance i :: rest
            ∧ let t := after r src before
              let report := (evaluationOf a.mode t.roll).run .never t.source
              t.attempts[i]? = some a ∧ a.progress = .waiting
                ∧ t.roll.sheet.state = .created ∧ r.Altered t.roll
                ∧ report.ending = .finished () ∧ report.state = s.roll) := by
  have waiting := Roll.waiting_of_create h
  have sound := sound_after waiting src history
  refine ⟨sound.orderly, roll_after_append waiting src history, ?_⟩
  intro evaluated
  rw [Roll.evaluated] at evaluated
  cases sound with
  | created _ waiting =>
    rw [waiting.state] at evaluated
    cases evaluated
  | evaluating _ stands | failed _ stands =>
    rw [stands.1] at evaluated
    cases evaluated
  | evaluated _ stands origin same =>
    obtain ⟨⟨before, rest, a, hhistory, ha, waits, rfl, rfl, rfl⟩, waiting, altered⟩ := origin
    have state := congrArg (·.1) same
    have ending := congrArg (·.2.1) same
    exact ⟨before, _, rest, a, hhistory, ha, waits, waiting.state, altered, ending, state⟩

/-- Three attempts: the first one is cancelled while it rolls, the second one comes too late, and the
third one evaluates the roll with twice as many dice. -/
theorem evaluated_once_altered :
    ∃ r, Roll.create (.str "1d6 + (2d4)") .null .null .diceOnly = .ok r
      ∧ let history : List Action := [.attempt .random (some 0), .attempt .random none, .advance 0,
          .advance 1, .cancel 0, .advance 0, .alter (.int 2) .null, .attempt .maximum none]
          ++ List.replicate 12 (.advance 2)
        let s := after r { pending := [0.5, 0.25], fill := none } history
        s.Orderly ∧ s.roll.total.int? = some 20
          ∧ ∀ further, (after r { pending := [0.5, 0.25], fill := none }
            (history ++ further)).roll = s.roll := by
  let history : List Action := [.attempt .random (some 0), .attempt .random none, .advance 0,
    .advance 1, .cancel 0, .advance 0, .alter (.int 2) .null, .attempt .maximum none]
    ++ List.replicate 12 (.advance 2)
  let src : Source := { pending := [0.5, 0.25], fill := none }
  obtain ⟨r, h, hcheck⟩ := Roll.exists_of_create_any (.str "1d6 + (2d4)") .null .null .diceOnly
    (fun r => (after r src history).roll.evaluated
      && (after r src history).roll.total.int? == some 20) (by decide +kernel)
  obtain ⟨evaluated, total⟩ := Bool.and_eq_true_iff.1 hcheck
  obtain ⟨orderly, final, -⟩ := evaluated_once h src history
  exact ⟨r, h, orderly, eq_of_beq total, final (.inl evaluated)⟩

end Session

end DiceFormula
