import DiceFormula.Evaluation.Run

/-!
# Contracts of evaluations

A `Contract` asks something of everything that an evaluation can show: of the states seen at its
pauses, of what is left behind by stopping there, of its results and of its failures.
`Steps.Meets c` says that an evaluation keeps the contract whatever is drawn. There is one rule for
every way to build an evaluation (`Meets.bind`, `Meets.mapState`, `Meets.beside`, `Meets.onFail`,
`Meets.onStop`), and `Steps.allows_run` carries a contract over to a run on a source of draws.
-/

namespace DiceFormula

/-- What is asked of an evaluation: of the states seen at its pauses, of what is left by stopping
there, of its results, and of its failures. -/
structure Contract (σ α : Type) where
  seen : σ → Prop := fun _ => True
  left : Left σ → Prop := fun _ => True
  done : σ → α → Prop := fun _ _ => True
  fail : σ → Error → Prop := fun _ _ => True

namespace Contract

variable {σ τ α β : Type}

/-- The same demands before the end, another one of the results. -/
def onDone (c : Contract σ α) (done : σ → β → Prop) : Contract σ β :=
  { seen := c.seen, left := c.left, done, fail := c.fail }

/-- What is asked of a part, if `c` is asked of the whole that `f` makes of it. -/
def pull (f : σ → τ) (c : Contract τ α) : Contract σ α :=
  { seen := fun s => c.seen (f s), left := fun l => c.left (l.map f)
    done := fun s a => c.done (f s) a, fail := fun s e => c.fail (f s) e }

/-- What a report may tell: a state that the contract allows for the way the evaluation ended. A
failure may also be one that came up while the state before was restored. -/
def Allows (c : Contract σ α) (report : Report σ α) : Prop :=
  match report.ending with
  | .finished a => c.done report.state a
  | .failed e => c.fail report.state e ∨ c.left (.broken report.state e)
  | .stopped => c.left (.clean report.state)

end Contract

namespace Left

variable {σ τ : Type}

/-- Nothing went wrong when the state before was restored, and the state left behind satisfies
`P`. -/
def Holds (P : σ → Prop) : Left σ → Prop
  | clean s => P s
  | broken _ _ => False

/-- Nothing went wrong when the state before was restored. -/
abbrev IsClean : Left σ → Prop := Holds fun _ => True

@[simp] theorem holds_map (P : τ → Prop) (f : σ → τ) (l : Left σ) :
    (l.map f).Holds P ↔ l.Holds fun s => P (f s) := by
  cases l <;> rfl

theorem Holds.mono {P Q : σ → Prop} {l : Left σ} (h : l.Holds P) (hPQ : ∀ s, P s → Q s) :
    l.Holds Q := by
  cases l with
  | clean s => exact hPQ s h
  | broken s e => exact h

end Left

/-- Whether an evaluation ended well. -/
def Ending.isFinished {α : Type} : Ending α → Bool
  | .finished _ => true
  | .failed _ | .stopped => false

theorem Ending.eq_of_isFinished : ∀ {e : Ending Unit}, e.isFinished = true → e = .finished ()
  | .finished _, _ => rfl

namespace Steps

variable {σ τ α β : Type}

/-- The evaluation keeps the contract, whatever is drawn. -/
def Meets (c : Contract σ α) : Steps σ α → Prop
  | done s a => c.done s a
  | fail s e => c.fail s e
  | pause now left rest => c.seen now ∧ c.left left ∧ Meets c (rest ())
  | draw rest => ∀ x, Meets c (rest x)

/-! ## Rules -/

theorem Meets.mono {c d : Contract σ α} {x : Steps σ α} (h : x.Meets c)
    (seen : ∀ s, c.seen s → d.seen s) (left : ∀ l, c.left l → d.left l)
    (done : ∀ s a, c.done s a → d.done s a) (fail : ∀ s e, c.fail s e → d.fail s e) :
    x.Meets d := by
  induction x with
  | done s a => exact done s a h
  | fail s e => exact fail s e h
  | pause now l rest ih => exact ⟨seen now h.1, left l h.2.1, ih () h.2.2⟩
  | draw rest ih =>
    intro x
    exact ih x (h x)

/-- What holds of everything holds of what an evaluation can show. -/
theorem Meets.of_forall {c : Contract σ α} (seen : ∀ s, c.seen s) (left : ∀ l, c.left l)
    (done : ∀ s a, c.done s a) (fail : ∀ s e, c.fail s e) (x : Steps σ α) : x.Meets c := by
  induction x with
  | done s a => exact done s a
  | fail s e => exact fail s e
  | pause now l rest ih => exact ⟨seen now, left l, ih ()⟩
  | draw rest ih => exact ih

/-- Results may be known less exactly. -/
theorem Meets.mono_done {c : Contract σ α} {Q : σ → α → Prop} {x : Steps σ α} (h : x.Meets c)
    (done : ∀ s a, c.done s a → Q s a) : x.Meets (c.onDone Q) := by
  refine h.mono ?_ ?_ done ?_
  · exact fun _ => id
  · exact fun _ => id
  · exact fun _ _ => id

/-- Where nothing is asked of what is seen and of failures, what is left and the results count. -/
theorem Meets.mono_ends {P P' : Left σ → Prop} {Q Q' : σ → α → Prop} {x : Steps σ α}
    (h : x.Meets { left := P, done := Q }) (left : ∀ l, P l → P' l)
    (done : ∀ s a, Q s a → Q' s a) : x.Meets { left := P', done := Q' } := by
  refine h.mono ?_ left done ?_
  · exact fun _ => id
  · exact fun _ _ => id

/-- One evaluation after another: what the first one promises of its results, the second one
starts from. -/
theorem Meets.bind {c : Contract σ β} {x : Steps σ α} {f : σ → α → Steps σ β} {Q : σ → α → Prop}
    (hx : x.Meets (c.onDone Q)) (hf : ∀ s a, Q s a → (f s a).Meets c) : (x.bind f).Meets c := by
  induction x with
  | done s a => exact hf s a hx
  | fail s e => exact hx
  | pause now l rest ih => exact ⟨hx.1, hx.2.1, ih () hx.2.2⟩
  | draw rest ih =>
    intro x
    exact ih x (hx x)

theorem Meets.mapState {c : Contract τ α} {f : σ → τ} {x : Steps σ α} (hx : x.Meets (c.pull f)) :
    (x.mapState f).Meets c := by
  induction x with
  | done s a => exact hx
  | fail s e => exact hx
  | pause now l rest ih => exact ⟨hx.1, hx.2.1, ih () hx.2.2⟩
  | draw rest ih =>
    intro x
    exact ih x (hx x)

theorem Meets.beside {c : Contract τ (σ × α)} {t : τ} {x : Steps σ α}
    (hx : x.Meets
      { seen := fun _ => c.seen t, left := fun l => c.left (l.map fun _ => t)
        done := fun s a => c.done t (s, a), fail := fun _ e => c.fail t e }) :
    (x.beside t).Meets c := by
  induction x with
  | done s a => exact hx
  | fail s e => exact hx
  | pause now l rest ih => exact ⟨hx.1, hx.2.1, ih () hx.2.2⟩
  | draw rest ih =>
    intro x
    exact ih x (hx x)

/-- A handler of failures does not touch what is left by stopping, as long as that is no failure. -/
theorem Meets.onFail {P : σ → Prop} {c : Contract σ α} {f : Error → σ → σ} {x : Steps σ α}
    (hx : x.Meets { c with left := Left.Holds P, fail := fun s e => c.fail (f e s) e }) :
    (x.onFail f).Meets { c with left := Left.Holds P } := by
  induction x with
  | done s a => exact hx
  | fail s e => exact hx
  | pause now l rest ih =>
    cases l with
    | clean s => exact ⟨hx.1, hx.2.1, ih () hx.2.2⟩
    | broken s e => exact absurd hx.2.1 id
  | draw rest ih =>
    intro x
    exact ih x (hx x)

/-- A handler of stops starts from what is left without it. -/
theorem Meets.onStop {c : Contract σ α} {f : σ → Left σ} {x : Steps σ α}
    (hx : x.Meets { c with left := Left.Holds fun s => c.left (f s) }) :
    (x.onStop f).Meets c := by
  induction x with
  | done s a => exact hx
  | fail s e => exact hx
  | pause now l rest ih =>
    cases l with
    | clean s => exact ⟨hx.1, hx.2.1, ih () hx.2.2⟩
    | broken s e => exact absurd hx.2.1 id
  | draw rest ih =>
    intro x
    exact ih x (hx x)

section

variable {seen : σ → Prop} {done : σ → α → Prop} {fail : σ → Error → Prop}

/-- Where nothing is asked of what is left by stopping, a handler of failures is told them all. -/
theorem Meets.onFail_of_seen {f : Error → σ → σ} {x : Steps σ α}
    (hx : x.Meets { seen, done, fail := fun s e => fail (f e s) e }) :
    (x.onFail f).Meets { seen, done, fail } := by
  induction x with
  | done s a => exact hx
  | fail s e => exact hx
  | pause now l rest ih => exact ⟨hx.1, trivial, ih () hx.2.2⟩
  | draw rest ih => exact fun x => ih x (hx x)

/-- Where nothing is asked of what is left by stopping, a handler of stops changes nothing. -/
theorem Meets.onStop_of_seen {f : σ → Left σ} {x : Steps σ α}
    (hx : x.Meets { seen, done, fail }) : (x.onStop f).Meets { seen, done, fail } := by
  induction x with
  | done s a => exact hx
  | fail s e => exact hx
  | pause now l rest ih => exact ⟨hx.1, trivial, ih () hx.2.2⟩
  | draw rest ih => exact fun x => ih x (hx x)

end

/-- Two contracts that are kept are kept together. -/
theorem Meets.and {c d : Contract σ α} {x : Steps σ α} (hc : x.Meets c) (hd : x.Meets d) :
    x.Meets
      { seen := fun s => c.seen s ∧ d.seen s, left := fun l => c.left l ∧ d.left l
        done := fun s a => c.done s a ∧ d.done s a, fail := fun s e => c.fail s e ∧ d.fail s e } := by
  induction x with
  | done s a => exact ⟨hc, hd⟩
  | fail s e => exact ⟨hc, hd⟩
  | pause now l rest ih => exact ⟨⟨hc.1, hd.1⟩, ⟨hc.2.1, hd.2.1⟩, ih () hc.2.2 hd.2.2⟩
  | draw rest ih => exact fun x => ih x (hc x) (hd x)

/-! ## Runs -/

theorem allows_runFrom {c : Contract σ α} (rule : StopRule) (start : Nat) {x : Steps σ α}
    (hx : x.Meets c) (points : List Nat) (src : Source) :
    c.Allows (x.runFrom rule start points src) := by
  induction x generalizing points src with
  | done s a => exact hx
  | fail s e => exact Or.inl hx
  | pause now l rest ih =>
    simp only [runFrom]
    split
    · cases l with
      | clean s => exact hx.2.1
      | broken s e => exact Or.inr hx.2.1
    · exact ih () hx.2.2 _ _
  | draw rest ih => exact ih _ (hx _) _ _

/-- Whatever source an evaluation is carried out on, and whenever it is stopped, its report tells
what the contract allows. -/
theorem allows_run {c : Contract σ α} (rule : StopRule) {x : Steps σ α} (hx : x.Meets c)
    (src : Source) : c.Allows (x.run rule src) := allows_runFrom rule _ hx _ _

/-! ## Stopped runs

How a run that may be stopped compares with the one that never is. -/

/-- A rule either stops a run or does not change it at all. -/
theorem runFrom_eq_or_stopped {rule : StopRule} {start : Nat} {x : Steps σ α}
    (hx : x.Meets { left := Left.IsClean }) (points : List Nat) (src : Source) :
    x.runFrom rule start points src = x.runFrom .never start points src
      ∨ (x.runFrom rule start points src).ending = .stopped := by
  induction x generalizing points src with
  | done s a => exact .inl rfl
  | fail s e => exact .inl rfl
  | pause now l rest ih =>
    obtain ⟨-, hl, hrest⟩ := hx
    simp only [runFrom]
    split
    · cases l with
      | clean s => exact .inr rfl
      | broken s e => exact absurd hl id
    · exact ih () hrest _ _
  | draw rest ih => exact ih _ (hx _) _ _

/-- Every pause of a run is a place to stop it. -/
theorem runFrom_atPoint {n start : Nat} {x : Steps σ α} (hx : x.Meets { left := Left.IsClean })
    (points : List Nat) (src : Source) (hn : points.length < n)
    (hle : n ≤ (x.runFrom .never start points src).points.length) :
    (x.runFrom (.atPoint n) start points src).ending = .stopped := by
  induction x generalizing points src with
  | done s a =>
    simp only [runFrom, List.length_reverse] at hle
    omega
  | fail s e =>
    simp only [runFrom, List.length_reverse] at hle
    omega
  | pause now l rest ih =>
    obtain ⟨-, hl, hrest⟩ := hx
    by_cases h : points.length + 1 = n
    · simp only [runFrom, StopRule.atPoint, List.length_cons, h, beq_self_eq_true, if_true]
      cases l with
      | clean s => rfl
      | broken s e => exact absurd hl id
    · have hne : ((points.length + 1) == n) = false := by simpa using h
      simp only [runFrom, StopRule.atPoint, List.length_cons, hne, Bool.false_eq_true, if_false]
      exact ih () hrest _ _ (by simp only [List.length_cons]; omega) hle
  | draw rest ih => exact ih _ (hx _) _ _ hn hle

end Steps

namespace Task

variable {σ τ α β : Type}

/-! ## Tasks that begin

What a task is once it has a state to begin with. -/

@[simp] theorem pure_apply (a : α) (s : σ) : (pure a : Task σ α) s = .done s a := rfl

@[simp] theorem bind_apply (t : Task σ α) (f : α → Task σ β) (s : σ) :
    (t >>= f) s = (t s).bind fun s a => f a s := rfl

@[simp] theorem get_apply (s : σ) : (get : Task σ σ) s = .done s s := rfl

@[simp] theorem set_apply (t s : σ) : set t s = .done t () := rfl

@[simp] theorem modify_apply (f : σ → σ) (s : σ) : modify f s = .done (f s) () := rfl

@[simp] theorem fail_apply (e : Error) (s : σ) : (fail e : Task σ α) s = .fail s e := rfl

@[simp] theorem pause_apply (s : σ) :
    (pause : Task σ Unit) s = .pause s (.clean s) fun _ => .done s () := rfl

@[simp] theorem ofExcept_ok (a : α) (s : σ) : ofExcept (.ok a) s = .done s a := rfl

@[simp] theorem ofExcept_error (e : Error) (s : σ) :
    (ofExcept (.error e) : Task σ α) s = .fail s e := rfl

/-- A computation that rolls nothing ends with its value or fails. -/
theorem meets_ofExcept {c : Contract σ α} {x : Except Error α} {s : σ}
    (ok : ∀ a, x = .ok a → c.done s a) (error : ∀ e, x = .error e → c.fail s e) :
    (ofExcept x s).Meets c := by
  cases x with
  | ok a => exact ok a rfl
  | error e => exact error e rfl

/-- A draw may give any number, or none. -/
theorem meets_draw {c : Contract σ Float} {s : σ} (done : ∀ x, c.done s x)
    (fail : c.fail s .drawsExhausted) : (draw s).Meets c := by
  intro x
  cases x with
  | some x => exact done x
  | none => exact fail

/-! ## Invariants -/

/-- The task keeps `I`, and wherever it is stopped it leaves a state that satisfies `P`. -/
def Keeps (P I : σ → Prop) (t : Task σ α) : Prop :=
  ∀ s, I s → (t s).Meets { left := Left.Holds P, done := fun s _ => I s }

namespace Keeps

variable {P I : σ → Prop} {t : Task σ α}

theorem pure (a : α) : Keeps P I (pure a : Task σ α) := fun _ h => h

theorem bind {f : α → Task σ β} (ht : Keeps P I t) (hf : ∀ a, Keeps P I (f a)) :
    Keeps P I (t >>= f) := fun s h => (ht s h).bind fun s a h => hf a s h

/-- What is done with the state may count on the invariant. -/
theorem get_bind {f : σ → Task σ α} (hf : ∀ s, I s → Keeps P I (f s)) :
    Keeps P I (get >>= f) := fun s h => hf s h s h

theorem fail (e : Error) : Keeps P I (fail e : Task σ α) := fun _ _ => trivial

theorem ofExcept (x : Except Error α) : Keeps P I (ofExcept x) :=
  fun _ h => meets_ofExcept (fun _ _ => h) fun _ _ => trivial

theorem draw : Keeps P I draw := fun _ h => meets_draw (fun _ => h) trivial

theorem pause (h : ∀ s, I s → P s) : Keeps P I pause := fun s hs => ⟨trivial, h s hs, hs⟩

theorem modify {f : σ → σ} (h : ∀ s, I s → I (f s)) : Keeps P I (modify f) := h

theorem set {s : σ} (h : I s) : Keeps P I (set s) := fun _ _ => h

end Keeps

/-! ## What is always true -/

/-- If `I` holds in the beginning, it holds wherever the task is seen, ends or fails. -/
def Preserves (I : σ → Prop) (t : Task σ α) : Prop :=
  ∀ s, I s → (t s).Meets { seen := I, done := fun s _ => I s, fail := fun s _ => I s }

namespace Preserves

variable {I : σ → Prop} {t : Task σ α}

theorem pure (a : α) : Preserves I (pure a : Task σ α) := fun _ h => h

theorem bind {f : α → Task σ β} (ht : Preserves I t) (hf : ∀ a, Preserves I (f a)) :
    Preserves I (t >>= f) := fun s h => (ht s h).bind fun s a h => hf a s h

theorem get_bind {f : σ → Task σ α} (hf : ∀ s, I s → Preserves I (f s)) :
    Preserves I (get >>= f) := fun s h => hf s h s h

theorem pause : Preserves I pause := fun _ h => ⟨h, trivial, h⟩

theorem modify {f : σ → σ} (h : ∀ s, I s → I (f s)) : Preserves I (modify f) := h

theorem set {s : σ} (h : I s) : Preserves I (set s) := fun _ _ => h

theorem ofExcept (x : Except Error α) : Preserves I (ofExcept x) :=
  fun _ h => meets_ofExcept (fun _ _ => h) fun _ _ => h

/-- What is done in place is known by what is put back. -/
theorem within {get : σ → τ} {put : τ → σ → σ} {t : Task τ α}
    (h : ∀ s part, I s → I (put part s)) : Preserves I (within get put t) :=
  fun s hs => Steps.Meets.mapState (.of_forall (fun part => h s part hs) (fun _ => trivial)
    (fun part _ => h s part hs) (fun part _ => h s part hs) _)

theorem aside (start : τ) (t : Task τ α) : Preserves I (aside start t) :=
  fun _ hs => Steps.Meets.beside (.of_forall (fun _ => hs) (fun _ => trivial) (fun _ _ => hs)
    (fun _ _ => hs) _)

theorem onStop {f : σ → Left σ} (h : Preserves I t) : Preserves I (t.onStop f) :=
  fun s hs => (h s hs).onStop_of_seen

end Preserves

end Task

end DiceFormula
