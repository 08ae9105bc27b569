import DiceFormula.Proofs.Evaluation.Advance
import DiceFormula.Proofs.Evaluation.Draws
import DiceFormula.Proofs.Evaluation.Pauses

/-!
# What an evaluation comes to

An evaluation that nothing stops comes to a result or an error, with draws taken from a source on
the way. `Steps.result` forgets its pauses and the states it fails in, and what is left is a
computation that may fail and changes the source: a `Drawing`. It can be found along every way to
build an evaluation (`Steps.result_bind`, `Steps.result_mapState`, `Steps.result_beside`), so that
evaluations which take different steps can be seen to come to the same. `Steps.outcome_run` says that
this is what a run reports.

An evaluation that makes just the draws of a list comes to the same whatever the source holds behind
them (`Steps.result_append`), and how many draws were made before makes no difference to it
(`Steps.result_shift`).
-/

namespace DiceFormula

/-! ## Computations that draw -/

/-- A computation that may fail and takes draws from a source. -/
def Drawing (α : Type) : Type := Source → Except Error α × Source

namespace Drawing

variable {α β : Type}

instance : Monad Drawing where
  pure a := fun src => (.ok a, src)
  bind x f := fun src =>
    match x src with
    | (.ok a, src) => f a src
    | (.error e, src) => (.error e, src)

/-- Fails. -/
def fail (e : Error) : Drawing α := fun src => (.error e, src)

/-- Takes a draw, if there is one more. -/
def next : Drawing (Option Float) := fun src => (.ok src.next.1, src.next.2)

/-- A computation that takes no draws. -/
def ofExcept : Except Error α → Drawing α
  | .ok a => pure a
  | .error e => fail e

@[simp] theorem ofExcept_ok (a : α) : ofExcept (.ok a) = pure a := rfl

@[simp] theorem ofExcept_error (e : Error) : (ofExcept (.error e) : Drawing α) = fail e := rfl

theorem ofExcept_bind (x : Except Error α) (f : α → Except Error β) :
    ofExcept (x >>= f) = ofExcept x >>= fun a => ofExcept (f a) := by
  cases x <;> rfl

@[simp] theorem ofExcept_apply (x : Except Error α) (src : Source) :
    ofExcept x src = (x, src) := by
  cases x <;> rfl

@[simp] theorem pure_apply (a : α) (src : Source) : (pure a : Drawing α) src = (.ok a, src) := rfl

@[simp] theorem fail_apply (e : Error) (src : Source) :
    (fail e : Drawing α) src = (.error e, src) := rfl

@[simp] theorem fail_bind (e : Error) (f : α → Drawing β) : (fail e >>= f) = fail e := rfl

section

variable {x : Drawing α} {src src' : Source}

theorem bind_of_ok {a : α} (h : x src = (.ok a, src')) (f : α → Drawing β) :
    (x >>= f) src = f a src' := by
  show (match x src with
    | (.ok a, src) => f a src
    | (.error e, src) => (.error e, src)) = _
  rw [h]

theorem bind_of_error {e : Error} (h : x src = (.error e, src')) (f : α → Drawing β) :
    (x >>= f) src = (.error e, src') := by
  show (match x src with
    | (.ok a, src) => f a src
    | (.error e, src) => (.error e, src)) = _
  rw [h]

end

instance : LawfulMonad Drawing :=
  LawfulMonad.mk' _
    (by
      intro α x
      funext src
      cases h : x src with
      | mk a src' =>
        cases a with
        | ok a => exact bind_of_ok h _
        | error e => exact bind_of_error h _)
    (fun _ _ => rfl)
    (by
      intro α β γ x f g
      funext src
      cases h : x src with
      | mk a src' =>
        cases a with
        | ok a =>
          rw [bind_of_ok h]
          show (match (x >>= f) src with
            | (.ok b, src) => g b src
            | (.error e, src) => (.error e, src)) = _
          rw [bind_of_ok h]
          rfl
        | error e => rw [bind_of_error h, bind_of_error (bind_of_error h _)])

@[simp] theorem map_fail (e : Error) (f : α → β) : f <$> (fail e : Drawing α) = fail e := rfl

theorem map_of_ok {x : Drawing α} {src src' : Source} {a : α} (h : x src = (.ok a, src'))
    (f : α → β) : (f <$> x) src = (.ok (f a), src') := by
  rw [map_eq_pure_bind, bind_of_ok h]
  rfl

theorem map_of_error {x : Drawing α} {src src' : Source} {e : Error} (h : x src = (.error e, src'))
    (f : α → β) : (f <$> x) src = (.error e, src') := by
  rw [map_eq_pure_bind, bind_of_error h]

/-! ### What a computation gives -/

/-- All results of the computation, on any source, have a property. -/
def Gives (P : α → Prop) (x : Drawing α) : Prop :=
  ∀ src a src', x src = (.ok a, src') → P a

theorem gives_pure {P : α → Prop} {a : α} (h : P a) : (pure a : Drawing α).Gives P := by
  intro src b src' hb
  rwa [← Except.ok.inj (congrArg Prod.fst hb)]

theorem gives_ofExcept {P : α → Prop} {x : Except Error α} (h : ∀ a, x = .ok a → P a) :
    (ofExcept x).Gives P := by
  cases x with
  | ok a => exact gives_pure (h a rfl)
  | error e => exact fun src a src' ha => by cases ha

theorem Gives.bind {P : α → Prop} {Q : β → Prop} {x : Drawing α} {f : α → Drawing β}
    (hx : x.Gives P) (hf : ∀ a, P a → (f a).Gives Q) : (x >>= f).Gives Q := by
  intro src b src' hb
  cases h : x src with
  | mk y mid =>
    cases y with
    | ok a =>
      rw [bind_of_ok h] at hb
      exact hf a (hx _ _ _ h) _ _ _ hb
    | error e =>
      rw [bind_of_error h] at hb
      cases hb

theorem Gives.mapM {γ : Type} {P : β → Prop} {f : γ → Drawing β} {xs : List γ}
    (h : ∀ x ∈ xs, (f x).Gives P) : (xs.mapM f).Gives fun ys => ∀ y ∈ ys, P y := by
  induction xs with
  | nil => exact gives_pure (List.forall_mem_nil _)
  | cons x xs ih =>
    obtain ⟨hx, hxs⟩ := List.forall_mem_cons.1 h
    rw [List.mapM_cons]
    exact hx.bind fun y hy => (ih hxs).bind fun ys hys =>
      gives_pure (List.forall_mem_cons.2 ⟨hy, hys⟩)

theorem gives_length_mapM {γ : Type} (f : γ → Drawing β) (xs : List γ) :
    (xs.mapM f).Gives fun ys => ys.length = xs.length := by
  induction xs with
  | nil => exact gives_pure rfl
  | cons x xs ih =>
    rw [List.mapM_cons]
    have any : (f x).Gives fun _ => True := fun _ _ _ _ => trivial
    exact any.bind fun y _ => ih.bind fun ys hys => gives_pure (congrArg (· + 1) hys)

/-- What is done with the results of a computation matters only for those it gives. -/
theorem Gives.bind_congr {P : α → Prop} {x : Drawing α} (h : x.Gives P) {f g : α → Drawing β}
    (hfg : ∀ a, P a → f a = g a) : x >>= f = x >>= g := by
  funext src
  cases hx : x src with
  | mk y mid =>
    cases y with
    | ok a => rw [bind_of_ok hx, bind_of_ok hx, hfg a (h _ _ _ hx)]
    | error e => rw [bind_of_error hx, bind_of_error hx]

end Drawing

namespace Steps

variable {σ τ α β : Type}

/-- What an evaluation comes to that nothing stops: its end. -/
def result : Steps σ α → Drawing (σ × α)
  | done s a => pure (s, a)
  | fail _ e => .fail e
  | pause _ _ rest => (rest ()).result
  | draw rest => Drawing.next >>= fun x => (rest x).result

@[simp] theorem result_done (s : σ) (a : α) : (done s a).result = pure (s, a) := rfl

@[simp] theorem result_fail (s : σ) (e : Error) : (fail s e : Steps σ α).result = .fail e := rfl

@[simp] theorem result_pause (now : σ) (left : Left σ) (rest : Unit → Steps σ α) :
    (pause now left rest).result = (rest ()).result := rfl

theorem result_draw_apply (rest : Option Float → Steps σ α) (src : Source) :
    (draw rest).result src = (rest src.next.1).result src.next.2 := rfl

/-! ## Rules -/

/-- One evaluation goes on where the other one ended. -/
theorem result_bind (x : Steps σ α) (f : σ → α → Steps σ β) :
    (x.bind f).result = x.result >>= fun p => (f p.1 p.2).result := by
  induction x with
  | done s a => rfl
  | fail s e => rfl
  | pause now left rest ih => exact ih ()
  | draw rest ih =>
    simp only [bind, result, ih]
    rw [bind_assoc]

@[simp] theorem result_mapState (f : σ → τ) (x : Steps σ α) :
    (x.mapState f).result = (fun p => (f p.1, p.2)) <$> x.result := by
  induction x with
  | done s a => rfl
  | fail s e => rfl
  | pause now left rest ih => exact ih ()
  | draw rest ih =>
    simp only [mapState, result, ih]
    rw [map_bind]

@[simp] theorem result_beside (t : τ) (x : Steps σ α) :
    (x.beside t).result = (fun p => (t, p)) <$> x.result := by
  induction x with
  | done s a => rfl
  | fail s e => rfl
  | pause now left rest ih => exact ih ()
  | draw rest ih =>
    simp only [beside, result, ih]
    rw [map_bind]

@[simp] theorem result_onStop (f : σ → Left σ) (x : Steps σ α) :
    (x.onStop f).result = x.result := by
  induction x with
  | done s a => rfl
  | fail s e => rfl
  | pause now left rest ih => exact ih ()
  | draw rest ih => simp only [onStop, result, ih]

@[simp] theorem result_onFail (f : Error → σ → σ) (x : Steps σ α) :
    (x.onFail f).result = x.result := by
  induction x with
  | done s a => rfl
  | fail s e => rfl
  | pause now left rest ih => exact ih ()
  | draw rest ih => simp only [onFail, result, ih]

theorem result_ofExcept (x : Except Error α) (s : σ) :
    (Task.ofExcept x s).result = (fun a => (s, a)) <$> Drawing.ofExcept x := by
  cases x <;> rfl

/-- What holds wherever an evaluation ends holds of what it comes to. -/
theorem Ends.gives {Q : Nat → σ → α → Prop} {x : Steps σ α} (h : x.Ends .any Q) :
    x.result.Gives fun p => ∃ n, Q n p.1 p.2 := by
  induction x generalizing Q with
  | done t b => exact Drawing.gives_pure ⟨0, h⟩
  | fail t e => exact fun src p src' hp => by cases hp
  | pause now left rest ih => exact ih () h
  | draw rest ih =>
    intro src p src' hp
    rw [result_draw_apply] at hp
    cases hx : src.next.1 with
    | some x =>
      obtain ⟨n, hn⟩ := ih (some x) (h.2.1 x trivial) _ _ _ (hx ▸ hp)
      exact ⟨n + 1, hn⟩
    | none => exact ih none (h.2.2 trivial) _ _ _ (hx ▸ hp)

/-- An evaluation fails only as is allowed. -/
theorem Ends.fails {d : Dealing} {Q : Nat → σ → α → Prop} {x : Steps σ α} (h : x.Ends d Q)
    {src src' : Source} (hsrc : src.Gives d.drawn) {e : Error}
    (he : x.result src = (.error e, src')) : d.fail e := by
  induction x generalizing Q src with
  | done s a => cases he
  | fail s f =>
    obtain ⟨rfl, -⟩ : f = e ∧ src = src' := by simpa using he
    exact h
  | pause now left rest ih => exact ih () h hsrc he
  | draw rest ih =>
    obtain ⟨drawn, hnext⟩ := hsrc.next
    rw [result_draw_apply] at he
    cases hx : src.next.1 with
    | some x =>
      rw [hx] at drawn he
      exact ih (some x) (h.2.1 x drawn) hnext he
    | none =>
      rw [hx] at drawn he
      exact ih none (h.2.2 drawn) hnext he

/-! ## Runs -/

/-- A run that nothing stops reports the end that the evaluation comes to. -/
theorem outcome_of_ok {x : Steps σ α} {src src' : Source} {s : σ} {a : α}
    (h : x.result src = (.ok (s, a), src')) :
    (x.run .never src).outcome = (s, .finished a, src') := by
  suffices ∀ start points, (x.runFrom .never start points src).outcome = (s, .finished a, src') from
    this _ _
  induction x generalizing src with
  | done t b =>
    obtain ⟨⟨rfl, rfl⟩, rfl⟩ : (t = s ∧ b = a) ∧ src = src' := by simpa using h
    exact fun _ _ => rfl
  | fail t e => cases h
  | pause now left rest ih => exact fun start points => ih () h start _
  | draw rest ih => exact fun start points => ih _ h start points

/-- A run that nothing stops reports the error that the evaluation comes to. -/
theorem outcome_of_error {x : Steps σ α} {src src' : Source} {e : Error}
    (h : x.result src = (.error e, src')) :
    (x.run .never src).ending = .failed e ∧ (x.run .never src).source = src' := by
  suffices ∀ start points, (x.runFrom .never start points src).ending = .failed e
      ∧ (x.runFrom .never start points src).source = src' from this _ _
  induction x generalizing src with
  | done t b => cases h
  | fail t d =>
    obtain ⟨rfl, rfl⟩ : d = e ∧ src = src' := by simpa using h
    exact fun _ _ => ⟨rfl, rfl⟩
  | pause now left rest ih => exact fun start points => ih () h start _
  | draw rest ih => exact fun start points => ih _ h start points

/-- A run that nothing stops comes to an end. -/
theorem ending_run_ne_stopped (x : Steps σ α) (src : Source) :
    (x.run .never src).ending ≠ .stopped := by
  cases h : x.result src with
  | mk a src' =>
    cases a with
    | ok p =>
      have := congrArg (·.2.1) (outcome_of_ok h)
      intro e
      rw [show (x.run .never src).ending = _ from this] at e
      cases e
    | error d =>
      rw [(outcome_of_error h).1]
      exact nofun

theorem finished_or_failed (x : Steps σ Unit) (src : Source) :
    (x.run .never src).ending = .finished () ∨ ∃ e, (x.run .never src).ending = .failed e := by
  cases h : (x.run .never src).ending with
  | finished => exact .inl rfl
  | failed e => exact .inr ⟨e, rfl⟩
  | stopped => exact absurd h (ending_run_ne_stopped x src)

/-- If a run finishes, this is the end that the evaluation comes to. -/
theorem result_of_finished {x : Steps σ α} {src : Source} {a : α}
    (h : (x.run .never src).ending = .finished a) :
    x.result src = (.ok ((x.run .never src).state, a), (x.run .never src).source) := by
  cases hx : x.result src with
  | mk b src' =>
    cases b with
    | ok p =>
      have outcome := outcome_of_ok hx
      have state := congrArg (·.1) outcome
      have ending := congrArg (·.2.1) outcome
      have source := congrArg (·.2.2) outcome
      simp only [Report.outcome] at state ending source
      rw [h] at ending
      rw [state, source, Ending.finished.inj ending]
    | error d =>
      rw [(outcome_of_error hx).1] at h
      cases h

/-- If a run fails, this is the error that the evaluation comes to. -/
theorem result_of_failed {x : Steps σ α} {src : Source} {e : Error}
    (h : (x.run .never src).ending = .failed e) :
    x.result src = (.error e, (x.run .never src).source) := by
  cases hx : x.result src with
  | mk b src' =>
    cases b with
    | ok p =>
      have ending := congrArg (·.2.1) (outcome_of_ok hx)
      simp only [Report.outcome] at ending
      rw [h] at ending
      cases ending
    | error d =>
      obtain ⟨ending, source⟩ := outcome_of_error hx
      rw [h] at ending
      rw [source, Ending.failed.inj ending]

/-! ## Sources -/

/-- Draws are counted, never taken back. -/
theorem used_le_result (x : Steps σ α) (src : Source) : src.used ≤ (x.result src).2.used := by
  induction x generalizing src with
  | done s a => exact Nat.le_refl _
  | fail s e => exact Nat.le_refl _
  | pause now left rest ih => exact ih () src
  | draw rest ih =>
    refine Nat.le_trans ?_ (ih src.next.1 src.next.2)
    rw [Source.used_next]
    exact Nat.le_add_right _ _

end Steps

/-- A source before which `k` more draws were made. -/
def Source.shift (k : Nat) (src : Source) : Source := { src with used := k + src.used }

theorem Source.next_shift (k : Nat) (src : Source) :
    (src.shift k).next = (src.next.1, src.next.2.shift k) := by
  obtain ⟨pending, fill, used⟩ := src
  cases pending with
  | cons x xs => rfl
  | nil => cases fill <;> rfl

namespace Steps

variable {σ α : Type}

/-- How many draws were made before does not matter. -/
theorem result_shift (k : Nat) (x : Steps σ α) (src : Source) :
    x.result (src.shift k) = ((x.result src).1, (x.result src).2.shift k) := by
  induction x generalizing src with
  | done s a => rfl
  | fail s e => rfl
  | pause now left rest ih => exact ih () src
  | draw rest ih =>
    rw [result_draw_apply, Source.next_shift]
    exact ih _ _

/-- An evaluation that draws just what is there, while there would be more, comes to the same end
whatever else there is. -/
theorem result_append {x : Steps σ α} {ds : List Float} {y : Float} {u : Nat} {p : σ × α}
    {src : Source} (h : x.result ⟨ds, some y, u⟩ = (.ok p, src)) (used : src.used = u + ds.length)
    (es : List Float) (fill : Option Float) :
    x.result ⟨ds ++ es, fill, u⟩ = (.ok p, ⟨es, fill, u + ds.length⟩) := by
  induction x generalizing ds u with
  | done t b =>
    simp only [result_done, Drawing.pure_apply, Prod.mk.injEq] at h
    obtain ⟨hp, rfl⟩ := h
    have : ds = [] := List.eq_nil_of_length_eq_zero (by simpa using used)
    simp [this, hp]
  | fail t e => cases h
  | pause now left rest ih => exact ih () h used
  | draw rest ih =>
    cases ds with
    | nil =>
      -- a draw beyond the list would be counted
      have more := used_le_result (rest (some y)) ⟨[], some y, u + 1⟩
      have h : (rest (some y)).result ⟨[], some y, u + 1⟩ = (.ok p, src) := h
      simp only [h, used, List.length_nil] at more
      omega
    | cons d ds =>
      have used : src.used = u + 1 + ds.length := by
        simp only [used, List.length_cons]
        omega
      have rest := ih (some d) h used
      rw [List.length_cons, Nat.add_comm ds.length, ← Nat.add_assoc]
      exact rest

end Steps

end DiceFormula
