import DiceFormula.Proofs.Evaluation.Dealt
import DiceFormula.Proofs.Evaluation.Joining

/-!
# Evaluations that are the same

The evaluation of a term asks for the mode only where it rolls dice. So two evaluations of a term
that is no dice are the same, pauses and failures included, if those of the rolls inside are
(`Term.evaluationBy_congr`), and two evaluations of a roll are the same if those of its terms are,
before and after neighbours are joined (`Roll.evaluateTerms_congr`).
-/

namespace DiceFormula

namespace Steps

/-- What an evaluation goes on with matters only where it ends. -/
theorem bind_congr {σ α β : Type} {Q : Nat → σ → α → Prop} {x : Steps σ α}
    {f g : σ → α → Steps σ β} (hx : x.Ends .any Q) (h : ∀ n s a, Q n s a → f s a = g s a) :
    x.bind f = x.bind g := by
  induction x generalizing Q with
  | done s a => exact h 0 s a hx
  | fail s e => rfl
  | pause now left rest ih => exact congrArg (pause now left) (funext fun _ => ih () hx h)
  | draw rest ih =>
    refine congrArg draw (funext fun x => ?_)
    cases x with
    | some x => exact ih _ (hx.2.1 x trivial) fun n => h (n + 1)
    | none => exact ih _ (hx.2.2 trivial) h

end Steps

/-- Two ways to evaluate the roll of a formula come to the same evaluation. -/
def RollEvaluation.Agree (inner inner' : RollEvaluation) (context context' : Context)
    (formula : String) : Prop :=
  ∀ r, Roll.ofFormula (.str formula) context.config = .ok r → inner context r = inner' context' r

namespace Term

variable {inner inner' : RollEvaluation} {context context' : Context}

theorem evaluateFormula_congr (same : context'.config = context.config) {a : String}
    (h : inner.Agree inner' context context' a) :
    evaluateFormula inner context (.str a) = evaluateFormula inner' context' (.str a) := by
  funext t
  simp only [evaluateFormula, same]
  cases hr : Roll.ofFormula (.str a) context.config with
  | error e => rfl
  | ok r => simp only [Task.ofExcept_ok, Task.bind_apply, Steps.bind, Task.aside, h r hr]

theorem evaluateMembers_congr (same : context'.config = context.config) (flavored : Bool)
    {args : List String} (h : ∀ a ∈ args, inner.Agree inner' context context' a) :
    evaluateMembers inner context flavored args
      = evaluateMembers inner' context' flavored args := by
  induction args with
  | nil => rfl
  | cons a args ih =>
    obtain ⟨ha, hargs⟩ := List.forall_mem_cons.1 h
    rw [evaluateMembers, evaluateMembers, evaluateFormula_congr same ha, ih hargs]

/-- Only dice ask for the mode. -/
theorem evaluationBy_congr (same : context'.config = context.config) {t : Term}
    (unrolled : t.body.Unrolled) (mode : t.die? = none ∨ context'.mode = context.mode)
    (h : ∀ a ∈ t.formulas, inner.Agree inner' context context' a) :
    Term.evaluationBy inner context t = Term.evaluationBy inner' context' t := by
  have body : evaluateBody inner context t.body = evaluateBody inner' context' t.body := by
    obtain ⟨body, l, carried⟩ := t
    cases body with
    | number | operator | text => rfl
    | group source roll =>
      obtain ⟨⟨s, rfl⟩, rfl⟩ := unrolled
      simp only [evaluateBody, evaluateGroup,
        evaluateFormula_congr same (h s (List.mem_singleton_self s))]
    | call fn args rolls result =>
      have members : evaluateMembers inner context true args
          = evaluateMembers inner' context' true args := evaluateMembers_congr same true h
      simp only [evaluateBody, evaluateCall, same, members]
    | pool args rolls hand =>
      have members : evaluateMembers inner context false args
          = evaluateMembers inner' context' false args := evaluateMembers_congr same false h
      simp only [evaluateBody, evaluatePool, members]
    | dice d =>
      rcases mode with h | h
      · cases h
      · obtain rfl : context' = context := by cases context; cases context'; simp_all
        rfl
  obtain ⟨b, l, carried⟩ := t
  simp only [Term.evaluationBy, Task.bind_apply, Task.get_apply, Steps.bind]
  cases b with
  | text v => rfl
  | _ => simp only at body ⊢; rw [body]

end Term

namespace Roll

variable {inner inner' : RollEvaluation} {context context' : Context}

/-- A term that stands in no other roll and whose evaluation is the same in both ways. -/
structure SameAlone (inner inner' : RollEvaluation) (context context' : Context) (t : Term) :
    Prop where
  tag : t.label.tag = none
  same : Term.evaluationBy inner context t = Term.evaluationBy inner' context' t

theorem onTerm_congr {t : Term} {i : Nat} {r : Roll} {task task' : Task Term Unit}
    (ht : r.terms[i]? = some t) (h : task t = task' t) :
    onTerm i t task r = onTerm i t task' r := by
  simp only [onTerm, Task.within, ht, Option.getD_some, h]

/-- Steps that do the same to every term in its place, and nothing to the others, do the same to all
terms. -/
theorem visit_congr {step step' : Nat → Term → Task Roll Unit} (count : Nat) :
    ∀ {ts : List Term} (front : List Term) {r : Roll}, r.terms = front ++ ts →
      (∀ t ∈ ts, ∀ front back,
        step front.length t { r with terms := front ++ t :: back }
            = step' front.length t { r with terms := front ++ t :: back }
          ∧ (step' front.length t { r with terms := front ++ t :: back }).Ends .any
            fun _ s _ => ∃ u, True ∧ s = { r with terms := front ++ u :: back }) →
      visit step count front.length r = visit step' count front.length r := by
  induction count with
  | zero => exact fun _ _ _ _ => rfl
  | succ count ih =>
    intro ts front r hr one
    cases ts with
    | nil => rw [visit_of_none (by simp [hr]), visit_of_none (by simp [hr])]
    | cons t ts =>
      have ht : r.terms[front.length]? = some t := by simp [hr]
      obtain ⟨first, others⟩ := List.forall_mem_cons.1 one
      obtain ⟨same, ends⟩ := first front ts
      rw [← eq_of_terms hr] at same ends
      rw [visit_of_some ht, visit_of_some ht, same]
      refine Steps.bind_congr ends ?_
      rintro - _ - ⟨u, -, rfl⟩
      have rest := ih (r := { r with terms := front ++ u :: ts }) (front ++ [u]) (by simp) others
      rwa [List.length_append] at rest

variable {t : Term}

theorem evaluateIntermediate_congr (h : SameAlone inner inner' context context' t) {r : Roll}
    {i : Nat} (ht : r.terms[i]? = some t) :
    evaluateIntermediate inner context i t r = evaluateIntermediate inner' context' i t r := by
  unfold evaluateIntermediate
  split
  · rw [Task.bind_apply, Task.bind_apply, onTerm_congr ht h.same]
  · rfl

theorem evaluateWaiting_congr (h : SameAlone inner inner' context context' t) {r : Roll}
    {i : Nat} (ht : r.terms[i]? = some t) :
    evaluateWaiting inner context i t r = evaluateWaiting inner' context' i t r := by
  unfold evaluateWaiting
  split
  · rw [Task.bind_apply, Task.bind_apply, onTerm_congr ht h.same]
  · rfl

theorem evaluateIntermediates_congr {r : Roll}
    (h : ∀ t ∈ r.terms, SameAlone inner inner' context context' t) :
    evaluateIntermediates inner context r.terms.length 0 r
      = evaluateIntermediates inner' context' r.terms.length 0 r := by
  rw [evaluateIntermediates_eq, evaluateIntermediates_eq]
  refine visit_congr _ [] rfl fun t ht front back =>
    ⟨evaluateIntermediate_congr (h t ht) (by simp),
      ends_evaluateIntermediate (fun _ => trivial) (fun _ => ?_) front back⟩
  refine (ends_replaces (h t ht).tag).mono ?_
  rintro n u - ⟨tag, -⟩
  exact ⟨tag, Dealing.allows_of_ok (fun _ => trivial) fun _ _ => trivial⟩

theorem evaluateRest_congr {r : Roll} {ts : List Term}
    (h : ∀ t ∈ ts, SameAlone inner inner' context context' t) :
    evaluateRest inner context ts.length 0 { r with terms := ts }
      = evaluateRest inner' context' ts.length 0 { r with terms := ts } := by
  rw [evaluateRest_eq, evaluateRest_eq]
  refine visit_congr (r := { r with terms := ts }) _ [] rfl fun t ht front back =>
    ⟨evaluateWaiting_congr (h t ht) (by simp),
      ends_evaluateWaiting (fun _ => trivial) (fun _ => ?_) front back⟩
  refine (ends_replaces (h t ht).tag).mono ?_
  rintro n u - ⟨tag, -⟩
  exact ⟨tag, trivial⟩

/-- Two ways to evaluate the rolls inside come to the same evaluation of the terms, if they do so
for every term before the first pass and, after it, for whatever `G` holds of. -/
theorem evaluateTerms_congr {G : Term → Prop} {r : Roll}
    (first : ∀ t ∈ r.terms, SameAlone inner inner' context context' t
      ∧ (t.isIntermediate = false ∧ G t ∨ t.isIntermediate = true ∧ t.evaluated = false))
    (number : ∀ u v, numberFor u r.sheet.config = .ok v → G v)
    (join : ∀ left right t, G left → G right → fuse left right r.sheet.config = .ok t → G t)
    (second : ∀ t, G t → SameAlone inner inner' context context' t) :
    evaluateTerms inner context r = evaluateTerms inner' context' r := by
  have start : evaluateIntermediates inner context r.terms.length 0 r
      = evaluateIntermediates inner' context' r.terms.length 0 r :=
    evaluateIntermediates_congr fun t ht => (first t ht).1
  simp only [evaluateTerms, Task.bind_apply, Task.get_apply, Steps.bind, start]
  have numbers : (evaluateIntermediates inner' context' r.terms.length 0 r).Ends .any
      fun n s _ => ∃ us, Each (fun _ _ u => G u) r.terms n us
        ∧ s = { r with terms := us } := by
    refine ends_evaluateIntermediates fun t ht => ?_
    obtain ⟨alone, ⟨whole, hG⟩ | ⟨group, waits⟩⟩ := first t ht
    · exact .inl ⟨whole, hG⟩
    · refine .inr ⟨group, waits, (ends_replaces alone.tag).mono ?_⟩
      rintro n u - ⟨tag, -⟩
      exact ⟨tag, Dealing.allows_of_ok (fun _ => trivial) (number u)⟩
  refine Steps.bind_congr numbers ?_
  rintro n s - ⟨us, hus, rfl⟩
  cases hts : simplify r.sheet.config us with
  | error e => simp only [Task.ofExcept_error, Steps.bind]
  | ok ts =>
    have good : ∀ t ∈ ts, G t := by
      refine forall_of_simplify (fun u hu => ?_) join hts
      obtain ⟨t, -, k, hu⟩ := hus.exists_of_mem u hu
      exact hu
    have rest : evaluateRest inner context ts.length 0 { r with terms := ts }
        = evaluateRest inner' context' ts.length 0 { r with terms := ts } :=
      evaluateRest_congr fun t ht => second t (good t ht)
    simp only [Task.ofExcept_ok, Task.set_apply, Steps.bind, rest]

theorem evaluationBy_congr {r : Roll}
    (h : evaluateTerms inner context (r.setState .evaluating)
      = evaluateTerms inner' context' (r.setState .evaluating)) :
    evaluationBy inner context r = evaluationBy inner' context' r := by
  simp only [evaluationBy, Task.bind_apply, Task.get_apply, Steps.bind]
  split
  · rfl
  · split
    · rfl
    · simp only [Task.bind_apply, Task.set_apply, Steps.bind, Task.onStop, Task.onFail, h]

end Roll

end DiceFormula
