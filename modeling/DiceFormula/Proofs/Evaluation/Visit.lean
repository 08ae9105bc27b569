import DiceFormula.Proofs.Evaluation.Contract
import DiceFormula.Roll.Alter

/-!
# Going over the terms of a roll

Both passes of an evaluation go over the terms of a roll place by place, and so does an alteration.
They differ in what they do at a place (`Roll.evaluateIntermediates_eq`, `Roll.evaluateRest_eq`,
`Roll.alterFrom_eq`), so that what they make of the roll follows from what is done there once, by
the rules for `Roll.visit`.
-/

namespace DiceFormula

namespace Roll

/-- Does something at every place from `i` on. -/
def visit (step : Nat → Term → Task Roll Unit) : Nat → Nat → Task Roll Unit
  | 0, _ => pure ()
  | count + 1, i => do
    let r ← Task.get
    match r.terms[i]? with
    | none => pure ()
    | some t => do
      step i t
      visit step count (i + 1)

/-! ## What is done at a place -/

/-- Puts the number that it has come to in the place of a term. -/
def putNumber (i : Nat) (t : Term) : Task Roll Unit := do
  let r ← Task.get
  let n ← Task.ofExcept (numberFor (r.terms[i]?.getD t) r.sheet.config)
  Task.modify (replaceTerm i n)
  Task.pause

/-- The first pass evaluates groups and calls, which become numbers. -/
def evaluateIntermediate (inner : RollEvaluation) (context : Context) (i : Nat) (t : Term) :
    Task Roll Unit :=
  if t.isIntermediate && !t.evaluated then do
    onTerm i t (Term.evaluationBy inner context)
    putNumber i t
  else pure ()

/-- The second pass evaluates what has not been evaluated. -/
def evaluateWaiting (inner : RollEvaluation) (context : Context) (i : Nat) (t : Term) :
    Task Roll Unit := do
  if !t.evaluated then onTerm i t (Term.evaluationBy inner context)
  Task.pause

/-- An alteration alters dice. -/
def alterDice (multiply add : Value) (i : Nat) (t : Term) : Task Roll Unit :=
  if t.isDice then onTerm i t (Term.alter multiply add) else pure ()

theorem putNumber_of_ok {i : Nat} {r : Roll} {u n : Term} (hu : r.terms[i]? = some u)
    (hn : numberFor u r.sheet.config = .ok n) (t : Term) :
    putNumber i t r = Task.pause (replaceTerm i n r) := by
  simp only [putNumber, Task.bind_apply, Task.get_apply, Steps.bind, hu, Option.getD_some, hn,
    Task.ofExcept_ok, Task.modify_apply]

theorem putNumber_of_error {i : Nat} {r : Roll} {u : Term} {e : Error}
    (hu : r.terms[i]? = some u) (he : numberFor u r.sheet.config = .error e) (t : Term) :
    putNumber i t r = .fail r e := by
  simp only [putNumber, Task.bind_apply, Task.get_apply, Steps.bind, hu, Option.getD_some, he,
    Task.ofExcept_error]

theorem evaluateIntermediates_eq (inner : RollEvaluation) (context : Context) (count i : Nat) :
    evaluateIntermediates inner context count i
      = visit (evaluateIntermediate inner context) count i := by
  induction count generalizing i with
  | zero => rfl
  | succ count ih =>
    rw [evaluateIntermediates, visit]
    refine bind_congr fun r => ?_
    cases r.terms[i]? with
    | none => rfl
    | some t =>
      dsimp only
      rw [evaluateIntermediate, ih]
      split
      · simp only [putNumber, bind_assoc]
      · exact (pure_bind _ _).symm

theorem evaluateRest_eq (inner : RollEvaluation) (context : Context) (count i : Nat) :
    evaluateRest inner context count i = visit (evaluateWaiting inner context) count i := by
  induction count generalizing i with
  | zero => rfl
  | succ count ih =>
    rw [evaluateRest, visit]
    refine bind_congr fun r => ?_
    cases r.terms[i]? with
    | none => rfl
    | some t =>
      dsimp only
      rw [evaluateWaiting, ih]
      split <;> simp only [bind_assoc]

theorem alterFrom_eq (multiply add : Value) (count i : Nat) :
    alterFrom multiply add count i = visit (alterDice multiply add) count i := by
  induction count generalizing i with
  | zero => rfl
  | succ count ih =>
    rw [alterFrom, visit]
    refine bind_congr fun r => ?_
    cases r.terms[i]? with
    | none => rfl
    | some t =>
      dsimp only
      rw [alterDice, ih]
      split
      · rfl
      · exact (pure_bind _ _).symm

/-! ## Terms in their places -/

/-- Putting back the terms that a roll has changes nothing. -/
theorem eq_of_terms {r : Roll} {ts : List Term} (hr : r.terms = ts) :
    r = { r with terms := ts } := by
  cases r
  cases hr
  rfl

theorem replaceTerm_of_append {r : Roll} {front ts : List Term} {t : Term}
    (hr : r.terms = front ++ t :: ts) (u : Term) :
    r.replaceTerm front.length u = { r with terms := front ++ u :: ts } := by
  simp [replaceTerm, hr]

/-! ## Rules -/

variable {step : Nat → Term → Task Roll Unit} {i : Nat} {r : Roll}

theorem visit_of_none (h : r.terms[i]? = none) (count : Nat) :
    visit step count i r = .done r () := by
  cases count with
  | zero => rfl
  | succ count =>
    simp only [visit, Task.bind_apply, Task.get_apply, Steps.bind, h]
    rfl

theorem visit_of_some {t : Term} (h : r.terms[i]? = some t) (count : Nat) :
    visit step (count + 1) i r = (step i t r).bind fun s _ => visit step count (i + 1) s := by
  simp only [visit, Task.bind_apply, Task.get_apply, Steps.bind, h]

/-- If `I i` holds whenever the places before `i` are done, it holds for the last one at the end. -/
theorem meets_visit {c : Contract Roll Unit} {I : Nat → Roll → Prop}
    (one : ∀ i r t, I i r → r.terms[i]? = some t →
      (step i t r).Meets (c.onDone fun s _ => I (i + 1) s)) (count : Nat) (h : I i r)
    (done : ∀ j s, I j s → s.terms.length ≤ j ∨ j = i + count → c.done s ()) :
    (visit step count i r).Meets c := by
  induction count generalizing i r with
  | zero => exact done i r h (.inr rfl)
  | succ count ih =>
    cases ht : r.terms[i]? with
    | none =>
      rw [visit_of_none ht]
      exact done i r h (.inl (List.getElem?_eq_none_iff.1 ht))
    | some t =>
      rw [visit_of_some ht]
      refine (one i r t h ht).bind fun s _ hs => ih hs fun j u hu last => done j u hu ?_
      rwa [Nat.add_right_comm] at last

end Roll

end DiceFormula
