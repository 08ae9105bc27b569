import DiceFormula.Proofs.Evaluation.Draws
import DiceFormula.Proofs.Roll.Built

/-!
# The passes of an evaluation

How the evaluation of a roll is put together from those of its terms, with the draws counted. In the
first pass every group and call becomes a number; in the second one every term that waits is
evaluated. Each pass takes the terms one by one (`Each`), so that what is known of single terms is
known of the whole list, and their draws add up.

Nothing is said here of what a term comes to: `P t n u` stands for whatever a development needs to
know when the term `t` becomes `u` after `n` draws.
-/

namespace DiceFormula

variable {d : Dealing} {inner : RollEvaluation} {context : Context}

/-! ## Formulas inside a term -/

namespace Term

/-- The roll of a formula is evaluated beside the term. -/
theorem ends_evaluateFormula {formula : Value} {R : Nat → Roll → Prop}
    (h : d.Allows (fun r => (inner context r).Ends d fun n s _ => R n s)
      (Roll.ofFormula formula context.config)) (t : Term) :
    (evaluateFormula inner context formula t).Ends d fun n u s => u = t ∧ R n s := by
  unfold evaluateFormula
  cases hr : Roll.ofFormula formula context.config with
  | error e =>
    rw [hr] at h
    exact h
  | ok r =>
    rw [hr] at h
    refine Steps.Ends.bind (Q := fun n u (p : Roll × Unit) => u = t ∧ R n p.1)
      (Steps.Ends.beside (Steps.Ends.mono h fun _ _ _ hs => ⟨rfl, hs⟩)) ?_
    rintro k u p ⟨rfl, hp⟩
    exact ⟨rfl, by simpa using hp⟩

/-- Adds evaluated rolls to a call or a pool. -/
def addRolls (flavored : Bool) (rs : List Roll) (t : Term) : Term :=
  rs.foldl (fun t r => t.addRoll (if flavored then r.propagateFlavor t.flavor else r)) t

/-- The formulas of a call or a pool are evaluated one by one. -/
theorem ends_evaluateMembers {flavored : Bool} {R : String → Nat → Roll → Prop} :
    ∀ {args : List String}, (∀ a ∈ args,
        d.Allows (fun r => (inner context r).Ends d fun n s _ => R a n s)
          (Roll.ofFormula (.str a) context.config)) →
      ∀ t : Term, (evaluateMembers inner context flavored args t).Ends d
        fun n u _ => ∃ rs, Each R args n rs ∧ u = t.addRolls flavored rs
  | [], _, t => ⟨[], .nil, rfl⟩
  | a :: args, h, t => by
    obtain ⟨ha, hargs⟩ := List.forall_mem_cons.1 h
    refine (ends_evaluateFormula ha t).bind ?_
    rintro k u s ⟨rfl, hs⟩
    refine (ends_evaluateMembers hargs _).mono ?_
    rintro n v - ⟨rs, hrs, rfl⟩
    exact ⟨s :: rs, .cons hs hrs, rfl⟩

/-- A term that waits is evaluated by its content; stopping is of no concern here. -/
theorem ends_evaluationBy {Q : Nat → Term → Prop} {t : Term} (text : ∀ v, t.body = .text v →
      d.fail (.unevaluated v)) (waits : t.evaluated = false)
    (h : (evaluateBody inner context t.body (t.setMark (.bool true))).Ends d fun n u _ => Q n u) :
    (Term.evaluationBy inner context t).Ends d fun n u _ => Q n u := by
  obtain ⟨body, l, carried⟩ := t
  simp only [Term.evaluationBy, Task.bind_apply, Task.get_apply, Steps.bind]
  cases body with
  | text v => exact text v rfl
  | _ =>
    simp only [waits]
    exact Steps.Ends.onStop h

end Term

/-! ## What evaluation leaves of a term -/

namespace Term

/-- What lasts: no change that evaluation makes to a term ends it. -/
structure Lasting (I : Term → Prop) : Prop where
  setMark : ∀ {t}, I t → ∀ mark, I (t.setMark mark)
  addRoll : ∀ {t}, I t → ∀ r, I (t.addRoll r)
  setResult : ∀ {t}, I t → ∀ v, I (t.setResult v)
  setGroupRoll : ∀ {t}, I t → ∀ r, I (t.setGroupRoll r)
  setHand : ∀ {t}, I t → ∀ hand, I (t.setHand hand)

namespace Lasting

variable {I : Term → Prop} (lasting : Lasting I)

theorem preserves_evaluateFormula (formula : Value) :
    Task.Preserves I (evaluateFormula inner context formula) :=
  .bind (.ofExcept _) fun _ => .bind (.aside _ _) fun _ => .pure _

include lasting

theorem preserves_evaluateMembers (flavored : Bool) (args : List String) :
    Task.Preserves I (evaluateMembers inner context flavored args) := by
  induction args with
  | nil => exact .pure _
  | cons a args ih =>
    refine .bind (preserves_evaluateFormula _) ?_
    intro r s hs
    exact ih _ (lasting.addRoll hs _)

theorem preserves_evaluateGroup (source : Value) (roll : Option Roll) :
    Task.Preserves I (evaluateGroup inner context source roll) := by
  unfold evaluateGroup
  cases roll with
  | some r =>
    refine .bind (.within fun _ part h => lasting.setGroupRoll h part) fun _ => .modify ?_
    intro t ht
    split
    · exact lasting.setGroupRoll ht _
    · exact ht
  | none =>
    refine .bind (preserves_evaluateFormula _) fun r => .bind ?_ fun _ => .modify ?_
    · exact .modify fun t h => lasting.setGroupRoll h r
    · intro t ht
      split
      · exact lasting.setGroupRoll ht _
      · exact ht

theorem preserves_evaluateBody (body : Body) :
    Task.Preserves I (evaluateBody inner context body) := by
  have hand {task : Task Hand Unit} : Task.Preserves I (withHand task) :=
    .within fun _ part h => lasting.setHand h part
  cases body with
  | number | operator => exact .pure _
  | text v => exact fun _ h => h
  | group source roll => exact lasting.preserves_evaluateGroup source roll
  | call fn args rolls result =>
    refine .bind (.ofExcept _) fun f => .bind (lasting.preserves_evaluateMembers _ _) fun _ => ?_
    intro t ht
    exact Task.Preserves.bind (.ofExcept _) (fun v => .modify fun _ h => lasting.setResult h v) t ht
  | pool args rolls h => exact .bind (lasting.preserves_evaluateMembers _ _) fun _ => hand
  | dice d => exact hand

/-- What lasts holds at the end if it held at the start. -/
theorem ends {t : Term} (h : I t) :
    (Term.evaluationBy inner context t).Ends .any fun _ u _ => I u := by
  have marked := lasting.setMark h (.bool true)
  obtain ⟨body, l, carried⟩ := t
  simp only [Term.evaluationBy, Task.bind_apply, Task.get_apply, Steps.bind]
  cases body with
  | text v => exact trivial
  | _ =>
    dsimp only
    split
    · exact trivial
    · exact (lasting.preserves_evaluateBody _).onStop.ends marked

end Lasting

/-- The term has the label, up to the mark, and the sign if it is an operator. -/
structure Framed (l : Label) (sign : Option Arithmetic.Sign) (t : Term) : Prop where
  label : ∃ mark, t.label = { l with mark }
  sign : t.sign? = sign

theorem lasting_framed (l : Label) (sign : Option Arithmetic.Sign) : Lasting (Framed l sign) where
  setMark := fun ⟨⟨_, label⟩, hs⟩ mark => ⟨⟨mark, by simp only [setMark, label]⟩, hs⟩
  addRoll := @fun ⟨body, _, _⟩ ⟨label, hs⟩ _ => by cases body <;> exact ⟨label, hs⟩
  setResult := @fun ⟨body, _, _⟩ ⟨label, hs⟩ _ => by cases body <;> exact ⟨label, hs⟩
  setGroupRoll := @fun ⟨body, _, _⟩ ⟨label, hs⟩ _ => by cases body <;> exact ⟨label, hs⟩
  setHand := @fun ⟨body, _, _⟩ ⟨label, hs⟩ _ => by cases body <;> exact ⟨label, hs⟩

/-- Evaluation marks a term, leaves the rest of its label as it was, and an operator stays what it
is. -/
theorem ends_framed (t : Term) :
    (Term.evaluationBy inner context t).Ends .any fun _ u _ => u.Framed t.label t.sign? :=
  (lasting_framed _ _).ends ⟨⟨_, rfl⟩, rfl⟩

end Term

/-! ## Passes over the terms -/

namespace Roll

/-- A term that has no identity is evaluated in its place. -/
theorem ends_onTerm {Q : Nat → Roll → Prop} {task : Task Term Unit} {r : Roll} {i : Nat} {t : Term}
    (ht : r.terms[i]? = some t)
    (h : (task t).Ends d fun n u _ => u.label.tag = none ∧ Q n (r.replaceTerm i u)) :
    (onTerm i t task r).Ends d fun n s _ => Q n s := by
  refine Steps.Ends.mapState ?_
  simp only [ht, Option.getD_some]
  refine h.mono ?_
  rintro n u - ⟨tag, hu⟩
  rwa [putTerm_of_tag r tag]

/-- **What a step makes of a term in its place**, a visit makes of one term after another. -/
theorem ends_visit {P : Term → Nat → Term → Prop} {step : Nat → Term → Task Roll Unit}
    (count : Nat) :
    ∀ {ts : List Term} (front : List Term) {r : Roll}, ts.length ≤ count → r.terms = front ++ ts →
      (∀ t ∈ ts, ∀ front back, (step front.length t { r with terms := front ++ t :: back }).Ends d
        fun n s _ => ∃ u, P t n u ∧ s = { r with terms := front ++ u :: back }) →
      (visit step count front.length r).Ends d
        fun n s _ => ∃ us, Each P ts n us ∧ s = { r with terms := front ++ us } := by
  induction count with
  | zero =>
    intro ts front r hl hr _
    obtain rfl := List.length_eq_zero_iff.1 (Nat.le_zero.1 hl)
    exact ⟨[], .nil, eq_of_terms hr⟩
  | succ count ih =>
    intro ts front r hl hr one
    cases ts with
    | nil =>
      rw [visit_of_none (by simp [hr])]
      exact ⟨[], .nil, eq_of_terms hr⟩
    | cons t ts =>
      have ht : r.terms[front.length]? = some t := by simp [hr]
      obtain ⟨first, others⟩ := List.forall_mem_cons.1 one
      have first := first front ts
      rw [← eq_of_terms hr] at first
      rw [visit_of_some ht]
      refine first.bind ?_
      rintro k _ - ⟨u, hu, rfl⟩
      have rest := ih (r := { r with terms := front ++ u :: ts }) (front ++ [u])
        (Nat.le_of_succ_le_succ hl) (by simp) others
      rw [List.length_append] at rest
      refine rest.mono ?_
      rintro n s - ⟨us, hus, rfl⟩
      exact ⟨u :: us, .cons hu hus, by simp⟩

theorem ends_putNumber {P : Nat → Term → Prop} {r : Roll} {k : Nat} {u : Term}
    (hu : d.Allows (P k) (numberFor u r.sheet.config)) (t : Term) (front back : List Term) :
    (putNumber front.length t { r with terms := front ++ u :: back }).Ends d
      fun n s _ => ∃ v, P (k + n) v ∧ s = { r with terms := front ++ v :: back } := by
  have place : ({ r with terms := front ++ u :: back } : Roll).terms[front.length]? = some u := by
    simp
  cases hv : numberFor u r.sheet.config with
  | error e =>
    rw [hv] at hu
    rw [putNumber_of_error place hv]
    exact hu
  | ok v =>
    rw [hv] at hu
    rw [putNumber_of_ok place hv, replaceTerm_of_append rfl]
    exact ⟨v, hu, rfl⟩

/-- The first pass at a term. -/
theorem ends_evaluateIntermediate {P : Nat → Term → Prop} {r : Roll} {t : Term}
    (stays : (t.isIntermediate && !t.evaluated) = false → P 0 t)
    (becomes : (t.isIntermediate && !t.evaluated) = true →
      (Term.evaluationBy inner context t).Ends d fun n u _ =>
        u.label.tag = none ∧ d.Allows (P n) (numberFor u r.sheet.config))
    (front back : List Term) :
    (evaluateIntermediate inner context front.length t { r with terms := front ++ t :: back }).Ends d
      fun n s _ => ∃ u, P n u ∧ s = { r with terms := front ++ u :: back } := by
  unfold evaluateIntermediate
  split
  · next waits =>
    have place : (front ++ t :: back)[front.length]? = some t := by simp
    refine (ends_onTerm (Q := fun n s => ∃ u, d.Allows (P n) (numberFor u r.sheet.config)
      ∧ s = { r with terms := front ++ u :: back }) place ((becomes waits).mono ?_)).bind ?_
    · rintro n u - ⟨tag, hu⟩
      exact ⟨tag, u, hu, replaceTerm_of_append rfl u⟩
    · rintro k _ - ⟨u, hu, rfl⟩
      exact ends_putNumber hu t front back
  · next whole => exact ⟨t, stays (by simpa using whole), rfl⟩

/-- The second pass at a term. -/
theorem ends_evaluateWaiting {P : Nat → Term → Prop} {r : Roll} {t : Term}
    (stays : t.evaluated = true → P 0 t)
    (becomes : t.evaluated = false → (Term.evaluationBy inner context t).Ends d fun n u _ =>
      u.label.tag = none ∧ P n u) (front back : List Term) :
    (evaluateWaiting inner context front.length t { r with terms := front ++ t :: back }).Ends d
      fun n s _ => ∃ u, P n u ∧ s = { r with terms := front ++ u :: back } := by
  unfold evaluateWaiting
  cases evaluated : t.evaluated with
  | true => exact ⟨t, stays evaluated, rfl⟩
  | false =>
    have place : (front ++ t :: back)[front.length]? = some t := by simp
    refine (ends_onTerm (Q := fun n s => ∃ u, P n u ∧ s = { r with terms := front ++ u :: back })
      place ((becomes evaluated).mono ?_)).bind ?_
    · rintro n u - ⟨tag, hu⟩
      exact ⟨tag, u, hu, replaceTerm_of_append rfl u⟩
    · exact fun k s _ hs => hs

/-- **The first pass.** Groups and calls are evaluated and become numbers, all other terms stay. -/
theorem ends_evaluateIntermediates {P : Term → Nat → Term → Prop} {r : Roll}
    (h : ∀ t ∈ r.terms, t.isIntermediate = false ∧ P t 0 t
      ∨ t.isIntermediate = true ∧ t.evaluated = false
        ∧ (Term.evaluationBy inner context t).Ends d fun n u _ =>
          u.label.tag = none ∧ d.Allows (P t n) (numberFor u r.sheet.config)) :
    (evaluateIntermediates inner context r.terms.length 0 r).Ends d
      fun n s _ => ∃ us, Each P r.terms n us ∧ s = { r with terms := us } := by
  rw [evaluateIntermediates_eq]
  refine ends_visit _ [] (Nat.le_refl _) rfl fun t ht => ends_evaluateIntermediate ?_ ?_
  · intro whole
    rcases h t ht with ⟨-, hP⟩ | ⟨group, waits, -⟩
    · exact hP
    · rw [group, waits] at whole
      cases whole
  · intro wanted
    rcases h t ht with ⟨whole, -⟩ | ⟨-, -, hP⟩
    · rw [whole] at wanted
      cases wanted
    · exact hP

/-- **The second pass.** Terms that wait are evaluated, all others stay. -/
theorem ends_evaluateRest {P : Term → Nat → Term → Prop} {r : Roll} {ts : List Term}
    (h : ∀ t ∈ ts, t.evaluated = true ∧ P t 0 t
      ∨ t.evaluated = false
        ∧ (Term.evaluationBy inner context t).Ends d fun n u _ => u.label.tag = none ∧ P t n u) :
    (evaluateRest inner context ts.length 0 { r with terms := ts }).Ends d
      fun n s _ => ∃ us, Each P ts n us ∧ s = { r with terms := us } := by
  rw [evaluateRest_eq]
  refine ends_visit (r := { r with terms := ts }) _ [] (Nat.le_refl _) rfl
    fun t ht => ends_evaluateWaiting ?_ ?_
  · intro evaluated
    rcases h t ht with ⟨-, hP⟩ | ⟨waits, -⟩
    · exact hP
    · rw [waits] at evaluated
      cases evaluated
  · intro waits
    rcases h t ht with ⟨evaluated, -⟩ | ⟨-, hP⟩
    · rw [evaluated] at waits
      cases waits
    · exact hP

/-! ## Rolls -/

/-- Settling gives a roll the dice of its terms and a number for its total, and leaves the rest. -/
theorem exists_of_settle {r w : Roll} (h : r.settle = .ok w) :
    ∃ n, w = { r with dice := diceOfTerms r.terms, sheet := { r.sheet with total := .num n } } := by
  obtain ⟨flat, -, h⟩ := bind_eq_ok.1 h
  obtain ⟨n, -, h⟩ := bind_eq_ok.1 h
  exact ⟨n, (Except.ok.inj h).symm⟩

/-- The evaluation of the terms is the two passes, with the joining of neighbours between them and
the settling of the total after them. -/
theorem ends_evaluateTerms {P : Term → Nat → Term → Prop} {Q : Nat → Roll → Prop} {r : Roll}
    (first : ∀ t ∈ r.terms, t.isIntermediate = false ∧ P t 0 t
      ∨ t.isIntermediate = true ∧ t.evaluated = false
        ∧ (Term.evaluationBy inner context t).Ends d fun n u _ =>
          u.label.tag = none ∧ d.Allows (P t n) (numberFor u r.sheet.config))
    (second : ∀ k us, Each P r.terms k us → d.Allows
      (fun ts => (evaluateRest inner context ts.length 0 { r with terms := ts }).Ends d
        fun n s _ => d.Allows (Q (k + n)) s.settle) (simplify r.sheet.config us)) :
    (evaluateTerms inner context r).Ends d fun n s _ => Q n s := by
  simp only [evaluateTerms, Task.bind_apply, Task.get_apply, Task.set_apply, Steps.bind]
  refine (ends_evaluateIntermediates first).bind ?_
  rintro k _ - ⟨us, hus, rfl⟩
  have := second k us hus
  cases hts : simplify r.sheet.config us with
  | error e =>
    rw [hts] at this
    exact this
  | ok ts =>
    rw [hts] at this
    simp only [Task.ofExcept_ok, Steps.bind]
    refine Steps.Ends.bind this ?_
    intro n s _ hs
    refine (Task.ends_ofExcept (Q := fun m _ w => Q (k + (n + m)) w) ?_).bind fun m _ w hw => ?_
    · simpa using hs
    · exact hw

/-- A roll that waits is evaluated by its terms. -/
theorem ends_evaluationBy {Q : Nat → Roll → Prop} {r : Roll} (state : r.sheet.state = .created)
    (replayed : r.sheet.replayed = false)
    (h : (evaluateTerms inner context (r.setState .evaluating)).Ends d
      fun n s _ => Q n (s.setState .evaluated)) :
    (evaluationBy inner context r).Ends d fun n s _ => Q n s := by
  have created : r.sheet.state.isCreated = true := by rw [state]; rfl
  simp only [evaluationBy, Task.bind_apply, Task.get_apply, Task.set_apply, Steps.bind, replayed,
    created, Bool.not_true, Bool.false_eq_true, if_false]
  exact h.onFail.onStop.bind fun _ _ _ hs => hs

end Roll

end DiceFormula
