import DiceFormula.Proofs.Evaluation.Congruence
import DiceFormula.Proofs.Evaluation.Result

/-!
# What a roll comes to, stage by stage

What the evaluation of a roll comes to is found in four stages (`Roll.result_evaluationBy`): groups
and calls become numbers, neighbours are joined, what still waits is evaluated, and the totals are
taken together. Pauses, places and states on the way do not show. What a term comes to is found in
the same way from the rolls of the formulas inside (`Term.result_group`, `Term.result_call`,
`Term.result_pool`), and those are rolled one after the other (`Formula.rollAll`).
-/

namespace DiceFormula

variable {inner : RollEvaluation} {context : Context}

/-! ## Formulas inside a term -/

namespace Formula

/-- Rolls a formula that stands inside a term. -/
def rollBy (inner : RollEvaluation) (context : Context) (formula : String) : Drawing Roll := do
  let r ← .ofExcept (Roll.ofFormula (.str formula) context.config)
  let p ← (inner context r).result
  return p.1

/-- Rolls some formulas one after the other. -/
def rollAll (inner : RollEvaluation) (context : Context) (formulas : List String) :
    Drawing (List Roll) := formulas.mapM (rollBy inner context)

end Formula

namespace Term

theorem result_evaluateFormula (formula : String) (t : Term) :
    (evaluateFormula inner context (.str formula) t).result
      = (fun r => (t, r)) <$> Formula.rollBy inner context formula := by
  simp only [evaluateFormula, Task.bind_apply, Steps.result_bind, Formula.rollBy, map_bind]
  cases Roll.ofFormula (.str formula) context.config with
  | error e => rfl
  | ok r => simp [Task.aside, Steps.result_beside]

theorem result_evaluateMembers (flavored : Bool) (args : List String) :
    ∀ t : Term, (evaluateMembers inner context flavored args t).result
      = (fun rs => (t.addRolls flavored rs, ())) <$> Formula.rollAll inner context args := by
  induction args with
  | nil => exact fun _ => rfl
  | cons a args ih =>
    intro t
    simp only [evaluateMembers, Task.bind_apply, Steps.result_bind, result_evaluateFormula,
      Formula.rollAll, List.mapM_cons, map_bind, bind_map_left]
    congr 1
    funext r
    simp only [Task.get_apply, Task.set_apply, ih, Formula.rollAll]
    rfl

/-- Work on the hand of a term comes to what it does to the hand. -/
theorem result_withHand {α : Type} (task : Task Hand α) (t : Term) :
    (withHand task t).result = (fun p => (t.setHand p.1, p.2)) <$> (task t.hand).result :=
  Steps.result_mapState _ _

/-! ## Terms -/

/-- A term that waits, and is no text, comes to what its content does. -/
theorem result_evaluationBy {t : Term} (text : t.isText = false) (waits : t.evaluated = false) :
    (Term.evaluationBy inner context t).result
      = (evaluateBody inner context t.body (t.setMark (.bool true))).result := by
  obtain ⟨body, l, carried⟩ := t
  simp only [Term.evaluationBy, Task.bind_apply, Task.get_apply, Steps.bind]
  cases body with
  | text v => cases text
  | _ =>
    simp only [waits]
    exact Steps.result_onStop _ _

section

variable {l : Label} {carried : List Term} (waits : l.mark.truthy = false)

include waits

/-- A group comes to what its formula comes to. -/
theorem result_group (formula : String) :
    (Term.evaluationBy inner context ⟨.group (.str formula) none, l, carried⟩).result
      = (fun r => (⟨.group (.str formula) (some (r.propagateFlavor l.options.flavor)),
          { l with mark := .bool true }, carried⟩, ()))
        <$> Formula.rollBy inner context formula := by
  rw [result_evaluationBy (t := ⟨_, l, carried⟩) rfl waits]
  simp only [evaluateBody, evaluateGroup, Task.bind_apply, Steps.result_bind,
    result_evaluateFormula, bind_map_left]
  rfl

/-- A call applies its function to what its arguments come to. -/
theorem result_call (fn : Value) (args : List String) (rolls : List Roll) (v : Value) :
    (Term.evaluationBy inner context ⟨.call fn args rolls v, l, carried⟩).result
      = do
        let f ← .ofExcept (context.config.function fn)
        let rs ← Formula.rollAll inner context args
        let t := addRolls true rs ⟨.call fn args rolls v, { l with mark := .bool true }, carried⟩
        let v ← .ofExcept (applyFunction f t.rolls)
        return (t.setResult v, ()) := by
  rw [result_evaluationBy (t := ⟨_, l, carried⟩) rfl waits]
  simp only [evaluateBody, evaluateCall, Task.bind_apply, Steps.result_bind, Steps.result_ofExcept,
    result_evaluateMembers, bind_map_left, Task.get_apply, Steps.result_done, pure_bind]
  rfl

/-- A pool carries out its modifiers on what its members come to. -/
theorem result_pool (args : List String) (rolls : List Roll) (hand : Hand) :
    (Term.evaluationBy inner context ⟨.pool args rolls hand, l, carried⟩).result
      = Formula.rollAll inner context args >>= fun rs =>
          (withHand (Hand.carryOutModifiers Command.ofPools Hand.performOnPool)
            (addRolls false rs
              ⟨.pool args rolls hand, { l with mark := .bool true }, carried⟩)).result := by
  rw [result_evaluationBy (t := ⟨_, l, carried⟩) rfl waits]
  simp only [evaluateBody, evaluatePool, Task.bind_apply, Steps.result_bind,
    result_evaluateMembers, bind_map_left]
  rfl

/-- Dice come to what is rolled. -/
theorem result_dice (d : Dice) :
    (Term.evaluationBy inner context ⟨.dice d, l, carried⟩).result
      = (fun p => (⟨.dice { d with hand := p.1 }, { l with mark := .bool true }, carried⟩, ()))
        <$> (d.roll context d.hand).result := by
  rw [result_evaluationBy (t := ⟨_, l, carried⟩) rfl waits]
  exact result_withHand _ _

end

end Term

namespace Roll

/-! ## Passes over the terms -/

/-- What the first pass puts in the place of a term. -/
def numbered (inner : RollEvaluation) (context : Context) (config : Config) (t : Term) :
    Drawing Term :=
  if t.isIntermediate && !t.evaluated then do
    let p ← (Term.evaluationBy inner context t).result
    .ofExcept (numberFor p.1 config)
  else pure t

/-- What the second pass puts in the place of a term. -/
def rolled (inner : RollEvaluation) (context : Context) (t : Term) : Drawing Term :=
  if !t.evaluated then do
    let p ← (Term.evaluationBy inner context t).result
    return p.1
  else pure t

/-- A term is evaluated in its place. -/
theorem result_onTerm {r : Roll} {t : Term} (tag : t.label.tag = none) (front back : List Term) :
    (onTerm front.length t (Term.evaluationBy inner context)
        { r with terms := front ++ t :: back }).result
      = do
        let p ← (Term.evaluationBy inner context t).result
        return ({ r with terms := front ++ p.1 :: back }, p.2) := by
  have ht : (front ++ t :: back)[front.length]? = some t := by simp
  simp only [onTerm, Task.within, ht, Option.getD_some, Steps.result_mapState, map_eq_pure_bind]
  refine (ends_replaces tag).gives.bind_congr ?_
  rintro p ⟨-, tag, -⟩
  rw [putTerm_of_tag _ tag, replaceTerm_of_append rfl]

/-- What a step comes to at a term in its place, a visit comes to at one term after another. -/
theorem result_visit {step : Nat → Term → Task Roll Unit} {f : Term → Drawing Term} (count : Nat) :
    ∀ {ts : List Term} (front : List Term) {r : Roll}, ts.length ≤ count → r.terms = front ++ ts →
      (∀ t ∈ ts, ∀ front back, (step front.length t { r with terms := front ++ t :: back }).result
        = (fun u => ({ r with terms := front ++ u :: back }, ())) <$> f t) →
      (visit step count front.length r).result
        = (fun us => ({ r with terms := front ++ us }, ())) <$> ts.mapM f := by
  induction count with
  | zero =>
    intro ts front r hl hr _
    obtain rfl := List.length_eq_zero_iff.1 (Nat.le_zero.1 hl)
    rw [List.mapM_nil, map_pure, ← eq_of_terms hr]
    rfl
  | succ count ih =>
    intro ts front r hl hr one
    cases ts with
    | nil =>
      rw [visit_of_none (by simp [hr]), List.mapM_nil, map_pure, ← eq_of_terms hr]
      rfl
    | cons t ts =>
      have ht : r.terms[front.length]? = some t := by simp [hr]
      obtain ⟨first, others⟩ := List.forall_mem_cons.1 one
      have first := first front ts
      rw [← eq_of_terms hr] at first
      rw [visit_of_some ht, Steps.result_bind, first, List.mapM_cons]
      simp only [bind_map_left, map_bind, map_pure]
      refine bind_congr fun u => ?_
      have rest := ih (r := { r with terms := front ++ u :: ts }) (front ++ [u])
        (Nat.le_of_succ_le_succ hl) (by simp) others
      rw [List.length_append] at rest
      refine rest.trans ?_
      simp only [List.append_assoc, List.singleton_append, map_eq_pure_bind]

/-- The first pass takes the terms one by one. -/
theorem result_evaluateIntermediates {r : Roll} (tags : ∀ t ∈ r.terms, t.label.tag = none) :
    (evaluateIntermediates inner context r.terms.length 0 r).result
      = (fun us => ({ r with terms := us }, ()))
        <$> r.terms.mapM (numbered inner context r.sheet.config) := by
  rw [evaluateIntermediates_eq]
  refine result_visit _ [] (Nat.le_refl _) rfl fun t ht front back => ?_
  unfold evaluateIntermediate numbered
  split
  · simp only [Task.bind_apply, Steps.result_bind, result_onTerm (tags t ht), bind_assoc,
      pure_bind, map_bind]
    refine bind_congr fun p => ?_
    have place : ({ r with terms := front ++ p.1 :: back } : Roll).terms[front.length]? = some p.1 := by
      simp
    cases hv : numberFor p.1 r.sheet.config with
    | error e =>
      rw [putNumber_of_error place hv]
      rfl
    | ok v =>
      rw [putNumber_of_ok place hv, replaceTerm_of_append rfl]
      rfl
  · rfl

/-- The second pass takes the terms one by one, too. -/
theorem result_evaluateRest {r : Roll} {ts : List Term} (tags : ∀ t ∈ ts, t.label.tag = none) :
    (evaluateRest inner context ts.length 0 { r with terms := ts }).result
      = (fun us => ({ r with terms := us }, ())) <$> ts.mapM (rolled inner context) := by
  rw [evaluateRest_eq]
  refine result_visit (r := { r with terms := ts }) _ [] (Nat.le_refl _) rfl
    fun t ht front back => ?_
  unfold evaluateWaiting rolled
  split
  · simp only [Task.bind_apply, Steps.result_bind, result_onTerm (tags t ht), bind_assoc,
      pure_bind, map_bind, map_pure]
    rfl
  · rfl

theorem gives_numbered {config : Config} {t : Term} (h : t.Joinable) :
    (numbered inner context config t).Gives Term.Joinable := by
  unfold numbered
  split
  · refine Drawing.Gives.bind (P := fun _ => True) (fun _ _ _ _ => trivial) fun p _ => ?_
    exact Drawing.gives_ofExcept fun u hu => (joined_of_numberFor hu).joinable
  · exact Drawing.gives_pure h

theorem joinable_of_simplify {config : Config} {ts us : List Term} (h : ∀ t ∈ ts, t.Joinable)
    (hus : simplify config ts = .ok us) : ∀ u ∈ us, u.Joinable := by
  refine forall_of_simplify h ?_ hus
  intro left right t hl hr ht
  have joined := @outcome_fuse config left right hl hr
  rw [ht] at joined
  exact joined.joinable

/-! ## Rolls -/

/-- What the terms of a roll are worth together. -/
def amount (ts : List Term) : Except Error Number := do Arithmetic.evaluate (← flatten ts)

/-- A roll that has come to an end. -/
def finished (r : Roll) (ts : List Term) (n : Number) : Roll :=
  { r with terms := ts, dice := diceOfTerms ts
           sheet := { r.sheet with total := .num n, state := .evaluated } }

theorem settle_eq (r : Roll) :
    r.settle = (fun n => { r with dice := diceOfTerms r.terms
                                  sheet := { r.sheet with total := .num n } })
      <$> amount r.terms := by
  unfold settle amount
  cases flatten r.terms with
  | error e => rfl
  | ok text => cases Arithmetic.evaluate text <;> rfl

/-- **What a roll comes to.** -/
theorem result_evaluationBy {r : Roll} (state : r.sheet.state = .created)
    (replayed : r.sheet.replayed = false) (joinable : ∀ t ∈ r.terms, t.Joinable) :
    (evaluationBy inner context r).result
      = do
        let us ← r.terms.mapM (numbered inner context r.sheet.config)
        let ts ← .ofExcept (simplify r.sheet.config us)
        let vs ← ts.mapM (rolled inner context)
        let n ← .ofExcept (amount vs)
        return (r.finished vs n, ()) := by
  have tags {ts : List Term} (h : ∀ t ∈ ts, t.Joinable) : ∀ t ∈ ts, t.label.tag = none :=
    fun t ht => (h t ht).tag
  have first : (evaluateIntermediates inner context (r.setState .evaluating).terms.length 0
        (r.setState .evaluating)).result
      = (fun us => ({ r.setState .evaluating with terms := us }, ()))
        <$> r.terms.mapM (numbered inner context r.sheet.config) :=
    result_evaluateIntermediates (tags joinable)
  simp only [evaluationBy, Task.bind_apply, Task.get_apply, Steps.bind, replayed, state]
  simp only [Bool.false_eq_true, if_false, RollState.isCreated, Bool.not_true, Task.bind_apply,
    Task.set_apply, Steps.bind, Task.onStop, Task.onFail, Steps.result_bind, Steps.result_onStop,
    Steps.result_onFail, evaluateTerms, Task.get_apply]
  rw [first]
  simp only [bind_assoc, bind_map_left, Steps.result_ofExcept]
  have numbers : (r.terms.mapM (numbered inner context r.sheet.config)).Gives
      fun us => ∀ u ∈ us, u.Joinable := .mapM fun t ht => gives_numbered (joinable t ht)
  refine numbers.bind_congr fun us hus => ?_
  show (Drawing.ofExcept (simplify r.sheet.config us) >>= _) = _
  cases hts : simplify r.sheet.config us with
  | error e => rfl
  | ok ts =>
    have second : (evaluateRest inner context ts.length 0
          { r.setState .evaluating with terms := ts }).result
        = (fun vs => ({ r.setState .evaluating with terms := vs }, ()))
          <$> ts.mapM (rolled inner context) :=
      result_evaluateRest (tags (joinable_of_simplify hus hts))
    simp only [Drawing.ofExcept_ok, pure_bind, second, bind_map_left, settle_eq]
    refine bind_congr fun vs => ?_
    cases amount vs <;> rfl

end Roll

end DiceFormula
