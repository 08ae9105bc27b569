import DiceFormula.Proofs.Evaluation.Joining
import DiceFormula.Proofs.Evaluation.Quiet
import DiceFormula.Proofs.Formula.Value

/-!
# Evaluating plain formulas

The roll of a plain formula draws nothing. Its groups become numbers, and nothing is joined, since
its terms alternate; what is left are integers with signs between them, whose flat text is read as
plain arithmetic (`Roll.quiet_evaluationBy`). If an operand has no value the roll fails at the first
such one, by a division by zero.
-/

namespace DiceFormula

open Arithmetic

variable {config : Config} {context : Context} {inner : RollEvaluation}

/-- The error is a division by zero. -/
def Error.IsDivideByZero (e : Error) : Prop := ∃ a op b, e = .divideByZero a op b

/-! ## Evaluated items -/

namespace FormulaItem

/-- What the item is worth once it is evaluated. -/
def result : FormulaItem → Body
  | sign s => .operator s
  | operand x => .number (.int x.int)

/-- The item in the flat text. -/
def text : FormulaItem → String
  | sign s => " " ++ s.char.toString ++ " "
  | operand x => toString x.int

end FormulaItem

/-- A term that stands for itself: a number or an operator, with no identity. -/
structure Term.IsFlat (t : Term) : Prop where
  body : (∃ n, t.body = .number n) ∨ ∃ s, t.body = .operator s
  tag : t.label.tag = none

/-! ## Joining and settling -/

namespace Roll

theorem isOperator_of_body {t : Term} {i : FormulaItem} (h : t.body = i.result) :
    t.isOperator = match i with
      | .sign _ => true
      | .operand _ => false := by
  obtain ⟨body, l, carried⟩ := t
  obtain rfl : body = _ := h
  cases i <;> rfl

/-- Operands with signs between them alternate. -/
theorem alternates_of_itemsOf {l : List (Sign × Operand)} :
    ∀ {ts : List Term} {x : Operand},
      ts.map Term.body = (Formula.itemsOf x l).map FormulaItem.result → Alternates ts := by
  induction l with
  | nil =>
    intro ts x h
    obtain ⟨t, ts, rfl, ht, h⟩ := List.map_eq_cons_iff.1 h
    obtain rfl := List.map_eq_nil_iff.1 h
    exact .value (isOperator_of_body (i := .operand x) ht)
  | cons y l ih =>
    intro ts x h
    obtain ⟨t, ts, rfl, ht, h⟩ := List.map_eq_cons_iff.1 h
    obtain ⟨s, ts, rfl, hs, h⟩ := List.map_eq_cons_iff.1 h
    exact .join (isOperator_of_body (i := .operand x) ht) (isOperator_of_body (i := .sign y.1) hs)
      (ih h)

theorem mapM_flatTerm {is : List FormulaItem} :
    ∀ {ts : List Term}, ts.map Term.body = is.map FormulaItem.result →
      ts.mapM flatTerm = .ok (is.map FormulaItem.text) := by
  induction is with
  | nil =>
    intro ts h
    obtain rfl := List.map_eq_nil_iff.1 h
    rfl
  | cons i is ih =>
    intro ts h
    obtain ⟨⟨body, label, carried⟩, ts, rfl, hb, hts⟩ := List.map_eq_cons_iff.1 h
    obtain rfl : body = i.result := hb
    have ht : flatTerm ⟨i.result, label, carried⟩ = .ok i.text := by cases i <;> rfl
    rw [List.mapM_cons, ht, bind_ok, ih hts]
    rfl

/-- The flat text of evaluated items. -/
theorem flatten_of_itemsOf {ts : List Term} {x : Operand} {l : List (Sign × Operand)}
    (h : ts.map Term.body = (Formula.itemsOf x l).map FormulaItem.result) :
    ∃ text, flatten ts = .ok text
      ∧ text.toList = flatText x.int (l.map fun y => (y.1, y.2.int)) := by
  refine ⟨_, by rw [flatten, mapM_flatTerm h]; rfl, ?_⟩
  rw [String.toList_join, List.flatMap_map, Formula.itemsOf, List.flatMap_cons,
    List.flatMap_assoc, flatText, List.flatMap_map]
  simp [FormulaItem.text, intText]

/-! ## Settling -/

/-- The outcome of settling a roll of evaluated items is that of truncating arithmetic. -/
theorem settle_of_itemsOf {r : Roll} {x : Operand} {l : List (Sign × Operand)}
    (h : r.terms.map Term.body = (Formula.itemsOf x l).map FormulaItem.result)
    (hd : (flatTree x.int (l.map fun y => (y.1, y.2.int))).expr.Divides) :
    match (flatTree x.int (l.map fun y => (y.1, y.2.int))).expr.trunc? with
    | some n => ∃ s, r.settle = .ok s ∧ s.sheet.total = .int n
    | none => ∃ e, r.settle = .error e ∧ e.IsDivideByZero := by
  obtain ⟨text, flat, htext⟩ := flatten_of_itemsOf h
  have plain : IsPlain text.toList := htext ▸ isPlain_flatText _ _
  have tokens := (lex_flatText x.int (l.map fun y => (y.1, y.2.int))).symm
  rw [← htext] at tokens
  obtain ⟨-, -, yields⟩ := yields_evaluate plain tokens
  have yields := yields hd
  unfold settle
  rw [flat, bind_ok]
  cases hv : (flatTree x.int (l.map fun y => (y.1, y.2.int))).expr.trunc? with
  | some n =>
    rw [hv] at yields
    obtain yields : evaluate text = .ok (.int n) := yields
    rw [yields]
    exact ⟨_, rfl, rfl⟩
  | none =>
    rw [hv] at yields
    obtain ⟨a, op, b, yields⟩ := yields
    rw [yields]
    exact ⟨_, rfl, a, op, b, rfl⟩

end Roll

/-! ## Terms -/

/-- The evaluation of a roll draws nothing. It ends with the value as its total, or fails by a
division by zero if there is none. -/
def Roll.ComesTo (v : Option Int) (x : Steps Roll Unit) : Prop :=
  x.Quiet (fun r _ => ∃ n, v = some n ∧ r.total = .int n) fun e => v = none ∧ e.IsDivideByZero

/-- The text of a group makes a roll that comes to the value of its derivation. -/
def Runs (inner : RollEvaluation) (context : Context) (s : String) (d : SumTree) : Prop :=
  ∃ r, Roll.ofFormula (.str s) context.config = .ok r
    ∧ Roll.ComesTo d.expr.trunc? (inner context r)

namespace Term

/-- A group is evaluated to the value of its derivation. -/
theorem quiet_group {s : String} {d : SumTree} (h : Runs inner context s d) :
    (evaluationBy inner context ((Operand.group s d).term config)).Quiet
      (fun t _ => t.label.tag = none ∧ ∃ n, d.expr.trunc? = some n ∧ t.total = .ok (.int n))
      (fun e => d.expr.trunc? = none ∧ e.IsDivideByZero) := by
  obtain ⟨r, hr, hcomes⟩ := h
  have formula (t : Term) : (evaluateFormula inner context (.str s) t).Quiet
      (fun u r => u = t ∧ ∃ n, d.expr.trunc? = some n ∧ r.total = .int n)
      (fun e => d.expr.trunc? = none ∧ e.IsDivideByZero) := by
    simp only [evaluateFormula, hr, Task.ofExcept]
    refine Steps.Quiet.bind (Q := fun u (p : Roll × Unit) =>
        u = t ∧ ∃ n, d.expr.trunc? = some n ∧ p.1.total = .int n)
      (Steps.Quiet.beside (hcomes.mono ?_ fun _ => id)) fun u p hu => .done hu
    intro s _ hs
    exact ⟨rfl, hs⟩
  refine Steps.Quiet.onStop ((formula _).bind ?_)
  rintro u r ⟨rfl, n, hn, htotal⟩
  exact .done ⟨rfl, n, hn, by
    rw [← htotal]
    rfl⟩

/-- A flat term keeps its content. -/
theorem quiet_flat {t : Term} (h : t.IsFlat) (waits : t.evaluated = false) :
    (evaluationBy inner context t).Quiet (fun u _ => u.IsFlat ∧ u.body = t.body)
      (fun _ => False) := by
  obtain ⟨body, l, carried⟩ := t
  simp only [evaluationBy, Task.bind_apply, Task.get_apply, Steps.bind]
  rcases h.body with ⟨n, hb⟩ | ⟨s, hb⟩
  · obtain rfl : body = _ := hb
    simp only [waits]
    exact .done ⟨⟨.inl ⟨n, rfl⟩, h.tag⟩, rfl⟩
  · obtain rfl : body = _ := hb
    simp only [waits]
    exact .done ⟨⟨.inr ⟨s, rfl⟩, h.tag⟩, rfl⟩

end Term

/-! ## The passes -/

/-- An item that is no group is a flat term from the start. -/
theorem FormulaItem.isFlat_term (config : Config) {i : FormulaItem} {P : String → SumTree → Prop}
    (h : i.Ok P) :
    ((i.term config).IsFlat ∧ (i.term config).body = i.result
        ∧ (i.term config).isIntermediate = false ∧ i.HasValue)
      ∨ ∃ s d, i = .operand (.group s d) ∧ P s d := by
  cases i with
  | sign s => exact .inl ⟨⟨.inr ⟨s, rfl⟩, rfl⟩, rfl, rfl, trivial⟩
  | operand x =>
    cases x with
    | numeral ds => exact .inl ⟨⟨.inl ⟨_, rfl⟩, rfl⟩, rfl, rfl, nofun⟩
    | group s d => exact .inr ⟨s, d, rfl, h⟩

/-- An error over some items: a division by zero because one of the operands has no value. -/
def Error.IsOver (e : Error) (is : List FormulaItem) : Prop :=
  e.IsDivideByZero ∧ ∃ y, FormulaItem.operand y ∈ is ∧ y.value = none

namespace Roll

/-- The terms of a roll are flat and have the given contents. -/
structure IsFlat (r : Roll) (bodies : List Body) : Prop where
  terms : ∀ t ∈ r.terms, t.IsFlat
  bodies : r.terms.map Term.body = bodies

/-- A term that has no identity is evaluated in its place. -/
theorem quiet_onTerm {P : Term → Prop} {fail : Error → Prop} {task : Task Term Unit} {r : Roll}
    {i : Nat} {t : Term} (ht : r.terms[i]? = some t)
    (h : (task t).Quiet (fun u _ => u.label.tag = none ∧ P u) fail) :
    (onTerm i t task r).Quiet (fun s _ => ∃ u, P u ∧ s = r.replaceTerm i u) fail := by
  refine Steps.Quiet.mapState ?_
  simp only [ht, Option.getD_some]
  refine h.mono ?_ fun _ => id
  rintro u - ⟨tag, hu⟩
  exact ⟨u, hu, putTerm_of_tag r tag⟩

/-- If `I i` holds whenever the places before `i` are done, it holds for the last one at the end. -/
theorem quiet_visit {I : Nat → Roll → Prop} {fail : Error → Prop}
    {step : Nat → Term → Task Roll Unit}
    (one : ∀ i r t, I i r → r.terms[i]? = some t →
      (step i t r).Quiet (fun s _ => I (i + 1) s) fail) (count : Nat) {i : Nat} {r : Roll}
    (h : I i r) :
    (visit step count i r).Quiet
      (fun s _ => ∃ j, I j s ∧ (s.terms.length ≤ j ∨ j = i + count)) fail := by
  induction count generalizing i r with
  | zero => exact .done ⟨i, h, .inr rfl⟩
  | succ count ih =>
    cases ht : r.terms[i]? with
    | none =>
      rw [visit_of_none ht]
      exact .done ⟨i, h, .inl (List.getElem?_eq_none_iff.1 ht)⟩
    | some t =>
      rw [visit_of_some ht]
      refine (one i r t h ht).bind fun s _ hs => (ih hs).mono ?_ fun _ => id
      rintro u - ⟨j, hu, last⟩
      rw [Nat.add_right_comm] at last
      exact ⟨j, hu, last⟩

/-- The number of an integer. -/
theorem numberFor_of_total (config : Config) {t : Term} {n : Int} (h : t.total = .ok (.int n)) :
    ∃ u, numberFor t config = .ok u ∧ u.IsFlat ∧ u.body = .number (.int n) := by
  refine ⟨_, by rw [numberFor, h]; rfl, ⟨.inl ⟨_, rfl⟩, rfl⟩, rfl⟩

/-- The first pass has gone over the items `before`, which have values, and has left the flat terms
`done`; the items `after` are still as they were. -/
structure Flattened (config : Config) (before after : List FormulaItem) (done : List Term)
    (r : Roll) : Prop where
  terms : r.terms = done ++ after.map (FormulaItem.term config)
  bodies : done.map Term.body = before.map FormulaItem.result
  flat : ∀ t ∈ done, t.IsFlat
  values : ∀ i ∈ before, i.HasValue

namespace Flattened

variable {before after : List FormulaItem} {done : List Term} {r : Roll} {x : FormulaItem}
  {t : Term}

/-- One place further. -/
theorem put {s : Roll} (h : Flattened config before (x :: after) done r) (flat : t.IsFlat)
    (body : t.body = x.result) (value : x.HasValue)
    (hs : s.terms = done ++ t :: after.map (FormulaItem.term config)) :
    Flattened config (before ++ [x]) after (done ++ [t]) s where
  terms := by rw [hs, List.append_assoc, List.singleton_append]
  bodies := by rw [List.map_append, List.map_append, h.bodies, List.map_singleton, body,
    List.map_singleton]
  flat := List.forall_mem_append.2 ⟨h.flat, List.forall_mem_singleton.2 flat⟩
  values := List.forall_mem_append.2 ⟨h.values, List.forall_mem_singleton.2 value⟩

theorem length_eq (h : Flattened config before after done r) : done.length = before.length := by
  have := congrArg List.length h.bodies
  rwa [List.length_map, List.length_map] at this

end Flattened

/-- **The first pass** makes all items flat. -/
theorem quiet_evaluateIntermediates {is : List FormulaItem} {r : Roll}
    (hr : r.terms = is.map (FormulaItem.term config)) (hok : ∀ i ∈ is, i.Ok (Runs inner context)) :
    (evaluateIntermediates inner context r.terms.length 0 r).Quiet
      (fun s _ => s.IsFlat (is.map FormulaItem.result) ∧ ∀ i ∈ is, i.HasValue)
      (fun e => e.IsOver is) := by
  rw [evaluateIntermediates_eq]
  refine (quiet_visit (I := fun j s => ∃ before after done, is = before ++ after
    ∧ done.length = j ∧ Flattened config before after done s) ?_ _
    ⟨[], is, [], rfl, rfl, hr, rfl, nofun, nofun⟩).mono ?_ fun _ => id
  · rintro j s t ⟨before, after, done, his, rfl, h⟩ ht
    cases after with
    | nil => simp [h.terms] at ht
    | cons x after =>
      have further {t : Term} {u : Roll} (flat : t.IsFlat) (body : t.body = x.result)
          (value : x.HasValue) (hu : u.terms = done ++ t :: after.map (FormulaItem.term config)) :
          ∃ before after done', is = before ++ after ∧ done'.length = done.length + 1
            ∧ Flattened config before after done' u :=
        ⟨before ++ [x], after, done ++ [t], by simp [his], by simp, h.put flat body value hu⟩
      obtain rfl : x.term config = t := by simpa [h.terms] using ht
      have hx : x ∈ is := by simp [his]
      unfold evaluateIntermediate
      rcases FormulaItem.isFlat_term config (hok x hx) with ⟨flat, body, whole, value⟩
        | ⟨text, d, rfl, hrun⟩
      · rw [whole]
        exact .done (further flat body value h.terms)
      · refine ((quiet_onTerm ht (Term.quiet_group hrun)).mono (fun _ _ => id) ?_).bind ?_
        · rintro e ⟨hnone, he⟩
          exact ⟨he, _, hx, hnone⟩
        · rintro _ - ⟨u, ⟨n, hn, htotal⟩, rfl⟩
          have value : (Operand.group text d).value = some n := hn
          have place : (s.replaceTerm done.length u).terms[done.length]? = some u := by
            simp [replaceTerm, h.terms]
          obtain ⟨v, hv, flat, body⟩ := numberFor_of_total s.sheet.config htotal
          show Steps.Quiet _ _ (putNumber done.length _ _)
          rw [putNumber_of_ok place hv]
          refine .pause (.done (further flat ?_ ?_ ?_))
          · rw [body, FormulaItem.result, Operand.int, value, Option.getD_some]
          · intro h
            rw [value] at h
            cases h
          · simp [replaceTerm, h.terms]
  · rintro s - ⟨j, ⟨before, after, done, rfl, rfl, h⟩, last⟩
    have same := h.length_eq
    obtain rfl : after = [] := by
      rw [hr, h.terms] at last
      simp only [List.length_append, List.length_map] at last
      exact List.length_eq_zero_iff.1 (by omega)
    have terms := h.terms
    rw [List.map_nil, List.append_nil] at terms
    rw [List.append_nil]
    exact ⟨⟨terms ▸ h.flat, by rw [terms, h.bodies]⟩, h.values⟩

theorem IsFlat.replaceTerm {r : Roll} {bodies : List Body} (h : r.IsFlat bodies) {i : Nat}
    {t u : Term} (ht : r.terms[i]? = some t) (hu : u.IsFlat) (hb : u.body = t.body) :
    (r.replaceTerm i u).IsFlat bodies where
  terms := fun v hv => (List.mem_or_eq_of_mem_set hv).elim (h.terms v) fun e => e ▸ hu
  bodies := by
    have same : (r.terms.map Term.body)[i]? = some u.body := by
      rw [List.getElem?_map, ht, hb]
      rfl
    obtain ⟨hi, same⟩ := List.getElem?_eq_some_iff.1 same
    show (r.terms.set i u).map Term.body = bodies
    rw [List.map_set, ← same, List.set_getElem_self, h.bodies]

/-- **The second pass** leaves flat terms as they are. -/
theorem quiet_evaluateRest {bodies : List Body} (count i : Nat) {r : Roll} (h : r.IsFlat bodies) :
    (evaluateRest inner context count i r).Quiet (fun s _ => s.IsFlat bodies) (fun _ => False) := by
  rw [evaluateRest_eq]
  refine (quiet_visit (I := fun _ s => s.IsFlat bodies) ?_ count h).mono
    (fun s _ ⟨_, hs, _⟩ => hs) fun _ => id
  intro i s t h ht
  have flat := h.terms t (List.mem_of_getElem? ht)
  unfold evaluateWaiting
  cases waits : t.evaluated with
  | true => exact .pause (.done h)
  | false =>
    have step : (Term.evaluationBy inner context t).Quiet
        (fun u _ => u.label.tag = none ∧ u.IsFlat ∧ u.body = t.body) fun _ => False :=
      (Term.quiet_flat flat waits).mono (fun u _ hu => ⟨hu.1.tag, hu⟩) fun _ => id
    refine (quiet_onTerm ht step).bind ?_
    rintro _ - ⟨u, ⟨hu, hb⟩, rfl⟩
    exact .pause (.done (h.replaceTerm ht hu hb))

/-! ## Rolls -/

variable {is : List FormulaItem} {x : Operand} {l : List (Sign × Operand)} {d : SumTree} {r : Roll}

/-- **A plain roll comes to the value of its derivation**, if its groups do. -/
theorem quiet_evaluateTerms (opens : Formula.Opens is x l)
    (hd : d.tokens = is.flatMap FormulaItem.tokens) (hdiv : d.expr.Divides)
    (hr : r.terms = (Formula.itemsOf x l).map (FormulaItem.term config))
    (hok : ∀ i ∈ Formula.itemsOf x l, i.Ok (Runs inner context)) :
    (evaluateTerms inner context r).Quiet
      (fun s _ => ∃ n, d.expr.trunc? = some n ∧ s.sheet.total = .int n)
      (fun e => d.expr.trunc? = none ∧ e.IsDivideByZero) := by
  simp only [evaluateTerms, Task.bind_apply, Task.get_apply, Task.set_apply, Steps.bind]
  have first := quiet_evaluateIntermediates hr hok
  refine (first.mono (fun _ _ => id) ?_).bind ?_
  · rintro e ⟨he, y, hy, hnone⟩
    exact ⟨opens.trunc?_eq_none hd hy hnone, he⟩
  · rintro ⟨terms, dice, shared, sheet⟩ - ⟨flat, values⟩
    have alike := (opens.alike hd values).same
    have simplified : simplify sheet.config terms = .ok terms :=
      simplify_of_alternates (alternates_of_itemsOf flat.bodies)
    simp only [simplified, Task.ofExcept_ok, Steps.bind]
    refine ((quiet_evaluateRest _ 0 flat).mono (fun _ _ => id) (fun _ => False.elim)).bind ?_
    intro u _ flat
    have settled := settle_of_itemsOf flat.bodies (alike.divides hdiv)
    rw [← alike.value] at settled
    cases hv : d.expr.trunc? with
    | some n =>
      rw [hv] at settled
      obtain ⟨v, hs, htotal⟩ := settled
      rw [hs]
      exact .done ⟨n, rfl, htotal⟩
    | none =>
      rw [hv] at settled
      obtain ⟨e, hs, he⟩ := settled
      rw [hs]
      exact .fail ⟨rfl, he⟩

/-- A plain roll that waits for its evaluation comes to the value of its derivation. -/
theorem comesTo_evaluationBy (opens : Formula.Opens is x l)
    (hd : d.tokens = is.flatMap FormulaItem.tokens) (hdiv : d.expr.Divides)
    (hr : r.terms = (Formula.itemsOf x l).map (FormulaItem.term config))
    (hok : ∀ i ∈ Formula.itemsOf x l, i.Ok (Runs inner context))
    (waiting : r.sheet.state = .created ∧ r.sheet.replayed = false) :
    ComesTo d.expr.trunc? (evaluationBy inner context r) := by
  have created : r.sheet.state.isCreated = true := by rw [waiting.1]; rfl
  simp only [evaluationBy, Task.bind_apply, Task.get_apply, Task.set_apply, Steps.bind, waiting.2,
    created, Bool.not_true, Bool.false_eq_true, if_false]
  have terms : (r.setState .evaluating).terms
      = (Formula.itemsOf x l).map (FormulaItem.term config) := hr
  refine (quiet_evaluateTerms opens hd hdiv terms hok).onFail.onStop.bind ?_
  rintro s - ⟨n, hn, htotal⟩
  exact .done ⟨n, hn, htotal⟩

end Roll

end DiceFormula
