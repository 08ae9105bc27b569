import DiceFormula.Proofs.Evaluation.Joining
import DiceFormula.Proofs.Evaluation.Term
import DiceFormula.Proofs.Record.RoundTrip

/-!
# What evaluation makes of a roll

A waiting roll can be stopped at every pause of its evaluation, at any depth, and is then what it
was before; at the end it is storable (`Roll.meets_evaluationBy`, `Roll.sound_evaluationWithin`).
While its terms are evaluated the roll is `Busy`: nothing but the terms has changed, so that it is
enough to restore these. The two passes keep an invariant of the terms: `Ready` ones wait for the
first pass, `Plain` ones for the second.
-/

namespace DiceFormula

variable {config : Config} {context : Context}

/-! ## Terms between the passes -/

namespace Term

/-- A storable term that says something, and that has not been evaluated if its place is for a
number to take. -/
structure Ready (config : Config) (t : Term) : Prop where
  storable : t.Storable config
  written : t.written ≠ ""
  waits : t.isIntermediate = true → t.evaluated = false

/-- A storable term that says something and that no number takes the place of. -/
structure Plain (config : Config) (t : Term) : Prop where
  storable : t.Storable config
  written : t.written ≠ ""
  notIntermediate : t.isIntermediate = false

theorem Fresh.ready {t : Term} (h : t.Fresh config) : t.Ready config where
  storable := h.storable
  written := h.written
  waits := fun _ => h.waits

theorem Plain.ready {t : Term} (h : t.Plain config) : t.Ready config where
  storable := h.storable
  written := h.written
  waits := fun hi => by rw [h.notIntermediate] at hi; cases hi

end Term

namespace Roll

/-- The number for an evaluated group or call carries its dice. -/
theorem plain_of_numberFor {t n : Term} (hl : t.label.Storable config)
    (hd : termsStorable config t.dice) (h : numberFor t config = .ok n) : n.Plain config := by
  obtain ⟨v, number, -, hn, rfl⟩ := exists_of_numberFor h
  exact
    { storable := ⟨⟨rfl, rfl, ⟨true, rfl⟩, hl.flavor⟩, isDefined_of_definedNumber hn, hd⟩
      written := number.formulaText_ne_empty
      notIntermediate := rfl }

/-! ## Joining neighbours -/

theorem plain_of_fuse {left right t : Term} (hl : left.Plain config) (hr : right.Plain config)
    (h : fuse left right config = .ok t) : t.Plain config := by
  obtain ⟨⟨body, l, carried⟩, hu, h⟩ := bind_eq_ok.1 h
  obtain rfl := Except.ok.inj h
  obtain ⟨hf, hi⟩ := Leaf.made_of_classify (by simp [hl.written]) hu
  have carried : termsStorable config (left.carried ++ right.carried) :=
    termsStorable_append.2 ⟨hl.storable.carried, hr.storable.carried⟩
  obtain ⟨hlabel, hbody, -⟩ := hf.storable
  split
  · obtain ⟨s, hs⟩ := hl.storable.isText_flavor
    exact
      { storable := ⟨⟨hlabel.config, hlabel.tag, hlabel.mark, by
            rw [hs]
            exact Options.isText_flavor (Value.lookup_put_self _ _ _)⟩, hbody, carried⟩
        written := hf.written
        notIntermediate := hi }
  · exact
      { storable := ⟨hlabel, hbody, carried⟩
        written := hf.written
        notIntermediate := hi }

/-! ## A roll in the course of its evaluation -/

/-- All that has changed of the roll `r` are its terms and its state. -/
structure Busy (r s : Roll) : Prop where
  dice : s.dice = []
  shared : s.shared = []
  sheet : s.sheet = { r.sheet with state := .evaluating }

namespace Busy

variable {r s : Roll}

theorem setTerms (h : Busy r s) (terms : List Term) : Busy r { s with terms } :=
  ⟨h.dice, h.shared, h.sheet⟩

theorem putTerm (h : Busy r s) (i : Nat) (t : Term) : Busy r (putTerm i t s) := by
  refine ⟨h.dice, ?_, h.sheet⟩
  simp only [Roll.putTerm, updateTag, h.shared]
  split <;> rfl

/-- **The terms of a busy roll are all that has to be restored.** -/
theorem restoreTerms (h : Busy r s) (hr : r.Waiting config) :
    restoreTerms (termRecords r.terms) s = .clean r := by
  obtain ⟨terms, dice, shared, formula, options, state, total, replayed, tag, _⟩ := r
  obtain ⟨sterms, sdice, sshared, ssheet⟩ := s
  obtain rfl : state = .created := hr.state
  obtain rfl : dice = [] := hr.dice
  obtain rfl : shared = [] := hr.shared
  obtain rfl : _ = config := hr.sheet.config
  obtain ⟨rfl, rfl, rfl⟩ := h
  unfold Roll.restoreTerms
  rw [ofRecords_of_fresh hr.terms]
  rfl

end Busy

/-! ## The passes -/

variable {inner : RollEvaluation} {r : Roll}

/-- The contract of a pass: stopped, it leaves a busy roll behind, and at its end the roll is busy
and its terms satisfy `Q`. -/
abbrev passes (r : Roll) (Q : List Term → Prop) : Contract Roll Unit :=
  { left := Left.Holds (Busy r), done := fun s _ => Busy r s ∧ Q s.terms }

/-- One term of a busy roll is evaluated. -/
theorem meets_evaluateTerm (hi : inner.Sound context) {s : Roll} (hs : Busy r s) {i : Nat}
    {t : Term} (ht : s.terms[i]? = some t) (h : t.Storable context.config) :
    (onTerm i t (Term.evaluationBy inner context) s).Meets
      (passes r fun ts => ∃ u, Term.Settled context.config t u ∧ ts = s.terms.set i u) := by
  refine meets_onTerm ht ((Term.meets_evaluationBy_settled hi h).mono_ends ?_ ?_)
  · intro l hl
    exact (Left.holds_map _ _ _).2 (hl.mono fun _ _ => hs.putTerm i _)
  · intro u _ hu
    refine ⟨hs.putTerm i u, u, hu, ?_⟩
    have tag : u.label.tag = none := by rw [hu.label]; exact h.label.tag
    show (putTerm i u s).terms = s.terms.set i u
    rw [putTerm_of_tag s tag, replaceTerm]

/-- The first pass has gone over the terms before place `i`: none of them is a group or a call. -/
def Passed (i : Nat) (ts : List Term) : Prop :=
  ∀ j t, j < i → ts[j]? = some t → t.isIntermediate = false

namespace Passed

variable {i : Nat} {ts : List Term} {t : Term}

theorem zero (ts : List Term) : Passed 0 ts := by
  intro j t hj
  exact absurd hj (Nat.not_lt_zero j)

/-- One place further, over a term that stays. -/
theorem skip (h : Passed i ts) (ht : ts[i]? = some t) (whole : t.isIntermediate = false) :
    Passed (i + 1) ts := by
  intro j u hj hu
  by_cases hji : j = i
  · rw [hji, ht] at hu
    obtain rfl := Option.some.inj hu
    exact whole
  · exact h j u (by omega) hu

/-- One place further, over a term that was put there. -/
theorem set (h : Passed i ts) (whole : t.isIntermediate = false) : Passed (i + 1) (ts.set i t) := by
  intro j u hj hu
  by_cases hji : j = i
  · rw [hji] at hu
    obtain ⟨hlt, hu⟩ := List.getElem?_eq_some_iff.1 hu
    rw [List.getElem_set_self] at hu
    rw [← hu]
    exact whole
  · rw [List.getElem?_set_ne (Ne.symm hji)] at hu
    exact h j u (by omega) hu

/-- At the end of the pass nothing is left for a number to take the place of. -/
theorem plain (h : Passed i ts) (hl : ts.length ≤ i) (ready : ∀ t ∈ ts, t.Ready config) :
    ∀ t ∈ ts, t.Plain config := by
  intro t ht
  obtain ⟨storable, written, -⟩ := ready t ht
  obtain ⟨j, hj, rfl⟩ := List.mem_iff_getElem.1 ht
  exact ⟨storable, written, h j _ (by omega) (List.getElem?_eq_getElem hj)⟩

end Passed

/-- The number of an evaluated group or call takes its place. -/
theorem meets_putNumber (hc : r.sheet.config = context.config) {i : Nat} {t v : Term} {u : Roll}
    (busy : Busy r u) (hv : u.terms[i]? = some v) (label : v.label.Storable context.config)
    (dice : termsStorable context.config v.dice) :
    (putNumber i t u).Meets
      (passes r fun ts => ∃ n : Term, n.Plain context.config ∧ ts = u.terms.set i n) := by
  cases hn : numberFor v u.sheet.config with
  | error e =>
    rw [putNumber_of_error hv hn]
    exact trivial
  | ok n =>
    rw [putNumber_of_ok hv hn]
    have config : u.sheet.config = context.config := by rw [busy.sheet, ← hc]
    exact ⟨trivial, busy.setTerms _, busy.setTerms _, n,
      plain_of_numberFor label dice (config ▸ hn), rfl⟩

/-- **The first pass** leaves no group and no call. -/
theorem meets_evaluateIntermediates (hi : inner.Sound context)
    (hc : r.sheet.config = context.config) {s : Roll} (hs : Busy r s)
    (ready : ∀ t ∈ s.terms, t.Ready context.config) :
    (evaluateIntermediates inner context s.terms.length 0 s).Meets
      (passes r fun ts => ∀ t ∈ ts, t.Plain context.config) := by
  rw [evaluateIntermediates_eq]
  refine meets_visit (I := fun i u => Busy r u ∧ (∀ t ∈ u.terms, t.Ready context.config)
    ∧ Passed i u.terms ∧ u.terms.length = s.terms.length) ?_ _ ⟨hs, ready, .zero _, rfl⟩ ?_
  · rintro i u t ⟨hu, ready, passed, length⟩ ht
    have waits := ready t (List.mem_of_getElem? ht)
    unfold evaluateIntermediate
    by_cases whole : t.isIntermediate = false
    · rw [if_neg (by simp [whole])]
      exact ⟨hu, ready, passed.skip ht whole, length⟩
    · have group : t.isIntermediate = true := by simpa using whole
      rw [if_pos (by simp [group, waits.waits group])]
      refine Steps.Meets.bind (meets_evaluateTerm hi hu ht waits.storable) ?_
      rintro w - ⟨hw, v, hv, terms⟩
      have inside : i < u.terms.length := (List.getElem?_eq_some_iff.1 ht).1
      have place : w.terms[i]? = some v := by simp [terms, inside]
      have label : v.label.Storable context.config := by
        obtain ⟨config, tag, -, flavor⟩ := waits.storable.label
        rw [hv.label]
        exact ⟨config, tag, ⟨true, rfl⟩, flavor⟩
      refine (meets_putNumber hc hw place label hv.dice).mono_done ?_
      rintro x - ⟨hx, n, hn, numbered⟩
      rw [terms, List.set_set] at numbered
      refine ⟨hx, ?_, ?_, ?_⟩
      · rw [numbered]
        intro y hy
        rcases List.mem_or_eq_of_mem_set hy with hy | rfl
        · exact ready y hy
        · exact hn.ready
      · rw [numbered]
        exact passed.set hn.notIntermediate
      · rw [numbered, List.length_set, length]
  · rintro j u ⟨hu, ready, passed, length⟩ last
    exact ⟨hu, passed.plain (by omega) ready⟩

/-- **The second pass** leaves storable terms. -/
theorem meets_evaluateRest (hi : inner.Sound context) (count : Nat) {s : Roll} (hs : Busy r s)
    (ready : ∀ t ∈ s.terms, t.Storable context.config ∧ t.isIntermediate = false) :
    (evaluateRest inner context count 0 s).Meets
      (passes r fun ts => ∀ t ∈ ts, t.Storable context.config) := by
  rw [evaluateRest_eq]
  refine meets_visit (I := fun _ u => Busy r u
    ∧ ∀ t ∈ u.terms, t.Storable context.config ∧ t.isIntermediate = false) ?_ _ ⟨hs, ready⟩ ?_
  · rintro i u t ⟨hu, ready⟩ ht
    obtain ⟨storable, notIntermediate⟩ := ready t (List.mem_of_getElem? ht)
    unfold evaluateWaiting
    by_cases evaluated : t.evaluated = true
    · rw [if_neg (by simp [evaluated])]
      exact ⟨trivial, hu, hu, ready⟩
    · rw [if_pos (by simpa using evaluated)]
      refine Steps.Meets.bind (meets_evaluateTerm hi hu ht storable) ?_
      rintro w - ⟨hw, v, hv, terms⟩
      refine ⟨trivial, hw, hw, ?_⟩
      rw [terms]
      intro x hx
      rcases List.mem_or_eq_of_mem_set hx with h | rfl
      · exact ready x h
      · exact ⟨hv.storable notIntermediate, hv.intermediate.trans notIntermediate⟩
  · rintro j u ⟨hu, ready⟩ -
    exact ⟨hu, fun t ht => (ready t ht).1⟩

/-! ## Rolls -/

/-- The terms of a roll are evaluated, and its total and its dice are settled. -/
theorem meets_evaluateTerms (hi : inner.Sound context) (hr : r.Waiting context.config) :
    (evaluateTerms inner context (r.setState .evaluating)).Meets
      { left := Left.Holds (Busy r)
        done := fun s _ => termsStorable context.config s.terms ∧ s.dice = diceOfTerms s.terms
          ∧ ∃ total, s.sheet = { r.sheet with state := .evaluating, total } } := by
  have busy : Busy r (r.setState .evaluating) := ⟨hr.dice, hr.shared, rfl⟩
  simp only [evaluateTerms, Task.bind_apply, Task.get_apply, Task.set_apply, Steps.bind]
  refine Steps.Meets.bind (Q := fun s _ => Busy r s ∧ ∀ t ∈ s.terms, t.Plain context.config)
    (meets_evaluateIntermediates hi hr.sheet.config busy fun t ht => (hr.terms t ht).ready) ?_
  rintro s - ⟨hs, ht⟩
  have hc : s.sheet.config = context.config := by rw [hs.sheet]; exact hr.sheet.config
  simp only [hc]
  refine Steps.Meets.bind
    (Q := fun u ts => u = s ∧ ∀ t ∈ ts, t.Plain context.config)
    (Task.meets_ofExcept
      (fun ts hts => ⟨rfl, forall_of_simplify ht (fun _ _ _ => plain_of_fuse) hts⟩)
      fun _ _ => trivial) ?_
  rintro u ts ⟨rfl, hts⟩
  refine Steps.Meets.bind
    (Q := fun s _ => Busy r s ∧ ∀ t ∈ s.terms, t.Storable context.config)
    (meets_evaluateRest hi _ (hs.setTerms ts) fun t ht =>
      ⟨(hts t ht).storable, (hts t ht).notIntermediate⟩) ?_
  rintro v - ⟨hv, ht⟩
  refine Steps.Meets.bind (Q := fun _ w => v.settle = .ok w)
    (Task.meets_ofExcept (fun _ h => h) fun _ _ => trivial) ?_
  intro _ w hw
  obtain ⟨n, rfl⟩ := exists_of_settle hw
  exact ⟨termsStorable_iff.2 ht, rfl, .num n, by rw [hv.sheet]⟩

/-- **The evaluation of a waiting roll** leaves the roll itself behind wherever it is stopped, and
ends with a storable roll that has been evaluated. -/
theorem meets_evaluationBy (hi : inner.Sound context) (hr : r.Waiting context.config) :
    (evaluationBy inner context r).Meets
      { left := Left.Holds (· = r)
        done := fun s _ => s.Storable context.config ∧ s.evaluated = true } := by
  have replayed : r.sheet.replayed = false := by
    rcases hr.sheet.state with h | h
    · rw [hr.state] at h
      cases h
    · exact h.2.2
  have created : r.sheet.state.isCreated = true := by rw [hr.state]; rfl
  simp only [evaluationBy, Task.bind_apply, Task.get_apply, Task.set_apply, Steps.bind, replayed,
    created, Bool.not_true, Bool.false_eq_true, if_false]
  refine Steps.Meets.bind
    (Q := fun s _ => termsStorable context.config s.terms ∧ s.dice = diceOfTerms s.terms
      ∧ ∃ total, s.sheet = { r.sheet with state := .evaluating, total })
    (Steps.Meets.onStop (Steps.Meets.onFail ((meets_evaluateTerms hi hr).mono_ends ?_ ?_))) ?_
  · intro l hl
    refine hl.mono ?_
    intro s hs
    rw [hs.restoreTerms hr]
    rfl
  · exact fun _ _ => id
  · rintro ⟨terms, dice, shared, sheet⟩ - ⟨ht, hd, total, hs⟩
    obtain rfl : dice = diceOfTerms terms := hd
    obtain rfl : sheet = _ := hs
    have hsheet := hr.sheet
    exact ⟨⟨⟨hsheet.config, hsheet.tag, hsheet.formula, .inl rfl⟩, ht,
      storable_diceOfTerms terms ht, rfl⟩, rfl⟩

/-- The evaluation of rolls is sound at every depth. -/
theorem sound_evaluationWithin : ∀ fuel : Nat, RollEvaluation.Sound (evaluationWithin fuel) context
  | 0, _, hr => hr.storable
  | fuel + 1, _, hr =>
    (meets_evaluationBy (sound_evaluationWithin fuel) hr).mono_done fun _ _ => And.left

/-- **What the evaluation of a waiting roll can show**: stopped, it leaves the roll behind as it
was, and it ends with a storable roll that has been evaluated. -/
theorem meets_evaluation (hr : r.Waiting context.config) :
    (evaluation context r).Meets
      { left := Left.Holds (· = r)
        done := fun s _ => s.Storable context.config ∧ s.evaluated = true } :=
  meets_evaluationBy (sound_evaluationWithin _) hr

end Roll

end DiceFormula
