import DiceFormula.Proofs.Evaluation.Bounds
import DiceFormula.Proofs.Roll.Settling

/-!
# Bounds of a roll

Minimizing and maximizing bound every roll of a monotone formula (`Roll.extremes_bound`): one in
which all terms are monotone at every level. The terms of such a formula are bounded one by one in
both passes, the integers that are left at the end have only plus and times signs between them, and
as none of them is negative, more of any is more of the whole.
-/

namespace DiceFormula

open Arithmetic

variable {config : Config} {e : Extreme} {inner : RollEvaluation}

/-! ## Sums of products -/

namespace Arithmetic

/-- The sign in front of a number that is a factor, or else a summand. -/
def joint (factor : Bool) : Sign := if factor then .times else .plus

/-- Natural numbers with the signs in front of them. -/
def signed (l : List (Bool × ℕ)) : List (Sign × ℤ) := l.map fun y => (joint y.1, (y.2 : ℤ))

/-- What natural numbers are worth that follow a sum and the product to be added to it. -/
def worth (sum product : ℕ) : List (Bool × ℕ) → ℕ
  | [] => sum + product
  | (true, n) :: l => worth sum (product * n) l
  | (false, n) :: l => worth (sum + product) n l

theorem pushAll_signed (l : List (Bool × ℕ)) : ∀ sum product : ℕ,
    ((Partial.pushAll { total := sum, product := product } (signed l)).map Partial.value)
      = .ok (worth sum product l : ℕ) := by
  induction l with
  | nil => exact fun sum product => rfl
  | cons y l ih =>
    intro sum product
    obtain ⟨factor, n⟩ := y
    cases factor with
    | true =>
      have := ih sum (product * n)
      rw [Nat.cast_mul] at this
      exact this
    | false =>
      have := ih (sum + product) n
      rw [Nat.cast_add] at this
      exact this

theorem exactly_signed (n : ℕ) (l : List (Bool × ℕ)) :
    exactly n (signed l) = .ok (worth 0 n l : ℕ) := pushAll_signed l 0 n

/-- Every number is at most the one in its place, and the signs are the same. -/
structure SumBelow (x y : ℕ × List (Bool × ℕ)) : Prop where
  first : x.1 ≤ y.1
  rest : List.Forall₂ (fun p q => p.1 = q.1 ∧ p.2 ≤ q.2) x.2 y.2

/-- **No sum of products is less if its numbers are more.** -/
theorem worth_le {l m : List (Bool × ℕ)}
    (h : List.Forall₂ (fun p q => p.1 = q.1 ∧ p.2 ≤ q.2) l m) :
    ∀ {s t p q : ℕ}, s ≤ t → p ≤ q → worth s p l ≤ worth t q m := by
  induction h with
  | nil => exact fun hs hp => Nat.add_le_add hs hp
  | @cons y z l m hy _ ih =>
    intro s t p q hs hp
    obtain ⟨factor, n⟩ := y
    obtain ⟨_, k⟩ := z
    obtain ⟨rfl, hn⟩ : factor = _ ∧ n ≤ k := hy
    cases factor with
    | true => exact ih hs (Nat.mul_le_mul hp hn)
    | false => exact ih (Nat.add_le_add hs hp) hn

end Arithmetic

/-! ## Settling -/

namespace Term

theorem worth?_of_total {t : Term} {n : ℤ} (h : t.total = .ok (.int n)) : t.worth? = some n := by
  rw [worth?, h]
  rfl

/-- A value is bounded by a value. -/
theorem Beyond.exists_worth? {t u : Term} (h : t.Beyond e u) (value : t.isOperator = false) :
    ∃ n m : ℕ, t.worth? = some (n : ℤ) ∧ u.worth? = some (m : ℤ) ∧ e.Beyond (· ≤ ·) n m := by
  cases h with
  | operator ht _ _ =>
    rw [isOperator, ht] at value
    cases value
  | value ht hu beyond => exact ⟨_, _, worth?_of_total ht, worth?_of_total hu, beyond⟩

/-- An operator is bounded by the same operator. -/
theorem Beyond.exists_joint {t u : Term} (h : t.Beyond e u) (operator : t.isOperator = true) :
    ∃ factor, t.sign? = some (joint factor) ∧ u.sign? = some (joint factor) := by
  cases h with
  | operator ht hu hs =>
    rcases hs with rfl | rfl
    · exact ⟨false, ht, hu⟩
    · exact ⟨true, ht, hu⟩
  | value ht _ _ =>
    obtain ⟨body, l, carried⟩ := t
    cases body with
    | operator s => cases ht
    | _ => cases operator

end Term

namespace Roll

/-- Terms that alternate and are bounded one by one are read as numbers that are. -/
theorem exists_reads {ts us : List Term} (h : Alternates ts)
    (hb : List.Forall₂ (Term.Beyond e) ts us) :
    ∃ x y : ℕ × List (Bool × ℕ), Reads ts x.1 (signed x.2) ∧ Reads us y.1 (signed y.2)
      ∧ e.Beyond SumBelow x y := by
  induction h generalizing us with
  | value value =>
    obtain ⟨u, us, hu, hus, rfl⟩ := List.forall₂_cons_left_iff.1 hb
    obtain rfl := List.forall₂_nil_left_iff.1 hus
    obtain ⟨n, m, hn, hm, beyond⟩ := hu.exists_worth? value
    exact ⟨(n, []), (m, []), .value hn, .value hm, beyond.imp (·, []) fun n m h => ⟨h, .nil⟩⟩
  | join value operator _ ih =>
    obtain ⟨u, vs, hu, hvs, rfl⟩ := List.forall₂_cons_left_iff.1 hb
    obtain ⟨v, us, hv, hus, rfl⟩ := List.forall₂_cons_left_iff.1 hvs
    obtain ⟨n, m, hn, hm, beyond⟩ := hu.exists_worth? value
    obtain ⟨factor, hs, hv⟩ := hv.exists_joint operator
    obtain ⟨x, y, hx, hy, after⟩ := ih hus
    refine ⟨(n, (factor, x.1) :: x.2), (m, (factor, y.1) :: y.2), .join hn hs hx, .join hm hv hy,
      beyond.imp₂ (fun n x => (n, (factor, x.1) :: x.2)) after ?_⟩
    exact fun n m x y h below => ⟨h, .cons ⟨rfl, below.first⟩ below.rest⟩

/-- Terms that are read as natural numbers with plus and times signs settle to what these are
worth. -/
theorem exists_settle {r : Roll} {x : ℕ × List (Bool × ℕ)} (h : Reads r.terms x.1 (signed x.2)) :
    ∃ s, r.settle = .ok s ∧ (s.setState .evaluated).total = .int (worth 0 x.1 x.2) := by
  obtain ⟨text, flat, htext⟩ := flatten_of_reads h
  have gives := gives_flatText htext
  rw [exactly_signed] at gives
  have total : evaluate text = .ok (.int (worth 0 x.1 x.2 : ℕ)) := gives
  rw [settle, flat, bind_ok, total, bind_ok]
  exact ⟨_, rfl, rfl⟩

/-- Totals that are bounded one by one are taken together to totals that are bounded. -/
theorem bounds_settle {r s : Roll} (h : Alternates r.terms)
    (hb : List.Forall₂ (Term.Beyond e) r.terms s.terms) :
    ∃ r' s', r.settle = .ok r' ∧ s.settle = .ok s'
      ∧ (r'.setState .evaluated).Beyond e (s'.setState .evaluated) := by
  obtain ⟨x, y, hx, hy, beyond⟩ := exists_reads h hb
  obtain ⟨r', hr, total⟩ := exists_settle hx
  obtain ⟨s', hs, total'⟩ := exists_settle hy
  exact ⟨r', s', hr, hs, _, _, total, total', beyond.imp (fun x => worth 0 x.1 x.2)
    fun _ _ below => worth_le below.rest (Nat.le_refl 0) below.first⟩

end Roll

/-! ## Lists side by side -/

namespace Forall₂

variable {α β γ : Type} {as : List α} {bs : List β} {cs : List γ}

theorem exists_of_mem {R : α → β → Prop} (h : List.Forall₂ R as bs) : ∀ a ∈ as, ∃ b, R a b := by
  induction h with
  | nil => exact List.forall_mem_nil _
  | cons hab _ ih => exact List.forall_mem_cons.2 ⟨⟨_, hab⟩, ih⟩

/-- A third list between two, item by item. -/
theorem exists_between {P : α → γ → Prop} {Q : β → γ → Prop}
    (h : List.Forall₂ (fun a b => ∃ c, P a c ∧ Q b c) as bs) :
    ∃ cs, List.Forall₂ P as cs ∧ List.Forall₂ Q bs cs := by
  induction h with
  | nil => exact ⟨[], .nil, .nil⟩
  | cons hab _ ih =>
    obtain ⟨c, hp, hq⟩ := hab
    obtain ⟨cs, hps, hqs⟩ := ih
    exact ⟨c :: cs, .cons hp hps, .cons hq hqs⟩

/-- Two lists that a third one is related to are related as well. -/
theorem across {P : α → β → Prop} {Q : α → γ → Prop} {R : β → γ → Prop}
    (h : List.Forall₂ P as bs) (hR : ∀ a b c, P a b → Q a c → R b c) :
    ∀ {cs : List γ}, List.Forall₂ Q as cs → List.Forall₂ R bs cs := by
  induction h with
  | nil =>
    rintro _ ⟨⟩
    exact .nil
  | cons hp _ ih =>
    rintro _ (_ | ⟨hq, hqs⟩)
    exact .cons (hR _ _ _ hp hq) (ih hqs)

end Forall₂

/-! ## The passes of an extreme evaluation -/

section

variable {context : Context}

namespace Term

/-- What the first pass makes of a term, if the evaluation of a group or a call comes to an end. -/
inductive Becomes (inner : RollEvaluation) (context : Context) (t : Term) : Term → Prop
  | whole : t.isIntermediate = false → Becomes inner context t t
  | number {v u : Term} : t.isIntermediate = true → t.evaluated = false →
      (Term.evaluationBy inner context t).ComesTo v () →
      Roll.numberFor v context.config = .ok u → Becomes inner context t u

/-- What the second pass makes of a term, if the evaluation of what waits comes to an end. -/
inductive Settles (inner : RollEvaluation) (context : Context) (t : Term) : Term → Prop
  | evaluated : t.evaluated = true → Settles inner context t t
  | waits {u : Term} : t.evaluated = false → (Term.evaluationBy inner context t).ComesTo u () →
      Settles inner context t u

theorem rightUnique_becomes : Relator.RightUnique (Becomes inner context) := by
  intro t u v hu hv
  cases hu with
  | whole whole =>
    cases hv with
    | whole => rfl
    | number group => exact absurd group (by simp [whole])
  | number group _ ends number =>
    cases hv with
    | whole whole => exact absurd group (by simp [whole])
    | number _ _ ends' number' =>
      obtain ⟨rfl, -⟩ := ends.unique ends'
      exact Except.ok.inj (number.symm.trans number')

theorem rightUnique_settles : Relator.RightUnique (Settles inner context) := by
  intro t u v hu hv
  cases hu with
  | evaluated evaluated =>
    cases hv with
    | evaluated => rfl
    | waits waits => exact absurd evaluated (by simp [waits])
  | waits waits ends =>
    cases hv with
    | evaluated evaluated => exact absurd evaluated (by simp [waits])
    | waits _ ends' => exact (ends.unique ends').1.symm

end Term

/-- **Terms that come to their ends one by one** come to their end together. -/
theorem Roll.comesTo_evaluateTerms {r s : Roll} {us ws : List Term}
    (config : r.sheet.config = context.config) (tags : ∀ t ∈ r.terms, t.label.tag = none)
    (first : List.Forall₂ (Term.Becomes inner context) r.terms us)
    (joined : simplify r.sheet.config us = .ok us) (tags' : ∀ u ∈ us, u.label.tag = none)
    (second : List.Forall₂ (Term.Settles inner context) us ws)
    (settled : settle { r with terms := ws } = .ok s) :
    (evaluateTerms inner context r).ComesTo s () := by
  refine Steps.Ends.mono (ends_evaluateTerms (P := fun t _ u => t.Becomes inner context u)
    (Q := fun _ t => t = s) ?_ ?_) fun _ _ _ h => ⟨h, rfl⟩
  · intro t ht
    obtain ⟨u, hu⟩ := Forall₂.exists_of_mem first t ht
    cases hu with
    | whole whole => exact .inl ⟨whole, .whole whole⟩
    | @number v u group waits ends number =>
      refine .inr ⟨group, waits, (ends.and (ends_replaces (tags t ht))).mono ?_⟩
      rintro n _ - ⟨⟨rfl, -⟩, tag, -⟩
      rw [config, number]
      exact ⟨tag, .number group waits ends number⟩
  · intro k vs hvs
    obtain rfl : vs = us :=
      Term.rightUnique_becomes.forall₂ (hvs.forall₂.imp fun _ _ ⟨_, h⟩ => h) first
    rw [joined]
    refine (ends_evaluateRest (P := fun t _ u => t.Settles inner context u) ?_).mono ?_
    · intro u hu
      obtain ⟨w, hw⟩ := Forall₂.exists_of_mem second u hu
      cases hw with
      | evaluated evaluated => exact .inl ⟨evaluated, .evaluated evaluated⟩
      | waits waits ends =>
        refine .inr ⟨waits, (ends.and (ends_replaces (tags' u hu))).mono ?_⟩
        rintro n _ - ⟨⟨rfl, -⟩, tag, -⟩
        exact ⟨tag, .waits waits ends⟩
    · rintro n v - ⟨xs, hxs, rfl⟩
      obtain rfl : xs = ws :=
        Term.rightUnique_settles.forall₂ (hxs.forall₂.imp fun _ _ ⟨_, h⟩ => h) second
      rw [settled]
      exact rfl

end

/-! ## The passes of both evaluations -/

namespace Term

/-- What the first pass made of a term in the random and in the extreme evaluation: it waits in
both, or it is a number in both. -/
inductive Passed (inner : RollEvaluation) (config : Config) (e : Extreme) (u v : Term) : Prop
  | waits : v = u → u.evaluated = false →
      (Term.evaluationBy inner { config } u).Bounds (Beyond e)
        (Term.evaluationBy inner { config, mode := e.mode } u) → Passed inner config e u v
  | evaluated : u.evaluated = true → v.evaluated = true → u.Beyond e v → Passed inner config e u v

/-- A term that is worth an integer becomes a number. -/
theorem exists_numberFor {t : Term} {n : ℤ} (h : t.total = .ok (.int n)) :
    ∃ u, Roll.numberFor t config = .ok u ∧ u.total = .ok (.int n) ∧ u.evaluated = true := by
  rw [Roll.numberFor, h, bind_ok]
  exact ⟨_, rfl, rfl, rfl⟩

/-- The first pass makes `u` of a term, and the extreme one makes of it what bounds `u`. -/
structure PassesTo (inner : RollEvaluation) (config : Config) (e : Extreme) (t : Term) (_ : ℕ)
    (u : Term) : Prop where
  tag : u.label.tag = none
  replaces : Replaces t u
  extreme : ∃ v, (v.label.tag = none ∧ Replaces t v ∧ t.Becomes inner { config, mode := e.mode } v)
    ∧ u.Passed inner config e v

/-- The first pass, for one term. -/
theorem passesTo_of_bounds {t : Term} (tag : t.label.tag = none) (waits : t.evaluated = false)
    (h : (Term.evaluationBy inner { config } t).Bounds (Beyond e)
      (Term.evaluationBy inner { config, mode := e.mode } t)) :
    t.isIntermediate = false ∧ t.PassesTo inner config e 0 t
      ∨ t.isIntermediate = true ∧ t.evaluated = false
        ∧ (Term.evaluationBy inner { config } t).Ends .fair fun n u _ =>
          u.label.tag = none
            ∧ Dealing.fair.Allows (t.PassesTo inner config e n) (Roll.numberFor u config) := by
  by_cases whole : t.isIntermediate = false
  · exact .inl ⟨whole, tag, rfl, t, ⟨tag, rfl, .whole whole⟩, .waits rfl waits h⟩
  · have group : t.isIntermediate = true := by simpa using whole
    have value := isOperator_of_isIntermediate group
    refine .inr ⟨group, waits, (Steps.Ends.and h (Roll.ends_replaces tag)).mono ?_⟩
    rintro n u - ⟨⟨v, beyond, ends⟩, tag, replaces⟩
    refine ⟨tag, ?_⟩
    cases beyond with
    | operator hu _ _ =>
      rw [Replaces, value, isOperator, hu] at replaces
      cases replaces
    | value hu hv beyond =>
      obtain ⟨u', number, total, evaluated⟩ := @exists_numberFor config _ _ hu
      obtain ⟨v', number', total', evaluated'⟩ := @exists_numberFor config _ _ hv
      rw [number]
      exact ⟨(Roll.joined_of_numberFor number).joinable.tag,
        Roll.replaces_of_numberFor group number, v',
        ⟨(Roll.joined_of_numberFor number').joinable.tag,
          Roll.replaces_of_numberFor group number', .number group waits ends number'⟩,
        .evaluated evaluated evaluated' (.value total total' beyond)⟩

/-- The second pass makes `w` of what the first one left, and the extreme one makes of what bounds
that what bounds `w`. -/
structure SettlesTo (inner : RollEvaluation) (config : Config) (e : Extreme) (u : Term) (_ : ℕ)
    (w : Term) : Prop where
  replaces : Replaces u w
  extreme : ∀ v, u.Passed inner config e v →
    ∃ w', v.Settles inner { config, mode := e.mode } w' ∧ w.Beyond e w'

/-- The second pass, for one term. -/
theorem settlesTo_of_passed {u v : Term} (tag : u.label.tag = none)
    (h : u.Passed inner config e v) :
    u.evaluated = true ∧ u.SettlesTo inner config e 0 u
      ∨ u.evaluated = false ∧ (Term.evaluationBy inner { config } u).Ends .fair fun n w _ =>
        w.label.tag = none ∧ u.SettlesTo inner config e n w := by
  cases h with
  | waits _ waits bounds =>
    refine .inr ⟨waits, (Steps.Ends.and bounds (Roll.ends_replaces tag)).mono ?_⟩
    rintro n w - ⟨⟨w', beyond, ends⟩, tag, replaces⟩
    refine ⟨tag, replaces, ?_⟩
    rintro v (⟨rfl, -, -⟩ | ⟨evaluated, -, -⟩)
    · exact ⟨w', .waits waits ends, beyond⟩
    · exact absurd evaluated (by simp [waits])
  | evaluated evaluated _ _ =>
    refine .inl ⟨evaluated, rfl, ?_⟩
    rintro v (⟨-, waits, -⟩ | ⟨-, evaluated, beyond⟩)
    · exact absurd evaluated (by simp [waits])
    · exact ⟨v, .evaluated evaluated, beyond⟩

end Term

namespace Roll

/-- **Where the terms of a roll are bounded, so is the roll.** -/
theorem bounds_evaluateTerms {r : Roll} (hc : r.sheet.config = config)
    (alternates : Alternates r.terms) (tags : ∀ t ∈ r.terms, t.label.tag = none)
    (waits : ∀ t ∈ r.terms, t.evaluated = false)
    (h : ∀ t ∈ r.terms, (Term.evaluationBy inner { config } t).Bounds (Term.Beyond e)
      (Term.evaluationBy inner { config, mode := e.mode } t)) :
    (evaluateTerms inner { config } r).Bounds
      (fun s s' => (s.setState .evaluated).Beyond e (s'.setState .evaluated))
      (evaluateTerms inner { config, mode := e.mode } r) := by
  subst hc
  refine ends_evaluateTerms (P := Term.PassesTo inner r.sheet.config e)
    (fun t ht => Term.passesTo_of_bounds (tags t ht) (waits t ht) (h t ht)) ?_
  intro k us hus
  -- the extreme evaluation is put together beside the random one: `vs` is what its first pass leaves,
  -- and `ws'` what its second pass leaves
  obtain ⟨vs, hvs, passed⟩ := Forall₂.exists_between (hus.forall₂.imp fun _ _ ⟨_, h⟩ => h.extreme)
  have alternates' := alternates.of_replaces (hus.forall₂.imp fun _ _ ⟨_, h⟩ => h.replaces)
  have alternates'' := alternates.of_replaces (hvs.imp fun _ _ h => h.2.1)
  have tags' : ∀ v ∈ vs, v.label.tag = none := by
    intro v hv
    obtain ⟨t, tag, -⟩ := Forall₂.exists_of_mem hvs.flip v hv
    exact tag
  rw [simplify_of_alternates alternates']
  refine (ends_evaluateRest (P := Term.SettlesTo inner r.sheet.config e) ?_).mono ?_
  · intro u hu
    obtain ⟨t, -, n, hu'⟩ := hus.exists_of_mem u hu
    obtain ⟨v, -, hv⟩ := hu'.extreme
    exact Term.settlesTo_of_passed hu'.tag hv
  · rintro n s - ⟨ws, hws, rfl⟩
    obtain ⟨ws', settles, beyond⟩ : ∃ ws', List.Forall₂
        (Term.Settles inner { config := r.sheet.config, mode := e.mode }) vs ws'
        ∧ List.Forall₂ (Term.Beyond e) ws ws' := by
      refine Forall₂.exists_between (Forall₂.across (R := fun v w => ∃ w', v.Settles inner
        { config := r.sheet.config, mode := e.mode } w' ∧ w.Beyond e w') passed ?_ hws.forall₂)
      rintro u v w hv ⟨_, hw⟩
      exact hw.extreme v hv
    have last := alternates'.of_replaces (hws.forall₂.imp fun _ _ ⟨_, h⟩ => h.replaces)
    obtain ⟨s, s', hs, hs', totals⟩ := bounds_settle (r := { r with terms := ws })
      (s := { r with terms := ws' }) last beyond
    rw [hs]
    refine ⟨s', totals, ?_⟩
    exact comesTo_evaluateTerms rfl tags (hvs.imp fun _ _ h => h.2.2)
      (simplify_of_alternates alternates'') tags' settles hs'

/-! ## Rolls of a formula -/

/-- The evaluation of the terms of a formula is bounded if they are monotone, and the rolls of the
formulas inside them are bounded. -/
theorem bounds_evaluationBy (extremes : config.HasExtremes) {formula data : Value}
    {options : Options} {p : Formula.Parsed} (h : Formula.parse formula data config = .ok p)
    (monotone : ∀ t ∈ p.terms, t.isMonotone = true)
    (hi : ∀ t ∈ p.terms, ∀ a ∈ t.formulas, inner.Bounds config e a) :
    (evaluationBy inner { config } (ofTerms p.terms options config)).Bounds (Roll.Beyond e)
      (evaluationBy inner { config, mode := e.mode } (ofTerms p.terms options config)) := by
  obtain ⟨-, fresh⟩ := Formula.fresh_of_parse h
  have alternates := Formula.alternates_of_parse h (by
    intro t ht
    have := monotone t ht
    obtain ⟨body, l, carried⟩ := t
    cases body with
    | text => cases this
    | _ => rfl)
  have bounds := @bounds_evaluateTerms config e inner
    ((ofTerms p.terms options config).setState .evaluating) rfl alternates
    (fun t ht => (Formula.joinable_of_parse h t ht).tag) (fun t ht => (fresh t ht).waits)
    fun t ht => Term.bounds_evaluationBy extremes (monotone t ht) (fresh t ht).waits
      (fresh t ht).unrolled (Formula.results_of_parse h t ht) (hi t ht)
  refine ends_evaluationBy rfl rfl (Steps.Ends.mono bounds ?_)
  rintro n s - ⟨s', beyond, ends⟩
  refine ⟨_, beyond, Steps.Ends.mono (ends_evaluationBy (Q := fun _ t => t = s'.setState .evaluated)
    rfl rfl (Steps.Ends.mono ends ?_)) fun _ _ _ h => ⟨h, rfl⟩⟩
  rintro n _ - ⟨rfl, -⟩
  exact rfl

/-- The evaluation of a formula that is monotone at every level is bounded. -/
theorem bounds_evaluationWithin (extremes : config.HasExtremes) (fuel : ℕ) :
    ∀ {formula data : Value} {options : Options} {p : Formula.Parsed},
      Formula.parse formula data config = .ok p → (∀ t ∈ p.terms, t.nesting ≤ fuel) →
      (∀ t ∈ p.terms.flatMap (Term.subterms config fuel), t.isMonotone = true) →
      (evaluationWithin (fuel + 1) { config } (ofTerms p.terms options config)).Bounds
        (Roll.Beyond e)
        (evaluationWithin (fuel + 1) { config, mode := e.mode }
          (ofTerms p.terms options config)) := by
  refine induction_on_nesting (P := fun fuel r =>
    (∀ t ∈ r.terms.flatMap (Term.subterms config fuel), t.isMonotone = true) →
      (evaluationWithin (fuel + 1) { config } r).Bounds (Roll.Beyond e)
        (evaluationWithin (fuel + 1) { config, mode := e.mode } r)) ?_ fuel
  intro fuel formula data options p h hi monotone
  have monotone : ∀ t ∈ p.terms, ∀ u ∈ t.subterms config (fuel + 1), u.isMonotone = true :=
    fun t ht u hu => monotone u (List.mem_flatMap.2 ⟨t, ht, hu⟩)
  refine bounds_evaluationBy extremes h (fun t ht => monotone t ht t List.mem_cons_self) ?_
  intro t ht a ha r hr
  exact hi t ht a ha r hr fun v hv => monotone t ht v (Term.subterms_of_ofFormula ha hr fuel hv)

/-- Where a random evaluation of a monotone formula ends, the extreme one comes to an end beyond. -/
theorem exists_beyond (e : Extreme) (extremes : config.HasExtremes) {formula data options : Value}
    {r : Roll} (h : create formula data options config = .ok r)
    (monotone : ∀ t ∈ r.terms.flatMap (Term.subterms config r.nesting), t.isMonotone = true)
    {src : Source} (hsrc : src.Gives Dealing.fair.drawn)
    (finished : ((evaluation { config } r).run .never src).ending = .finished ()) :
    ∃ s, (evaluation { config, mode := e.mode } r).ComesTo s ()
      ∧ ((evaluation { config } r).run .never src).state.Beyond e s := by
  obtain ⟨p, hp, h⟩ := bind_eq_ok.1 h
  obtain ⟨options, -, h⟩ := bind_eq_ok.1 h
  obtain rfl := Except.ok.inj h
  have bounds := @bounds_evaluationWithin config e extremes
    (ofTerms p.terms options config).nesting _ _ options p hp
    (fun t ht => nesting_le_of_mem ht) monotone
  obtain ⟨-, ends⟩ := Steps.Ends.run bounds .never hsrc
  obtain ⟨n, -, s, beyond, comes⟩ := ends () finished
  exact ⟨s, comes, beyond⟩

/-- **Minimizing and maximizing bound every roll of a monotone formula.** If all terms are monotone
at every level, and a random evaluation comes to an end by draws from zero up to one, then
minimizing and maximizing come to an end too, and the three totals are natural numbers in order. -/
theorem extremes_bound (extremes : config.HasExtremes) {formula data options : Value} {r : Roll}
    (h : create formula data options config = .ok r)
    (monotone : ∀ t ∈ r.terms.flatMap (Term.subterms config r.nesting), t.isMonotone = true)
    {src : Source} (pending : ∀ x ∈ src.pending, IsDraw x) (fill : ∀ x ∈ src.fill, IsDraw x)
    (finished : ((evaluation { config } r).run .never src).ending = .finished ())
    (least greatest : Source) :
    let random := (evaluation { config } r).run .never src
    let minimum := (evaluation { config, mode := .minimum } r).run .never least
    let maximum := (evaluation { config, mode := .maximum } r).run .never greatest
    minimum.ending = .finished () ∧ maximum.ending = .finished ()
      ∧ ∃ a b c : ℕ, minimum.state.total = .int a ∧ random.state.total = .int b
        ∧ maximum.state.total = .int c ∧ a ≤ b ∧ b ≤ c := by
  intro random minimum maximum
  have fair : src.Gives Dealing.fair.drawn := by
    refine ⟨?_, fun y hy => fill y hy⟩
    rintro x hx _ ⟨⟩
    exact pending x hx
  obtain ⟨s, low, n, a, random', total, below⟩ :=
    exists_beyond .least extremes h monotone fair finished
  obtain ⟨t, high, m, c, random'', total', above⟩ :=
    exists_beyond .greatest extremes h monotone fair finished
  obtain ⟨ended, state⟩ := low.run least
  obtain ⟨ended', state'⟩ := high.run greatest
  obtain rfl : n = m := by
    have := random'.symm.trans random''
    exact Int.ofNat.inj (Number.int.inj (Value.num.inj this))
  exact ⟨ended, ended', a, n, c, state ▸ total, random', state' ▸ total', below, above⟩

/-- Dice, a coin and a pool, among them a smallest and a largest of some. -/
theorem extremes_bound_pool :
    ∃ r, create (.str "min(2d6, 9) * (1dc + 2) + {3d4, max(5, 1d8)}") .null .null .default = .ok r
      ∧ let src : Source := { pending := [0.5, 0.25, 0.75, 0.0, 0.5], fill := some 0.125 }
        let random := (evaluation { config := .default } r).run .never src
        let minimum := (evaluation { config := .default, mode := .minimum } r).run .never src
        let maximum := (evaluation { config := .default, mode := .maximum } r).run .never src
        ∃ a b c : ℕ, minimum.state.total = .int a ∧ random.state.total = .int b
          ∧ maximum.state.total = .int c ∧ a ≤ b ∧ b ≤ c := by
  let src : Source := { pending := [0.5, 0.25, 0.75, 0.0, 0.5], fill := some 0.125 }
  obtain ⟨r, h, hcheck⟩ := exists_of_create_any
    (.str "min(2d6, 9) * (1dc + 2) + {3d4, max(5, 1d8)}") .null .null .default
    (fun r => (r.terms.flatMap (Term.subterms .default r.nesting)).all Term.isMonotone
      && ((evaluation { config := .default } r).run .never src).ending.isFinished)
    (by decide +kernel)
  obtain ⟨monotone, finished⟩ := Bool.and_eq_true_iff.1 hcheck
  obtain ⟨-, -, bounds⟩ := extremes_bound ⟨rfl, rfl⟩ h (List.all_eq_true.1 monotone)
    (by decide +kernel) (by decide +kernel) (Ending.eq_of_isFinished finished) src src
  exact ⟨r, h, bounds⟩

end Roll

end DiceFormula
