import DiceFormula.Proofs.Evaluation.Stages

/-!
# Evaluating rolls at any depth

The evaluation of a roll is told how deep rolls are nested in it. What it is told does not matter as
long as it is enough (`Roll.evaluationWithin_add`): a term of a formula only ever evaluates formulas
that are shorter than the text it stands in. So the rolls inside a roll are evaluated just as if they
stood by themselves (`Roll.evaluation_eq`), and what a roll comes to is what its terms settle on
(`Roll.result_evaluation`).
-/

namespace DiceFormula

variable {config : Config} {context : Context} {inner inner' : RollEvaluation}

namespace Term

/-- A term without rolls as yet, for whose formulas something is agreed. -/
structure Agrees (agree : String → Prop) (t : Term) : Prop where
  joinable : t.Joinable
  unrolled : t.body.Unrolled
  formulas : ∀ a ∈ t.formulas, agree a

theorem Agrees.sameAlone {t : Term} (h : t.Agrees (inner.Agree inner' context context)) :
    Roll.SameAlone inner inner' context context t :=
  ⟨h.joinable.tag, evaluationBy_congr rfl h.unrolled (.inr rfl) h.formulas⟩

theorem agrees_of_numberFor {agree : String → Prop} {t n : Term}
    (h : Roll.numberFor t config = .ok n) : n.Agrees agree := by
  have joinable := (Roll.joined_of_numberFor h).joinable
  obtain ⟨v, number, -, -, rfl⟩ := Roll.exists_of_numberFor h
  exact ⟨joinable, trivial, List.forall_mem_nil _⟩

theorem agrees_of_fuse {agree : String → Prop} {left right t : Term} (hl : left.Joinable)
    (hr : right.Joinable) (h : Roll.fuse left right config = .ok t) : t.Agrees agree := by
  obtain ⟨joinable, -, leaf, u, fresh, body⟩ := Roll.fresh_of_fuse hl hr h
  refine ⟨joinable, body ▸ fresh.unrolled, ?_⟩
  rw [formulas_of_isLeaf leaf]
  exact List.forall_mem_nil _

end Term

theorem nestingOfTerms_le {ts : List Term} {n : Nat} (h : ∀ t ∈ ts, t.nesting ≤ n) :
    nestingOfTerms ts ≤ n := by
  induction ts with
  | nil => exact Nat.zero_le n
  | cons t ts ih =>
    obtain ⟨ht, hts⟩ := List.forall_mem_cons.1 h
    exact Nat.max_le.2 ⟨ht, ih hts⟩

namespace Roll

/-- A roll is evaluated alike if the rolls inside it are. -/
theorem evaluationBy_of_agree {formula data : Value} {options : Options} {p : Formula.Parsed}
    (h : Formula.parse formula data context.config = .ok p)
    (hi : ∀ t ∈ p.terms, ∀ a ∈ t.formulas, inner.Agree inner' context context a) :
    evaluationBy inner context (ofTerms p.terms options context.config)
      = evaluationBy inner' context (ofTerms p.terms options context.config) := by
  obtain ⟨-, fresh⟩ := Formula.fresh_of_parse h
  have joinable := Formula.joinable_of_parse h
  refine evaluationBy_congr (evaluateTerms_congr
    (G := Term.Agrees (inner.Agree inner' context context)) ?_
    (fun _ _ => Term.agrees_of_numberFor)
    (fun _ _ _ hl hr => Term.agrees_of_fuse hl.joinable hr.joinable) fun _ => Term.Agrees.sameAlone)
  intro t ht
  have agrees : t.Agrees (inner.Agree inner' context context) :=
    ⟨joinable t ht, (fresh t ht).unrolled, hi t ht⟩
  refine ⟨agrees.sameAlone, ?_⟩
  cases whole : t.isIntermediate with
  | false => exact .inl ⟨rfl, agrees⟩
  | true => exact .inr ⟨rfl, (fresh t ht).waits⟩

/-- More depth than there is makes no difference. -/
theorem evaluationWithin_add (fuel extra : Nat) :
    ∀ {formula data : Value} {options : Options} {p : Formula.Parsed},
      Formula.parse formula data context.config = .ok p → (∀ t ∈ p.terms, t.nesting ≤ fuel) →
      evaluationWithin (fuel + 1 + extra) context (ofTerms p.terms options context.config)
        = evaluationWithin (fuel + 1) context (ofTerms p.terms options context.config) := by
  refine induction_on_nesting (P := fun fuel r =>
    evaluationWithin (fuel + 1 + extra) context r = evaluationWithin (fuel + 1) context r) ?_ fuel
  intro fuel formula data options p h hi
  rw [Nat.add_right_comm (fuel + 1) 1 extra]
  exact evaluationBy_of_agree h hi

/-- Depth that is enough for a formula inside a term is enough for its roll. -/
theorem evaluationWithin_eq {a : String} {r : Roll} {fuel : Nat}
    (h : ofFormula (.str a) context.config = .ok r) (enough : a.length < fuel) :
    evaluationWithin fuel context r = evaluation context r := by
  obtain ⟨q, hq, h⟩ := bind_eq_ok.1 h
  obtain rfl := Except.ok.inj h
  have nested := nestingOfTerms_le (Formula.nesting_le_of_parse hq)
  obtain ⟨extra, rfl⟩ : ∃ extra, fuel = nestingOfTerms q.terms + 1 + extra :=
    ⟨fuel - (nestingOfTerms q.terms + 1), by omega⟩
  have same (extra : Nat) := @evaluationWithin_add context (nestingOfTerms q.terms) extra _ _ [] _
    hq fun t ht => nesting_le_nestingOfTerms ht
  exact (same extra).trans (same 1).symm

/-- **Rolls inside a roll are evaluated as if they stood by themselves.** -/
theorem evaluation_eq {formula data options : Value} {r : Roll}
    (h : create formula data options context.config = .ok r) :
    evaluation context r = evaluationBy evaluation context r := by
  obtain ⟨p, hp, h⟩ := bind_eq_ok.1 h
  obtain ⟨options, -, h⟩ := bind_eq_ok.1 h
  obtain rfl := Except.ok.inj h
  refine evaluationBy_of_agree hp ?_
  intro t ht a ha r hr
  refine evaluationWithin_eq hr ?_
  exact Nat.lt_of_lt_of_le (Term.length_lt_nesting ha) (nesting_le_of_mem ht)

/-- What some terms settle on: how they stand in the end, and what they are worth together. -/
def settlement (context : Context) (ts : List Term) : Drawing (List Term × Number) := do
  let us ← ts.mapM (numbered evaluation context context.config)
  let ts ← .ofExcept (simplify context.config us)
  let vs ← ts.mapM (rolled evaluation context)
  let n ← .ofExcept (amount vs)
  return (vs, n)

/-- The roll of a formula comes to what its terms settle on. -/
theorem result_evaluation {formula data options : Value} {r : Roll}
    (h : create formula data options context.config = .ok r) :
    (evaluation context r).result
      = (fun p => (r.finished p.1 p.2, ())) <$> settlement context r.terms := by
  rw [evaluation_eq h]
  obtain ⟨p, hp, h⟩ := bind_eq_ok.1 h
  obtain ⟨options, -, h⟩ := bind_eq_ok.1 h
  obtain rfl := Except.ok.inj h
  rw [result_evaluationBy rfl rfl (Formula.joinable_of_parse hp)]
  simp only [settlement, map_bind, map_pure]
  rfl

section

variable {formula data options : Value} {r : Roll}
  (h : create formula data options context.config = .ok r) {src src' : Source}

include h

/-- A roll is run to what its terms settle on. -/
theorem finished_of_settlement {vs : List Term} {n : Number}
    (hs : settlement context r.terms src = (.ok (vs, n), src')) :
    ((evaluation context r).run .never src).ending = .finished ()
      ∧ ((evaluation context r).run .never src).state = r.finished vs n
      ∧ ((evaluation context r).run .never src).source = src' := by
  have result : (evaluation context r).result src = (.ok (r.finished vs n, ()), src') := by
    rw [result_evaluation h, Drawing.map_of_ok hs]
  have outcome := Steps.outcome_of_ok result
  exact ⟨congrArg (·.2.1) outcome, congrArg (·.1) outcome, congrArg (·.2.2) outcome⟩

theorem failed_of_settlement {e : Error}
    (hs : settlement context r.terms src = (.error e, src')) :
    ((evaluation context r).run .never src).ending = .failed e
      ∧ ((evaluation context r).run .never src).source = src' := by
  refine Steps.outcome_of_error ?_
  rw [result_evaluation h, Drawing.map_of_error hs]

theorem settlement_of_finished
    (finished : ((evaluation context r).run .never src).ending = .finished ()) :
    ∃ vs n, settlement context r.terms src
        = (.ok (vs, n), ((evaluation context r).run .never src).source)
      ∧ ((evaluation context r).run .never src).state = r.finished vs n := by
  cases hs : settlement context r.terms src with
  | mk a src' =>
    cases a with
    | ok p =>
      obtain ⟨-, state, source⟩ := finished_of_settlement h hs
      exact ⟨p.1, p.2, by rw [source], state⟩
    | error e =>
      rw [(failed_of_settlement h hs).1] at finished
      cases finished

theorem settlement_of_failed {e : Error}
    (failed : ((evaluation context r).run .never src).ending = .failed e) :
    settlement context r.terms src
      = (.error e, ((evaluation context r).run .never src).source) := by
  cases hs : settlement context r.terms src with
  | mk a src' =>
    cases a with
    | ok p =>
      rw [(finished_of_settlement h hs).1] at failed
      cases failed
    | error e' =>
      obtain ⟨ending, source⟩ := failed_of_settlement h hs
      rw [ending] at failed
      rw [source, Ending.failed.inj failed]

theorem source_of_settlement :
    ((evaluation context r).run .never src).source = (settlement context r.terms src).2 := by
  cases hs : settlement context r.terms src with
  | mk a src' =>
    cases a with
    | ok p => exact (finished_of_settlement h hs).2.2
    | error e => exact (failed_of_settlement h hs).2

/-- Where just the draws of a list were made, the terms settle alike whatever is behind them. -/
theorem settlement_append {ds : List Float} {y : Float}
    (finished : ((evaluation context r).run .never ⟨ds, some y, 0⟩).ending = .finished ())
    (used : ((evaluation context r).run .never ⟨ds, some y, 0⟩).source.used = ds.length)
    (es : List Float) (fill : Option Float) :
    ∃ vs n, settlement context r.terms ⟨ds ++ es, fill, 0⟩ = (.ok (vs, n), ⟨es, fill, ds.length⟩)
      ∧ ((evaluation context r).run .never ⟨ds, some y, 0⟩).state = r.finished vs n := by
  have same := Steps.result_append (Steps.result_of_finished finished)
    (used.trans (Nat.zero_add _).symm) es fill
  rw [Nat.zero_add] at same
  have outcome := Steps.outcome_of_ok same
  have ending : ((evaluation context r).run .never ⟨ds ++ es, fill, 0⟩).ending = .finished () :=
    congrArg (·.2.1) outcome
  have state : ((evaluation context r).run .never ⟨ds ++ es, fill, 0⟩).state
      = ((evaluation context r).run .never ⟨ds, some y, 0⟩).state := congrArg (·.1) outcome
  have source : ((evaluation context r).run .never ⟨ds ++ es, fill, 0⟩).source
      = ⟨es, fill, ds.length⟩ := congrArg (·.2.2) outcome
  obtain ⟨vs, n, settled, reached⟩ := settlement_of_finished h ending
  exact ⟨vs, n, by rw [settled, source], state ▸ reached⟩

end

end Roll

end DiceFormula
