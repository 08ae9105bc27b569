import DiceFormula.Proofs.Evaluation.Dealt
import DiceFormula.Proofs.Evaluation.Joining

/-!
# The dice of a roll

Dice move while a roll is evaluated: groups and calls become numbers that carry their dice, joined
terms carry those of both sides, and a pool shows those of the rolls inside. None is lost or counted
twice on the way (`Roll.evaluation_keeps_dice`): every draw is a result of one of the dice of the
roll, and where no text was left to be joined these are the dice literals of the formula, in their
order.
-/

namespace DiceFormula

variable {config : Config} {context : Context} {inner : RollEvaluation} {fuel : Nat}

/-! ## Between the passes -/

namespace Term

/-- What stands between the passes: an evaluated number, or a term of which nothing was rolled. The
formulas inside it are dealt by `inner`. -/
structure Unsettled (inner : RollEvaluation) (context : Context) (fuel : Nat) (t : Term) :
    Prop where
  joinable : t.Joinable
  formulas : ∀ a ∈ t.formulas, inner.Deals context fuel a
  stands : t.evaluated = true ∧ (∃ n, t.body = .number n)
    ∨ t.evaluated = false ∧ t.body.Unrolled

/-- The first pass makes `u` of the term `t` by `n` draws. What `u` carries and what it has itself are
the dice literals of `t`. -/
structure Passes (inner : RollEvaluation) (context : Context) (fuel : Nat) (t : Term) (n : Nat)
    (u : Term) : Prop where
  replaces : Replaces t u
  unsettled : u.Unsettled inner context fuel
  dice : ∀ d ∈ u.carried, d.die?.isSome = true
  results : context.mode = .random → resultsIn u.carried = n
  textless : Textless (t.subterms context.config (fuel + 1)) →
    Textless (u.subterms context.config (fuel + 1))
  literals : Textless (t.subterms context.config (fuel + 1)) →
    literalsIn u.carried ++ literalsIn (u.subterms context.config (fuel + 1))
      = literalsIn (t.subterms context.config (fuel + 1))

theorem Fresh.passes {t : Term} (h : t.Fresh context.config) (joinable : t.Joinable)
    (formulas : ∀ a ∈ t.formulas, inner.Deals context fuel a) :
    t.Passes inner context fuel 0 t where
  replaces := rfl
  unsettled := ⟨joinable, formulas, .inr ⟨h.waits, h.unrolled⟩⟩
  dice := by rw [h.carried]; exact List.forall_mem_nil _
  results := fun _ => by rw [h.carried]; rfl
  textless := id
  literals := fun _ => by rw [h.carried]; rfl

/-- The number for a group or a call carries its dice. -/
theorem passes_of_numberFor {t u v : Term} {n : Nat} (carried : t.carried = [])
    (intermediate : t.isIntermediate = true) (hu : t.Deals context (fuel + 1) n u)
    (h : Roll.numberFor u config = .ok v) : t.Passes inner context fuel n v := by
  have joined := Roll.joined_of_numberFor h
  have replaces := Roll.replaces_of_numberFor intermediate h
  obtain ⟨total, number, -, -, rfl⟩ := Roll.exists_of_numberFor h
  obtain ⟨own, rfl, dealt⟩ : ∃ own, own = u.dice
      ∧ Dealt context (t.subterms context.config (fuel + 1)) n own := by
    obtain ⟨own, hown, dealt⟩ := hu
    rw [carried, List.nil_append] at hown
    exact ⟨own, hown.symm, dealt⟩
  refine
    { replaces
      unsettled := ⟨joined.joinable, List.forall_mem_nil _, .inl ⟨rfl, _, rfl⟩⟩
      dice := dealt.dice
      results := dealt.results
      textless := fun _ => ?_
      literals := fun textless => ?_ }
  · rw [subterms_of_formulas rfl]
    exact List.forall_mem_singleton.2 rfl
  · rw [subterms_of_formulas rfl, literalsIn_cons_of_die? rfl]
    exact (List.append_nil _).trans (dealt.literals textless)

/-- An evaluated number stands for itself. -/
theorem deals_of_number {t : Term} (h : ∃ n, t.body = .number n) :
    t.Deals context (fuel + 1) 0 t := by
  obtain ⟨body, l, carried⟩ := t
  obtain ⟨n, rfl⟩ : ∃ n, body = .number n := h
  refine ⟨[], (List.append_nil _).symm, ?_⟩
  rw [subterms_of_formulas rfl]
  exact Dealt.nil.cons rfl

end Term

/-- Joining leaves terms of which nothing was rolled. -/
theorem Roll.unsettled_of_fuse {left right t : Term} (hl : left.Unsettled inner context fuel)
    (hr : right.Unsettled inner context fuel) (h : fuse left right config = .ok t) :
    t.Unsettled inner context fuel := by
  obtain ⟨joinable, waits, leaf, u, fresh, body⟩ := fresh_of_fuse hl.joinable hr.joinable h
  refine ⟨joinable, ?_, .inr ⟨waits, body ▸ fresh.unrolled⟩⟩
  rw [Term.formulas_of_isLeaf leaf]
  exact List.forall_mem_nil _

/-! ## Adding up -/

theorem resultsIn_flatMap (f : Term → List Term) (ts : List Term) :
    resultsIn (ts.flatMap f) = (ts.map fun t => resultsIn (f t)).sum := by
  induction ts with
  | nil => rfl
  | cons t ts ih => rw [List.flatMap_cons, resultsIn_append, ih, List.map_cons, List.sum_cons]

theorem literalsIn_flatMap (f : Term → List Term) (ts : List Term) :
    literalsIn (ts.flatMap f) = ts.flatMap fun t => literalsIn (f t) := by
  induction ts with
  | nil => rfl
  | cons t ts ih => rw [List.flatMap_cons, literalsIn_append, ih, List.flatMap_cons]

section

variable {ts us : List Term} {n : Nat}

/-- After the first pass the terms carry a result for every draw. -/
theorem dealt_of_passes (h : Each (Term.Passes inner context fuel) ts n us) :
    (∀ d ∈ Roll.carriedOf us, d.die?.isSome = true)
      ∧ (context.mode = .random → resultsIn (Roll.carriedOf us) = n) := by
  refine ⟨?_, ?_⟩
  · intro d hd
    obtain ⟨u, hu, hd⟩ := List.mem_flatMap.1 hd
    obtain ⟨t, -, k, hk⟩ := h.exists_of_mem u hu
    exact hk.dice d hd
  · intro random
    rw [Roll.carriedOf, resultsIn_flatMap]
    have := h.sum (μ := fun _ => 0) (ν := fun u => resultsIn u.carried) ?_
    · simpa using this
    · intro t k u hu
      rw [hu.results random, Nat.zero_add]

/-- What the terms carry and what they have themselves are the literals from before. -/
theorem literals_of_passes (h : Each (Term.Passes inner context fuel) ts n us)
    (textless : ∀ t ∈ ts, Textless (t.subterms context.config (fuel + 1))) :
    us.flatMap (fun u => literalsIn u.carried
        ++ literalsIn (u.subterms context.config (fuel + 1)))
      = literalsIn (ts.flatMap (Term.subterms context.config (fuel + 1))) := by
  rw [literalsIn_flatMap]
  exact h.flatMap fun t ht k u hu => hu.literals (textless t ht)

/-- After the second pass the terms bring their dice to the roll. -/
theorem dealt_of_deals (h : Each (Term.Deals context fuel) ts n us)
    (carried : ∀ d ∈ Roll.carriedOf ts, d.die?.isSome = true) :
    (∀ d ∈ diceOfTerms us, d.die?.isSome = true)
      ∧ (context.mode = .random →
          resultsIn (diceOfTerms us) = resultsIn (Roll.carriedOf ts) + n) := by
  rw [diceOfTerms_eq_flatMap]
  refine ⟨?_, ?_⟩
  · intro d hd
    obtain ⟨u, hu, hd⟩ := List.mem_flatMap.1 hd
    obtain ⟨t, ht, k, own, hown, dealt⟩ := h.exists_of_mem u hu
    rw [hown] at hd
    rcases List.mem_append.1 hd with hd | hd
    · exact carried d (List.mem_flatMap.2 ⟨t, ht, hd⟩)
    · exact dealt.dice d hd
  · intro random
    rw [Roll.carriedOf, resultsIn_flatMap, resultsIn_flatMap]
    refine h.sum ?_
    rintro t k u ⟨own, hown, dealt⟩
    rw [hown, resultsIn_append, dealt.results random]

theorem literals_of_deals (h : Each (Term.Deals context fuel) ts n us)
    (textless : ∀ t ∈ ts, Textless (t.subterms context.config fuel)) :
    literalsIn (diceOfTerms us)
      = ts.flatMap fun t => literalsIn t.carried
          ++ literalsIn (t.subterms context.config fuel) := by
  rw [diceOfTerms_eq_flatMap, literalsIn_flatMap]
  refine h.flatMap ?_
  rintro t ht k u ⟨own, hown, dealt⟩
  rw [hown, literalsIn_append, dealt.literals (textless t ht)]

end

namespace Roll

/-! ## Evaluation -/

/-- The first pass deals with the groups and calls of a formula. -/
theorem passes_evaluationBy {t : Term} (fresh : t.Fresh context.config) (joinable : t.Joinable)
    (h : ∀ a ∈ t.formulas, inner.Deals context fuel a) :
    t.isIntermediate = false ∧ t.Passes inner context fuel 0 t
      ∨ t.isIntermediate = true ∧ t.evaluated = false
        ∧ (Term.evaluationBy inner context t).Ends context.dealing fun n u _ =>
          u.label.tag = none
            ∧ context.dealing.Allows (t.Passes inner context fuel n)
              (numberFor u context.config) := by
  by_cases whole : t.isIntermediate = false
  · exact .inl ⟨whole, fresh.passes joinable h⟩
  · have group : t.isIntermediate = true := by simpa using whole
    refine .inr ⟨group, fresh.waits, ?_⟩
    refine ((Term.dealt_evaluationBy fresh.waits fresh.unrolled h).and
      (ends_replaces joinable.tag)).mono ?_
    rintro n u - ⟨hu, tag, -⟩
    exact ⟨tag, Dealing.allows_of_ok (fun _ => trivial) fun v hv =>
      Term.passes_of_numberFor fresh.carried group hu hv⟩

/-- The second pass deals with all that waits. -/
theorem deals_evaluateRest {r : Roll} {ts : List Term}
    (h : ∀ t ∈ ts, t.Unsettled inner context fuel) :
    (evaluateRest inner context ts.length 0 { r with terms := ts }).Ends context.dealing
      fun n s _ => ∃ us, Each (Term.Deals context (fuel + 1)) ts n us
        ∧ s = { r with terms := us } := by
  refine ends_evaluateRest fun t ht => ?_
  obtain ⟨joinable, formulas, ⟨evaluated, number⟩ | ⟨waits, unrolled⟩⟩ := h t ht
  · exact .inl ⟨evaluated, Term.deals_of_number number⟩
  · refine .inr ⟨waits, ?_⟩
    refine ((Term.dealt_evaluationBy waits unrolled formulas).and
      (ends_replaces joinable.tag)).mono ?_
    rintro n u - ⟨hu, tag, -⟩
    exact ⟨tag, hu⟩

/-- The evaluation of the terms of a formula deals their dice. -/
theorem deals_evaluationBy {formula data : Value} {options : Options} {p : Formula.Parsed}
    (h : Formula.parse formula data context.config = .ok p)
    (hi : ∀ t ∈ p.terms, ∀ a ∈ t.formulas, inner.Deals context fuel a) :
    (evaluationBy inner context (ofTerms p.terms options context.config)).Ends context.dealing
      fun n s _ => s.Deals context (fuel + 1) p.terms n := by
  obtain ⟨-, fresh⟩ := Formula.fresh_of_parse h
  have joinable := Formula.joinable_of_parse h
  refine ends_evaluationBy rfl rfl (ends_evaluateTerms
    (fun t ht => passes_evaluationBy (fresh t ht) (joinable t ht) (hi t ht)) ?_)
  intro k us hus
  have replaces : List.Forall₂ Replaces p.terms us :=
    hus.forall₂.imp fun _ _ ⟨_, hu⟩ => hu.replaces
  have unsettled : ∀ u ∈ us, u.Unsettled inner context fuel := by
    intro u hu
    obtain ⟨t, -, n, hn⟩ := hus.exists_of_mem u hu
    exact hn.unsettled
  refine Dealing.allows_of_ok (fun _ => trivial) ?_
  intro ts hts
  have carried := carried_of_simplify ((Formula.spaced_of_parse h).of_replaces replaces)
    (fun u hu => (unsettled u hu).joinable) hts
  obtain ⟨first, firstResults⟩ := dealt_of_passes hus
  rw [← carried] at first firstResults
  refine (deals_evaluateRest (forall_of_simplify unsettled
    (fun _ _ _ => unsettled_of_fuse) hts)).mono ?_
  rintro n s - ⟨ws, hws, rfl⟩
  refine Dealing.allows_of_ok (fun _ => trivial) ?_
  intro w hw
  obtain ⟨total, rfl⟩ := exists_of_settle hw
  obtain ⟨dice, results⟩ := dealt_of_deals hws first
  refine ⟨rfl, rfl, dice, ?_, ?_⟩
  · intro random
    exact (results random).trans (by rw [firstResults random])
  · intro textless
    have textless : ∀ t ∈ p.terms, Textless (t.subterms context.config (fuel + 1)) :=
      fun t ht u hu => textless u (List.mem_flatMap.2 ⟨t, ht, hu⟩)
    -- without texts there is nothing to join
    have alternates := Formula.alternates_of_parse h fun t ht =>
      textless t ht t List.mem_cons_self
    obtain rfl : us = ts :=
      Except.ok.inj ((simplify_of_alternates (alternates.of_replaces replaces)).symm.trans hts)
    refine (literals_of_deals hws ?_).trans (literals_of_passes hus textless)
    intro u hu
    obtain ⟨t, ht, n, hn⟩ := hus.exists_of_mem u hu
    exact hn.textless (textless t ht)

/-- The evaluation of rolls deals their dice at every depth. -/
theorem deals_evaluationWithin (fuel : Nat) :
    ∀ {formula data : Value} {options : Options} {p : Formula.Parsed},
      Formula.parse formula data context.config = .ok p → (∀ t ∈ p.terms, t.nesting ≤ fuel) →
      (evaluationWithin (fuel + 1) context (ofTerms p.terms options context.config)).Ends
        context.dealing fun n s _ => s.Deals context fuel p.terms n := by
  refine induction_on_nesting (P := fun fuel r => (evaluationWithin (fuel + 1) context r).Ends
    context.dealing fun n s _ => s.Deals context fuel r.terms n) ?_ fuel
  intro fuel formula data options p h hi
  refine deals_evaluationBy h ?_
  intro t ht a ha r hr
  rw [Term.termsOf_of_ofFormula hr]
  exact hi t ht a ha r hr

theorem termRecords_eq_map (ts : List Term) : termRecords ts = ts.map Term.toRecord := by
  induction ts with
  | nil => rfl
  | cons t ts ih => rw [termRecords, ih, List.map_cons]

/-- The record of a roll lists its dice. -/
theorem exists_lookup_dice (r : Roll) :
    ∃ es, r.toRecord = .mapping es
      ∧ es.lookup "dice" = some (.list (r.dice.map Term.toRecord)) := by
  obtain ⟨terms, dice, shared, sheet⟩ := r
  refine ⟨_, rfl, ?_⟩
  rw [← termRecords_eq_map]
  rfl

/-- **No die is lost or counted twice.** Only a random evaluation draws. At the end the dice of the
roll hold one result for every draw, the record lists just these dice, and if no text stands
anywhere in the formula, they are the dice literals of the formula in their order. -/
theorem evaluation_keeps_dice {formula data options : Value} {r : Roll}
    (h : create formula data options config = .ok r) (mode : Mode) (rule : StopRule)
    (src : Source) :
    let report := (evaluation { config, mode } r).run rule src
    let s := report.state
    let written := r.terms.flatMap (Term.subterms config r.nesting)
    (mode ≠ .random → report.source = src)
      ∧ (report.ending = .finished () →
        (∀ d ∈ s.allDice, d.die?.isSome = true)
          ∧ (mode = .random → report.source.used = src.used + resultsIn s.allDice)
          ∧ (∃ es, s.toRecord = .mapping es
              ∧ es.lookup "dice" = some (.list (s.allDice.map Term.toRecord)))
          ∧ (Textless written → literalsIn s.allDice = literalsIn written)) := by
  intro report s written
  obtain ⟨p, hp, h⟩ := bind_eq_ok.1 h
  obtain ⟨options, -, h⟩ := bind_eq_ok.1 h
  obtain rfl := Except.ok.inj h
  have deals := @deals_evaluationWithin { config, mode }
    (ofTerms p.terms options config).nesting _ _ options p hp fun t ht => nesting_le_of_mem ht
  have free : src.Gives (Context.dealing { config, mode }).drawn := ⟨fun _ _ => trivial, trivial⟩
  obtain ⟨quiet, ends⟩ := deals.run rule free
  refine ⟨quiet, ?_⟩
  intro finished
  obtain ⟨n, used, state, -, dice, results, literals⟩ := ends () finished
  have same : s.allDice = s.dice := allDice_of_state state
  rw [same]
  refine ⟨dice, ?_, exists_lookup_dice s, literals⟩
  intro random
  exact used.trans (congrArg (src.used + ·) (results random).symm)

/-- A group and a pool, with an explosion. -/
theorem evaluation_keeps_dice_pool :
    ∃ r, create (.str "(1d4x) + {2d6, 1d8 + (1d3)}cs>2") .null .null .diceOnly = .ok r
      ∧ let src : Source := { pending := [0.9, 0.5, 0.25, 0.75, 0.5, 0.125], fill := none }
        let report := (evaluation { config := .diceOnly } r).run .never src
        report.ending = .finished ()
          ∧ report.source.used = src.used + resultsIn report.state.allDice
          ∧ (literalsIn report.state.allDice).map (fun l => (l.1, l.2.1.int?, l.2.2.int?))
            = [(.die, some 1, some 4), (.die, some 2, some 6), (.die, some 1, some 8),
                (.die, some 1, some 3)] := by
  let src : Source := { pending := [0.9, 0.5, 0.25, 0.75, 0.5, 0.125], fill := none }
  let formula : Value := .str "(1d4x) + {2d6, 1d8 + (1d3)}cs>2"
  obtain ⟨r, h, hcheck⟩ := exists_of_create_any formula .null .null .diceOnly
    (fun r => ((evaluation { config := .diceOnly } r).run .never src).ending.isFinished
      && decide (Textless (r.terms.flatMap (Term.subterms .diceOnly r.nesting)))
      && decide ((literalsIn (r.terms.flatMap (Term.subterms .diceOnly r.nesting))).map
        (fun l => (l.1, l.2.1.int?, l.2.2.int?)) = [(.die, some 1, some 4),
          (.die, some 2, some 6), (.die, some 1, some 8), (.die, some 1, some 3)]))
    (by decide +kernel)
  obtain ⟨hcheck, written⟩ := Bool.and_eq_true_iff.1 hcheck
  obtain ⟨finished, textless⟩ := Bool.and_eq_true_iff.1 hcheck
  have finished := Ending.eq_of_isFinished finished
  obtain ⟨-, used, -, literals⟩ := (evaluation_keeps_dice h .random .never src).2 finished
  refine ⟨r, h, finished, used rfl, ?_⟩
  rw [literals (of_decide_eq_true textless)]
  exact of_decide_eq_true written

end Roll

end DiceFormula
