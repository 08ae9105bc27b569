import DiceFormula.Command.Basic
import DiceFormula.Proofs.Evaluation.Failure
import DiceFormula.Proofs.Roll.Depth
import DiceFormula.Proofs.Roll.Settling

/-!
# What can go wrong with a roll

A formula that is not refused is rolled to a number, as long as the draws do not run out, or its
evaluation fails as is expected (`Roll.settles_evaluation`): with an error of the library's own, or
because a number is too large for a double. The command shows the errors of the library's own and
nothing else, so that it always answers but for a number that is too large (`Roll.fails_as_expected`).
-/

namespace DiceFormula

open Arithmetic

variable {config : Config} {context : Context} {inner : RollEvaluation}

/-! ## Between the passes -/

namespace Term

/-- What stands between the passes: an evaluated number, or a term that waits. The rolls inside it
settle. -/
structure Prepared (inner : RollEvaluation) (context : Context) (t : Term) : Prop where
  joinable : t.Joinable
  formulas : ∀ a ∈ t.formulas, inner.Settles context a
  stands : t.evaluated = true ∧ (∃ n, t.body = .number n)
    ∨ t.evaluated = false ∧ t.body.Waiting

theorem Fresh.prepared {t : Term} (h : t.Fresh context.config) (joinable : t.Joinable)
    (formulas : ∀ a ∈ t.formulas, inner.Settles context a) (empty : t.hand.results = []) :
    t.Prepared inner context := ⟨joinable, formulas, .inr ⟨h.waits, h.waiting empty⟩⟩

/-- A group or a call that is worth a number becomes that number. -/
theorem prepared_numberFor {t : Term} (h : t.IsWorth) :
    Outcome (Prepared inner context) Error.IsOwn (Roll.numberFor t config) := by
  obtain ⟨n, total⟩ := h
  have replies : Replies (Roll.numberFor t config) := by
    rw [Roll.numberFor, total]
    exact (replies_definedNumber ⟨n, rfl⟩).bind fun _ _ => trivial
  refine replies.of_ok fun v hv => ?_
  have joined := Roll.joined_of_numberFor hv
  obtain ⟨total, number, -, -, rfl⟩ := Roll.exists_of_numberFor hv
  exact ⟨joined.joinable, List.forall_mem_nil _, .inl ⟨rfl, _, rfl⟩⟩

end Term

/-- Joining leaves terms that wait. -/
theorem Roll.prepared_of_fuse {left right t : Term} (hl : left.Prepared inner context)
    (hr : right.Prepared inner context) (h : fuse left right config = .ok t) :
    t.Prepared inner context := by
  obtain ⟨joinable, waits, leaf, u, fresh, body⟩ := fresh_of_fuse hl.joinable hr.joinable h
  have empty : u.hand.results = [] := fresh.results_of_isLeaf (body ▸ leaf)
  refine ⟨joinable, ?_, .inr ⟨waits, body ▸ fresh.waiting empty⟩⟩
  rw [Term.formulas_of_isLeaf leaf]
  exact List.forall_mem_nil _

namespace Roll

/-! ## Evaluation -/

/-- The total of terms that are worth something can be taken, unless a number is too large. -/
theorem settles_settle {r : Roll} (h : ∀ t ∈ r.terms, t.Weighs) :
    Outcome (fun s => (s.setState .evaluated).Settled) Error.IsExpected r.settle := by
  have flat : Outcome (fun _ => True) Error.IsExpected (flatten r.terms) := by
    refine (Outcome.mapM (P := fun _ => True) fun t ht => ?_).bind fun _ _ => trivial
    exact Outcome.bind (h t ht) fun _ _ => trivial
  unfold settle
  cases hf : flatten r.terms with
  | error e =>
    rw [hf] at flat
    exact flat
  | ok text =>
    have settles := Arithmetic.settles_evaluate text
    rw [bind_ok]
    cases hn : Arithmetic.evaluate text with
    | error e =>
      rw [hn] at settles
      exact settles
    | ok n => exact ⟨rfl, ⟨n, rfl⟩, text, hf⟩

/-- The first pass makes numbers of the groups and calls of a formula. -/
theorem prepared_evaluationBy (native : context.config.Native) {t : Term}
    (fresh : t.Fresh context.config) (joinable : t.Joinable) (empty : t.hand.results = [])
    (h : ∀ a ∈ t.formulas, inner.Settles context a) :
    t.isIntermediate = false ∧ t.Prepared inner context
      ∨ t.isIntermediate = true ∧ t.evaluated = false
        ∧ (Term.evaluationBy inner context t).Ends .endless fun _ u _ =>
          u.label.tag = none
            ∧ Dealing.endless.Allows (Term.Prepared inner context)
              (numberFor u context.config) := by
  by_cases whole : t.isIntermediate = false
  · exact .inl ⟨whole, fresh.prepared joinable h empty⟩
  · have group : t.isIntermediate = true := by simpa using whole
    refine .inr ⟨group, fresh.waits, ?_⟩
    refine ((Term.weighs_evaluationBy native fresh.waits (fresh.waiting empty) h).and
      (ends_replaces joinable.tag)).mono ?_
    rintro n u - ⟨⟨worth, -⟩, tag, -⟩
    exact ⟨tag, (Term.prepared_numberFor (worth group)).expected⟩

/-- The second pass makes something worth of all that waits. -/
theorem weighs_evaluateRest (native : context.config.Native) {r : Roll} {ts : List Term}
    (h : ∀ t ∈ ts, t.Prepared inner context) :
    (evaluateRest inner context ts.length 0 { r with terms := ts }).Ends .endless
      fun n s _ => ∃ us, Each (fun _ _ u => u.Weighs) ts n us ∧ s = { r with terms := us } := by
  refine ends_evaluateRest fun t ht => ?_
  obtain ⟨joinable, formulas, ⟨evaluated, number⟩ | ⟨waits, waiting⟩⟩ := h t ht
  · refine .inl ⟨evaluated, ?_⟩
    obtain ⟨body, l, carried⟩ := t
    obtain ⟨n, rfl⟩ : ∃ n, body = .number n := number
    trivial
  · refine .inr ⟨waits, ?_⟩
    refine ((Term.weighs_evaluationBy native waits waiting formulas).and
      (ends_replaces joinable.tag)).mono ?_
    rintro n u - ⟨⟨-, weighs⟩, tag, -⟩
    exact ⟨tag, weighs⟩

/-- The roll of a formula settles if those of the formulas inside do. -/
theorem settles_evaluationBy (native : context.config.Native) {formula data : Value}
    {options : Options} {p : Formula.Parsed}
    (h : Formula.parse formula data context.config = .ok p)
    (hi : ∀ t ∈ p.terms, ∀ a ∈ t.formulas, inner.Settles context a) :
    (evaluationBy inner context (ofTerms p.terms options context.config)).Ends .endless
      fun _ s _ => s.Settled := by
  obtain ⟨-, fresh⟩ := Formula.fresh_of_parse h
  have joinable := Formula.joinable_of_parse h
  have empty := Formula.results_of_parse h
  refine ends_evaluationBy rfl rfl (ends_evaluateTerms (P := fun _ _ u => u.Prepared inner context)
    (fun t ht => prepared_evaluationBy native (fresh t ht) (joinable t ht) (empty t ht) (hi t ht))
    ?_)
  intro k us hus
  have prepared : ∀ u ∈ us, u.Prepared inner context := by
    intro u hu
    obtain ⟨t, -, n, hn⟩ := hus.exists_of_mem u hu
    exact hn
  refine (replies_simplify context.config us).expected.of_ok fun ts hts => ?_
  refine (weighs_evaluateRest native (forall_of_simplify prepared
    (fun _ _ _ => prepared_of_fuse) hts)).mono ?_
  rintro n s - ⟨ws, hws, rfl⟩
  refine settles_settle fun w hw => ?_
  obtain ⟨t, -, k, weighs⟩ := hws.exists_of_mem w hw
  exact weighs

/-- **A formula is rolled to a number**, or its evaluation fails as is expected. -/
theorem settles_evaluation (native : config.Native) {formula data options : Value} {r : Roll}
    (h : create formula data options config = .ok r) (mode : Mode) :
    (evaluation { config, mode } r).Ends .endless fun _ s _ => s.Settled := by
  obtain ⟨p, hp, h⟩ := bind_eq_ok.1 h
  obtain ⟨options, -, h⟩ := bind_eq_ok.1 h
  obtain rfl := Except.ok.inj h
  refine induction_on_nesting (P := fun fuel r =>
    (evaluationWithin (fuel + 1) { config, mode } r).Ends .endless fun _ s _ => s.Settled) ?_
    (ofTerms p.terms options config).nesting hp fun t ht => nesting_le_of_mem ht
  intro fuel formula data options p hp hi
  exact @settles_evaluationBy { config, mode } (evaluationWithin (fuel + 1)) native _ _ _ _ hp hi

end Roll

/-! ## The command -/

namespace Command

/-- Errors of the library's own are shown. -/
theorem refuse_of_isOwn (heading : String) {e : Error} (h : e.IsOwn) :
    refuse heading e = .ok (failure (heading ++ e.message)) := if_pos h

/-- All others escape. -/
theorem refuse_of_isOversize (heading : String) {e : Error} (h : e.IsOversize) :
    refuse heading e = .error e := if_neg h.not_isOwn

/-- A roll that is settled can be shown. -/
theorem exists_present {r : Roll} (h : r.Settled) (json : Bool) :
    ∃ text, present json r (.finished ()) = .ok (success text) := by
  cases json with
  | true => exact ⟨_, rfl⟩
  | false =>
    obtain ⟨flat, hflat⟩ := h.flat
    have result : r.result = .ok (.str flat) := by
      unfold Roll.result Roll.evaluated
      rw [h.state, hflat]
      rfl
    simp only [present, describe, result]
    exact ⟨_, rfl⟩

end Command

namespace Roll

/-- **What the command says of a roll.** As long as there are draws, the roll comes to a number and is
shown; or it fails with an error of the library's own, which is shown; or a number is too large for
a double, and this error escapes. -/
theorem present_evaluation (native : config.Native) {formula data options : Value} {r : Roll}
    (h : create formula data options config = .ok r) (mode : Mode) (json : Bool) {src : Source}
    (endless : src.Gives Dealing.endless.drawn) :
    let report := (evaluation { config, mode } r).run .never src
    let shown := Command.present json report.state report.ending
    (report.ending = .finished () ∧ report.state.total.IsNumber
        ∧ ∃ text, shown = .ok (Command.success text))
      ∨ ∃ e, report.ending = .failed e
        ∧ (e.IsOwn ∧ shown = .ok (Command.failure ("Error in input: " ++ e.message))
          ∨ e.IsOversize ∧ shown = .error e) := by
  have settles := settles_evaluation native h mode
  intro report shown
  rcases Steps.finished_or_failed (evaluation { config, mode } r) src with ended | ⟨e, failed⟩
  · obtain ⟨n, -, settled⟩ := (settles.run .never endless).2 () ended
    refine .inl ⟨ended, settled.isNumber_total, ?_⟩
    rw [show shown = _ from congrArg (Command.present json report.state) ended]
    exact Command.exists_present settled json
  · have shows : shown = Command.refuse "Error in input: " e :=
      congrArg (Command.present json report.state) failed
    refine .inr ⟨e, failed, ?_⟩
    rcases settles.fails endless (Steps.result_of_failed failed) with own | oversize
    · exact .inl ⟨own, shows.trans (Command.refuse_of_isOwn _ own)⟩
    · exact .inr ⟨oversize, shows.trans (Command.refuse_of_isOversize _ oversize)⟩

/-- **Every failure is one of the library's own, unless a number is too large for a double.** Under
valid settings a text is refused with an error of the library's own, or a roll is made of it. As
long as there are draws, this roll comes to a number, or it fails with an error of the library's
own, or because a number is too large for a double. Only in this last case the command says
nothing. -/
theorem fails_as_expected {settings : Value} (valid : Config.ofSettings settings = .ok config)
    (formula : String) (data : Value) (mode : Mode) (json : Bool) {src : Source}
    (pending : ∀ x ∈ src.pending, IsDraw x) {y : Float} (fill : src.fill = some y)
    (hy : IsDraw y) :
    (∃ e, create (.str formula) data .null config = .error e ∧ e.IsOwn
        ∧ Command.refuse "Error in input: " e
          = .ok (Command.failure ("Error in input: " ++ e.message)))
      ∨ ∃ r, create (.str formula) data .null config = .ok r
        ∧ let report := (evaluation { config, mode } r).run .never src
          let shown := Command.present json report.state report.ending
          (report.ending = .finished () ∧ report.state.total.IsNumber
              ∧ ∃ text, shown = .ok (Command.success text))
            ∨ ∃ e, report.ending = .failed e
              ∧ (e.IsOwn ∧ shown = .ok (Command.failure ("Error in input: " ++ e.message))
                ∨ e.IsOversize ∧ shown = .error e) := by
  have endless : src.Gives Dealing.endless.drawn :=
    ⟨fun x hx => ⟨x, rfl, pending x hx⟩, y, fill, hy⟩
  cases h : create (.str formula) data .null config with
  | error e =>
    have own := replies_create formula data config
    rw [h] at own
    exact .inl ⟨e, rfl, own, Command.refuse_of_isOwn _ own⟩
  | ok r =>
    exact .inr ⟨r, rfl,
      present_evaluation (Config.native_of_ofSettings valid) h mode json endless⟩

/-- A pool with a symbol, under settings that name a function and a dice cap. -/
theorem fails_as_expected_pool :
    let settings : Value := .mapping [("math_functions", .list [.str "sqrt"]), ("max_dice", .int 5)]
    let data : Value := .mapping [("level", .int 3)]
    let src : Source := { pending := [0.25, 0.75], fill := some 0.5 }
    ∃ config r, Config.ofSettings settings = .ok config
      ∧ create (.str "{2d6x, sqrt(1d4)}cs>1 * @level") data .null config = .ok r
      ∧ let report := (evaluation { config } r).run .never src
        ∃ text, Command.present false report.state report.ending
          = .ok (Command.success text) := by
  let settings : Value := .mapping [("math_functions", .list [.str "sqrt"]), ("max_dice", .int 5)]
  let data : Value := .mapping [("level", .int 3)]
  let src : Source := { pending := [0.25, 0.75], fill := some 0.5 }
  obtain ⟨config, valid, hcheck⟩ := @exists_ok_of_any _ _ (Config.ofSettings settings)
    (fun config => (create (.str "{2d6x, sqrt(1d4)}cs>1 * @level") data .null config).toOption.any
      fun r => ((evaluation { config } r).run .never src).ending.isFinished) (by decide +kernel)
  obtain ⟨r, h, finished⟩ := exists_ok_of_any hcheck
  refine ⟨config, r, valid, h, ?_⟩
  rcases @fails_as_expected config settings valid "{2d6x, sqrt(1d4)}cs>1 * @level" data .random false
    src (by decide +kernel) 0.5 rfl (by decide +kernel) with ⟨e, refused, -⟩ | ⟨s, hs, shown⟩
  · rw [h] at refused
    cases refused
  · obtain rfl := Except.ok.inj (h.symm.trans hs)
    rcases shown with ⟨-, -, text, shown⟩ | ⟨e, failed, -⟩
    · exact ⟨text, shown⟩
    · rw [failed] at finished
      cases finished

/-! ### A quotient that is too large -/

/-- What terms are worth together that are read as integers. -/
theorem amount_of_reads {ts : List Term} {a : Int} {l : List (Sign × Int)} (h : Reads ts a l) :
    amount ts = (flatTree a l).expr.eval := by
  obtain ⟨text, flat, written⟩ := flatten_of_reads h
  rw [amount, flat, bind_ok, evaluate_flatText written]

/-- Two integers of which one is divided by the other fail as their quotient does. -/
theorem amount_of_divide {ts : List Term} {a b : Int} (h : Reads ts a [(.divide, b)]) (hb : b ≠ 0)
    {c : NumberError} (quotient : (Number.int a).div (.int b) = .error c) :
    amount ts = .error (.number c) := by
  have nonzero : (Number.int b).isZero = false :=
    (Number.eq_int b 0).trans (decide_eq_false hb)
  rw [amount_of_reads h]
  show Expr.eval (.binary .div (intTree a).expr (intTree b).expr) = _
  rw [Expr.eval, SumTree.eval_intTree, SumTree.eval_intTree, bind_ok, bind_ok]
  show (if (Number.int b).isZero then _ else ofNumeric ((Number.int a).div (.int b))) = _
  rw [nonzero, quotient]
  rfl

/-- What the terms come to before they are taken together. -/
def passed (context : Context) (ts : List Term) : Drawing (List Term) := do
  let us ← ts.mapM (numbered evaluation context context.config)
  let ts ← .ofExcept (simplify context.config us)
  ts.mapM (rolled evaluation context)

theorem settlement_eq_bind (ts : List Term) :
    settlement context ts
      = passed context ts >>= fun vs => (fun n => (vs, n)) <$> .ofExcept (amount vs) := by
  simp only [settlement, passed, bind_assoc, map_eq_pure_bind]

/-- Terms that cannot be taken together make their roll fail. -/
theorem failed_of_passed {formula data options : Value} {r : Roll}
    (h : create formula data options context.config = .ok r) {src src' : Source} {vs : List Term}
    (hvs : passed context r.terms src = (.ok vs, src')) {e : Error} (he : amount vs = .error e) :
    ((evaluation context r).run .never src).ending = .failed e := by
  have settled : settlement context r.terms src = (.error e, src') := by
    rw [settlement_eq_bind, Drawing.bind_of_ok hvs, he]
    rfl
  exact (failed_of_settlement h settled).1

/-- A third of the 309th power of ten is no failure of the library's own, and its error escapes. -/
theorem escapes_quotient :
    let src : Source := { pending := [], fill := some 0.5 }
    ∃ config r, Config.ofSettings (.mapping []) = .ok config
      ∧ create (.str "pow(10,309)/3") .null .null config = .ok r
      ∧ let report := (evaluation { config } r).run .never src
        ∃ e, report.ending = .failed e ∧ ¬e.IsOwn
          ∧ Command.present false report.state report.ending = .error e := by
  let src : Source := { pending := [], fill := some 0.5 }
  let check (r : Roll) : Bool :=
    let x : Except Error (List Term) := (passed { config := .default } r.terms src).1
    x.toOption.any fun vs => decide (vs.map (fun t => (t.worth?, t.sign?))
      = [(some (10 ^ 309), none), (none, some .divide), (some 3, none)])
  have valid : Config.ofSettings (.mapping []) = .ok .default := rfl
  obtain ⟨r, h, hcheck⟩ := exists_of_create_any (.str "pow(10,309)/3") .null .null .default check
    (by decide +kernel)
  obtain ⟨vs, hvs, hcheck⟩ := exists_ok_of_any hcheck
  have reads : Reads vs (10 ^ 309) [(.divide, 3)] := by
    obtain ⟨t, us, rfl, ht, hus⟩ := List.map_eq_cons_iff.1 (of_decide_eq_true hcheck)
    obtain ⟨s, us, rfl, hs, hus⟩ := List.map_eq_cons_iff.1 hus
    obtain ⟨u, us, rfl, hu, hus⟩ := List.map_eq_cons_iff.1 hus
    obtain rfl := List.map_eq_nil_iff.1 hus
    exact .join (Prod.mk.inj ht).1 (Prod.mk.inj hs).2 (.value (Prod.mk.inj hu).1)
  have amount := amount_of_divide reads (by decide)
    (Number.div_of_isInf (by decide +kernel) (by decide +kernel))
  have failed := failed_of_passed h (Prod.ext hvs rfl) amount
  have oversize : Error.IsOversize (.number .quotientTooLarge) := ⟨_, .inr rfl, rfl⟩
  refine ⟨.default, r, valid, h, _, failed, oversize.not_isOwn, ?_⟩
  rw [failed]
  exact Command.refuse_of_isOversize _ oversize

end Roll

end DiceFormula
