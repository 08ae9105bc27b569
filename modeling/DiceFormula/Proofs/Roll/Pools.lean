import DiceFormula.Proofs.Result.Extreme
import DiceFormula.Proofs.Roll.Dynamic

/-!
# Pools and functions

A pool of which the extreme result is kept comes to the same as a call for the extreme one of the
same formulas (`Roll.evaluation_pool`). The formulas are rolled one after the other in both
(`Roll.settlement_pooled`, `Roll.settlement_called`). Their totals are results of the pool, of which
one stays active, and the arguments of the function. The pool stays a term and is totalled like one;
the call becomes a number before the other terms are evaluated.
-/

namespace DiceFormula

open Number (Whole)

variable {config : Config} {context : Context} {e : Extreme}

theorem Config.HasExtremes.lookup (h : config.HasExtremes) :
    config.functions.lookup e.function.name = some (.own e.function) := by
  cases e with
  | least => exact h.min
  | greatest => exact h.max

theorem Extreme.isName_function (e : Extreme) : Group.IsName e.function.name.toList := by
  cases e with
  | least => exact ⟨'m', 'i', ['n'], rfl, rfl, List.all_eq_true.1 rfl⟩
  | greatest => exact ⟨'m', 'a', ['x'], rfl, rfl, List.all_eq_true.1 rfl⟩

/-! ## Members -/

namespace Formula

/-- The members of a pool and the arguments of a call are rolled like the formulas that are
written there. -/
theorem rollAll_normalize {fs : List String} (symbols : ∀ f ∈ fs, '@' ∉ f.toList)
    (single : ∀ f ∈ fs, Single context.config f) :
    rollAll Roll.evaluation context (fs.map normalize) = rollAll Roll.evaluation context fs := by
  induction fs with
  | nil => rfl
  | cons f fs ih =>
    obtain ⟨hf, symbols⟩ := List.forall_mem_cons.1 symbols
    obtain ⟨⟨⟨ts, reads⟩, -⟩, single⟩ := List.forall_mem_cons.1 single
    have ih := ih symbols single
    unfold rollAll at ih ⊢
    rw [List.map_cons, List.mapM_cons, List.mapM_cons, ih, Roll.rollBy_normalize hf reads,
      Roll.rollBy_of_reads hf reads]

end Formula

/-! ## Keeping the extreme result -/

/-- A change that is not cut short. -/
def Change.outcome {σ : Type} (c : Change σ) : Except Error σ :=
  match c.fault with
  | none => .ok c.state
  | some err => .error err

namespace Hand

theorem result_plain (f : List DieResult → Modifier.Outcome) {h : Hand}
    {c : Change (List DieResult)} (hc : f h.results = some c) :
    (plain f h).result
      = (fun ss => ({ h with results := ss }, true)) <$> Drawing.ofExcept c.outcome := by
  simp only [plain, Task.bind_apply, Task.get_apply, Steps.bind, hc]
  obtain ⟨ss, _ | err⟩ := c <;> rfl

/-- A pool keeps one result, without any draw. -/
theorem result_keep (e : Extreme) (rs : List DieResult) :
    (carryOutModifiers Command.ofPools performOnPool
      { modifiers := Modifier.splitValues e.command, results := rs }).result
      = (fun ss => ({ modifiers := [.str e.command], results := ss }, ()))
        <$> Drawing.ofExcept (DieResult.keepOrDrop (.int 1) true e.highest rs).outcome := by
  have split : Modifier.splitValues e.command = [.str e.command] := by cases e <;> rfl
  have lower : [Value.str e.command].mapM lowerModifier = .ok [e.command.toList] := by
    cases e <;> rfl
  have carried : carryOutAll Command.ofPools performOnPool [e.command.toList]
      = carryOut performOnPool .keep e.command.toList >>= fun _ => pure () := by cases e <;> rfl
  have read : Modifier.keep e.command.toList rs
      = some (DieResult.keepOrDrop (.int 1) true e.highest rs) := by cases e <;> rfl
  have kept := result_plain _ (h := { results := rs }) read
  rw [split]
  simp only [carryOutModifiers, Task.bind_apply, Task.get_apply, Task.set_apply, Steps.bind, lower,
    Task.ofExcept_ok, carried, carryOut, performOnPool, Steps.result_bind, kept,
    String.ofList_toList]
  cases (DieResult.keepOrDrop (.int 1) true e.highest rs).outcome <;> rfl

end Hand

namespace Roll

variable {fs : List String} (symbols : ∀ f ∈ fs, '@' ∉ f.toList)
  (single : ∀ f ∈ fs, Formula.Single context.config f)

/-- The total of a roll, if it is an integer. -/
def worth? (r : Roll) : Option ℤ :=
  match r.total with
  | .num x => x.whole?
  | _ => none

theorem exists_whole {rs : List Roll} {zs : List ℤ} (h : rs.map worth? = zs.map some) :
    ∃ ws : List Whole, (rs.map total = ws.map fun w => .num w.number)
      ∧ ws.map (·.value) = zs := by
  induction rs generalizing zs with
  | nil =>
    obtain rfl := List.map_eq_nil_iff.1 h.symm
    exact ⟨[], rfl, rfl⟩
  | cons r rs ih =>
    obtain ⟨z, zs, rfl, hz, hzs⟩ := List.map_eq_cons_iff.1 h.symm
    obtain ⟨ws, totals, rfl⟩ := ih hzs.symm
    unfold worth? at hz
    split at hz
    · next x hx => exact ⟨⟨x, z, hz.symm⟩ :: ws, by simp [hx, totals], rfl⟩
    · cases hz

/-- A pool of which one result was kept. -/
def keptPool (config : Config) (e : Extreme) (fs : List String) (rs : List Roll)
    (ss : List DieResult) : Term :=
  (Term.make (.pool (fs.map Formula.normalize) rs { modifiers := [.str e.command], results := ss })
    [] config).setMark (.bool true)

/-- The results of a pool before anything is kept. -/
def totalsOf (rs : List Roll) : List DieResult := rs.map fun r => { face := r.total }

include symbols single

theorem rolled_pooled :
    rolled evaluation context (Formula.pooled context.config fs e.command)
      = Formula.rollAll evaluation context fs >>= fun rs => keptPool context.config e fs rs
          <$> .ofExcept (DieResult.keepOrDrop (.int 1) true e.highest (totalsOf rs)).outcome := by
  have waits : ({ config := context.config : Label }).mark.truthy = false := rfl
  show ((Term.evaluationBy evaluation context (Formula.pooled context.config fs e.command)).result
    >>= fun p => pure p.1) = _
  rw [Formula.pooled, Term.make, Term.result_pool waits, Formula.rollAll_normalize symbols single,
    bind_assoc]
  refine bind_congr fun rs => ?_
  rw [Term.addRolls_pool, List.nil_append, List.nil_append, Term.result_withHand]
  dsimp only [Term.hand]
  rw [Hand.result_keep, bind_map_left, bind_map_left]
  rfl

theorem settlement_pooled :
    settlement context [Formula.pooled context.config fs e.command]
      = Formula.rollAll evaluation context fs >>= fun rs => .ofExcept (do
          let kept := DieResult.keepOrDrop (.int 1) true e.highest (totalsOf rs)
          let t := keptPool context.config e fs rs (← kept.outcome)
          return ([t], ← amount [t])) := by
  rw [settlement_value rfl rfl, settled, List.mapM_cons, rolled_pooled symbols single]
  simp only [List.mapM_nil, bind_assoc, pure_bind, bind_map_left, Drawing.ofExcept_bind]
  rfl

theorem numbered_called (extremes : context.config.HasExtremes) :
    numbered evaluation context context.config
        (Formula.called context.config e.function.name fs)
      = Formula.rollAll evaluation context fs >>= fun rs => .ofExcept (do
          let n ← definedNumber (← e.function.call (rs.map total))
          return groupNumber context.config n (diceOfRolls rs)) := by
  have waits : ({ config := context.config : Label }).mark.truthy = false := rfl
  have known : context.config.function (.str e.function.name) = .ok (.own e.function) := by
    simp [Config.function, Value.str?, extremes.lookup]
  show ((Term.evaluationBy evaluation context
    (Formula.called context.config e.function.name fs)).result
      >>= fun p => Drawing.ofExcept (numberFor p.1 context.config)) = _
  rw [Formula.called, Term.make, Term.result_call waits, known,
    Formula.rollAll_normalize symbols single]
  simp only [Drawing.ofExcept_ok, pure_bind, bind_assoc]
  refine bind_congr fun rs => ?_
  have plain : (rs.map fun r => if true = true then
      r.propagateFlavor ({ config := context.config : Label }).options.flavor else r) = rs :=
    List.map_id _
  rw [Term.addRolls_call, List.nil_append, plain, Drawing.ofExcept_bind]
  refine bind_congr fun v => ?_
  show Drawing.ofExcept (do
    let n ← definedNumber v
    return groupNumber context.config n (diceOfRolls rs)) = _
  rfl

theorem settlement_called (extremes : context.config.HasExtremes) :
    settlement context [Formula.called context.config e.function.name fs]
      = Formula.rollAll evaluation context fs >>= fun rs => .ofExcept (do
          let n ← definedNumber (← e.function.call (rs.map total))
          let t := groupNumber context.config n (diceOfRolls rs)
          return ([t], ← amount [t])) := by
  rw [settlement, List.mapM_cons, numbered_called symbols single extremes]
  simp only [List.mapM_nil, bind_assoc, pure_bind, Drawing.ofExcept_bind]
  rfl

section

variable {rs : List Roll} {ws : List Whole} {src rest : Source}
  (rolled : Formula.rollAll evaluation context fs src = (.ok rs, rest))
  (totals : rs.map total = ws.map fun w => .num w.number) (some : ws ≠ [])

include rolled totals some

/-- The pool settles on the extreme of totals that are integers. -/
theorem exists_settlement_pooled (e : Extreme) :
    ∃ (c : ℤ) (ss : List DieResult), e.IsOf c (ws.map (·.value))
      ∧ settlement context [Formula.pooled context.config fs e.command] src
        = (.ok ([keptPool context.config e fs rs ss], .int c), rest) := by
  obtain ⟨w, ss, extreme, kept, sum⟩ := DieResult.exists_kept e some
  refine ⟨w.value, ss, extreme, ?_⟩
  have results : totalsOf rs = ws.map DieResult.ofWhole := results_of_totals totals
  have worth : amount [keptPool context.config e fs rs ss] = .ok (.int w.value) := by
    refine amount_of_whole? ?_ w.whole
    exact congrArg (Except.map Value.num) sum
  rw [settlement_pooled symbols single, Drawing.bind_of_ok rolled, Drawing.ofExcept_apply, results,
    kept]
  dsimp only [Change.outcome]
  rw [bind_ok, worth]
  rfl

/-- The call settles on the extreme of totals that are integers. -/
theorem exists_settlement_called (e : Extreme) (extremes : context.config.HasExtremes) :
    ∃ (c : ℤ) (x : Number), e.IsOf c (ws.map (·.value))
      ∧ settlement context [Formula.called context.config e.function.name fs] src
        = (.ok ([groupNumber context.config x (diceOfRolls rs)], .int c), rest) := by
  obtain ⟨w, extreme, called⟩ := Function.exists_extreme e some
  refine ⟨w.value, w.number, extreme, ?_⟩
  have number : definedNumber (.num w.number) = .ok w.number :=
    definedNumber_num (Number.isDefined_of_whole? w.whole)
  have worth : amount [groupNumber context.config w.number (diceOfRolls rs)] = .ok (.int w.value) :=
    amount_of_whole? rfl w.whole
  rw [settlement_called symbols single extremes, Drawing.bind_of_ok rolled, Drawing.ofExcept_apply,
    totals, called, bind_ok, number, bind_ok]
  dsimp only
  rw [worth]
  rfl

end

omit symbols single

/-- Two runs come to the extreme of what some formulas come to. They draw as often, and fail as the
formulas do; where these come to integers, both runs are worth the extreme one, and list the same
dice. -/
structure ComeToExtreme (e : Extreme) (formulas : Except Error (List Roll))
    (pool call : Report Roll Unit) : Prop where
  source : pool.source = call.source
  failed : ∀ err, formulas = .error err → pool.ending = .failed err ∧ call.ending = .failed err
  finished : ∀ (rs : List Roll) (zs : List ℤ), formulas = .ok rs → rs.map worth? = zs.map some →
    pool.ending = .finished () ∧ call.ending = .finished ()
      ∧ (∃ m, e.IsOf m zs ∧ pool.state.total = .int m ∧ call.state.total = .int m)
      ∧ pool.state.toRecord.get "dice" = call.state.toRecord.get "dice"

section

variable (extremes : context.config.HasExtremes) {p q : Roll}
  {formula formula' data options : Value}
  (hp : create formula data options context.config = .ok p)
  (hq : create formula' data options context.config = .ok q)
  (pool : p.terms = [Formula.pooled context.config fs e.command])
  (call : q.terms = [Formula.called context.config e.function.name fs])

include symbols single extremes hp hq pool call

/-- Both runs draw for the formulas, and for nothing else. -/
theorem source_of_terms (src : Source) :
    ((evaluation context p).run .never src).source
      = ((evaluation context q).run .never src).source := by
  rw [source_of_settlement hp, source_of_settlement hq, pool, call,
    settlement_pooled symbols single, settlement_called symbols single extremes]
  cases rolled : Formula.rollAll evaluation context fs src with
  | mk formulas rest =>
    cases formulas with
    | error err => rw [Drawing.bind_of_error rolled, Drawing.bind_of_error rolled]
    | ok rs =>
      rw [Drawing.bind_of_ok rolled, Drawing.bind_of_ok rolled, Drawing.ofExcept_apply,
        Drawing.ofExcept_apply]

theorem comeToExtreme_of_terms (some : fs ≠ []) (src : Source) :
    ComeToExtreme e (Formula.rollAll evaluation context fs src).1
      ((evaluation context p).run .never src) ((evaluation context q).run .never src) := by
  have source := source_of_terms symbols single extremes hp hq pool call src
  cases rolled : Formula.rollAll evaluation context fs src with
  | mk formulas rest =>
    cases formulas with
    | error err =>
      refine ⟨source, ?_, nofun⟩
      rintro _ ⟨⟩
      have failed : settlement context p.terms src = (.error err, rest) := by
        rw [pool, settlement_pooled symbols single, Drawing.bind_of_error rolled]
      have failed' : settlement context q.terms src = (.error err, rest) := by
        rw [call, settlement_called symbols single extremes, Drawing.bind_of_error rolled]
      exact ⟨(failed_of_settlement hp failed).1, (failed_of_settlement hq failed').1⟩
    | ok rs =>
      refine ⟨source, nofun, ?_⟩
      rintro _ zs ⟨⟩ worth
      obtain ⟨ws, totals, rfl⟩ := exists_whole worth
      have full : ws ≠ [] := by
        rintro rfl
        have length := Drawing.gives_length_mapM _ fs src rs rest rolled
        rw [List.map_eq_nil_iff.1 totals] at length
        exact some (List.eq_nil_of_length_eq_zero length.symm)
      obtain ⟨c, ss, extreme, kept⟩ := exists_settlement_pooled symbols single rolled totals full e
      obtain ⟨d, x, extreme', called⟩ :=
        exists_settlement_called symbols single rolled totals full e extremes
      obtain ⟨finished, state, -⟩ := finished_of_settlement hp (pool ▸ kept)
      obtain ⟨finished', state', -⟩ := finished_of_settlement hq (call ▸ called)
      refine ⟨finished, finished', ⟨c, extreme, ?_, ?_⟩, ?_⟩
      · rw [state]
        rfl
      · rw [state', extreme.unique extreme']
        rfl
      · have dice : diceOfTerms [keptPool context.config e fs rs ss] = diceOfRolls rs := by
          rw [diceOfTerms, diceOfTerms, List.append_nil]
          rfl
        have dice' := dice_groupNumber context.config x (diceOfRolls rs)
        rw [get_dice_toRecord, get_dice_toRecord, state, state']
        exact congrArg (fun ts => Value.list (ts.map Term.toRecord)) (dice.trans dice'.symm)

end

/-- **Pools and functions agree.** Some formulas that make rolls, none of which has a comma outside
of brackets and flavors, are the members of a pool and the arguments of a function. To keep the
highest result of the pool and to call for the largest argument come to the same, whatever is drawn,
and so do the lowest and the smallest. -/
theorem evaluation_pool (e : Extreme) (extremes : config.HasExtremes) {fs : List String}
    (some : fs ≠ []) (symbols : ∀ f ∈ fs, '@' ∉ f.toList)
    (parses : ∀ f ∈ fs, ∃ p, Formula.parse (.str f) .null config = .ok p)
    (uncut : ∀ f ∈ fs, Atom.Uncut 0 (Atom.scan f.toList)) {data options : Value} {opts : Options}
    (ho : Options.ofValue options = .ok opts) :
    ∃ p q, create (.str ("\x7b" ++ ",".intercalate fs ++ "\x7d" ++ e.command)) data options config
          = .ok p
      ∧ create (.str (e.function.name ++ "(" ++ ",".intercalate fs ++ ")")) data options config
          = .ok q
      ∧ ∀ (mode : Mode) (src : Source),
        ComeToExtreme e (Formula.rollAll evaluation { config, mode } fs src).1
          ((evaluation { config, mode } p).run .never src)
          ((evaluation { config, mode } q).run .never src) := by
  have single : ∀ f ∈ fs, Formula.Single config f := by
    intro f hf
    obtain ⟨p, hp⟩ := parses f hf
    exact ⟨⟨p.terms, ((Formula.parse_eq_ok (symbols f hf)).1 hp).2⟩, uncut f hf⟩
  have joined : '@' ∉ (",".intercalate fs).toList := by
    intro hm
    rcases Formula.mem_of_mem_intercalate hm with comma | ⟨f, hf, hm⟩
    · exact absurd comma (by decide)
    · exact symbols f hf hm
  have poolFree : '@' ∉ ("\x7b" ++ ",".intercalate fs ++ "\x7d" ++ e.command).toList := by
    simp only [String.toList_append, List.mem_append, joined, or_false]
    cases e <;> decide +kernel
  have callFree : '@' ∉ (e.function.name ++ "(" ++ ",".intercalate fs ++ ")").toList := by
    simp only [String.toList_append, List.mem_append, joined, or_false]
    cases e <;> decide +kernel
  have full : e.command ≠ "" := by cases e <;> simp [Extreme.command]
  have alphanum : ∀ c ∈ e.command.toList, c.isAlphanum = true := by
    cases e <;> simp [Extreme.command]
  have known : (config.functions.lookup e.function.name).isSome = true := by
    rw [extremes.lookup]
    rfl
  have hp := create_of_reads (Symbols.substitute_of_not_mem (Symbols.tableOf data) poolFree)
    (Formula.reads_pool some single full alphanum) ho
  have hq := create_of_reads (Symbols.substitute_of_not_mem (Symbols.tableOf data) callFree)
    (Formula.reads_call some single e.isName_function known) ho
  refine ⟨_, _, hp, hq, ?_⟩
  intro mode src
  -- the configuration is that of the context in which both are evaluated
  have extremes : (Context.mk config mode).config.HasExtremes := extremes
  have single : ∀ f ∈ fs, Formula.Single (Context.mk config mode).config f := single
  exact comeToExtreme_of_terms symbols single extremes hp hq rfl rfl some src

/-- A comma in a flavor, one in a pool and a double that is an integer. -/
theorem evaluation_pool_flavored :
    ∃ p q, create (.str "\x7b2d6[a, b],\x7b1d4, 3\x7d,7/2*2\x7dkh") .null .null .default = .ok p
      ∧ create (.str "max(2d6[a, b],\x7b1d4, 3\x7d,7/2*2)") .null .null .default = .ok q
      ∧ let src : Source := { pending := [0.5, 0.25, 0.75], fill := none }
        let pool := (evaluation { config := .default } p).run .never src
        let call := (evaluation { config := .default } q).run .never src
        pool.source = call.source ∧ pool.ending = .finished () ∧ call.ending = .finished ()
          ∧ pool.state.total = .int 7 ∧ call.state.total = .int 7
          ∧ pool.state.toRecord.get "dice" = call.state.toRecord.get "dice" := by
  let src : Source := { pending := [0.5, 0.25, 0.75], fill := none }
  let fs := ["2d6[a, b]", "\x7b1d4, 3\x7d", "7/2*2"]
  obtain ⟨rs, rolled, worth⟩ := exists_ok_of_any
    (x := (Formula.rollAll evaluation { config := .default } fs src).1)
    (p := fun rs => rs.map worth? == [some 5, some 6, some 7]) (by decide +kernel)
  have parses : ∀ f ∈ fs, ∃ p, Formula.parse (.str f) .null .default = .ok p := by
    have parse : ∀ f ∈ fs,
        (Formula.parse (.str f) .null .default).toOption.any (fun _ => true) = true := by
      decide +kernel
    intro f hf
    obtain ⟨p, hp, -⟩ := exists_ok_of_any (parse f hf)
    exact ⟨p, hp⟩
  have options : Options.ofValue .null = .ok [] := rfl
  obtain ⟨p, q, hp, hq, agree⟩ := @evaluation_pool .default .greatest ⟨rfl, rfl⟩ fs (by decide)
    (by decide +kernel) parses (by decide +kernel) .null _ _ options
  obtain ⟨source, -, finished⟩ := agree .random src
  obtain ⟨pool, call, ⟨m, extreme, total, total'⟩, dice⟩ :=
    finished rs [5, 6, 7] rolled (eq_of_beq worth)
  have greatest : Extreme.greatest.IsOf 7 [5, 6, 7] :=
    ⟨by decide, show ∀ z ∈ [5, 6, 7], z ≤ (7 : ℤ) by decide⟩
  obtain rfl := extreme.unique greatest
  exact ⟨p, q, hp, hq, source, pool, call, total, total', dice⟩

end Roll

end DiceFormula
