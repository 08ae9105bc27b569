import DiceFormula.Proofs.Roll.Record

/-!
# Records of terms

Every term that a formula is read into can be restored from its record, before its evaluation and
after an evaluation of its own. What comes back is of the same class and shows the same record,
formula, total and dice, with one exception: the record of an evaluated group holds its text and its
roll, and the roll wins. So the group comes back with the formula of its roll in place of its own
text (`Term.printed`), and shows the same only where both agree (`Term.Standing.ofRecord_printed`).
-/

namespace DiceFormula

variable {config : Config}

/-! ## Reading evaluated terms back -/

/-- The roll is storable and has been evaluated. -/
def Roll.Final (config : Config) (r : Roll) : Prop := r.Storable config ∧ r.evaluated = true

theorem Roll.Final.propagateFlavor {flavor : Value} (hf : flavor.IsText) {r : Roll}
    (h : r.Final config) : (r.propagateFlavor flavor).Final config :=
  ⟨h.1.propagateFlavor hf h.2, (Roll.evaluated_propagateFlavor flavor r).trans h.2⟩

namespace Term

/-- A term as it comes back after an evaluation of its own. -/
def readBack : Term → Term
  | ⟨.group _ (some r), l, _⟩ => ⟨.group r.formula (some r.restored), l, []⟩
  | ⟨.call fn args rolls result, l, _⟩ => ⟨.call fn args (restoredRolls rolls) result, l, []⟩
  | t => t.restored

section

variable {readRoll : Value → Except Error Roll} {l : Label} {carried : List Term}

attribute [local simp] restore toRecord recordHead Body.entries Body.termClass recordArguments
  recordMark TermClass.parameters ofKnownArguments Arguments.required Arguments.optional
  Arguments.options Value.recorded Config.itemsOf Value.items? List.lookup_cons

theorem lookup_roll {source : Value} {r : Roll} (evaluated : r.evaluated = true) :
    (recordHead .group l ++ Body.entries l.mark.truthy (.group source (some r))).lookup "roll"
      = some r.toRecord := by
  have state : r.sheet.state.isEvaluated = true := evaluated
  simp [state]

theorem lookup_rolls {fn : Value} {args : List String} {rolls : List Roll} {result : Value}
    (marked : l.mark = .bool true) (nonempty : rolls ≠ []) :
    (recordHead .call l ++ Body.entries l.mark.truthy (.call fn args rolls result)).lookup "rolls"
      = some (.list (rollRecords rolls)) := by
  simp [marked, nonempty, Value.truthy]

/-- A group is read back with the formula of its roll, whatever its own text is. -/
theorem restore_group_of_roll {source : Value} {r : Roll} (hl : l.Storable config)
    (marked : l.mark = .bool true) (evaluated : r.evaluated = true)
    (hr : readRoll r.toRecord = .ok r.restored) :
    restore readRoll .group (toRecord ⟨.group source (some r), l, carried⟩) config
      = .ok (readBack ⟨.group source (some r), l, carried⟩) := by
  have roll : (toRecord ⟨.group source (some r), l, carried⟩).get "roll" = r.toRecord := by
    rw [toRecord, Value.get_mapping, Body.termClass, lookup_roll evaluated, Option.getD_some]
  have options : (toRecord ⟨.group source (some r), l, carried⟩).get "options"
      = .mapping l.options := by
    simp
  obtain ⟨es, mapping⟩ : ∃ es, r.toRecord = .mapping es := by
    obtain ⟨terms, dice, shared, sheet⟩ := r
    exact ⟨_, rfl⟩
  rw [mapping] at roll hr
  rw [readBack, ← make_setMark hl, marked]
  simp only [restore, restoreGroup, roll, options, hr, bind_ok, Options.ofValue_mapping]
  obtain ⟨terms, dice, shared, sheet⟩ := r
  have state : sheet.state.isEvaluated = true := evaluated
  simp only [ofRoll, Roll.restored, Roll.evaluated, state]
  rfl

/-- A call is read back with its rolls and its result. -/
theorem restore_call_of_rolls {fn : Value} {args : List String} {rolls : List Roll}
    {result : Value} (hl : l.Storable config) (marked : l.mark = .bool true) (hf : fn.IsText)
    (ha : Trimmed args) (nonempty : rolls ≠ [])
    (hr : (rollRecords rolls).mapM readRoll = .ok (restoredRolls rolls)) :
    restore readRoll .call (toRecord ⟨.call fn args rolls result, l, carried⟩) config
      = .ok (readBack ⟨.call fn args rolls result, l, carried⟩) := by
  obtain ⟨name, rfl⟩ := hf
  rw [readBack, ← make_setMark hl, marked]
  simp [restoreCall, formulasOf_textRecords ha, marked, nonempty, hr, Value.truthy, make, setMark]

theorem ofRecord_group {source : Value} {r : Roll} (hl : l.Storable config)
    (marked : l.mark = .bool true) (h : r.Final config) :
    ofRecord config (toRecord ⟨.group source (some r), l, carried⟩)
      = .ok (readBack ⟨.group source (some r), l, carried⟩) := by
  have hc : TermClass.ofRecord config (toRecord ⟨.group source (some r), l, carried⟩)
      = .ok .group := TermClass.ofRecord_of_knows trivial (class_toRecord _)
  have inside := Roll.readRecord_toRecord r (toRecord ⟨.group source (some r), l, carried⟩).depth
    h.1 (Value.depth_lt_of_lookup "roll" (lookup_roll h.2) (Nat.lt_succ_self _))
  simp only [ofRecord, readRecord, hc, bind_ok]
  exact restore_group_of_roll hl marked h.2 inside

theorem ofRecord_call {fn : Value} {args : List String} {rolls : List Roll} {result : Value}
    (hl : l.Storable config) (marked : l.mark = .bool true) (hf : fn.IsText) (ha : Trimmed args)
    (nonempty : rolls ≠ []) (h : ∀ r ∈ rolls, r.Final config) :
    ofRecord config (toRecord ⟨.call fn args rolls result, l, carried⟩)
      = .ok (readBack ⟨.call fn args rolls result, l, carried⟩) := by
  have hc : TermClass.ofRecord config (toRecord ⟨.call fn args rolls result, l, carried⟩)
      = .ok .call := TermClass.ofRecord_of_knows trivial (class_toRecord _)
  have inside := readRecords_rolls rolls (toRecord ⟨.call fn args rolls result, l, carried⟩).depth
    (rollsStorable_iff.2 fun r hr => (h r hr).1)
    (Value.depthAll_lt_of_lookup "rolls" (lookup_rolls marked nonempty) (Nat.lt_succ_self _))
  simp only [ofRecord, readRecord, hc, bind_ok]
  exact restore_call_of_rolls hl marked hf ha nonempty inside

end

/-- A function that was applied had arguments. -/
theorem ne_nil_of_applyFunction {f : FunctionEntry} {rolls : List Roll} {v : Value}
    (h : applyFunction f rolls = .ok v) : rolls ≠ [] := by
  rintro rfl
  cases f with
  | own f => cases f <;> cases h
  | foreign f => cases h

/-- **An evaluated term is read back from its record.** -/
theorem ofRecord_of_evaluated {t u : Term} (ht : t.Storable config)
    (h : Evaluated (Roll.Final config) t u) : ofRecord config u.toRecord = .ok u.readBack := by
  have flavor := ht.isText_flavor
  have storable (h : Evaluated (Roll.Storable config) t u) (whole : t.isIntermediate = false) :
      ofRecord config u.toRecord = .ok u.restored :=
    ofRecord_toRecord ((h.settled ht).storable whole)
  obtain ⟨body', filled, rfl⟩ := h.exists_body
  obtain ⟨body, l, carried⟩ := t
  obtain ⟨hl, hb, hc⟩ := ht
  have marked := hl.marked
  cases filled with
  | number n => exact storable ⟨.number n, rfl, rfl⟩ rfl
  | operator s => exact storable ⟨.operator s, rfl, rfl⟩ rfl
  | @pool args before hand rolls hand' made written =>
    exact storable ⟨.pool args before hand (fun r hr => (made r hr).1) written, rfl, rfl⟩ rfl
  | @dice d hand written => exact storable ⟨.dice d written, rfl, rfl⟩ rfl
  | group source hr => exact ofRecord_group marked rfl (hr.propagateFlavor flavor)
  | call fn args made applied =>
    refine ofRecord_call marked rfl hb.1 hb.2.1 (ne_nil_of_applyFunction applied) ?_
    intro r hr
    obtain ⟨s, hs, rfl⟩ := made r hr
    exact hs.propagateFlavor flavor

/-! ## What a term shows -/

/-- The term `s` shows all that `t` shows. -/
structure ShowsSame (t s : Term) : Prop where
  record : s.toRecord = t.toRecord
  evaluated : s.evaluated = t.evaluated
  total : s.total = t.total
  formula : s.formula = t.formula
  dice : termRecords s.dice = termRecords t.dice

/-- The term with the formula of its roll in place of its own text, if it is a group with a roll. -/
def printed : Term → Term
  | ⟨.group _ (some r), l, carried⟩ => ⟨.group r.formula (some r), l, carried⟩
  | t => t

/-- No text of a group differs from the formula of its roll. -/
def IsPrinted (t : Term) : Prop := ∀ source r, t.body = .group source (some r) → source = r.formula

theorem IsPrinted.printed {t : Term} (h : t.IsPrinted) : t.printed = t := by
  obtain ⟨body, l, carried⟩ := t
  cases body with
  | group source roll =>
    cases roll with
    | none => rfl
    | some r => rw [h source r rfl]; rfl
  | _ => rfl

theorem Storable.isPrinted {t : Term} (h : t.Storable config) : t.IsPrinted := by
  obtain ⟨body, l, carried⟩ := t
  rintro source r rfl
  have none := h.2.1.2
  cases none

end Term

theorem isEmpty_restoredRolls (rs : List Roll) : (restoredRolls rs).isEmpty = rs.isEmpty := by
  cases rs <;> rfl

theorem termRecords_append (ts us : List Term) :
    termRecords (ts ++ us) = termRecords ts ++ termRecords us := by
  induction ts with
  | nil => rfl
  | cons t ts ih => simp [termRecords, ih]

/-- Evaluated rolls that came back have the same dice. -/
theorem termRecords_diceOfRolls_restored {rs : List Roll} (h : ∀ r ∈ rs, r.evaluated = true) :
    termRecords (diceOfRolls (restoredRolls rs)) = termRecords (diceOfRolls rs) := by
  induction rs with
  | nil => rfl
  | cons r rs ih =>
    obtain ⟨hr, hrs⟩ := List.forall_mem_cons.1 h
    rw [restoredRolls, diceOfRolls, diceOfRolls, termRecords_append, termRecords_append, ih hrs,
      (Roll.showsSame_restored hr).dice]

namespace Term

/-- What comes back of an evaluated term shows the same, but for the text of a group. -/
theorem showsSame_readBack {t u : Term} (h : Evaluated (Roll.Final config) t u)
    (hc : t.carried = []) : ShowsSame u.printed u.readBack := by
  obtain ⟨body', filled, rfl⟩ := h.exists_body
  obtain ⟨body, l, carried⟩ := t
  obtain rfl : carried = [] := hc
  cases filled with
  | number n => exact ⟨rfl, rfl, rfl, rfl, rfl⟩
  | operator s => exact ⟨rfl, rfl, rfl, rfl, rfl⟩
  | dice d written => exact ⟨rfl, rfl, rfl, rfl, rfl⟩
  | @group source r hr =>
    generalize hs : r.propagateFlavor (Term.flavor ⟨.group source none, l, []⟩) = s
    have evaluated : s.evaluated = true := by rw [← hs, Roll.evaluated_propagateFlavor, hr.2]
    have shown := Roll.showsSame_restored evaluated
    refine ⟨?_, rfl, congrArg Except.ok shown.total, rfl, shown.dice⟩
    obtain ⟨terms, dice, shared, sheet⟩ := s
    simp only [printed, readBack, toRecord, Body.entries, Roll.toRecord_restored]
    rfl
  | @call fn args rolls f result made applied =>
    have evaluated : ∀ r ∈ rolls, r.evaluated = true := by
      intro r hr
      obtain ⟨s, hs, rfl⟩ := made r hr
      rw [Roll.evaluated_propagateFlavor, hs.2]
    refine ⟨?_, rfl, rfl, rfl, termRecords_diceOfRolls_restored evaluated⟩
    simp only [printed, readBack, toRecord, Body.entries, rollRecords_restored,
      isEmpty_restoredRolls]
    rfl
  | @pool args before hand rolls hand' made written =>
    exact ⟨toRecord_restored _, rfl, rfl, rfl,
      termRecords_diceOfRolls_restored fun r hr => (made r hr).2⟩

theorem termClass_readBack (t : Term) : t.readBack.termClass = t.termClass := by
  obtain ⟨body, l, carried⟩ := t
  cases body with
  | group source roll => cases roll <;> rfl
  | _ => rfl

/-! ## Terms that can be restored -/

/-- A term that a formula is read into. -/
def Read (config : Config) (t : Term) : Prop :=
  ∃ (formula data : Value) (p : Formula.Parsed),
    Formula.parse formula data config = .ok p ∧ t ∈ p.terms

theorem Read.fresh {t : Term} (h : t.Read config) : t.Fresh config := by
  obtain ⟨formula, data, p, hp, ht⟩ := h
  exact (Formula.fresh_of_parse hp).2 t ht

/-- A term that a formula is read into, or one that such a term became by an evaluation of its own
that ended well. -/
inductive Standing (config : Config) : Term → Prop
  | read {t : Term} : t.Read config → Standing config t
  | evaluated {t : Term} {mode : Mode} {rule : StopRule} {src : Source} :
      t.Read config → ((evaluation { config, mode } t).run rule src).ending = .finished () →
      Standing config ((evaluation { config, mode } t).run rule src).state

/-- A term of a formula of which a check can be computed. -/
theorem exists_read_of_any (formula data : Value) (config : Config) (p : Term → Bool)
    (h : ((Formula.parse formula data config).toOption.any fun q => q.terms.any p) = true) :
    ∃ t, Read config t ∧ p t = true := by
  obtain ⟨q, hq, h⟩ := exists_ok_of_any h
  obtain ⟨t, ht, passed⟩ := List.any_eq_true.1 h
  exact ⟨t, ⟨formula, data, q, hq, ht⟩, passed⟩

/-- The evaluation of a term by itself fills it in with final rolls. -/
theorem meets_evaluation {context : Context} {t : Term} (h : t.Fresh context.config) :
    (evaluation context t).Meets (endsIn fun u => Evaluated (Roll.Final context.config) t u) := by
  have made : (Roll.evaluationWithin (t.nesting + 1)).Makes (Roll.Final context.config) context :=
    fun r hr => Roll.meets_evaluationBy (Roll.sound_evaluationWithin t.nesting) hr
  refine meets_evaluationBy made h.storable ?_
  rw [h.rolls]
  exact List.forall_mem_nil _

/-- **Records of terms.** A term that a formula is read into is restored from its record as a term
of the same class that shows the same, before its evaluation and after it, but that an evaluated
group takes over the formula of its roll; where its text is that formula already, it shows the same
as well. -/
theorem Standing.ofRecord_printed {u : Term} (h : u.Standing config) :
    ∃ s, ofRecord config u.toRecord = .ok s ∧ s.termClass = u.termClass
      ∧ ShowsSame u.printed s ∧ (u.IsPrinted → ShowsSame u s) := by
  cases h with
  | read h =>
    have fresh := h.fresh
    have back := ofRecord_toRecord fresh.storable
    rw [fresh.restored] at back
    refine ⟨u, back, rfl, ?_, fun _ => ⟨rfl, rfl, rfl, rfl, rfl⟩⟩
    rw [fresh.storable.isPrinted.printed]
    exact ⟨rfl, rfl, rfl, rfl, rfl⟩
  | @evaluated t mode rule src h finished =>
    have fresh := h.fresh
    have allowed := Steps.allows_run rule (@meets_evaluation { config, mode } t fresh) src
    simp only [Contract.Allows, finished] at allowed
    have shown := showsSame_readBack allowed fresh.carried
    refine ⟨_, ofRecord_of_evaluated fresh.storable allowed, termClass_readBack _, shown, ?_⟩
    intro printed
    rwa [printed.printed] at shown

/-- A pool with a group in it, evaluated and restored. -/
theorem ofRecord_printed_pool :
    ∃ t, Read .diceOnly t
      ∧ let src : Source := { pending := [0.25, 0.75, 0.5], fill := none }
        let u := ((evaluation { config := .diceOnly } t).run .never src).state
        ∃ s, ofRecord .diceOnly u.toRecord = .ok s ∧ ShowsSame u.printed s
          ∧ (u.IsPrinted → ShowsSame u s) := by
  obtain ⟨t, ht, finished⟩ := exists_read_of_any
    (.str "{1d4, (2d6)[fire]+1}cs>2") .null .diceOnly
    (fun t => ((evaluation { config := .diceOnly } t).run .never
      { pending := [0.25, 0.75, 0.5], fill := none }).ending.isFinished)
    (by decide +kernel)
  obtain ⟨s, hs, -, same, printed⟩ :=
    Standing.ofRecord_printed (.evaluated ht (Ending.eq_of_isFinished finished))
  exact ⟨t, ht, s, hs, same, printed⟩

/-- The group of `(1+2)` comes back as that of `(1 + 2)` once it is evaluated. -/
theorem ofRecord_evaluated_group :
    ∃ t, Read .diceOnly t
      ∧ let report := (evaluation { config := .diceOnly } t).run .never ⟨[], none, 0⟩
        report.ending = .finished ()
        ∧ ∃ s, ofRecord .diceOnly report.state.toRecord = .ok s
          ∧ s.toRecord ≠ report.state.toRecord ∧ s.formula ≠ report.state.formula := by
  obtain ⟨t, ht, check⟩ := exists_read_of_any (.str "(1+2)") .null .diceOnly
    (fun t =>
      let report := (evaluation { config := .diceOnly } t).run .never ⟨[], none, 0⟩
      report.ending.isFinished && (ofRecord .diceOnly report.state.toRecord).toOption.any fun s =>
        (s.toRecord.get "term").str? != (report.state.toRecord.get "term").str?
          && (s.formula.toOption.bind Value.str?) != report.state.formula.toOption.bind Value.str?)
    (by decide +kernel)
  obtain ⟨finished, check⟩ := Bool.and_eq_true_iff.1 check
  obtain ⟨s, hs, differ⟩ := exists_ok_of_any check
  obtain ⟨record, formula⟩ := Bool.and_eq_true_iff.1 differ
  refine ⟨t, ht, Ending.eq_of_isFinished finished, s, hs, ?_, ?_⟩
  · intro same
    rw [same, bne_self_eq_false] at record
    cases record
  · intro same
    rw [same, bne_self_eq_false] at formula
    cases formula

end Term

end DiceFormula
