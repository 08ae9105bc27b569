import DiceFormula.Proofs.Record.Storable

/-!
# Records read back

A storable term is read back from its record, and so is a storable roll, at any depth
(`Term.readRecord_toRecord`, `Roll.readRecord_toRecord`). What comes back has the same record
(`Term.toRecord_restored`), so that nothing a record shows is lost. The readers of the parts come
first: results, texts, labels and classes.
-/

namespace DiceFormula

variable {config : Config}

/-! ## Parts of a record -/

namespace DieResult

/-- What a record names comes first where a note was made, and is looked for further on where it
was not. -/
theorem lookup_note (name key : String) (v : Value) (es : List (String × Value)) :
    (note name v ++ es).lookup key
      = if key == name ∧ v.isNull = false then some v else es.lookup key := by
  unfold note
  cases hv : v.isNull <;> cases hk : key == name <;> simp [List.lookup_cons, hk]

theorem lookup_note_last (name key : String) (v : Value) :
    (note name v).lookup key = if key == name ∧ v.isNull = false then some v else none := by
  simpa using lookup_note name key v []

/-- A note that was not made is missing from the record, and reads back as null. -/
theorem getD_note (v : Value) : (if v.isNull = false then some v else none).getD .null = v := by
  cases v <;> rfl

theorem ofRecord_toRecord (r : DieResult) : ofRecord r.toRecord = .ok r := by
  obtain ⟨face, active, count, success, failure, discarded, rerolled, exploded⟩ := r
  simp [ofRecord, toRecord, ofEntries, List.lookup_cons, Value.get, Value.get?, lookup_note,
    lookup_note_last, getD_note]

theorem resultsOf_records (rs : List DieResult) :
    resultsOf (.list (rs.map toRecord)) = .ok rs := by
  have read : ∀ rs : List DieResult, (rs.map toRecord).mapM ofRecord = .ok rs := by
    intro rs
    induction rs with
    | nil => rfl
    | cons r rs ih => simp [ofRecord_toRecord, ih]
  exact read rs

end DieResult

theorem formulasOf_textRecords {ss : List String} (h : Trimmed ss) :
    formulasOf (textRecords ss) = .ok ss := by
  have trimmed : (ss.map Value.str).map (fun item => Blank.trimString item.text) = ss := by
    rw [List.map_map]
    exact (List.map_congr_left h).trans (List.map_id ss)
  exact congrArg Except.ok trimmed

theorem Value.IsText.recorded {v : Value} (h : v.IsText) : v.recorded = v := by
  obtain ⟨s, rfl⟩ := h
  rfl

theorem Hand.IsWritten.modifierRecords {h : Hand} (hw : h.IsWritten) :
    h.modifierRecords = .list h.modifiers := by
  have same : h.modifiers.map Value.recorded = h.modifiers :=
    (List.map_congr_left fun m hm => (hw m hm).recorded).trans (List.map_id _)
  rw [Hand.modifierRecords, same]

theorem Hand.IsWritten.isWritable {h : Hand} (hw : h.IsWritten) : h.isWritable = true := by
  rw [Hand.isWritable, List.all_eq_true]
  intro m hm
  obtain ⟨s, rfl⟩ := hw m hm
  rfl

theorem TermClass.ofRecord_of_knows {c : TermClass} {record : Value} (h : config.Knows c)
    (hc : record.get "class" = .str c.name) : TermClass.ofRecord config record = .ok c := by
  have named : config.classNamed? c.name = some c := by
    cases c with
    | dice k =>
      have known : config.kinds.any (·.2 == .dice k) = true := h
      cases k <;> simp [Config.classNamed?, TermClass.ofName?, TermClass.all, TermClass.name, known]
    | _ => simp [Config.classNamed?, TermClass.ofName?, TermClass.all, TermClass.name]
  simp [TermClass.ofRecord, hc, named]

@[simp] theorem Value.get?_mapping (key : String) (es : List (String × Value)) :
    (Value.mapping es).get? key = es.lookup key := rfl

@[simp] theorem Value.get_mapping (key : String) (es : List (String × Value)) :
    (Value.mapping es).get key = (es.lookup key).getD .null := rfl

@[simp] theorem Options.ofValue_mapping (o : Options) : Options.ofValue (.mapping o) = .ok o := by
  cases o <;> rfl

/-- A list is as good as itself where lists that are empty count as missing. -/
@[simp] theorem Value.orElse_list (vs : List Value) :
    (Value.list vs).orElse (.list []) = .list vs := by
  cases vs <;> rfl

/-! ## Terms

One rule per class. The rolls of a pool are the only part of a term that is itself read back. -/

namespace Term

variable {readRoll : Value → Except Error Roll} {l : Label} {carried : List Term}

/-- The label of a storable term, made from its record. -/
theorem make_setMark (h : l.Storable config) (body : Body) :
    (Term.make body l.options config).setMark l.mark = ⟨body, l, []⟩ := by
  obtain ⟨options, mark, tag, _⟩ := l
  obtain ⟨rfl, rfl, -, -⟩ := h
  rfl

section

-- how records are written and read back, for all classes alike
attribute [local simp] restore toRecord recordHead Body.entries Body.termClass recordArguments
  recordMark TermClass.parameters ofKnownArguments Arguments.required Arguments.optional
  Arguments.options Value.recorded Config.itemsOf Value.items? Term.make Term.setMark
  List.lookup_cons

theorem restore_number {n : Number} (h : Term.Storable config ⟨.number n, l, carried⟩) :
    restore readRoll .number (toRecord ⟨.number n, l, carried⟩) config
      = .ok ⟨.number n, l, []⟩ := by
  obtain ⟨hl, hn, -⟩ := h
  rw [← make_setMark hl]
  simp [definedNumber_num hn]

theorem restore_operator {s : Arithmetic.Sign}
    (h : Term.Storable config ⟨.operator s, l, carried⟩) :
    restore readRoll .operator (toRecord ⟨.operator s, l, carried⟩) config
      = .ok ⟨.operator s, l, []⟩ := by
  have sign : signOf (.str (.singleton s.char)) = .ok s := by
    simp [signOf, Arithmetic.Sign.ofChar?_char]
  rw [← make_setMark h.1]
  simp [sign]

theorem restore_text {v : Value} (h : Term.Storable config ⟨.text v, l, carried⟩) :
    restore readRoll .text (toRecord ⟨.text v, l, carried⟩) config = .ok ⟨.text v, l, []⟩ := by
  obtain ⟨hl, ⟨s, rfl⟩, -⟩ := h
  rw [← make_setMark hl]
  simp

theorem restore_group {source : Value} {roll : Option Roll}
    (h : Term.Storable config ⟨.group source roll, l, carried⟩) :
    restore readRoll .group (toRecord ⟨.group source roll, l, carried⟩) config
      = .ok ⟨.group source roll, l, []⟩ := by
  obtain ⟨hl, ⟨⟨s, rfl⟩, rfl⟩, -⟩ := h
  rw [← make_setMark hl]
  simp [restoreGroup]

theorem restore_call {fn : Value} {args : List String} {rolls : List Roll} {result : Value}
    (h : Term.Storable config ⟨.call fn args rolls result, l, carried⟩) :
    restore readRoll .call (toRecord ⟨.call fn args rolls result, l, carried⟩) config
      = .ok ⟨.call fn args rolls result, l, []⟩ := by
  obtain ⟨hl, ⟨⟨s, rfl⟩, ha, rfl, rfl⟩, -⟩ := h
  rw [← make_setMark hl]
  simp [restoreCall, formulasOf_textRecords ha, Value.orElse, Value.truthy]

/-- A pool is read back if its rolls are. -/
theorem restore_pool {args : List String} {rolls : List Roll} {hand : Hand}
    (h : Term.Storable config ⟨.pool args rolls hand, l, carried⟩)
    (hr : (rollRecords rolls).mapM readRoll = .ok (restoredRolls rolls)) :
    restore readRoll .pool (toRecord ⟨.pool args rolls hand, l, carried⟩) config
      = .ok ⟨.pool args (restoredRolls rolls) hand, l, []⟩ := by
  obtain ⟨hl, ⟨ha, hm, -⟩, -⟩ := h
  rw [← make_setMark hl]
  simp [formulasOf_textRecords ha, hm.modifierRecords, Hand.resultRecords,
    DieResult.resultsOf_records, hr, Term.withResults]

theorem restore_dice {d : Dice} (h : Term.Storable config ⟨.dice d, l, carried⟩) :
    restore readRoll (.dice d.kind) (toRecord ⟨.dice d, l, carried⟩) config
      = .ok ⟨.dice d, l, []⟩ := by
  obtain ⟨hl, ⟨hd, hmark⟩, -⟩ := h
  obtain ⟨b, hb⟩ := hl.mark
  obtain ⟨n, hn⟩ := hd.number
  have evaluated : (b || !d.hand.results.isEmpty) = b := by
    rw [hb] at hmark
    rcases hmark with h | h
    · obtain rfl : b = true := h
      rfl
    · simp [h]
  rw [← make_setMark hl, hb]
  obtain ⟨kind, number, faces, modifiers, results⟩ := d
  obtain rfl : number = .int n := hn
  have hm := hd.hand.modifierRecords
  have hf := hd.faces
  simp only at hf hm evaluated
  simp [restoreDice, Value.int, hm, hf, Hand.resultRecords, DieResult.resultsOf_records,
    withResults, Term.evaluated, Value.truthy, hb, evaluated]

end

/-- **A term is read back** if the rolls in it are. -/
theorem restore_toRecord {t : Term} (h : t.Storable config)
    (hr : (rollRecords t.rolls).mapM readRoll = .ok (restoredRolls t.rolls)) :
    restore readRoll t.termClass t.toRecord config = .ok t.restored := by
  obtain ⟨body, l, carried⟩ := t
  cases body with
  | number n => exact restore_number h
  | operator s => exact restore_operator h
  | text v => exact restore_text h
  | group source roll => exact restore_group h
  | call fn args rolls result => exact restore_call h
  | pool args rolls hand => exact restore_pool h hr
  | dice d => exact restore_dice h

/-- Every storable term can stand in a formula. -/
theorem Storable.isWritable {t : Term} (h : t.Storable config) : t.isWritable = true := by
  obtain ⟨body, l, carried⟩ := t
  obtain ⟨hl, hb, -⟩ := h
  have flavor : (Term.flavor ⟨body, l, carried⟩).fits = true := by
    obtain ⟨s, hs⟩ := hl.flavor
    unfold Term.flavor
    split
    · rfl
    · rw [hs]
      rfl
  have content : Term.contentFits ⟨body, l, carried⟩ = true := by
    cases body with
    | number | operator | call => rfl
    | text v =>
      obtain ⟨s, rfl⟩ := hb
      rfl
    | group source roll =>
      obtain ⟨⟨s, rfl⟩, -⟩ := hb
      rfl
    | pool args rolls hand => exact hb.2.1.isWritable
    | dice d => exact hb.1.hand.isWritable
  simp [Term.isWritable, content, flavor]

theorem isWritable_restored (t : Term) : t.restored.isWritable = t.isWritable := by
  obtain ⟨body, l, carried⟩ := t
  cases body <;> rfl

theorem knows_of_storable {t : Term} (h : t.Storable config) : config.Knows t.termClass := by
  obtain ⟨body, l, carried⟩ := t
  cases body with
  | dice d => exact h.2.1.1.known
  | _ => trivial

end Term

/-! ## Rolls -/

mutual

/-- A term without dice comes back without any. -/
theorem Term.dice_restored : ∀ t : Term, t.dice = [] → t.restored.dice = []
  | ⟨.pool args rolls hand, l, carried⟩, h =>
    diceOfRolls_restored rolls (List.append_eq_nil_iff.1 h).2
  | ⟨.dice d, l, carried⟩, h => by simp [Term.dice] at h
  | ⟨.number _, l, carried⟩, _ => rfl
  | ⟨.operator _, l, carried⟩, _ => rfl
  | ⟨.text _, l, carried⟩, _ => rfl
  | ⟨.group _ none, l, carried⟩, _ => rfl
  | ⟨.group _ (some r), l, carried⟩, h => (List.append_eq_nil_iff.1 h).2
  | ⟨.call _ _ rolls _, l, carried⟩, h => (List.append_eq_nil_iff.1 h).2

theorem Roll.allDice_restored : ∀ r : Roll, r.allDice = [] → r.restored.allDice = []
  | ⟨terms, dice, _, sheet⟩, h => by
    simp only [Roll.restored, Roll.allDice] at h ⊢
    by_cases evaluated : sheet.state.isEvaluated = true
    · rw [if_pos evaluated] at h ⊢
      rw [h]
      rfl
    · rw [if_neg evaluated] at h ⊢
      exact diceOfTerms_restored terms h

theorem diceOfRolls_restored :
    ∀ rs : List Roll, diceOfRolls rs = [] → diceOfRolls (restoredRolls rs) = []
  | [], _ => rfl
  | r :: rs, h => by
    obtain ⟨hr, hrs⟩ := List.append_eq_nil_iff.1 h
    simp only [restoredRolls, diceOfRolls, Roll.allDice_restored r hr,
      diceOfRolls_restored rs hrs, List.append_nil]

theorem diceOfTerms_restored :
    ∀ ts : List Term, diceOfTerms ts = [] → diceOfTerms (restoredTerms ts) = []
  | [], _ => rfl
  | t :: ts, h => by
    obtain ⟨ht, hts⟩ := List.append_eq_nil_iff.1 h
    simp only [restoredTerms, diceOfTerms, Term.dice_restored t ht, diceOfTerms_restored ts hts,
      List.append_nil]

end

namespace Roll

variable {readTerm : Value → Except Error Term} {terms dice shared : List Term} {sheet : Sheet}

/-- Storable terms that came back can stand in a formula. -/
theorem ofTerms?_restored (h : termsStorable config terms) (options : Options) :
    ofTerms? (restoredTerms terms) options config
      = .ok (ofTerms (restoredTerms terms) options config) := by
  have writable : (restoredTerms terms).all Term.isWritable = true := by
    rw [restoredTerms_eq_map, List.all_map, List.all_eq_true]
    intro t ht
    rw [Function.comp_apply, Term.isWritable_restored]
    exact (termsStorable_iff.1 h t ht).isWritable
  rw [ofTerms?, if_pos writable]

/-- **A roll is read back** if its terms and its dice are. -/
theorem restore_toRecord (h : Roll.Storable config ⟨terms, dice, shared, sheet⟩)
    (ht : (termRecords terms).mapM readTerm = .ok (restoredTerms terms))
    (hd : (termRecords dice).mapM readTerm = .ok (restoredTerms dice)) :
    restore readTerm (toRecord ⟨terms, dice, shared, sheet⟩) config
      = .ok (restored ⟨terms, dice, shared, sheet⟩) := by
  obtain ⟨hs, hterms, -, hdice⟩ := h
  obtain ⟨text, hf, hne⟩ := hs.formula
  have made := ofTerms?_restored hterms
  have formula : (Value.str text).orElse (.str (formulaOf (restoredTerms terms))) = .str text := by
    simp [Value.orElse, Value.truthy, hne]
  obtain ⟨_, options, state, total, replayed, tag, _⟩ := sheet
  obtain ⟨rfl, rfl, -, hstate⟩ := hs
  obtain rfl : _ = Value.str text := hf
  rcases hstate with h | ⟨h, htotal, hreplayed⟩
  · obtain rfl : state = .evaluated := h
    simp [restore, toRecord, List.lookup_cons, Config.itemsOf, Value.items?, ht, made,
      formula, recordMark, Value.truthy, RollState.isEvaluated, ofTerms, Roll.formula, restored]
    split
    · next he =>
      obtain rfl : dice = [] := by
        cases dice with
        | nil => rfl
        | cons t ts => cases he
      rw [diceOfTerms_restored terms hdice.symm]
      rfl
    · rw [hd]
      rfl
  · obtain rfl : state = .created := h
    obtain rfl : total = .null := htotal
    obtain rfl : replayed = false := hreplayed
    obtain rfl : dice = [] := hdice
    simp [restore, toRecord, List.lookup_cons, Config.itemsOf, Value.items?, ht, made,
      formula, recordMark, Value.truthy, RollState.isEvaluated, ofTerms, Roll.formula, restored,
      restoredTerms]

end Roll

/-! ## Any depth

The fuel of the readers is the depth of the record, and what is read inside lies less deep. -/

theorem Value.depth_lt_of_lookup (key : String) {v : Value} {fuel : Nat} :
    ∀ {es : List (String × Value)}, es.lookup key = some v →
      (Value.mapping es).depth < fuel + 1 → v.depth < fuel
  | [], h, _ => by cases h
  | (k, w) :: es, h, hfuel => by
    simp only [Value.depth, Value.depthEntries] at hfuel
    simp only [List.lookup_cons] at h
    split at h
    · obtain rfl := Option.some.inj h
      omega
    · refine Value.depth_lt_of_lookup key h ?_
      simp only [Value.depth]
      omega

theorem Value.depthAll_lt_of_lookup (key : String) {vs : List Value} {fuel : Nat}
    {es : List (String × Value)} (h : es.lookup key = some (.list vs))
    (hfuel : (Value.mapping es).depth < fuel + 1) : Value.depthAll vs < fuel := by
  have := Value.depth_lt_of_lookup key h hfuel
  simp only [Value.depth] at this
  omega

theorem Term.class_toRecord (t : Term) : t.toRecord.get "class" = .str t.termClass.name := by
  obtain ⟨body, l, carried⟩ := t
  simp [Term.toRecord, recordHead, Term.termClass]

/-- A term is read back once its rolls are. -/
theorem Term.readRecord_succ {t : Term} {fuel : Nat} (h : t.Storable config)
    (hr : (rollRecords t.rolls).mapM (Roll.readRecord config fuel) = .ok (restoredRolls t.rolls)) :
    Term.readRecord config (fuel + 1) t.toRecord = .ok t.restored := by
  have hc : TermClass.ofRecord config t.toRecord = .ok t.termClass :=
    TermClass.ofRecord_of_knows (Term.knows_of_storable h) (Term.class_toRecord t)
  simp only [Term.readRecord, hc, bind, Except.bind]
  exact Term.restore_toRecord h hr

mutual

/-- **A storable term is read back from its record.** -/
theorem Term.readRecord_toRecord : ∀ (t : Term) (fuel : Nat), t.Storable config →
    t.toRecord.depth < fuel → Term.readRecord config fuel t.toRecord = .ok t.restored
  | t, 0, _, hfuel => absurd hfuel (Nat.not_lt_zero _)
  | ⟨.pool args rolls hand, l, carried⟩, fuel + 1, h, hfuel =>
    have lookup : (recordHead .pool l ++ Body.entries l.mark.truthy (.pool args rolls hand)).lookup
        "rolls" = some (.list (rollRecords rolls)) := by
      simp [recordHead, Body.entries, List.lookup_cons]
    Term.readRecord_succ h
      (readRecords_rolls rolls fuel h.2.1.2.2 (Value.depthAll_lt_of_lookup _ lookup hfuel))
  | ⟨.number _, _, _⟩, _ + 1, h, _ => Term.readRecord_succ h rfl
  | ⟨.operator _, _, _⟩, _ + 1, h, _ => Term.readRecord_succ h rfl
  | ⟨.text _, _, _⟩, _ + 1, h, _ => Term.readRecord_succ h rfl
  | ⟨.group _ _, _, _⟩, _ + 1, h, _ => Term.readRecord_succ h rfl
  | ⟨.dice _, _, _⟩, _ + 1, h, _ => Term.readRecord_succ h rfl
  | ⟨.call _ _ rolls _, _, _⟩, _ + 1, h, _ => Term.readRecord_succ h (by
      obtain ⟨-, ⟨-, -, rfl, -⟩, -⟩ := h
      rfl)

/-- **A storable roll is read back from its record.** -/
theorem Roll.readRecord_toRecord : ∀ (r : Roll) (fuel : Nat), r.Storable config →
    r.toRecord.depth < fuel → Roll.readRecord config fuel r.toRecord = .ok r.restored
  | r, 0, _, hfuel => absurd hfuel (Nat.not_lt_zero _)
  | ⟨terms, dice, shared, sheet⟩, fuel + 1, h, hfuel =>
    Roll.restore_toRecord h
      (readRecords_terms terms fuel h.2.1
        (Value.depthAll_lt_of_lookup "terms" (by simp [List.lookup_cons]) hfuel))
      (readRecords_terms dice fuel h.2.2.1
        (Value.depthAll_lt_of_lookup "dice" (by simp [List.lookup_cons]) hfuel))

theorem readRecords_rolls : ∀ (rs : List Roll) (fuel : Nat), rollsStorable config rs →
    Value.depthAll (rollRecords rs) < fuel →
    (rollRecords rs).mapM (Roll.readRecord config fuel) = .ok (restoredRolls rs)
  | [], _, _, _ => rfl
  | r :: rs, fuel, h, hfuel => by
    simp only [rollRecords, Value.depthAll, Nat.max_lt] at hfuel
    simp [rollRecords, Roll.readRecord_toRecord r fuel h.1 hfuel.1,
      readRecords_rolls rs fuel h.2 hfuel.2, restoredRolls]

theorem readRecords_terms : ∀ (ts : List Term) (fuel : Nat), termsStorable config ts →
    Value.depthAll (termRecords ts) < fuel →
    (termRecords ts).mapM (Term.readRecord config fuel) = .ok (restoredTerms ts)
  | [], _, _, _ => rfl
  | t :: ts, fuel, h, hfuel => by
    simp only [termRecords, Value.depthAll, Nat.max_lt] at hfuel
    simp [termRecords, Term.readRecord_toRecord t fuel h.1 hfuel.1,
      readRecords_terms ts fuel h.2 hfuel.2, restoredTerms]

end

theorem Term.ofRecord_toRecord {t : Term} (h : t.Storable config) :
    Term.ofRecord config t.toRecord = .ok t.restored :=
  Term.readRecord_toRecord t _ h (Nat.lt_succ_self _)

theorem Roll.ofRecord_toRecord {r : Roll} (h : r.Storable config) :
    Roll.ofRecord config r.toRecord = .ok r.restored :=
  Roll.readRecord_toRecord r _ h (Nat.lt_succ_self _)

/-- The records of fresh terms give the terms back as they were. -/
theorem ofRecords_of_fresh {ts : List Term} (h : ∀ t ∈ ts, t.Fresh config) :
    (termRecords ts).mapM (Term.ofRecord config) = .ok ts := by
  induction ts with
  | nil => rfl
  | cons t ts ih =>
    have ht := h t List.mem_cons_self
    simp [termRecords, Term.ofRecord_toRecord ht.storable, ht.restored,
      ih fun u hu => h u (List.mem_cons_of_mem t hu)]

/-! ## What a record shows is not lost -/

mutual

/-- What comes back has the same record. -/
theorem Term.toRecord_restored : ∀ t : Term, t.restored.toRecord = t.toRecord
  | ⟨.pool args rolls hand, l, _⟩ => by
    simp only [Term.restored, Body.restored, Term.toRecord, Body.entries, Body.termClass,
      rollRecords_restored rolls]
  | ⟨.number _, _, _⟩ => rfl
  | ⟨.operator _, _, _⟩ => rfl
  | ⟨.text _, _, _⟩ => rfl
  | ⟨.group _ _, _, _⟩ => rfl
  | ⟨.call _ _ _ _, _, _⟩ => rfl
  | ⟨.dice _, _, _⟩ => rfl

theorem Roll.toRecord_restored : ∀ r : Roll, r.restored.toRecord = r.toRecord
  | ⟨terms, dice, _, sheet⟩ => by
    simp only [Roll.restored, Roll.toRecord, termRecords_restored terms, termRecords_restored dice]

theorem rollRecords_restored : ∀ rs : List Roll, rollRecords (restoredRolls rs) = rollRecords rs
  | [] => rfl
  | r :: rs => by
    simp only [restoredRolls, rollRecords, Roll.toRecord_restored r, rollRecords_restored rs]

theorem termRecords_restored : ∀ ts : List Term, termRecords (restoredTerms ts) = termRecords ts
  | [] => rfl
  | t :: ts => by
    simp only [restoredTerms, termRecords, Term.toRecord_restored t, termRecords_restored ts]

end

end DiceFormula
