import DiceFormula.Proofs.Evaluation.Dealt
import DiceFormula.Proofs.Formula.Inside
import DiceFormula.Term.Determinism

/-!
# Deterministic formulas

Groups, calls and pools are asked whether they are deterministic by reading the formulas inside. The
answer for a formula is that for all of its terms at every level, asked one by one for themselves:
dice are not calm, a text is if it would not be dice by itself, and all others are
(`Roll.allHold_of_isDeterministic`). There is an answer to every formula without texts and symbols,
since what was read to check it is read once more (`Roll.exists_isDeterministic`).
-/

namespace DiceFormula

variable {config : Config}

/-! ## Tests of all items -/

section

variable {α β : Type} {test : α → Except Error Bool}

theorem allHold_cons_eq_ok {a : α} {as : List α} {b : Bool} :
    allHold test (a :: as) = .ok b
      ↔ test a = .ok false ∧ b = false ∨ test a = .ok true ∧ allHold test as = .ok b := by
  rw [allHold]
  cases test a with
  | error e => simp
  | ok c => cases c <;> simp [eq_comm]

theorem allHold_singleton (a : α) : allHold test [a] = test a := by
  rw [allHold]
  cases test a with
  | error e => rfl
  | ok c => cases c <;> rfl

theorem allHold_append_eq_ok {as bs : List α} {b : Bool} :
    allHold test (as ++ bs) = .ok b
      ↔ allHold test as = .ok false ∧ b = false
        ∨ allHold test as = .ok true ∧ allHold test bs = .ok b := by
  induction as with
  | nil => simp [allHold]
  | cons a as ih =>
    rw [List.cons_append, allHold_cons_eq_ok, ih, allHold_cons_eq_ok, allHold_cons_eq_ok]
    tauto

/-- Items that answer for others answer for all of them. -/
theorem allHold_flatMap {f : β → List α} {ask : β → Except Error Bool} {bs : List β} {b : Bool}
    (each : ∀ c ∈ bs, ∀ b, ask c = .ok b → allHold test (f c) = .ok b)
    (h : allHold ask bs = .ok b) : allHold test (bs.flatMap f) = .ok b := by
  induction bs with
  | nil => exact h
  | cons c bs ih =>
    obtain ⟨first, each⟩ := List.forall_mem_cons.1 each
    rw [List.flatMap_cons, allHold_append_eq_ok]
    rcases allHold_cons_eq_ok.1 h with ⟨hc, rfl⟩ | ⟨hc, h⟩
    · exact .inl ⟨first _ hc, rfl⟩
    · exact .inr ⟨first _ hc, ih each h⟩

/-- Where every item has an answer, all of them have one. -/
theorem exists_allHold {as : List α} (h : ∀ a ∈ as, ∃ b, test a = .ok b) :
    ∃ b, allHold test as = .ok b := by
  induction as with
  | nil => exact ⟨true, rfl⟩
  | cons a as ih =>
    obtain ⟨⟨b, hb⟩, h⟩ := List.forall_mem_cons.1 h
    cases b with
    | false => exact ⟨false, allHold_cons_eq_ok.2 (.inl ⟨hb, rfl⟩)⟩
    | true =>
      obtain ⟨c, hc⟩ := ih h
      exact ⟨c, allHold_cons_eq_ok.2 (.inr ⟨hb, hc⟩)⟩

theorem allHold_eq_ok_true {as : List α} :
    allHold test as = .ok true ↔ ∀ a ∈ as, test a = .ok true := by
  induction as with
  | nil => simp [allHold]
  | cons a as ih => simp [allHold_cons_eq_ok, ih]

end

/-- Whether a term by itself, without the formulas inside, is deterministic. -/
def Term.calm (t : Term) : Except Error Bool :=
  match t.body with
  | .text s => leafDeterministic s t.label.config
  | .dice _ => .ok false
  | _ => .ok true

theorem termsDeterministicBy_eq_allHold (read : Config → Value → Except Error Bool)
    (ts : List Term) :
    termsDeterministicBy read ts = allHold (Term.deterministicBy read) ts := by
  induction ts with
  | nil => rfl
  | cons t ts ih => rw [termsDeterministicBy, allHold, ih]

namespace Term

variable {read : Config → Value → Except Error Bool} {fuel : Nat}

/-- How a fresh term is asked: itself, and then the formulas inside. -/
theorem deterministicBy_eq_ok {t : Term} (fresh : t.Fresh config) {b : Bool} :
    t.deterministicBy read = .ok b
      ↔ t.calm = .ok false ∧ b = false
        ∨ t.calm = .ok true ∧ allHold (fun a => read config (.str a)) t.formulas = .ok b := by
  have hconfig := fresh.storable.label.config
  have carried := fresh.carried
  have unrolled := fresh.unrolled
  obtain ⟨body, l, c⟩ := t
  obtain rfl : l.config = config := hconfig
  obtain rfl : c = [] := carried
  cases body with
  | text s =>
    show leafDeterministic s l.config = .ok b ↔ _
    simp only [calm, formulas, allHold, Except.ok.injEq]
    cases b <;> simp
  | group source roll =>
    obtain ⟨⟨s, rfl⟩, rfl⟩ := unrolled
    simp [deterministicBy, calm, formulas, allHold_singleton]
  | number | operator | dice | call | pool => 
    simp [deterministicBy, calm, formulas, allHold, eq_comm]

/-- The terms at all levels answer for the term around them. -/
theorem allHold_subterms {t : Term} (fresh : t.Fresh config)
    (inner : ∀ a ∈ t.formulas, ∀ b, read config (.str a) = .ok b →
      allHold calm ((Formula.termsOf config a).flatMap (subterms config fuel)) = .ok b)
    {b : Bool} (h : t.deterministicBy read = .ok b) :
    allHold calm (t.subterms config (fuel + 1)) = .ok b := by
  rw [subterms, inside, List.flatMap_assoc, allHold_cons_eq_ok]
  exact ((deterministicBy_eq_ok fresh).1 h).imp_right fun h =>
    ⟨h.1, allHold_flatMap inner h.2⟩

/-- A term that is no text has an answer if the formulas inside have one. -/
theorem exists_deterministicBy_of_formulas {t : Term} (fresh : t.Fresh config)
    (notText : t.isText = false)
    (inner : ∀ a ∈ t.formulas, ∃ b, read config (.str a) = .ok b) :
    ∃ b, t.deterministicBy read = .ok b := by
  obtain ⟨b, hb⟩ : ∃ b, t.calm = .ok b := by
    obtain ⟨body, l, carried⟩ := t
    cases body with
    | text s => cases notText
    | _ => exact ⟨_, rfl⟩
  cases b with
  | false => exact ⟨false, (deterministicBy_eq_ok fresh).2 (.inl ⟨hb, rfl⟩)⟩
  | true =>
    obtain ⟨b, hall⟩ := exists_allHold inner
    exact ⟨b, (deterministicBy_eq_ok fresh).2 (.inr ⟨hb, hall⟩)⟩

end Term

/-! ## Formulas -/

namespace Formula

theorem termsOf_of_parse {a : String} {p : Parsed} (h : parse (.str a) .null config = .ok p) :
    termsOf config a = p.terms := by
  rw [termsOf, h]

/-- The terms at all levels answer for the formula. -/
theorem allHold_of_formulaDeterministic (fuel : Nat) :
    ∀ {depth : Nat} {formula : String} {b : Bool}, formula.length < fuel → formula.length ≤ depth →
      formulaDeterministic fuel config (.str formula) = .ok b →
      allHold Term.calm ((termsOf config formula).flatMap (Term.subterms config depth))
        = .ok b := by
  induction fuel with
  | zero =>
    intro depth formula b hf
    exact absurd hf (Nat.not_lt_zero _)
  | succ fuel ih =>
    intro depth formula b hf hd h
    obtain ⟨p, hp, h⟩ := bind_eq_ok.1 h
    rw [termsOf_of_parse hp]
    rw [termsDeterministicBy_eq_allHold] at h
    refine allHold_flatMap ?_ h
    intro t ht b hb
    have nesting := nesting_le_of_parse hp t ht
    have pos := t.nesting_pos
    obtain ⟨depth, rfl⟩ := Nat.exists_eq_add_one.2 (show 0 < depth by omega)
    refine Term.allHold_subterms ((fresh_of_parse hp).2 t ht) ?_ hb
    intro a ha b hb
    have := Term.length_lt_nesting ha
    exact ih (by omega) (by omega) hb

/-- A term of a formula without symbols and texts has an answer if the formulas inside have one. -/
theorem exists_deterministicBy {read : Config → Value → Except Error Bool} {depth : Nat}
    {formula : String} {ts : List Term} (symbols : '@' ∉ formula.toList)
    (h : Reads config formula ts) {t : Term} (ht : t ∈ ts)
    (textless : Textless (t.subterms config (depth + 1)))
    (inner : ∀ a ∈ t.formulas, ∀ us, '@' ∉ a.toList → Reads config a us →
      Textless (us.flatMap (Term.subterms config depth)) → ∃ b, read config (.str a) = .ok b) :
    ∃ b, t.deterministicBy read = .ok b := by
  rw [Term.subterms, Term.inside, List.flatMap_assoc] at textless
  obtain ⟨notText, textless⟩ := List.forall_mem_cons.1 textless
  obtain ⟨outline, readable⟩ := reads_iff.1 h
  have fresh : t.Fresh config := by
    obtain ⟨fuel, h⟩ := h
    exact (fresh_of_readTerms h).2 t ht
  refine Term.exists_deterministicBy_of_formulas fresh notText ?_
  intro a ha
  obtain ⟨us, hus⟩ := readable t ht a ha
  have symbols : '@' ∉ a.toList := fun hc =>
    (mem_of_mem_formulas outline ht ha hc).elim symbols (by decide)
  refine inner a ha us symbols hus fun u hu => textless u (List.mem_flatMap.2 ⟨a, ha, ?_⟩)
  rwa [termsOf_of_parse (p := ⟨_, us⟩) ((parse_eq_ok symbols).2 ⟨rfl, hus⟩)]

/-- A formula without symbols and texts has an answer. -/
theorem exists_formulaDeterministic (fuel : Nat) :
    ∀ {depth : Nat} {formula : String} {ts : List Term}, '@' ∉ formula.toList →
      formula.length ≤ depth → Reads config formula ts →
      Textless (ts.flatMap (Term.subterms config depth)) →
      ∃ b, formulaDeterministic fuel config (.str formula) = .ok b := by
  induction fuel with
  | zero => exact fun _ _ _ _ => ⟨true, rfl⟩
  | succ fuel ih =>
    intro depth formula ts symbols hd h textless
    have hp : parse (.str formula) .null config = .ok ⟨normalize formula, ts⟩ :=
      (parse_eq_ok symbols).2 ⟨rfl, h⟩
    rw [formulaDeterministic, hp, bind_ok, termsDeterministicBy_eq_allHold]
    refine exists_allHold fun t ht => ?_
    have nesting := nesting_le_of_parse hp t ht
    have pos := t.nesting_pos
    obtain ⟨depth, rfl⟩ := Nat.exists_eq_add_one.2 (show 0 < depth by omega)
    refine exists_deterministicBy symbols h ht
      (fun u hu => textless u (List.mem_flatMap.2 ⟨t, ht, hu⟩)) ?_
    intro a ha us symbols hus textless
    have := Term.length_lt_nesting ha
    exact ih symbols (by omega) hus textless

end Formula

/-! ## Rolls -/

namespace Roll

theorem isDeterministic_of_dice {r : Roll} (h : r.dice = []) :
    r.isDeterministic = allHold Term.isDeterministic r.terms := by
  obtain ⟨terms, dice, shared, sheet⟩ := r
  obtain rfl : dice = [] := h
  exact termsDeterministicBy_eq_allHold _ _

/-- The answer of a roll that waits is that for the terms at all levels. -/
theorem allHold_of_isDeterministic {r : Roll} (h : r.Waiting config) {b : Bool}
    (hb : r.isDeterministic = .ok b) :
    allHold Term.calm (r.terms.flatMap (Term.subterms config r.nesting)) = .ok b := by
  rw [isDeterministic_of_dice h.dice] at hb
  refine allHold_flatMap ?_ hb
  intro t ht b hb
  have nesting := nesting_le_of_mem ht
  have pos := t.nesting_pos
  obtain ⟨depth, hdepth⟩ := Nat.exists_eq_add_one.2 (show 0 < r.nesting by omega)
  rw [hdepth]
  refine Term.allHold_subterms (h.terms t ht) ?_ hb
  intro a ha b hb
  have := Term.length_lt_nesting ha
  refine Formula.allHold_of_formulaDeterministic (a.length + 1) (by omega) (by omega) ?_
  exact hb

/-- A roll without texts and symbols has an answer. -/
theorem exists_isDeterministic {text : String} {data options : Value} {r : Roll}
    (h : create (.str text) data options config = .ok r) (symbols : '@' ∉ text.toList)
    (textless : Textless (r.terms.flatMap (Term.subterms config r.nesting))) :
    ∃ b, r.isDeterministic = .ok b := by
  have waiting := waiting_of_create h
  obtain ⟨p, hp, h⟩ := bind_eq_ok.1 h
  obtain ⟨options, -, h⟩ := bind_eq_ok.1 h
  obtain rfl := Except.ok.inj h
  rw [isDeterministic_of_dice waiting.dice]
  refine exists_allHold fun t ht => ?_
  have nesting := nesting_le_of_mem (r := ofTerms p.terms options config) ht
  have pos := t.nesting_pos
  obtain ⟨depth, hdepth⟩ :=
    Nat.exists_eq_add_one.2 (show 0 < (ofTerms p.terms options config).nesting by omega)
  refine @Formula.exists_deterministicBy _ _ depth _ _ symbols
    ((Formula.parse_eq_ok symbols).1 hp).2 _ ht (fun u hu => ?_) ?_
  · rw [← hdepth] at hu
    exact textless u (List.mem_flatMap.2 ⟨t, ht, hu⟩)
  · intro a ha us symbols hus textless
    have := Term.length_lt_nesting ha
    exact Formula.exists_formulaDeterministic (a.length + 1) symbols (by omega) hus textless

end Roll

end DiceFormula
