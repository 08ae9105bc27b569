import DiceFormula.Evaluation.Roll
import DiceFormula.Proofs.Formula.Plain

/-!
# How deep formulas are nested

The formulas inside a term are parts of the text around them, so that `Term.nesting`, which counts
their characters, bounds how deep they are nested: the terms of a formula are nested less deep than
the formula has characters (`Formula.nesting_le_of_parse`). No symbol is looked up inside a term, so
that these formulas are read as they stand (`Symbols.substitute_null`).

So what is done with a roll can be followed level by level (`Roll.induction_on_nesting`). At the
outset nothing has been rolled at any of them (`Formula.results_of_parse`).
-/

namespace DiceFormula

variable {config : Config}

/-! ## Groups in a text -/

namespace Piece

/-- The characters of a group that is still open. -/
def openLength : Option Pending → Nat
  | none => 0
  | some p => (Atom.render p.inner).length + 1

theorem length_close_le (p : Pending) : p.close.inner.length ≤ (Atom.render p.inner).length := by
  have same : (Atom.render p.inner.reverse).length = (Atom.render p.inner).length := by
    simp [Atom.render, List.length_flatMap, List.sum_reverse]
  rw [Pending.close, ← String.length_toList, String.toList_ofList, ← same]
  exact Blank.trim_length_le _

/-- A group takes up at least its text and its brackets. -/
theorem Extracts.length_le {open? : Option Pending} {done : List Piece} {as : List Atom}
    {ps : List Piece} (h : Extracts ps open? done as) {g : Group} (hg : Piece.group g ∈ ps) :
    Piece.group g ∈ done ∨ g.inner.length + 2 ≤ openLength open? + (Atom.render as).length := by
  have render (a : Atom) (as : List Atom) :
      (Atom.render (a :: as)).length = a.text.length + (Atom.render as).length := by
    simp [Atom.render]
  have single (c : Char) : (Atom.char c).text.length = 1 := rfl
  induction h with
  | nil => exact .inl (List.mem_reverse.2 hg)
  | inside loose level rest ih =>
    refine ih.imp_right fun le => ?_
    simp only [openLength, render] at le ⊢
    omega
  | @closing b fn inner as done rest ih =>
    rw [openLength, render, single]
    rcases ih with hm | le
    · rcases List.mem_cons.1 hm with hm | hm
      · obtain rfl := Piece.group.inj hm
        have := length_close_le ⟨b, fn, 0, inner⟩
        exact .inr (by omega)
      · exact .inl hm
    · rw [openLength] at le
      exact .inr (by omega)
  | @opening b as done rest ih =>
    obtain ⟨fn, gap, left, opened, -⟩ := head_openGroup b done
    rw [openLength, render, single]
    refine ih.imp (fun hm => openGroup_subset b done hm) fun le => ?_
    have : (Atom.render []).length = 0 := rfl
    simp only [opened, openLength] at le
    omega
  | bare bare rest ih =>
    rw [render]
    rcases ih with hm | le
    · exact .inl ((List.mem_cons.1 hm).resolve_left (by simp))
    · exact .inr (by omega)

theorem length_of_ofText {formula : String} {ps : List Piece} (h : ofText formula = .ok ps)
    {g : Group} (hg : Piece.group g ∈ ps) : g.inner.length + 2 ≤ formula.length := by
  have := ((ofText_eq_ok_iff.1 h).length_le hg).resolve_left List.not_mem_nil
  rwa [openLength, Atom.render_scan, Nat.zero_add, String.length_toList] at this

end Piece

/-! ## Arguments -/

theorem length_le_textLength {s : String} {ss : List String} (h : s ∈ ss) :
    s.length ≤ textLength ss := by
  induction ss with
  | nil => cases h
  | cons t ss ih =>
    rw [textLength]
    rcases List.mem_cons.1 h with rfl | h
    · exact Nat.le_add_right _ _
    · exact Nat.le_trans (ih h) (Nat.le_add_left _ _)

/-- The parts between separators have no more characters than the whole. -/
theorem Atom.length_splitAt_le (separator : String) (depth : Int) (current as : List Atom) :
    textLength ((splitAt separator depth current as).map fun part =>
        String.ofList (Blank.trim (render part)))
      ≤ (render current).length + (render as).length := by
  have part (current : List Atom) :
      (String.ofList (Blank.trim (render current.reverse))).length ≤ (render current).length := by
    have same : (render current.reverse).length = (render current).length := by
      simp [render, List.length_flatMap, List.sum_reverse]
    rw [← String.length_toList, String.toList_ofList, ← same]
    exact Blank.trim_length_le _
  have cons (a : Atom) (as : List Atom) :
      (render (a :: as)).length = a.text.length + (render as).length := by
    simp [render]
  fun_induction splitAt separator depth current as with
  | case1 depth current =>
    have := part current
    simp only [List.map_cons, List.map_nil, textLength]
    omega
  | case2 depth current a as depth' hsplit ih =>
    have := part current
    have empty : (render []).length = 0 := rfl
    simp only [List.map_cons, textLength]
    rw [cons]
    omega
  | case3 depth current a as depth' hsplit ih =>
    rw [cons] at ih ⊢
    omega

theorem Formula.textLength_of_arguments {inner : String} {args : List String}
    (h : arguments inner = .ok args) : textLength args ≤ inner.length := by
  obtain ⟨-, rfl⟩ := splitTopLevel_eq_ok.1 (arguments_eq_ok.1 h).1
  have := Atom.length_splitAt_le "," 0 [] (Atom.scan inner.toList)
  rwa [Atom.render_scan, String.length_toList, show (Atom.render []).length = 0 from rfl,
    Nat.zero_add] at this

/-! ## Formulas inside a term -/

/-- The formulas that stand inside a term. -/
def Term.formulas (t : Term) : List String :=
  match t.body with
  | .group (.str s) none => [s]
  | .call _ args _ _ | .pool args _ _ => args
  | _ => []

theorem Term.nesting_pos (t : Term) : 0 < t.nesting := by
  obtain ⟨body, l, carried⟩ := t
  unfold Term.nesting
  split <;> exact Nat.succ_pos _

theorem nesting_le_nestingOfTerms {t : Term} {ts : List Term} (h : t ∈ ts) :
    t.nesting ≤ nestingOfTerms ts := by
  induction ts with
  | nil => cases h
  | cons u ts ih =>
    rw [nestingOfTerms]
    rcases List.mem_cons.1 h with rfl | h
    · exact Nat.le_max_left _ _
    · exact Nat.le_trans (ih h) (Nat.le_max_right _ _)

theorem Roll.nesting_le_of_mem {r : Roll} {t : Term} (h : t ∈ r.terms) :
    t.nesting ≤ r.nesting := by
  obtain ⟨terms, dice, shared, sheet⟩ := r
  exact Nat.le_succ_of_le (nesting_le_nestingOfTerms h)

theorem Term.length_lt_nesting {t : Term} {s : String} (h : s ∈ t.formulas) :
    s.length < t.nesting := by
  obtain ⟨body, l, carried⟩ := t
  unfold Term.formulas at h
  split at h
  · next e =>
    obtain rfl : body = _ := e
    obtain rfl := List.mem_singleton.1 h
    exact Nat.lt_succ_self _
  · next e =>
    obtain rfl : body = _ := e
    exact Nat.lt_succ_of_le (length_le_textLength h)
  · next e =>
    obtain rfl : body = _ := e
    exact Nat.lt_succ_of_le (length_le_textLength h)
  · cases h

/-- Whether no formula stands inside a content. -/
def Body.isLeaf : Body → Bool
  | .number _ | .operator _ | .text _ | .dice _ => true
  | .group _ _ | .call _ _ _ _ | .pool _ _ _ => false

theorem Term.formulas_of_isLeaf {t : Term} (h : t.body.isLeaf = true) : t.formulas = [] := by
  obtain ⟨body, l, carried⟩ := t
  cases body with
  | group | call | pool => cases h
  | _ => rfl

theorem Term.nesting_of_isLeaf {t : Term} (h : t.body.isLeaf = true) : t.nesting = 1 := by
  obtain ⟨body, l, carried⟩ := t
  cases body with
  | group | call | pool => cases h
  | _ => rfl

/-- Nothing was rolled for a leaf. -/
theorem Term.Fresh.results_of_isLeaf {t : Term} (h : t.Fresh config) (leaf : t.body.isLeaf = true) :
    t.hand.results = [] := by
  obtain ⟨storable, -, -, mark, -⟩ := h
  obtain ⟨body, l, carried⟩ := t
  cases body with
  | pool => cases leaf
  | dice d =>
    refine storable.2.1.2.resolve_left ?_
    rw [show l.mark = .bool false from mark]
    exact Bool.noConfusion
  | _ => rfl

theorem Leaf.isLeaf_of_classify {text : String} {adjacent : Bool} {t : Term}
    (h : classify text config adjacent = .ok t) : t.body.isLeaf = true := by
  cases classified_of_classify h with
  | operator | number | text => rfl
  | dice _ h => rcases cases_of_ofDice h with ⟨-, rfl⟩ | ⟨-, kind, -, rfl⟩ <;> rfl

namespace Formula

theorem nesting_of_groupTerm {check : String → Except Error Unit} {g : Group} {s : Suffix}
    {t : Term} (h : groupTerm check config g s = .ok t) : t.nesting ≤ g.inner.length + 1 := by
  cases grouped_of_groupTerm h with
  | group => exact Nat.le_refl _
  | call hargs | pool hargs => exact Nat.succ_le_succ (textLength_of_arguments hargs)

theorem length_normalize_le (formula : String) : (normalize formula).length ≤ formula.length := by
  rw [normalize, ← String.length_toList, String.toList_ofList, ← String.length_toList]
  exact Blank.length_normalize_le _

/-- **Formulas are nested less deep than they are long.** -/
theorem nesting_le_of_readTerms {fuel : Nat} {formula : String} {ts : List Term}
    (h : readTerms config fuel formula = .ok ts) : ∀ t ∈ ts, t.nesting ≤ formula.length := by
  obtain ⟨fuel, ps, us, rfl, full, hps, hus, hts⟩ := exists_of_readTerms h
  have shorter := length_normalize_le formula
  have pos : 1 ≤ formula.length := by
    have := List.length_pos_iff.2 fun e => full (String.toList_eq_nil_iff.1 e)
    rw [String.length_toList] at this
    omega
  have nesting : ∀ t ∈ us, t.nesting ≤ formula.length := by
    refine forall_of_allTerms hus ?_
    intro token ht ts h
    refine forall_of_tokenTerms (P := fun t => t.nesting ≤ formula.length)
      (FormulaToken.isFull_ofPieces _ token ht) (fun _ => pos) ?_ ?_ h
    · intro text adjacent t _ h
      rw [Term.nesting_of_isLeaf (Leaf.isLeaf_of_classify h)]
      exact pos
    · rintro g s t ⟨value, rfl, hg⟩ h
      have inside : Piece.group g ∈ ps := (FormulaToken.within_ofPieces ps _ ht _ hg).1
      have := nesting_of_groupTerm h
      have := Piece.length_of_ofText hps inside
      omega
  rcases (of_validateTerms hts).1 with rfl | rfl
  · exact nesting
  · exact List.forall_mem_cons.2 ⟨pos, nesting⟩

/-! ## Results -/

theorem results_of_groupTerm {check : String → Except Error Unit} {g : Group} {s : Suffix}
    {t : Term} (h : groupTerm check config g s = .ok t) : t.hand.results = [] := by
  cases grouped_of_groupTerm h <;> rfl

/-- The parser deals nothing. -/
theorem results_of_parse {formula data : Value} {p : Parsed}
    (h : parse formula data config = .ok p) : ∀ t ∈ p.terms, t.hand.results = [] := by
  obtain ⟨fuel, text, h⟩ := exists_readTerms_of_parse h
  obtain ⟨fuel, ps, us, -, -, -, hus, hts⟩ := exists_of_readTerms h
  have empty : ∀ t ∈ us, t.hand.results = [] := by
    refine forall_of_allTerms hus ?_
    intro token ht ts h
    refine forall_of_tokenTerms (P := fun t => t.hand.results = [])
      (FormulaToken.isFull_ofPieces _ token ht) (fun _ => rfl) ?_
      (fun _ _ _ _ h => results_of_groupTerm h) h
    intro text adjacent t full h
    exact (Leaf.made_of_classify full h).fresh.results_of_isLeaf (Leaf.isLeaf_of_classify h)
  rcases (of_validateTerms hts).1 with same | zero
  · rwa [same]
  · rw [zero]
    exact List.forall_mem_cons.2 ⟨rfl, empty⟩

end Formula

/-! ## Symbols -/

theorem splitDots_ne_nil (cs : List Char) : splitDots cs ≠ [] := by
  unfold splitDots
  split
  · exact List.cons_ne_nil _ _
  · split
    · exact List.cons_ne_nil _ _
    · split <;> exact List.cons_ne_nil _ _

/-- Without data every symbol is unknown. -/
theorem Symbols.lookup_null (path : String) (v : Value) : lookup (tableOf .null) path ≠ .ok v := by
  intro h
  obtain ⟨w, hw, -⟩ := bind_eq_ok.1 h
  match hkeys : splitDots path.toList with
  | [] => exact splitDots_ne_nil _ hkeys
  | key :: keys =>
    rw [hkeys] at hw
    cases hw

/-- A formula without data that is not refused has no symbols. -/
theorem Symbols.substituteFrom_null {fuel : Nat} {cs ds : List Char}
    (h : substituteFrom (tableOf .null) fuel cs = .ok ds) : ds = cs := by
  fun_induction substituteFrom (tableOf .null) fuel cs generalizing ds with
  | case1 | case2 => exact (Except.ok.inj h).symm
  | case3 fuel c cs hc rest hpath ih =>
    obtain ⟨es, hes, h⟩ := bind_eq_ok.1 h
    rw [← Except.ok.inj h, ih hes]
  | case4 fuel c cs hc path rest hpath ih =>
    obtain ⟨v, hv, -⟩ := bind_eq_ok.1 h
    exact absurd hv (lookup_null _ v)
  | case5 fuel c cs hc ih =>
    obtain ⟨es, hes, h⟩ := bind_eq_ok.1 h
    rw [← Except.ok.inj h, ih hes]

theorem Symbols.substitute_null {s t : String} (h : substitute (tableOf .null) s = .ok t) :
    t = s := by
  obtain ⟨cs, hcs, h⟩ := bind_eq_ok.1 h
  rw [← Except.ok.inj h, substituteFrom_null hcs, String.ofList_toList]

namespace Formula

/-- The terms of a formula without data are nested less deep than it is long. -/
theorem nesting_le_of_parse {s : String} {p : Parsed}
    (h : parse (.str s) .null config = .ok p) : ∀ t ∈ p.terms, t.nesting ≤ s.length := by
  obtain ⟨text, htext, hp⟩ := bind_eq_ok.1 h
  obtain rfl := Symbols.substitute_null htext
  obtain ⟨ts, hts, hp⟩ := bind_eq_ok.1 hp
  obtain rfl := Except.ok.inj hp
  have shorter := length_normalize_le text
  intro t ht
  exact Nat.le_trans (nesting_le_of_readTerms hts t ht) shorter

end Formula

namespace Roll

/-- **Rolls are dealt with level by level.** What holds of the roll of a formula once it holds of the
rolls inside, one level less, holds of it at every level that its terms are not nested beyond. -/
theorem induction_on_nesting {P : Nat → Roll → Prop}
    (step : ∀ fuel {formula data : Value} {options : Options} {p : Formula.Parsed},
      Formula.parse formula data config = .ok p →
      (∀ t ∈ p.terms, ∀ a ∈ t.formulas, ∀ r, ofFormula (.str a) config = .ok r → P fuel r) →
      P (fuel + 1) (ofTerms p.terms options config)) (fuel : Nat) :
    ∀ {formula data : Value} {options : Options} {p : Formula.Parsed},
      Formula.parse formula data config = .ok p → (∀ t ∈ p.terms, t.nesting ≤ fuel) →
      P fuel (ofTerms p.terms options config) := by
  induction fuel with
  | zero =>
    intro formula data options p h nesting
    obtain ⟨t, ht⟩ := List.exists_mem_of_ne_nil _ (Formula.fresh_of_parse h).1
    exact absurd (nesting t ht) (Nat.not_le_of_lt t.nesting_pos)
  | succ fuel ih =>
    intro formula data options p h nesting
    refine step fuel h ?_
    intro t ht a ha r hr
    obtain ⟨q, hq, hr⟩ := bind_eq_ok.1 hr
    obtain rfl := Except.ok.inj hr
    refine ih hq ?_
    intro u hu
    have := Formula.nesting_le_of_parse hq u hu
    have := Term.length_lt_nesting ha
    have := nesting t ht
    omega

end Roll

end DiceFormula
