import DiceFormula.Proofs.Formula.Printing
import DiceFormula.Proofs.Number.Shortest

/-!
# Decimals in formulas

A fraction that is written without an exponent is one numeral of the formula language, so that its
text is read as one number, which is the fraction (`Formula.fraction_reads_back`): as a formula of
its own, as the value of a symbol, and wherever it is printed as part of a formula. Below one
ten-thousandth the text has an exponent, which the language does not know: its sign is read as an
operator (`Formula.small_fraction_is_torn`).
-/

namespace DiceFormula

open Arithmetic

variable {config : Config} {check : String → Except Error Unit}

namespace Fraction

variable {x : Float}

/-! ## Texts of fractions -/

theorem formulaText_eq (h : Fraction x) : (Number.float x).formulaText = floatText x := by
  obtain ⟨d, hd⟩ := Option.isSome_iff_exists.1 h.finite
  have broken := h.broken
  rw [isIntegral, hd, Option.any_some] at broken
  rw [Number.formulaText, hd]
  dsimp only
  rw [broken, if_neg Bool.false_ne_true]

/-- A fraction is spliced into a formula without parentheses. -/
theorem splice_eq (h : Fraction x) : (Value.num (.float x)).splice = floatText x := by
  obtain ⟨m, e, hd, pos, broken, -⟩ := h.exists_value
  have positive : (Number.float x).isNegative = false := by
    have compared : Dyadic.compareInt 0 ⟨m, e⟩ = .lt := by
      rw [Dyadic.compareInt, if_neg (not_le.2 broken), zero_mul]
      exact compare_lt_iff_lt.2 (Int.natCast_pos.2 pos)
    show (Number.compare? (.float x) (.int 0) == some .lt) = false
    rw [Number.compare?, Number.compare?.compareFloat, hd]
    dsimp only
    rw [compared]
    rfl
  rw [Value.splice, positive, if_neg Bool.false_ne_true, h.formulaText_eq]

/-! ## One numeral -/

/-- Digits with a point between them, and a flavor, are a number. -/
theorem readNumeral?_text (h : Fraction x) {flavor : Option (List Char)}
    (isFlavor : Leaf.IsFlavor flavor) :
    Leaf.readNumeral? ((floatText x).toList ++ Leaf.flavorChars flavor)
      = some (.float x, flavor) := by
  obtain ⟨w, f, text, whole, frac, read⟩ := h.exists_text
  have point : NoDigit ('.' :: (f ++ Leaf.flavorChars flavor)) := .cons rfl
  have ends := Leaf.noDigit_flavorChars flavor
  have full : w.isEmpty = false := by simpa using whole.1
  have full' : f.isEmpty = false := by simpa using frac.1
  have broken : (w ++ '.' :: f).all Char.isDigit = false := by
    simp
  rw [text, List.append_assoc, List.cons_append]
  simp only [Leaf.readNumeral?, takeWhile_digits whole.2 point, List.drop_left,
    takeWhile_digits frac.2 ends, full', Bool.false_eq_true, if_false,
    Leaf.takeFlavor_flavorChars isFlavor, full, Leaf.isEnd, Token.numeralValue, broken, read]
  rfl

theorem classify_text (h : Fraction x) {flavor : Option (List Char)}
    (isFlavor : Leaf.IsFlavor flavor) :
    Leaf.classify (String.ofList ((floatText x).toList ++ Leaf.flavorChars flavor)) config false
      = .ok (.make (.number (.float x)) (Options.ofFlavor flavor) config) := by
  obtain ⟨w, f, text, whole, -⟩ := h.exists_text
  obtain ⟨c, cs, rfl⟩ := List.exists_cons_of_ne_nil whole.1
  have digit : c.isDigit = true := whole.2 c List.mem_cons_self
  rw [Leaf.classify_eq_leaf (by rw [String.toList_ofList, text]; rfl)
    (Sign.ofChar?_of_isDigit digit), Leaf.classify.leaf, String.toList_ofList,
    h.readNumeral?_text isFlavor]
  rfl

theorem tidy_point : (Atom.char '.').Tidy where
  outside := ⟨by decide, rfl, rfl⟩
  inValue := by
    rintro c ⟨⟩
    decide
  settled := ⟨Blank.solid_of_forall (List.forall_mem_singleton.2 rfl), by decide⟩

theorem toList_formulaText (h : Fraction x) {flavor : Option (List Char)}
    (isFlavor : Leaf.IsFlavor flavor) :
    (Term.make (.number (.float x)) (Options.ofFlavor flavor) config).formulaText.toList
      = (floatText x).toList ++ Leaf.flavorChars flavor := by
  have number : (Term.make (.number (.float x)) (Options.ofFlavor flavor) config).written
      = floatText x := h.formulaText_eq
  rw [Term.formulaText, String.toList_append, number]
  exact congrArg _ (Leaf.toList_flavorText isFlavor)

/-- **A fraction is printed so that it can be read again.** -/
theorem printed (h : Fraction x) {flavor : Option (List Char)} (isFlavor : Leaf.IsFlavor flavor)
    (tidy : ∀ f ∈ flavor, (Atom.flavor f).Tidy) :
    Formula.Printed config (.make (.number (.float x)) (Options.ofFlavor flavor) config) := by
  obtain ⟨w, f, digits, whole, frac, -⟩ := h.exists_text
  have text := @toList_formulaText config x h flavor isFlavor
  refine .leaf rfl rfl ?_ ?_ ?_
  · intro empty
    rw [empty, digits] at text
    simp at text
  · have digit {cs : List Char} (hcs : IsDigits cs) : ∀ c ∈ cs, (Atom.char c).Tidy := by
      intro c hc
      refine Atom.tidy_of_isAlphanum ?_
      rw [Char.isAlphanum, hcs c hc, Bool.or_true]
    rw [text]
    refine Leaf.tidy_scan isFlavor ?_ tidy
    rw [digits]
    exact List.forall_mem_append.2 ⟨digit whole.2, List.forall_mem_cons.2
      ⟨tidy_point, digit frac.2⟩⟩
  · rw [String.toList_inj.1 (text.trans String.toList_ofList.symm)]
    exact h.classify_text isFlavor

end Fraction

namespace Formula

variable {x : Float} {ts : List Term}

/-! ## Formulas with fractions -/

/-- A number of a formula with its flavor. -/
theorem exists_flavor_of_stands {ps : List Piece} (tidy : ∀ a, InText ps a → a.Tidy) {t : Term}
    (h : Stands check config ps t) {y : Float} (body : t.body = .number (.float y)) :
    ∃ flavor, t = .make (.number (.float y)) (Options.ofFlavor flavor) config
      ∧ Leaf.IsFlavor flavor ∧ ∀ f ∈ flavor, (Atom.flavor f).Tidy := by
  cases h with
  | zero | operator => cases body
  | @leaf as adjacent t full text read =>
    have classified := Leaf.classified_of_classify read
    rw [String.toList_ofList] at classified
    cases classified with
    | operator | text => cases body
    | @number n flavor numeral =>
      obtain rfl : n = .float y := Body.number.inj body
      obtain ⟨-, isFlavor, before, rest, parts, loose⟩ := Leaf.of_readNumeral? numeral
      have tidy := fun a ha => tidy a (text a ha)
      exact ⟨flavor, rfl, isFlavor, (Leaf.tidy_of_render tidy parts loose isFlavor).2⟩
    | dice _ hd =>
      rcases Leaf.cases_of_ofDice hd with ⟨-, rfl⟩ | ⟨-, kind, -, rfl⟩ <;> cases body
  | group mem follows h =>
    cases grouped_of_groupTerm h with
    | group | call | pool => cases body

/-- **What is printed of a formula is read as the same terms**, if its numbers are integers or
fractions that are not too small. -/
theorem parseTerms_formulaOf_of_fractions (own : config.OwnLetters) {formula : String}
    (h : parseTerms config formula = .ok ts) (known : ∀ t ∈ ts, t.isText = false)
    (numbers : ∀ t ∈ ts, ∀ y, t.body = .number (.float y) → Fraction y) :
    parseTerms config (formulaOf ts) = .ok ts := by
  obtain ⟨outline, -⟩ := reads_iff.1 (parseTerms_eq_ok.1 h)
  obtain ⟨ps, hps, stands⟩ := stands_of_readBy outline
  obtain ⟨-, dollar, -⟩ := readBy_eq_ok.1 outline
  refine parseTerms_formulaOf_of_printed h known fun t ht value => ?_
  cases integral : t.isIntegral with
  | true => exact printed_of_stands own hps dollar (stands t ht) value integral
  | false =>
    obtain ⟨y, body⟩ : ∃ y, t.body = .number (.float y) := by
      unfold Term.isIntegral at integral
      split at integral
      · next y body => exact ⟨y, body⟩
      · cases integral
    obtain ⟨flavor, rfl, isFlavor, tidy⟩ :=
      exists_flavor_of_stands (fun a ha => ha.tidy hps dollar) (stands t ht) body
    exact (numbers _ ht y body).printed isFlavor tidy

theorem formulaOf_fraction (h : Fraction x) :
    formulaOf [Term.make (.number (.float x)) [] config] = floatText x := by
  have noFlavor : Leaf.IsFlavor none := fun f hf => by cases hf
  rw [← String.toList_inj, toList_formulaOf, List.flatMap_singleton]
  exact (h.toList_formulaText noFlavor).trans (List.append_nil _)

/-- The text of a fraction is a formula of one number. -/
theorem reads_fraction (h : Fraction x) :
    Reads config (floatText x) [.make (.number (.float x)) [] config]
      ∧ normalize (floatText x) = floatText x := by
  have noFlavor : Leaf.IsFlavor none := fun f hf => by cases hf
  have printed := @Fraction.printed config x h none noFlavor fun f hf => by cases hf
  have readAs : ReadAs config [.make (.number (.float x)) [] config]
    [.make (.number (.float x)) [] config] := printed.readAs rfl
  have settled := readAs.settled
  have apart := @apart_of_alternates config _ (.value rfl) readAs.whole
    (fun t ht operator => by
      rw [List.mem_singleton.1 ht] at operator
      cases operator) [] nofun
  have outline := outline_of_rereads (.value readAs) apart (validateTerms_eq_ok rfl rfl rfl rfl)
  rw [formulaOf_fraction h] at settled outline
  refine ⟨reads_iff.2 ⟨outline, ?_⟩, ?_⟩
  · refine List.forall_mem_singleton.2 ?_
    rw [Term.formulas_of_isLeaf rfl]
    exact List.forall_mem_nil _
  · rw [normalize, settled.solid.normalize, String.ofList_toList]

/-- A fraction that is the value of a symbol is put in its place. -/
theorem substitute_fraction (h : Fraction x) :
    Symbols.substitute (.mapping [("v", .num (.float x))]) "@v" = .ok (floatText x) := by
  have value : Symbols.lookup (.mapping [("v", .num (.float x))]) "v" = .ok (.num (.float x)) := rfl
  have path : Symbols.takePath 2 ['v'] = (['v'], []) := by decide
  simp [Symbols.substitute, Symbols.substituteFrom, path, value, h.splice_eq]

theorem not_mem_floatText (h : Fraction x) : '@' ∉ (floatText x).toList := by
  obtain ⟨w, f, text, whole, frac, -⟩ := h.exists_text
  have digits {cs : List Char} (hcs : IsDigits cs) : '@' ∉ cs := fun hm =>
    absurd (hcs _ hm) (by decide)
  rw [text]
  simp only [List.mem_append, List.mem_cons, not_or]
  exact ⟨digits whole.2, by decide, digits frac.2⟩

/-- **A fraction that is not too small is read back from its text**: where it is a formula of its
own, where it is the value of a symbol, and where it is printed as part of a formula. -/
theorem fraction_reads_back (own : config.OwnLetters) (h : Fraction x) :
    (Number.float x).formulaText = floatText x ∧ (Value.num (.float x)).splice = floatText x
      ∧ (∀ data, parse (.str (floatText x)) data config
        = .ok ⟨floatText x, [.make (.number (.float x)) [] config]⟩)
      ∧ Roll.create (.str "@v") (.mapping [("v", .num (.float x))]) .null config
        = .ok (Roll.ofTerms [.make (.number (.float x)) [] config] [] config)
      ∧ ∀ formula ts, parseTerms config formula = .ok ts → (∀ t ∈ ts, t.isText = false) →
        (∀ t ∈ ts, ∀ y, t.body = .number (.float y) → y = x ∨ Fraction y) →
        parseTerms config (formulaOf ts) = .ok ts := by
  obtain ⟨reads, settled⟩ := @reads_fraction config x h
  refine ⟨h.formulaText_eq, h.splice_eq, fun data => ?_, ?_, fun formula ts hts known numbers => ?_⟩
  · exact (parse_eq_ok (not_mem_floatText h)).2 ⟨settled.symm, reads⟩
  · have parsed := parseTerms_eq_ok.2 reads
    simp only [Roll.create, parse, Symbols.tableOf, substitute_fraction h, bind_ok, settled, parsed]
    rfl
  · refine parseTerms_formulaOf_of_fractions own hts known fun t ht y body => ?_
    rcases numbers t ht y body with rfl | fraction
    · exact h
    · exact fraction

theorem fraction_reads_back_tenth :
    Fraction 0.1 ∧ Roll.create (.str "@v") (.mapping [("v", .num (.float 0.1))]) .null .default
      = .ok (Roll.ofTerms [.make (.number (.float 0.1)) [] .default] [] .default) := by
  have h : Fraction 0.1 := ⟨by decide +kernel, by decide +kernel, by decide +kernel⟩
  exact ⟨h, (fraction_reads_back Config.ownLetters_default h).2.2.2.1⟩

/-- The text of a smaller fraction has an exponent, and is torn apart at its sign. -/
theorem small_fraction_is_torn :
    ((Dyadic.ofFloat? 0.00001).isSome = true ∧ isIntegral 0.00001 = false ∧ (0.0 : Float) ≤ 0.00001)
      ∧ (Number.float 0.00001).formulaText = "1e-05"
      ∧ (Value.num (.float 0.00001)).splice = "1e-05"
      ∧ ∃ p, parse (.str "1e-05") .null .default = .ok p
        ∧ p.terms.map Term.termClass = [.text, .operator, .number] := by
  refine ⟨by decide +kernel, by decide +kernel, by decide +kernel, ?_⟩
  obtain ⟨p, hp, classes⟩ := @exists_ok_of_any _ _ (parse (.str "1e-05") .null .default)
    (fun p => p.terms.map Term.termClass == [.text, .operator, .number]) (by decide +kernel)
  exact ⟨p, hp, beq_iff_eq.1 classes⟩

end Formula

end DiceFormula
