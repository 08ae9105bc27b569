import DiceFormula.Proofs.Formula.Values

/-!
# Formulas that are printed

The terms of a formula that has no texts alternate, so their values stand alone between signs, and
each of them is read as itself. Hence **what is printed of a formula is read as the same terms**
(`Formula.parseTerms_formulaOf`).
-/

namespace DiceFormula

variable {config : Config} {check : String → Except Error Unit}

namespace Formula

/-- The operators of a formula have no options. -/
theorem exists_operator_of_stands {ps : List Piece} {t : Term} (h : Stands check config ps t)
    (operator : t.isOperator = true) : ∃ s, t = .make (.operator s) [] config := by
  cases h with
  | zero => cases operator
  | operator s => exact ⟨s, rfl⟩
  | leaf full text read =>
    cases Leaf.classified_of_classify read with
    | @operator _ s => exact ⟨s, rfl⟩
    | number | text => cases operator
    | dice _ hd =>
      rcases Leaf.cases_of_ofDice hd with ⟨-, rfl⟩ | ⟨-, kind, -, rfl⟩ <;> cases operator
  | group mem follows h =>
    cases grouped_of_groupTerm h with
    | group | call | pool => cases operator

/-- Terms that alternate, with a value at either end, are valid as they are. -/
theorem validateTerms_eq_ok {t : Term} {ts : List Term} (head : ts.head? = some t)
    (value : t.sign? = none) (last : ts.getLast?.bind Term.sign? = none)
    (alternates : alternate ts = .ok ()) : validateTerms config ts = .ok ts := by
  rw [validateTerms, withLeadingZero, head]
  dsimp only
  rw [value]
  dsimp only
  rw [bind_ok, last]
  dsimp only
  rw [alternates]
  rfl

variable {ts : List Term}

theorem rereads_of_alternates (h : Alternates ts)
    (values : ∀ t ∈ ts, t.isOperator = false → ReadAs config [t] [t])
    (operators : ∀ t ∈ ts, t.isOperator = true → ∃ s, t = .make (.operator s) [] config) :
    Rereads config ts ts := by
  induction h with
  | value ht => exact .value (values _ List.mem_cons_self ht)
  | @join t o ts ht ho _ ih =>
    obtain ⟨value, rest⟩ := List.forall_mem_cons.1 values
    obtain ⟨-, rest'⟩ := List.forall_mem_cons.1 operators
    obtain ⟨s, rfl⟩ := rest' o List.mem_cons_self ho
    refine @Rereads.join config [t] [t] ts ts s (value ht) (ih ?_ ?_)
    · exact fun u hu => rest u (List.mem_cons_of_mem _ hu)
    · exact fun u hu => rest' u (List.mem_cons_of_mem _ hu)

/-- After a space, the group of a term takes its own function. -/
theorem apart_pieces {t : Term} {done ps : List Piece} (whole : ∀ p ∈ t.pieces, p.Whole)
    (free : Piece.Free done) (h : Piece.Apart (t.pieces.reverse ++ done) ps) :
    Piece.Apart done (t.pieces ++ ps) := by
  unfold Term.pieces at *
  cases hg : t.group? with
  | none =>
    rw [hg] at h
    refine Piece.apart_append_atoms.2 ?_
    simpa using h
  | some g =>
    rw [hg] at h whole
    have intact : g.Intact := whole (.group g) List.mem_cons_self
    refine ⟨Piece.openGroup_of_free intact free, Piece.apart_append_atoms.2 ?_⟩
    simpa using h

theorem apart_of_alternates (h : Alternates ts)
    (whole : ∀ p ∈ ts.flatMap Term.pieces, p.Whole)
    (operators : ∀ t ∈ ts, t.isOperator = true → ∃ s, t = .make (.operator s) [] config)
    {done : List Piece} (free : Piece.Free done) : Piece.Apart done (ts.flatMap Term.pieces) := by
  induction h generalizing done with
  | @value t ht =>
    rw [List.flatMap_cons] at whole ⊢
    exact apart_pieces (List.forall_mem_append.1 whole).1 free trivial
  | @join t o ts ht ho _ ih =>
    obtain ⟨-, rest⟩ := List.forall_mem_cons.1 operators
    obtain ⟨s, rfl⟩ := rest o List.mem_cons_self ho
    rw [List.flatMap_cons, List.flatMap_cons, pieces_operator] at whole ⊢
    obtain ⟨first, whole⟩ := List.forall_mem_append.1 whole
    obtain ⟨-, whole⟩ := List.forall_mem_append.1 whole
    refine apart_pieces first free ?_
    refine ih whole (fun u hu => rest u (List.mem_cons_of_mem _ hu)) ?_
    rintro p ⟨⟩
    rfl

/-- The values of a formula, if each of them can be read again, are read as the same terms. -/
theorem parseTerms_formulaOf_of_printed {formula : String} (h : parseTerms config formula = .ok ts)
    (known : ∀ t ∈ ts, t.isText = false)
    (printed : ∀ t ∈ ts, t.isOperator = false → Printed config t) :
    parseTerms config (formulaOf ts) = .ok ts := by
  obtain ⟨outline, inner⟩ := reads_iff.1 (parseTerms_eq_ok.1 h)
  have alternates := (spaced_of_readTerms h).2 known
  obtain ⟨ps, hps, stands⟩ := stands_of_readBy outline
  obtain ⟨-, -, _, us, -, -, valid⟩ := readBy_eq_ok.1 outline
  have operators := fun t ht => exists_operator_of_stands (stands t ht)
  have rereads := rereads_of_alternates alternates
    (fun t ht value => (printed t ht value).readAs (known t ht)) operators
  have apart := apart_of_alternates alternates rereads.whole operators
    (fun p hp => (by cases hp) : Piece.Free [])
  refine parseTerms_eq_ok.2 (reads_iff.2 ⟨?_, inner⟩)
  obtain ⟨-, ⟨t, head, value⟩, last, valid⟩ := of_validateTerms valid
  exact outline_of_rereads rereads apart (validateTerms_eq_ok head value last valid)

/-- **What is printed of a formula is read as the same terms**, if all its values are known and its
numbers are integers. -/
theorem parseTerms_formulaOf (own : config.OwnLetters) {formula : String}
    (h : parseTerms config formula = .ok ts) (known : ∀ t ∈ ts, t.isText = false)
    (integral : ∀ t ∈ ts, t.isIntegral = true) : parseTerms config (formulaOf ts) = .ok ts := by
  obtain ⟨outline, -⟩ := reads_iff.1 (parseTerms_eq_ok.1 h)
  obtain ⟨ps, hps, stands⟩ := stands_of_readBy outline
  obtain ⟨-, dollar, -⟩ := readBy_eq_ok.1 outline
  exact parseTerms_formulaOf_of_printed h known fun t ht value =>
    printed_of_stands own hps dollar (stands t ht) value (integral t ht)

theorem parseTerms_formulaOf_spelled :
    ∃ ts, parseTerms .default "-02D006x>4 [fire]+( 1+ 2 )*max( 1 ,2d4)%\x7b1, 2d6 \x7d5kh[a  b]"
        = .ok ts
      ∧ formulaOf ts = "0 - 2d6x>4[fire] + (1+ 2) * max(1,2d4) % \x7b1,2d6\x7dkh[a b]"
      ∧ parseTerms .default (formulaOf ts) = .ok ts := by
  obtain ⟨ts, h, hcheck⟩ := @exists_ok_of_any _ _
    (parseTerms .default "-02D006x>4 [fire]+( 1+ 2 )*max( 1 ,2d4)%\x7b1, 2d6 \x7d5kh[a  b]")
    (fun ts => ts.all (fun t => !t.isText && t.isIntegral)
      && formulaOf ts == "0 - 2d6x>4[fire] + (1+ 2) * max(1,2d4) % \x7b1,2d6\x7dkh[a b]")
    (by decide +kernel)
  obtain ⟨terms, printed⟩ := Bool.and_eq_true_iff.1 hcheck
  have each := fun t ht => Bool.and_eq_true_iff.1 (List.all_eq_true.1 terms t ht)
  exact ⟨ts, h, beq_iff_eq.1 printed, parseTerms_formulaOf Config.ownLetters_default h
    (fun t ht => by simpa using (each t ht).1) fun t ht => (each t ht).2⟩

end Formula

end DiceFormula
