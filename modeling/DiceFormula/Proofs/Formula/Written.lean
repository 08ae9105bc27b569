import DiceFormula.Proofs.Formula.Inside
import DiceFormula.Proofs.Formula.Pieces

/-!
# Formulas as they are written

The terms of a formula are written one after the other. What they come to is known once it is known
of the values between the signs: if every value, as it is written, is read as some terms
(`Formula.ReadAs`), then the whole is read as these terms with the same signs between them
(`Formula.outline_of_rereads`).
-/

namespace DiceFormula

variable {config : Config}

/-! ## Pieces of terms -/

namespace Term

/-- The group that a term is written with. -/
def group? (t : Term) : Option Group :=
  match t.body with
  | .group source _ => some ⟨.paren, none, source.filled⟩
  | .call fn args _ _ => some ⟨.paren, some fn.text, ",".intercalate args⟩
  | .pool args _ _ => some ⟨.brace, none, ",".intercalate args⟩
  | .number _ | .operator _ | .text _ | .dice _ => none

/-- What is written after the group, all that is written if there is none. -/
def tail (t : Term) : String :=
  match t.body with
  | .group _ _ | .call _ _ _ _ => flavorText t.flavor
  | .pool _ _ hand => hand.written ++ flavorText t.flavor
  | .number _ | .operator _ | .text _ | .dice _ => t.formulaText

/-- The pieces that a term is written with. -/
def pieces (t : Term) : List Piece :=
  t.group?.toList.map Piece.group ++ (Atom.scan t.tail.toList).map Piece.atom

end Term

theorem Piece.written_map_atom (as : List Atom) :
    (as.map Piece.atom).flatMap written = Atom.render as := by
  rw [List.flatMap_map]
  rfl

theorem Term.written_pieces (t : Term) :
    t.pieces.flatMap Piece.written = t.formulaText.toList := by
  rw [pieces, List.flatMap_append, Piece.written_map_atom, Atom.render_scan]
  obtain ⟨body, l, carried⟩ := t
  cases body <;>
    simp [group?, tail, formulaText, written, Piece.written, Group.written, Group.name,
      Bracket.opening, Bracket.closing]

theorem toList_formulaOf (ts : List Term) :
    (formulaOf ts).toList = ts.flatMap fun t => t.formulaText.toList := by
  rw [formulaOf, String.toList_join, List.flatMap_map]

theorem written_flatMap_pieces (ts : List Term) :
    (ts.flatMap Term.pieces).flatMap Piece.written = (formulaOf ts).toList := by
  rw [toList_formulaOf, List.flatMap_assoc]
  simp only [Term.written_pieces]

/-- A value after a sign stays a value of its own. -/
theorem FormulaToken.mergeFrom_value {done : List FormulaToken}
    (h : ∀ t ∈ done.head?, ∃ s, t = sign s) (ps : List Piece) (ts : List FormulaToken) :
    mergeFrom done (value ps :: ts) = mergeFrom (value ps :: done) ts := by
  cases done with
  | nil => rfl
  | cons t done =>
    obtain ⟨s, rfl⟩ := h t rfl
    rfl

theorem FormulaToken.mergeFrom_sign (done : List FormulaToken) (s : Arithmetic.Sign)
    (ts : List FormulaToken) : mergeFrom done (sign s :: ts) = mergeFrom (sign s :: done) ts := by
  cases done with
  | nil => rfl
  | cons t done => cases t <;> rfl

/-! ## Settled texts -/

namespace Formula

/-- The text is normalized already, and has no mark for a group. -/
structure Settled (cs : List Char) : Prop where
  solid : Blank.Solid cs
  dollar : '$' ∉ cs

variable {cs ds : List Char}

theorem Settled.append (hc : Settled cs) (hd : Settled ds) : Settled (cs ++ ds) where
  solid := hc.solid.append hd.solid
  dollar := fun h => (List.mem_append.1 h).elim hc.dollar hd.dollar

theorem Settled.spaced (hc : Settled cs) (hd : Settled ds) (full : cs ≠ []) (full' : ds ≠ []) :
    Settled (cs ++ ' ' :: ds) where
  solid := hc.solid.spaced hd.solid full full'
  dollar := by
    intro h
    rcases List.mem_append.1 h with h | h
    · exact hc.dollar h
    · exact hd.dollar ((List.mem_cons.1 h).resolve_left (by decide))

theorem settled_sign (s : Arithmetic.Sign) : Settled [s.char] where
  solid := Blank.solid_of_forall (List.forall_mem_singleton.2 (by cases s <;> rfl))
  dollar := by cases s <;> decide

/-! ## Values between signs -/

/-- The terms `rs` are one value, which is read as `us` as it is written. -/
structure ReadAs (config : Config) (rs us : List Term) : Prop where
  full : rs.flatMap Term.pieces ≠ []
  whole : ∀ p ∈ rs.flatMap Term.pieces, p.Whole
  inValue : ∀ p ∈ rs.flatMap Term.pieces, p.InValue
  settled : Settled (formulaOf rs).toList
  terms : tokenTerms accept config (.value (rs.flatMap Term.pieces)) = .ok us

/-- Values that are read as others, with the same signs between them. -/
inductive Rereads (config : Config) : List Term → List Term → Prop
  | value {rs us : List Term} : ReadAs config rs us → Rereads config rs us
  | join {rs us ts vs : List Term} (s : Arithmetic.Sign) : ReadAs config rs us →
      Rereads config ts vs →
      Rereads config (rs ++ .make (.operator s) [] config :: ts)
        (us ++ .make (.operator s) [] config :: vs)

theorem ReadAs.text_ne_nil {rs us : List Term} (h : ReadAs config rs us) :
    (formulaOf rs).toList ≠ [] := by
  rw [← written_flatMap_pieces]
  obtain ⟨p, ps, hps⟩ := List.exists_cons_of_ne_nil h.full
  rw [hps, List.flatMap_cons]
  refine List.append_ne_nil_of_left_ne_nil ?_ _
  cases p with
  | atom a => cases a <;> exact List.cons_ne_nil _ _
  | group g => exact List.append_ne_nil_of_right_ne_nil _ (List.cons_ne_nil _ _)

theorem formulaText_operator (s : Arithmetic.Sign) :
    (Term.make (.operator s) [] config).formulaText.toList = [' ', s.char, ' '] := by
  have silent : Term.flavorText (Term.make (.operator s) [] config).flavor = "" := rfl
  rw [Term.formulaText, silent]
  simp [Term.written, Term.make]

theorem pieces_operator (s : Arithmetic.Sign) :
    (Term.make (.operator s) [] config).pieces = FormulaToken.signPieces s := by
  have loose : '[' ∉ [' ', s.char, ' '] := by cases s <;> decide
  have text : (Term.make (.operator s) [] config).tail.toList = [' ', s.char, ' '] ++ [] :=
    formulaText_operator s
  rw [Term.pieces, text, Atom.scan_append_of_not_mem loose, Atom.scan]
  rfl

theorem whole_signPieces (s : Arithmetic.Sign) : ∀ p ∈ FormulaToken.signPieces s, p.Whole := by
  have space : (Piece.atom (.char ' ')).Whole := ⟨by decide, rfl, rfl⟩
  have sign : (Piece.atom (.char s.char)).Whole := by
    cases s <;> exact ⟨by decide, rfl, rfl⟩
  exact List.forall_mem_cons.2 ⟨space, List.forall_mem_cons.2
    ⟨sign, List.forall_mem_singleton.2 space⟩⟩

variable {ts us : List Term}

theorem Rereads.whole (h : Rereads config ts us) : ∀ p ∈ ts.flatMap Term.pieces, p.Whole := by
  induction h with
  | value h => exact h.whole
  | join s h _ ih =>
    rw [List.flatMap_append, List.flatMap_cons, pieces_operator]
    exact List.forall_mem_append.2 ⟨h.whole, List.forall_mem_append.2 ⟨whole_signPieces s, ih⟩⟩

theorem Rereads.settled (h : Rereads config ts us) :
    Settled (formulaOf ts).toList ∧ (formulaOf ts).toList ≠ [] := by
  induction h with
  | value h => exact ⟨h.settled, h.text_ne_nil⟩
  | @join rs us ts vs s h _ ih =>
    have text : (formulaOf (rs ++ .make (.operator s) [] config :: ts)).toList
        = (formulaOf rs).toList ++ ' ' :: ([s.char] ++ ' ' :: (formulaOf ts).toList) := by
      rw [toList_formulaOf, List.flatMap_append, List.flatMap_cons, formulaText_operator,
        ← toList_formulaOf, ← toList_formulaOf]
      rfl
    rw [text]
    have rest := (settled_sign s).spaced ih.1 (List.cons_ne_nil _ _) ih.2
    exact ⟨h.settled.spaced rest h.text_ne_nil (List.cons_ne_nil _ _),
      List.append_ne_nil_of_left_ne_nil h.text_ne_nil _⟩

/-- The tokens of what is written are its values and signs in turn. -/
theorem Rereads.exists_tokens (h : Rereads config ts us) :
    ∃ tokens, FormulaToken.splitFrom [] (ts.flatMap Term.pieces) = tokens
      ∧ (∀ done, (∀ t ∈ done.head?, ∃ s, t = FormulaToken.sign s) →
        FormulaToken.mergeFrom done tokens = done.reverse ++ tokens)
      ∧ allTerms accept config tokens = .ok us := by
  induction h with
  | @value rs us h =>
    refine ⟨[.value (rs.flatMap Term.pieces)], ?_, ?_, ?_⟩
    · have split := FormulaToken.splitFrom_append h.inValue [] []
      rwa [List.append_nil, List.append_nil, FormulaToken.splitFrom_nil (by simpa using h.full),
        List.reverse_reverse] at split
    · intro done hd
      rw [FormulaToken.mergeFrom_value hd, FormulaToken.mergeFrom, List.reverse_cons]
    · rw [allTerms_cons, h.terms]
      simp [allTerms]
  | @join rs us ts vs s h _ ih =>
    obtain ⟨tokens, htokens, merged, hvs⟩ := ih
    refine ⟨.value (rs.flatMap Term.pieces) :: .sign s :: tokens, ?_, ?_, ?_⟩
    · rw [List.flatMap_append, List.flatMap_cons, pieces_operator,
        FormulaToken.splitFrom_append h.inValue, List.append_nil,
        FormulaToken.splitFrom_sign (by simpa using h.full), htokens, List.reverse_reverse]
    · intro done hd
      rw [FormulaToken.mergeFrom_value hd, FormulaToken.mergeFrom_sign, merged, List.reverse_cons,
        List.reverse_cons, List.append_assoc, List.append_assoc]
      · rfl
      · exact fun t ht => ⟨s, (Option.some.inj ht).symm⟩
    · rw [allTerms_cons, allTerms_cons, h.terms, hvs]
      rfl

/-- **What is written is read as its values are**, if no group takes the name of a function that is
not its own, and what it is read as is valid. -/
theorem outline_of_rereads (h : Rereads config ts us)
    (apart : Piece.Apart [] (ts.flatMap Term.pieces)) (valid : validateTerms config us = .ok us) :
    outline config (formulaOf ts) = .ok us := by
  obtain ⟨settled, full⟩ := h.settled
  have normal : normalize (formulaOf ts) = formulaOf ts := by
    rw [normalize, settled.solid.normalize, String.ofList_toList]
  have cut := Piece.ofText_written h.whole apart
  rw [written_flatMap_pieces, String.ofList_toList] at cut
  obtain ⟨tokens, htokens, merged, hus⟩ := h.exists_tokens
  rw [outline, readBy_eq_ok, normal]
  refine ⟨fun e => full (by rw [e]; rfl), settled.dollar, _, us, cut, ?_, valid⟩
  rw [FormulaToken.ofPieces, htokens, merged [] (by simp)]
  exact hus

end Formula

end DiceFormula
