import DiceFormula.Proofs.Arithmetic.Plain
import DiceFormula.Proofs.Formula.Extraction
import DiceFormula.Proofs.Formula.Fresh

/-!
# Plain formulas

What the parser cuts a formula of integers, signs and parentheses into. Cutting out the groups and
splitting at signs and spaces keep the tokens that the text has as plain arithmetic
(`Piece.cut_of_ofText`, `FormulaToken.ofPieces_of_cut`). A value is then made of digits and of
groups in parentheses, whose texts are plain again and shorter than the whole.
-/

namespace DiceFormula

open Arithmetic

/-! ## Plain characters -/

namespace Arithmetic

theorem IsPlain.of_subset {cs ds : List Char} (h : IsPlain cs) (hs : ∀ c ∈ ds, c ∈ cs ∨ c = ' ') :
    IsPlain ds := by
  intro c hc
  rcases hs c hc with hc | rfl
  · exact h c hc
  · decide

theorem IsPlain.trim {cs : List Char} (h : IsPlain cs) : IsPlain (Blank.trim cs) :=
  h.of_subset fun _ hc => .inl (Blank.mem_of_mem_trim hc)

theorem IsPlain.normalize {cs : List Char} (h : IsPlain cs) : IsPlain (Blank.normalize cs) :=
  h.of_subset fun _ hc => Blank.mem_of_mem_squeezeFrom (Blank.mem_of_mem_trim hc)

end Arithmetic

/-- A plain text has no flavors: its atoms are its characters. -/
theorem Atom.scan_of_isPlain {cs : List Char} (h : IsPlain cs) : scan cs = cs.map char := by
  induction cs with
  | nil => simp [scan]
  | cons c cs ih =>
    have hc : c ≠ '[' := by
      rintro rfl
      exact absurd (h '[' List.mem_cons_self) (by decide)
    rw [scan, if_neg hc, ih fun d hd => h d (List.mem_cons_of_mem c hd)]
    rfl

/-! ## Cutting out groups -/

namespace Piece

/-- A piece of a plain formula: a character that is no parenthesis, or a group in parentheses. -/
def IsPlain : Piece → Prop
  | .atom (.char c) => IsPlainChar c ∧ c ≠ '(' ∧ c ≠ ')'
  | .atom (.flavor _) => False
  | .group g => g.bracket = .paren ∧ g.fn = none ∧ Arithmetic.IsPlain g.inner.toList

/-- A piece as it is written. -/
def spelled : Piece → List Char
  | .atom a => a.text
  | .group g => '(' :: (g.inner.toList ++ [')'])

/-- Some pieces as they are written. -/
def spell (ps : List Piece) : List Char := ps.flatMap spelled

theorem spell_cons (p : Piece) (ps : List Piece) : spell (p :: ps) = p.spelled ++ spell ps :=
  List.flatMap_cons

theorem spell_reverse_cons (p : Piece) (ps : List Piece) :
    spell (p :: ps).reverse = spell ps.reverse ++ p.spelled := by
  simp [spell]

theorem not_isAlpha_of_isPlainChar {c : Char} (h : IsPlainChar c) : c.isAlpha = false := by
  rcases h with digit | h
  · exact not_isAlpha_of_isDigit digit
  · simp only [List.mem_cons, List.not_mem_nil, or_false] at h
    rcases h with rfl | rfl | rfl | rfl | rfl | rfl | rfl | rfl <;> rfl

/-- No function is called in a plain formula. -/
theorem takeFunction_of_isPlain {ps : List Piece} (h : ∀ p ∈ ps, p.IsPlain) :
    takeFunction ps = (none, ps) := by
  obtain ⟨gap, head, whole⟩ := head_takeFunction ps
  cases hfn : (takeFunction ps).1 with
  | none =>
    rw [hfn] at head whole
    obtain rfl := head.gap.resolve_right fun called => Bool.false_ne_true called.2
    exact Prod.ext hfn whole.symm
  | some name =>
    obtain ⟨-, c, d, cs, hname, letter, -⟩ := head.name name hfn
    have inName : Piece.atom (.char c) ∈ ps := by
      rw [whole, hfn, Option.getD_some, hname]
      simp
    rw [not_isAlpha_of_isPlainChar (h _ inName).1] at letter
    cases letter

/-- The text of the group that is open, if one is. -/
def pendingText : Option Pending → List Char
  | none => []
  | some p => '(' :: Atom.render p.inner.reverse

/-- The group that is open is one of a plain formula. -/
def Pending.IsPlain (p : Pending) : Prop :=
  p.bracket = .paren ∧ p.fn = none ∧ Arithmetic.IsPlain (Atom.render p.inner.reverse)

theorem render_reverse_cons (c : Char) (as : List Atom) :
    Atom.render (Atom.char c :: as).reverse = Atom.render as.reverse ++ [c] := by
  simp [Atom.render, Atom.text]

/-- A plain text is cut into pieces that have its tokens and are no longer. -/
structure Cut (cs : List Char) (ps : List Piece) : Prop where
  plain : ∀ p ∈ ps, p.IsPlain
  length : (spell ps).length ≤ cs.length
  lex : lex (spell ps) = lex cs

theorem Pending.IsPlain.read {b : Bracket} {fn : Option String} {depth : Nat}
    {inner : List Atom} {c : Char} (h : IsPlain ⟨b, fn, depth, inner⟩) (hc : IsPlainChar c)
    (d : Nat) : IsPlain ⟨b, fn, d, .char c :: inner⟩ := by
  refine ⟨h.1, h.2.1, ?_⟩
  rw [render_reverse_cons]
  exact List.forall_mem_append.2 ⟨h.2.2, List.forall_mem_singleton.2 hc⟩

/-- Trimming the text of a group does not change the tokens around it. -/
theorem lex_group (a inner b : List Char) :
    Arithmetic.lex (a ++ '(' :: (Blank.trim inner ++ ')' :: b))
      = Arithmetic.lex (a ++ '(' :: (inner ++ ')' :: b)) := by
  have opening : Token.ofChar? '(' = some .openParen := rfl
  have closing : Token.ofChar? ')' = some .closeParen := rfl
  simp only [lex_between _ _ opening, lex_between _ _ closing, lex_trim]

theorem eq_paren_of_isPlainChar {b : Bracket} (h : IsPlainChar b.opening) : b = .paren := by
  cases b with
  | paren => rfl
  | brace => exact absurd h (by decide)

/-- Cutting out groups keeps the tokens of a plain text. -/
theorem Extracts.cut {open? : Option Pending} {done : List Piece} {as : List Atom}
    {ps : List Piece} (h : Extracts ps open? done as) (hdone : ∀ p ∈ done, p.IsPlain)
    (hopen : ∀ p ∈ open?, p.IsPlain) (has : ∀ a ∈ as, ∃ c, a = .char c ∧ IsPlainChar c) :
    Cut (spell done.reverse ++ (pendingText open? ++ Atom.render as)) ps := by
  induction h with
  | nil =>
    simp only [pendingText, Atom.render, List.flatMap_nil, List.append_nil, List.reverse_reverse]
    exact ⟨fun p hp => hdone p (List.mem_reverse.2 hp), Nat.le_refl _, rfl⟩
  | @inside b fn depth d inner as a done loose level rest ih =>
    obtain ⟨⟨c, rfl, plain⟩, others⟩ := List.forall_mem_cons.1 has
    have read := (hopen _ rfl).read plain d
    have cut := ih hdone (fun _ hm => Option.some.inj hm ▸ read) others
    simpa [pendingText, Atom.render, Atom.text] using cut
  | @closing b fn inner as done rest ih =>
    obtain ⟨rfl, rfl, plain⟩ := hopen _ rfl
    have text : (Pending.close ⟨.paren, none, 0, inner⟩).inner.toList
        = Blank.trim (Atom.render inner.reverse) := String.toList_ofList
    have closed : (Piece.group (Pending.close ⟨.paren, none, 0, inner⟩)).IsPlain := by
      refine ⟨rfl, rfl, ?_⟩
      rw [text]
      exact plain.trim
    have cut := ih (List.forall_mem_cons.2 ⟨closed, hdone⟩) (fun _ hm => by cases hm)
      (List.forall_mem_cons.1 has).2
    have trimmed : spell (.group (Pending.close ⟨.paren, none, 0, inner⟩) :: done).reverse
          ++ (pendingText none ++ Atom.render as)
        = spell done.reverse
          ++ '(' :: (Blank.trim (Atom.render inner.reverse) ++ ')' :: Atom.render as) := by
      rw [spell_reverse_cons, spelled, text]
      simp [pendingText]
    have whole : spell done.reverse ++ (pendingText (some ⟨.paren, none, 0, inner⟩)
          ++ Atom.render (.char Bracket.paren.closing :: as))
        = spell done.reverse ++ '(' :: (Atom.render inner.reverse ++ ')' :: Atom.render as) := by
      simp [pendingText, Atom.render, Atom.text, Bracket.closing]
    have shorter := Blank.trim_length_le (Atom.render inner.reverse)
    rw [trimmed] at cut
    rw [whole]
    refine ⟨cut.plain, Nat.le_trans cut.length ?_, cut.lex.trans (lex_group ..)⟩
    simp only [List.length_append, List.length_cons]
    omega
  | @opening b as done rest ih =>
    obtain ⟨⟨c, hc, plain⟩, others⟩ := List.forall_mem_cons.1 has
    obtain rfl := Atom.char.inj hc
    obtain rfl := eq_paren_of_isPlainChar plain
    rw [openGroup, takeFunction_of_isPlain hdone] at ih
    have begun : Pending.IsPlain ⟨.paren, none, 0, []⟩ := ⟨rfl, rfl, List.forall_mem_nil _⟩
    have cut := ih hdone (fun _ hm => Option.some.inj hm ▸ begun) others
    simpa [pendingText, Atom.render, Atom.text, Bracket.opening] using cut
  | bare bare rest ih =>
    obtain ⟨⟨c, rfl, plain⟩, others⟩ := List.forall_mem_cons.1 has
    have plain : (Piece.atom (.char c)).IsPlain := by
      refine ⟨plain, ?_, ?_⟩
      · rintro rfl
        cases bare.2.1
      · rintro rfl
        cases bare.2.2
    have cut := ih (List.forall_mem_cons.2 ⟨plain, hdone⟩) (fun _ hm => by cases hm) others
    rw [spell_reverse_cons] at cut
    simpa [Atom.render, pendingText, spelled] using cut

/-- A plain formula is cut into pieces that have its tokens and are no longer. -/
theorem cut_of_ofText {formula : String} {ps : List Piece} (h : ofText formula = .ok ps)
    (plain : Arithmetic.IsPlain formula.toList) : Cut formula.toList ps := by
  rw [ofText_eq_ok_iff, Atom.scan_of_isPlain plain] at h
  have cut := h.cut nofun nofun fun a ha => by
    obtain ⟨c, hc, rfl⟩ := List.mem_map.1 ha
    exact ⟨c, rfl, plain c hc⟩
  rwa [Atom.render_map_char] at cut

end Piece

/-! ## Splitting at signs and spaces -/

namespace Piece

/-- A piece of an operand: a digit, or a group of a plain formula with a text shorter than `n`. -/
def IsOperand (n : Nat) : Piece → Prop
  | .atom (.char c) => c.isDigit = true
  | .atom (.flavor _) => False
  | .group g => (Piece.group g).IsPlain ∧ g.inner.length < n

theorem length_spelled_le {p : Piece} {ps : List Piece} (h : p ∈ ps) :
    p.spelled.length ≤ (spell ps).length := by
  obtain ⟨a, b, rfl⟩ := List.append_of_mem h
  simp [spell]
  omega

/-- The pieces of a cut that are neither signs nor spaces are pieces of operands. -/
theorem Cut.isOperand {cs : List Char} {ps : List Piece} (h : Cut cs ps) {p : Piece} (hp : p ∈ ps)
    (hc : p.InValue) : p.IsOperand cs.length := by
  have plain := h.plain p hp
  match p with
  | .atom (.char c) =>
    obtain ⟨hsign, hspace⟩ := hc c rfl
    rcases plain.1 with hd | hm
    · exact hd
    · simp only [List.mem_cons, List.not_mem_nil, or_false] at hm
      rcases hm with rfl | rfl | rfl | rfl | rfl | rfl | rfl | rfl
      · exact absurd rfl hspace
      · exact absurd rfl plain.2.1
      · exact absurd rfl plain.2.2
      all_goals cases hsign
  | .atom (.flavor _) => exact plain
  | .group g =>
    refine ⟨plain, ?_⟩
    have := Nat.le_trans (length_spelled_le hp) h.length
    simp only [spelled, List.length_cons, List.length_append, List.length_nil,
      String.length_toList] at this
    omega

end Piece

namespace FormulaToken

/-- A token as it is written. -/
def spelled : FormulaToken → List Char
  | sign s => [s.char]
  | value ps => Piece.spell ps

theorem lex_flush (current : List Piece) (rest : List FormulaToken) :
    (flush current rest).flatMap (fun t => lex t.spelled)
      = lex (Piece.spell current.reverse) ++ rest.flatMap fun t => lex t.spelled := by
  unfold flush
  by_cases none : current.isEmpty = true
  · rw [if_pos none, List.isEmpty_iff.1 none]
    rfl
  · rw [if_neg none]
    rfl

theorem ofChar?_of_sign {c : Char} {s : Sign} (h : Sign.ofChar? c = some s) :
    Token.ofChar? c = some (.sign s) := by
  obtain rfl := Sign.char_of_ofChar? h
  cases s <;> rfl

/-- Splitting keeps the tokens of plain arithmetic. -/
theorem lex_splitFrom (current ps : List Piece) :
    (splitFrom current ps).flatMap (fun t => lex t.spelled)
      = lex (Piece.spell current.reverse ++ Piece.spell ps) := by
  fun_induction splitFrom current ps with
  | case1 current =>
    rw [lex_flush]
    simp [Piece.spell]
  | case2 current c ps s hs ih =>
    have ht := ofChar?_of_sign hs
    have hc := Sign.char_of_ofChar? hs
    rw [lex_flush, List.flatMap_cons, ih, Piece.spell_cons, Piece.spelled, Atom.text,
      List.singleton_append, lex_between _ _ ht, spelled, hc, lex_cons _ ht]
    rfl
  | case3 current c ps hs hb ih =>
    obtain rfl : c = ' ' := by simpa using hb
    rw [lex_flush, ih, Piece.spell_cons, Piece.spelled, Atom.text, List.singleton_append, lex_space]
    rfl
  | case4 current c ps hs hb ih =>
    rw [ih, Piece.spell_reverse_cons, Piece.spell_cons, List.append_assoc]
  | case5 current p ps hchar ih =>
    rw [ih, Piece.spell_reverse_cons, Piece.spell_cons, List.append_assoc]

theorem flavorOnly?_of_isOperand {n : Nat} {ps : List Piece} (h : ∀ p ∈ ps, p.IsOperand n) :
    flavorOnly? ps = none := by
  unfold flavorOnly?
  split
  · exact (h _ List.mem_cons_self).elim
  · exact (h _ List.mem_cons_self).elim
  · rfl

/-- Without flavors there is nothing to merge. -/
theorem mergeFrom_of_within {n : Nat} {done ts : List FormulaToken}
    (h : ∀ t ∈ ts, t.Within (Piece.IsOperand n)) : mergeFrom done ts = done.reverse ++ ts := by
  fun_induction mergeFrom done ts with
  | case1 done => simp
  | case2 qs done ps ts hf ih =>
    rw [flavorOnly?_of_isOperand (h _ List.mem_cons_self)] at hf
    cases hf
  | case3 qs done ps ts hf ih => simp [ih (List.forall_mem_cons.1 h).2]
  | case4 done t ts hn ih => simp [ih (List.forall_mem_cons.1 h).2]

/-- The tokens of a cut: their pieces are those of operands, and they have the tokens of the
text. -/
theorem ofPieces_of_cut {cs : List Char} {ps : List Piece} (h : Piece.Cut cs ps) :
    (∀ t ∈ ofPieces ps, t.Within (Piece.IsOperand cs.length))
      ∧ (ofPieces ps).flatMap (fun t => lex t.spelled) = lex cs := by
  have within : ∀ t ∈ splitFrom [] ps, t.Within (Piece.IsOperand cs.length) :=
    within_splitFrom nofun fun p hp hc => h.isOperand hp hc
  rw [ofPieces, mergeFrom_of_within within]
  refine ⟨within, ?_⟩
  rw [← h.lex]
  exact lex_splitFrom [] ps

end FormulaToken

theorem Arithmetic.Sign.ofChar?_of_isDigit {c : Char} (h : c.isDigit = true) :
    ofChar? c = none := by
  cases hs : ofChar? c with
  | none => rfl
  | some s =>
    rw [Token.not_isDigit_of_ofChar? (FormulaToken.ofChar?_of_sign hs)] at h
    cases h

end DiceFormula
