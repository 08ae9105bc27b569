import DiceFormula.Proofs.Formula.Groups
import DiceFormula.Proofs.Formula.Reading
import DiceFormula.Proofs.Text.Solid

/-!
# Pieces as they are written

Pieces that are written down are cut out of the text again (`Piece.ofText_written`), under two
conditions. Every piece must be whole (`Piece.Whole`): brackets match in a group, and no bracket
stands outside of one. And what stands before a group must not be taken for the name of a function,
or be part of it (`Piece.Apart`): `max (1)` is written `max(1)`, which is a call. Values with signs
between them become the tokens they were (`FormulaToken.splitFrom_append`).
-/

namespace DiceFormula

/-! ## Writing pieces -/

/-- The name of the function, nothing if there is none. -/
def Group.name (g : Group) : List Char := (g.fn.getD "").toList

/-- A group as it is written. -/
def Group.written (g : Group) : List Char :=
  g.name ++ g.bracket.opening :: (g.inner.toList ++ [g.bracket.closing])

/-- A piece as it is written. -/
def Piece.written : Piece → List Char
  | atom a => a.text
  | group g => g.written

/-- Brackets match in the group, there is no white space around its text, and its function has a
name. -/
structure Group.Intact (g : Group) : Prop where
  loose : Atom.char '[' ∉ Atom.scan g.inner.toList
  level : g.bracket.level 0 (Atom.scan g.inner.toList) = some 0
  solid : Blank.Solid g.inner.toList
  fn : ∀ name, g.fn = some name → g.bracket = .paren ∧ IsName name.toList

/-- The piece can be told from its neighbours by its brackets. -/
def Piece.Whole : Piece → Prop
  | atom a => a.Outside
  | group g => g.Intact

/-- A name has letters and digits only. -/
theorem Group.Intact.name {g : Group} (h : g.Intact) : ∀ c ∈ g.name, c.isAlphanum = true := by
  intro c hc
  rw [Group.name] at hc
  cases hf : g.fn with
  | none =>
    rw [hf] at hc
    exact absurd hc List.not_mem_nil
  | some name =>
    rw [hf] at hc
    obtain ⟨-, -, -, -, -, -, alphanum⟩ := h.fn name hf
    exact alphanum c hc

theorem Atom.outside_of_isAlphanum {c : Char} (h : c.isAlphanum = true) : (char c).Outside := by
  have ne {d : Char} (hd : d.isAlphanum = false) : c ≠ d := by
    rintro rfl
    rw [hd] at h
    cases h
  have open1 : c ≠ '(' := ne rfl
  have open2 : c ≠ '\x7b' := ne rfl
  have close1 : c ≠ ')' := ne rfl
  have close2 : c ≠ '\x7d' := ne rfl
  refine ⟨ne rfl, ?_, ?_⟩
  · simp [Bracket.ofOpening?, Bracket.opening, open1.symm, open2.symm]
  · simp [Bracket.isClosing, Bracket.closing, close1.symm, close2.symm]

namespace Piece

/-! ## Cutting out what was written -/

/-- Every group takes the name of its function, and nothing else, from what stands before it; `done`
are the pieces before, last one first. -/
def Apart : List Piece → List Piece → Prop
  | _, [] => True
  | done, .atom a :: ps => Apart (.atom a :: done) ps
  | done, .group g :: ps =>
    openGroup g.bracket (g.name.reverse.map (fun c => .atom (.char c)) ++ done)
        = (⟨g.bracket, g.fn, 0, []⟩, done)
      ∧ Apart (.group g :: done) ps

deriving instance DecidableEq for Pending

instance decidableApart : (done ps : List Piece) → Decidable (Apart done ps)
  | _, [] => isTrue trivial
  | done, .atom a :: ps => decidableApart (.atom a :: done) ps
  | done, .group g :: ps =>
    have := decidableApart (.group g :: done) ps
    inferInstanceAs (Decidable (_ ∧ _))

theorem extract_append {text : String} {done : List Piece} {as : List Atom}
    (h : ∀ a ∈ as, a.Outside) (bs : List Atom) :
    extract text none done (as ++ bs)
      = extract text none (as.reverse.map Piece.atom ++ done) bs := by
  induction as generalizing done with
  | nil => rfl
  | cons a as ih =>
    obtain ⟨ha, has⟩ := List.forall_mem_cons.1 h
    rw [List.cons_append, extract_bare ha.bare, ih has]
    simp

/-- What stands inside a group is read up to its end. -/
theorem extract_inner {text : String} {b : Bracket} {fn : Option String} {depth d : Nat}
    {done : List Piece} {inner as : List Atom} (loose : Atom.char '[' ∉ as)
    (h : b.level depth as = some d) (bs : List Atom) :
    extract text (some ⟨b, fn, depth, inner⟩) done (as ++ bs)
      = extract text (some ⟨b, fn, d, as.reverse ++ inner⟩) done bs := by
  induction as generalizing depth inner with
  | nil => rw [← Option.some.inj h]; rfl
  | cons a as ih =>
    obtain ⟨ha, has⟩ := List.ne_and_not_mem_of_not_mem_cons loose
    rw [← List.singleton_append, Bracket.level_append] at h
    obtain ⟨depth', level, h⟩ := Option.bind_eq_some_iff.1 h
    rw [List.cons_append, extract_inside ha.symm level, ih has h, reverse_append_cons]

theorem scan_enclosed (b : Bracket) {cs : List Char} (loose : Atom.char '[' ∉ Atom.scan cs)
    (more : List Char) :
    Atom.scan (b.opening :: (cs ++ b.closing :: more))
      = .char b.opening :: (Atom.scan cs ++ .char b.closing :: Atom.scan more) := by
  rw [Atom.scan, if_neg b.opening_ne, Atom.scan_append loose, Atom.scan, if_neg b.closing_ne]

/-- **What stands in brackets is cut out as a group**, without the white space around it. -/
theorem extract_enclosed {text : String} {b : Bracket} {fn : Option String}
    {done rest : List Piece} {as : List Atom} (loose : Atom.char '[' ∉ as)
    (level : b.level 0 as = some 0) (opened : openGroup b done = (⟨b, fn, 0, []⟩, rest))
    (more : List Atom) :
    extract text none done (.char b.opening :: (as ++ .char b.closing :: more))
      = extract text none
        (.group ⟨b, fn, String.ofList (Blank.trim (Atom.render as))⟩ :: rest) more := by
  rw [extract_opening, opened, extract_inner loose level, extract_closing, Pending.close,
    List.append_nil, List.reverse_reverse]

/-- **A group is cut out as it was written**, with its function. -/
theorem extract_group {text : String} {done : List Piece} {g : Group} (h : g.Intact)
    (apart : openGroup g.bracket (g.name.reverse.map (fun c => .atom (.char c)) ++ done)
      = (⟨g.bracket, g.fn, 0, []⟩, done)) (more : List Char) :
    extract text none done (Atom.scan (g.written ++ more))
      = extract text none (.group g :: done) (Atom.scan more) := by
  have names : ∀ a ∈ g.name.map Atom.char, a.Outside := by
    intro a ha
    obtain ⟨c, hc, rfl⟩ := List.mem_map.1 ha
    exact Atom.outside_of_isAlphanum (h.name c hc)
  have plain : '[' ∉ g.name := fun hm => absurd (h.name _ hm) (by decide)
  have name : (g.name.map Atom.char).reverse.map Piece.atom
      = g.name.reverse.map fun c => .atom (.char c) := by
    rw [← List.map_reverse, List.map_map]
    rfl
  rw [Group.written, List.append_assoc, Atom.scan_append_of_not_mem plain, List.cons_append,
    List.append_assoc, List.singleton_append, scan_enclosed _ h.loose, extract_append names,
    extract_enclosed h.loose h.level (name ▸ apart), Atom.render_scan, h.solid.trim,
    String.ofList_toList]

/-- Pieces that are written before some text are cut out of it. -/
theorem extract_written {text : String} {done ps : List Piece} (whole : ∀ p ∈ ps, p.Whole)
    (apart : Apart done ps) (more : List Char) :
    extract text none done (Atom.scan (ps.flatMap written ++ more))
      = extract text none (ps.reverse ++ done) (Atom.scan more) := by
  induction ps generalizing done with
  | nil => rfl
  | cons p ps ih =>
    obtain ⟨hp, hps⟩ := List.forall_mem_cons.1 whole
    rw [List.flatMap_cons, List.append_assoc, List.reverse_cons, List.append_assoc]
    cases p with
    | atom a =>
      have outside : a.Outside := hp
      rw [written, outside.neat.scan_append, extract_bare outside.bare, ih hps apart]
      rfl
    | group g =>
      rw [written, extract_group hp apart.1, ih hps apart.2]
      rfl

/-- **Pieces are cut out of a formula as they were written.** -/
theorem ofText_written {ps : List Piece} (whole : ∀ p ∈ ps, p.Whole) (apart : Apart [] ps) :
    ofText (String.ofList (ps.flatMap written)) = .ok ps := by
  have cut := @extract_written (String.ofList (ps.flatMap written)) [] ps whole apart []
  rw [List.append_nil, List.append_nil, Atom.scan, extract, List.reverse_reverse] at cut
  rw [ofText, String.toList_ofList, cut]

/-! ## Groups after a space -/

theorem apart_append_atoms {as : List Atom} {done ps : List Piece} :
    Apart done (as.map Piece.atom ++ ps) ↔ Apart (as.reverse.map Piece.atom ++ done) ps := by
  induction as generalizing done with
  | nil => rfl
  | cons a as ih =>
    rw [List.map_cons, List.cons_append, Apart, ih, List.reverse_cons, List.map_append,
      List.append_assoc]
    rfl

/-- Nothing stands before but, perhaps, a space. -/
def Free (done : List Piece) : Prop := ∀ p ∈ done.head?, p = .atom (.char ' ')

theorem takeName_of_free {done : List Piece} (h : Free done) : takeName done = ([], done) := by
  cases done with
  | nil => rfl
  | cons p done =>
    obtain rfl := h p rfl
    rfl

theorem takeName_append {cs : List Char} (h : ∀ c ∈ cs, c.isAlphanum = true) (ps : List Piece) :
    takeName (cs.map (fun c => .atom (.char c)) ++ ps)
      = (cs ++ (takeName ps).1, (takeName ps).2) := by
  induction cs with
  | nil => rfl
  | cons c cs ih =>
    obtain ⟨hc, hcs⟩ := List.forall_mem_cons.1 h
    simp only [List.map_cons, List.cons_append, takeName, nameChar?, hc, if_true, ih hcs]

theorem takeFunction_of_free {done : List Piece} (h : Free done) :
    takeFunction done = (none, done) := by
  cases done with
  | nil => rfl
  | cons p done =>
    obtain rfl := h p rfl
    rfl

/-- A word of at least two characters, a letter first, is the name of a function if it is a word of
its own. -/
theorem takeFunction_eq {before rest : List Piece} {c d : Char} {cs : List Char}
    (noBreak : ∀ p ∈ before.head?, p ≠ .atom (.char '\n'))
    (taken : takeName before = ((c :: d :: cs).reverse, rest)) (letter : c.isAlpha = true)
    (alone : rest.head?.any joinsName = false) :
    takeFunction before = (some (String.ofList (c :: d :: cs)), rest) := by
  cases before with
  | nil =>
    have := congrArg Prod.fst taken
    simp [takeName] at this
  | cons p ps =>
    have notBreak := noBreak p rfl
    simp [takeFunction, notBreak, taken, letter, alone]

/-- After a space a name is the name of a function. -/
theorem takeFunction_name {name : String} (h : Group.IsName name.toList) {done : List Piece}
    (free : Free done) :
    takeFunction (name.toList.reverse.map (fun c => .atom (.char c)) ++ done)
      = (some name, done) := by
  obtain ⟨c, d, cs, hname, letter, alphanum⟩ := h
  have taken := takeName_append (fun x hx => alphanum x (List.mem_reverse.1 hx)) done
  rw [takeName_of_free free, List.append_nil, hname] at taken
  have alone : done.head?.any joinsName = false := by
    cases done with
    | nil => rfl
    | cons p done =>
      obtain rfl := free p rfl
      rfl
  have noBreak : ∀ p ∈ ((c :: d :: cs).reverse.map (fun c => Piece.atom (.char c)) ++ done).head?,
      p ≠ .atom (.char '\n') := by
    obtain ⟨e, es, hes⟩ := List.exists_cons_of_ne_nil
      (fun e => List.cons_ne_nil c (d :: cs) (List.reverse_eq_nil_iff.1 e))
    have he : e.isAlphanum = true := by
      refine alphanum e ?_
      rw [hname, ← List.mem_reverse, hes]
      exact List.mem_cons_self
    rw [hes]
    intro p hp
    rw [← Option.some.inj hp]
    rintro ⟨⟩
    cases he
  rw [hname, takeFunction_eq noBreak taken letter alone, ← hname, String.ofList_toList]

/-- After a space a group takes the name of its own function. -/
theorem openGroup_of_free {g : Group} (h : g.Intact) {done : List Piece} (free : Free done) :
    openGroup g.bracket (g.name.reverse.map (fun c => .atom (.char c)) ++ done)
      = (⟨g.bracket, g.fn, 0, []⟩, done) := by
  obtain ⟨bracket, fn, inner⟩ := g
  cases fn with
  | none =>
    cases bracket with
    | paren =>
      simp only [openGroup, Group.name, Option.getD_none, String.toList_empty, List.reverse_nil,
        List.map_nil, List.nil_append, takeFunction_of_free free]
    | brace => rfl
  | some name =>
    obtain ⟨hb, isName⟩ := h.fn name rfl
    obtain rfl : bracket = .paren := hb
    simp only [openGroup, Group.name, Option.getD_some, takeFunction_name isName free]

end Piece

/-! ## Tokens -/

namespace FormulaToken

theorem splitFrom_append {ps : List Piece} (h : ∀ p ∈ ps, p.InValue) (current qs : List Piece) :
    splitFrom current (ps ++ qs) = splitFrom (ps.reverse ++ current) qs := by
  induction ps generalizing current with
  | nil => rfl
  | cons p ps ih =>
    obtain ⟨hp, hps⟩ := List.forall_mem_cons.1 h
    have step : splitFrom current (p :: (ps ++ qs)) = splitFrom (p :: current) (ps ++ qs) := by
      rcases p with (c | body) | g
      · obtain ⟨noSign, noSpace⟩ := hp c rfl
        rw [splitFrom, noSign]
        dsimp only
        rw [if_neg (by simpa using noSpace)]
      · rfl
      · rfl
    rw [List.cons_append, step, ih hps, List.reverse_cons, List.append_assoc]
    rfl

/-- The pieces of a sign between two values. -/
def signPieces (s : Arithmetic.Sign) : List Piece :=
  [.atom (.char ' '), .atom (.char s.char), .atom (.char ' ')]

theorem splitFrom_sign {current : List Piece} (full : current ≠ []) (s : Arithmetic.Sign)
    (ps : List Piece) :
    splitFrom current (signPieces s ++ ps)
      = value current.reverse :: sign s :: splitFrom [] ps := by
  have some : current.isEmpty = false := by simpa using full
  cases s <;> simp [signPieces, splitFrom, Arithmetic.Sign.ofChar?, Arithmetic.Sign.all,
    Arithmetic.Sign.char, flush, some]

theorem splitFrom_nil {current : List Piece} (full : current ≠ []) :
    splitFrom current [] = [value current.reverse] := by
  have some : current.isEmpty = false := by simpa using full
  rw [splitFrom, flush, some]
  rfl

end FormulaToken

end DiceFormula
