import DiceFormula.Proofs.Formula.Groups

/-!
# What a formula is made of

`Formula.readBy` reads the outermost level of a formula and leaves the formulas inside its groups to
a check. Each of its terms stands for a part of the formula: an operator for a sign, a leaf for a
stretch of text, a group, a call or a pool for a group and what follows it
(`Formula.stands_of_readBy`). Such a text has no blanks, no signs and no square bracket that stands
alone.
-/

namespace DiceFormula

variable {config : Config} {check : String → Except Error Unit}

/-! ## Atoms -/

/-- The atom is no square bracket that stands alone, and a flavor that is closed where it ends. -/
def Atom.Neat : Atom → Prop
  | char c => c ≠ '['
  | flavor body => ']' ∉ body

theorem Atom.not_mem_of_cutFlavor? {cs body rest : List Char}
    (h : cutFlavor? cs = some (body, rest)) : ']' ∉ body := by
  induction cs generalizing body with
  | nil => cases h
  | cons c cs ih =>
    rw [cutFlavor?] at h
    split at h
    · obtain ⟨rfl, -⟩ := Prod.mk.inj (Option.some.inj h)
      exact List.not_mem_nil
    · next hc =>
      obtain ⟨⟨b, r⟩, hb, h⟩ := Option.map_eq_some_iff.1 h
      obtain ⟨rfl, rfl⟩ := Prod.mk.inj h
      refine List.not_mem_cons_of_ne_of_not_mem ?_ (ih hb)
      rintro rfl
      exact hc rfl

theorem Atom.cutFlavor?_of_not_mem {body : List Char} (h : ']' ∉ body) (rest : List Char) :
    cutFlavor? (body ++ ']' :: rest) = some (body, rest) := by
  induction body with
  | nil => rfl
  | cons c body ih =>
    obtain ⟨hc, hbody⟩ := List.ne_and_not_mem_of_not_mem_cons h
    rw [List.cons_append, cutFlavor?, if_neg (by simpa using Ne.symm hc), ih hbody]
    rfl

/-- Flavors are closed. -/
theorem Atom.not_mem_of_mem_scan {cs body : List Char} (h : Atom.flavor body ∈ scan cs) :
    ']' ∉ body := by
  fun_induction scan cs with
  | case1 => cases h
  | case2 cs body' rest hcut _ ih =>
    rcases List.mem_cons.1 h with h | h
    · obtain rfl := Atom.flavor.inj h
      exact not_mem_of_cutFlavor? hcut
    · exact ih h
  | case3 cs hcut ih | case4 c cs hc ih =>
    exact ih ((List.mem_cons.1 h).resolve_left (by simp))

/-- Neat atoms are taken apart as they were put together. -/
theorem Atom.scan_render_append {as : List Atom} (h : ∀ a ∈ as, a.Neat) (cs : List Char) :
    scan (render as ++ cs) = as ++ scan cs := by
  induction as with
  | nil => rfl
  | cons a as ih =>
    obtain ⟨ha, has⟩ := List.forall_mem_cons.1 h
    have step : render (a :: as) = a.text ++ render as := rfl
    rw [step, List.append_assoc]
    cases a with
    | char c =>
      have hc : c ≠ '[' := ha
      rw [text, List.singleton_append, scan, if_neg hc, ih has]
      rfl
    | flavor body =>
      have cut := cutFlavor?_of_not_mem ha (render as ++ cs)
      rw [text, List.cons_append, List.cons_append, List.append_assoc, List.singleton_append, scan,
        if_pos rfl]
      split
      · next e =>
        obtain ⟨rfl, rfl⟩ := Prod.mk.inj (Option.some.inj (e.symm.trans cut))
        rw [ih has]
        rfl
      · next e =>
        rw [cut] at e
        cases e

theorem Atom.scan_render {as : List Atom} (h : ∀ a ∈ as, a.Neat) : scan (render as) = as := by
  have := scan_render_append h []
  rwa [List.append_nil, scan, List.append_nil] at this

theorem Atom.Neat.scan_append {a : Atom} (h : a.Neat) (cs : List Char) :
    scan (a.text ++ cs) = a :: scan cs := by
  have scanned := scan_render_append (List.forall_mem_singleton.2 h) cs
  rwa [render, List.flatMap_singleton] at scanned

theorem Atom.scan_append_of_not_mem {cs : List Char} (h : '[' ∉ cs) (ds : List Char) :
    scan (cs ++ ds) = cs.map char ++ scan ds := by
  induction cs with
  | nil => rfl
  | cons c cs ih =>
    obtain ⟨hc, hcs⟩ := List.ne_and_not_mem_of_not_mem_cons h
    rw [List.cons_append, scan, if_neg (Ne.symm hc), ih hcs]
    rfl

theorem Atom.scan_of_not_mem {cs : List Char} (h : '[' ∉ cs) : scan cs = cs.map char := by
  have alone := scan_append_of_not_mem h []
  rwa [List.append_nil, scan, List.append_nil] at alone

theorem Atom.neat_of_mem_scan {cs : List Char} (h : Atom.char '[' ∉ scan cs) : ∀ a ∈ scan cs, a.Neat := by
  intro a ha
  cases a with
  | char c =>
    rintro rfl
    exact h ha
  | flavor body => exact not_mem_of_mem_scan ha

/-- A text that is followed by another one is taken apart by itself. -/
theorem Atom.scan_append {cs : List Char} (h : Atom.char '[' ∉ scan cs) (ds : List Char) :
    scan (cs ++ ds) = scan cs ++ scan ds := by
  have := scan_render_append (neat_of_mem_scan h) ds
  rwa [render_scan] at this

/-- The atom is no bracket, and a flavor that is closed where it ends. -/
def Atom.Outside : Atom → Prop
  | char c => c ≠ '[' ∧ Bracket.ofOpening? c = none ∧ Bracket.isClosing c = false
  | flavor body => ']' ∉ body

theorem Atom.Outside.neat {a : Atom} (h : a.Outside) : a.Neat := by
  cases a with
  | char c => exact h.1
  | flavor body => exact h

theorem Atom.Outside.bare {a : Atom} (h : a.Outside) : a.Bare := by
  cases a with
  | char c => exact h
  | flavor body => trivial

theorem Atom.Bare.outside {a : Atom} (h : a.Bare)
    (closed : ∀ body, a = .flavor body → ']' ∉ body) : a.Outside := by
  cases a with
  | char c => exact h
  | flavor body => exact closed body rfl

namespace Piece

/-- The atoms between groups are atoms of the text, and no brackets. -/
theorem Extracts.atom_mem {open? : Option Pending} {done ps : List Piece} {as : List Atom}
    (h : Extracts ps open? done as) {a : Atom} (ha : Piece.atom a ∈ ps) :
    Piece.atom a ∈ done ∨ a ∈ as ∧ a.Bare := by
  induction h with
  | nil => exact .inl (List.mem_reverse.2 ha)
  | inside loose level rest ih => exact ih.imp_right (.imp_left (List.mem_cons_of_mem _))
  | closing rest ih =>
    refine ih.imp (fun hm => ?_) (.imp_left (List.mem_cons_of_mem _))
    exact (List.mem_cons.1 hm).resolve_left (by simp)
  | @opening b as done rest ih =>
    exact ih.imp (fun hm => openGroup_subset b done hm) (.imp_left (List.mem_cons_of_mem _))
  | bare bare rest ih =>
    rcases ih with hm | ⟨hm, outside⟩
    · rcases List.mem_cons.1 hm with hm | hm
      · obtain rfl := Piece.atom.inj hm
        exact .inr ⟨List.mem_cons_self, bare⟩
      · exact .inl hm
    · exact .inr ⟨List.mem_cons_of_mem _ hm, outside⟩

theorem mem_of_ofText {formula : String} {ps : List Piece} (h : ofText formula = .ok ps)
    {a : Atom} (ha : Piece.atom a ∈ ps) : a ∈ Atom.scan formula.toList ∧ a.Outside := by
  obtain ⟨hm, bare⟩ := ((ofText_eq_ok_iff.1 h).atom_mem ha).resolve_left List.not_mem_nil
  exact ⟨hm, bare.outside fun body e => Atom.not_mem_of_mem_scan (e ▸ hm)⟩

end Piece

namespace Formula

/-! ## Parts of a formula -/

/-- The atom may stand in a text between groups. -/
structure InText (ps : List Piece) (a : Atom) : Prop where
  mem : Piece.atom a ∈ ps
  plain : ∀ c, a = .char c → Arithmetic.Sign.ofChar? c = none ∧ c ≠ ' '

theorem InText.of_inValue {ps : List Piece} {a : Atom}
    (h : Piece.atom a ∈ ps ∧ (Piece.atom a).InValue) : InText ps a :=
  ⟨h.1, fun c hc => h.2 c (congrArg Piece.atom hc)⟩

/-- What follows a group: nothing, or a text that is its suffix. -/
def Follows (ps : List Piece) (g : Group) (s : Suffix) : Prop :=
  s = {} ∨ ∃ as, (∀ a ∈ as, InText ps a) ∧ suffix? g.bracket (Atom.render as) = some s

/-- The term stands for a part of a formula that is made of the pieces. -/
inductive Stands (check : String → Except Error Unit) (config : Config) (ps : List Piece) :
    Term → Prop
  | zero : Stands check config ps (.make (.number 0) [] config)
  | operator (s : Arithmetic.Sign) : Stands check config ps (.make (.operator s) [] config)
  | leaf {as : List Atom} {adjacent : Bool} {t : Term} : as ≠ [] → (∀ a ∈ as, InText ps a) →
      Leaf.classify (String.ofList (Atom.render as)) config adjacent = .ok t →
      Stands check config ps t
  | group {g : Group} {s : Suffix} {t : Term} : Piece.group g ∈ ps → Follows ps g s →
      groupTerm check config g s = .ok t → Stands check config ps t

/-- The segment is made of the pieces: a text that is not empty, or a group. -/
def Segment.From (ps : List Piece) : Segment → Prop
  | .text as => as ≠ [] ∧ ∀ a ∈ as, InText ps a
  | .group g => Piece.group g ∈ ps

theorem Segment.from_segments {ps qs : List Piece}
    (h : ∀ p ∈ qs, p ∈ ps ∧ p.InValue) :
    ∀ s ∈ segments qs, s.From ps := by
  fun_induction segments qs with
  | case1 => exact List.forall_mem_nil _
  | case2 a qs ih =>
    obtain ⟨ha, hqs⟩ := List.forall_mem_cons.1 h
    have ha := InText.of_inValue ha
    have ih := ih hqs
    unfold consAtom
    split
    · next as ss e =>
      rw [e] at ih
      obtain ⟨⟨-, has⟩, hss⟩ := List.forall_mem_cons.1 ih
      exact List.forall_mem_cons.2
        ⟨⟨List.cons_ne_nil _ _, List.forall_mem_cons.2 ⟨ha, has⟩⟩, hss⟩
    · exact List.forall_mem_cons.2
        ⟨⟨List.cons_ne_nil _ _, List.forall_mem_singleton.2 ha⟩, ih⟩
  | case3 g qs ih =>
    obtain ⟨⟨hm, -⟩, hqs⟩ := List.forall_mem_cons.1 h
    exact List.forall_mem_cons.2 ⟨hm, ih hqs⟩

theorem stands_of_segmentTerms {ps : List Piece} {ss : List Segment} {ts : List Term}
    (hss : ∀ s ∈ ss, s.From ps) (h : segmentTerms check config ss = .ok ts) :
    ∀ t ∈ ts, Stands check config ps t := by
  rw [segmented_iff] at h
  induction h with
  | done => exact List.forall_mem_nil _
  | text ht _ ih =>
    obtain ⟨⟨full, text⟩, hss⟩ := List.forall_mem_cons.1 hss
    exact List.forall_mem_cons.2 ⟨.leaf full text ht, ih hss⟩
  | @suffixed g as s ss t ts hsuffix ht _ ih =>
    obtain ⟨hg, hss⟩ := List.forall_mem_cons.1 hss
    obtain ⟨⟨-, text⟩, hss⟩ := List.forall_mem_cons.1 hss
    exact List.forall_mem_cons.2 ⟨.group hg (.inr ⟨as, text, hsuffix⟩) ht, ih hss⟩
  | group _ ht _ ih =>
    obtain ⟨hg, hss⟩ := List.forall_mem_cons.1 hss
    exact List.forall_mem_cons.2 ⟨.group hg (.inl rfl) ht, ih hss⟩

theorem stands_of_tokenTerms {ps : List Piece} {token : FormulaToken} {ts : List Term}
    (full : token.IsFull)
    (within : token.Within fun p => p ∈ ps ∧ p.InValue)
    (h : tokenTerms check config token = .ok ts) : ∀ t ∈ ts, Stands check config ps t := by
  cases tokened_of_tokenTerms h with
  | sign s => exact List.forall_mem_singleton.2 (.operator s)
  | @text as t ht =>
    have full : as ≠ [] := fun e => full (by rw [e]; rfl)
    exact List.forall_mem_singleton.2
      (.leaf full (fun a ha => .of_inValue (within _ (List.mem_map_of_mem ha))) ht)
  | groups _ h => exact stands_of_segmentTerms (Segment.from_segments within) h

/-- **Every term stands for a part of the formula.** -/
theorem stands_of_readBy {formula : String} {ts : List Term}
    (h : readBy check config formula = .ok ts) :
    ∃ ps, Piece.ofText (normalize formula) = .ok ps ∧ ∀ t ∈ ts, Stands check config ps t := by
  obtain ⟨-, -, ps, us, hps, hus, h⟩ := readBy_eq_ok.1 h
  have read : ∀ t ∈ us, Stands check config ps t := forall_of_allTerms hus fun token ht ts h =>
    stands_of_tokenTerms (FormulaToken.isFull_ofPieces _ token ht) (FormulaToken.within_ofPieces ps token ht) h
  refine ⟨ps, hps, ?_⟩
  rcases (of_validateTerms h).1 with rfl | rfl
  · exact read
  · exact List.forall_mem_cons.2 ⟨.zero, read⟩

end Formula

end DiceFormula
