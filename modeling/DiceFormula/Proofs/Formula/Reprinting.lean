import DiceFormula.Proofs.Formula.Printing
import DiceFormula.Roll.Create
import Mathlib.Data.List.Chain

/-!
# Formulas with texts that are printed

A text may stand beside a group or a call, and nothing is printed between the two. Such a run of
values is read as values of the same classes again (`Formula.exists_readAs`), though not always as
the same ones: the flavor of a group goes over to the text after it (`Formula.Touching`). So **what
is printed of a formula is read as terms of the same classes, which are printed alike**
(`Formula.exists_parseTerms_formulaOf`), as long as its terms can be told apart (`Formula.Legible`).
Otherwise they are not: `abs (3)` is a text and a group, and is printed as a call
(`Formula.create_formula_calls`).
-/

namespace DiceFormula

/-- The term without its flavor. -/
def Term.unflavored (t : Term) : Term := { t with label := { t.label with options := [] } }

variable {config : Config} {check : String → Except Error Unit}

namespace Formula

/-! ## Runs -/

theorem isChain_and {α : Type} {R S : α → α → Prop} {as : List α} (hR : as.IsChain R)
    (hS : as.IsChain S) : as.IsChain fun a b => R a b ∧ S a b := by
  induction hR with
  | nil => exact .nil
  | singleton a => exact .singleton a
  | cons_cons h _ ih =>
    obtain ⟨h', hS⟩ := List.isChain_cons_cons.1 hS
    exact .cons_cons ⟨h, h'⟩ (ih hS)

/-- The terms are runs of values with single operators between them. -/
inductive Runs : List Term → Prop
  | last {rs : List Term} : rs ≠ [] → (∀ t ∈ rs, t.isOperator = false) → Runs rs
  | join {rs ts : List Term} {o : Term} : rs ≠ [] → (∀ t ∈ rs, t.isOperator = false) →
      o.isOperator = true → Runs ts → Runs (rs ++ o :: ts)

variable {rs ts us vs : List Term}

theorem runs_of_spaced (h : Spaced ts) : Runs ts := by
  induction h with
  | value ht => exact .last (List.cons_ne_nil _ _) (List.forall_mem_singleton.2 ht)
  | @beside t ts ht _ ih =>
    cases ih with
    | last full values =>
      exact .last (List.cons_ne_nil _ _) (List.forall_mem_cons.2 ⟨ht, values⟩)
    | @join rs ts o full values ho rest =>
      exact @Runs.join (t :: rs) ts o (List.cons_ne_nil _ _)
        (List.forall_mem_cons.2 ⟨ht, values⟩) ho rest
  | @join t o ts ht ho _ ih =>
    exact @Runs.join [t] ts o (List.cons_ne_nil _ _) (List.forall_mem_singleton.2 ht) ho ih

/-! ## Terms that say the same -/

/-- The terms are of the same classes, are printed in the same way, and hold the same formulas. -/
structure Alike (ts us : List Term) : Prop where
  classes : us.map Term.termClass = ts.map Term.termClass
  printed : formulaOf us = formulaOf ts
  formulas : us.flatMap Term.formulas = ts.flatMap Term.formulas

theorem Alike.refl (ts : List Term) : Alike ts ts := ⟨rfl, rfl, rfl⟩

theorem formulaOf_append (ts us : List Term) :
    formulaOf (ts ++ us) = formulaOf ts ++ formulaOf us := by
  rw [← String.toList_inj, String.toList_append, toList_formulaOf, toList_formulaOf,
    toList_formulaOf, List.flatMap_append]

theorem Alike.append {ts' us' : List Term} (h : Alike ts us) (h' : Alike ts' us') :
    Alike (ts ++ ts') (us ++ us') where
  classes := by rw [List.map_append, List.map_append, h.classes, h'.classes]
  printed := by rw [formulaOf_append, formulaOf_append, h.printed, h'.printed]
  formulas := by rw [List.flatMap_append, List.flatMap_append, h.formulas, h'.formulas]

theorem Alike.cons {t u : Term} (head : Alike [t] [u]) (h : Alike ts us) :
    Alike (t :: ts) (u :: us) := head.append h

/-! ## Neighbours -/

/-- Whether a term of the first class may stand right before one of the second. -/
def mayPrecede (c d : TermClass) : Bool :=
  if c == .operator then d != .operator
  else d == .operator || (c == .text && (d == .group || d == .call))
    || ((c == .group || c == .call) && d == .text)

theorem isOperator_eq (t : Term) : t.isOperator = (t.termClass == .operator) := by
  obtain ⟨body, l, carried⟩ := t
  cases body <;> rfl

theorem isIntermediate_eq (t : Term) :
    t.isIntermediate = (t.termClass == .group || t.termClass == .call) := by
  obtain ⟨body, l, carried⟩ := t
  cases body <;> rfl

theorem fuses_eq_true {t u : Term} (ht : t.isOperator = false) (hu : u.isOperator = false) :
    fuses t u = mayPrecede t.termClass u.termClass := by
  rw [isOperator_eq] at ht hu
  rw [fuses, Term.isText, Term.isText, isIntermediate_eq, isIntermediate_eq, mayPrecede, ht, hu]
  simp

theorem alternate_cons_cons (t u : Term) (ts : List Term) :
    alternate (t :: u :: ts) = .ok ()
      ↔ mayPrecede t.termClass u.termClass = true ∧ alternate (u :: ts) = .ok () := by
  have operator {t : Term} {s : Arithmetic.Sign} (h : t.sign? = some s) :
      (t.termClass == .operator) = true := by
    rw [← isOperator_eq, Term.isOperator, h]
    rfl
  have value {t : Term} (h : t.sign? = none) : (t.termClass == .operator) = false := by
    rw [← isOperator_eq, Term.isOperator, h]
    rfl
  rw [alternate]
  cases ht : t.sign? with
  | some a =>
    cases hu : u.sign? with
    | some b => simp [mayPrecede, operator ht, bne, operator hu]
    | none => simp [mayPrecede, operator ht, bne, value hu]
  | none =>
    cases hu : u.sign? with
    | some b => simp [mayPrecede, value ht, operator hu]
    | none =>
      have fused := fuses_eq_true ((isOperator_eq t).trans (value ht))
        ((isOperator_eq u).trans (value hu))
      rw [← fused]
      by_cases h : fuses t u = true <;> simp [h]

/-- Whether terms alternate is a matter of their classes. -/
theorem alternate_eq_ok :
    alternate ts = .ok ()
      ↔ (ts.map Term.termClass).IsChain fun c d => mayPrecede c d = true := by
  induction ts with
  | nil => exact iff_of_true rfl .nil
  | cons t ts ih =>
    cases ts with
    | nil => exact iff_of_true rfl (.singleton _)
    | cons u ts =>
      rw [alternate_cons_cons, ih, List.map_cons, List.map_cons, List.map_cons,
        List.isChain_cons_cons]

theorem sign?_eq_none (t : Term) : t.sign? = none ↔ (t.termClass == .operator) = false := by
  rw [← isOperator_eq, isOperator_eq_false]

/-- Terms of the same classes as valid ones are valid. -/
theorem validateTerms_congr (classes : us.map Term.termClass = ts.map Term.termClass)
    (h : validateTerms config vs = .ok ts) : validateTerms config us = .ok us := by
  obtain ⟨-, ⟨t, head, value⟩, last, alternates⟩ := of_validateTerms h
  have first := congrArg List.head? classes
  have final := congrArg List.getLast? classes
  rw [List.head?_map, List.head?_map, head] at first
  rw [List.getLast?_map, List.getLast?_map] at final
  obtain ⟨u, hu, hclass⟩ := Option.map_eq_some_iff.1 first
  refine validateTerms_eq_ok hu ?_ ?_ ?_
  · rwa [sign?_eq_none, hclass, ← sign?_eq_none]
  · cases hlast : us.getLast? with
    | none => rfl
    | some u' =>
      rw [hlast] at final
      obtain ⟨t', ht', hclass'⟩ := Option.map_eq_some_iff.1 final.symm
      rw [ht'] at last
      have last : t'.sign? = none := last
      rwa [Option.bind_some, sign?_eq_none, ← hclass', ← sign?_eq_none]
  · rw [alternate_eq_ok] at alternates ⊢
    rwa [classes]

/-! ## Texts -/

/-- Beside a group, a text is left alone. -/
theorem TextAs.classify {t : Term} {cs : List Char} (h : TextAs config t cs) :
    Leaf.classify (String.ofList cs) config true = .ok t := by
  obtain ⟨rfl, full, tidy, notNumber⟩ := h
  obtain ⟨c, cs, rfl⟩ := List.exists_cons_of_ne_nil full
  have noSign : Arithmetic.Sign.ofChar? c = none := by
    by_cases loose : c = '['
    · subst loose
      rfl
    · rw [Atom.scan, if_neg loose] at tidy
      exact ((tidy _ List.mem_cons_self).inValue c rfl).1
  rw [Leaf.classify_eq_leaf String.toList_ofList noSign, String.toList_ofList,
    Leaf.classify.leaf, notNumber]
  dsimp only
  split <;> rfl

theorem TextAs.pieces {t : Term} {cs : List Char} (h : TextAs config t cs) :
    t.pieces = (Atom.scan cs).map Piece.atom ∧ Atom.scan cs ≠ [] := by
  obtain ⟨rfl, full, -, -⟩ := h
  refine ⟨?_, ?_⟩
  · rw [Term.pieces, (pieces_of_leaf rfl).2, formulaText_textTerm, String.toList_ofList]
    rfl
  · intro none
    have text := Atom.render_scan cs
    rw [none] at text
    exact full text.symm

/-- A text takes the flavor that stands before it. -/
theorem TextAs.flavored {t : Term} {cs : List Char} (h : TextAs config t cs)
    {flavor : Option (List Char)} (isFlavor : Leaf.IsFlavor flavor)
    (tidy : ∀ f ∈ flavor, (Atom.flavor f).Tidy) :
    TextAs config (Leaf.textTerm (Leaf.flavorChars flavor ++ cs) config)
      (Leaf.flavorChars flavor ++ cs) := by
  refine ⟨rfl, List.append_ne_nil_of_right_ne_nil _ h.full, ?_, ?_⟩
  · rw [Leaf.scan_flavorChars isFlavor]
    refine List.forall_mem_append.2 ⟨List.forall_mem_map.2 fun f hf => ?_, h.tidy⟩
    exact tidy f (Option.mem_toList.1 hf)
  · cases flavor with
    | none => exact h.notNumber
    | some f => simp [Leaf.flavorChars, Leaf.readNumeral?]

/-! ## Terms side by side -/

/-- How terms side by side are read when they are written: the flavor of a group before a text
becomes part of the text. -/
inductive Touching (config : Config) : List Term → List Term → Prop
  | nil : Touching config [] []
  | text {t : Term} {cs : List Char} {ts us : List Term} : TextAs config t cs →
      (∀ u ∈ ts.head?, u.group? ≠ none) → Touching config ts us →
      Touching config (t :: ts) (t :: us)
  | last {t : Term} {g : Group} {s : Suffix} : GroupedAs config t g s → Touching config [t] [t]
  | group {t u : Term} {g : Group} {s : Suffix} {cs : List Char} {ts us : List Term} :
      GroupedAs config t g s → g.bracket = .paren → TextAs config u cs →
      (s.flavor = none → suffix? .paren cs = none) →
      (∀ u ∈ ts.head?, u.group? ≠ none) → Touching config ts us →
      Touching config (t :: u :: ts)
        (t.unflavored :: Leaf.textTerm (Leaf.flavorChars s.flavor ++ cs) config :: us)

theorem head_pieces (h : ∀ t ∈ ts.head?, t.group? ≠ none) :
    ∀ p ∈ (ts.flatMap Term.pieces).head?, ∃ g, p = .group g := by
  cases ts with
  | nil =>
    intro p hp
    cases hp
  | cons t ts =>
    obtain ⟨g, hg⟩ := Option.ne_none_iff_exists'.1 (h t rfl)
    intro p hp
    rw [List.flatMap_cons, Term.pieces, hg] at hp
    exact ⟨g, (Option.some.inj hp).symm⟩

/-- A group without its flavor. -/
theorem GroupedAs.unflavored {t : Term} {g : Group} {s : Suffix} (h : GroupedAs config t g s)
    (paren : g.bracket = .paren) : groupTerm accept config g {} = .ok t.unflavored := by
  refine groupTerm_of_grouped ?_
  cases h.grouped with
  | group inner => exact .group inner
  | call hargs known => exact .call hargs known
  | pool => cases paren

/-- A flavor before a text is no suffix of a group. -/
theorem TextAs.suffix? {t : Term} {cs : List Char} (h : TextAs config t cs)
    {flavor : Option (List Char)} (isFlavor : Leaf.IsFlavor flavor)
    (unclaimed : flavor = none → suffix? .paren cs = none) :
    suffix? .paren (Leaf.flavorChars flavor ++ cs) = none := by
  cases flavor with
  | none => exact unclaimed rfl
  | some f =>
    have goesOn : Leaf.isEnd cs = false := by
      rw [← Bool.not_eq_true]
      intro ends
      rcases Bool.or_eq_true_iff.1 ends with none | broken
      · exact h.full (beq_iff_eq.1 none)
      · have tidy := h.tidy
        rw [beq_iff_eq.1 broken, Atom.scan, if_neg (by decide)] at tidy
        cases (tidy _ List.mem_cons_self).settled.solid.begun
    rw [Formula.suffix?, flavorSuffix?, Leaf.takeFlavor_append isFlavor]
    dsimp only
    rw [goesOn]
    rfl

theorem segmentTerms_of_touching (h : Touching config ts us) :
    segmentTerms accept config (segments (ts.flatMap Term.pieces)) = .ok us := by
  induction h with
  | nil => rfl
  | text word head _ ih =>
    obtain ⟨pieces, full⟩ := word.pieces
    rw [List.flatMap_cons, pieces, segments_append full (head_pieces head), segmentTerms,
      Atom.render_scan, word.classify, ih]
    rfl
  | last h => rw [List.flatMap_singleton, h.segmentTerms]
  | @group t u g s cs ts us h paren word unclaimed head _ ih =>
    obtain ⟨pieces, full⟩ := word.pieces
    have flavored := word.flavored h.suffix.isFlavor h.suffix.flavor
    obtain ⟨-, full'⟩ := flavored.pieces
    have tail : t.pieces ++ u.pieces
        = .group g :: (Atom.scan (Leaf.flavorChars s.flavor ++ cs)).map Piece.atom := by
      have alone := Leaf.scan_flavorChars h.suffix.isFlavor []
      rw [List.append_nil, Atom.scan, List.append_nil] at alone
      rw [h.pieces, pieces, h.tail, h.suffix.none paren, List.nil_append, alone,
        Leaf.scan_flavorChars h.suffix.isFlavor, List.map_append]
      rfl
    rw [List.flatMap_cons, List.flatMap_cons, ← List.append_assoc, tail, List.cons_append, segments,
      segments_append full' (head_pieces head), segmentTerms, Atom.render_scan, paren,
      word.suffix? h.suffix.isFlavor unclaimed]
    dsimp only
    rw [h.unflavored paren, flavored.classify, ih]
    rfl

/-- A group in parentheses is printed with its flavor. -/
theorem GroupedAs.formulaText {t : Term} {g : Group} {s : Suffix} (h : GroupedAs config t g s)
    (paren : g.bracket = .paren) :
    t.formulaText.toList = t.written.toList ++ Leaf.flavorChars s.flavor := by
  have tail := h.tail
  rw [h.suffix.none paren, List.nil_append] at tail
  rw [← tail, Term.formulaText, String.toList_append]
  cases h.grouped with
  | group | call => rfl
  | pool => cases paren

theorem formulaText_unflavored (t : Term) : t.unflavored.formulaText = t.written := by
  have silent : Term.flavorText t.unflavored.flavor = "" := by
    have plain : t.unflavored.flavor = .str "" := by
      rw [Term.flavor]
      split <;> rfl
    rw [plain]
    rfl
  rw [Term.formulaText, silent, String.append_empty]
  rfl

theorem alike_of_touching (h : Touching config ts us) : Alike ts us := by
  induction h with
  | nil => exact .refl _
  | text _ _ _ ih => exact (Alike.refl _).cons ih
  | last => exact .refl _
  | @group t u g s cs ts us h paren word _ _ _ ih =>
    have both : Alike [t, u]
        [t.unflavored, Leaf.textTerm (Leaf.flavorChars s.flavor ++ cs) config] := by
      rw [word.eq]
      refine ⟨rfl, ?_, rfl⟩
      rw [← String.toList_inj, toList_formulaOf, toList_formulaOf]
      simp only [List.flatMap_cons, List.flatMap_nil, formulaText_textTerm, formulaText_unflavored,
        h.formulaText paren, String.toList_ofList, List.append_assoc]
    exact both.append ih

/-! ## Reading a run -/

/-- A text after a group without a flavor is not read as its flavor. -/
def Unclaimed (t u : Term) : Prop :=
  t.isIntermediate = true → u.isText = true → t.tail = "" → suffix? .paren u.tail.toList = none

instance (t u : Term) : Decidable (Unclaimed t u) := inferInstanceAs (Decidable (_ → _ → _ → _))

/-- The first term may stand before the second one. -/
def MayPrecede (t u : Term) : Prop := mayPrecede t.termClass u.termClass = true ∧ Unclaimed t u

theorem Printed.textAs {t : Term} (h : Printed config t) (text : t.isText = true) :
    ∃ cs, TextAs config t cs := by
  cases h with
  | leaf _ notText =>
    rw [notText] at text
    cases text
  | @text cs h => exact ⟨cs, h⟩
  | @group g s h =>
    have grouped := h.grouped
    cases grouped <;> cases text

theorem Printed.groupedAs {t : Term} (h : Printed config t)
    (intermediate : t.isIntermediate = true) :
    ∃ g s, GroupedAs config t g s ∧ g.bracket = .paren := by
  cases h with
  | leaf leaf =>
    obtain ⟨body, l, carried⟩ := t
    cases body with
    | number | operator | text | dice => cases intermediate
    | group | call | pool => cases leaf
  | text h =>
    rw [h.eq] at intermediate
    cases intermediate
  | @group g s h =>
    refine ⟨g, s, h, ?_⟩
    cases h.grouped with
    | group | call => rfl
    | pool => cases intermediate

/-- Beside a value only a text and a group, or a call, can stand. -/
theorem kinds_of_mayPrecede {t u : Term} (h : mayPrecede t.termClass u.termClass = true)
    (ht : t.isOperator = false) (hu : u.isOperator = false) :
    t.isText = true ∧ u.isIntermediate = true ∨ t.isIntermediate = true ∧ u.isText = true := by
  rw [← fuses_eq_true ht hu, fuses] at h
  simpa using h

theorem exists_touching {t : Term} (printed : ∀ u ∈ t :: ts, Printed config u)
    (values : ∀ u ∈ t :: ts, u.isOperator = false) (chain : (t :: ts).IsChain MayPrecede)
    (kind : t.isText = true ∨ t.isIntermediate = true) : ∃ us, Touching config (t :: ts) us := by
  induction ts generalizing t with
  | nil =>
    obtain ⟨ht, -⟩ := List.forall_mem_cons.1 printed
    rcases kind with text | intermediate
    · obtain ⟨cs, word⟩ := ht.textAs text
      exact ⟨_, .text word (fun u hu => by cases hu) .nil⟩
    · obtain ⟨g, s, h, -⟩ := ht.groupedAs intermediate
      exact ⟨_, .last h⟩
  | cons u ts ih =>
    obtain ⟨ht, printed⟩ := List.forall_mem_cons.1 printed
    obtain ⟨value, values⟩ := List.forall_mem_cons.1 values
    obtain ⟨⟨precedes, unclaimed⟩, chain⟩ := List.isChain_cons_cons.1 chain
    have kinds := kinds_of_mayPrecede precedes value (values u List.mem_cons_self)
    obtain ⟨us, hus⟩ := ih printed values chain (kinds.symm.imp And.right And.right)
    rcases kinds with ⟨text, intermediate⟩ | ⟨intermediate, text⟩
    · obtain ⟨cs, word⟩ := ht.textAs text
      obtain ⟨g, s, h, -⟩ := (printed u List.mem_cons_self).groupedAs intermediate
      refine ⟨_, .text word ?_ hus⟩
      rintro u ⟨⟩
      rw [h.group]
      exact Option.some_ne_none g
    · obtain ⟨g, s, h, paren⟩ := ht.groupedAs intermediate
      have noGroup : u.group? = none := by
        obtain ⟨cs, word⟩ := (printed u List.mem_cons_self).textAs text
        rw [word.eq]
        rfl
      cases hus with
      | @text _ cs _ us word head rest =>
        refine ⟨_, .group h paren word ?_ head rest⟩
        intro noFlavor
        have tail := h.tail
        rw [h.suffix.none paren, noFlavor] at tail
        have claimed := unclaimed intermediate text (String.toList_eq_nil_iff.1 tail)
        rwa [word.eq, (pieces_of_leaf rfl).2, formulaText_textTerm, String.toList_ofList] at claimed
      | last h' =>
        rw [h'.group] at noGroup
        cases noGroup
      | group h' =>
        rw [h'.group] at noGroup
        cases noGroup

/-- A run of values is read as values of the same classes. -/
theorem exists_readAs (full : rs ≠ []) (values : ∀ t ∈ rs, t.isOperator = false)
    (printed : ∀ t ∈ rs, Printed config t) (chain : rs.IsChain MayPrecede)
    (alone : ∀ t, rs = [t] → t.isText = true →
      Leaf.classify t.formulaText config false = .ok t) :
    ∃ us, ReadAs config rs us ∧ Alike rs us := by
  have tidy : ∀ t ∈ rs, t.Tidy := fun t ht => (printed t ht).tidy.1
  obtain ⟨t, ts, rfl⟩ := List.exists_cons_of_ne_nil full
  have ht := printed t List.mem_cons_self
  have some : (t :: ts).flatMap Term.pieces ≠ [] := by
    rw [List.flatMap_cons]
    exact List.append_ne_nil_of_left_ne_nil (pieces_ne_nil ht.tidy.2) _
  cases ts with
  | nil =>
    refine ⟨[t], ?_, .refl _⟩
    cases text : t.isText with
    | false => exact ht.readAs text
    | true =>
      refine readAs_of_tidy some tidy ?_
      rw [List.flatMap_singleton]
      obtain ⟨cs, word⟩ := ht.textAs text
      have leaf : t.body.isLeaf = true := by
        rw [word.eq]
        rfl
      exact tokenTerms_leaf leaf (alone t rfl text)
  | cons u ts =>
    obtain ⟨⟨precedes, -⟩, -⟩ := List.isChain_cons_cons.1 chain
    have kinds := kinds_of_mayPrecede precedes (values t List.mem_cons_self)
      (values u (List.mem_cons_of_mem _ List.mem_cons_self))
    obtain ⟨us, hus⟩ := exists_touching printed values chain (kinds.imp And.left And.left)
    refine ⟨us, readAs_of_tidy some tidy ?_, alike_of_touching hus⟩
    obtain ⟨v, hv, intermediate⟩ : ∃ v ∈ t :: u :: ts, v.isIntermediate = true := by
      rcases kinds with ⟨-, intermediate⟩ | ⟨intermediate, -⟩
      · exact ⟨u, List.mem_cons_of_mem _ List.mem_cons_self, intermediate⟩
      · exact ⟨t, List.mem_cons_self, intermediate⟩
    obtain ⟨g, s, h, -⟩ := (printed v hv).groupedAs intermediate
    rw [tokenTerms, isEmpty_groups hv h.group, if_neg Bool.false_ne_true,
      segmentTerms_of_touching hus]

/-! ## Texts between operators -/

/-- A text that has an operator on either side is classified as itself. -/
def Lone (config : Config) (ts : List Term) : Prop :=
  ∀ before t after, ts = before ++ t :: after → t.isText = true →
    (∀ o ∈ before.getLast?, o.isOperator = true) → (∀ o ∈ after.head?, o.isOperator = true) →
    Leaf.classify t.formulaText config false = .ok t

/-- The terms of a token: an operator, or values, of which a single text is classified as itself. -/
inductive Block (config : Config) : List Term → Prop
  | operator (s : Arithmetic.Sign) : Block config [.make (.operator s) [] config]
  | values {ts : List Term} : (∀ t ∈ ts, t.isOperator = false) →
      (∀ t, ts = [t] → t.isText = true → Leaf.classify t.formulaText config false = .ok t) →
      Block config ts

theorem Lone.append (hb : Block config rs) (h : Lone config ts) : Lone config (rs ++ ts) := by
  intro before t after split text left right
  rcases List.append_eq_append_iff.1 split with ⟨rest, rfl, hts⟩ | ⟨rest, rfl, hts⟩
  · refine h rest t after hts text (fun o ho => left o ?_) right
    rw [List.getLast?_append, Option.mem_def.1 ho]
    rfl
  · cases rest with
    | nil => exact h [] t after hts.symm text (fun o ho => by cases ho) right
    | cons u rest =>
      obtain ⟨rfl, rfl⟩ := List.cons.inj hts
      generalize hbs : before ++ t :: rest = bs at hb
      cases hb with
      | operator s =>
        have mem : t ∈ before ++ t :: rest := List.mem_append_right _ List.mem_cons_self
        rw [hbs, List.mem_singleton] at mem
        rw [mem] at text
        cases text
      | values values single =>
        subst hbs
        have first : before = [] := by
          by_contra full
          obtain ⟨o, ho⟩ := Option.ne_none_iff_exists'.1 (mt List.getLast?_eq_none_iff.1 full)
          have value := values o (List.mem_append_left _ (List.mem_of_getLast? ho))
          rw [left o ho] at value
          cases value
        have last : rest = [] := by
          cases rest with
          | nil => rfl
          | cons o rest =>
            have value := values o (by simp)
            rw [right o rfl] at value
            cases value
        subst first last
        exact single t rfl text

/-- What follows an operator begins with it on its left. -/
theorem Lone.of_append {o : Term} (ho : o.isOperator = true) (h : Lone config (rs ++ o :: ts)) :
    Lone config ts := by
  intro before t after split text left right
  refine h (rs ++ o :: before) t after ?_ text ?_ right
  · rw [split, List.append_assoc]
    rfl
  · intro p hp
    rw [List.getLast?_append, List.getLast?_cons] at hp
    cases hb : before.getLast? with
    | none =>
      rw [hb] at hp
      obtain rfl := Option.some.inj hp
      exact ho
    | some b =>
      rw [hb] at hp
      obtain rfl := Option.some.inj hp
      exact left b hb

theorem lone_flatten {tss : List (List Term)} (h : ∀ ts ∈ tss, Block config ts) :
    Lone config tss.flatten := by
  induction tss with
  | nil =>
    intro before t after split
    exact absurd split.symm (by simp)
  | cons ts tss ih =>
    obtain ⟨hts, htss⟩ := List.forall_mem_cons.1 h
    exact (ih htss).append hts

theorem Grouped.isValue {g : Group} {s : Suffix} {t : Term} (h : Grouped config s g t) :
    t.isOperator = false ∧ t.isText = false := by
  cases h <;> exact ⟨rfl, rfl⟩

/-- Where there is a group, there is a term that is no text. -/
theorem exists_of_segmentTerms {ss : List Segment} (h : segmentTerms check config ss = .ok ts)
    {g : Group} (hg : Segment.group g ∈ ss) : ∃ t ∈ ts, t.isText = false := by
  obtain ⟨s, t, ht, made⟩ := exists_groupTerm_of_segmentTerms h hg
  exact ⟨t, ht, (grouped_of_groupTerm made).isValue.2⟩

/-- A text outside of groups has no sign. -/
theorem isOperator_of_classified {as : List Atom} (tidy : ∀ a ∈ as, a.Tidy) {adjacent : Bool}
    {t : Term} (h : Leaf.Classified config (Atom.render as) adjacent t) : t.isOperator = false := by
  cases h with
  | @operator _ s hs =>
    have scanned := Atom.scan_render fun a ha => (tidy a ha).outside.neat
    have loose : s.char ≠ '[' := by cases s <;> decide
    rw [hs, Atom.scan, if_neg loose] at scanned
    have mem : Atom.char s.char ∈ as := by
      rw [← scanned]
      exact List.mem_cons_self
    have none := ((tidy _ mem).inValue _ rfl).1
    rw [Arithmetic.Sign.ofChar?_char] at none
    cases none
  | number | text => rfl
  | dice _ hd => rcases Leaf.cases_of_ofDice hd with ⟨-, rfl⟩ | ⟨-, kind, -, rfl⟩ <;> rfl

theorem block_of_tokenTerms {ps : List Piece} (tidy : ∀ a, InText ps a → a.Tidy)
    {token : FormulaToken}
    (within : token.Within fun p => p ∈ ps ∧ p.InValue)
    (h : tokenTerms check config token = .ok ts) : Block config ts := by
  cases tokened_of_tokenTerms h with
  | sign s => exact .operator s
  | @text as t ht =>
    have tidy : ∀ a ∈ as, a.Tidy :=
      fun a ha => tidy a (.of_inValue (within _ (List.mem_map_of_mem ha)))
    have classified := Leaf.classified_of_classify ht
    rw [String.toList_ofList] at classified
    refine .values (List.forall_mem_singleton.2 (isOperator_of_classified tidy classified)) ?_
    intro u hu text
    obtain rfl := (List.cons.inj hu).1
    have same := (text_of_classified tidy classified text).1
    have written : t.formulaText = String.ofList (Atom.render as) := by
      rw [same, formulaText_textTerm]
    rw [written, ht]
  | @groups ps ts some h =>
    have segment := Segment.from_segments within
    refine .values ?_ ?_
    · refine forall_of_segmentTerms ?_ (fun g _ s t ht => (grouped_of_groupTerm ht).isValue.1) h
      intro as has t ht
      have classified := Leaf.classified_of_classify ht
      rw [String.toList_ofList] at classified
      exact isOperator_of_classified (fun a ha => tidy a ((segment _ has).2 a ha)) classified
    · rintro t rfl text
      obtain ⟨g, hg⟩ := List.exists_mem_of_ne_nil _ some
      obtain ⟨p, hp, found⟩ := List.mem_filterMap.1 hg
      cases p with
      | atom a => cases found
      | group g' =>
        obtain ⟨u, hu, notText⟩ := exists_of_segmentTerms h (group_mem_segments hp)
        rw [List.mem_singleton.1 hu, text] at notText
        cases notText

/-- A text of a formula that has no group beside it is classified as itself. -/
theorem lone_of_readBy {formula : String} (h : readBy check config formula = .ok ts) :
    Lone config ts := by
  obtain ⟨-, dollar, ps, us, hps, hus, valid⟩ := readBy_eq_ok.1 h
  obtain ⟨tss, htss, h⟩ := bind_eq_ok.1 hus
  obtain rfl := Except.ok.inj h
  have lone : Lone config tss.flatten := lone_flatten
    (forall_of_mapM_eq_ok htss fun token ht ts h =>
      block_of_tokenTerms (fun a ha => ha.tidy hps dollar) (FormulaToken.within_ofPieces ps token ht) h)
  rcases (of_validateTerms valid).1 with rfl | rfl
  · exact lone
  · refine @Lone.append config [_] _ (.values (List.forall_mem_singleton.2 rfl) ?_) lone
    intro t ht text
    rw [← (List.cons.inj ht).1] at text
    cases text

/-! ## The whole formula -/

/-- **Terms are read as terms of the same classes** as they are written, if each of them is printed,
and groups are not followed by texts that are flavors. -/
theorem exists_rereads (h : Runs ts)
    (printed : ∀ t ∈ ts, t.isOperator = false → Printed config t)
    (operators : ∀ t ∈ ts, t.isOperator = true → ∃ s, t = .make (.operator s) [] config)
    (chain : ts.IsChain MayPrecede) (lone : Lone config ts) :
    ∃ us, Rereads config ts us ∧ Alike ts us := by
  induction h with
  | @last rs full values =>
    obtain ⟨us, hus, alike⟩ := exists_readAs full values
      (fun t ht => printed t ht (values t ht)) chain
      fun t hrs text => lone [] t [] hrs text (fun o ho => by cases ho) fun o ho => by cases ho
    exact ⟨us, .value hus, alike⟩
  | @join rs ts o full values ho _ ih =>
    obtain ⟨first, rest⟩ := List.forall_mem_append.1 printed
    obtain ⟨-, operators⟩ := List.forall_mem_append.1 operators
    obtain ⟨now, later, -⟩ := List.isChain_append.1 chain
    obtain ⟨s, rfl⟩ := operators o List.mem_cons_self ho
    obtain ⟨us, hus, alike⟩ := exists_readAs full values (fun t ht => first t ht (values t ht)) now
      (by
        rintro t rfl text
        refine lone [] t _ rfl text (fun o ho => by cases ho) ?_
        rintro o ⟨⟩
        exact ho)
    obtain ⟨vs, hvs, alike'⟩ := ih (fun t ht => rest t (List.mem_cons_of_mem _ ht))
      (fun t ht => operators t (List.mem_cons_of_mem _ ht)) later.tail (lone.of_append ho)
    exact ⟨_, .join s hus hvs, alike.append ((Alike.refl [_]).append alike')⟩

/-- Terms that are printed so that all of them can be told apart again: no group takes what stands
before it for the name of its function, and no text is read as the flavor of the group before it. -/
structure Legible (ts : List Term) : Prop where
  apart : Piece.Apart [] (ts.flatMap Term.pieces)
  unclaimed : ts.IsChain Unclaimed

/-- **What is printed of a formula is read as terms of the same classes, which are printed alike**,
if its terms can be told apart and its numbers are integers. -/
theorem exists_parseTerms_formulaOf (own : config.OwnLetters) {formula : String}
    (h : parseTerms config formula = .ok ts) (integral : ∀ t ∈ ts, t.isIntegral = true)
    (legible : Legible ts) :
    ∃ us, parseTerms config (formulaOf ts) = .ok us
      ∧ us.map Term.termClass = ts.map Term.termClass ∧ formulaOf us = formulaOf ts := by
  obtain ⟨outline, inner⟩ := reads_iff.1 (parseTerms_eq_ok.1 h)
  obtain ⟨ps, hps, stands⟩ := stands_of_readBy outline
  obtain ⟨-, dollar, _, vs, -, -, valid⟩ := readBy_eq_ok.1 outline
  have operators := fun t ht => exists_operator_of_stands (stands t ht)
  have printed := fun t ht value =>
    printed_of_stands own hps dollar (stands t ht) value (integral t ht)
  have precedes := alternate_eq_ok.1 (of_validateTerms valid).2.2.2
  have chain := isChain_and ((List.isChain_map _).1 precedes) legible.unclaimed
  obtain ⟨us, rereads, alike⟩ := exists_rereads (runs_of_spaced (spaced_of_readTerms h).1) printed
    operators chain (lone_of_readBy outline)
  refine ⟨us, parseTerms_eq_ok.2 (reads_iff.2 ⟨?_, ?_⟩), alike.classes, alike.printed⟩
  · exact outline_of_rereads rereads legible.apart (validateTerms_congr alike.classes valid)
  · intro u hu a ha
    have mem : a ∈ us.flatMap Term.formulas := List.mem_flatMap.2 ⟨u, hu, ha⟩
    rw [alike.formulas] at mem
    obtain ⟨t, ht, ha⟩ := List.mem_flatMap.1 mem
    exact inner t ht a ha

theorem exists_parseTerms_formulaOf_beside :
    ∃ ts, parseTerms .default "(1d4)[n] x - abs( 3 )y*2d (06) + foo" = .ok ts
      ∧ formulaOf ts = "(1d4)[n]x - abs(3)y * 2d(06) + foo"
      ∧ ∃ us, parseTerms .default (formulaOf ts) = .ok us
        ∧ us.map Term.termClass = ts.map Term.termClass ∧ formulaOf us = formulaOf ts := by
  obtain ⟨ts, h, hcheck⟩ := @exists_ok_of_any _ _
    (parseTerms .default "(1d4)[n] x - abs( 3 )y*2d (06) + foo")
    (fun ts => formulaOf ts == "(1d4)[n]x - abs(3)y * 2d(06) + foo" && ts.all Term.isIntegral
      && decide (Piece.Apart [] (ts.flatMap Term.pieces)) && decide (ts.IsChain Unclaimed))
    (by decide +kernel)
  obtain ⟨hcheck, unclaimed⟩ := Bool.and_eq_true_iff.1 hcheck
  obtain ⟨hcheck, apart⟩ := Bool.and_eq_true_iff.1 hcheck
  obtain ⟨printed, integral⟩ := Bool.and_eq_true_iff.1 hcheck
  exact ⟨ts, h, beq_iff_eq.1 printed, exists_parseTerms_formulaOf Config.ownLetters_default h
    (List.all_eq_true.1 integral) ⟨of_decide_eq_true apart, of_decide_eq_true unclaimed⟩⟩

/-- A word that is set apart from a group by a space is printed as the name of a function. -/
theorem create_formula_calls :
    ∃ r s, Roll.create (.str "abs (3)") .null .null .default = .ok r
      ∧ r.terms.map Term.termClass = [.text, .group]
      ∧ Roll.create r.formula .null .null .default = .ok s
      ∧ s.terms.map Term.termClass = [.call] := by
  obtain ⟨r, hr, hcheck⟩ := @exists_ok_of_any _ _
    (Roll.create (.str "abs (3)") .null .null .default)
    (fun r => r.terms.map Term.termClass == [TermClass.text, TermClass.group]
      && (Roll.create r.formula .null .null .default).toOption.any fun s =>
        s.terms.map Term.termClass == [TermClass.call])
    (by decide +kernel)
  obtain ⟨classes, again⟩ := Bool.and_eq_true_iff.1 hcheck
  obtain ⟨s, hs, classes'⟩ := exists_ok_of_any again
  exact ⟨r, s, hr, beq_iff_eq.1 classes, hs, beq_iff_eq.1 classes'⟩

end Formula

end DiceFormula
