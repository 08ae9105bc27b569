import DiceFormula.Proofs.Formula.Alternation
import DiceFormula.Proofs.Formula.Arguments
import DiceFormula.Proofs.Formula.Words
import DiceFormula.Proofs.Formula.Written

/-!
# Values that are read as themselves

A number, some dice, a group, a call or a pool of a formula is read as itself when it is written
alone (`Formula.readAs_of_stands`). What is written is not what stood in the formula: white space,
leading zeros and what modifiers do not need are gone, and the letter of some dice is small. But it
is made of atoms of the formula, but for letters and digits, and none of these is a bracket, a sign
or a space (`Atom.Tidy`).
-/

namespace DiceFormula

variable {config : Config} {check : String → Except Error Unit}

/-! ## Tidy atoms -/

namespace Atom

/-- The atom may stand in a value outside of groups, and is not changed when a text is
normalized. -/
structure Tidy (a : Atom) : Prop where
  outside : a.Outside
  inValue : (Piece.atom a).InValue
  settled : Formula.Settled a.text

theorem isBlank_of_isAlphanum {c : Char} (h : c.isAlphanum = true) : Blank.isBlank c = false := by
  have range : 48 ≤ c.toNat ∧ c.toNat < 128 := by
    rcases Bool.or_eq_true_iff.1 h with letter | digit
    · have := Arithmetic.toNat_of_isAlpha letter
      omega
    · have := Arithmetic.toNat_of_isDigit digit
      omega
  simp only [Blank.isBlank, Bool.or_eq_false_iff, Bool.and_eq_false_iff, decide_eq_false_iff_not,
    beq_eq_false_iff_ne, ne_eq]
  omega

theorem tidy_of_isAlphanum {c : Char} (h : c.isAlphanum = true) : (char c).Tidy where
  outside := outside_of_isAlphanum h
  inValue := by
    rintro d ⟨⟩
    refine ⟨?_, by rintro rfl; cases h⟩
    cases hs : Arithmetic.Sign.ofChar? c with
    | none => rfl
    | some s =>
      obtain rfl := Arithmetic.Sign.char_of_ofChar? hs
      cases s <;> cases h
  settled :=
    { solid := Blank.solid_of_forall (List.forall_mem_singleton.2 (isBlank_of_isAlphanum h))
      dollar := by
        intro hd
        obtain rfl := List.mem_singleton.1 hd
        cases h }

end Atom

/-- The atoms of a text between the groups of a formula are tidy. -/
theorem Formula.InText.tidy {formula : String} {ps : List Piece}
    (hps : Piece.ofText (normalize formula) = .ok ps) (dollar : '$' ∉ (normalize formula).toList)
    {a : Atom} (h : InText ps a) : a.Tidy := by
  obtain ⟨mem, outside⟩ := Piece.mem_of_ofText hps h.mem
  have squeezed : Blank.IsSqueezed false (normalize formula).toList := by
    rw [normalize, String.toList_ofList]
    exact (Blank.solid_normalize _).squeezed
  have stretch : a.text <:+: (normalize formula).toList := by
    obtain ⟨before, after, split⟩ := List.append_of_mem mem
    refine ⟨Atom.render before, Atom.render after, ?_⟩
    rw [← Atom.render_scan (normalize formula).toList, split, Atom.render_append, Atom.render_cons,
      List.append_assoc]
  have dollar : '$' ∉ a.text := fun hm => dollar (stretch.subset hm)
  cases a with
  | char c =>
    refine ⟨outside, fun d hd => h.plain d (Piece.atom.inj hd), ?_, dollar⟩
    refine Blank.solid_of_forall (List.forall_mem_singleton.2 ?_)
    rw [← Bool.not_eq_true]
    intro blank
    exact (h.plain c rfl).2 (squeezed.eq_space (stretch.subset List.mem_cons_self) blank)
  | flavor body =>
    refine ⟨outside, fun d hd => (by cases hd), ?_, dollar⟩
    refine Blank.Solid.between rfl rfl (squeezed.stretch ?_)
    exact ((List.prefix_append _ _).isInfix.trans (List.suffix_cons _ _).isInfix).trans stretch

/-! ## Flavors -/

namespace Leaf

/-- A flavor is one atom. -/
theorem scan_flavorChars {flavor : Option (List Char)} (h : IsFlavor flavor) (cs : List Char) :
    Atom.scan (flavorChars flavor ++ cs) = flavor.toList.map Atom.flavor ++ Atom.scan cs := by
  cases flavor with
  | none => rfl
  | some f =>
    have neat : (Atom.flavor f).Neat := (h f rfl).2
    exact neat.scan_append cs

/-- The atoms of a text with a flavor are tidy if its characters and the flavor are. -/
theorem tidy_scan {front : List Char} {flavor : Option (List Char)} (h : IsFlavor flavor)
    (chars : ∀ c ∈ front, (Atom.char c).Tidy) (body : ∀ f ∈ flavor, (Atom.flavor f).Tidy) :
    ∀ a ∈ Atom.scan (front ++ flavorChars flavor), a.Tidy := by
  have loose : '[' ∉ front := fun hm => (chars _ hm).outside.1 rfl
  have flavorOnly := scan_flavorChars h []
  rw [List.append_nil, Atom.scan, List.append_nil] at flavorOnly
  rw [Atom.scan_append_of_not_mem loose, flavorOnly]
  refine List.forall_mem_append.2 ⟨List.forall_mem_map.2 chars, List.forall_mem_map.2 ?_⟩
  exact fun f hf => body f (Option.mem_toList.1 hf)

/-- A text with a flavor is made of tidy atoms: so are its characters and the flavor. -/
theorem tidy_of_render {as : List Atom} (h : ∀ a ∈ as, a.Tidy) {front rest : List Char}
    {flavor : Option (List Char)} (text : Atom.render as = front ++ (flavorChars flavor ++ rest))
    (loose : '[' ∉ front) (hf : IsFlavor flavor) :
    (∀ c ∈ front, (Atom.char c).Tidy) ∧ ∀ f ∈ flavor, (Atom.flavor f).Tidy := by
  have atoms := Atom.scan_render fun a ha => (h a ha).outside.neat
  rw [text, Atom.scan_append_of_not_mem loose, scan_flavorChars hf] at atoms
  rw [← atoms] at h
  obtain ⟨chars, body⟩ := List.forall_mem_append.1 h
  refine ⟨List.forall_mem_map.1 chars, fun f hf => ?_⟩
  exact List.forall_mem_map.1 (List.forall_mem_append.1 body).1 f (Option.mem_toList.2 hf)

end Leaf

/-! ## Terms as pieces -/

/-- The pieces that a term is written with are tidy. -/
structure Term.Tidy (t : Term) : Prop where
  group : ∀ g ∈ t.group?, g.Intact ∧ Formula.Settled g.written
  tail : ∀ a ∈ Atom.scan t.tail.toList, a.Tidy

namespace Formula

theorem settled_flatMap {α : Type} {as : List α} {f : α → List Char}
    (h : ∀ a ∈ as, Settled (f a)) : Settled (as.flatMap f) := by
  induction as with
  | nil => exact ⟨Blank.solid_of_forall (List.forall_mem_nil _), List.not_mem_nil⟩
  | cons a as ih =>
    obtain ⟨ha, has⟩ := List.forall_mem_cons.1 h
    exact ha.append (ih has)

theorem pieces_ne_nil {t : Term} (h : t.formulaText ≠ "") : t.pieces ≠ [] := by
  intro none
  have text := Term.written_pieces t
  rw [none] at text
  exact h (String.toList_eq_nil_iff.1 text.symm)

/-- Tidy terms side by side are read as they are when they are written, if they are so as pieces. -/
theorem readAs_of_tidy {rs us : List Term} (full : rs.flatMap Term.pieces ≠ [])
    (tidy : ∀ t ∈ rs, t.Tidy)
    (read : tokenTerms accept config (.value (rs.flatMap Term.pieces)) = .ok us) :
    ReadAs config rs us := by
  have each : ∀ p ∈ rs.flatMap Term.pieces, p.Whole ∧ p.InValue ∧ Settled p.written := by
    intro p hp
    obtain ⟨t, ht, hp⟩ := List.mem_flatMap.1 hp
    rcases List.mem_append.1 hp with hp | hp
    · obtain ⟨g, hg, rfl⟩ := List.mem_map.1 hp
      obtain ⟨intact, settled⟩ := (tidy t ht).group g (Option.mem_toList.1 hg)
      exact ⟨intact, fun c hc => (by cases hc), settled⟩
    · obtain ⟨a, ha, rfl⟩ := List.mem_map.1 hp
      obtain ⟨outside, inValue, settled⟩ := (tidy t ht).tail a ha
      exact ⟨outside, inValue, settled⟩
  refine ⟨full, fun p hp => (each p hp).1, fun p hp => (each p hp).2.1, ?_, read⟩
  rw [← written_flatMap_pieces]
  exact settled_flatMap fun p hp => (each p hp).2.2

/-! ## Leaves -/

theorem pieces_of_leaf {t : Term} (leaf : t.body.isLeaf = true) :
    t.group? = none ∧ t.tail = t.formulaText := by
  obtain ⟨body, l, carried⟩ := t
  cases body with
  | number | operator | text | dice => exact ⟨rfl, rfl⟩
  | group | call | pool => cases leaf

/-- A leaf is read as itself if its text is classified as the leaf. -/
theorem tokenTerms_leaf {t : Term} (leaf : t.body.isLeaf = true)
    (read : Leaf.classify t.formulaText config false = .ok t) :
    tokenTerms accept config (.value t.pieces) = .ok [t] := by
  obtain ⟨none, text⟩ := pieces_of_leaf leaf
  have pieces : t.pieces = (Atom.scan t.formulaText.toList).map Piece.atom := by
    rw [Term.pieces, none, text]
    rfl
  have flat : (Piece.groups t.pieces).isEmpty = true := by
    rw [pieces, Piece.groups, List.filterMap_map]
    simp
  rw [tokenTerms, flat, if_pos rfl, pieces, Piece.render_map_atom, Atom.render_scan,
    String.ofList_toList, read]
  rfl

/-! ## Groups -/

theorem accept_forM (args : List String) : args.forM accept = .ok () := by
  induction args with
  | nil => rfl
  | cons a args ih => exact ih

theorem groupTerm_of_grouped {g : Group} {s : Suffix} {t : Term} (h : Grouped config s g t) :
    groupTerm accept config g s = .ok t := by
  cases h with
  | group inner => rfl
  | call hargs known =>
    simp only [groupTerm, hargs, bind_ok, accept_forM, known, Bool.false_eq_true, if_false]
    rfl
  | pool hargs =>
    simp only [groupTerm, hargs, bind_ok, accept_forM]
    rfl

end Formula

namespace Group

open Formula

variable {cs : List Char} {g : Group}

/-- A group that is cut out of a text with single spaces is intact. -/
theorem CutFrom.intact (h : g.CutFrom (Atom.scan cs)) (squeezed : Blank.IsSqueezed false cs) :
    g.Intact := by
  obtain ⟨as, stretch, inner, loose, level⟩ := h.inner
  have neat : ∀ a ∈ as, a.Neat := by
    intro a ha
    cases a with
    | char c =>
      rintro rfl
      exact loose ha
    | flavor body => exact Atom.not_mem_of_mem_scan (stretch.subset ha)
  have scanned : Atom.scan g.inner.toList = Atom.trim as := by
    rw [inner, String.toList_ofList, ← Atom.render_trim]
    exact Atom.scan_render fun a ha => neat a (Atom.trim_subset as ha)
  refine ⟨?_, ?_, ?_, h.fn⟩
  · rw [scanned]
    exact fun hm => loose (Atom.trim_subset as hm)
  · rw [scanned, Atom.level_trim, level]
  · rw [inner, String.toList_ofList]
    refine Blank.solid_trim (squeezed.stretch ?_)
    obtain ⟨before, after, text⟩ := stretch
    refine ⟨Atom.render before, Atom.render after, ?_⟩
    rw [← Atom.render_append, ← Atom.render_append, text, Atom.render_scan]

/-- All characters of a group stand in the text it is cut out of. -/
theorem CutFrom.subset (h : g.CutFrom (Atom.scan cs)) : g.inner.toList ⊆ cs := by
  obtain ⟨as, stretch, inner, -⟩ := h.inner
  intro c hc
  rw [inner, String.toList_ofList] at hc
  have := mem_render_of_infix stretch (Blank.mem_of_mem_trim hc)
  rwa [Atom.render_scan] at this

/-- A group stays intact if its text is written as its arguments. -/
theorem Intact.arguments (h : g.Intact) {args : List String}
    (hargs : Formula.arguments g.inner = .ok args) :
    (⟨g.bracket, g.fn, ",".intercalate args⟩ : Group).Intact where
  loose := by
    rw [scan_intercalate_arguments hargs]
    exact fun hm => neat_of_mem_joined hargs _ hm rfl
  level := (level_intercalate hargs _ _).trans h.level
  solid := solid_intercalate_arguments hargs h.solid.squeezed
  fn := h.fn

/-- Braces take no name. -/
theorem Intact.fn_eq_none (h : g.Intact) (brace : g.bracket = .brace) : g.fn = none := by
  rw [Option.eq_none_iff_forall_ne_some]
  intro name hname
  have paren := (h.fn name hname).1
  rw [brace] at paren
  cases paren

/-- An intact group is written without loose white space. -/
theorem Intact.settled (h : g.Intact) (dollar : '$' ∉ g.inner.toList) : Settled g.written := by
  have name : ∀ c ∈ g.name, (Atom.char c).Tidy := fun c hc =>
    Atom.tidy_of_isAlphanum (h.name c hc)
  have opening : Blank.isBlank g.bracket.opening = false ∧ '$' ≠ g.bracket.opening := by
    cases g.bracket <;> decide
  have closing : Blank.isBlank g.bracket.closing = false ∧ '$' ≠ g.bracket.closing := by
    cases g.bracket <;> decide
  have settled : Settled (g.name.flatMap fun c => (Atom.char c).text) :=
    settled_flatMap fun c hc => (name c hc).settled
  have text : (g.name.flatMap fun c => (Atom.char c).text) = g.name := List.flatMap_singleton' _
  rw [text] at settled
  refine settled.append ⟨Blank.Solid.between opening.1 closing.1 h.solid.squeezed, ?_⟩
  simp only [List.mem_cons, List.mem_append, List.not_mem_nil, or_false, not_or]
  exact ⟨opening.2, dollar, closing.2⟩

end Group

namespace Formula

/-! ## What follows a group -/

/-- The parts of a suffix can be written again. -/
structure Suffix.Tidy (b : Bracket) (s : Suffix) : Prop where
  isFlavor : Leaf.IsFlavor s.flavor
  flavor : ∀ f ∈ s.flavor, (Atom.flavor f).Tidy
  modifiers : ∀ c ∈ s.modifiers, isPoolModifierChar c = true ∧ (Atom.char c).Tidy
  none : b = .paren → s.modifiers = []

theorem Suffix.tidy_of_suffix? {b : Bracket} {as : List Atom} {s : Suffix}
    (tidy : ∀ a ∈ as, a.Tidy) (h : suffix? b (Atom.render as) = some s) : s.Tidy b := by
  cases b with
  | paren =>
    unfold suffix? flavorSuffix? at h
    dsimp only at h
    split at h
    · next f rest taken =>
      split at h
      · obtain rfl := Option.some.inj h
        obtain ⟨isFlavor, text⟩ := Leaf.of_takeFlavor taken
        obtain ⟨-, flavor⟩ := @Leaf.tidy_of_render as tidy [] rest (some f) text List.not_mem_nil
          isFlavor
        exact ⟨isFlavor, flavor, List.forall_mem_nil _, fun _ => rfl⟩
      · cases h
    · cases h
  | brace =>
    unfold suffix? poolSuffix? at h
    dsimp only at h
    rw [drop_length_takeWhile] at h
    cases taken : Leaf.takeFlavor ((Atom.render as).dropWhile isPoolModifierChar) with
    | mk flavor rest =>
      rw [taken] at h
      split at h
      · obtain rfl := Option.some.inj h
        obtain ⟨isFlavor, after⟩ := Leaf.of_takeFlavor taken
        have text : Atom.render as = (Atom.render as).takeWhile isPoolModifierChar
            ++ (Leaf.flavorChars flavor ++ rest) := by
          rw [← after, List.takeWhile_append_dropWhile]
        have loose : '[' ∉ (Atom.render as).takeWhile isPoolModifierChar := fun hm =>
          absurd (List.mem_takeWhile_imp hm) (by decide)
        obtain ⟨chars, flavor⟩ := Leaf.tidy_of_render tidy text loose isFlavor
        exact ⟨isFlavor, flavor, fun c hc => ⟨List.mem_takeWhile_imp hc, chars c hc⟩,
          fun h => by cases h⟩
      · cases h

theorem Follows.tidy {ps : List Piece} {g : Group} {s : Suffix} (h : Follows ps g s)
    (tidy : ∀ a, InText ps a → a.Tidy) : s.Tidy g.bracket := by
  rcases h with rfl | ⟨as, text, h⟩
  · exact ⟨fun f hf => (by cases hf), fun f hf => (by cases hf), List.forall_mem_nil _,
      fun _ => rfl⟩
  · exact Suffix.tidy_of_suffix? (fun a ha => tidy a (text a ha)) h

/-- The modifiers of a pool are a run. -/
theorem Suffix.Tidy.isRun {b : Bracket} {s : Suffix} (h : s.Tidy b) :
    Modifier.IsRun s.modifiers := by
  intro c hc notLetter
  obtain ⟨modifier, tidy⟩ := h.modifiers c hc
  have blank := tidy.settled.solid.begun
  simp only [isPoolModifierChar, Leaf.isModifierChar, Bool.and_eq_true, Bool.not_eq_true',
    Bool.or_eq_false_iff] at modifier
  simp only [Modifier.isSuffix, Bool.not_eq_true', Bool.or_eq_false_iff]
  tauto

/-- A pool is written with its modifiers from the first letter on. -/
theorem Suffix.Tidy.dropWhile {ms : List Char} {flavor : Option (List Char)}
    (h : Suffix.Tidy .brace ⟨ms, flavor⟩) :
    Suffix.Tidy .brace ⟨ms.dropWhile fun c => !Modifier.isLetter c, flavor⟩ where
  isFlavor := h.isFlavor
  flavor := h.flavor
  modifiers := fun c hc => h.modifiers c ((List.dropWhile_sublist _).subset hc)
  none := fun e => by cases e

/-- What follows a group is its suffix again, nothing if the suffix is empty. -/
theorem Suffix.Tidy.suffix? {b : Bracket} {s : Suffix} (h : s.Tidy b)
    (full : s.modifiers ++ Leaf.flavorChars s.flavor ≠ []) :
    Formula.suffix? b (s.modifiers ++ Leaf.flavorChars s.flavor) = some s := by
  obtain ⟨ms, flavor⟩ := s
  obtain ⟨isFlavor, -, modifiers, none⟩ := h
  dsimp only at *
  cases b with
  | paren =>
    obtain rfl := none rfl
    cases flavor with
    | none => exact absurd rfl full
    | some f =>
      rw [Formula.suffix?, flavorSuffix?, List.nil_append, Leaf.takeFlavor_flavorChars isFlavor]
      rfl
  | brace =>
    have ends : ∀ c ∈ (Leaf.flavorChars flavor).head?, isPoolModifierChar c = false := by
      intro c hc
      rw [Leaf.head_flavorChars hc]
      rfl
    have front := fun c hc => (modifiers c hc).1
    unfold Formula.suffix? poolSuffix?
    dsimp only
    rw [drop_length_takeWhile, takeWhile_append_of_head? front ends,
      dropWhile_append_of_head? front ends, Leaf.takeFlavor_flavorChars isFlavor]
    rfl

/-! ## Groups as they are written -/

/-- The term of a group that is written as the group `g` with the suffix `s`. -/
structure GroupedAs (config : Config) (t : Term) (g : Group) (s : Suffix) : Prop where
  group : t.group? = some g
  tail : t.tail.toList = s.modifiers ++ Leaf.flavorChars s.flavor
  grouped : Grouped config s g t
  intact : g.Intact
  dollar : '$' ∉ g.inner.toList
  suffix : s.Tidy g.bracket

theorem GroupedAs.tidy {t : Term} {g : Group} {s : Suffix} (h : GroupedAs config t g s) :
    t.Tidy where
  group := by
    rw [h.group]
    rintro g ⟨⟩
    exact ⟨h.intact, h.intact.settled h.dollar⟩
  tail := by
    rw [h.tail]
    exact Leaf.tidy_scan h.suffix.isFlavor (fun c hc => (h.suffix.modifiers c hc).2) h.suffix.flavor

/-- A group is written with its arguments and its suffix, without what modifiers do not need. -/
theorem exists_groupedAs {g : Group} {s : Suffix} {t : Term} (h : Grouped config s g t)
    (intact : g.Intact) (dollar : '$' ∉ g.inner.toList) (suffix : s.Tidy g.bracket) :
    ∃ g' s', GroupedAs config t g' s' := by
  have joined {args : List String} (hargs : arguments g.inner = .ok args) :
      '$' ∉ (",".intercalate args).toList := by
    intro hm
    exact (mem_intercalate_arguments hargs hm).elim (by decide) dollar
  have flavor := Leaf.toList_flavorText suffix.isFlavor
  cases h with
  | group inner =>
    refine ⟨_, s, rfl, ?_, .group inner, intact, dollar, suffix⟩
    rw [suffix.none rfl, List.nil_append]
    exact flavor
  | @call fn inner args hargs known =>
    refine ⟨_, s, rfl, ?_, .call (arguments_intercalate hargs) known, intact.arguments hargs,
      joined hargs, suffix⟩
    rw [suffix.none rfl, List.nil_append]
    exact flavor
  | @pool fn inner args hargs =>
    obtain rfl : fn = none := intact.fn_eq_none rfl
    obtain ⟨ms, f⟩ := s
    refine ⟨⟨.brace, none, ",".intercalate args⟩, _, rfl, ?_, ?_, intact.arguments hargs,
      joined hargs, suffix.dropWhile⟩
    · rw [← Hand.toList_written_splitValues suffix.isRun, ← flavor, ← String.toList_append]
      rfl
    · rw [← Modifier.splitValues_dropWhile suffix.isRun]
      exact .pool (arguments_intercalate hargs)

theorem segments_append {as : List Atom} (full : as ≠ []) {ps : List Piece}
    (h : ∀ p ∈ ps.head?, ∃ g, p = .group g) :
    segments (as.map Piece.atom ++ ps) = .text as :: segments ps := by
  induction as with
  | nil => exact absurd rfl full
  | cons a as ih =>
    rw [List.map_cons, List.cons_append, segments]
    by_cases last : as = []
    · subst last
      cases ps with
      | nil => rfl
      | cons p ps =>
        obtain ⟨g, rfl⟩ := h p rfl
        rfl
    · rw [ih last]
      rfl

theorem GroupedAs.pieces {t : Term} {g : Group} {s : Suffix} (h : GroupedAs config t g s) :
    t.pieces = .group g :: (Atom.scan t.tail.toList).map Piece.atom := by
  rw [Term.pieces, h.group]
  rfl

/-- A group that is written alone is read as its term. -/
theorem GroupedAs.segmentTerms {t : Term} {g : Group} {s : Suffix} (h : GroupedAs config t g s) :
    segmentTerms accept config (segments t.pieces) = .ok [t] := by
  have term := groupTerm_of_grouped h.grouped
  rw [h.pieces, segments]
  by_cases empty : t.tail.toList = []
  · have none : s = {} := by
      obtain ⟨ms, f⟩ := s
      obtain ⟨noModifiers, noFlavor⟩ := List.append_eq_nil_iff.1 (h.tail.symm.trans empty)
      cases f with
      | none => exact congrArg (Suffix.mk · none) noModifiers
      | some f => cases noFlavor
    rw [empty, Atom.scan, List.map_nil, segments, Formula.segmentTerms.eq_4, ← none, term]
    · rfl
    · intro as ss e
      cases e
  · have full : Atom.scan t.tail.toList ≠ [] := by
      intro none
      have := Atom.render_scan t.tail.toList
      rw [none] at this
      exact empty this.symm
    have text := @segments_append _ full [] fun p hp => by cases hp
    rw [List.append_nil] at text
    rw [text, segments, Formula.segmentTerms, Atom.render_scan, h.tail,
      h.suffix.suffix? (h.tail ▸ empty)]
    dsimp only
    rw [term]
    rfl

/-! ## Values of a formula -/

end Formula

/-- Whether the term is an integer if it is a number. -/
def Term.isIntegral (t : Term) : Bool :=
  match t.body with
  | .number (.float _) => false
  | _ => true

namespace Formula

/-- The term of a text that is written as the characters `cs`. Alone it may be dice, but no
number. -/
structure TextAs (config : Config) (t : Term) (cs : List Char) : Prop where
  eq : t = Leaf.textTerm cs config
  full : cs ≠ []
  tidy : ∀ a ∈ Atom.scan cs, a.Tidy
  notNumber : Leaf.readNumeral? cs = none

/-- What is known of the values of a formula: a leaf is classified as itself as it is written,
unless it is a text, and a group is written as a group. -/
inductive Printed (config : Config) : Term → Prop
  | leaf {t : Term} : t.body.isLeaf = true → t.isText = false → t.formulaText ≠ "" →
      (∀ a ∈ Atom.scan t.formulaText.toList, a.Tidy) →
      Leaf.classify t.formulaText config false = .ok t → Printed config t
  | text {t : Term} {cs : List Char} : TextAs config t cs → Printed config t
  | group {t : Term} {g : Group} {s : Suffix} : GroupedAs config t g s → Printed config t

theorem printed_number {k : Nat} {flavor : Option (List Char)} (isFlavor : Leaf.IsFlavor flavor)
    (tidy : ∀ f ∈ flavor, (Atom.flavor f).Tidy) :
    Printed config (.make (.number (.int k)) (Options.ofFlavor flavor) config) := by
  have digits := Arithmetic.isInt_toDigits k
  have text : (Term.make (.number (.int k)) (Options.ofFlavor flavor) config).formulaText.toList
      = Nat.toDigits 10 k ++ Leaf.flavorChars flavor := by
    have number : (Term.make (.number (.int k)) (Options.ofFlavor flavor) config).written.toList
        = Nat.toDigits 10 k := Arithmetic.intText_eq k
    rw [Term.formulaText, String.toList_append, number]
    exact congrArg _ (Leaf.toList_flavorText isFlavor)
  refine .leaf rfl rfl ?_ ?_ ?_
  · intro empty
    rw [empty] at text
    exact List.append_ne_nil_of_left_ne_nil digits.1 _ text.symm
  · rw [text]
    refine Leaf.tidy_scan isFlavor (fun c hc => Atom.tidy_of_isAlphanum ?_) tidy
    rw [Char.isAlphanum, digits.2 c hc, Bool.or_true]
  · rw [String.toList_inj.1 (text.trans String.toList_ofList.symm)]
    exact Leaf.classify_number isFlavor

theorem formulaText_textTerm (cs : List Char) :
    (Leaf.textTerm cs config).formulaText = String.ofList cs := by
  have silent : Term.flavorText (Leaf.textTerm cs config).flavor = "" := rfl
  rw [Term.formulaText, silent, String.append_empty]
  rfl

/-- A leaf that is a text says what stood in the formula, which is no number. -/
theorem text_of_classified {as : List Atom} (tidy : ∀ a ∈ as, a.Tidy) {adjacent : Bool} {t : Term}
    (h : Leaf.Classified config (Atom.render as) adjacent t) (text : t.isText = true) :
    t = Leaf.textTerm (Atom.render as) config ∧ Leaf.readNumeral? (Atom.render as) = none := by
  cases h with
  | operator | number => cases text
  | text notNumber => exact ⟨rfl, notNumber⟩
  | @dice d _ read hd =>
    obtain ⟨c, tail, after, rest, spells⟩ := Leaf.exists_of_readDice? read
    refine ⟨?_, Leaf.readNumeral?_eq_none spells.head spells.letter⟩
    rcases Leaf.cases_of_ofDice hd with ⟨-, rfl⟩ | ⟨-, kind, -, rfl⟩
    · -- only a line break could be overlooked
      have noBreak : '\n' ∉ Atom.render as := by
        intro hm
        have squeezed := (settled_flatMap fun a ha => (tidy a ha).settled).solid.squeezed
        exact absurd (squeezed.eq_space hm rfl) (by decide)
      obtain ⟨front, parts, -⟩ := spells.flavored
      have atEnd : rest = [] := by
        rcases Bool.or_eq_true_iff.1 spells.isEnd with none | broken
        · exact beq_iff_eq.1 none
        · refine absurd ?_ noBreak
          rw [parts, beq_iff_eq.1 broken]
          simp
      rw [spells.whole, atEnd, List.length_nil, Nat.sub_zero, List.take_length]
    · cases text

theorem printed_dice (own : config.OwnLetters) {as : List Atom} (tidy : ∀ a ∈ as, a.Tidy)
    {d : Leaf.DiceText} {c : Char} {tail after rest : List Char}
    (spells : Leaf.Spells (Atom.render as) d c tail after rest) {kind : DiceKind}
    (known : config.denomination? (String.ofList d.denomination) = some (.dice kind))
    (rolls : config.numericDie = .dice kind → Digit.readNat? d.denomination ≠ none) :
    Printed config (Leaf.diceTerm kind d config) := by
  obtain ⟨front, parts, loose, modifiers⟩ := spells.flavored
  have isFlavor := (Leaf.of_takeFlavor spells.flavor).1
  obtain ⟨chars, flavor⟩ := Leaf.tidy_of_render tidy parts loose isFlavor
  have solid : ∀ c ∈ d.modifiers, Blank.isBlank c = false := fun c hc =>
    (chars c (modifiers hc)).settled.solid.begun
  obtain ⟨read, number, name, ms, written⟩ := Leaf.classify_diceTerm own spells known rolls solid
  have text : (Leaf.diceTerm kind d config).formulaText.toList
      = number ++ 'd' :: (name ++ ms) ++ Leaf.flavorChars d.flavor := by
    rw [written.text]
    simp
  refine .leaf rfl rfl ?_ ?_ read
  · intro empty
    rw [empty] at text
    simp at text
  · rw [text]
    refine Leaf.tidy_scan isFlavor ?_ flavor
    intro c hc
    rcases List.mem_append.1 hc with hc | hc
    · refine Atom.tidy_of_isAlphanum ?_
      rw [Char.isAlphanum, written.number.2 c hc, Bool.or_true]
    rcases List.mem_cons.1 hc with rfl | hc
    · exact Atom.tidy_of_isAlphanum rfl
    rcases List.mem_append.1 hc with hc | hc
    · exact Atom.tidy_of_isAlphanum (written.name c hc)
    · exact chars c (modifiers (written.modifiers hc))

/-- A leaf of a formula is a number, some dice, or a text. -/
theorem printed_of_classified (own : config.OwnLetters) {as : List Atom} (full : as ≠ [])
    (tidy : ∀ a ∈ as, a.Tidy) {adjacent : Bool} {t : Term}
    (h : Leaf.Classified config (Atom.render as) adjacent t) (value : t.isOperator = false)
    (integral : t.isIntegral = true) : Printed config t := by
  by_cases text : t.isText = true
  · obtain ⟨eq, notNumber⟩ := text_of_classified tidy h text
    refine .text ⟨eq, Atom.render_ne_nil full, ?_, notNumber⟩
    rwa [Atom.scan_render fun a ha => (tidy a ha).outside.neat]
  cases h with
  | operator => cases value
  | text => exact absurd rfl text
  | @number n flavor read =>
    cases n with
    | float x => cases integral
    | int n =>
      obtain ⟨⟨text, value⟩, isFlavor, before, rest, parts, loose⟩ := Leaf.of_readNumeral? read
      obtain ⟨k, rfl⟩ := Leaf.exists_natCast_of_numeralValue value
      exact printed_number isFlavor (Leaf.tidy_of_render tidy parts loose isFlavor).2
  | @dice d _ read hd =>
    obtain ⟨c, tail, after, rest, spells⟩ := Leaf.exists_of_readDice? read
    rcases Leaf.cases_of_ofDice hd with ⟨-, rfl⟩ | ⟨⟨kind', known', rolls⟩, kind, known, rfl⟩
    · exact absurd rfl text
    · obtain rfl := TermClass.dice.inj (Option.some.inj (known'.symm.trans known))
      exact printed_dice own tidy spells known rolls

/-- **Every value of a formula is printed** so that it can be read again. -/
theorem printed_of_stands (own : config.OwnLetters) {formula : String} {ps : List Piece}
    (hps : Piece.ofText (normalize formula) = .ok ps) (dollar : '$' ∉ (normalize formula).toList)
    {t : Term} (h : Stands check config ps t) (value : t.isOperator = false)
    (integral : t.isIntegral = true) : Printed config t := by
  have tidy : ∀ a, InText ps a → a.Tidy := fun a ha => ha.tidy hps dollar
  cases h with
  | zero =>
    have noFlavor : Leaf.IsFlavor none := fun f hf => by cases hf
    exact @printed_number config 0 none noFlavor fun f hf => by cases hf
  | operator => cases value
  | @leaf as adjacent t full text read =>
    have classified := Leaf.classified_of_classify read
    rw [String.toList_ofList] at classified
    exact printed_of_classified own full (fun a ha => tidy a (text a ha)) classified value integral
  | @group g s t mem follows h =>
    have squeezed : Blank.IsSqueezed false (normalize formula).toList := by
      rw [normalize, String.toList_ofList]
      exact (Blank.solid_normalize _).squeezed
    have cut := Piece.cutFrom_of_ofText hps mem
    obtain ⟨g', s', grouped⟩ := exists_groupedAs (grouped_of_groupTerm h) (cut.intact squeezed)
      (fun hm => dollar (cut.subset hm)) (follows.tidy tidy)
    exact .group grouped

theorem Printed.tidy {t : Term} (h : Printed config t) : t.Tidy ∧ t.formulaText ≠ "" := by
  cases h with
  | leaf leaf _ full tidy =>
    obtain ⟨none, text⟩ := pieces_of_leaf leaf
    refine ⟨⟨?_, ?_⟩, full⟩
    · rw [none]
      intro g hg
      cases hg
    · rwa [text]
  | @text cs h =>
    obtain ⟨rfl, full, tidy, -⟩ := h
    have text := @formulaText_textTerm config cs
    refine ⟨⟨fun g hg => (by cases hg), ?_⟩, ?_⟩
    · rw [(pieces_of_leaf rfl).2, text, String.toList_ofList]
      exact tidy
    · rw [text]
      simpa using full
  | @group g s h =>
    refine ⟨h.tidy, ?_⟩
    intro empty
    have written := Term.written_pieces t
    rw [Term.pieces, h.group, empty] at written
    simp [Piece.written, Group.written] at written

theorem isEmpty_groups {rs : List Term} {t : Term} {g : Group} (ht : t ∈ rs)
    (h : t.group? = some g) : (Piece.groups (rs.flatMap Term.pieces)).isEmpty = false := by
  have mem : Piece.group g ∈ rs.flatMap Term.pieces := by
    refine List.mem_flatMap.2 ⟨t, ht, ?_⟩
    rw [Term.pieces, h]
    exact List.mem_cons_self
  have found : g ∈ Piece.groups (rs.flatMap Term.pieces) :=
    List.mem_filterMap.2 ⟨.group g, mem, rfl⟩
  rw [← Bool.not_eq_true, List.isEmpty_iff]
  intro none
  rw [none] at found
  exact absurd found List.not_mem_nil

/-- **Every value but a text is read as itself.** -/
theorem Printed.readAs {t : Term} (h : Printed config t) (notText : t.isText = false) :
    ReadAs config [t] [t] := by
  obtain ⟨tidy, full⟩ := h.tidy
  refine readAs_of_tidy ?_ (List.forall_mem_singleton.2 tidy) ?_
  · rw [List.flatMap_singleton]
    exact pieces_ne_nil full
  · cases h with
    | leaf leaf _ _ _ read => simpa only [List.flatMap_singleton] using tokenTerms_leaf leaf read
    | text h =>
      rw [h.eq] at notText
      cases notText
    | @group g s h =>
      rw [tokenTerms, isEmpty_groups (List.mem_singleton_self t) h.group,
        if_neg Bool.false_ne_true, List.flatMap_singleton, h.segmentTerms]

end Formula

end DiceFormula
