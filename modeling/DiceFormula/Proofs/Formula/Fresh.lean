import DiceFormula.Proofs.Formula.Parsing
import DiceFormula.Proofs.Formula.TokenPieces
import DiceFormula.Proofs.Record.Storable
import DiceFormula.Proofs.Text.Blank

/-!
# Terms of a formula

Whatever the parser makes of a formula is fresh: its terms have not been evaluated, carry nothing,
hold texts and defined numbers only, and say something (`Formula.fresh_of_parse`). The proof follows
the parser from its leaves to the whole formula. Its one obligation beside freshness is that no
token and no segment is empty, since an empty text would be a term that says nothing.
-/

namespace DiceFormula

variable {config : Config}

/-! ## Leaves -/

theorem Options.isText_flavor {o : Options} {s : String} (h : o.lookup "flavor" = some (.str s)) :
    o.flavor.IsText := by
  unfold Options.flavor Value.orElse
  rw [h]
  split
  · exact ⟨s, rfl⟩
  · exact ⟨"", rfl⟩

theorem Options.isText_flavor_ofFlavor (flavor : Option (List Char)) :
    (Options.ofFlavor flavor).flavor.IsText := by
  have none : Options.flavor [] = .str "" := rfl
  fun_cases Options.ofFlavor flavor with
  | case1 | case3 => exact ⟨"", none⟩
  | case2 f => exact Options.isText_flavor List.lookup_cons_self

namespace Term

/-- A term that is made of a content is fresh if the content is. -/
theorem fresh_make {body : Body} {flavor : Option (List Char)}
    (hb : Body.Storable config (.bool false) body)
    (hr : (make body (Options.ofFlavor flavor) config).rolls = [])
    (hw : (make body (Options.ofFlavor flavor) config).written ≠ "") :
    (make body (Options.ofFlavor flavor) config).Fresh config where
  storable := ⟨⟨rfl, rfl, ⟨false, rfl⟩, Options.isText_flavor_ofFlavor flavor⟩, hb, trivial⟩
  carried := rfl
  rolls := hr
  mark := rfl
  written := hw

theorem fresh_number {n : Number} (flavor : Option (List Char)) (h : n.IsDefined) :
    (make (.number n) (Options.ofFlavor flavor) config).Fresh config :=
  fresh_make h rfl n.formulaText_ne_empty

theorem fresh_operator (s : Arithmetic.Sign) :
    (make (.operator s) (Options.ofFlavor none) config).Fresh config :=
  fresh_make trivial rfl (by simp [make, written])

end Term

namespace Leaf

/-- A leaf becomes a fresh term that is no group and no call. -/
structure Made (config : Config) (t : Term) : Prop where
  fresh : t.Fresh config
  notIntermediate : t.isIntermediate = false

theorem made_textTerm {cs : List Char} (h : cs ≠ []) : Made config (textTerm cs config) where
  fresh := @Term.fresh_make _ _ none ⟨_, rfl⟩ rfl
    (by simpa [Term.make, Term.written, Value.text] using h)
  notIntermediate := rfl

theorem isWritten_splitValues (text : String) :
    Hand.IsWritten { modifiers := Modifier.splitValues text } := by
  intro m hm
  obtain ⟨s, -, rfl⟩ := List.mem_map.1 hm
  exact ⟨s, rfl⟩

/-- A denomination that makes dice makes dice of a kind that the engine knows. -/
theorem knows_of_denomination? {text : String} {k : DiceKind}
    (h : config.denomination? text = some (.dice k)) : config.Knows (.dice k) := by
  have known {key : String} (h : config.kinds.lookup key = some (.dice k)) :
      config.kinds.any (·.2 == .dice k) = true := by
    obtain ⟨front, back, hkinds, -⟩ := List.lookup_eq_some_iff.1 h
    simp [hkinds]
  unfold Config.denomination? at h
  split at h
  · exact known h
  · exact known h

theorem made_of_ofDice {t : DiceText} {u : Term} (hw : t.whole ≠ [])
    (h : ofDice t config = .ok u) : Made config u := by
  rcases cases_of_ofDice h with ⟨-, rfl⟩ | ⟨-, kind, hkind, rfl⟩
  · exact made_textTerm hw
  · refine ⟨Term.fresh_make ⟨⟨knows_of_denomination? hkind, ⟨_, rfl⟩, ?_,
      isWritten_splitValues _⟩, .inr rfl⟩ rfl ?_, rfl⟩
    · cases kind with
      | die =>
        dsimp only [facesOf]
        cases Digit.readNat? t.denomination <;> exact ⟨rfl, rfl⟩
      | coin | fate => exact ⟨rfl, rfl⟩
    · simp [Term.make, Term.written, Dice.written]

theorem length_takeFlavor_le (cs : List Char) : (takeFlavor cs).2.length ≤ cs.length := by
  unfold takeFlavor
  split
  · split
    · next h =>
      have := Atom.length_of_cutFlavor? h
      simp only [List.length_cons]
      omega
    · exact Nat.le_refl _
  · exact Nat.le_refl _

theorem length_of_takeDenomination? {cs name rest : List Char}
    (h : takeDenomination? cs = some (name, rest)) : rest.length < cs.length := by
  unfold takeDenomination? at h
  split at h
  · cases h
  · next c r =>
    by_cases hc : c.isDigit = true
    · rw [if_pos hc] at h
      simp only [Option.some.injEq, Prod.mk.injEq] at h
      rw [← h.2, List.length_drop, List.takeWhile_cons_of_pos hc, List.length_cons]
      simp only [List.length_cons]
      omega
    · rw [if_neg hc] at h
      split at h
      · simp only [Option.some.injEq, Prod.mk.injEq] at h
        rw [← h.2, List.length_cons]
        exact Nat.lt_succ_self _
      · cases h

/-- Dice have at least a letter that makes them dice, and a denomination. -/
theorem two_le_length_of_readDice? {cs : List Char} {t : DiceText} (h : readDice? cs = some t) :
    2 ≤ t.whole.length := by
  unfold readDice? at h
  dsimp only at h
  split at h
  · next d rest hrest =>
    split at h
    · obtain ⟨⟨name, after⟩, hname, h⟩ := Option.bind_eq_some_iff.1 h
      split at h
      · obtain rfl := Option.some.inj h
        have hcs : (d :: rest).length ≤ cs.length := by
          rw [← hrest, Modifier.takeNumber, List.length_drop]
          exact Nat.sub_le _ _
        have hafter := length_of_takeDenomination? hname
        have hflavor := length_takeFlavor_le
          (after.drop (after.takeWhile isModifierChar).length)
        simp only [List.length_drop, List.length_cons] at hflavor hcs
        simp only [List.length_take]
        omega
      · cases h
    · cases h
  · cases h

theorem whole_ne_nil_of_readDice? {cs : List Char} {t : DiceText} (h : readDice? cs = some t) :
    t.whole ≠ [] := by
  have := two_le_length_of_readDice? h
  exact List.ne_nil_of_length_pos (by omega)

theorem isDefined_of_readNumeral? {cs : List Char} {n : Number} {flavor : Option (List Char)}
    (h : readNumeral? cs = some (n, flavor)) : n.IsDefined := by
  have read {b : Bool} {text : List Char} {f : Option (List Char)}
      (h : (if b then none else some (Arithmetic.Token.numeralValue text, f)) = some (n, flavor)) :
      n.IsDefined := by
    by_cases hb : b = true
    · rw [if_pos hb] at h
      cases h
    · rw [if_neg hb] at h
      simp only [Option.some.injEq, Prod.mk.injEq] at h
      rw [← h.1]
      exact Number.isDefined_numeralValue _
  unfold readNumeral? at h
  dsimp only at h
  split at h <;> exact read h

/-- A text that says something is a term that says something. -/
theorem made_of_classify {text : String} {adjacent : Bool} {t : Term} (ht : text ≠ "")
    (h : classify text config adjacent = .ok t) : Made config t := by
  cases classified_of_classify h with
  | operator => exact ⟨Term.fresh_operator _, rfl⟩
  | number hn => exact ⟨Term.fresh_number _ (isDefined_of_readNumeral? hn), rfl⟩
  | text => exact made_textTerm (by simpa using ht)
  | dice hd h => exact made_of_ofDice (whole_ne_nil_of_readDice? hd) h

end Leaf

/-! ## Texts -/

theorem Atom.render_ne_nil {as : List Atom} (h : as ≠ []) : Atom.render as ≠ [] := by
  cases as with
  | nil => exact absurd rfl h
  | cons a as => cases a <;> simp [Atom.render, Atom.text]

theorem Piece.render_ne_empty {ps : List Piece} (h : ps ≠ []) : Piece.render ps ≠ "" := by
  cases ps with
  | nil => exact absurd rfl h
  | cons p ps =>
    cases p with
    | atom a => cases a <;> simp [Piece.render, Piece.renderFrom, Atom.text]
    | group g => simp [Piece.render, Piece.renderFrom]

/-- An atom in front adds no group. -/
theorem Piece.group_mem_of_mem_cons {g : Group} {a : Atom} {ps : List Piece}
    (h : group g ∈ atom a :: ps) : group g ∈ ps := by
  simpa using h

namespace Formula

/-- The segment is a group, or a text with something in it. -/
def Segment.IsFull : Segment → Prop
  | .text as => as ≠ []
  | .group _ => True

theorem isFull_segments (ps : List Piece) : ∀ s ∈ segments ps, s.IsFull := by
  fun_induction segments ps with
  | case1 => exact List.forall_mem_nil _
  | case2 a ps ih =>
    unfold Segment.consAtom
    split
    · next as ss e =>
      rw [e] at ih
      exact List.forall_mem_cons.2 ⟨List.cons_ne_nil _ _, (List.forall_mem_cons.1 ih).2⟩
    · exact List.forall_mem_cons.2 ⟨List.cons_ne_nil _ _, ih⟩
  | case3 g ps ih => exact List.forall_mem_cons.2 ⟨trivial, ih⟩

/-! ## Groups -/

theorem trimmed_of_arguments {inner : String} {args : List String}
    (h : arguments inner = .ok args) : Trimmed args := by
  obtain ⟨-, rfl⟩ := splitTopLevel_eq_ok.1 (arguments_eq_ok.1 h).1
  intro s hm
  obtain ⟨part, -, rfl⟩ := List.mem_map.1 hm
  exact Blank.trimString_ofList_trim _

theorem fresh_of_groupTerm {check : String → Except Error Unit} {g : Group} {s : Suffix} {t : Term}
    (h : groupTerm check config g s = .ok t) : t.Fresh config := by
  cases grouped_of_groupTerm h with
  | group =>
    exact Term.fresh_make ⟨⟨_, rfl⟩, rfl⟩ rfl (by simp [Term.make, Term.written])
  | pool hargs =>
    exact Term.fresh_make ⟨trimmed_of_arguments hargs, Leaf.isWritten_splitValues _, trivial⟩ rfl
      (by simp [Term.make, Term.written])
  | call hargs =>
    exact Term.fresh_make ⟨⟨_, rfl⟩, trimmed_of_arguments hargs, rfl, rfl⟩ rfl
      (by simp [Term.make, Term.written])

/-- What holds of the terms of all leaves and groups of a token holds of all its terms. -/
theorem forall_of_segmentTerms {P : Term → Prop} {check : String → Except Error Unit}
    {ss : List Segment} {ts : List Term}
    (leaf : ∀ as, Segment.text as ∈ ss → ∀ t,
      Leaf.classify (String.ofList (Atom.render as)) config true = .ok t → P t)
    (group : ∀ g, Segment.group g ∈ ss → ∀ s t, groupTerm check config g s = .ok t → P t)
    (h : segmentTerms check config ss = .ok ts) : ∀ t ∈ ts, P t := by
  rw [segmented_iff] at h
  induction h with
  | done => exact List.forall_mem_nil _
  | text ht _ ih =>
    refine List.forall_mem_cons.2 ⟨leaf _ List.mem_cons_self _ ht, ih ?_ ?_⟩
    · exact fun as has => leaf as (List.mem_cons_of_mem _ has)
    · exact fun g hg => group g (List.mem_cons_of_mem _ hg)
  | suffixed _ ht _ ih =>
    refine List.forall_mem_cons.2 ⟨group _ List.mem_cons_self _ _ ht, ih ?_ ?_⟩
    · exact fun as has => leaf as (List.mem_cons_of_mem _ (List.mem_cons_of_mem _ has))
    · exact fun g hg => group g (List.mem_cons_of_mem _ (List.mem_cons_of_mem _ hg))
  | group _ ht _ ih =>
    refine List.forall_mem_cons.2 ⟨group _ List.mem_cons_self _ _ ht, ih ?_ ?_⟩
    · exact fun as has => leaf as (List.mem_cons_of_mem _ has)
    · exact fun g hg => group g (List.mem_cons_of_mem _ hg)

theorem mem_of_mem_segments {g : Group} {ps : List Piece} (h : Segment.group g ∈ segments ps) :
    Piece.group g ∈ ps := by
  fun_induction segments ps with
  | case1 => exact absurd h List.not_mem_nil
  | case2 a ps ih =>
    refine List.mem_cons_of_mem _ (ih ?_)
    unfold Segment.consAtom at h
    split at h
    · next as ss e =>
      rw [e]
      exact (List.mem_cons.1 h).elim nofun (List.mem_cons_of_mem _)
    · exact (List.mem_cons.1 h).elim nofun id
  | case3 g' ps ih =>
    rcases List.mem_cons.1 h with h | h
    · obtain rfl := Segment.group.inj h
      exact List.mem_cons_self
    · exact List.mem_cons_of_mem _ (ih h)

theorem group_mem_of_mem_text_cons {g : Group} {as : List Atom} {ss : List Segment}
    (h : Segment.group g ∈ .text as :: ss) : Segment.group g ∈ ss := by
  simpa using h

theorem group_mem_segments {g : Group} {ps : List Piece} (h : .group g ∈ ps) :
    Segment.group g ∈ segments ps := by
  have kept {a : Atom} {ss : List Segment} (h : Segment.group g ∈ ss) :
      Segment.group g ∈ Segment.consAtom a ss := by
    unfold Segment.consAtom
    split
    · exact List.mem_cons_of_mem _ (group_mem_of_mem_text_cons h)
    · exact List.mem_cons_of_mem _ h
  fun_induction segments ps with
  | case1 => cases h
  | case2 a ps ih => exact kept (ih (Piece.group_mem_of_mem_cons h))
  | case3 g' ps ih =>
    rcases List.mem_cons.1 h with h | h
    · exact List.mem_cons.2 (.inl (congrArg Segment.group (Piece.group.inj h)))
    · exact List.mem_cons_of_mem _ (ih h)

/-- Every group among the segments makes a term. -/
theorem exists_groupTerm_of_segmentTerms {check : String → Except Error Unit} {g : Group}
    {ss : List Segment} {ts : List Term} (h : segmentTerms check config ss = .ok ts)
    (hg : .group g ∈ ss) :
    ∃ s, ∃ t ∈ ts, groupTerm check config g s = .ok t := by
  rw [segmented_iff] at h
  induction h with
  | done => cases hg
  | text _ _ ih =>
    obtain ⟨s, u, hu, made⟩ := ih (group_mem_of_mem_text_cons hg)
    exact ⟨s, u, List.mem_cons_of_mem _ hu, made⟩
  | @suffixed g' as s ss t ts _ ht _ ih =>
    rcases List.mem_cons.1 hg with hg | hg
    · obtain rfl := Segment.group.inj hg
      exact ⟨s, t, List.mem_cons_self, ht⟩
    · obtain ⟨s, u, hu, made⟩ := ih (group_mem_of_mem_text_cons hg)
      exact ⟨s, u, List.mem_cons_of_mem _ hu, made⟩
  | @group g' ss t ts _ ht _ ih =>
    rcases List.mem_cons.1 hg with hg | hg
    · obtain rfl := Segment.group.inj hg
      exact ⟨{}, t, List.mem_cons_self, ht⟩
    · obtain ⟨s, u, hu, made⟩ := ih hg
      exact ⟨s, u, List.mem_cons_of_mem _ hu, made⟩

theorem forall_of_tokenTerms {P : Term → Prop} {check : String → Except Error Unit}
    {token : FormulaToken} {ts : List Term} (hf : token.IsFull)
    (sign : ∀ s, P (.make (.operator s) [] config))
    (leaf : ∀ text adjacent t, text ≠ "" → Leaf.classify text config adjacent = .ok t → P t)
    (group : ∀ g s t, (∃ ps, token = .value ps ∧ Piece.group g ∈ ps) →
      groupTerm check config g s = .ok t → P t)
    (h : tokenTerms check config token = .ok ts) : ∀ t ∈ ts, P t := by
  cases tokened_of_tokenTerms h with
  | sign s => exact List.forall_mem_singleton.2 (sign s)
  | @text as t ht =>
    refine List.forall_mem_singleton.2 (leaf _ _ t ?_ ht)
    have full : as ≠ [] := fun e => hf (by rw [e]; rfl)
    simpa using Atom.render_ne_nil full
  | @groups ps ts _ h =>
    refine forall_of_segmentTerms ?_ ?_ h
    · intro as has t ht
      refine leaf _ _ t ?_ ht
      simpa using Atom.render_ne_nil (isFull_segments ps _ has)
    · exact fun g hg s t ht => group g s t ⟨ps, rfl, mem_of_mem_segments hg⟩ ht

/-! ## Formulas -/

theorem fresh_of_validateTerms {ts us : List Term} (hf : ∀ t ∈ ts, t.Fresh config)
    (h : validateTerms config ts = .ok us) : us ≠ [] ∧ ∀ t ∈ us, t.Fresh config := by
  obtain ⟨rfl | rfl, ⟨t, ht, -⟩, -⟩ := of_validateTerms h
  · refine ⟨?_, hf⟩
    rintro rfl
    cases ht
  · exact ⟨List.cons_ne_nil _ _, List.forall_mem_cons.2 ⟨Term.fresh_number none trivial, hf⟩⟩

/-- What holds of the terms of all tokens holds of all terms. -/
theorem forall_of_allTerms {P : Term → Prop} {check : String → Except Error Unit}
    {tokens : List FormulaToken} {us : List Term} (h : allTerms check config tokens = .ok us)
    (token : ∀ token ∈ tokens, ∀ ts, tokenTerms check config token = .ok ts → ∀ t ∈ ts, P t) :
    ∀ t ∈ us, P t := by
  obtain ⟨tss, htss, h⟩ := bind_eq_ok.1 h
  obtain rfl := Except.ok.inj h
  intro t ht
  obtain ⟨ts, hts, ht⟩ := List.mem_flatten.1 ht
  exact forall_of_mapM_eq_ok (P := fun ts => ∀ t ∈ ts, P t) htss token ts hts t ht

theorem fresh_of_readTerms {fuel : Nat} {formula : String} {ts : List Term}
    (h : readTerms config fuel formula = .ok ts) : ts ≠ [] ∧ ∀ t ∈ ts, t.Fresh config := by
  obtain ⟨fuel, ps, us, rfl, -, -, hus, hts⟩ := exists_of_readTerms h
  refine fresh_of_validateTerms (forall_of_allTerms hus ?_) hts
  intro token ht ts h
  exact forall_of_tokenTerms (FormulaToken.isFull_ofPieces _ token ht) Term.fresh_operator
    (fun _ _ _ hne h => (Leaf.made_of_classify hne h).fresh)
    (fun _ _ _ _ h => fresh_of_groupTerm h) h

/-- **The parser makes fresh terms**, at least one. -/
theorem fresh_of_parse {formula data : Value} {p : Parsed}
    (h : parse formula data config = .ok p) : p.terms ≠ [] ∧ ∀ t ∈ p.terms, t.Fresh config := by
  obtain ⟨fuel, text, h⟩ := exists_readTerms_of_parse h
  exact fresh_of_readTerms h

end Formula

end DiceFormula
