import DiceFormula.Proofs.Arithmetic.Exact
import DiceFormula.Proofs.Formula.Nesting

/-!
# Items of a plain formula

The terms of a plain formula come from items: signs, numerals, and groups whose texts are plain
formulas again. The items have the tokens that the text has as plain arithmetic
(`Formula.exists_items`), and validation lets them through only if operands and signs alternate,
with one sign more in front at most (`Formula.exists_opens`). A sign in front gets a zero before it,
which no token stands for.
-/

namespace DiceFormula

open Arithmetic

/-! ## Items -/

/-- An operand of a plain formula: a numeral, or a group with its text and a derivation of it. -/
inductive Operand
  | numeral (digits : List Char)
  | group (text : String) (tree : SumTree)

namespace Operand

/-- The operand in plain arithmetic. -/
def tree : Operand → UnaryTree
  | numeral ds => .atom (.number ds)
  | group _ d => .atom (.group d)

/-- The term that the parser makes of the operand. -/
def term (config : Config) : Operand → Term
  | numeral ds => .make (.number (.int (digitsValue ds))) [] config
  | group s _ => .make (.group (.str s) none) [] config

/-- A numeral has digits, and what is known of a group is `P`. -/
def Ok (P : String → SumTree → Prop) : Operand → Prop
  | numeral ds => IsInt ds
  | group s d => P s d

end Operand

/-- A sign or an operand. -/
inductive FormulaItem
  | sign (s : Sign)
  | operand (x : Operand)

namespace FormulaItem

/-- The tokens of the item. -/
def tokens : FormulaItem → List Token
  | sign s => [.sign s]
  | operand x => x.tree.tokens

/-- The term that the parser makes of the item. -/
def term (config : Config) : FormulaItem → Term
  | sign s => .make (.operator s) [] config
  | operand x => x.term config

/-- What is known of the groups. -/
def Ok (P : String → SumTree → Prop) : FormulaItem → Prop
  | sign _ => True
  | operand x => x.Ok P

end FormulaItem

namespace Leaf

variable {config : Config}

theorem readNumeral?_of_isInt {ds : List Char} (h : IsInt ds) :
    readNumeral? ds = some (.int (digitsValue ds), none) := by
  have all : ds.all Char.isDigit = true := List.all_eq_true.2 h.2
  have taken : ds.takeWhile Char.isDigit = ds := by
    have := takeWhile_digits h.2 (r := []) nofun
    rwa [List.append_nil] at this
  have nonempty : ds.isEmpty = false := by simp [h.1]
  simp [readNumeral?, taken, takeFlavor, isEnd, nonempty, Token.numeralValue, all]

/-- Digits are a number, but not next to a group. -/
theorem classify_of_isInt {ds : List Char} (h : IsInt ds) (adjacent : Bool) :
    classify (String.ofList ds) config adjacent =
      if adjacent then .error (.parse (.numberBesideGroup (String.ofList ds)))
      else .ok (.make (.number (.int (digitsValue ds))) [] config) := by
  have leaf : classify.leaf (String.ofList ds) config adjacent ds =
      if adjacent then .error (.parse (.numberBesideGroup (String.ofList ds)))
      else .ok (.make (.number (.int (digitsValue ds))) [] config) := by
    unfold classify.leaf
    rw [readNumeral?_of_isInt h]
    rfl
  unfold classify
  simp only [String.toList_ofList]
  split
  · next c =>
    rw [Sign.ofChar?_of_isDigit (h.2 c List.mem_cons_self)]
    exact leaf
  · next c =>
    have := h.2 '\n' (List.mem_cons_of_mem _ List.mem_cons_self)
    cases this
  · exact leaf

end Leaf

namespace Formula

variable {config : Config} {check : String → Except Error Unit}

theorem isDigits_of_isOperand {n : Nat} {ps : List Piece} (h : ∀ p ∈ ps, p.IsOperand n)
    (hg : Piece.groups ps = []) :
    IsDigits (Piece.spell ps) ∧ ∀ k, Piece.renderFrom k ps = Piece.spell ps := by
  induction ps with
  | nil => exact ⟨nofun, fun _ => rfl⟩
  | cons p ps ih =>
    obtain ⟨hp, hps⟩ := List.forall_mem_cons.1 h
    match p with
    | .atom (.char c) =>
      obtain ⟨digits, same⟩ := ih hps hg
      refine ⟨List.forall_mem_cons.2 ⟨hp, digits⟩, ?_⟩
      intro k
      rw [Piece.renderFrom, same, Piece.spell_cons, Piece.spelled]
    | .atom (.flavor _) => exact hp.elim
    | .group g => cases hg

theorem isInt_of_mem_segments {n : Nat} {ps : List Piece} (h : ∀ p ∈ ps, p.IsOperand n) :
    ∀ as, .text as ∈ segments ps → IsInt (Atom.render as) := by
  fun_induction segments ps with
  | case1 =>
    intro as has
    cases has
  | case2 a ps ih =>
    obtain ⟨ha, hps⟩ := List.forall_mem_cons.1 h
    cases a with
    | char c =>
      intro as has
      unfold Segment.consAtom at has
      split at has
      · next bs ss heq =>
        rw [heq] at ih
        rcases List.mem_cons.1 has with has | has
        · obtain rfl := Segment.text.inj has
          have rest := ih hps bs List.mem_cons_self
          exact ⟨List.cons_ne_nil _ _, List.forall_mem_cons.2 ⟨ha, rest.2⟩⟩
        · exact ih hps as (List.mem_cons_of_mem _ has)
      · rcases List.mem_cons.1 has with has | has
        · obtain rfl := Segment.text.inj has
          exact ⟨List.cons_ne_nil _ _, List.forall_mem_cons.2 ⟨ha, List.forall_mem_nil _⟩⟩
        · exact ih hps as has
    | flavor _ => exact ha.elim
  | case3 g ps ih =>
    intro as has
    rcases List.mem_cons.1 has with has | has
    · cases has
    · exact ih (List.forall_mem_cons.1 h).2 as has

/-- Digits after a group are no suffix of it. -/
theorem suffix?_of_isInt {cs : List Char} (h : IsInt cs) : suffix? .paren cs = none := by
  obtain ⟨c, cs, rfl⟩ := List.exists_cons_of_ne_nil h.1
  have hc : c ≠ '[' := by
    rintro rfl
    cases h.2 '[' List.mem_cons_self
  simp [suffix?, flavorSuffix?, Leaf.takeFlavor, hc]

/-- The term of a group in parentheses. -/
def groupOf (config : Config) (g : Group) : Term := .make (.group (.str g.inner) none) [] config

/-- A group in parentheses becomes a term if its text can be read. -/
theorem groupTerm_eq_ok {g : Group} {t : Term} (hb : g.bracket = .paren) (hf : g.fn = none) :
    groupTerm check config g {} = .ok t ↔ check g.inner = .ok () ∧ groupOf config g = t := by
  obtain ⟨bracket, fn, inner⟩ := g
  obtain rfl : bracket = .paren := hb
  obtain rfl : fn = none := hf
  show (check inner >>= fun _ => .ok _) = .ok t ↔ _
  rw [bind_eq_ok]
  constructor
  · rintro ⟨u, hcheck, h⟩
    exact ⟨hcheck, Except.ok.inj h⟩
  · rintro ⟨hcheck, rfl⟩
    exact ⟨(), hcheck, rfl⟩

/-- Text next to a group is refused. -/
theorem segmentTerms_text_ne_ok {as : List Atom} {ss : List Segment} {ts : List Term}
    (h : IsInt (Atom.render as)) : segmentTerms check config (.text as :: ss) ≠ .ok ts := by
  intro hts
  obtain ⟨t, ht, -⟩ := bind_eq_ok.1 hts
  rw [Leaf.classify_of_isInt h] at ht
  cases ht

/-- Digits never lend a group their text: the group becomes a term of its own. -/
theorem segmentTerms_group_eq_ok {n : Nat} {g : Group} {ps : List Piece} {ts : List Term}
    (hb : g.bracket = .paren) (within : ∀ p ∈ ps, p.IsOperand n) :
    segmentTerms check config (segments (.group g :: ps)) = .ok ts ↔
      ∃ t rest, groupTerm check config g {} = .ok t
        ∧ segmentTerms check config (segments ps) = .ok rest ∧ t :: rest = ts := by
  have texts := isInt_of_mem_segments within
  have joined {x : Except Error Term} {y : Except Error (List Term)} :
      (do return (← x) :: (← y)) = .ok ts
        ↔ ∃ t rest, x = .ok t ∧ y = .ok rest ∧ t :: rest = ts := by
    cases x <;> cases y <;> simp
  rw [segments]
  cases hseg : segments ps with
  | nil => exact joined
  | cons s ss =>
    rw [hseg] at texts
    cases s with
    | group g' => exact joined
    | text as =>
      have has := texts as List.mem_cons_self
      constructor
      · intro h
        rw [segmentTerms, hb, suffix?_of_isInt has] at h
        obtain ⟨t, -, h⟩ := bind_eq_ok.1 h
        obtain ⟨u, hu, -⟩ := bind_eq_ok.1 h
        rw [Leaf.classify_of_isInt has] at hu
        cases hu
      · rintro ⟨t, rest, -, hrest, -⟩
        exact absurd hrest (segmentTerms_text_ne_ok has)

/-- A value with groups has nothing but groups, whose texts can be read. -/
theorem segmentTerms_eq_ok {n : Nat} {ps : List Piece} {ts : List Term}
    (within : ∀ p ∈ ps, p.IsOperand n) :
    segmentTerms check config (segments ps) = .ok ts ↔
      ∃ gs : List Group, gs.map Piece.group = ps ∧ (∀ g ∈ gs, check g.inner = .ok ())
        ∧ gs.map (groupOf config) = ts := by
  induction ps generalizing ts with
  | nil =>
    constructor
    · intro h
      obtain rfl := Except.ok.inj h
      exact ⟨[], rfl, nofun, rfl⟩
    · rintro ⟨gs, hgs, -, rfl⟩
      obtain rfl := List.map_eq_nil_iff.1 hgs
      rfl
  | cons p ps ih =>
    obtain ⟨hp, hps⟩ := List.forall_mem_cons.1 within
    cases p with
    | atom a =>
      have texts := isInt_of_mem_segments within
      constructor
      · intro h
        obtain ⟨as, ss, heq⟩ : ∃ as ss, segments (.atom a :: ps) = .text as :: ss := by
          simp only [segments, Segment.consAtom]
          split <;> exact ⟨_, _, rfl⟩
        rw [heq] at h texts
        exact absurd h (segmentTerms_text_ne_ok (texts as List.mem_cons_self))
      · rintro ⟨gs, hgs, -⟩
        cases gs <;> cases hgs
    | group g =>
      obtain ⟨⟨hb, hf, -⟩, -⟩ := hp
      rw [segmentTerms_group_eq_ok hb hps]
      constructor
      · rintro ⟨t, rest, ht, hrest, rfl⟩
        obtain ⟨hcheck, rfl⟩ := (groupTerm_eq_ok hb hf).1 ht
        obtain ⟨gs, rfl, hgs, rfl⟩ := (ih hps).1 hrest
        exact ⟨g :: gs, rfl, List.forall_mem_cons.2 ⟨hcheck, hgs⟩, rfl⟩
      · rintro ⟨gs, hmap, hgs, rfl⟩
        obtain ⟨g', gs, rfl, hg, rfl⟩ := List.map_eq_cons_iff.1 hmap
        obtain rfl := Piece.group.inj hg
        obtain ⟨hcheck, hgs⟩ := List.forall_mem_cons.1 hgs
        exact ⟨_, _, (groupTerm_eq_ok hb hf).2 ⟨hcheck, rfl⟩, (ih hps).2 ⟨gs, rfl, hgs, rfl⟩, rfl⟩

theorem groups_map_group (gs : List Group) : Piece.groups (gs.map Piece.group) = gs := by
  induction gs with
  | nil => rfl
  | cons g gs ih => exact congrArg (g :: ·) ih

/-- A value of a plain formula is a number, or nothing but groups whose texts can be read. -/
theorem tokenTerms_eq_ok {n : Nat} {ps : List Piece} {ts : List Term} (hps : ps ≠ [])
    (within : ∀ p ∈ ps, p.IsOperand n) :
    tokenTerms check config (.value ps) = .ok ts ↔
      (IsInt (Piece.spell ps)
          ∧ [.make (.number (.int (digitsValue (Piece.spell ps)))) [] config] = ts)
        ∨ ∃ gs : List Group, gs.map Piece.group = ps ∧ (∀ g ∈ gs, check g.inner = .ok ())
          ∧ gs.map (groupOf config) = ts := by
  unfold tokenTerms
  dsimp only
  split
  · next none =>
    have none := List.isEmpty_iff.1 none
    obtain ⟨digits, same⟩ := isDigits_of_isOperand within none
    have hint : IsInt (Piece.spell ps) := by
      refine ⟨?_, digits⟩
      obtain ⟨p, qs, rfl⟩ := List.exists_cons_of_ne_nil hps
      have hp := within p List.mem_cons_self
      rcases p with (c | _) | g
      · exact List.cons_ne_nil _ _
      · exact hp.elim
      · exact List.cons_ne_nil _ _
    rw [Piece.render, same, Leaf.classify_of_isInt hint]
    constructor
    · intro h
      exact .inl ⟨hint, Except.ok.inj h⟩
    · rintro (⟨-, rfl⟩ | ⟨gs, rfl, -, -⟩)
      · rfl
      · rw [groups_map_group] at none
        subst none
        exact absurd rfl hps
  · next some =>
    rw [segmentTerms_eq_ok within]
    refine (or_iff_right ?_).symm
    rintro ⟨hint, -⟩
    refine some (List.isEmpty_iff.2 (List.eq_nil_iff_forall_not_mem.2 ?_))
    intro g hg
    obtain ⟨p, hp, hpg⟩ := List.mem_filterMap.1 hg
    cases p with
    | atom _ => cases hpg
    | group g' =>
      have bracket : '(' ∈ Piece.spell ps :=
        List.mem_flatMap.2 ⟨_, hp, List.mem_cons_self⟩
      cases hint.2 '(' bracket

/-- Only groups are checked, and their texts are shorter. -/
theorem tokenTerms_of_check {check' : String → Except Error Unit} {n : Nat} {t : FormulaToken}
    {ts : List Term} (full : t.IsFull) (within : t.Within (Piece.IsOperand n))
    (inner : ∀ s : String, IsPlain s.toList → s.length < n → check s = .ok () → check' s = .ok ())
    (h : tokenTerms check config t = .ok ts) : tokenTerms check' config t = .ok ts := by
  cases t with
  | sign s => exact h
  | value ps =>
    rw [tokenTerms_eq_ok full within] at h ⊢
    rcases h with h | ⟨gs, rfl, hgs, rfl⟩
    · exact .inl h
    · refine .inr ⟨gs, rfl, ?_, rfl⟩
      intro g hg
      have hp := within (.group g) (List.mem_map_of_mem hg)
      exact inner g.inner hp.1.2.2 hp.2 (hgs g hg)

/-- A token of a plain formula becomes items with the same tokens in plain arithmetic. -/
theorem exists_items_of_tokenTerms {P : String → SumTree → Prop} {n : Nat} {t : FormulaToken}
    {ts : List Term} (full : t.IsFull) (within : t.Within (Piece.IsOperand n))
    (inner : ∀ s : String, IsPlain s.toList → s.length < n → check s = .ok () →
      ∃ d : SumTree, d.tokens = lex s.toList ∧ P s d)
    (h : tokenTerms check config t = .ok ts) :
    ∃ is : List FormulaItem, is.map (FormulaItem.term config) = ts
      ∧ is.flatMap FormulaItem.tokens = lex t.spelled ∧ ∀ i ∈ is, i.Ok P := by
  cases t with
  | sign s =>
    obtain rfl := Except.ok.inj h
    exact ⟨[.sign s], rfl, by cases s <;> rfl, List.forall_mem_singleton.2 trivial⟩
  | value ps =>
    rw [tokenTerms_eq_ok full within] at h
    rcases h with ⟨hint, rfl⟩ | ⟨gs, rfl, hgs, rfl⟩
    · exact ⟨[.operand (.numeral _)], rfl, (lex_digits hint).symm,
        List.forall_mem_singleton.2 hint⟩
    · clear full
      induction gs with
      | nil => exact ⟨[], rfl, rfl, nofun⟩
      | cons g gs ih =>
        obtain ⟨hg, hgs⟩ := List.forall_mem_cons.1 hgs
        obtain ⟨⟨⟨-, -, plain⟩, shorter⟩, within⟩ := List.forall_mem_cons.1 within
        obtain ⟨d, hd, hP⟩ := inner g.inner plain shorter hg
        obtain ⟨is, his, htokens, hok⟩ := ih within hgs
        refine ⟨.operand (.group g.inner d) :: is, congrArg (_ :: ·) his, ?_,
          List.forall_mem_cons.2 ⟨hP, hok⟩⟩
        have opening : Token.ofChar? '(' = some .openParen := rfl
        have closing : Token.ofChar? ')' = some .closeParen := rfl
        rw [FormulaToken.spelled] at htokens ⊢
        rw [List.flatMap_cons, htokens, List.map_cons, Piece.spell_cons, Piece.spelled]
        simp [lex_cons _ opening, lex_between _ _ closing, FormulaItem.tokens, Operand.tree,
          UnaryTree.tokens, AtomTree.tokens, hd]

/-- The tokens of a plain formula become items with the same tokens in plain arithmetic. -/
theorem exists_items_of_allTerms {P : String → SumTree → Prop} {n : Nat}
    {tokens : List FormulaToken} {ts : List Term} (full : ∀ t ∈ tokens, t.IsFull)
    (within : ∀ t ∈ tokens, t.Within (Piece.IsOperand n))
    (inner : ∀ s : String, IsPlain s.toList → s.length < n → check s = .ok () →
      ∃ d : SumTree, d.tokens = lex s.toList ∧ P s d)
    (h : allTerms check config tokens = .ok ts) :
    ∃ is : List FormulaItem, is.map (FormulaItem.term config) = ts
      ∧ is.flatMap FormulaItem.tokens = tokens.flatMap (fun t => lex t.spelled)
      ∧ ∀ i ∈ is, i.Ok P := by
  obtain ⟨tss, htss, hts⟩ := bind_eq_ok.1 h
  obtain rfl := Except.ok.inj hts
  clear h hts
  induction tokens generalizing tss with
  | nil =>
    obtain rfl := Except.ok.inj htss
    exact ⟨[], rfl, rfl, nofun⟩
  | cons t tokens ih =>
    rw [List.mapM_cons, bind_eq_ok] at htss
    obtain ⟨us, hus, htss⟩ := htss
    obtain ⟨rest, hrest, htss⟩ := bind_eq_ok.1 htss
    obtain rfl := Except.ok.inj htss
    obtain ⟨ht, full⟩ := List.forall_mem_cons.1 full
    obtain ⟨hw, within⟩ := List.forall_mem_cons.1 within
    obtain ⟨is, rfl, htokens, hok⟩ := exists_items_of_tokenTerms ht hw inner hus
    obtain ⟨js, hjs, htokens', hok'⟩ := ih full within rest hrest
    refine ⟨is ++ js, ?_, ?_, ?_⟩
    · rw [List.map_append, hjs, List.flatten_cons]
    · rw [List.flatMap_append, htokens, htokens', List.flatMap_cons]
    · intro i hi
      exact (List.mem_append.1 hi).elim (hok i) (hok' i)

theorem allTerms_of_check {check' : String → Except Error Unit} {n : Nat}
    {tokens : List FormulaToken} {ts : List Term} (full : ∀ t ∈ tokens, t.IsFull)
    (within : ∀ t ∈ tokens, t.Within (Piece.IsOperand n))
    (inner : ∀ s : String, IsPlain s.toList → s.length < n → check s = .ok () → check' s = .ok ())
    (h : allTerms check config tokens = .ok ts) : allTerms check' config tokens = .ok ts := by
  obtain ⟨tss, htss, hts⟩ := bind_eq_ok.1 h
  refine bind_eq_ok.2 ⟨tss, ?_, hts⟩
  clear h hts
  induction tokens generalizing tss with
  | nil => exact htss
  | cons t tokens ih =>
    rw [List.mapM_cons, bind_eq_ok] at htss ⊢
    obtain ⟨us, hus, htss⟩ := htss
    obtain ⟨rest, hrest, htss⟩ := bind_eq_ok.1 htss
    obtain ⟨ht, full⟩ := List.forall_mem_cons.1 full
    obtain ⟨hw, within⟩ := List.forall_mem_cons.1 within
    exact ⟨us, tokenTerms_of_check ht hw inner hus,
      bind_eq_ok.2 ⟨rest, ih full within rest hrest, htss⟩⟩

/-! ## Validation -/

/-- The items of a first operand and of further ones after signs. -/
def itemsOf (x : Operand) (l : List (Sign × Operand)) : List FormulaItem :=
  .operand x :: l.flatMap fun y => [.sign y.1, .operand y.2]

/-- How items are read as operands with signs between them: as they stand, or with a zero before the
sign in front. -/
inductive Opens : List FormulaItem → Operand → List (Sign × Operand) → Prop
  | plain (x : Operand) (l : List (Sign × Operand)) : Opens (itemsOf x l) x l
  | signed (op : SumOperation) (x : Operand) (l : List (Sign × Operand)) :
      Opens (.sign op.sign :: itemsOf x l) (.numeral ['0']) ((op.sign, x) :: l)

theorem sign?_operand (x : Operand) : (FormulaItem.term config (.operand x)).sign? = none := by
  cases x <;> rfl

theorem sign?_sign (s : Sign) : (FormulaItem.term config (.sign s)).sign? = some s := rfl

theorem not_fuses (x y : Operand) :
    fuses (FormulaItem.term config (.operand x)) (FormulaItem.term config (.operand y))
      = false := by
  cases x <;> cases y <;> rfl

/-- Where terms alternate, signs stand between operands. -/
theorem exists_rest : ∀ (is : List FormulaItem) {x : Operand},
    alternate ((FormulaItem.operand x :: is).map (FormulaItem.term config)) = .ok () →
    ((FormulaItem.operand x :: is).map (FormulaItem.term config)).getLast?.bind Term.sign? = none →
    ∃ l, FormulaItem.operand x :: is = itemsOf x l
  | [], x, _, _ => ⟨[], rfl⟩
  | .operand y :: is, x, h, _ => by
    simp only [List.map_cons, alternate, sign?_operand, not_fuses] at h
    cases h
  | [.sign s], x, _, h => by
    simp [sign?_sign] at h
  | .sign s :: .sign s' :: is, x, h, _ => by
    simp only [List.map_cons, alternate, sign?_operand, sign?_sign] at h
    cases h
  | .sign s :: .operand y :: is, x, h, hl => by
    obtain ⟨l, hlist⟩ := exists_rest is (x := y)
      (by simpa only [List.map_cons, alternate, sign?_operand, sign?_sign] using h)
      (by simpa using hl)
    exact ⟨(s, y) :: l, by rw [hlist]; rfl⟩

/-- Validation lets operands with signs between them through, and a sign in front. -/
theorem exists_opens {is : List FormulaItem} {ts : List Term}
    (h : validateTerms config (is.map (FormulaItem.term config)) = .ok ts) :
    ∃ x l, Opens is x l ∧ (itemsOf x l).map (FormulaItem.term config) = ts := by
  obtain ⟨us, hus, h⟩ := bind_eq_ok.1 h
  obtain ⟨rfl, hlast, halt⟩ : us = ts ∧ us.getLast?.bind Term.sign? = none
      ∧ alternate us = .ok () := by
    split at h
    · cases h
    · next hlast =>
      obtain ⟨u, halt, h⟩ := bind_eq_ok.1 h
      exact ⟨Except.ok.inj h, hlast, halt⟩
  cases is with
  | nil => cases hus
  | cons i is =>
    cases i with
    | operand x =>
      obtain rfl : _ = us := by
        simpa [withLeadingZero, sign?_operand] using hus
      obtain ⟨l, hl⟩ := exists_rest is (x := x) halt hlast
      exact ⟨x, l, hl ▸ .plain x l, by rw [← hl]; rfl⟩
    | sign s =>
      obtain ⟨op, rfl, rfl⟩ : ∃ op : SumOperation, s = op.sign
          ∧ (FormulaItem.operand (.numeral ['0']) :: .sign s :: is).map (FormulaItem.term config)
            = us := by
        cases s with
        | plus => exact ⟨.add, rfl, Except.ok.inj hus⟩
        | minus => exact ⟨.sub, rfl, Except.ok.inj hus⟩
        | times | divide | modulo => simp [withLeadingZero, sign?_sign] at hus
      obtain ⟨l, hl⟩ := exists_rest _ halt hlast
      obtain ⟨-, hl'⟩ := List.cons.inj hl
      cases l with
      | nil => cases hl'
      | cons y l =>
        obtain ⟨hsign, rest⟩ := List.cons.inj hl'
        obtain ⟨s, y⟩ := y
        obtain rfl := FormulaItem.sign.inj hsign
        refine ⟨.numeral ['0'], (op.sign, y) :: l, ?_, by rw [← hl]⟩
        have : is = itemsOf y l := rest
        rw [this]
        exact .signed op y l

/-! ## Reading -/

theorem isPlain_normalize {formula : String} (plain : IsPlain formula.toList) :
    IsPlain (normalize formula).toList := by
  rw [normalize, String.toList_ofList]
  exact plain.normalize

/-- A plain formula that is read is cut into pieces, made into terms and validated. Only checking
the groups takes fuel. -/
theorem readTerms_eq_ok {fuel : Nat} {formula : String} {ts : List Term}
    (plain : IsPlain formula.toList) (h : readTerms config (fuel + 1) formula = .ok ts) :
    ∃ ps us, Piece.Cut (normalize formula).toList ps
      ∧ allTerms (checkWithin config fuel) config (FormulaToken.ofPieces ps) = .ok us
      ∧ validateTerms config us = .ok ts
      ∧ ∀ fuel', allTerms (checkWithin config fuel') config (FormulaToken.ofPieces ps) = .ok us →
          readTerms config (fuel' + 1) formula = .ok ts := by
  rw [readTerms_succ] at h
  obtain ⟨full, dollar, ps, us, hps, hus, valid⟩ := readBy_eq_ok.1 h
  refine ⟨ps, us, Piece.cut_of_ofText hps (isPlain_normalize plain), hus, valid, ?_⟩
  intro fuel' hus'
  rw [readTerms_succ]
  exact readBy_eq_ok.2 ⟨full, dollar, ps, us, hps, hus', valid⟩

/-- Reading a plain formula takes no more fuel than its length. -/
theorem readTerms_of_fuel {fuel fuel' : Nat} {formula : String} {ts : List Term}
    (plain : IsPlain formula.toList) (hf : (normalize formula).length < fuel')
    (h : readTerms config fuel formula = .ok ts) : readTerms config fuel' formula = .ok ts := by
  induction fuel generalizing fuel' formula ts with
  | zero => cases h
  | succ fuel ih =>
    obtain ⟨fuel', rfl⟩ := Nat.exists_eq_add_one.2 (Nat.zero_lt_of_lt hf)
    obtain ⟨ps, us, cut, hus, -, again⟩ := readTerms_eq_ok plain h
    refine again fuel' (allTerms_of_check (FormulaToken.isFull_ofPieces ps)
      (FormulaToken.ofPieces_of_cut cut).1 ?_ hus)
    intro s hs hlt hcheck
    obtain ⟨vs, hvs⟩ := checkWithin_eq_ok.1 hcheck
    have shorter := length_normalize_le s
    rw [String.length_toList] at hlt
    exact checkWithin_eq_ok.2 ⟨vs, ih hs (by omega) hvs⟩

/-- **A plain formula is read as items** with its tokens in plain arithmetic. The texts of its
groups are plain formulas that are shorter and can be read. -/
theorem exists_items {P : String → SumTree → Prop} {fuel : Nat} {formula : String} {ts : List Term}
    (plain : IsPlain formula.toList)
    (inner : ∀ s : String, IsPlain s.toList → s.length < formula.length →
      (∃ us, readTerms config fuel s = .ok us) → ∃ d : SumTree, d.tokens = lex s.toList ∧ P s d)
    (h : readTerms config (fuel + 1) formula = .ok ts) :
    ∃ is x l, Opens is x l ∧ (itemsOf x l).map (FormulaItem.term config) = ts
      ∧ is.flatMap FormulaItem.tokens = lex formula.toList ∧ ∀ i ∈ is, i.Ok P := by
  obtain ⟨ps, us, cut, hus, hts, -⟩ := readTerms_eq_ok plain h
  obtain ⟨within, htokens⟩ := FormulaToken.ofPieces_of_cut cut
  have shorter := length_normalize_le formula
  obtain ⟨is, rfl, hlex, hok⟩ := exists_items_of_allTerms (P := P)
    (FormulaToken.isFull_ofPieces ps) within (fun s hs hlt hcheck => by
      rw [String.length_toList] at hlt
      exact inner s hs (by omega) (checkWithin_eq_ok.1 hcheck)) hus
  obtain ⟨x, l, hopens, hterms⟩ := exists_opens hts
  refine ⟨is, x, l, hopens, hterms, ?_, hok⟩
  rw [hlex, htokens, normalize, String.toList_ofList, lex_normalize]

theorem readTerms_normalize (fuel : Nat) (formula : String) :
    readTerms config fuel (normalize formula) = readTerms config fuel formula := by
  cases fuel with
  | zero => rfl
  | succ fuel =>
    have same : normalize (normalize formula) = normalize formula := by
      simp only [normalize, String.toList_ofList, Blank.normalize_normalize]
    simp only [readTerms, same]

theorem substituteFrom_of_isPlain (data : Value) {cs : List Char} (plain : IsPlain cs) :
    Symbols.substituteFrom data cs.length cs = .ok cs := by
  induction cs with
  | nil => rfl
  | cons c cs ih =>
    have hc : c ≠ '@' := by
      rintro rfl
      exact absurd (plain '@' List.mem_cons_self) (by decide)
    simp [Symbols.substituteFrom, hc, ih fun d hd => plain d (List.mem_cons_of_mem c hd)]

/-- No symbol is looked up in a plain formula, whose terms are then all that is read. -/
theorem parse_of_isPlain (data : Value) {formula : String} (plain : IsPlain formula.toList) :
    parse (.str formula) data config =
      (readTerms config ((normalize formula).length + 1) formula).map fun ts =>
        { formula := normalize formula, terms := ts } := by
  have same : Symbols.substitute (Symbols.tableOf data) formula = .ok formula := by
    simp [Symbols.substitute, substituteFrom_of_isPlain _ plain]
  simp only [parse, same, bind_ok, parseTerms, readTerms_normalize]
  cases readTerms config ((normalize formula).length + 1) formula <;> rfl

theorem readTerms_of_parse {data : Value} {formula : String} {p : Parsed}
    (plain : IsPlain formula.toList) (h : parse (.str formula) data config = .ok p) :
    ∃ fuel, readTerms config fuel formula = .ok p.terms := by
  rw [parse_of_isPlain data plain] at h
  refine ⟨(normalize formula).length + 1, ?_⟩
  cases hts : readTerms config ((normalize formula).length + 1) formula with
  | error e =>
    rw [hts] at h
    cases h
  | ok ts =>
    rw [hts] at h
    obtain rfl := Except.ok.inj h
    rfl

end Formula

end DiceFormula
