import DiceFormula.Proofs.Formula.Items
import DiceFormula.Proofs.Formula.Reading

/-!
# Reading formulas level by level

The parser reads the formulas inside a group only to refuse what cannot be read; they stay texts in
the terms. So reading is the same as reading the outermost level alone (`Formula.outline`) and then,
for each term, the formulas that stand inside it (`Formula.reads_iff`). How much fuel there is does
not matter, as long as it exceeds the length of the formula (`Formula.Reads.readTerms`). All
characters of an inner formula come from the formula around it (`Formula.mem_of_mem_formulas`).
-/

namespace DiceFormula

variable {config : Config}

namespace Formula

/-! ## The outermost level -/

/-- Lets every formula inside a group pass. -/
def accept (_ : String) : Except Error Unit := .ok ()

/-- Reads the outermost level of a formula. -/
abbrev outline (config : Config) (formula : String) : Except Error (List Term) :=
  readBy accept config formula

variable {check : String → Except Error Unit}

/-- The formulas inside the term of a group are the text of the group, or its arguments. -/
theorem Grouped.formulas {g : Group} {s : Suffix} {t : Term} (h : Grouped config s g t) :
    t.formulas = [g.inner] ∨ arguments g.inner = .ok t.formulas := by
  cases h with
  | group => exact .inl rfl
  | call hargs | pool hargs => exact .inr hargs

/-- A computation that begins with checks gives a result if it does without them and they pass. -/
theorem forM_bind_eq_ok {α : Type} {ss : List String} {x : Except Error α} {a : α} :
    (ss.forM check >>= fun _ => x) = .ok a ↔ x = .ok a ∧ ∀ s ∈ ss, check s = .ok () := by
  induction ss with
  | nil => simp
  | cons s ss ih =>
    show ((check s >>= fun _ => ss.forM check) >>= fun _ => x) = .ok a ↔ _
    rw [List.forall_mem_cons, and_left_comm, ← ih]
    cases check s with
    | ok => simp
    | error e => simp

/-- A group becomes a term if it does so with its formulas unread, and these can be read. -/
theorem groupTerm_eq_ok_iff {g : Group} {s : Suffix} (t : Term) :
    groupTerm check config g s = .ok t
      ↔ groupTerm accept config g s = .ok t ∧ ∀ a ∈ t.formulas, check a = .ok () := by
  have passed (ss : List String) : ∀ s ∈ ss, accept s = .ok () := fun _ _ => rfl
  obtain ⟨bracket, fn, inner⟩ := g
  unfold groupTerm
  cases bracket with
  | paren =>
    cases fn with
    | none =>
      dsimp only
      constructor
      · intro h
        obtain ⟨⟨⟩, hcheck, h⟩ := bind_eq_ok.1 h
        obtain rfl := Except.ok.inj h
        exact ⟨rfl, List.forall_mem_singleton.2 hcheck⟩
      · rintro ⟨h, hcheck⟩
        obtain rfl := Except.ok.inj h
        exact bind_eq_ok.2 ⟨(), hcheck inner (List.mem_singleton_self inner), rfl⟩
    | some fn =>
      dsimp only
      cases arguments inner with
      | error e => simp
      | ok args =>
        rw [bind_ok, bind_ok, forM_bind_eq_ok, forM_bind_eq_ok, and_iff_left (passed args)]
        refine and_congr_right fun h => ?_
        split at h
        · cases h
        · rw [← Except.ok.inj h]
          rfl
  | brace =>
    dsimp only
    cases arguments inner with
    | error e => simp
    | ok args =>
      rw [bind_ok, bind_ok, forM_bind_eq_ok, forM_bind_eq_ok, and_iff_left (passed args)]
      refine and_congr_right fun h => ?_
      rw [← Except.ok.inj h]
      rfl

/-- Whether all formulas inside some terms pass a check. -/
def Pass (check : String → Except Error Unit) (ts : List Term) : Prop :=
  ∀ t ∈ ts, ∀ a ∈ t.formulas, check a = .ok ()

theorem pass_append {ts us : List Term} :
    Pass check (ts ++ us) ↔ Pass check ts ∧ Pass check us := List.forall_mem_append

theorem pass_cons {t : Term} {ts : List Term} :
    Pass check (t :: ts) ↔ (∀ a ∈ t.formulas, check a = .ok ()) ∧ Pass check ts :=
  List.forall_mem_cons

theorem Leaf.formulas_of_classify {text : String} {adjacent : Bool} {t : Term}
    (h : Leaf.classify text config adjacent = .ok t) : t.formulas = [] :=
  Term.formulas_of_isLeaf (Leaf.isLeaf_of_classify h)

/-- Terms that are put together of two parts are read if each part is. -/
theorem both_eq_ok_iff {α β : Type} {x y : Except Error α} {v w : Except Error β} {P : α → Prop}
    {Q : β → Prop} {f : α → β → List Term} (hx : ∀ a, x = .ok a ↔ y = .ok a ∧ P a)
    (hv : ∀ b, v = .ok b ↔ w = .ok b ∧ Q b) (hf : ∀ a b, Pass check (f a b) ↔ P a ∧ Q b)
    (ts : List Term) :
    (do return f (← x) (← v)) = .ok ts
      ↔ (do return f (← y) (← w)) = .ok ts ∧ Pass check ts := by
  simp only [bind_eq_ok, pure_eq_ok, Except.ok.injEq]
  constructor
  · rintro ⟨a, ha, b, hb, rfl⟩
    obtain ⟨ha, hP⟩ := (hx a).1 ha
    obtain ⟨hb, hQ⟩ := (hv b).1 hb
    exact ⟨⟨a, ha, b, hb, rfl⟩, (hf a b).2 ⟨hP, hQ⟩⟩
  · rintro ⟨⟨a, ha, b, hb, rfl⟩, h⟩
    obtain ⟨hP, hQ⟩ := (hf a b).1 h
    exact ⟨a, (hx a).2 ⟨ha, hP⟩, b, (hv b).2 ⟨hb, hQ⟩, rfl⟩

/-- The first term and all others are read apart. -/
theorem cons_eq_ok_iff {x y : Except Error Term} {v w : Except Error (List Term)}
    (hx : ∀ t, x = .ok t ↔ y = .ok t ∧ ∀ a ∈ t.formulas, check a = .ok ())
    (hv : ∀ ts, v = .ok ts ↔ w = .ok ts ∧ Pass check ts) (ts : List Term) :
    (do let t ← x; return t :: (← v)) = .ok ts
      ↔ (do let t ← y; return t :: (← w)) = .ok ts ∧ Pass check ts :=
  both_eq_ok_iff hx hv (fun _ _ => pass_cons) ts

theorem ok_iff_pass {ts us : List Term} (hu : Pass check us) :
    (.ok us : Except Error (List Term)) = .ok ts ↔ .ok us = (.ok ts : Except Error _)
      ∧ Pass check ts := by
  refine ⟨fun h => ⟨h, ?_⟩, And.left⟩
  rwa [← Except.ok.inj h]

theorem classify_eq_ok_iff {text : String} {adjacent : Bool} (t : Term) :
    Leaf.classify text config adjacent = .ok t
      ↔ Leaf.classify text config adjacent = .ok t ∧ ∀ a ∈ t.formulas, check a = .ok () := by
  refine ⟨fun h => ⟨h, ?_⟩, And.left⟩
  rw [Leaf.formulas_of_classify h]
  exact List.forall_mem_nil _

theorem segmentTerms_eq_ok_iff {ss : List Segment} (ts : List Term) :
    segmentTerms check config ss = .ok ts
      ↔ segmentTerms accept config ss = .ok ts ∧ Pass check ts := by
  fun_induction segmentTerms check config ss generalizing ts with
  | case1 => exact ok_iff_pass (List.forall_mem_nil _)
  | case2 as ss ih => exact cons_eq_ok_iff classify_eq_ok_iff ih ts
  | case3 g as ss s hsuffix ih =>
    rw [segmentTerms, hsuffix]
    exact cons_eq_ok_iff groupTerm_eq_ok_iff ih ts
  | case4 g as ss hsuffix ih =>
    rw [segmentTerms, hsuffix]
    have second := cons_eq_ok_iff
      (@classify_eq_ok_iff config check (String.ofList (Atom.render as)) true) ih
    have both := cons_eq_ok_iff (@groupTerm_eq_ok_iff config check g {}) second ts
    simpa only [bind_assoc, pure_bind] using both
  | case5 g ss hn ih =>
    rw [segmentTerms.eq_4 accept config g ss hn]
    exact cons_eq_ok_iff groupTerm_eq_ok_iff ih ts

theorem tokenTerms_eq_ok_iff {token : FormulaToken} (ts : List Term) :
    tokenTerms check config token = .ok ts
      ↔ tokenTerms accept config token = .ok ts ∧ Pass check ts := by
  unfold tokenTerms
  split
  · exact ok_iff_pass (List.forall_mem_singleton.2 (List.forall_mem_nil _))
  · split
    · exact cons_eq_ok_iff classify_eq_ok_iff (fun _ => ok_iff_pass (List.forall_mem_nil _)) ts
    · exact segmentTerms_eq_ok_iff ts

theorem allTerms_cons (token : FormulaToken) (tokens : List FormulaToken) :
    allTerms check config (token :: tokens)
      = do return (← tokenTerms check config token) ++ (← allTerms check config tokens) := by
  simp [allTerms, List.mapM_cons, bind_assoc]

/-- The terms of all tokens are read if they are with their formulas unread, and these can be
read. -/
theorem allTerms_eq_ok_iff {tokens : List FormulaToken} (ts : List Term) :
    allTerms check config tokens = .ok ts
      ↔ allTerms accept config tokens = .ok ts ∧ Pass check ts := by
  induction tokens generalizing ts with
  | nil => exact ok_iff_pass (List.forall_mem_nil _)
  | cons token tokens ih =>
    rw [allTerms_cons, allTerms_cons]
    exact both_eq_ok_iff tokenTerms_eq_ok_iff ih (fun _ _ => pass_append) ts

theorem pass_of_validateTerms {ts us : List Term} (h : validateTerms config ts = .ok us) :
    Pass check us ↔ Pass check ts := by
  rcases (of_validateTerms h).1 with rfl | rfl
  · exact Iff.rfl
  · exact pass_cons.trans (and_iff_right (List.forall_mem_nil _))

/-- **A formula is read if its outermost level is and the formulas inside pass.** -/
theorem readBy_eq_ok_iff {formula : String} {ts : List Term} :
    readBy check config formula = .ok ts ↔ outline config formula = .ok ts ∧ Pass check ts := by
  rw [readBy_eq_ok, outline, readBy_eq_ok]
  constructor
  · rintro ⟨full, dollar, ps, us, hps, hus, h⟩
    obtain ⟨hus, pass⟩ := (allTerms_eq_ok_iff us).1 hus
    exact ⟨⟨full, dollar, ps, us, hps, hus, h⟩, (pass_of_validateTerms h).2 pass⟩
  · rintro ⟨⟨full, dollar, ps, us, hps, hus, h⟩, pass⟩
    have pass := (pass_of_validateTerms h).1 pass
    exact ⟨full, dollar, ps, us, hps, (allTerms_eq_ok_iff us).2 ⟨hus, pass⟩, h⟩

/-- What holds of the formulas in all groups of a formula holds of the formulas inside its terms. -/
theorem forall_formulas_of_readBy {P : String → Prop} {formula : String} {ts : List Term}
    (h : readBy check config formula = .ok ts)
    (group : ∀ ps g, Piece.ofText (normalize formula) = .ok ps → Piece.group g ∈ ps →
      P g.inner ∧ ∀ args, arguments g.inner = .ok args → ∀ a ∈ args, P a) :
    ∀ t ∈ ts, ∀ a ∈ t.formulas, P a := by
  obtain ⟨ps, hps, stands⟩ := stands_of_readBy h
  intro t ht
  cases stands t ht with
  | zero | operator => exact List.forall_mem_nil _
  | leaf full text h =>
    rw [Leaf.formulas_of_classify h]
    exact List.forall_mem_nil _
  | group hg follows h =>
    obtain ⟨inner, args⟩ := group ps _ hps hg
    rcases (grouped_of_groupTerm h).formulas with h | h
    · rw [h]
      exact List.forall_mem_singleton.2 inner
    · exact args _ h

/-! ## Fuel -/

/-- A formula is read as the given terms. -/
def Reads (config : Config) (formula : String) (ts : List Term) : Prop :=
  ∃ fuel, readTerms config fuel formula = .ok ts

theorem length_of_outline {formula : String} {ts : List Term}
    (h : outline config formula = .ok ts) :
    ∀ t ∈ ts, ∀ a ∈ t.formulas, a.length < formula.length := by
  refine forall_formulas_of_readBy h ?_
  intro ps g hps hg
  have := Piece.length_of_ofText hps hg
  have := length_normalize_le formula
  refine ⟨by omega, ?_⟩
  intro args hargs a ha
  have := textLength_of_arguments hargs
  have := length_le_textLength ha
  omega

/-- Reading takes no more fuel than the length of the formula. -/
theorem readTerms_of_lt {fuel fuel' : Nat} {formula : String} {ts : List Term}
    (h : readTerms config fuel formula = .ok ts) (hf : formula.length < fuel') :
    readTerms config fuel' formula = .ok ts := by
  induction fuel generalizing fuel' formula ts with
  | zero => cases h
  | succ fuel ih =>
    obtain ⟨fuel', rfl⟩ := Nat.exists_eq_add_one.2 (Nat.zero_lt_of_lt hf)
    rw [readTerms_succ, readBy_eq_ok_iff] at h ⊢
    refine ⟨h.1, ?_⟩
    intro t ht a ha
    obtain ⟨us, hus⟩ := checkWithin_eq_ok.1 (h.2 t ht a ha)
    have := length_of_outline h.1 t ht a ha
    exact checkWithin_eq_ok.2 ⟨us, ih hus (by omega)⟩

/-- **Reading goes level by level.** -/
theorem reads_iff {formula : String} {ts : List Term} :
    Reads config formula ts
      ↔ outline config formula = .ok ts ∧ ∀ t ∈ ts, ∀ a ∈ t.formulas, ∃ us, Reads config a us := by
  constructor
  · rintro ⟨fuel, h⟩
    cases fuel with
    | zero => cases h
    | succ fuel =>
      rw [readTerms_succ, readBy_eq_ok_iff] at h
      refine ⟨h.1, fun t ht a ha => ?_⟩
      obtain ⟨us, hus⟩ := checkWithin_eq_ok.1 (h.2 t ht a ha)
      exact ⟨us, fuel, hus⟩
  · rintro ⟨h, inner⟩
    refine ⟨formula.length + 1, ?_⟩
    rw [readTerms_succ, readBy_eq_ok_iff]
    refine ⟨h, fun t ht a ha => ?_⟩
    obtain ⟨us, fuel, hus⟩ := inner t ht a ha
    exact checkWithin_eq_ok.2 ⟨us, readTerms_of_lt hus (length_of_outline h t ht a ha)⟩

theorem parseTerms_eq_ok {formula : String} {ts : List Term} :
    parseTerms config formula = .ok ts ↔ Reads config formula ts :=
  ⟨fun h => ⟨_, h⟩, fun ⟨_, h⟩ => readTerms_of_lt h (Nat.lt_succ_self _)⟩

/-! ## Characters -/

end Formula

theorem mem_render_of_infix {as bs : List Atom} (h : as <:+: bs) {c : Char}
    (hc : c ∈ Atom.render as) : c ∈ Atom.render bs := by
  obtain ⟨a, ha, hc⟩ := List.mem_flatMap.1 hc
  exact List.mem_flatMap.2 ⟨a, h.subset ha, hc⟩

/-- Every part between separators is a stretch of the whole. -/
theorem Atom.infix_of_mem_splitAt {separator : String} {depth : Int} {current as part : List Atom}
    (h : part ∈ splitAt separator depth current as) : part <:+: current.reverse ++ as := by
  fun_induction splitAt separator depth current as with
  | case1 depth current =>
    obtain rfl := List.mem_singleton.1 h
    exact (List.prefix_append _ _).isInfix
  | case2 depth current a as depth' hsplit ih =>
    rcases List.mem_cons.1 h with rfl | h
    · exact (List.prefix_append _ _).isInfix
    · exact (ih h).trans ((List.suffix_cons _ _).trans (List.suffix_append _ _)).isInfix
  | case3 depth current a as depth' hsplit ih =>
    have := ih h
    rwa [Piece.reverse_append_cons] at this

namespace Formula

/-- An argument is a stretch of the text, without the white space around it. -/
theorem exists_infix_of_arguments {inner : String} {args : List String}
    (h : arguments inner = .ok args) : ∀ a ∈ args, ∃ as,
      as <:+: Atom.scan inner.toList ∧ a = String.ofList (Blank.trim (Atom.render as)) := by
  obtain ⟨-, rfl⟩ := splitTopLevel_eq_ok.1 (arguments_eq_ok.1 h).1
  intro a ha
  obtain ⟨part, hpart, rfl⟩ := List.mem_map.1 ha
  exact ⟨part, Atom.infix_of_mem_splitAt hpart, rfl⟩

theorem mem_of_mem_normalize {formula : String} {c : Char} (h : c ∈ (normalize formula).toList) :
    c ∈ formula.toList ∨ c = ' ' := by
  rw [normalize, String.toList_ofList] at h
  exact Blank.mem_of_mem_squeezeFrom (Blank.mem_of_mem_trim h)

/-- The characters of the formulas inside come from the formula around them. -/
theorem mem_of_mem_formulas {formula : String} {ts : List Term}
    (h : readBy check config formula = .ok ts) {t : Term} (ht : t ∈ ts) {a : String}
    (ha : a ∈ t.formulas) {c : Char} (hc : c ∈ a.toList) : c ∈ formula.toList ∨ c = ' ' := by
  refine forall_formulas_of_readBy (P := fun a => ∀ c ∈ a.toList, c ∈ formula.toList ∨ c = ' ')
    h ?_ t ht a ha c hc
  intro ps g hps hg
  obtain ⟨as, stretch, hinner, -⟩ := (Piece.cutFrom_of_ofText hps hg).inner
  have inner : ∀ c ∈ g.inner.toList, c ∈ formula.toList ∨ c = ' ' := by
    intro c hc
    rw [hinner, String.toList_ofList] at hc
    have := mem_render_of_infix stretch (Blank.mem_of_mem_trim hc)
    rw [Atom.render_scan] at this
    exact mem_of_mem_normalize this
  refine ⟨inner, ?_⟩
  intro args hargs a ha c hc
  obtain ⟨bs, stretch, rfl⟩ := exists_infix_of_arguments hargs a ha
  rw [String.toList_ofList] at hc
  have := mem_render_of_infix stretch (Blank.mem_of_mem_trim hc)
  rw [Atom.render_scan] at this
  exact inner c this

/-! ## Formulas without symbols -/

end Formula

theorem Symbols.substitute_of_not_mem (data : Value) {s : String} (h : '@' ∉ s.toList) :
    substitute data s = .ok s := by
  have chars : ∀ cs : List Char, '@' ∉ cs → substituteFrom data cs.length cs = .ok cs := by
    intro cs hcs
    induction cs with
    | nil => rfl
    | cons c cs ih =>
      obtain ⟨hc, hcs⟩ := List.ne_and_not_mem_of_not_mem_cons hcs
      simp [substituteFrom, Ne.symm hc, ih hcs]
  simp [substitute, chars _ h]

namespace Formula

theorem reads_normalize {formula : String} {ts : List Term} :
    Reads config (normalize formula) ts ↔ Reads config formula ts :=
  exists_congr fun fuel => by rw [readTerms_normalize]

/-- A formula without symbols is read as it stands. -/
theorem parse_eq_ok {formula : String} (symbols : '@' ∉ formula.toList) {data : Value}
    {p : Parsed} :
    parse (.str formula) data config = .ok p
      ↔ p.formula = normalize formula ∧ Reads config formula p.terms := by
  rw [parse, Symbols.substitute_of_not_mem _ symbols, bind_ok, bind_eq_ok, ← reads_normalize]
  constructor
  · rintro ⟨ts, hts, h⟩
    obtain rfl := Except.ok.inj h
    exact ⟨rfl, parseTerms_eq_ok.1 hts⟩
  · rintro ⟨hformula, hts⟩
    refine ⟨p.terms, parseTerms_eq_ok.2 hts, ?_⟩
    rw [← hformula]
    rfl

end Formula

end DiceFormula
