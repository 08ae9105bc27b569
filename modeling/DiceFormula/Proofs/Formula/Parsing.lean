import DiceFormula.Formula.Grammar
import DiceFormula.Proofs.Fallible

/-!
# What the parser gives

When a step of the parser gives a result, and which one it is. A leaf is an operator, a number, some
dice or a text (`Leaf.classified_of_classify`); a group is a group, a call of its function or a pool
(`Formula.grouped_of_groupTerm`); a formula is read by cutting it into pieces, making terms of these
and validating the terms (`Formula.readBy_eq_ok`).
-/

namespace DiceFormula

variable {config : Config}

/-! ## Leaves -/

/-- Dice of this denomination are dice, not a text: the engine knows it, and what the numeric die
makes has a number of faces. -/
def Config.Rolls (config : Config) (name : List Char) : Prop :=
  ∃ kind, config.denomination? (String.ofList name) = some (.dice kind)
    ∧ (config.numericDie = .dice kind → Digit.readNat? name ≠ none)

namespace Leaf

/-- The dice that a spelling makes. -/
def diceTerm (kind : DiceKind) (t : DiceText) (config : Config) : Term :=
  .make (.dice { kind, number := .int (t.number.getD 1)
                 faces := facesOf kind (Digit.readNat? t.denomination)
                 hand := { modifiers := Modifier.splitValues (String.ofList t.modifiers) } })
    (Options.ofFlavor t.flavor) config

/-- What is spelled like dice is dice, or stays a text. -/
theorem cases_of_ofDice {t : DiceText} {u : Term} (h : ofDice t config = .ok u) :
    ¬config.Rolls t.denomination ∧ u = textTerm t.whole config
      ∨ config.Rolls t.denomination ∧ ∃ kind,
        config.denomination? (String.ofList t.denomination) = some (.dice kind)
          ∧ u = diceTerm kind t config := by
  unfold ofDice at h
  dsimp only at h
  split at h
  · next none =>
    refine .inl ⟨?_, (Except.ok.inj h).symm⟩
    rintro ⟨kind, hkind, -⟩
    rw [none] at hkind
    cases hkind
  · next c hc =>
    split at h
    · next unknown =>
      refine .inl ⟨?_, (Except.ok.inj h).symm⟩
      rintro ⟨kind, hkind, known⟩
      obtain rfl := Option.some.inj (hc.symm.trans hkind)
      obtain ⟨none, numeric⟩ := Bool.and_eq_true_iff.1 unknown
      exact known (beq_iff_eq.1 numeric).symm (Option.isNone_iff_eq_none.1 none)
    · next known =>
      split at h
      · exact .inr ⟨⟨_, hc, fun numeric none => known (by simp [none, numeric])⟩, _, hc,
          (Except.ok.inj h).symm⟩
      · cases h

/-- What a leaf is classified as. -/
inductive Classified (config : Config) (cs : List Char) : Bool → Term → Prop
  | operator {adjacent : Bool} {s : Arithmetic.Sign} : cs = [s.char] →
      Classified config cs adjacent (.make (.operator s) [] config)
  | number {n : Number} {flavor : Option (List Char)} : readNumeral? cs = some (n, flavor) →
      Classified config cs false (.make (.number n) (Options.ofFlavor flavor) config)
  | text {adjacent : Bool} : readNumeral? cs = none → (adjacent = false → readDice? cs = none) →
      Classified config cs adjacent (textTerm cs config)
  | dice {d : DiceText} {t : Term} : readDice? cs = some d → ofDice d config = .ok t →
      Classified config cs false t

theorem classified_of_classify {text : String} {adjacent : Bool} {t : Term}
    (h : classify text config adjacent = .ok t) :
    Classified config text.toList adjacent t := by
  have leaf (h : classify.leaf text config adjacent text.toList = .ok t) :
      Classified config text.toList adjacent t := by
    unfold classify.leaf at h
    split at h
    · next n flavor hn =>
      split at h
      · cases h
      · next alone =>
        obtain rfl := Except.ok.inj h
        rw [Bool.not_eq_true] at alone
        rw [alone]
        exact .number hn
    · next hn =>
      split at h
      · next d hd =>
        split at h
        · next beside =>
          obtain rfl := Except.ok.inj h
          exact .text hn fun alone => by rw [alone] at beside; cases beside
        · next alone =>
          rw [Bool.not_eq_true] at alone
          rw [alone]
          exact .dice hd h
      · next hd =>
        obtain rfl := Except.ok.inj h
        exact .text hn fun _ => hd
  unfold classify at h
  dsimp only at h
  split at h
  · next c hc =>
    split at h
    · next s hs =>
      obtain rfl := Except.ok.inj h
      exact .operator (by rw [hc, Arithmetic.Sign.char_of_ofChar? hs])
    · exact leaf h
  · split at h
    · cases h
    · exact leaf h
  · exact leaf h

end Leaf

/-! ## Texts -/

namespace Piece

theorem exists_eq_map_atom :
    ∀ {ps : List Piece}, groups ps = [] → ∃ as : List Atom, ps = as.map Piece.atom
  | [], _ => ⟨[], rfl⟩
  | .atom a :: ps, h => by
    obtain ⟨as, rfl⟩ := @exists_eq_map_atom ps h
    exact ⟨a :: as, rfl⟩
  | .group g :: ps, h => nomatch h

theorem render_map_atom (as : List Atom) :
    render (as.map Piece.atom) = String.ofList (Atom.render as) := by
  have chars (n : Nat) : renderFrom n (as.map Piece.atom) = Atom.render as := by
    induction as with
    | nil => rfl
    | cons a as ih => rw [List.map_cons, renderFrom, ih]; rfl
  rw [render, chars]

end Piece

/-! ## Arguments -/

/-- A text is split unless a flavor in it is left open. -/
theorem splitTopLevel_eq_ok {text separator : String} {parts : List String} :
    splitTopLevel text separator = .ok parts
      ↔ Atom.char '[' ∉ Atom.scan text.toList
        ∧ (Atom.splitAt separator 0 [] (Atom.scan text.toList)).map
            (fun part => String.ofList (Blank.trim (Atom.render part))) = parts := by
  rw [← FormulaToken.any_isLoose]
  unfold splitTopLevel
  dsimp only
  split
  · next loose => simp [loose]
  · next closed => simp [closed]

namespace Formula

theorem ofParse_eq_ok {α : Type} {x : Except ParseFault α} {a : α} :
    ofParse x = .ok a ↔ x = .ok a := by
  cases x with
  | ok b => simp [ofParse]
  | error f => simp [ofParse]

/-- No argument may be empty. -/
theorem arguments_eq_ok {inner : String} {args : List String} :
    arguments inner = .ok args
      ↔ splitTopLevel inner "," = .ok args ∧ args.any (·.isEmpty) = false := by
  rw [arguments, bind_eq_ok]
  simp only [ofParse_eq_ok]
  constructor
  · rintro ⟨parts, split, h⟩
    split at h
    · cases h
    · next full =>
      obtain rfl := Except.ok.inj h
      exact ⟨split, Bool.eq_false_iff.2 full⟩
  · rintro ⟨split, full⟩
    exact ⟨args, split, if_neg (Bool.eq_false_iff.1 full)⟩

/-! ## Groups -/

variable {check : String → Except Error Unit}

/-- What a group becomes: a group, a call of its function, or a pool. -/
inductive Grouped (config : Config) (s : Suffix) : Group → Term → Prop
  | group (inner : String) : Grouped config s ⟨.paren, none, inner⟩
      (.make (.group (.str inner) none) (Options.ofFlavor s.flavor) config)
  | call {fn inner : String} {args : List String} : arguments inner = .ok args →
      (config.functions.lookup fn).isNone = false → Grouped config s ⟨.paren, some fn, inner⟩
      (.make (.call (.str fn) args [] .null) (Options.ofFlavor s.flavor) config)
  | pool {fn : Option String} {inner : String} {args : List String} : arguments inner = .ok args →
      Grouped config s ⟨.brace, fn, inner⟩
      (.make (.pool args [] { modifiers := Modifier.splitValues (String.ofList s.modifiers) })
        (Options.ofFlavor s.flavor) config)

theorem grouped_of_groupTerm {g : Group} {s : Suffix} {t : Term}
    (h : groupTerm check config g s = .ok t) : Grouped config s g t := by
  obtain ⟨bracket, fn, inner⟩ := g
  unfold groupTerm at h
  dsimp only at h
  split at h
  · obtain ⟨-, -, h⟩ := bind_eq_ok.1 h
    obtain rfl := Except.ok.inj h
    exact .group inner
  · obtain ⟨args, hargs, h⟩ := bind_eq_ok.1 h
    obtain ⟨-, -, h⟩ := bind_eq_ok.1 h
    obtain rfl := Except.ok.inj h
    exact .pool hargs
  · obtain ⟨args, hargs, h⟩ := bind_eq_ok.1 h
    obtain ⟨-, -, h⟩ := bind_eq_ok.1 h
    split at h
    · cases h
    · next known =>
      obtain rfl := Except.ok.inj h
      exact .call hargs (Bool.not_eq_true _ ▸ known)

/-! ## Segments -/

/-- How the segments of a token become terms: a text behind a group may belong to the group. -/
inductive Segmented (check : String → Except Error Unit) (config : Config) :
    List Segment → List Term → Prop
  | done : Segmented check config [] []
  | text {as : List Atom} {ss : List Segment} {t : Term} {ts : List Term} :
      Leaf.classify (String.ofList (Atom.render as)) config true = .ok t →
      Segmented check config ss ts → Segmented check config (.text as :: ss) (t :: ts)
  | suffixed {g : Group} {as : List Atom} {s : Suffix} {ss : List Segment} {t : Term}
      {ts : List Term} : suffix? g.bracket (Atom.render as) = some s →
      groupTerm check config g s = .ok t → Segmented check config ss ts →
      Segmented check config (.group g :: .text as :: ss) (t :: ts)
  | group {g : Group} {ss : List Segment} {t : Term} {ts : List Term} :
      (∀ as rest, ss = .text as :: rest → suffix? g.bracket (Atom.render as) = none) →
      groupTerm check config g {} = .ok t → Segmented check config ss ts →
      Segmented check config (.group g :: ss) (t :: ts)

theorem segmented_iff {ss : List Segment} {ts : List Term} :
    segmentTerms check config ss = .ok ts ↔ Segmented check config ss ts := by
  constructor
  · intro h
    fun_induction segmentTerms check config ss generalizing ts with
    | case1 =>
      obtain rfl := Except.ok.inj h
      exact .done
    | case2 as ss ih =>
      obtain ⟨t, ht, h⟩ := bind_eq_ok.1 h
      obtain ⟨rest, hrest, h⟩ := bind_eq_ok.1 h
      obtain rfl := Except.ok.inj h
      exact .text ht (ih hrest)
    | case3 g as ss s hsuffix ih =>
      obtain ⟨t, ht, h⟩ := bind_eq_ok.1 h
      obtain ⟨rest, hrest, h⟩ := bind_eq_ok.1 h
      obtain rfl := Except.ok.inj h
      exact .suffixed hsuffix ht (ih hrest)
    | case4 g as ss hsuffix ih =>
      obtain ⟨t, ht, h⟩ := bind_eq_ok.1 h
      obtain ⟨u, hu, h⟩ := bind_eq_ok.1 h
      obtain ⟨rest, hrest, h⟩ := bind_eq_ok.1 h
      obtain rfl := Except.ok.inj h
      refine .group ?_ ht (.text hu (ih hrest))
      rintro _ _ ⟨⟩
      exact hsuffix
    | case5 g ss hn ih =>
      obtain ⟨t, ht, h⟩ := bind_eq_ok.1 h
      obtain ⟨rest, hrest, h⟩ := bind_eq_ok.1 h
      obtain rfl := Except.ok.inj h
      exact .group (fun as rest e => absurd e (hn as rest)) ht (ih hrest)
  · intro h
    induction h with
    | done => rfl
    | text ht _ ih => simp [segmentTerms, ht, ih]
    | suffixed hsuffix ht _ ih => simp [segmentTerms, hsuffix, ht, ih]
    | @group g ss t ts alone ht _ ih =>
      cases ss with
      | nil => simpa [segmentTerms, ht] using ih
      | cons s ss =>
        cases s with
        | group g' => simp [segmentTerms, ht, ih]
        | text as =>
          obtain ⟨u, hu, ih⟩ := bind_eq_ok.1 ih
          obtain ⟨rest, hrest, ih⟩ := bind_eq_ok.1 ih
          obtain rfl := Except.ok.inj ih
          simp [segmentTerms, alone as ss rfl, ht, hu, hrest]

/-- What a token becomes: an operator, a leaf, or the terms of its segments. -/
inductive Tokened (check : String → Except Error Unit) (config : Config) :
    FormulaToken → List Term → Prop
  | sign (s : Arithmetic.Sign) : Tokened check config (.sign s) [.make (.operator s) [] config]
  | text {as : List Atom} {t : Term} :
      Leaf.classify (String.ofList (Atom.render as)) config false = .ok t →
      Tokened check config (.value (as.map Piece.atom)) [t]
  | groups {ps : List Piece} {ts : List Term} : Piece.groups ps ≠ [] →
      segmentTerms check config (segments ps) = .ok ts → Tokened check config (.value ps) ts

theorem tokened_of_tokenTerms {token : FormulaToken} {ts : List Term}
    (h : tokenTerms check config token = .ok ts) : Tokened check config token ts := by
  unfold tokenTerms at h
  split at h
  · obtain rfl := Except.ok.inj h
    exact .sign _
  · split at h
    · next none =>
      obtain ⟨as, rfl⟩ := Piece.exists_eq_map_atom (List.isEmpty_iff.1 none)
      obtain ⟨t, ht, h⟩ := bind_eq_ok.1 h
      obtain rfl := Except.ok.inj h
      rw [Piece.render_map_atom] at ht
      exact .text ht
    · next some => exact .groups (mt List.isEmpty_iff.2 some) h

/-! ## Formulas -/

/-- The terms of a valid formula are those that were read, perhaps with a zero in front. They begin
and end with a value. -/
theorem of_validateTerms {ts us : List Term} (h : validateTerms config ts = .ok us) :
    (us = ts ∨ us = .make (.number 0) [] config :: ts)
      ∧ (∃ t, us.head? = some t ∧ t.sign? = none) ∧ us.getLast?.bind Term.sign? = none
      ∧ alternate us = .ok () := by
  obtain ⟨vs, hv, h⟩ := bind_eq_ok.1 h
  split at h
  · cases h
  · next last =>
    obtain ⟨⟨⟩, halternate, h⟩ := bind_eq_ok.1 h
    obtain rfl := Except.ok.inj h
    unfold withLeadingZero at hv
    split at hv
    · cases hv
    · next t ht =>
      split at hv
      · next sign =>
        obtain rfl := Except.ok.inj hv
        exact ⟨.inl rfl, ⟨t, ht, sign⟩, last, halternate⟩
      · split at hv
        · obtain rfl := Except.ok.inj hv
          exact ⟨.inr rfl, ⟨_, rfl, rfl⟩, last, halternate⟩
        · cases hv

/-- Reads a formula of which the formulas inside the groups are read by `check`. -/
def readBy (check : String → Except Error Unit) (config : Config) (formula : String) :
    Except Error (List Term) := do
  let formula := normalize formula
  if formula.isEmpty then .error (.parse .emptyExpression)
  else if formula.toList.contains '$' then .error (.parse (.reservedDollar formula))
  else
    let pieces ← ofParse (Piece.ofText formula)
    let ts ← allTerms check config (FormulaToken.ofPieces pieces)
    ofParse (validateTerms config ts)

/-- Reading a formula is cutting it into pieces, making terms of them and validating these. -/
theorem readBy_eq_ok {formula : String} {ts : List Term} :
    readBy check config formula = .ok ts
      ↔ normalize formula ≠ "" ∧ '$' ∉ (normalize formula).toList
        ∧ ∃ ps us, Piece.ofText (normalize formula) = .ok ps
          ∧ allTerms check config (FormulaToken.ofPieces ps) = .ok us
          ∧ validateTerms config us = .ok ts := by
  unfold readBy
  dsimp only
  by_cases full : normalize formula = ""
  · rw [if_pos (by rw [full]; rfl)]
    exact iff_of_false nofun fun h => h.1 full
  · rw [if_neg (by simpa using full)]
    by_cases dollar : '$' ∈ (normalize formula).toList
    · rw [if_pos (List.contains_iff_mem.2 dollar)]
      exact iff_of_false nofun fun h => h.2.1 dollar
    · rw [if_neg (by simpa using dollar)]
      simp only [bind_eq_ok, ofParse_eq_ok]
      constructor
      · rintro ⟨ps, hps, us, hus, h⟩
        exact ⟨full, dollar, ps, us, hps, hus, h⟩
      · rintro ⟨-, -, ps, us, hps, hus, h⟩
        exact ⟨ps, hps, us, hus, h⟩

/-- The check of the text of a group. -/
def checkWithin (config : Config) (fuel : Nat) (s : String) : Except Error Unit := do
  let _ ← readTerms config fuel s

theorem checkWithin_eq_ok {fuel : Nat} {s : String} :
    checkWithin config fuel s = .ok () ↔ ∃ ts, readTerms config fuel s = .ok ts := by
  rw [checkWithin, bind_eq_ok]
  exact exists_congr fun ts => and_iff_left rfl

theorem readTerms_succ (fuel : Nat) (formula : String) :
    readTerms config (fuel + 1) formula = readBy (checkWithin config fuel) config formula := rfl

/-- A formula that is read is cut into pieces, made into terms and validated. -/
theorem exists_of_readTerms {fuel : Nat} {formula : String} {ts : List Term}
    (h : readTerms config fuel formula = .ok ts) :
    ∃ fuel' ps us, fuel = fuel' + 1 ∧ normalize formula ≠ ""
      ∧ Piece.ofText (normalize formula) = .ok ps
      ∧ allTerms (checkWithin config fuel') config (FormulaToken.ofPieces ps) = .ok us
      ∧ validateTerms config us = .ok ts := by
  cases fuel with
  | zero => cases h
  | succ fuel =>
    rw [readTerms_succ] at h
    obtain ⟨full, -, ps, us, hps, hus, valid⟩ := readBy_eq_ok.1 h
    exact ⟨fuel, ps, us, rfl, full, hps, hus, valid⟩

/-- What is known of all formulas that are read is known of those that are parsed. -/
theorem exists_readTerms_of_parse {formula data : Value} {p : Parsed}
    (h : parse formula data config = .ok p) :
    ∃ fuel text, readTerms config fuel text = .ok p.terms := by
  unfold parse at h
  split at h
  · obtain ⟨text, -, h⟩ := bind_eq_ok.1 h
    obtain ⟨ts, hts, h⟩ := bind_eq_ok.1 h
    obtain rfl := Except.ok.inj h
    exact ⟨_, _, hts⟩
  · cases h

end Formula

end DiceFormula
