import DiceFormula.Proofs.Arithmetic.Flat
import DiceFormula.Proofs.Formula.Plain
import Mathlib.Data.List.Forall2

/-!
# Values and operators in turn

In a formula values and operators alternate, except that a text may touch a group or a call. The
terms of a formula are `Spaced`: no two operators stand side by side, and none at the ends
(`Formula.spaced_of_parse`). What stands side by side can be joined by way of its text, since no
term says nothing or a lone sign (`Term.Joinable`, `Formula.joinable_of_parse`): the joined text is
read as a value again (`Leaf.outcome_classify`). What may go wrong is only that it names dice by a
denomination that makes none (`Error.IsNotDice`).
-/

namespace DiceFormula

variable {config : Config}

/-! ## Terms side by side -/

/-- No two operators stand side by side, and none at the ends. -/
inductive Spaced : List Term → Prop
  | value {t : Term} : t.isOperator = false → Spaced [t]
  | beside {t : Term} {ts : List Term} : t.isOperator = false → Spaced ts → Spaced (t :: ts)
  | join {t s : Term} {ts : List Term} : t.isOperator = false → s.isOperator = true → Spaced ts →
      Spaced (t :: s :: ts)

/-- Values and operators alternate, with a value at either end. -/
inductive Alternates : List Term → Prop
  | value {t : Term} : t.isOperator = false → Alternates [t]
  | join {t s : Term} {ts : List Term} : t.isOperator = false → s.isOperator = true →
      Alternates ts → Alternates (t :: s :: ts)

/-- The second term stands where the first one stood: it is an operator just if that was one. -/
def Replaces (t u : Term) : Prop := u.isOperator = t.isOperator

theorem Spaced.of_replaces {ts us : List Term} (h : Spaced ts) (hr : List.Forall₂ Replaces ts us) :
    Spaced us := by
  induction h generalizing us with
  | value ht =>
    cases hr with
    | cons hu hr =>
      cases hr
      exact .value (hu.trans ht)
  | beside ht _ ih =>
    cases hr with
    | cons hu hr => exact .beside (hu.trans ht) (ih hr)
  | join ht hs _ ih =>
    cases hr with
    | cons hu hr =>
      cases hr with
      | cons hv hr => exact .join (hu.trans ht) (hv.trans hs) (ih hr)

namespace Alternates

variable {ts us : List Term} {s : Term}

theorem of_replaces (h : Alternates ts) (hr : List.Forall₂ Replaces ts us) : Alternates us := by
  induction h generalizing us with
  | value ht =>
    cases hr with
    | cons hu hr =>
      cases hr
      exact .value (hu.trans ht)
  | join ht hs _ ih =>
    cases hr with
    | cons hu hr =>
      cases hr with
      | cons hv hr => exact .join (hu.trans ht) (hv.trans hs) (ih hr)

theorem append (h : Alternates ts) (hs : s.isOperator = true) (hu : Alternates us) :
    Alternates (ts ++ s :: us) := by
  induction h with
  | value ht => exact .join ht hs hu
  | join ht hop _ ih => exact .join ht hop ih

theorem reverse (h : Alternates ts) : Alternates ts.reverse := by
  induction h with
  | value ht => exact .value ht
  | @join t s ts ht hs _ ih =>
    rw [List.reverse_cons, List.reverse_cons, List.append_assoc]
    exact ih.append hs (.value ht)

/-- The first term is a value, whatever may be put in its place. -/
theorem head (h : Alternates ts) :
    ∃ t rest, ts = t :: rest ∧ t.isOperator = false
      ∧ ∀ u : Term, u.isOperator = false → Alternates (u :: rest) := by
  cases h with
  | value ht => exact ⟨_, [], rfl, ht, fun u hu => .value hu⟩
  | join ht hs h => exact ⟨_, _, rfl, ht, fun u hu => .join hu hs h⟩

end Alternates

/-! ## Terms that say no lone sign -/

/-- A term that can be joined with others: it stands in no other roll, and what it says is neither
empty nor a lone sign. -/
structure Term.Joinable (t : Term) : Prop where
  tag : t.label.tag = none
  written : t.written ≠ ""
  sign : ∀ c, t.written.toList = [c] → Arithmetic.Sign.ofChar? c = none

/-- The text is longer than a sign. -/
theorem Term.joinable_of_length {t : Term} (tag : t.label.tag = none)
    (h : 2 ≤ t.written.toList.length) : t.Joinable where
  tag := tag
  written := by
    intro e
    rw [e] at h
    exact absurd h (by decide)
  sign := by
    intro c hc
    rw [hc, List.length_singleton] at h
    omega

/-! ### Numbers -/

namespace Decimal

theorem two_le_length_layout {d : Decimal} (h : 0 < d.coeff) : 2 ≤ d.layout.length := by
  have digits := stripZeros_ne_nil (exists_digit_ne_zero h)
  unfold layout
  dsimp only
  split
  · split
    · next e => exact absurd e digits
    · simp
    · simp
  · split
    · simp
    · split
      · simp only [List.length_append, List.length_cons, List.length_nil]
        omega
      · next long =>
        simp only [List.length_append, List.length_cons, List.length_drop, List.length_take]
        omega

end Decimal

theorem two_le_length_floatText (x : Float) : 2 ≤ (floatText x).toList.length := by
  unfold floatText
  split
  · split
    · decide
    · split <;> decide
  · dsimp only
    split
    · simp
    · next d _ hsig =>
      have hpos : 0 < d.sig.natAbs := Int.natAbs_pos.2 (by simpa using hsig)
      have := Decimal.two_le_length_layout (@Decimal.coeff_shortest_pos _ d.exp hpos)
      rw [String.toList_ofList, List.length_append]
      omega

/-- An integer that is one character is a digit. -/
theorem ofChar?_of_toString_int {n : Int} {c : Char} (h : (toString n).toList = [c]) :
    Arithmetic.Sign.ofChar? c = none := by
  rw [Int.toString_eq_repr, Int.repr_eq_if] at h
  by_cases hn : 0 ≤ n
  · rw [if_pos hn, Nat.toList_repr] at h
    refine Arithmetic.Sign.ofChar?_of_isDigit ((Arithmetic.isInt_toDigits n.toNat).2 c ?_)
    rw [h]
    exact List.mem_singleton_self c
  · rw [if_neg hn, String.toList_append, Nat.toList_repr] at h
    have := congrArg List.length h
    have pos := List.length_pos_of_ne_nil (Nat.toDigits_ne_nil (b := 10) (n := (-n).toNat))
    simp only [List.length_append, List.length_singleton] at this
    have dash : ("-".toList).length = 1 := rfl
    omega

theorem Number.ofChar?_of_formulaText {n : Number} {c : Char} (h : n.formulaText.toList = [c]) :
    Arithmetic.Sign.ofChar? c = none := by
  have long {x : Float} (h : (floatText x).toList = [c]) : False := by
    have := two_le_length_floatText x
    rw [h, List.length_singleton] at this
    omega
  cases n with
  | int n => exact ofChar?_of_toString_int h
  | float x =>
    unfold Number.formulaText at h
    dsimp only at h
    split at h
    · split at h
      · exact ofChar?_of_toString_int h
      · exact (long h).elim
    · exact (long h).elim

theorem Term.joinable_number (n : Number) (l : Label) (carried : List Term) (h : l.tag = none) :
    Term.Joinable ⟨.number n, l, carried⟩ where
  tag := h
  written := n.formulaText_ne_empty
  sign := fun _ hc => Number.ofChar?_of_formulaText hc

/-! ### Leaves and groups -/

/-- The denomination of some dice names a class that makes no dice. -/
def Error.IsNotDice (config : Config) (e : Error) : Prop :=
  ∃ name c, config.denomination? name = some c ∧ c.kind? = none
    ∧ e = .invalidArgument (.notDice name)

namespace Leaf

/-- A value that can be joined with others. -/
structure Joined (t : Term) : Prop where
  value : t.isOperator = false
  joinable : t.Joinable

theorem joined_textTerm {cs : List Char} (hne : cs ≠ [])
    (hs : ∀ c, cs = [c] → Arithmetic.Sign.ofChar? c = none) : Joined (textTerm cs config) where
  value := rfl
  joinable :=
    { tag := rfl
      written := by simpa [textTerm, Term.make, Term.written, Value.text] using hne
      sign := by simpa [textTerm, Term.make, Term.written, Value.text] using hs }

theorem outcome_ofDice {t : DiceText} (hw : 2 ≤ t.whole.length) :
    Outcome Joined (Error.IsNotDice config) (ofDice t config) := by
  have text : Joined (textTerm t.whole config) := by
    refine joined_textTerm (List.ne_nil_of_length_pos (by omega)) ?_
    intro c hc
    rw [hc, List.length_singleton] at hw
    omega
  unfold ofDice
  dsimp only
  split
  · exact text
  · next c hc =>
    split
    · exact text
    · split
      · next kind =>
        refine ⟨rfl, Term.joinable_of_length rfl ?_⟩
        have number := toString_int_ne_empty (t.number.getD 1)
        have pos := List.length_pos_of_ne_nil fun e => number (String.toList_eq_nil_iff.1 e)
        have d : ("d".toList).length = 1 := rfl
        simp only [Term.make, Term.written, Dice.written, String.toList_append, List.length_append]
        have : (Value.int (t.number.getD 1)).text = toString (t.number.getD 1 : Int) := rfl
        rw [this]
        omega
      · next hk =>
        refine ⟨_, c, hc, ?_, rfl⟩
        cases c with
        | dice kind => exact absurd rfl (hk kind)
        | _ => rfl

/-- A leaf that is no lone sign is a value. Without a group next to it only its denomination can be
wrong. -/
theorem outcome_leaf {text : String} {adjacent : Bool} {cs : List Char} (hne : cs ≠ [])
    (hs : ∀ c, cs = [c] → Arithmetic.Sign.ofChar? c = none) :
    Outcome Joined (fun e => adjacent = false → e.IsNotDice config)
      (classify.leaf text config adjacent cs) := by
  unfold classify.leaf
  split
  · split
    · next beside => exact fun alone => absurd (beside.symm.trans alone) Bool.noConfusion
    · exact ⟨rfl, Term.joinable_number _ _ _ rfl⟩
  · split
    · next t ht =>
      split
      · exact joined_textTerm hne hs
      · have := @outcome_ofDice config t (two_le_length_of_readDice? ht)
        cases hu : ofDice t config with
        | ok u =>
          rw [hu] at this
          exact this
        | error e =>
          rw [hu] at this
          exact fun _ => this
    · exact joined_textTerm hne hs

/-- A text of more than one character that is no sign before a line break is a value. -/
theorem outcome_classify {text : String} {adjacent : Bool} (hl : 2 ≤ text.toList.length)
    (hs : ∀ c, text.toList = [c, '\n'] → Arithmetic.Sign.ofChar? c = none) :
    Outcome Joined (fun e => adjacent = false → e.IsNotDice config)
      (classify text config adjacent) := by
  have leaf : Outcome Joined (fun e => adjacent = false → e.IsNotDice config)
      (classify.leaf text config adjacent text.toList) := by
    refine outcome_leaf (List.ne_nil_of_length_pos (by omega)) ?_
    intro c hc
    rw [hc, List.length_singleton] at hl
    omega
  unfold classify
  dsimp only
  split
  · next c hc =>
    rw [hc, List.length_singleton] at hl
    omega
  · next c hc =>
    rw [if_neg (by simp [hs c hc])]
    exact leaf
  · exact leaf

theorem joinable_of_classify {text : String} {adjacent : Bool} {t : Term} (ht : text ≠ "")
    (h : classify text config adjacent = .ok t) : t.Joinable := by
  have hcs : text.toList ≠ [] := by simpa using ht
  have leaf (hs : ∀ c, text.toList = [c] → Arithmetic.Sign.ofChar? c = none)
      (h : classify.leaf text config adjacent text.toList = .ok t) : t.Joinable := by
    have := @outcome_leaf config text adjacent _ hcs hs
    rw [h] at this
    exact this.joinable
  unfold classify at h
  dsimp only at h
  split at h
  · next c hc =>
    split at h
    · next s _ =>
      obtain rfl := Except.ok.inj h
      exact Term.joinable_of_length rfl (by simp [Term.make, Term.written])
    · next hs =>
      refine leaf ?_ h
      intro d hd
      rw [hc] at hd
      rwa [← (List.cons.inj hd).1]
  · next c hc =>
    split at h
    · cases h
    · refine leaf ?_ h
      intro d hd
      rw [hc] at hd
      cases hd
  · next single _ => exact leaf (fun c hc => absurd hc (single c)) h

end Leaf

/-! ## Terms of a formula -/

namespace Formula

theorem joinable_of_groupTerm {check : String → Except Error Unit} {g : Group} {s : Suffix}
    {t : Term} (h : groupTerm check config g s = .ok t) : t.Joinable := by
  cases grouped_of_groupTerm h with
  | group => exact Term.joinable_of_length rfl (by simp [Term.make, Term.written])
  | call | pool => exact Term.joinable_of_length rfl (by simp [Term.make, Term.written]; omega)

theorem joinable_of_readTerms {fuel : Nat} {formula : String} {ts : List Term}
    (h : readTerms config fuel formula = .ok ts) : ∀ t ∈ ts, t.Joinable := by
  obtain ⟨fuel, ps, us, rfl, -, -, hus, hts⟩ := exists_of_readTerms h
  have joinable : ∀ t ∈ us, t.Joinable := by
    refine forall_of_allTerms hus ?_
    intro token ht ts h
    exact forall_of_tokenTerms (FormulaToken.isFull_ofPieces _ token ht)
      (fun s => Term.joinable_of_length rfl (by simp [Term.make, Term.written]))
      (fun _ _ _ hne h => Leaf.joinable_of_classify hne h)
      (fun _ _ _ _ h => joinable_of_groupTerm h) h
  rcases (of_validateTerms hts).1 with rfl | rfl
  · exact joinable
  · exact List.forall_mem_cons.2 ⟨Term.joinable_number 0 _ _ rfl, joinable⟩

/-! ### Spacing -/

theorem isOperator_eq_false {t : Term} : t.isOperator = false ↔ t.sign? = none := by
  rw [Term.isOperator, Option.isSome_eq_false_iff, Option.isNone_iff_eq_none]

/-- Valid terms that end with a value are spaced from their first value on. Without texts they
alternate, since nothing else may stand beside a group or a call. -/
theorem spaced_of_alternate :
    ∀ {t : Term} {ts : List Term}, alternate (t :: ts) = .ok () →
      (t :: ts).getLast?.bind Term.sign? = none →
      let rest := if t.isOperator then ts else t :: ts
      Spaced rest ∧ ((∀ u ∈ t :: ts, u.isText = false) → Alternates rest)
  | t, [], _, last => by
    have value : t.isOperator = false := isOperator_eq_false.2 last
    rw [value]
    exact ⟨.value value, fun _ => .value value⟩
  | t, u :: ts, h, last => by
    have rest (h : alternate (u :: ts) = .ok ()) :=
      spaced_of_alternate h (by rwa [List.getLast?_cons_cons] at last)
    unfold alternate at h
    cases ht : t.sign? with
    | some a =>
      have operator : t.isOperator = true := by rw [Term.isOperator, ht]; rfl
      cases hu : u.sign? with
      | some b => simp [ht, hu] at h
      | none =>
        have rest := rest (by simpa [ht, hu] using h)
        rw [isOperator_eq_false.2 hu] at rest
        rw [operator]
        exact ⟨rest.1, fun whole => rest.2 (List.forall_mem_cons.1 whole).2⟩
    | none =>
      have value := isOperator_eq_false.2 ht
      rw [value]
      cases hu : u.sign? with
      | some b =>
        have operator : u.isOperator = true := by rw [Term.isOperator, hu]; rfl
        have rest := rest (by simpa [ht, hu] using h)
        rw [operator] at rest
        exact ⟨.join value operator rest.1, fun whole =>
          .join value operator (rest.2 (List.forall_mem_cons.1 whole).2)⟩
      | none =>
        simp only [ht, hu] at h
        split at h
        · next beside =>
          have rest := rest h
          rw [isOperator_eq_false.2 hu] at rest
          refine ⟨.beside value rest.1, ?_⟩
          intro whole
          obtain ⟨ht, hts⟩ := List.forall_mem_cons.1 whole
          rw [fuses, ht, (List.forall_mem_cons.1 hts).1] at beside
          simp at beside
        · cases h

/-- **The terms of a formula are spaced**, and without texts they alternate. -/
theorem spaced_of_readTerms {fuel : Nat} {formula : String} {ts : List Term}
    (h : readTerms config fuel formula = .ok ts) :
    Spaced ts ∧ ((∀ t ∈ ts, t.isText = false) → Alternates ts) := by
  obtain ⟨fuel, ps, us, rfl, -, -, -, hts⟩ := exists_of_readTerms h
  obtain ⟨-, ⟨t, ht, sign⟩, last, halternate⟩ := of_validateTerms hts
  obtain ⟨rest, rfl⟩ := List.head?_eq_some_iff.1 ht
  have spaced := spaced_of_alternate halternate last
  rwa [isOperator_eq_false.2 sign] at spaced

theorem spaced_of_parse {formula data : Value} {p : Parsed}
    (h : parse formula data config = .ok p) : Spaced p.terms := by
  obtain ⟨fuel, text, h⟩ := exists_readTerms_of_parse h
  exact (spaced_of_readTerms h).1

theorem alternates_of_parse {formula data : Value} {p : Parsed}
    (h : parse formula data config = .ok p) (whole : ∀ t ∈ p.terms, t.isText = false) :
    Alternates p.terms := by
  obtain ⟨fuel, text, h⟩ := exists_readTerms_of_parse h
  exact (spaced_of_readTerms h).2 whole

theorem joinable_of_parse {formula data : Value} {p : Parsed}
    (h : parse formula data config = .ok p) : ∀ t ∈ p.terms, t.Joinable := by
  obtain ⟨fuel, text, h⟩ := exists_readTerms_of_parse h
  exact joinable_of_readTerms h

end Formula

end DiceFormula
