import DiceFormula.Proofs.Arithmetic.Exact
import DiceFormula.Proofs.Arithmetic.Language
import DiceFormula.Proofs.Arithmetic.Plain

/-!
# Flat texts

Integers written one after the other with signs between them. A negative integer is read back as a
numeral with a minus in front of it, which binds tighter than the sign before, so that the text has
the tokens of a sum of the integers (`lex_flatText`).
-/

namespace DiceFormula.Arithmetic

/-! ## Whole numerals -/

mutual

theorem SumTree.isWhole_expr : ∀ s : SumTree, (∀ n, .numeral n ∈ s.tokens → IsDigits n) →
    s.expr.IsWhole
  | .product p, h => p.isWhole_expr h
  | .join s _ p, h =>
    ⟨s.isWhole_expr fun n hn => h n (List.mem_append_left _ hn),
      p.isWhole_expr fun n hn => h n (List.mem_append_right _ (List.mem_cons_of_mem _ hn))⟩

theorem ProductTree.isWhole_expr : ∀ p : ProductTree, (∀ n, .numeral n ∈ p.tokens → IsDigits n) →
    p.expr.IsWhole
  | .unary u, h => u.isWhole_expr h
  | .join p _ u, h =>
    ⟨p.isWhole_expr fun n hn => h n (List.mem_append_left _ hn),
      u.isWhole_expr fun n hn => h n (List.mem_append_right _ (List.mem_cons_of_mem _ hn))⟩

theorem UnaryTree.isWhole_expr : ∀ u : UnaryTree, (∀ n, .numeral n ∈ u.tokens → IsDigits n) →
    u.expr.IsWhole
  | .atom a, h => a.isWhole_expr h
  | .negative u, h | .positive u, h => u.isWhole_expr fun n hn => h n (List.mem_cons_of_mem _ hn)

theorem AtomTree.isWhole_expr : ∀ a : AtomTree, (∀ n, .numeral n ∈ a.tokens → IsDigits n) →
    a.expr.IsWhole
  | .number n, h => h n List.mem_cons_self
  | .group s, h =>
    s.isWhole_expr fun n hn => h n (List.mem_cons_of_mem _ (List.mem_append_left _ hn))

end

theorem isDigits_of_mem_lexFrom (digits : List Char) {cs : List Char} (hd : IsDigits digits) :
    ∀ n, .numeral n ∈ lexFrom digits cs → IsDigits n := by
  have flush {digits : List Char} {ts : List Token} (hd : IsDigits digits)
      (ht : ∀ n, .numeral n ∈ ts → IsDigits n) :
      ∀ n, .numeral n ∈ flushNumeral digits ts → IsDigits n := by
    intro n hn
    unfold flushNumeral at hn
    by_cases none : digits = []
    · rw [if_pos none] at hn
      exact ht n hn
    · rw [if_neg none] at hn
      rcases List.mem_cons.1 hn with hn | hn
      · obtain rfl := Token.numeral.inj hn
        intro c hc
        exact hd c (List.mem_reverse.1 hc)
      · exact ht n hn
  induction cs generalizing digits with
  | nil => exact flush hd fun n hn => absurd hn List.not_mem_nil
  | cons c cs ih =>
    unfold lexFrom
    by_cases hc : c.isDigit = true
    · rw [if_pos hc]
      exact ih _ (List.forall_mem_cons.2 ⟨hc, hd⟩)
    · rw [if_neg hc]
      refine flush hd ?_
      intro n hn
      rcases List.mem_append.1 hn with hn | hn
      · have := Option.mem_toList.1 hn
        unfold Token.ofChar? at this
        split at this <;> cases this
      · exact ih [] (List.forall_mem_nil _) n hn

/-- The numerals of a plain text are integers. -/
theorem isDigits_of_mem_lex {cs : List Char} : ∀ n, .numeral n ∈ lex cs → IsDigits n :=
  isDigits_of_mem_lexFrom [] nofun

/-- A plain text has the outcome of truncating arithmetic where all its divisions are exact. -/
theorem yields_evaluate {text : String} {d : SumTree} (plain : IsPlain text.toList)
    (hd : d.tokens = lex text.toList) :
    read? text = some d.expr ∧ d.expr.IsWhole
      ∧ (d.expr.Divides → Yields (evaluate text) d.expr.trunc?) := by
  have derives : Derives text d := by
    unfold Derives
    rw [hd]
    exact splits_lex plain
  have read := read?_eq_some.2 ⟨d, derives, rfl⟩
  have whole : d.expr.IsWhole := d.isWhole_expr (by
    rw [hd]
    exact isDigits_of_mem_lex)
  refine ⟨read, whole, ?_⟩
  intro h
  rw [evaluate, read]
  exact Expr.yields_eval whole h

/-! ## Integers as operands -/

/-- A natural number as a numeral. -/
def natTree (n : Nat) : UnaryTree := .atom (.number (Nat.toDigits 10 n))

/-- An integer as an operand: a numeral, with a minus if it is negative. -/
def intTree : Int → UnaryTree
  | .ofNat n => natTree n
  | .negSucc n => .negative (natTree (n + 1))

theorem isInt_toDigits (n : Nat) : IsInt (Nat.toDigits 10 n) := by
  refine ⟨Nat.toDigits_ne_nil, ?_⟩
  intro c hc
  exact Nat.isDigit_of_mem_toDigits (by decide) (by decide) hc

theorem trunc?_natTree (n : Nat) : (natTree n).expr.trunc? = some (n : Int) := by
  have : digitsValue (Nat.toDigits 10 n) = n := Nat.ofDigitChars_ten_toDigits
  simp [natTree, UnaryTree.expr, AtomTree.expr, Expr.trunc?, this]

theorem trunc?_intTree (n : Int) : (intTree n).expr.trunc? = some n := by
  cases n with
  | ofNat n => exact trunc?_natTree n
  | negSucc n =>
    rw [intTree, UnaryTree.expr, Expr.trunc?, trunc?_natTree]
    rfl

theorem divides_intTree (n : Int) : (intTree n).expr.Divides := by
  cases n <;> exact trivial

/-- An integer as it is written. -/
def intText (n : Int) : List Char := (toString n).toList

theorem intText_eq (n : Int) :
    intText n = match n with
      | .ofNat n => Nat.toDigits 10 n
      | .negSucc n => '-' :: Nat.toDigits 10 (n + 1) := by
  rw [intText, Int.toString_eq_repr, Int.repr_eq_if]
  cases n with
  | ofNat n => simp [Nat.toList_repr]
  | negSucc n =>
    simp [Nat.toList_repr, Int.negSucc_not_nonneg]

theorem lex_intText (n : Int) : lex (intText n) = (intTree n).tokens := by
  rw [intText_eq]
  cases n with
  | ofNat n => exact lex_digits (isInt_toDigits n)
  | negSucc n =>
    rw [lex_cons (t := .sign .minus) _ rfl, lex_digits (isInt_toDigits (n + 1))]
    rfl

theorem isPlain_intText (n : Int) : IsPlain (intText n) := by
  have digits (n : Nat) : IsPlain (Nat.toDigits 10 n) := by
    intro c hc
    exact .inl ((isInt_toDigits n).2 c hc)
  rw [intText_eq]
  cases n with
  | ofNat n => exact digits n
  | negSucc n => exact List.forall_mem_cons.2 ⟨by decide, digits (n + 1)⟩

/-! ## Integers between signs -/

/-- A first integer and further ones after signs, as they are written. -/
def flatText (a : Int) (l : List (Sign × Int)) : List Char :=
  intText a ++ l.flatMap fun x => ' ' :: x.1.char :: ' ' :: intText x.2

/-- The operands of the text. -/
def flatTree (a : Int) (l : List (Sign × Int)) : SumTree :=
  SumTree.build (intTree a) (l.map fun x => (x.1, intTree x.2))

theorem lex_flatText (a : Int) (l : List (Sign × Int)) :
    lex (flatText a l) = (flatTree a l).tokens := by
  have rest : lex (l.flatMap fun x => ' ' :: x.1.char :: ' ' :: intText x.2)
        = l.flatMap (fun x => .sign x.1 :: (intTree x.2).tokens)
      ∧ NoDigit (l.flatMap fun x => ' ' :: x.1.char :: ' ' :: intText x.2) := by
    induction l with
    | nil => exact ⟨rfl, nofun⟩
    | cons x l ih =>
      have sign : Token.ofChar? x.1.char = some (.sign x.1) := by cases x.1 <;> rfl
      refine ⟨?_, .cons rfl⟩
      rw [List.flatMap_cons, List.flatMap_cons, lex_append ih.2, ih.1]
      have space (cs : List Char) : lex (' ' :: cs) = lex cs := lex_space [] cs
      rw [space, lex_cons _ sign, space, lex_intText]
  rw [flatText, lex_append rest.2, lex_intText, rest.1, flatTree, SumTree.tokens_build,
    List.flatMap_map]

theorem isPlain_flatText (a : Int) (l : List (Sign × Int)) : IsPlain (flatText a l) := by
  intro c hc
  rcases List.mem_append.1 hc with hc | hc
  · exact isPlain_intText a c hc
  · obtain ⟨⟨s, b⟩, -, hc⟩ := List.mem_flatMap.1 hc
    simp only [List.mem_cons] at hc
    rcases hc with rfl | rfl | rfl | hc
    · decide
    · cases s <;> decide
    · decide
    · exact isPlain_intText b c hc

end DiceFormula.Arithmetic
