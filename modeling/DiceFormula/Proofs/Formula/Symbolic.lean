import DiceFormula.Proofs.Arithmetic.Flat
import DiceFormula.Proofs.Formula.Joining

/-!
# Expressions with symbols

An expression of integers, symbols and parentheses with signs between its operands, as it is
written, white space included, and what it is worth when every symbol stands for an integer.
Whatever the symbols are worth, a formula that has the texts of their values in their places can be
read (`Symbolic.exists_reads`), and it has the tokens of a derivation that is worth the same
(`Symbolic.derived`): no sign of a value is taken for a sign of the formula, since a negative value
is a group.
-/

namespace DiceFormula

open Arithmetic

namespace Arithmetic.Sign

/-- How tight the sign binds. -/
def level : Sign → Nat
  | plus | minus => 0
  | times | divide | modulo => 1

/-- What the sign stands for between two operands. -/
def operation : Sign → Operation
  | plus => .add
  | minus => .sub
  | times => .mul
  | divide => .div
  | modulo => .rem

end Arithmetic.Sign

/-- An expression with symbols, as it is written: the texts in between are white space. -/
inductive Symbolic
  | literal (digits : List Char)
  | reference (names : List String)
  | group (before : List Char) (e : Symbolic) (after : List Char)
  | signed (s : Sign) (gap : List Char) (e : Symbolic)
  | binary (l : Symbolic) (before : List Char) (s : Sign) (after : List Char) (r : Symbolic)

namespace Symbolic

/-- How tight the parts of the expression hold together. -/
def level : Symbolic → Nat
  | literal _ | reference _ | group _ _ _ => 2
  | signed _ _ _ => 0
  | binary _ _ s _ _ => s.level

/-- The name of a symbol, or an index. -/
def IsName (name : String) : Prop :=
  name ≠ "" ∧ ∀ c ∈ name.toList, Symbols.isNameChar c = true

/-- The expression is written by the rules: numerals have digits and paths have names, only a plus
or a minus stands in front, white space stands around all other signs, and parentheses stand where a
sign would tear an operand apart. -/
def Proper : Symbolic → Prop
  | literal ds => IsInt ds
  | reference names => names ≠ [] ∧ ∀ name ∈ names, IsName name
  | group before e after => Blank.Gap before ∧ e.Proper ∧ Blank.Gap after
  | signed s gap e => (s = .plus ∨ s = .minus) ∧ Blank.Gap gap ∧ e.Proper ∧ 1 ≤ e.level
  | binary l before s after r =>
    (l.Proper ∧ s.level ≤ l.level) ∧ (Blank.Gap before ∧ before ≠ [])
      ∧ (Blank.Gap after ∧ after ≠ []) ∧ r.Proper ∧ s.level < r.level

/-- The text of the expression, with the given texts for its symbols. -/
def text (spell : List String → List Char) : Symbolic → List Char
  | literal ds => ds
  | reference names => spell names
  | group before e after => '(' :: (before ++ (e.text spell ++ after) ++ [')'])
  | signed s gap e => s.char :: (gap ++ e.text spell)
  | binary l before s after r => l.text spell ++ (before ++ s.char :: (after ++ r.text spell))

/-- The text of the expression as it is written. -/
def written (e : Symbolic) : List Char := e.text fun names => '@' :: (".".intercalate names).toList

/-- The text of the expression with the values of its symbols in their places. -/
def spliced (ρ : List String → Int) (e : Symbolic) : List Char :=
  e.text fun names => (Value.int (ρ names)).splice.toList

/-- The paths of all symbols. -/
def references : Symbolic → List (List String)
  | literal _ => []
  | reference names => [names]
  | group _ e _ | signed _ _ e => e.references
  | binary l _ _ _ r => l.references ++ r.references

variable (ρ : List String → Int)

/-- What the expression is worth if every symbol stands for an integer, quotients being rounded
towards zero. There is no value where something is divided by zero. -/
def value : Symbolic → Option Int
  | literal ds => some (digitsValue ds)
  | reference names => some (ρ names)
  | group _ e _ => e.value
  | signed s _ e => e.value.map fun a => if s = .minus then -a else a
  | binary l _ s _ r => l.value.bind fun a => r.value.bind fun b => s.operation.trunc? a b

/-- Every division whose operands have values, the right one not zero, leaves nothing over. -/
def Exact : Symbolic → Prop
  | literal _ | reference _ => True
  | group _ e _ | signed _ _ e => e.Exact
  | binary l _ s _ r => l.Exact ∧ r.Exact ∧
      (s = .divide → ∀ a ∈ l.value ρ, ∀ b ∈ r.value ρ, b ≠ 0 → b ∣ a)

instance : DecidablePred IsName := fun name =>
  decidable_of_iff (name ≠ "" ∧ name.toList.all Symbols.isNameChar = true) (by simp [IsName])

instance decidableProper : (e : Symbolic) → Decidable e.Proper
  | literal ds =>
    decidable_of_iff (ds ≠ [] ∧ ds.all Char.isDigit = true) (and_congr_right' List.all_eq_true)
  | reference _ => inferInstanceAs (Decidable (_ ∧ _))
  | group _ e _ =>
    have := decidableProper e
    inferInstanceAs (Decidable (_ ∧ _ ∧ _))
  | signed _ _ e =>
    have := decidableProper e
    inferInstanceAs (Decidable (_ ∧ _ ∧ _ ∧ _))
  | binary l _ _ _ r =>
    have := decidableProper l
    have := decidableProper r
    inferInstanceAs (Decidable ((_ ∧ _) ∧ (_ ∧ _) ∧ (_ ∧ _) ∧ _ ∧ _))

instance decidableExact : (e : Symbolic) → Decidable (e.Exact ρ)
  | literal _ | reference _ => inferInstanceAs (Decidable True)
  | group _ e _ | signed _ _ e => decidableExact e
  | binary l _ _ _ r =>
    have := decidableExact l
    have := decidableExact r
    inferInstanceAs (Decidable (_ ∧ _ ∧ (_ → _)))

end Symbolic

/-! ## Values in a formula -/

/-- An integer is spliced as it is written, in parentheses if it is negative. -/
theorem Value.splice_int (n : Int) :
    (Value.int n).splice.toList = if n < 0 then '(' :: (intText n ++ [')']) else intText n := by
  have negative : (Number.int n).isNegative = decide (n < 0) := Number.lt_int n 0
  have text : (Number.int n).formulaText.toList = intText n := rfl
  rw [Value.int, Value.splice, negative]
  by_cases h : n < 0 <;> simp [h, text]

theorem Value.splice_ofNat (n : Nat) :
    (Value.int (.ofNat n)).splice.toList = Nat.toDigits 10 n := by
  have positive : ¬Int.ofNat n < 0 := Int.not_lt.2 (Int.natCast_nonneg n)
  rw [Value.splice_int, if_neg positive, intText_eq]

theorem Value.splice_negSucc (n : Nat) : (Value.int (.negSucc n)).splice.toList
    = '(' :: (Sign.minus.char :: Nat.toDigits 10 (n + 1) ++ [')']) := by
  rw [Value.splice_int, if_pos (Int.negSucc_lt_zero n), intText_eq]
  rfl

namespace Symbolic

variable {config : Config} {e l r : Symbolic} (ρ : List String → Int)

/-! ## Reading -/

open Formula (Listed Admissible)

/-- The value of a symbol is a single operand, whatever its sign. -/
theorem listed_splice (config : Config) (n : Int) :
    ∃ t : Term, t.isOperator = false ∧ Listed config (Value.int n).splice.toList [t] := by
  cases n with
  | ofNat n =>
    rw [Value.splice_ofNat]
    exact ⟨_, rfl, .digits (isInt_toDigits n)⟩
  | negSucc n =>
    have digits := @Listed.digits config _ (isInt_toDigits (n + 1))
    obtain ⟨t, value, group⟩ := (digits.signed .minus).group (.signed (.inr rfl) (.value rfl))
      Blank.gap_nil Blank.gap_nil
    refine ⟨t, value, ?_⟩
    rw [Value.splice_negSucc]
    simpa using group

/-- Before validation the values and operators of an expression alternate, with a sign in front if
nothing stands before it that binds. -/
theorem exists_listed (proper : e.Proper) :
    ∃ us, Listed config (e.spliced ρ) us ∧ Admissible config us
      ∧ (1 ≤ e.level → Alternates us) := by
  have operand {cs : List Char} (h : ∃ t : Term, t.isOperator = false ∧ Listed config cs [t]) :
      ∃ us, Listed config cs us ∧ Admissible config us ∧ (1 ≤ 2 → Alternates us) := by
    obtain ⟨t, value, listed⟩ := h
    exact ⟨[t], listed, .plain (.value value), fun _ => .value value⟩
  -- What binds is never behind a sign in front, so that it may stand on either side of an operator.
  induction e with
  | literal ds => exact operand ⟨_, rfl, .digits proper⟩
  | reference names => exact operand (listed_splice config (ρ names))
  | group before e after ih =>
    obtain ⟨hb, he, ha⟩ := proper
    obtain ⟨us, listed, admissible, -⟩ := ih he
    exact operand (listed.group admissible hb ha)
  | signed s gap e ih =>
    obtain ⟨hs, hg, he, tight⟩ := proper
    obtain ⟨us, listed, -, alternates⟩ := ih he
    have behind := listed.padded hg Blank.gap_nil
    rw [List.append_nil] at behind
    refine ⟨_, behind.signed s, .signed hs (alternates tight), ?_⟩
    exact fun binds => absurd binds (Nat.not_succ_le_zero 0)
  | binary l before s after r ihl ihr =>
    obtain ⟨⟨hl, tight⟩, ⟨hb, some⟩, ⟨ha, some'⟩, hr, tighter⟩ := proper
    obtain ⟨us, listed, admissible, alternates⟩ := ihl hl
    obtain ⟨vs, listed', -, alternates'⟩ := ihr hr
    have right : Alternates vs := alternates' (Nat.lt_of_le_of_lt (Nat.zero_le _) tighter)
    refine ⟨_, listed.join listed' s hb ha some some', admissible.join s right, ?_⟩
    intro product
    exact (alternates (Nat.le_trans product tight)).append rfl right

/-- **An expression can be read with the values of its symbols in their places.** -/
theorem exists_reads (proper : e.Proper) :
    ∃ ts, Formula.Reads config (String.ofList (e.spliced ρ)) ts := by
  obtain ⟨us, listed, admissible, -⟩ := @exists_listed config _ ρ proper
  obtain ⟨ts, valid⟩ := admissible.valid
  exact ⟨ts, listed.reads valid⟩

end Symbolic

/-! ## Derivations -/

namespace Arithmetic

/-- A product with a sign in front of its first factor. -/
def ProductTree.signed (s : Sign) : ProductTree → ProductTree
  | .unary u => .unary (if s = .minus then .negative u else .positive u)
  | .join p op u => .join (p.signed s) op u

theorem ProductTree.tokens_signed {s : Sign} (hs : s = .plus ∨ s = .minus) (p : ProductTree) :
    (p.signed s).tokens = .sign s :: p.tokens := by
  cases p with
  | unary u => rcases hs with rfl | rfl <;> rfl
  | join p op u =>
    rw [ProductTree.signed, ProductTree.tokens, tokens_signed hs p]
    rfl

theorem ProductTree.opposite_negated (p : ProductTree) :
    Opposite p.expr (p.signed .minus).expr := by
  cases p with
  | unary u =>
    refine ⟨?_, id⟩
    show u.expr.trunc? = (u.expr.trunc?.map fun a => -a).map fun a => -a
    cases u.expr.trunc? <;> simp
  | join p op u =>
    have factor : op.operation ≠ .add ∧ op.operation ≠ .sub := by cases op <;> decide
    exact (opposite_negated p).binary factor ⟨rfl, id⟩

theorem ProductTree.expr_signed_plus (p : ProductTree) : (p.signed .plus).expr = p.expr := by
  cases p with
  | unary u => rfl
  | join p op u =>
    rw [ProductTree.signed, ProductTree.expr, expr_signed_plus p]
    rfl

theorem lex_padded {before after : List Char} (hb : Blank.Gap before) (ha : Blank.Gap after)
    (cs : List Char) : lex (before ++ (cs ++ after)) = lex cs := by
  rw [← lex_normalize, Blank.normalize_padded hb ha, lex_normalize]

end Arithmetic

namespace Symbolic

variable {ρ : List String → Int} {e l r : Symbolic}

/-- The tokens are those of the expression with its values, and so is what they are worth. -/
structure Derives (ρ : List String → Int) (e : Symbolic) (ts : List Token) (x : Expr) : Prop where
  tokens : ts = lex (e.spliced ρ)
  value : x.trunc? = e.value ρ
  divides : e.Exact ρ → x.Divides

/-- Derivations of an expression from the rules of the grammar that are not too loose for it. -/
structure Derived (ρ : List String → Int) (e : Symbolic) : Prop where
  sum : ∃ d : SumTree, Derives ρ e d.tokens d.expr
  product : 1 ≤ e.level → ∃ d : ProductTree, Derives ρ e d.tokens d.expr
  atom : 2 ≤ e.level → ∃ d : AtomTree, Derives ρ e d.tokens d.expr

theorem Derived.of_sum (d : SumTree) (h : Derives ρ e d.tokens d.expr) (loose : e.level = 0) :
    Derived ρ e where
  sum := ⟨d, h⟩
  product := fun tight => absurd tight (by omega)
  atom := fun tight => absurd tight (by omega)

theorem Derived.of_product (d : ProductTree) (h : Derives ρ e d.tokens d.expr)
    (loose : ¬2 ≤ e.level) : Derived ρ e where
  sum := ⟨.product d, h⟩
  product := fun _ => ⟨d, h⟩
  atom := fun tight => absurd tight loose

theorem Derived.of_atom (d : AtomTree) (h : Derives ρ e d.tokens d.expr) : Derived ρ e where
  sum := ⟨.product (.unary (.atom d)), h⟩
  product := fun _ => ⟨.unary (.atom d), h⟩
  atom := fun _ => ⟨d, h⟩

/-- An integer as a single operand. -/
def atomOf : Int → AtomTree
  | .ofNat n => .number (Nat.toDigits 10 n)
  | .negSucc n => .group (.product (.unary (intTree (.negSucc n))))

theorem derived_reference (names : List String) : Derived ρ (.reference names) := by
  refine .of_atom (atomOf (ρ names)) ⟨?_, ?_, fun _ => ?_⟩
  · show (atomOf (ρ names)).tokens = lex (Value.int (ρ names)).splice.toList
    cases ρ names with
    | ofNat n => rw [Value.splice_ofNat, lex_digits (isInt_toDigits n)]; rfl
    | negSucc n =>
      have opening : Token.ofChar? '(' = some .openParen := rfl
      have closing : Token.ofChar? ')' = some .closeParen := rfl
      have minus := FormulaToken.ofChar?_of_sign (Sign.ofChar?_char .minus)
      rw [Value.splice_negSucc, lex_cons _ opening, lex_between _ _ closing, lex_cons _ minus,
        lex_digits (isInt_toDigits (n + 1))]
      rfl
  · show (atomOf (ρ names)).expr.trunc? = some (ρ names)
    cases ρ names with
    | ofNat n => exact trunc?_natTree n
    | negSucc n => exact trunc?_intTree (.negSucc n)
  · cases ρ names <;> exact trivial

theorem derived_signed {s : Sign} (hs : s = .plus ∨ s = .minus) {gap : List Char}
    (hg : Blank.Gap gap) (d : ProductTree) (h : Derives ρ e d.tokens d.expr) :
    Derived ρ (.signed s gap e) := by
  have sign := FormulaToken.ofChar?_of_sign (Sign.ofChar?_char s)
  have tokens : (d.signed s).tokens = lex ((Symbolic.signed s gap e).spliced ρ) := by
    have behind := lex_padded hg Blank.gap_nil (e.spliced ρ)
    rw [List.append_nil] at behind
    have text : (Symbolic.signed s gap e).spliced ρ = s.char :: (gap ++ e.spliced ρ) := rfl
    rw [ProductTree.tokens_signed hs, h.tokens, text, lex_cons _ sign, behind]
  suffices Derives ρ (.signed s gap e) (d.signed s).tokens (d.signed s).expr by
    exact .of_sum (.product (d.signed s)) this rfl
  rcases hs with rfl | rfl
  · refine ⟨tokens, ?_, ?_⟩
    · rw [ProductTree.expr_signed_plus, h.value, value]
      cases e.value ρ <;> rfl
    · rw [ProductTree.expr_signed_plus]
      exact h.divides
  · have opposite := d.opposite_negated
    refine ⟨tokens, ?_, fun exact => opposite.divides (h.divides exact)⟩
    rw [value, ← h.value, opposite.value]
    cases (d.signed .minus).expr.trunc? <;> simp

theorem lex_binary {s : Sign} {before after : List Char} (hb : Blank.Gap before)
    (ha : Blank.Gap after) : lex ((binary l before s after r).spliced ρ)
      = lex (l.spliced ρ) ++ .sign s :: lex (r.spliced ρ) := by
  have sign := FormulaToken.ofChar?_of_sign (Sign.ofChar?_char s)
  have front := lex_padded Blank.gap_nil hb (l.spliced ρ)
  have behind := lex_padded ha Blank.gap_nil (r.spliced ρ)
  rw [List.append_nil] at behind
  have text : (binary l before s after r).spliced ρ
      = l.spliced ρ ++ before ++ s.char :: (after ++ r.spliced ρ) := (List.append_assoc _ _ _).symm
  rw [text, lex_between _ _ sign, behind]
  exact congrArg (· ++ _) front

/-- A sum takes its left operand as it is. -/
theorem derived_sum (op : SumOperation) {before after : List Char} (hb : Blank.Gap before)
    (ha : Blank.Gap after) (left : Derived ρ l) (right : Derived ρ r) (tight : 1 ≤ r.level) :
    Derived ρ (.binary l before op.sign after r) := by
  obtain ⟨d, h⟩ := left.sum
  obtain ⟨d', h'⟩ := right.product tight
  refine .of_sum (.join d op d') ⟨?_, ?_, ?_⟩ ?_
  · rw [SumTree.tokens, h.tokens, h'.tokens, lex_binary hb ha]
  · rw [SumTree.expr, Expr.trunc?, h.value, h'.value, value]
    cases op <;> rfl
  · rintro ⟨hl, hr, -⟩
    have plain : op.operation ≠ .div := by cases op <;> decide
    exact ⟨h.divides hl, h'.divides hr, fun division => absurd division plain⟩
  · cases op <;> rfl

/-- A product needs a left operand that holds together. -/
theorem derived_product (op : ProductOperation) {before after : List Char} (hb : Blank.Gap before)
    (ha : Blank.Gap after) (left : Derived ρ l) (right : Derived ρ r) (tight : 1 ≤ l.level)
    (tight' : 2 ≤ r.level) : Derived ρ (.binary l before op.sign after r) := by
  obtain ⟨d, h⟩ := left.product tight
  obtain ⟨d', h'⟩ := right.atom tight'
  refine .of_product (.join d op (.atom d')) ⟨?_, ?_, ?_⟩ ?_
  · rw [ProductTree.tokens, h.tokens, lex_binary hb ha, ← h'.tokens]
    rfl
  · rw [ProductTree.expr, Expr.trunc?, h.value, value, ← h'.value]
    cases op <;> rfl
  · rintro ⟨hl, hr, exact⟩
    refine ⟨h.divides hl, h'.divides hr, ?_⟩
    intro division a b ha hb
    rw [h.value] at ha
    rw [← h'.value] at exact
    exact exact (by cases op <;> first | rfl | cases division) a ha b hb
  · have level : (binary l before op.sign after r).level = 1 := by cases op <;> rfl
    rw [level]
    decide

/-- Every rule of the grammar that the expression is tight enough for derives it. -/
theorem derived (proper : e.Proper) : Derived ρ e := by
  induction e with
  | literal ds => exact .of_atom (.number ds) ⟨(lex_digits proper).symm, rfl, fun _ => trivial⟩
  | reference names => exact derived_reference names
  | group before e after ih =>
    obtain ⟨hb, he, ha⟩ := proper
    obtain ⟨d, h⟩ := (ih he).sum
    have opening : Token.ofChar? '(' = some .openParen := rfl
    have closing : Token.ofChar? ')' = some .closeParen := rfl
    have text : (group before e after).spliced ρ
        = '(' :: (before ++ (e.spliced ρ ++ after) ++ [')']) := rfl
    refine .of_atom (.group d) ⟨?_, h.value, h.divides⟩
    rw [AtomTree.tokens, h.tokens, text, lex_cons _ opening, lex_between _ _ closing,
      lex_padded hb ha]
    rfl
  | signed s gap e ih =>
    obtain ⟨hs, hg, he, tight⟩ := proper
    obtain ⟨d, h⟩ := (ih he).product tight
    exact derived_signed hs hg d h
  | binary l before s after r ihl ihr =>
    obtain ⟨⟨hl, tight⟩, ⟨hb, -⟩, ⟨ha, -⟩, hr, tighter⟩ := proper
    have left := ihl hl
    have right := ihr hr
    have whole : 1 ≤ r.level := Nat.lt_of_le_of_lt (Nat.zero_le _) tighter
    cases s with
    | plus => exact derived_sum .add hb ha left right whole
    | minus => exact derived_sum .sub hb ha left right whole
    | times => exact derived_product .mul hb ha left right tight tighter
    | divide => exact derived_product .div hb ha left right tight tighter
    | modulo => exact derived_product .mod hb ha left right tight tighter

/-! ## Plain texts -/

/-- A text of plain characters and white space is plain when it is normalized. -/
theorem isPlain_normalize {cs : List Char}
    (h : ∀ c ∈ cs, IsPlainChar c ∨ Blank.isBlank c = true) : IsPlain (Blank.normalize cs) := by
  intro c hc
  by_cases blank : Blank.isBlank c = true
  · rw [(Blank.solid_normalize cs).squeezed.eq_space hc blank]
    decide
  · rcases Blank.mem_of_mem_squeezeFrom (Blank.mem_of_mem_trim hc) with hc | rfl
    · exact (h c hc).resolve_right blank
    · decide

theorem isPlain_splice (n : Int) : IsPlain (Value.int n).splice.toList := by
  rw [Value.splice_int]
  split
  · refine List.forall_mem_cons.2 ⟨by decide, List.forall_mem_append.2 ⟨isPlain_intText n, ?_⟩⟩
    exact List.forall_mem_singleton.2 (by decide)
  · exact isPlain_intText n

/-- White space apart, an expression with its values is a plain text. -/
theorem isPlain_spliced (proper : e.Proper) :
    ∀ c ∈ e.spliced ρ, IsPlainChar c ∨ Blank.isBlank c = true := by
  have gap {cs : List Char} (h : Blank.Gap cs) :
      ∀ c ∈ cs, IsPlainChar c ∨ Blank.isBlank c = true := fun c hc => .inr (h c hc)
  have sign (s : Sign) : IsPlainChar s.char ∨ Blank.isBlank s.char = true := by
    cases s <;> exact .inl (by decide)
  induction e with
  | literal ds => exact fun c hc => .inl (.inl (proper.2 c hc))
  | reference names => exact fun c hc => .inl (isPlain_splice (ρ names) c hc)
  | group before e after ih =>
    obtain ⟨hb, he, ha⟩ := proper
    refine List.forall_mem_cons.2 ⟨.inl (by decide), List.forall_mem_append.2 ⟨?_, ?_⟩⟩
    · exact List.forall_mem_append.2 ⟨gap hb, List.forall_mem_append.2 ⟨ih he, gap ha⟩⟩
    · exact List.forall_mem_singleton.2 (.inl (by decide))
  | signed s g e ih =>
    obtain ⟨-, hg, he, -⟩ := proper
    exact List.forall_mem_cons.2 ⟨sign s, List.forall_mem_append.2 ⟨gap hg, ih he⟩⟩
  | binary l before s after r ihl ihr =>
    obtain ⟨⟨hl, -⟩, ⟨hb, -⟩, ⟨ha, -⟩, hr, -⟩ := proper
    refine List.forall_mem_append.2 ⟨ihl hl, List.forall_mem_append.2 ⟨gap hb, ?_⟩⟩
    exact List.forall_mem_cons.2 ⟨sign s, List.forall_mem_append.2 ⟨gap ha, ihr hr⟩⟩

end Symbolic

end DiceFormula
