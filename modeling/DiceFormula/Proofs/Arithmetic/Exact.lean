import DiceFormula.Proofs.Arithmetic.Derivation

/-!
# Exact arithmetic

An expression of integers is exact if every division in it whose operands have values, with a
divisor that is not zero, leaves nothing over. Its value is then the one that truncating arithmetic
gives (`Expr.evaluates`), and the only failure is a division by zero.

Truncation is what makes a sign in front of a product harmless: quotient and remainder follow the
sign of the dividend, so that it does not matter whether the first factor or the whole product is
negated. `SumTree.Alike` is the relation that this gives between a sum with a sign in front and the
same sum taken from zero; it is kept as operands are added (`SumTree.Alike.push`).
-/

namespace DiceFormula.Arithmetic

namespace Expr

/-- Every division whose operands have values, the right one not zero, leaves nothing over. -/
def Exact : Expr → Prop
  | .number _ => True
  | .negate e => e.Exact
  | .binary op l r => l.Exact ∧ r.Exact ∧
      (op = .div → ∀ a b : Int, l.eval = .ok (.int a) → r.eval = .ok (.int b) → b ≠ 0 → b ∣ a)

/-- All numerals are integers. -/
def IsWhole : Expr → Prop
  | .number n => IsDigits n
  | .negate e => e.IsWhole
  | .binary _ l r => l.IsWhole ∧ r.IsWhole

end Expr

/-! ## Truncating arithmetic -/

/-- The operation on integers with quotients rounded towards zero; there is none by zero. -/
def Operation.trunc? : Operation → Int → Int → Option Int
  | .add, a, b => some (a + b)
  | .sub, a, b => some (a - b)
  | .mul, a, b => some (a * b)
  | .div, a, b => if b = 0 then none else some (a.tdiv b)
  | .rem, a, b => if b = 0 then none else some (a.tmod b)

/-- The value of an expression in truncating arithmetic. -/
def Expr.trunc? : Expr → Option Int
  | .number n => some (digitsValue n)
  | .negate e => e.trunc?.map fun a => -a
  | .binary op l r => l.trunc?.bind fun a => r.trunc?.bind fun b => op.trunc? a b

/-- Every division leaves nothing over, in truncating arithmetic. -/
def Expr.Divides : Expr → Prop
  | .number _ => True
  | .negate e => e.Divides
  | .binary op l r => l.Divides ∧ r.Divides ∧
      (op = .div → ∀ a b : Int, l.trunc? = some a → r.trunc? = some b → b ≠ 0 → b ∣ a)

/-- An outcome is the given integer, or a division by zero if there is none. -/
def Yields (x : Except Error Number) : Option Int → Prop
  | some n => x = .ok (.int n)
  | none => ∃ a op b, x = .error (.divideByZero a op b)

theorem Operation.yields_apply {op : Operation} {a b : Int} (h : op = .div → b ≠ 0 → b ∣ a) :
    Yields (op.apply (.int a) (.int b)) (op.trunc? a b) := by
  have zero : (Number.int b).isZero = decide (b = 0) := Number.eq_int b 0
  cases op with
  | add | sub | mul => rfl
  | div =>
    simp only [Operation.apply, Operation.trunc?, zero, decide_eq_true_eq]
    by_cases hb : b = 0
    · rw [if_pos hb, if_pos hb]
      exact ⟨_, _, _, rfl⟩
    · have hdvd := h rfl hb
      have hmod : a % b = 0 := Int.emod_eq_zero_of_dvd hdvd
      simp [Yields, Number.div, hb, hmod, ofNumeric, Int.tdiv_eq_ediv_of_dvd hdvd]
  | rem =>
    simp only [Operation.apply, Operation.trunc?, zero, decide_eq_true_eq]
    by_cases hb : b = 0
    · rw [if_pos hb, if_pos hb]
      exact ⟨_, _, _, rfl⟩
    · rw [if_neg hb, if_neg hb]
      rfl

namespace Expr

/-- Where all divisions are exact, evaluation is truncating arithmetic. -/
theorem yields_eval {e : Expr} (whole : e.IsWhole) (h : e.Divides) : Yields e.eval e.trunc? := by
  induction e with
  | number n =>
    have : n.all Char.isDigit = true := List.all_eq_true.2 whole
    simp [Expr.eval, Expr.trunc?, Yields, Token.numeralValue, this]
  | negate e ih =>
    have he := ih whole h
    simp only [Expr.eval, Expr.trunc?]
    cases hv : e.trunc? with
    | none =>
      rw [hv] at he
      obtain ⟨a, op, b, he⟩ := he
      exact ⟨a, op, b, by rw [he]; rfl⟩
    | some n =>
      rw [hv] at he
      obtain he : e.eval = .ok (.int n) := he
      rw [he]
      rfl
  | binary op l r ihl ihr =>
    have hl := ihl whole.1 h.1
    have hr := ihr whole.2 h.2.1
    simp only [Expr.eval, Expr.trunc?]
    cases hlv : l.trunc? with
    | none =>
      rw [hlv] at hl
      obtain ⟨a, o, b, hl⟩ := hl
      exact ⟨a, o, b, by rw [hl]; rfl⟩
    | some a =>
      rw [hlv] at hl
      obtain hl : l.eval = .ok (.int a) := hl
      cases hrv : r.trunc? with
      | none =>
        rw [hrv] at hr
        obtain ⟨a', o, b, hr⟩ := hr
        exact ⟨a', o, b, by rw [hl, hr]; rfl⟩
      | some b =>
        rw [hrv] at hr
        obtain hr : r.eval = .ok (.int b) := hr
        rw [hl, hr]
        exact Operation.yields_apply fun hop hb => h.2.2 hop a b hlv hrv hb

/-- Exact divisions are exact in truncating arithmetic too. -/
theorem divides_of_exact {e : Expr} (whole : e.IsWhole) (h : e.Exact) : e.Divides := by
  induction e with
  | number _ => trivial
  | negate e ih => exact ih whole h
  | binary op l r ihl ihr =>
    obtain ⟨hl, hr, hdiv⟩ := h
    have hl := ihl whole.1 hl
    have hr := ihr whole.2 hr
    refine ⟨hl, hr, ?_⟩
    intro hop a b ha hb
    have la := yields_eval whole.1 hl
    have rb := yields_eval whole.2 hr
    rw [ha] at la
    rw [hb] at rb
    exact hdiv hop a b la rb

end Expr

/-! ## Operands one after the other -/

/-- Puts a further operand at the end of a sum: as a factor of the last product, or as a product of
its own. -/
def SumTree.push (s : SumTree) (sign : Sign) (u : UnaryTree) : SumTree :=
  let factor (op : ProductOperation) : SumTree :=
    match s with
    | .product p => .product (p.join op u)
    | .join s o p => s.join o (p.join op u)
  match sign with
  | .plus => s.join .add (.unary u)
  | .minus => s.join .sub (.unary u)
  | .times => factor .mul
  | .divide => factor .div
  | .modulo => factor .mod

/-- The sum of operands with signs between them. -/
def SumTree.build (u : UnaryTree) (l : List (Sign × UnaryTree)) : SumTree :=
  l.foldl (fun s x => s.push x.1 x.2) (.product (.unary u))

theorem SumTree.tokens_push (s : SumTree) (sign : Sign) (u : UnaryTree) :
    (s.push sign u).tokens = s.tokens ++ .sign sign :: u.tokens := by
  cases sign <;> cases s <;>
    simp [push, SumTree.tokens, ProductTree.tokens, SumOperation.sign, ProductOperation.sign]

theorem SumTree.tokens_build (u : UnaryTree) (l : List (Sign × UnaryTree)) :
    (build u l).tokens = u.tokens ++ l.flatMap fun x => .sign x.1 :: x.2.tokens := by
  suffices ∀ s : SumTree, (l.foldl (fun s x => s.push x.1 x.2) s).tokens
      = s.tokens ++ l.flatMap fun x => .sign x.1 :: x.2.tokens from this _
  induction l with
  | nil => simp
  | cons x l ih =>
    intro s
    rw [List.foldl_cons, ih, SumTree.tokens_push]
    simp

/-! ## A sign in front -/

/-- The expressions have the same value, and `e'` divides exactly if `e` does. -/
structure Same (e e' : Expr) : Prop where
  value : e.trunc? = e'.trunc?
  divides : e.Divides → e'.Divides

/-- The value of `e` is that of `e'` negated, and `e'` divides exactly if `e` does. -/
structure Opposite (e e' : Expr) : Prop where
  value : e.trunc? = e'.trunc?.map fun a => -a
  divides : e.Divides → e'.Divides

section
variable {op : Operation} {l l' r r' : Expr}

theorem Same.binary (hl : Same l l') (hr : Same r r') :
    Same (.binary op l r) (.binary op l' r') where
  value := by simp only [Expr.trunc?, hl.value, hr.value]
  divides := by
    rintro ⟨h, h', hdiv⟩
    rw [hl.value, hr.value] at hdiv
    exact ⟨hl.divides h, hr.divides h', hdiv⟩

/-- Factors after an operand that is negated leave the product negated. -/
theorem Opposite.binary (hop : op ≠ .add ∧ op ≠ .sub) (hl : Opposite l l') (hr : Same r r') :
    Opposite (.binary op l r) (.binary op l' r') where
  value := by
    simp only [Expr.trunc?, hl.value, hr.value]
    cases l'.trunc? with
    | none => rfl
    | some a =>
      cases r'.trunc? with
      | none => rfl
      | some b =>
        cases op with
        | add | sub => simp at hop
        | mul => exact congrArg some (Int.neg_mul a b)
        | div =>
          simp only [Operation.trunc?, Option.map_some, Option.bind_some]
          by_cases hb : b = 0 <;> simp [hb, Int.neg_tdiv]
        | rem =>
          simp only [Operation.trunc?, Option.map_some, Option.bind_some]
          by_cases hb : b = 0 <;> simp [hb, Int.neg_tmod]
  divides := by
    rintro ⟨h, h', hdiv⟩
    refine ⟨hl.divides h, hr.divides h', ?_⟩
    intro ho a b ha hb hb0
    have : b ∣ -a := hdiv ho (-a) b (by simp [hl.value, ha]) (by rw [hr.value, hb]) hb0
    exact Int.dvd_neg.1 this

end

namespace SumTree

/-- A sum and what a formula makes of it: operand by operand the same, or with the sign of the first
operand turned into an operation on a zero in front. -/
inductive Alike : SumTree → SumTree → Prop
  | product {p p' : ProductTree} : Same p.expr p'.expr → Alike (.product p) (.product p')
  | join {s s' : SumTree} {op : SumOperation} {p p' : ProductTree} : Same s.expr s'.expr →
      Same p.expr p'.expr → Alike (.join s op p) (.join s' op p')
  | positive {p p' : ProductTree} {zero : SumTree} : zero.expr.trunc? = some 0 →
      zero.expr.Divides → Same p.expr p'.expr → Alike (.product p) (.join zero .add p')
  | negative {p p' : ProductTree} {zero : SumTree} : zero.expr.trunc? = some 0 →
      zero.expr.Divides → Opposite p.expr p'.expr → Alike (.product p) (.join zero .sub p')

theorem Alike.same {s s' : SumTree} (h : Alike s s') : Same s.expr s'.expr := by
  cases h with
  | product h => exact h
  | join hs hp => exact hs.binary hp
  | @positive p p' zero h0 hz h | @negative p p' zero h0 hz h =>
    constructor
    · rw [SumTree.expr, h.value, SumTree.expr, Expr.trunc?, h0]
      cases p'.expr.trunc? <;> simp [SumOperation.operation, Operation.trunc?]
    · intro hp
      exact ⟨hz, h.divides hp, nofun⟩

/-- Further operands with the same values keep sums alike. -/
theorem Alike.push {s s' : SumTree} {u u' : UnaryTree} (h : Alike s s') (sign : Sign)
    (hu : Same u.expr u'.expr) : Alike (s.push sign u) (s'.push sign u') := by
  have factor (op : ProductOperation) : op.operation ≠ .add ∧ op.operation ≠ .sub := by
    cases op <;> decide
  cases sign with
  | plus | minus => exact .join h.same hu
  | times | divide | modulo =>
    cases h with
    | product h => exact .product (h.binary hu)
    | join hs hp => exact .join hs (hp.binary hu)
    | positive h0 hz h => exact .positive h0 hz (h.binary hu)
    | negative h0 hz h => exact .negative h0 hz (h.binary (factor _) hu)

/-- Operands whose values are the same, one after the other, keep sums alike. -/
theorem Alike.foldl_push {α : Type} (t t' : α → UnaryTree) {l : List (Sign × α)}
    (hl : ∀ x ∈ l, Same (t x.2).expr (t' x.2).expr) {s s' : SumTree} (h : Alike s s') :
    Alike (l.foldl (fun s x => s.push x.1 (t x.2)) s)
      (l.foldl (fun s x => s.push x.1 (t' x.2)) s') := by
  induction l generalizing s s' with
  | nil => exact h
  | cons x l ih =>
    exact ih (fun y hy => hl y (List.mem_cons_of_mem x hy)) (h.push x.1 (hl x List.mem_cons_self))

/-! ## Values that are missing -/

theorem trunc?_binary_eq_none {op : Operation} {l r : Expr}
    (h : l.trunc? = none ∨ r.trunc? = none) : (Expr.binary op l r).trunc? = none := by
  rw [Expr.trunc?]
  rcases h with h | h
  · rw [h]
    rfl
  · rw [h]
    cases l.trunc? <;> rfl

/-- Sums and differences of integers exist. -/
theorem trunc?_of_sumOperation {op : SumOperation} {l r : Expr}
    (h : (Expr.binary op.operation l r).trunc? = none) : l.trunc? = none ∨ r.trunc? = none := by
  rw [Expr.trunc?] at h
  cases hl : l.trunc? with
  | none => exact .inl rfl
  | some a =>
    cases hr : r.trunc? with
    | none => exact .inr rfl
    | some b =>
      rw [hl, hr] at h
      cases op <;> cases h

theorem trunc?_push_eq_none {s : SumTree} {u : UnaryTree} (sign : Sign)
    (h : s.expr.trunc? = none ∨ u.expr.trunc? = none) : (s.push sign u).expr.trunc? = none := by
  have factor (op : ProductOperation) : (match s with
      | .product p => SumTree.product (p.join op u)
      | .join s o p => s.join o (p.join op u)).expr.trunc? = none := by
    cases s with
    | product p => exact trunc?_binary_eq_none h
    | join s o p =>
      rcases h with h | h
      · rcases trunc?_of_sumOperation h with hs | hp
        · exact trunc?_binary_eq_none (.inl hs)
        · exact trunc?_binary_eq_none (.inr (trunc?_binary_eq_none (.inl hp)))
      · exact trunc?_binary_eq_none (.inr (trunc?_binary_eq_none (.inr h)))
  cases sign with
  | plus | minus => exact trunc?_binary_eq_none h
  | times | divide | modulo => exact factor _

/-- A sum has no value if one of its operands has none. -/
theorem trunc?_build_eq_none {u : UnaryTree} {l : List (Sign × UnaryTree)}
    (h : u.expr.trunc? = none ∨ ∃ x ∈ l, x.2.expr.trunc? = none) :
    (build u l).expr.trunc? = none := by
  suffices ∀ s : SumTree, (s.expr.trunc? = none ∨ ∃ x ∈ l, x.2.expr.trunc? = none) →
      (l.foldl (fun s x => s.push x.1 x.2) s).expr.trunc? = none from this _ h
  clear h
  induction l with
  | nil =>
    intro s h
    simpa using h
  | cons x l ih =>
    intro s h
    refine ih _ ?_
    rcases h with h | ⟨y, hy, h⟩
    · exact .inl (trunc?_push_eq_none x.1 (.inl h))
    · rcases List.mem_cons.1 hy with rfl | hy
      · exact .inl (trunc?_push_eq_none y.1 (.inr h))
      · exact .inr ⟨y, hy, h⟩

/-! ## Divisions in operands -/

theorem divides_of_push {s : SumTree} {sign : Sign} {u : UnaryTree}
    (h : (s.push sign u).expr.Divides) : s.expr.Divides ∧ u.expr.Divides := by
  cases sign with
  | plus | minus => exact ⟨h.1, h.2.1⟩
  | times | divide | modulo =>
    cases s with
    | product p => exact ⟨h.1, h.2.1⟩
    | join s o p =>
      obtain ⟨hs, ⟨hp, hu, -⟩, -⟩ := h
      refine ⟨⟨hs, hp, ?_⟩, hu⟩
      cases o <;> nofun

/-- The divisions of a sum are exact only if those in its operands are. -/
theorem divides_of_build {u : UnaryTree} {l : List (Sign × UnaryTree)}
    (h : (build u l).expr.Divides) : u.expr.Divides ∧ ∀ x ∈ l, x.2.expr.Divides := by
  suffices ∀ s : SumTree, (l.foldl (fun s x => s.push x.1 x.2) s).expr.Divides →
      s.expr.Divides ∧ ∀ x ∈ l, x.2.expr.Divides from this _ h
  clear h
  induction l with
  | nil =>
    intro s h
    exact ⟨h, nofun⟩
  | cons x l ih =>
    intro s h
    obtain ⟨hpush, hl⟩ := ih _ h
    obtain ⟨hs, hx⟩ := divides_of_push hpush
    exact ⟨hs, List.forall_mem_cons.2 ⟨hx, hl⟩⟩

end SumTree

end DiceFormula.Arithmetic
