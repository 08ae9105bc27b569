import DiceFormula.Proofs.Arithmetic.Flat
import DiceFormula.Proofs.Fallible

/-!
# Integers in order of precedence

What integers with signs between them are worth, said without trees: products are carried along and
are added to the sum so far when the next plus or minus comes (`exactly`). A zero divisor ends the
calculation, and so does a quotient that is no integer, each where it is met.

The flat text of the integers is read and evaluated to just that (`gives_flatText`). Every integer
stands for itself there, a negative one too.
-/

namespace DiceFormula.Arithmetic

/-- Why a calculation with integers has no integer as its result. -/
inductive Fault
  | zeroDivisor
  | inexact
  deriving DecidableEq, Repr

/-- Where a calculation stands: the sum of all products that are complete, and the last product with
the sign in front of it. -/
structure Partial where
  total : Int := 0
  negative : Bool := false
  product : Int
  deriving DecidableEq, Repr

namespace Partial

/-- The complete products and the last one together. -/
def value (x : Partial) : Int := if x.negative then x.total - x.product else x.total + x.product

/-- One more integer after a sign. -/
def push (x : Partial) (s : Sign) (b : Int) : Except Fault Partial :=
  match s with
  | .plus => .ok { total := x.value, product := b }
  | .minus => .ok { total := x.value, negative := true, product := b }
  | .times => .ok { x with product := x.product * b }
  | .divide =>
    if b = 0 then .error .zeroDivisor
    else if b ∣ x.product then .ok { x with product := x.product.tdiv b }
    else .error .inexact
  | .modulo =>
    if b = 0 then .error .zeroDivisor
    else .ok { x with product := x.product - b * x.product.tdiv b }

/-- Further integers after signs, in order. -/
def pushAll (x : Partial) (l : List (Sign × Int)) : Except Fault Partial :=
  l.foldlM (fun x y => x.push y.1 y.2) x

end Partial

/-- What a first integer and further ones after signs are worth. -/
def exactly (a : Int) (l : List (Sign × Int)) : Except Fault Int :=
  (Partial.pushAll { product := a } l).map Partial.value

/-- The outcome is a division by zero. -/
def IsByZero (x : Except Error Number) : Prop := ∃ a op b, x = .error (.divideByZero a op b)

/-- The outcome is what a calculation with integers comes to. One that comes to no integer, because
a quotient is inexact, says nothing. -/
def Gives (x : Except Error Number) : Except Fault Int → Prop
  | .ok n => x = .ok (.int n)
  | .error .zeroDivisor => IsByZero x
  | .error .inexact => True

/-! ## Trees -/

namespace SumTree

/-- The sum has been read as far as the calculation stands. -/
inductive Stands : SumTree → Partial → Prop
  | product {p : ProductTree} {n : Int} : p.expr.eval = .ok (.int n) →
      Stands (.product p) { product := n }
  | join {s : SumTree} {p : ProductTree} {op : SumOperation} {m n : Int} {negative : Bool} :
      s.expr.eval = .ok (.int m) → p.expr.eval = .ok (.int n) →
      op = (if negative then .sub else .add) → Stands (.join s op p) ⟨m, negative, n⟩

/-- The sum divides by zero, and so it does whatever is read after it. -/
inductive Fails : SumTree → Prop
  | product {p : ProductTree} : IsByZero p.expr.eval → Fails (.product p)
  | sum {s : SumTree} {op : SumOperation} {p : ProductTree} : IsByZero s.expr.eval →
      Fails (.join s op p)
  | join {s : SumTree} {op : SumOperation} {p : ProductTree} {m : Number} :
      s.expr.eval = .ok m → IsByZero p.expr.eval → Fails (.join s op p)

theorem Stands.eval {s : SumTree} {x : Partial} (h : s.Stands x) :
    s.expr.eval = .ok (.int x.value) := by
  cases h with
  | product hp => simpa [SumTree.expr, Partial.value] using hp
  | @join s p op m n negative hs hp hop =>
    rw [SumTree.expr, Expr.eval, hs, bind_ok, hp, bind_ok, hop]
    cases negative <;> rfl

theorem Fails.eval {s : SumTree} (h : s.Fails) : IsByZero s.expr.eval := by
  cases h with
  | product hp => exact hp
  | sum hs =>
    obtain ⟨a, op, b, hs⟩ := hs
    exact ⟨a, op, b, by rw [SumTree.expr, Expr.eval, hs, bind_error]⟩
  | join hs hp =>
    obtain ⟨a, op, b, hp⟩ := hp
    exact ⟨a, op, b, by rw [SumTree.expr, Expr.eval, hs, bind_ok, hp, bind_error]⟩

theorem eval_join_of_isByZero {p : ProductTree} {op : ProductOperation} {u : UnaryTree}
    (h : IsByZero p.expr.eval) : IsByZero (p.join op u).expr.eval := by
  obtain ⟨a, o, b, h⟩ := h
  exact ⟨a, o, b, by rw [ProductTree.expr, Expr.eval, h, bind_error]⟩

theorem Fails.push {s : SumTree} (h : s.Fails) (sign : Sign) (u : UnaryTree) :
    (s.push sign u).Fails := by
  cases sign with
  | plus | minus => exact .sum h.eval
  | times | divide | modulo =>
    cases h with
    | product hp => exact .product (eval_join_of_isByZero hp)
    | sum hs => exact .sum hs
    | join hs hp => exact .join hs (eval_join_of_isByZero hp)

/-! ## One more integer -/

/-- A factor joins the last product: `b` is the factor and `c` what the product comes to. -/
theorem Stands.factor {s : SumTree} {x : Partial} (h : s.Stands x) {sign : Sign}
    (op : ProductOperation) (hop : op.sign = sign) {u : UnaryTree} {b c : Int}
    (hu : u.expr.eval = .ok (.int b))
    (hc : op.operation.apply (.int x.product) (.int b) = .ok (.int c)) :
    (s.push sign u).Stands { x with product := c } := by
  have product {p : ProductTree} (hp : p.expr.eval = .ok (.int x.product)) :
      (p.join op u).expr.eval = .ok (.int c) := by
    rw [ProductTree.expr, Expr.eval, hp, bind_ok, hu, bind_ok, hc]
  subst hop
  cases h with
  | product hp => cases op <;> exact .product (product hp)
  | join hs hp hneg => cases op <;> exact .join hs (product hp) hneg

/-- A factor that is zero and divides makes the sum fail. -/
theorem Stands.fails {s : SumTree} {x : Partial} (h : s.Stands x) {sign : Sign}
    (op : ProductOperation) (hop : op.sign = sign) {u : UnaryTree} {b : Int}
    (hu : u.expr.eval = .ok (.int b))
    (hz : IsByZero (op.operation.apply (.int x.product) (.int b))) : (s.push sign u).Fails := by
  have product {p : ProductTree} (hp : p.expr.eval = .ok (.int x.product)) :
      IsByZero (p.join op u).expr.eval := by
    rw [ProductTree.expr, Expr.eval, hp, bind_ok, hu, bind_ok]
    exact hz
  subst hop
  cases h with
  | product hp => cases op <;> exact .product (product hp)
  | join hs hp _ => cases op <;> exact .join hs (product hp)

/-- What one more integer does to a sum is what it does to the calculation. -/
theorem Stands.push {s : SumTree} {x : Partial} (h : s.Stands x) (sign : Sign) {u : UnaryTree}
    {b : Int} (hu : u.expr.eval = .ok (.int b)) :
    match x.push sign b with
    | .ok y => (s.push sign u).Stands y
    | .error .zeroDivisor => (s.push sign u).Fails
    | .error .inexact => True := by
  have zero : (Number.int b).isZero = decide (b = 0) := Number.eq_int b 0
  cases sign with
  | plus => exact .join h.eval hu rfl
  | minus => exact .join h.eval hu rfl
  | times => exact h.factor .mul rfl hu rfl
  | divide =>
    simp only [Partial.push]
    by_cases hb : b = 0
    · rw [if_pos hb]
      exact h.fails .div rfl hu ⟨_, _, _, by rw [hb]; rfl⟩
    · rw [if_neg hb]
      by_cases hdvd : b ∣ x.product
      · rw [if_pos hdvd]
        refine h.factor .div rfl hu ?_
        have hmod : x.product % b = 0 := Int.emod_eq_zero_of_dvd hdvd
        simp [ProductOperation.operation, Operation.apply, zero, hb, Number.div, hmod, ofNumeric,
          Int.tdiv_eq_ediv_of_dvd hdvd]
      · rw [if_neg hdvd]
        trivial
  | modulo =>
    simp only [Partial.push]
    by_cases hb : b = 0
    · rw [if_pos hb]
      exact h.fails .mod rfl hu ⟨_, _, _, by rw [hb]; rfl⟩
    · rw [if_neg hb]
      refine h.factor .mod rfl hu ?_
      simp [ProductOperation.operation, Operation.apply, zero, hb, Number.rem, ofNumeric,
        Int.tmod_def]

/-! ## All integers -/

theorem eval_natTree (n : Nat) : (natTree n).expr.eval = .ok (.int n) := by
  have digits : (Nat.toDigits 10 n).all Char.isDigit = true :=
    List.all_eq_true.2 (isInt_toDigits n).2
  have value : digitsValue (Nat.toDigits 10 n) = n := Nat.ofDigitChars_ten_toDigits
  simp [natTree, UnaryTree.expr, AtomTree.expr, Expr.eval, Token.numeralValue, digits, value]

theorem eval_intTree (n : Int) : (intTree n).expr.eval = .ok (.int n) := by
  cases n with
  | ofNat n => exact eval_natTree n
  | negSucc n =>
    rw [intTree, UnaryTree.expr, Expr.eval, eval_natTree]
    rfl

theorem Fails.foldl_push {s : SumTree} (h : s.Fails) (l : List (Sign × Int)) :
    (l.foldl (fun s y => s.push y.1 (intTree y.2)) s).Fails := by
  induction l generalizing s with
  | nil => exact h
  | cons y l ih => exact ih (h.push y.1 (intTree y.2))

theorem Stands.gives {s : SumTree} {x : Partial} (h : s.Stands x) (l : List (Sign × Int)) :
    Gives (l.foldl (fun s y => s.push y.1 (intTree y.2)) s).expr.eval
      ((x.pushAll l).map Partial.value) := by
  induction l generalizing s x with
  | nil => exact h.eval
  | cons y l ih =>
    have step := h.push y.1 (eval_intTree y.2)
    rw [List.foldl_cons, Partial.pushAll, List.foldlM_cons]
    cases hy : x.push y.1 y.2 with
    | ok x' =>
      rw [hy] at step
      exact ih step
    | error f =>
      rw [hy] at step
      cases f with
      | zeroDivisor => exact (step.foldl_push l).eval
      | inexact => trivial

theorem gives_flatTree (a : Int) (l : List (Sign × Int)) :
    Gives (flatTree a l).expr.eval (exactly a l) := by
  rw [flatTree, build, List.foldl_map]
  exact Stands.gives (@Stands.product (.unary (intTree a)) a (eval_intTree a)) l

end SumTree

/-- The flat text of integers is read as the tree of their signs. -/
theorem evaluate_flatText {text : String} {a : Int} {l : List (Sign × Int)}
    (h : text.toList = flatText a l) : evaluate text = (flatTree a l).expr.eval := by
  have tokens : (flatTree a l).tokens = lex text.toList := by rw [h, lex_flatText]
  have read : read? text = some (flatTree a l).expr :=
    (yields_evaluate (h ▸ isPlain_flatText a l) tokens).1
  rw [evaluate, read]

/-- **The flat text of integers is worth what they are in order of precedence**: the same integer, or
a division by zero where a divisor is zero. It is never refused. -/
theorem gives_flatText {text : String} {a : Int} {l : List (Sign × Int)}
    (h : text.toList = flatText a l) : Gives (evaluate text) (exactly a l) := by
  rw [evaluate_flatText h]
  exact SumTree.gives_flatTree a l

end DiceFormula.Arithmetic
