import DiceFormula.Arithmetic.Grammar
import DiceFormula.Proofs.Arithmetic.Numeral

/-!
# Derivations of arithmetic

The derivation trees of the grammar, one type for each of its rules, with the tokens that a tree
derives and the value that its nodes compute from the leaves up.

    sum     = product | sum "+" product | sum "-" product
    product = unary | product "*" unary | product "/" unary | product "%" unary
    unary   = atom | "-" unary | "+" unary
    atom    = NUMBER | "(" sum ")"

Sums and products grow to the left. Read from the left, a sum is its first product and a list of
further ones, and a product is a first unary and a list of further ones; `head` and `tail` give that
view. It is the one in which no tokens have two derivations (`SumTree.eq_of_tokens_eq`).
-/

namespace DiceFormula.Arithmetic

/-- The operations between the products of a sum. -/
inductive SumOperation
  | add | sub
  deriving DecidableEq, Repr

/-- The operations between the factors of a product. -/
inductive ProductOperation
  | mul | div | mod
  deriving DecidableEq, Repr

/-- The sign that writes the operation. -/
def SumOperation.sign : SumOperation → Sign
  | add => .plus
  | sub => .minus

/-- The sign that writes the operation. -/
def ProductOperation.sign : ProductOperation → Sign
  | mul => .times
  | div => .divide
  | mod => .modulo

theorem SumOperation.eq_of_sign_eq {op op' : SumOperation} (h : op.sign = op'.sign) : op = op' := by
  cases op <;> cases op' <;> first | rfl | cases h

theorem ProductOperation.eq_of_sign_eq {op op' : ProductOperation} (h : op.sign = op'.sign) :
    op = op' := by
  cases op <;> cases op' <;> first | rfl | cases h

/-- What the operation computes. -/
def SumOperation.operation : SumOperation → Operation
  | add => .add
  | sub => .sub

/-- What the operation computes. -/
def ProductOperation.operation : ProductOperation → Operation
  | mul => .mul
  | div => .div
  | mod => .rem

mutual

/-- A derivation from `sum`. -/
inductive SumTree
  | product (p : ProductTree)
  | join (s : SumTree) (op : SumOperation) (p : ProductTree)

/-- A derivation from `product`. -/
inductive ProductTree
  | unary (u : UnaryTree)
  | join (p : ProductTree) (op : ProductOperation) (u : UnaryTree)

/-- A derivation from `unary`. -/
inductive UnaryTree
  | atom (a : AtomTree)
  | negative (u : UnaryTree)
  | positive (u : UnaryTree)

/-- A derivation from `atom`. -/
inductive AtomTree
  | number (text : List Char)
  | group (s : SumTree)

end

mutual

/-- The tokens that are derived. -/
def SumTree.tokens : SumTree → List Token
  | .product p => p.tokens
  | .join s op p => s.tokens ++ .sign op.sign :: p.tokens

/-- The tokens that are derived. -/
def ProductTree.tokens : ProductTree → List Token
  | .unary u => u.tokens
  | .join p op u => p.tokens ++ .sign op.sign :: u.tokens

/-- The tokens that are derived. -/
def UnaryTree.tokens : UnaryTree → List Token
  | .atom a => a.tokens
  | .negative u => .sign .minus :: u.tokens
  | .positive u => .sign .plus :: u.tokens

/-- The tokens that are derived. -/
def AtomTree.tokens : AtomTree → List Token
  | .number n => [.numeral n]
  | .group s => .openParen :: (s.tokens ++ [.closeParen])

end

mutual

/-- The value of the tree: its operands from left to right, then the operation of its root. -/
def SumTree.value : SumTree → Except Error Number
  | .product p => p.value
  | .join s op p => do
    let a ← s.value
    let b ← p.value
    op.operation.apply a b

/-- The value of the tree: its operands from left to right, then the operation of its root. -/
def ProductTree.value : ProductTree → Except Error Number
  | .unary u => u.value
  | .join p op u => do
    let a ← p.value
    let b ← u.value
    op.operation.apply a b

/-- The value of the tree: a minus negates, a plus does nothing. -/
def UnaryTree.value : UnaryTree → Except Error Number
  | .atom a => a.value
  | .negative u => do
    let a ← u.value
    return a.neg
  | .positive u => u.value

/-- The value of the tree: that of a numeral, or what the brackets hold. -/
def AtomTree.value : AtomTree → Except Error Number
  | .number n => numberNode n
  | .group s => s.value

end

mutual

/-- The expression of the tree, which forgets pluses before operands and brackets. -/
def SumTree.expr : SumTree → Expr
  | .product p => p.expr
  | .join s op p => .binary op.operation s.expr p.expr

/-- The expression of the tree, which forgets pluses before operands and brackets. -/
def ProductTree.expr : ProductTree → Expr
  | .unary u => u.expr
  | .join p op u => .binary op.operation p.expr u.expr

/-- The expression of the tree, which forgets pluses before operands and brackets. -/
def UnaryTree.expr : UnaryTree → Expr
  | .atom a => a.expr
  | .negative u => .negate u.expr
  | .positive u => u.expr

/-- The expression of the tree, which forgets pluses before operands and brackets. -/
def AtomTree.expr : AtomTree → Expr
  | .number n => .number n
  | .group s => s.expr

end

/-- Every numeral among the tokens is a number of the grammar. -/
def NumeralsOk (ts : List Token) : Prop := ∀ n, .numeral n ∈ ts → IsNumber n

mutual

/-- What the forgotten parts compute is nothing: a tree and its expression have one value. -/
theorem SumTree.eval_expr : ∀ s : SumTree, NumeralsOk s.tokens → s.expr.eval = s.value
  | .product p, h => p.eval_expr h
  | .join s op p, h => by
    simp only [SumTree.expr, SumTree.value, Expr.eval,
      s.eval_expr fun n hn => h n (List.mem_append_left _ hn),
      p.eval_expr fun n hn => h n (List.mem_append_right _ (List.mem_cons_of_mem _ hn))]

theorem ProductTree.eval_expr : ∀ p : ProductTree, NumeralsOk p.tokens → p.expr.eval = p.value
  | .unary u, h => u.eval_expr h
  | .join p op u, h => by
    simp only [ProductTree.expr, ProductTree.value, Expr.eval,
      p.eval_expr fun n hn => h n (List.mem_append_left _ hn),
      u.eval_expr fun n hn => h n (List.mem_append_right _ (List.mem_cons_of_mem _ hn))]

theorem UnaryTree.eval_expr : ∀ u : UnaryTree, NumeralsOk u.tokens → u.expr.eval = u.value
  | .atom a, h => a.eval_expr h
  | .negative u, h => by
    simp only [UnaryTree.expr, UnaryTree.value, Expr.eval,
      u.eval_expr fun n hn => h n (List.mem_cons_of_mem _ hn)]
  | .positive u, h => u.eval_expr fun n hn => h n (List.mem_cons_of_mem _ hn)

theorem AtomTree.eval_expr : ∀ a : AtomTree, NumeralsOk a.tokens → a.expr.eval = a.value
  | .number n, h => (numberNode_eq (h n List.mem_cons_self)).symm
  | .group s, h =>
    s.eval_expr fun n hn => h n (List.mem_cons_of_mem _ (List.mem_append_left _ hn))

end

/-! ## From left to right -/

/-- The first product of the sum. -/
def SumTree.head : SumTree → ProductTree
  | .product p => p
  | .join s _ _ => s.head

/-- The further products of the sum. -/
def SumTree.tail : SumTree → List (SumOperation × ProductTree)
  | .product _ => []
  | .join s op p => s.tail ++ [(op, p)]

/-- The first factor of the product. -/
def ProductTree.head : ProductTree → UnaryTree
  | .unary u => u
  | .join p _ _ => p.head

/-- The further factors of the product. -/
def ProductTree.tail : ProductTree → List (ProductOperation × UnaryTree)
  | .unary _ => []
  | .join p op u => p.tail ++ [(op, u)]

/-- The tokens of further operands. -/
def tailTokens {ω α : Type} (sign : ω → Sign) (tokens : α → List Token) (l : List (ω × α)) :
    List Token :=
  l.flatMap fun x => .sign (sign x.1) :: tokens x.2

theorem SumTree.tokens_eq : ∀ s : SumTree,
    s.tokens = s.head.tokens ++ tailTokens SumOperation.sign ProductTree.tokens s.tail
  | .product p => (List.append_nil p.tokens).symm
  | .join s op p => by
    rw [SumTree.tokens, s.tokens_eq]
    simp [SumTree.head, SumTree.tail, tailTokens]

theorem ProductTree.tokens_eq : ∀ p : ProductTree,
    p.tokens = p.head.tokens ++ tailTokens ProductOperation.sign UnaryTree.tokens p.tail
  | .unary u => (List.append_nil u.tokens).symm
  | .join p op u => by
    rw [ProductTree.tokens, p.tokens_eq]
    simp [ProductTree.head, ProductTree.tail, tailTokens]

/-- A sum is made of its first product and the further ones. -/
theorem SumTree.foldl_tail : ∀ s : SumTree,
    s.tail.foldl (fun s x => .join s x.1 x.2) (.product s.head) = s
  | .product _ => rfl
  | .join s op p => by
    rw [SumTree.tail, List.foldl_append, SumTree.head, s.foldl_tail]
    rfl

theorem ProductTree.foldl_tail : ∀ p : ProductTree,
    p.tail.foldl (fun p x => .join p x.1 x.2) (.unary p.head) = p
  | .unary _ => rfl
  | .join p op u => by
    rw [ProductTree.tail, List.foldl_append, ProductTree.head, p.foldl_tail]
    rfl

/-! ## One derivation at most -/

/-- No further factor is next. -/
def EndsProduct (ts : List Token) : Prop := ∀ t ∈ ts.head?, productOperation? t = none

/-- No further factor or product is next. -/
def EndsSum (ts : List Token) : Prop :=
  ∀ t ∈ ts.head?, productOperation? t = none ∧ sumOperation? t = none

/-- Where the tokens of `a` are followed by ones that end it, `a` is the only operand at the front,
whatever ends the other. -/
def Delimits {α : Type} (tokens : α → List Token) (Ends : List Token → Prop) (a : α) : Prop :=
  ∀ b r r', Ends r → Ends r' → tokens a ++ r = tokens b ++ r' → a = b ∧ r = r'

/-- Operands with operations between them are delimited if each of them is: the operations are read
one after the other, and neither list can end before the other does. -/
theorem eq_of_tail_eq {ω α : Type} {sign : ω → Sign} {tokens : α → List Token}
    {Ends EndsAll : List Token → Prop}
    (signs : ∀ op op', sign op = sign op' → op = op')
    (ends : ∀ op r, Ends (.sign (sign op) :: r))
    (endsAll : ∀ r, EndsAll r → Ends r)
    (goesOn : ∀ op r, ¬EndsAll (.sign (sign op) :: r)) {l : List (ω × α)} :
    ∀ {a b : α} {l' : List (ω × α)} {r r' : List Token},
      Delimits tokens Ends a → (∀ x ∈ l, Delimits tokens Ends x.2) → EndsAll r → EndsAll r' →
      tokens a ++ (tailTokens sign tokens l ++ r) = tokens b ++ (tailTokens sign tokens l' ++ r') →
      a = b ∧ l = l' ∧ r = r' := by
  have next {l : List (ω × α)} {r : List Token} (hr : EndsAll r) :
      Ends (tailTokens sign tokens l ++ r) := by
    cases l with
    | nil => exact endsAll r hr
    | cons x l => exact ends x.1 _
  induction l with
  | nil =>
    intro a b l' r r' ha _ hr hr' h
    obtain ⟨rfl, rest⟩ := ha b _ _ (next (l := []) hr) (next hr') h
    cases l' with
    | nil => exact ⟨rfl, rfl, rest⟩
    | cons x l' =>
      obtain rfl : r = _ := rest
      exact absurd hr (goesOn x.1 _)
  | cons x l ih =>
    intro a b l' r r' ha hl hr hr' h
    obtain ⟨rfl, rest⟩ := ha b _ _ (next (l := x :: l) hr) (next hr') h
    cases l' with
    | nil =>
      obtain rfl : _ = r' := rest
      exact absurd hr' (goesOn x.1 _)
    | cons y l' =>
      simp only [tailTokens, List.flatMap_cons, List.cons_append, List.cons.injEq,
        Token.sign.injEq, List.append_assoc] at rest
      obtain ⟨hx, rfl, rfl⟩ := ih (hl x List.mem_cons_self)
        (fun z hz => hl z (List.mem_cons_of_mem x hz)) hr hr' rest.2
      exact ⟨rfl, by rw [Prod.ext (signs _ _ rest.1) hx], rfl⟩

/-- A unary expression is delimited by anything. -/
abbrev UnaryTree.Delimited (u : UnaryTree) : Prop := Delimits UnaryTree.tokens (fun _ => True) u

/-- A product is delimited by anything but a further factor. -/
abbrev ProductTree.Delimited (p : ProductTree) : Prop := Delimits ProductTree.tokens EndsProduct p

/-- A sum is delimited by anything but a further factor or product. -/
abbrev SumTree.Delimited (s : SumTree) : Prop := Delimits SumTree.tokens EndsSum s

theorem ProductTree.delimited_of_operands {p : ProductTree} (head : p.head.Delimited)
    (tail : ∀ x ∈ p.tail, x.2.Delimited) : p.Delimited := by
  intro q r r' hr hr' h
  rw [p.tokens_eq, q.tokens_eq, List.append_assoc, List.append_assoc] at h
  obtain ⟨hhead, htail, hrest⟩ := eq_of_tail_eq (fun _ _ => ProductOperation.eq_of_sign_eq)
    (fun _ _ => trivial) (fun _ _ => trivial) (fun op r h => by cases op <;> cases h _ rfl)
    head tail hr hr' h
  rw [← p.foldl_tail, ← q.foldl_tail, hhead, htail]
  exact ⟨rfl, hrest⟩

theorem SumTree.delimited_of_operands {s : SumTree} (head : s.head.Delimited)
    (tail : ∀ x ∈ s.tail, x.2.Delimited) : s.Delimited := by
  intro q r r' hr hr' h
  rw [s.tokens_eq, q.tokens_eq, List.append_assoc, List.append_assoc] at h
  obtain ⟨hhead, htail, hrest⟩ := eq_of_tail_eq (fun _ _ => SumOperation.eq_of_sign_eq)
    (fun op r t ht => by cases op <;> obtain rfl := Option.some.inj ht <;> rfl)
    (fun r hr t ht => (hr t ht).1) (fun op r h => by cases op <;> cases (h _ rfl).2)
    head tail hr hr' h
  rw [← s.foldl_tail, ← q.foldl_tail, hhead, htail]
  exact ⟨rfl, hrest⟩

/-- The token that a bracket closes with ends a sum. -/
theorem endsSum_closeParen (r : List Token) : EndsSum (.closeParen :: r) := by
  intro t ht
  obtain rfl := Option.some.inj ht
  exact ⟨rfl, rfl⟩

mutual

theorem SumTree.delimited_operands : ∀ s : SumTree,
    s.head.Delimited ∧ ∀ x ∈ s.tail, x.2.Delimited
  | .product p =>
    have hp := p.delimited_operands
    ⟨ProductTree.delimited_of_operands hp.1 hp.2, nofun⟩
  | .join s op p => by
    have hp := p.delimited_operands
    refine ⟨s.delimited_operands.1, ?_⟩
    intro x hx
    rcases List.mem_append.1 hx with hx | hx
    · exact s.delimited_operands.2 x hx
    · obtain rfl := List.mem_singleton.1 hx
      exact ProductTree.delimited_of_operands hp.1 hp.2

theorem ProductTree.delimited_operands : ∀ p : ProductTree,
    p.head.Delimited ∧ ∀ x ∈ p.tail, x.2.Delimited
  | .unary u => ⟨u.delimited, nofun⟩
  | .join p op u => by
    refine ⟨p.delimited_operands.1, ?_⟩
    intro x hx
    rcases List.mem_append.1 hx with hx | hx
    · exact p.delimited_operands.2 x hx
    · obtain rfl := List.mem_singleton.1 hx
      exact u.delimited

theorem UnaryTree.delimited : ∀ u : UnaryTree, u.Delimited
  | .atom (.number n) => by
    rintro (⟨n' | s⟩ | u | u) r r' - - h
    · simp_all [UnaryTree.tokens, AtomTree.tokens]
    all_goals simp [UnaryTree.tokens, AtomTree.tokens] at h
  | .atom (.group s) => by
    have hs := s.delimited_operands
    rintro (⟨n' | s'⟩ | u | u) r r' - - h
    · simp [UnaryTree.tokens, AtomTree.tokens] at h
    · simp only [UnaryTree.tokens, AtomTree.tokens, List.cons_append, List.append_assoc,
        List.cons.injEq, true_and, List.nil_append] at h
      obtain ⟨rfl, rest⟩ := SumTree.delimited_of_operands hs.1 hs.2 s' _ _ (endsSum_closeParen _)
        (endsSum_closeParen _) h
      exact ⟨rfl, (List.cons.inj rest).2⟩
    all_goals simp [UnaryTree.tokens, AtomTree.tokens] at h
  | .negative u => by
    rintro (⟨n' | s⟩ | u' | u') r r' - - h
    all_goals simp [UnaryTree.tokens, AtomTree.tokens] at h
    obtain ⟨rfl, rest⟩ := u.delimited u' r r' trivial trivial h
    exact ⟨rfl, rest⟩
  | .positive u => by
    rintro (⟨n' | s⟩ | u' | u') r r' - - h
    all_goals simp [UnaryTree.tokens, AtomTree.tokens] at h
    obtain ⟨rfl, rest⟩ := u.delimited u' r r' trivial trivial h
    exact ⟨rfl, rest⟩

end

/-- No tokens are derived twice. -/
theorem SumTree.eq_of_tokens_eq {s s' : SumTree} (h : s.tokens = s'.tokens) : s = s' := by
  have hs := s.delimited_operands
  exact (SumTree.delimited_of_operands hs.1 hs.2 s' [] [] nofun nofun (by rw [h])).1

end DiceFormula.Arithmetic
