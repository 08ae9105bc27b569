import DiceFormula.Proofs.Arithmetic.Derivation
import DiceFormula.Proofs.Arithmetic.Lexing

/-!
# The language of arithmetic

The reader accepts what the grammar derives and nothing else. Soundness follows the descent: what it
reads at each level is the expression of a tree over the tokens it has consumed (`Reads`). For
completeness a tree is read back where it stands before other tokens. The fuel is the point there:
a unary expression needs three for each of its tokens, and the loops over further operands spend no
more than one for each token that they pass.
-/

namespace DiceFormula.Arithmetic

/-! ## Soundness -/

/-- What the descent reads with the given fuel is derived by a tree. The loops go on with a tree
for what stands before. -/
structure Reads (fuel : Nat) : Prop where
  sum : ∀ ts e r, readSum fuel ts = some (e, r) →
    ∃ s : SumTree, s.expr = e ∧ ts = s.tokens ++ r
  sumRest : ∀ (s : SumTree) ts e r, readSumRest fuel s.expr ts = some (e, r) →
    ∃ s' : SumTree, s'.expr = e ∧ s.tokens ++ ts = s'.tokens ++ r
  product : ∀ ts e r, readProduct fuel ts = some (e, r) →
    ∃ p : ProductTree, p.expr = e ∧ ts = p.tokens ++ r
  productRest : ∀ (p : ProductTree) ts e r, readProductRest fuel p.expr ts = some (e, r) →
    ∃ p' : ProductTree, p'.expr = e ∧ p.tokens ++ ts = p'.tokens ++ r
  unary : ∀ ts e r, readUnary fuel ts = some (e, r) →
    ∃ u : UnaryTree, u.expr = e ∧ ts = u.tokens ++ r

theorem sumOperation?_eq_some {t : Token} {o : Operation} (h : sumOperation? t = some o) :
    ∃ op : SumOperation, t = .sign op.sign ∧ o = op.operation := by
  unfold sumOperation? at h
  split at h
  · obtain rfl := Option.some.inj h
    exact ⟨.add, rfl, rfl⟩
  · obtain rfl := Option.some.inj h
    exact ⟨.sub, rfl, rfl⟩
  · cases h

theorem productOperation?_eq_some {t : Token} {o : Operation} (h : productOperation? t = some o) :
    ∃ op : ProductOperation, t = .sign op.sign ∧ o = op.operation := by
  unfold productOperation? at h
  split at h
  · obtain rfl := Option.some.inj h
    exact ⟨.mul, rfl, rfl⟩
  · obtain rfl := Option.some.inj h
    exact ⟨.div, rfl, rfl⟩
  · obtain rfl := Option.some.inj h
    exact ⟨.mod, rfl, rfl⟩
  · cases h

namespace Reads

variable {fuel : Nat}

theorem zero : Reads 0 where
  sum _ _ _ h := by simp [readSum] at h
  sumRest _ _ _ _ h := by simp [readSumRest] at h
  product _ _ _ h := by simp [readProduct] at h
  productRest _ _ _ _ h := by simp [readProductRest] at h
  unary _ _ _ h := by simp [readUnary] at h

theorem succ_sum (ih : Reads fuel) (ts : List Token) (e : Expr) (r : List Token)
    (h : readSum (fuel + 1) ts = some (e, r)) : ∃ s : SumTree, s.expr = e ∧ ts = s.tokens ++ r := by
  unfold readSum at h
  obtain ⟨⟨e₀, r₀⟩, first, rest⟩ := Option.bind_eq_some_iff.1 h
  obtain ⟨p, rfl, rfl⟩ := ih.product _ _ _ first
  exact ih.sumRest (.product p) _ _ _ rest

theorem succ_sumRest (ih : Reads fuel) (s : SumTree) (ts : List Token) (e : Expr) (r : List Token)
    (h : readSumRest (fuel + 1) s.expr ts = some (e, r)) :
    ∃ s' : SumTree, s'.expr = e ∧ s.tokens ++ ts = s'.tokens ++ r := by
  cases ts with
  | nil =>
    obtain ⟨rfl, rfl⟩ := Prod.mk.inj (Option.some.inj h)
    exact ⟨s, rfl, rfl⟩
  | cons t ts =>
    unfold readSumRest at h
    split at h
    · next o ho =>
      obtain ⟨op, rfl, rfl⟩ := sumOperation?_eq_some ho
      obtain ⟨⟨e₀, r₀⟩, first, rest⟩ := Option.bind_eq_some_iff.1 h
      obtain ⟨p, rfl, rfl⟩ := ih.product _ _ _ first
      obtain ⟨s', he, htokens⟩ := ih.sumRest (.join s op p) _ _ _ rest
      exact ⟨s', he, by simpa [SumTree.tokens] using htokens⟩
    · obtain ⟨rfl, rfl⟩ := Prod.mk.inj (Option.some.inj h)
      exact ⟨s, rfl, rfl⟩

theorem succ_product (ih : Reads fuel) (ts : List Token) (e : Expr) (r : List Token)
    (h : readProduct (fuel + 1) ts = some (e, r)) :
    ∃ p : ProductTree, p.expr = e ∧ ts = p.tokens ++ r := by
  unfold readProduct at h
  obtain ⟨⟨e₀, r₀⟩, first, rest⟩ := Option.bind_eq_some_iff.1 h
  obtain ⟨u, rfl, rfl⟩ := ih.unary _ _ _ first
  exact ih.productRest (.unary u) _ _ _ rest

theorem succ_productRest (ih : Reads fuel) (p : ProductTree) (ts : List Token) (e : Expr)
    (r : List Token) (h : readProductRest (fuel + 1) p.expr ts = some (e, r)) :
    ∃ p' : ProductTree, p'.expr = e ∧ p.tokens ++ ts = p'.tokens ++ r := by
  cases ts with
  | nil =>
    obtain ⟨rfl, rfl⟩ := Prod.mk.inj (Option.some.inj h)
    exact ⟨p, rfl, rfl⟩
  | cons t ts =>
    unfold readProductRest at h
    split at h
    · next o ho =>
      obtain ⟨op, rfl, rfl⟩ := productOperation?_eq_some ho
      obtain ⟨⟨e₀, r₀⟩, first, rest⟩ := Option.bind_eq_some_iff.1 h
      obtain ⟨u, rfl, rfl⟩ := ih.unary _ _ _ first
      obtain ⟨p', he, htokens⟩ := ih.productRest (.join p op u) _ _ _ rest
      exact ⟨p', he, by simpa [ProductTree.tokens] using htokens⟩
    · obtain ⟨rfl, rfl⟩ := Prod.mk.inj (Option.some.inj h)
      exact ⟨p, rfl, rfl⟩

theorem succ_unary (ih : Reads fuel) (ts : List Token) (e : Expr) (r : List Token)
    (h : readUnary (fuel + 1) ts = some (e, r)) :
    ∃ u : UnaryTree, u.expr = e ∧ ts = u.tokens ++ r := by
  cases ts with
  | nil => cases h
  | cons t ts =>
    unfold readUnary at h
    split at h
    · obtain ⟨⟨e₀, r₀⟩, inner, rest⟩ := Option.map_eq_some_iff.1 h
      obtain ⟨rfl, rfl⟩ := Prod.mk.inj rest
      obtain ⟨u, rfl, rfl⟩ := ih.unary _ _ _ inner
      exact ⟨.negative u, rfl, rfl⟩
    · obtain ⟨u, rfl, rfl⟩ := ih.unary _ _ _ h
      exact ⟨.positive u, rfl, rfl⟩
    · next n =>
      obtain ⟨rfl, rfl⟩ := Prod.mk.inj (Option.some.inj h)
      exact ⟨.atom (.number n), rfl, rfl⟩
    · split at h
      · next inner =>
        obtain ⟨rfl, rfl⟩ := Prod.mk.inj (Option.some.inj h)
        obtain ⟨s, rfl, rfl⟩ := ih.sum _ _ _ inner
        exact ⟨.atom (.group s), rfl, by simp [UnaryTree.tokens, AtomTree.tokens]⟩
      · cases h
    · cases h

theorem all : ∀ fuel, Reads fuel
  | 0 => zero
  | fuel + 1 =>
    have ih := all fuel
    ⟨ih.succ_sum, ih.succ_sumRest, ih.succ_product, ih.succ_productRest, ih.succ_unary⟩

end Reads

/-- A list of tokens that is read is derived. -/
theorem exists_tree_of_parse? {ts : List Token} {e : Expr} (h : parse? ts = some e) :
    ∃ s : SumTree, s.tokens = ts ∧ s.expr = e := by
  unfold parse? at h
  split at h
  · next inner =>
    obtain rfl := Option.some.inj h
    obtain ⟨s, rfl, hts⟩ := (Reads.all _).sum _ _ _ inner
    exact ⟨s, by simp [hts], rfl⟩
  · cases h

/-! ## Completeness -/

theorem sumOperation?_sign (op : SumOperation) :
    sumOperation? (.sign op.sign) = some op.operation := by
  cases op <;> rfl

theorem productOperation?_sign (op : ProductOperation) :
    productOperation? (.sign op.sign) = some op.operation := by
  cases op <;> rfl

theorem endsProduct_sumSign (op : SumOperation) (r : List Token) :
    EndsProduct (.sign op.sign :: r) := by
  intro t ht
  obtain rfl := Option.some.inj ht
  cases op <;> rfl

theorem EndsSum.endsProduct {r : List Token} (h : EndsSum r) : EndsProduct r :=
  fun t ht => (h t ht).1

section
variable {fuel : Nat} {e : Expr} {r : List Token}

theorem readProductRest_of_endsProduct (hf : 0 < fuel) (h : EndsProduct r) :
    readProductRest fuel e r = some (e, r) := by
  obtain ⟨fuel, rfl⟩ := Nat.exists_eq_add_one.2 hf
  cases r with
  | nil => rfl
  | cons t r => simp [readProductRest, h t rfl]

theorem readSumRest_of_endsSum (hf : 0 < fuel) (h : EndsSum r) :
    readSumRest fuel e r = some (e, r) := by
  obtain ⟨fuel, rfl⟩ := Nat.exists_eq_add_one.2 hf
  cases r with
  | nil => rfl
  | cons t r => simp [readSumRest, (h t rfl).2]

end

theorem UnaryTree.tokens_length_pos (u : UnaryTree) : 0 < u.tokens.length := by
  cases u with
  | atom a => cases a <;> exact Nat.succ_pos _
  | negative _ | positive _ => exact Nat.succ_pos _

theorem ProductTree.tokens_length_pos (p : ProductTree) : 0 < p.tokens.length := by
  rw [p.tokens_eq, List.length_append]
  exact Nat.lt_of_lt_of_le p.head.tokens_length_pos (Nat.le_add_right _ _)

mutual

/-- A sum is read up to its further products, with what fuel is left then. -/
theorem SumTree.readSum_tokens : ∀ (s : SumTree) (fuel : Nat) (r : List Token), EndsProduct r →
    3 * s.tokens.length + 2 ≤ fuel →
    ∃ left, fuel ≤ left + s.tokens.length ∧ readSum fuel (s.tokens ++ r) = readSumRest left s.expr r
  | .product p, fuel, r, hr, hf => by
    simp only [SumTree.tokens, SumTree.expr] at hf ⊢
    obtain ⟨fuel, rfl⟩ := Nat.exists_eq_add_one.2 (by omega : 0 < fuel)
    obtain ⟨left, hleft, hp⟩ := p.readProduct_tokens fuel r (by omega)
    rw [readProductRest_of_endsProduct (by omega) hr] at hp
    have := p.tokens_length_pos
    exact ⟨fuel, by omega, by simp [readSum, hp]⟩
  | .join s op p, fuel, r, hr, hf => by
    simp only [SumTree.tokens, SumTree.expr, List.length_append, List.length_cons,
      List.append_assoc, List.cons_append] at hf ⊢
    obtain ⟨left, hleft, hs⟩ :=
      s.readSum_tokens fuel (.sign op.sign :: (p.tokens ++ r)) (endsProduct_sumSign _ _) (by omega)
    obtain ⟨left, rfl⟩ := Nat.exists_eq_add_one.2 (by omega : 0 < left)
    obtain ⟨left', hleft', hp⟩ := p.readProduct_tokens left r (by omega)
    rw [readProductRest_of_endsProduct (by omega) hr] at hp
    refine ⟨left, by omega, ?_⟩
    rw [hs]
    simp [readSumRest, sumOperation?_sign, hp]

/-- A product is read up to its further factors, with what fuel is left then. -/
theorem ProductTree.readProduct_tokens : ∀ (p : ProductTree) (fuel : Nat) (r : List Token),
    3 * p.tokens.length + 1 ≤ fuel →
    ∃ left, fuel ≤ left + p.tokens.length ∧
      readProduct fuel (p.tokens ++ r) = readProductRest left p.expr r
  | .unary u, fuel, r, hf => by
    have := u.tokens_length_pos
    simp only [ProductTree.tokens, ProductTree.expr] at hf ⊢
    obtain ⟨fuel, rfl⟩ := Nat.exists_eq_add_one.2 (by omega : 0 < fuel)
    refine ⟨fuel, by omega, ?_⟩
    simp [readProduct, u.readUnary_tokens fuel r (by omega)]
  | .join p op u, fuel, r, hf => by
    simp only [ProductTree.tokens, ProductTree.expr, List.length_append, List.length_cons,
      List.append_assoc, List.cons_append] at hf ⊢
    obtain ⟨left, hleft, hp⟩ :=
      p.readProduct_tokens fuel (.sign op.sign :: (u.tokens ++ r)) (by omega)
    obtain ⟨left, rfl⟩ := Nat.exists_eq_add_one.2 (by omega : 0 < left)
    refine ⟨left, by omega, ?_⟩
    rw [hp]
    simp [readProductRest, productOperation?_sign, u.readUnary_tokens left r (by omega)]

/-- A unary expression is read whole, whatever follows. -/
theorem UnaryTree.readUnary_tokens : ∀ (u : UnaryTree) (fuel : Nat) (r : List Token),
    3 * u.tokens.length ≤ fuel → readUnary fuel (u.tokens ++ r) = some (u.expr, r)
  | .atom (.number n), fuel, r, hf => by
    simp only [UnaryTree.tokens, AtomTree.tokens, List.length_singleton] at hf
    obtain ⟨fuel, rfl⟩ := Nat.exists_eq_add_one.2 (by omega : 0 < fuel)
    rfl
  | .atom (.group s), fuel, r, hf => by
    simp only [UnaryTree.tokens, AtomTree.tokens, List.length_append, List.length_cons,
      List.length_nil] at hf
    obtain ⟨fuel, rfl⟩ := Nat.exists_eq_add_one.2 (by omega : 0 < fuel)
    obtain ⟨left, hleft, hs⟩ := s.readSum_tokens fuel (.closeParen :: r)
      (endsSum_closeParen r).endsProduct (by omega)
    rw [readSumRest_of_endsSum (by omega) (endsSum_closeParen r)] at hs
    simp [UnaryTree.tokens, AtomTree.tokens, readUnary, hs, UnaryTree.expr, AtomTree.expr]
  | .negative u, fuel, r, hf => by
    simp only [UnaryTree.tokens, List.length_cons] at hf
    obtain ⟨fuel, rfl⟩ := Nat.exists_eq_add_one.2 (by omega : 0 < fuel)
    simp [UnaryTree.tokens, readUnary, u.readUnary_tokens fuel r (by omega), UnaryTree.expr]
  | .positive u, fuel, r, hf => by
    simp only [UnaryTree.tokens, List.length_cons] at hf
    obtain ⟨fuel, rfl⟩ := Nat.exists_eq_add_one.2 (by omega : 0 < fuel)
    simp [UnaryTree.tokens, readUnary, u.readUnary_tokens fuel r (by omega), UnaryTree.expr]

end

/-- The tokens of a tree are read as its expression. -/
theorem SumTree.parse?_tokens (s : SumTree) : parse? s.tokens = some s.expr := by
  have ends : EndsSum [] := nofun
  obtain ⟨left, hleft, hs⟩ :=
    s.readSum_tokens (3 * s.tokens.length + 3) [] ends.endsProduct (by omega)
  rw [List.append_nil, readSumRest_of_endsSum (by omega) ends] at hs
  simp [parse?, hs]

/-! ## The value of a text -/

/-- The text splits into tokens that the tree derives. -/
def Derives (text : String) (d : SumTree) : Prop := Splits text.toList d.tokens

/-- A text has a derivation where it is read. -/
theorem read?_eq_some {text : String} {e : Expr} :
    read? text = some e ↔ ∃ d, Derives text d ∧ d.expr = e := by
  constructor
  · intro h
    obtain ⟨ts, hts, hp⟩ := Option.bind_eq_some_iff.1 h
    obtain ⟨d, rfl, he⟩ := exists_tree_of_parse? hp
    exact ⟨d, Token.scan_eq_some.1 hts, he⟩
  · rintro ⟨d, hd, rfl⟩
    exact Option.bind_eq_some_iff.2 ⟨_, Token.scan_eq_some.2 hd, d.parse?_tokens⟩

/-- A text has one derivation at most. -/
theorem Derives.unique {text : String} {d d' : SumTree} (h : Derives text d)
    (h' : Derives text d') : d = d' := by
  refine SumTree.eq_of_tokens_eq (Option.some.inj ?_)
  rw [← Token.scan_eq_some.2 h, Token.scan_eq_some.2 h']

/-- The numerals of a derivation are numbers of the grammar. -/
theorem Derives.numeralsOk {text : String} {d : SumTree} (h : Derives text d) :
    NumeralsOk d.tokens := by
  intro n
  suffices ∀ {cs ts}, Splits cs ts → .numeral n ∈ ts → IsNumber n from this h
  intro cs ts hsplits hn
  induction hsplits with
  | nil => cases hn
  | blank _ _ ih => exact ih hn
  | token ht _ _ ih =>
    rcases List.mem_cons.1 hn with rfl | hn
    · cases ht with
      | numeral hnum => exact hnum
    · exact ih hn

/-- The outcome for a text is the value of its only derivation, the first failure included. A text
without derivation is refused, whatever its parts compute. -/
theorem evaluate_eq_value_or_notArithmetic (text : String) :
    (∃ d, Derives text d ∧ (∀ d', Derives text d' → d' = d) ∧ evaluate text = d.value) ∨
      (∀ d, ¬Derives text d) ∧ evaluate text = .error (.parse (.notArithmetic text)) := by
  unfold evaluate
  cases h : read? text with
  | some e =>
    obtain ⟨d, hd, rfl⟩ := read?_eq_some.1 h
    exact .inl ⟨d, hd, fun d' hd' => hd'.unique hd, d.eval_expr hd.numeralsOk⟩
  | none =>
    refine .inr ⟨?_, rfl⟩
    intro d hd
    rw [read?_eq_some.2 ⟨d, hd, rfl⟩] at h
    cases h

end DiceFormula.Arithmetic
