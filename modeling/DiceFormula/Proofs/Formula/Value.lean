import DiceFormula.Proofs.Arithmetic.Flat
import DiceFormula.Proofs.Formula.Items

/-!
# Values of a plain formula

The parser keeps the operands of a plain formula and the signs between them, and turns a sign in
front into an operation on zero. In plain arithmetic that sign belongs to the first operand alone.
Written with the values of its operands the formula is worth the same nevertheless
(`Formula.Opens.alike`), and it is worth nothing if one of its operands is
(`Formula.Opens.trunc?_eq_none`).
-/

namespace DiceFormula

open Arithmetic

namespace Operand

/-- The value of the operand in truncating arithmetic. -/
def value (x : Operand) : Option Int := x.tree.expr.trunc?

/-- The value, zero if there is none. -/
def int (x : Operand) : Int := x.value.getD 0

/-- An operand with a value may be replaced by it. -/
theorem same_intTree {x : Operand} (h : x.value ≠ none) :
    Same x.tree.expr (intTree x.int).expr where
  value := by
    obtain ⟨n, hn⟩ := Option.ne_none_iff_exists'.1 h
    rw [trunc?_intTree, int, hn]
    exact hn
  divides := fun _ => divides_intTree x.int

end Operand

namespace FormulaItem

/-- An operand has a value. -/
def HasValue : FormulaItem → Prop
  | sign _ => True
  | operand x => x.value ≠ none

/-- The divisions in an operand are exact. -/
def Divides : FormulaItem → Prop
  | sign _ => True
  | operand x => x.tree.expr.Divides

end FormulaItem

namespace Formula

variable {is : List FormulaItem} {x : Operand} {l : List (Sign × Operand)} {d : SumTree}

/-- An operand with the sign that stands in front of it. -/
def signedTree : SumOperation → UnaryTree → UnaryTree
  | .add, u => .positive u
  | .sub, u => .negative u

theorem tokens_itemsOf (x : Operand) (l : List (Sign × Operand)) :
    (itemsOf x l).flatMap FormulaItem.tokens
      = (SumTree.build x.tree (l.map fun y => (y.1, y.2.tree))).tokens := by
  rw [SumTree.tokens_build, itemsOf, List.flatMap_cons, List.flatMap_assoc, List.flatMap_map]
  simp [FormulaItem.tokens]

theorem tokens_signed (op : SumOperation) (x : Operand) (l : List (Sign × Operand)) :
    (FormulaItem.sign op.sign :: itemsOf x l).flatMap FormulaItem.tokens
      = (SumTree.build (signedTree op x.tree) (l.map fun y => (y.1, y.2.tree))).tokens := by
  rw [List.flatMap_cons, tokens_itemsOf, SumTree.tokens_build, SumTree.tokens_build]
  cases op <;> rfl

/-- The items have one derivation, in which a sign in front belongs to the first operand. -/
theorem Opens.exists_build (h : Opens is x l) (hd : d.tokens = is.flatMap FormulaItem.tokens) :
    (d = SumTree.build x.tree (l.map fun y => (y.1, y.2.tree)))
      ∨ ∃ op y m, x = .numeral ['0'] ∧ l = (op.sign, y) :: m
        ∧ d = SumTree.build (signedTree op y.tree) (m.map fun z => (z.1, z.2.tree)) := by
  cases h with
  | plain => exact .inl (SumTree.eq_of_tokens_eq (hd.trans (tokens_itemsOf x l)))
  | signed op y m =>
    exact .inr ⟨op, y, m, rfl, rfl, SumTree.eq_of_tokens_eq (hd.trans (tokens_signed op y m))⟩

theorem Opens.exists_tokens (h : Opens is x l) :
    ∃ d : SumTree, d.tokens = is.flatMap FormulaItem.tokens := by
  cases h with
  | plain => exact ⟨_, (tokens_itemsOf x l).symm⟩
  | signed op y m => exact ⟨_, (tokens_signed op y m).symm⟩

/-- What is known of the items is known of the operands that are read, the zero included. -/
theorem Opens.ok {P : String → SumTree → Prop} (h : Opens is x l) (hok : ∀ i ∈ is, i.Ok P) :
    ∀ i ∈ itemsOf x l, i.Ok P := by
  cases h with
  | plain => exact hok
  | signed op y m =>
    have zero : IsInt ['0'] := ⟨nofun, List.forall_mem_singleton.2 rfl⟩
    exact List.forall_mem_cons.2 ⟨zero, hok⟩

theorem mem_itemsOf {y : Operand} :
    FormulaItem.operand y ∈ itemsOf x l ↔ y = x ∨ ∃ s, (s, y) ∈ l := by
  simp [itemsOf]

/-- **Formulas are worth what arithmetic says.** Where all operands have values, the formula written
with them has the value of the derivation, and its divisions are exact if those of the derivation
are. -/
theorem Opens.alike (h : Opens is x l) (hd : d.tokens = is.flatMap FormulaItem.tokens)
    (hv : ∀ i ∈ itemsOf x l, i.HasValue) :
    SumTree.Alike d (flatTree x.int (l.map fun y => (y.1, y.2.int))) := by
  have same {y : Operand} (hy : FormulaItem.operand y ∈ itemsOf x l) :
      Same y.tree.expr (intTree y.int).expr := y.same_intTree (hv _ hy)
  have first := same (mem_itemsOf.2 (.inl rfl))
  have others : ∀ y ∈ l, Same y.2.tree.expr (intTree y.2.int).expr :=
    fun y hy => same (mem_itemsOf.2 (.inr ⟨y.1, hy⟩))
  rcases h.exists_build hd with rfl | ⟨op, y, m, rfl, rfl, rfl⟩
  · simp only [flatTree, SumTree.build, List.foldl_map]
    have start : SumTree.Alike (.product (.unary x.tree)) (.product (.unary (intTree x.int))) :=
      .product first
    exact start.foldl_push Operand.tree (fun y => intTree y.int) others
  · simp only [flatTree, SumTree.build, List.foldl_map, List.map_cons, List.foldl_cons]
    refine .foldl_push Operand.tree (fun y => intTree y.int)
      (fun z hz => others z (List.mem_cons_of_mem _ hz)) ?_
    have hy : Same y.tree.expr (intTree y.int).expr := others _ List.mem_cons_self
    have zero : (intTree (Operand.int (.numeral ['0']))).expr.trunc? = some 0 := trunc?_intTree 0
    cases op with
    | add => exact .positive zero (divides_intTree 0) hy
    | sub => exact .negative zero (divides_intTree 0) ⟨by
        show Option.map _ _ = _
        rw [hy.value]
        rfl, hy.divides⟩

/-- A formula is worth nothing if one of its operands has no value. -/
theorem Opens.trunc?_eq_none (h : Opens is x l) (hd : d.tokens = is.flatMap FormulaItem.tokens)
    {y : Operand} (hy : FormulaItem.operand y ∈ itemsOf x l) (hv : y.value = none) :
    d.expr.trunc? = none := by
  rcases h.exists_build hd with rfl | ⟨op, z, m, rfl, rfl, rfl⟩
  · refine SumTree.trunc?_build_eq_none ?_
    rcases mem_itemsOf.1 hy with rfl | ⟨s, hy⟩
    · exact .inl hv
    · exact .inr ⟨(s, y.tree), List.mem_map_of_mem hy, hv⟩
  · refine SumTree.trunc?_build_eq_none ?_
    rcases mem_itemsOf.1 hy with rfl | ⟨s, hy⟩
    · cases hv
    · rcases List.mem_cons.1 hy with hy | hy
      · obtain ⟨rfl, rfl⟩ := Prod.mk.inj hy
        refine .inl ?_
        cases op with
        | add => exact hv
        | sub =>
          show Option.map _ _ = none
          rw [Option.map_eq_none_iff]
          exact hv
      · exact .inr ⟨(s, y.tree), List.mem_map_of_mem hy, hv⟩

/-- The divisions of a formula are exact only if those in its operands are. -/
theorem Opens.divides (h : Opens is x l) (hd : d.tokens = is.flatMap FormulaItem.tokens)
    (hdiv : d.expr.Divides) : ∀ i ∈ itemsOf x l, i.Divides := by
  intro i hi
  cases i with
  | sign s => exact trivial
  | operand y =>
    rcases h.exists_build hd with rfl | ⟨op, z, m, rfl, rfl, rfl⟩
    · obtain ⟨first, others⟩ := SumTree.divides_of_build hdiv
      rcases mem_itemsOf.1 hi with rfl | ⟨s, hy⟩
      · exact first
      · exact others (s, y.tree) (List.mem_map_of_mem hy)
    · obtain ⟨first, others⟩ := SumTree.divides_of_build hdiv
      rcases mem_itemsOf.1 hi with rfl | ⟨s, hy⟩
      · exact trivial
      · rcases List.mem_cons.1 hy with hy | hy
        · obtain ⟨rfl, rfl⟩ := Prod.mk.inj hy
          cases op <;> exact first
        · exact others (s, y.tree) (List.mem_map_of_mem hy)

end Formula

end DiceFormula
