import DiceFormula.Arithmetic.Token
import DiceFormula.Error

/-!
# Arithmetic expressions

The expression trees of plain arithmetic and their evaluation: operands before the operation, the
left one first, so that the first failure in that order is the outcome. Division keeps integers
where it is exact; a remainder has the sign of its dividend.
-/

namespace DiceFormula.Arithmetic

/-- The operations with two operands. -/
inductive Operation
  | add | sub | mul | div | rem
  deriving DecidableEq, Repr

/-- An expression. -/
inductive Expr
  | number (text : List Char)
  | negate (e : Expr)
  | binary (op : Operation) (left right : Expr)
  deriving DecidableEq, Repr

/-- Applies an operation to its operands. -/
def Operation.apply : Operation → Number → Number → Except Error Number
  | .add, a, b => ofNumeric (a.add b)
  | .sub, a, b => ofNumeric (a.sub b)
  | .mul, a, b => ofNumeric (a.mul b)
  | .div, a, b => if b.isZero then .error (.divideByZero a '/' b) else ofNumeric (a.div b)
  | .rem, a, b => if b.isZero then .error (.divideByZero a '%' b) else ofNumeric (a.rem b)

/-- The value of an expression. -/
def Expr.eval : Expr → Except Error Number
  | .number t => .ok (Token.numeralValue t)
  | .negate e => do return (← e.eval).neg
  | .binary op l r => do
    let a ← l.eval
    let b ← r.eval
    op.apply a b

end DiceFormula.Arithmetic
