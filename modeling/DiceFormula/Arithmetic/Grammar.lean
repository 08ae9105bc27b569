import DiceFormula.Arithmetic.Tree

/-!
# Reading arithmetic

The grammar of plain arithmetic has two levels of left-associative operators over signed atoms:

    sum     = product, then any number of  + product  or  - product
    product = unary,   then any number of  * unary,  / unary  or  % unary
    unary   = - unary,  + unary,  a numeral,  or a sum in parentheses

`parse?` reads a whole token list by it. The fuel of the descent is computed from the number of
tokens: no derivation descends more than three levels per token.
-/

namespace DiceFormula.Arithmetic

/-- The operation of a sign between products. -/
def sumOperation? : Token → Option Operation
  | .sign .plus => some .add
  | .sign .minus => some .sub
  | _ => none

/-- The operation of a sign between factors. -/
def productOperation? : Token → Option Operation
  | .sign .times => some .mul
  | .sign .divide => some .div
  | .sign .modulo => some .rem
  | _ => none

mutual

/-- A sum at the front. -/
def readSum : Nat → List Token → Option (Expr × List Token)
  | 0, _ => none
  | fuel + 1, ts => (readProduct fuel ts).bind fun (e, r) => readSumRest fuel e r

/-- The further products of a sum that begins with `e`. -/
def readSumRest : Nat → Expr → List Token → Option (Expr × List Token)
  | 0, _, _ => none
  | _ + 1, e, [] => some (e, [])
  | fuel + 1, e, t :: ts =>
    match sumOperation? t with
    | some op => (readProduct fuel ts).bind fun (p, r) => readSumRest fuel (.binary op e p) r
    | none => some (e, t :: ts)

/-- A product at the front. -/
def readProduct : Nat → List Token → Option (Expr × List Token)
  | 0, _ => none
  | fuel + 1, ts => (readUnary fuel ts).bind fun (e, r) => readProductRest fuel e r

/-- The further factors of a product that begins with `e`. -/
def readProductRest : Nat → Expr → List Token → Option (Expr × List Token)
  | 0, _, _ => none
  | _ + 1, e, [] => some (e, [])
  | fuel + 1, e, t :: ts =>
    match productOperation? t with
    | some op => (readUnary fuel ts).bind fun (u, r) => readProductRest fuel (.binary op e u) r
    | none => some (e, t :: ts)

/-- A signed atom at the front. -/
def readUnary : Nat → List Token → Option (Expr × List Token)
  | 0, _ => none
  | _ + 1, [] => none
  | fuel + 1, t :: ts =>
    match t with
    | .sign .minus => (readUnary fuel ts).map fun (e, r) => (.negate e, r)
    | .sign .plus => readUnary fuel ts
    | .numeral n => some (.number n, ts)
    | .openParen =>
      match readSum fuel ts with
      | some (e, .closeParen :: r) => some (e, r)
      | _ => none
    | _ => none

end

/-- The expression that a whole token list spells. -/
def parse? (ts : List Token) : Option Expr :=
  match readSum (3 * ts.length + 3) ts with
  | some (e, []) => some e
  | _ => none

/-- The expression that a text spells. -/
def read? (text : String) : Option Expr := (Token.scan text.toList).bind parse?

/-- Reads and evaluates a text. A text outside the grammar is refused before anything is
evaluated. -/
def evaluate (text : String) : Except Error Number :=
  match read? text with
  | some e => e.eval
  | none => .error (.parse (.notArithmetic text))

end DiceFormula.Arithmetic
