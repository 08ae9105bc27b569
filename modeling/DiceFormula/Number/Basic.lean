import DiceFormula.Number.Shortest

/-!
# Numbers

A number of a formula is an unbounded integer or a double, and the two are never confused: `6` and
`6.0` print differently. Integers are exact; an integer that meets a double is converted to one,
which fails beyond the range of doubles. Comparison of an integer with a double is exact.
-/

namespace DiceFormula

/-- Why an operation on numbers has no result. -/
inductive NumberError
  | domain
  | range
  | integerTooLarge
  | quotientTooLarge
  | infiniteToInteger
  | undefinedToInteger
  deriving DecidableEq, Repr

/-- The wording of a numeric failure. -/
def NumberError.message : NumberError → String
  | .domain => "math domain error"
  | .range => "math range error"
  | .integerTooLarge => "int too large to convert to float"
  | .quotientTooLarge => "integer division result too large for a float"
  | .infiniteToInteger => "cannot convert float infinity to integer"
  | .undefinedToInteger => "cannot convert float NaN to integer"

/-- Whether the failure is one of size rather than of meaning. -/
def NumberError.isOverflow : NumberError → Bool
  | .domain | .undefinedToInteger => false
  | _ => true

/-- An integer or a double. -/
inductive Number
  | int (n : Int)
  | float (x : Float)
  deriving DecidableEq

/-- The double nearest to an integer. -/
def intToFloat (n : Int) : Except NumberError Float :=
  let x := nearestSigned (n < 0) n.natAbs 1
  if x.isInf then .error .integerTooLarge else .ok x

/-- The quotient of two integers rounded to a double; the divisor is not zero. -/
def intRatio (a b : Int) : Except NumberError Float :=
  let x := nearestSigned ((a < 0) != (b < 0)) a.natAbs b.natAbs
  if x.isInf then .error .quotientTooLarge
  else .ok (if a == 0 then 0.0 else x)

/-- A double as an integer after a rounding of its exact value. -/
def floatToInt (round : Dyadic → Int) (x : Float) : Except NumberError Int :=
  match Dyadic.ofFloat? x with
  | some d => .ok (round d)
  | none => .error (if x.isNaN then .undefinedToInteger else .infiniteToInteger)

/-- Whether a double is an integer. -/
def isIntegral (x : Float) : Bool := (Dyadic.ofFloat? x).any (·.isIntegral)

namespace Number

instance : Inhabited Number := ⟨.int 0⟩
instance : OfNat Number n := ⟨.int n⟩

/-- The number as a double. -/
def toFloat : Number → Except NumberError Float
  | .int n => intToFloat n
  | .float x => .ok x

/-! ## Comparison -/

/-- How two numbers compare; nothing compares with the undefined double. -/
def compare? : Number → Number → Option Ordering
  | .int a, .int b => some (compare a b)
  | .float x, .float y =>
    if x < y then some .lt else if x == y then some .eq else if y < x then some .gt else none
  | .int a, .float y => compareFloat a y
  | .float x, .int b => (compareFloat b x).map Ordering.swap
where
  /-- How an integer compares with a double. -/
  compareFloat (a : Int) (y : Float) : Option Ordering :=
    match Dyadic.ofFloat? y with
    | some d => some (d.compareInt a)
    | none => if y.isNaN then none else if y < 0 then some .gt else some .lt

/-- Whether `a` equals `b` in value. -/
def eq (a b : Number) : Bool := compare? a b == some .eq

/-- Whether `a` is below `b`. -/
def lt (a b : Number) : Bool := compare? a b == some .lt

/-- Whether `a` is at most `b`. -/
def le (a b : Number) : Bool := a.lt b || a.eq b

/-- Whether the number is zero, of either sign. -/
def isZero (a : Number) : Bool := a.eq 0

/-- Whether the number is below zero. -/
def isNegative (a : Number) : Bool := a.lt 0

/-- Whether the number is an infinite or undefined double. -/
def isUnbounded : Number → Bool
  | .int _ => false
  | .float x => x.isInf || x.isNaN

@[simp] theorem eq_int (a b : Int) : eq (.int a) (.int b) = decide (a = b) := by
  simp only [eq, compare?]
  by_cases h : a < b <;> by_cases h' : a = b <;> simp [compare, compareOfLessAndEq, h, h']

@[simp] theorem lt_int (a b : Int) : lt (.int a) (.int b) = decide (a < b) := by
  simp only [lt, compare?]
  by_cases h : a < b <;> by_cases h' : a = b <;> simp [compare, compareOfLessAndEq, h, h']

@[simp] theorem le_int (a b : Int) : le (.int a) (.int b) = decide (a ≤ b) := by
  simp only [le, lt_int, eq_int]
  by_cases h : a < b <;> by_cases h' : a = b <;> simp [h, h'] <;> omega

/-! ## Arithmetic -/

/-- Both numbers as doubles, the left one first. -/
def bothFloat (a b : Number) : Except NumberError (Float × Float) := do
  let x ← a.toFloat
  let y ← b.toFloat
  return (x, y)

/-- The sum. -/
def add : Number → Number → Except NumberError Number
  | .int a, .int b => .ok (.int (a + b))
  | a, b => do let (x, y) ← bothFloat a b; return .float (x + y)

/-- The difference. -/
def sub : Number → Number → Except NumberError Number
  | .int a, .int b => .ok (.int (a - b))
  | a, b => do let (x, y) ← bothFloat a b; return .float (x - y)

/-- The product. -/
def mul : Number → Number → Except NumberError Number
  | .int a, .int b => .ok (.int (a * b))
  | a, b => do let (x, y) ← bothFloat a b; return .float (x * y)

/-- The number with its sign changed. -/
def neg : Number → Number
  | .int a => .int (-a)
  | .float x => .float (-x)

/-- The number without its sign. -/
def abs : Number → Number
  | .int a => .int a.natAbs
  | .float x => .float x.abs

/-- The quotient by a divisor that is not zero: an integer where two integers divide exactly, a
double otherwise. -/
def div : Number → Number → Except NumberError Number
  | .int a, .int b => if a % b == 0 then .ok (.int (a / b)) else return .float (← intRatio a b)
  | a, b => do let (x, y) ← bothFloat a b; return .float (x / y)

/-- The remainder of two positive doubles, exactly. -/
def floatRem (x y : Float) : Float :=
  match Dyadic.ofFloat? x, Dyadic.ofFloat? y with
  | some a, some b =>
    let e := min a.exp b.exp
    let m := a.sig.natAbs * Nat.pow 2 (a.exp - e).toNat
    let n := b.sig.natAbs * Nat.pow 2 (b.exp - e).toNat
    if n == 0 then 0.0 / 0.0 else Dyadic.toFloat ⟨(m % n : Nat), e⟩
  | some _, none => if y.isNaN then y else x
  | none, _ => 0.0 / 0.0

/-- The remainder by a divisor that is not zero; it has the sign of the dividend. -/
def rem : Number → Number → Except NumberError Number
  | .int a, .int b => .ok (.int (a.tmod b))
  | a, b => do
    let (x, y) ← bothFloat a b
    let r := floatRem x.abs y.abs
    return .float (if x < 0 then -r else r)

/-- The sum of a list, from the left. -/
def sum (ns : List Number) : Except NumberError Number := ns.foldlM add 0

/-- The number rounded to an integer by the given rounding of exact values. -/
def toInt (round : Dyadic → Int) : Number → Except NumberError Int
  | .int n => .ok n
  | .float x => floatToInt round x

/-! ## Text -/

/-- The text of a number: decimal digits, or the shortest decimal of a double. -/
def text : Number → String
  | .int n => toString n
  | .float x => floatText x

/-- The text of a number in a formula: a double that is an integer is written without a point. -/
def formulaText : Number → String
  | .int n => toString n
  | .float x =>
    match Dyadic.ofFloat? x with
    | some d => if d.isIntegral then toString d.trunc else floatText x
    | none => floatText x

end Number

end DiceFormula
