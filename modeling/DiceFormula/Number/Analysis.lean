import DiceFormula.Number.Basic

/-!
# Powers, exponentials and logarithms

The irrational functions, each rounded once to the nearest double; only the logarithm of an integer
beyond the doubles is a sum of rounded parts. They are computed on integers scaled by `2 ^ scale`
with far more places than a double holds; `settle` then keeps two hundred significant bits, so that
a result that is exactly representable comes out exact.
-/

namespace DiceFormula.Analysis

/-- The number of binary places carried. -/
def scale : Nat := 320

/-- One, at the working scale. -/
def one : Int := Int.pow 2 scale

/-- The product at the working scale. -/
def times (a b : Int) : Int := (a * b).fdiv one

/-- The double nearest to `n · 2 ^ exp`, of which two hundred significant bits are trusted. -/
def settle (n : Nat) (exp : Int) : Float :=
  let extra := Nat.log2 n + 1 - 200
  let d : Dyadic := ⟨(roundDiv n (Nat.pow 2 extra) : Nat), exp + extra⟩
  d.toFloat

/-- Settles with the sign of `n`. -/
def settleSigned (n : Int) (exp : Int) : Float :=
  if n < 0 then -settle n.natAbs exp else settle n.natAbs exp

/-! ## Series -/

/-- The terms `power / k + power · square / (k + 2) + …`. -/
def oddSeries (square : Int) : Int → Nat → Nat → Int
  | _, _, 0 => 0
  | power, k, fuel + 1 => power / (k : Int) + oddSeries square (times power square) (k + 2) fuel

/-- Twice the area tangent of `num / den`, at the working scale. -/
def twiceArtanh (num den : Int) : Int :=
  let z := (num * one).fdiv den
  2 * oddSeries (times z z) z 1 120

/-- The logarithm of two at the working scale. -/
def ln2 : Int := twiceArtanh 1 3

/-- The logarithm of `sig · 2 ^ exp` for a positive `sig`, at the working scale. -/
def ln (sig : Nat) (exp : Int) : Int :=
  let k := Nat.log2 sig
  let k := if 3 * Nat.pow 2 k < 2 * sig then k + 1 else k
  let unit := Int.pow 2 k
  twiceArtanh (sig - unit) (sig + unit) + (k + exp) * ln2

/-- The terms `term + term · r / k + …` of the exponential series. -/
def expSeries (r : Int) : Int → Nat → Nat → Int
  | _, _, 0 => 0
  | term, k, fuel + 1 => term + expSeries r (times term r / (k : Int)) (k + 1) fuel

/-- The exponential of `t` at the working scale, rounded to a double. -/
def expOf (t : Int) : Float :=
  let k := (2 * t + ln2).fdiv (2 * ln2)
  settle (expSeries (t - k * ln2) one 1 90).toNat (k - scale)

/-- The product `d · n`, a value at the working scale times a dyadic number. -/
def scaleBy (d : Dyadic) (n : Int) : Int :=
  if 0 ≤ d.exp then d.sig * Int.pow 2 d.exp.toNat * n
  else (d.sig * n).fdiv (Int.pow 2 (-d.exp).toNat)

/-- The exponential of `t`, which may lie beyond the range of doubles. -/
def expBounded (t : Int) : Float :=
  if 720 * one < t then 1.0 / 0.0 else if t < -760 * one then 0.0 else expOf t

/-! ## Functions on doubles -/

/-- The exponential. A finite argument with an infinite result is out of range. -/
def exp (x : Float) : Except NumberError Float :=
  match Dyadic.ofFloat? x with
  | none => .ok (if x.isNaN then x else if x < 0 then 0.0 else x)
  | some d =>
    let y := expBounded (scaleBy d one)
    if y.isInf then .error .range else .ok y

/-- Which logarithm is meant. -/
inductive Base
  | natural
  | two
  | ten
  deriving DecidableEq, Repr

/-- The logarithm of the positive number `sig · 2 ^ exp`. -/
def logOf (b : Base) (sig : Nat) (exp : Int) : Float :=
  let l := ln sig exp
  match b with
  | .natural => settleSigned l (-scale)
  | .two => settleSigned ((l * one).tdiv ln2) (-scale)
  | .ten => settleSigned ((l * one).tdiv (ln 10 0)) (-scale)

/-- A positive integer as a double from one half up to one and the power of two that is its factor;
the double is rounded. -/
def splitExponent (n : Nat) : Dyadic × Nat :=
  let size := Nat.log2 n + 1
  match Dyadic.ofFloat? (nearest n (Nat.pow 2 size)) with
  | some d => if d.compareInt 1 == .eq then (⟨1, -1⟩, size + 1) else (d, size)
  | none => (⟨1, -1⟩, size + 1)

/-- The logarithm of an integer beyond the range of doubles: that of its leading part, and that of
two once for every place that it is long. -/
def logOfLarge (b : Base) (n : Nat) : Float :=
  let (d, places) := splitExponent n
  logOf b d.sig.natAbs d.exp + logOf b 2 0 * Float.ofNat places

/-- The logarithm of a number; only positive numbers have one. -/
def log (b : Base) : Number → Except NumberError Float
  | .int n =>
    if n ≤ 0 then .error .domain
    else
      match (intToFloat n).toOption.bind Dyadic.ofFloat? with
      | some d => .ok (logOf b d.sig.natAbs d.exp)
      | none => .ok (logOfLarge b n.natAbs)
  | .float x =>
    match Dyadic.ofFloat? x with
    | none => if x.isNaN || 0 < x then .ok x else .error .domain
    | some d => if d.sig ≤ 0 then .error .domain else .ok (logOf b d.sig.natAbs d.exp)

/-- Whether a finite double is an odd integer. -/
def isOdd (d : Dyadic) : Bool := d.isIntegral && d.trunc % 2 != 0

/-- A power where base or exponent is infinite or undefined. -/
def powUnbounded (x y : Float) : Float :=
  if x.isNaN then (if y == 0 then 1.0 else x)
  else if y.isNaN then (if x == 1 then 1.0 else y)
  else if x.isInf then
    let odd := (Dyadic.ofFloat? y).any isOdd
    if 0 < y then (if odd then x else x.abs)
    else if y == 0 then 1.0
    else if odd && x < 0 then -0.0 else 0.0
  else if x.abs == 1 then 1.0
  else if 0 < y && 1 < x.abs then y
  else if y < 0 && x.abs < 1 then -y
  else 0.0

/-- A power of a positive double. -/
def powPositive (x y : Dyadic) : Float :=
  if x.sig * Int.pow 2 x.exp.toNat == Int.pow 2 (-x.exp).toNat || y.sig == 0 then 1.0
  else expBounded (scaleBy y (ln x.sig.natAbs x.exp))

/-- A power of doubles. Zero has no negative power, a negative base only integral ones. -/
def pow (x y : Float) : Except NumberError Float :=
  match Dyadic.ofFloat? x, Dyadic.ofFloat? y with
  | some a, some b =>
    if b.sig == 0 then .ok 1.0
    else if a.sig == 0 then
      if b.sig < 0 then .error .domain
      else .ok (if isOdd b then x else 0.0)
    else if a.sig < 0 && !b.isIntegral then .error .domain
    else
      let r := powPositive ⟨a.sig.natAbs, a.exp⟩ b
      if r.isInf then .error .range
      else .ok (if a.sig < 0 && isOdd b then -r else r)
  | _, _ => .ok (powUnbounded x y)

/-! ## Roots -/

/-- The integer square root of a number below `4 ^ fuel`. -/
def isqrt : Nat → Nat → Nat
  | 0, _ => 0
  | fuel + 1, n =>
    let r := 2 * isqrt fuel (n / 4)
    if (r + 1) * (r + 1) ≤ n then r + 1 else r

/-- The square root of `n · 4 ^ exp`, rounded to a double. -/
def rootOf (n : Nat) (exp : Int) : Float :=
  let m := n * Nat.pow 4 80
  let r := isqrt (Nat.log2 m / 2 + 1) m
  let d : Dyadic := ⟨(2 * r + if r * r == m then 0 else 1 : Nat), exp - 81⟩
  d.toFloat

/-- The length of a vector of doubles: the root of the exact sum of squares. -/
def hypot (xs : List Float) : Float :=
  if xs.any Float.isInf then 1.0 / 0.0
  else if xs.any Float.isNaN then 0.0 / 0.0
  else
    let ds := xs.filterMap Dyadic.ofFloat?
    let e := ds.foldl (fun e d => min e d.exp) 0
    rootOf (ds.foldl (fun n d => n + Nat.pow (d.sig.natAbs * Nat.pow 2 (d.exp - e).toNat) 2) 0) e

/-- The root of a non-negative double, or a failure. -/
def sqrt (x : Float) : Except NumberError Float :=
  if x < 0 then .error .domain else .ok x.sqrt

/-- A double rounded to twelve decimal places, a tie to the even last digit. -/
def roundTwelve (x : Float) : Float :=
  match Dyadic.ofFloat? x with
  | none => x
  | some d =>
    let places := Nat.pow 10 12
    if 0 ≤ d.exp then x
    else
      nearestSigned (d.sig < 0) (roundDiv (d.sig.natAbs * places) (Nat.pow 2 (-d.exp).toNat)) places

/-- The power of a non-negative number to a third, rounded to twelve places. -/
def thirdPower (x : Float) : Except NumberError Float :=
  (pow x (1.0 / 3.0)).map roundTwelve

end DiceFormula.Analysis
