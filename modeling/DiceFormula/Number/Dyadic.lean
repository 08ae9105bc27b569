/-!
# Doubles as exact numbers

A finite double is `sig · 2 ^ exp` for integers `sig` and `exp`. `Dyadic.ofFloat?` reads that form
off the bits, and `nearest` goes back: it rounds a ratio of naturals to the nearest double, a tie
to the even significand. Every exact operation of the library computes in integers and rounds once.
-/

namespace DiceFormula

/-- The number `sig · 2 ^ exp`. -/
structure Dyadic where
  sig : Int
  exp : Int
  deriving DecidableEq, Repr

/-- The quotient of `num` and `den` rounded to the nearest natural, a tie to the even one. -/
def roundDiv (num den : Nat) : Nat :=
  let q := num / den
  let r := num % den
  if 2 * r < den || (2 * r == den && q % 2 == 0) then q else q + 1

theorem roundDiv_mul (q den : Nat) (h : 0 < den) : roundDiv (q * den) den = q := by
  simp [roundDiv, Nat.mul_div_cancel _ h, h]

namespace Dyadic

/-- The exact value of a double; infinities and the undefined value have none. -/
def ofFloat? (x : Float) : Option Dyadic :=
  let bits := x.toBits.toNat
  let field := bits / Nat.pow 2 52 % 2048
  let frac := bits % Nat.pow 2 52
  let sig : Nat := if field == 0 then frac else frac + Nat.pow 2 52
  let exp : Int := (if field == 0 then 1 else field : Nat) - 1075
  if field == 2047 then none
  else some ⟨if bits / Nat.pow 2 63 == 1 then -(sig : Int) else sig, exp⟩

/-- The floor of the value. -/
def floor (d : Dyadic) : Int :=
  if 0 ≤ d.exp then d.sig * Int.pow 2 d.exp.toNat else d.sig.fdiv (Int.pow 2 (-d.exp).toNat)

/-- The ceiling of the value. -/
def ceil (d : Dyadic) : Int :=
  if 0 ≤ d.exp then d.sig * Int.pow 2 d.exp.toNat
  else -((-d.sig).fdiv (Int.pow 2 (-d.exp).toNat))

/-- The value without its fractional part. -/
def trunc (d : Dyadic) : Int :=
  if 0 ≤ d.exp then d.sig * Int.pow 2 d.exp.toNat else d.sig.tdiv (Int.pow 2 (-d.exp).toNat)

/-- Whether the value is an integer. -/
def isIntegral (d : Dyadic) : Bool :=
  0 ≤ d.exp || d.sig % Int.pow 2 (-d.exp).toNat == 0

/-- How an integer compares with the value. -/
def compareInt (n : Int) (d : Dyadic) : Ordering :=
  if 0 ≤ d.exp then compare n (d.sig * Int.pow 2 d.exp.toNat)
  else compare (n * Int.pow 2 (-d.exp).toNat) d.sig

end Dyadic

/-! ## Rounding to a double -/

/-- The double `sig · 2 ^ exp` for `sig ≤ 2 ^ 53` and `-1074 ≤ exp`, where `sig` has 53 bits unless
`exp` is the least exponent; too large a value is infinite. -/
def ofSignificand (sig : Nat) (exp : Int) : Float :=
  let hidden := Nat.pow 2 52
  let bits := if sig < hidden then sig else (exp + 1075).toNat * hidden + (sig - hidden)
  Float.ofBits (UInt64.ofNat (min bits (2047 * hidden)))

/-- The power of two that is the last place of the double nearest to `num / den`. -/
def lastPlace (num den : Nat) : Int :=
  let e : Int := (Nat.log2 num : Int) - (Nat.log2 den : Int) - 53
  let wide := if 0 ≤ e then num / (den * Nat.pow 2 e.toNat) else num * Nat.pow 2 (-e).toNat / den
  max (if Nat.pow 2 53 ≤ wide then e + 1 else e) (-1074)

/-- The double nearest to `num / den`, a tie to the even significand; infinite beyond the range. -/
def nearest (num den : Nat) : Float :=
  if num == 0 then 0.0
  else
    let e := lastPlace num den
    ofSignificand
      (if 0 ≤ e then roundDiv num (den * Nat.pow 2 e.toNat)
        else roundDiv (num * Nat.pow 2 (-e).toNat) den) e

/-- The nearest double with a sign. -/
def nearestSigned (negative : Bool) (num den : Nat) : Float :=
  if negative then -nearest num den else nearest num den

/-- The double nearest to `d`. -/
def Dyadic.toFloat (d : Dyadic) : Float :=
  if 0 ≤ d.exp then nearestSigned (d.sig < 0) (d.sig.natAbs * Nat.pow 2 d.exp.toNat) 1
  else nearestSigned (d.sig < 0) d.sig.natAbs (Nat.pow 2 (-d.exp).toNat)

end DiceFormula
