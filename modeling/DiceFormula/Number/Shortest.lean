import DiceFormula.Number.Dyadic

/-!
# The shortest decimal of a double

`Decimal.shortest` finds the fewest significant digits that round back to a double, and among those
the digits nearest to it. `Decimal.layout` writes digits and exponent: positional from `1e-4` up to
below `1e16`, with a point and at least one digit after it, and in exponent form elsewhere.
-/

namespace DiceFormula

/-- The number `coeff · 10 ^ exp`. -/
structure Decimal where
  coeff : Nat
  exp : Int
  deriving DecidableEq, Repr

namespace Decimal

/-- A positive double seen on a common integer scale: `value`, and the ends `low` and `high` of the
interval that rounds to it, each times `10 ^ exp`; `closed` says whether the ends round to it. -/
structure Interval where
  low : Nat
  value : Nat
  high : Nat
  exp : Int
  closed : Bool

/-- The rounding interval of the positive double `sig · 2 ^ exp`. -/
def interval (sig : Nat) (exp : Int) : Interval :=
  let down := if sig == Nat.pow 2 52 && -1074 < exp then 1 else 2
  let scale := if 0 ≤ exp - 2 then Nat.pow 2 (exp - 2).toNat else Nat.pow 5 (2 - exp).toNat
  { low := (4 * sig - down) * scale, value := 4 * sig * scale, high := (4 * sig + 2) * scale,
    exp := min (exp - 2) 0, closed := sig % 2 == 0 }

/-- Whether `n` on the scale of `i` rounds to the double. -/
def Interval.contains (i : Interval) (n : Nat) : Bool :=
  if i.closed then i.low ≤ n && n ≤ i.high else i.low < n && n < i.high

/-- The better of the two neighbours of the value among the multiples of `unit`, if one rounds to
the double. -/
def Interval.pick (i : Interval) (unit : Nat) : Option Nat :=
  let below := i.value / unit
  let above := below + 1
  match i.contains (below * unit), i.contains (above * unit) with
  | true, true =>
    let down := i.value - below * unit
    let up := above * unit - i.value
    if down < up || (down == up && below % 2 == 0) then some below else some above
  | true, false => some below
  | false, true => some above
  | false, false => none

/-- The first decimal place, counted from `places` digits below the leading one upwards, whose grid
holds a number that rounds to the double. -/
def search (i : Interval) (length : Nat) : Nat → Nat → Decimal
  | _, 0 => ⟨i.value, i.exp⟩
  | count, fuel + 1 =>
    let drop := length - count
    match i.pick (Nat.pow 10 drop) with
    | some c => ⟨c, i.exp + drop⟩
    | none => search i length (count + 1) fuel

/-- The shortest decimal that rounds to the positive double `sig · 2 ^ exp`. Seventeen digits always
suffice. -/
def shortest (sig : Nat) (exp : Int) : Decimal :=
  let i := interval sig exp
  search i (Nat.toDigits 10 i.value).length 1 17

/-! ## Layout -/

/-- An exponent: a sign and at least two digits. -/
def exponentText (e : Int) : List Char :=
  let ds := Nat.toDigits 10 e.natAbs
  (if e < 0 then '-' else '+') :: (if ds.length < 2 then '0' :: ds else ds)

/-- Digits without trailing zeros. -/
def stripZeros (ds : List Char) : List Char := (ds.reverse.dropWhile (· == '0')).reverse

/-- The text of a positive decimal. -/
def layout (d : Decimal) : List Char :=
  let ds := stripZeros (Nat.toDigits 10 d.coeff)
  let top : Int := d.exp + ((Nat.toDigits 10 d.coeff).length : Int) - 1
  if top < -4 || 16 ≤ top then
    match ds with
    | [] => []
    | c :: [] => c :: 'e' :: exponentText top
    | c :: cs => c :: '.' :: cs ++ 'e' :: exponentText top
  else if top < 0 then
    '0' :: '.' :: List.replicate (-1 - top).toNat '0' ++ ds
  else
    let whole := top.toNat + 1
    if ds.length ≤ whole then ds ++ List.replicate (whole - ds.length) '0' ++ ['.', '0']
    else ds.take whole ++ '.' :: ds.drop whole

end Decimal

/-- The text of a double: its shortest decimal, or `inf`, `-inf`, `nan`. -/
def floatText (x : Float) : String :=
  match Dyadic.ofFloat? x with
  | none => if x.isNaN then "nan" else if x < 0 then "-inf" else "inf"
  | some d =>
    let sign := if x.toBits.toNat / Nat.pow 2 63 == 1 then ['-'] else []
    if d.sig == 0 then String.ofList (sign ++ ['0', '.', '0'])
    else String.ofList (sign ++ (Decimal.shortest d.sig.natAbs d.exp).layout)

end DiceFormula
