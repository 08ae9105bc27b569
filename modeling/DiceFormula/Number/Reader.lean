import DiceFormula.Number.Basic
import DiceFormula.Text.Blank
import DiceFormula.Text.Digit

/-!
# Reading numbers

An integer is an optional sign and decimal digits of any script, single underscores allowed between
digits. A decimal may also have a point, an exponent, or be an infinity or the undefined value by
name. White space around either is ignored.
-/

namespace DiceFormula

/-- A digit of any script as its ASCII form, other characters unchanged. -/
def asciiDigit (c : Char) : Char :=
  match Digit.value? c with
  | some d => Char.ofNat (48 + d)
  | none => c

/-- Drops the underscores of `cs`, each of which must stand between two digits; `after` says that
the character before is a digit. -/
def dropUnderscores? (after : Bool) : List Char → Option (List Char)
  | [] => some []
  | '_' :: c :: cs =>
    if after && c.isDigit then (dropUnderscores? true cs).map (c :: ·) else none
  | c :: cs => if c == '_' then none else (dropUnderscores? c.isDigit cs).map (c :: ·)

/-- The sign of a numeral and what follows it; `true` is a minus. -/
def splitSign : List Char → Bool × List Char
  | '-' :: cs => (true, cs)
  | '+' :: cs => (false, cs)
  | cs => (false, cs)

/-- The integer that a text writes. -/
def readInt? (cs : List Char) : Option Int :=
  let (minus, body) := splitSign (Blank.trim (cs.map asciiDigit))
  (dropUnderscores? false body).bind fun ds =>
    (Digit.readNat? ds).map fun n => if minus then -(n : Int) else n

/-- The double nearest to `coeff · 10 ^ exp`. -/
def decimalToFloat (coeff : Nat) (exp : Int) : Float :=
  let top := (Nat.toDigits 10 coeff).length + exp
  if coeff == 0 || top < -330 then 0.0
  else if 310 < top then 1.0 / 0.0
  else if 0 ≤ exp then nearest (coeff * Nat.pow 10 exp.toNat) 1
  else nearest coeff (Nat.pow 10 (-exp).toNat)

/-- The value of ASCII digits. -/
def digitsValue (ds : List Char) : Nat := ds.foldl (fun n c => 10 * n + (c.toNat - 48)) 0

/-- The exponent part of a decimal: nothing, or a mark, an optional sign and digits. -/
def readExponent? : List Char → Option Int
  | [] => some 0
  | c :: cs =>
    if c == 'e' || c == 'E' then
      let (minus, ds) := splitSign cs
      if ds.isEmpty || !ds.all Char.isDigit then none
      else some (if minus then -(digitsValue ds : Int) else digitsValue ds)
    else none

/-- An unsigned decimal of ASCII digits, with an optional point and exponent. -/
def readDecimal? (cs : List Char) : Option Float :=
  let whole := cs.takeWhile Char.isDigit
  let rest := cs.dropWhile Char.isDigit
  let (frac, rest) :=
    match rest with
    | '.' :: r => (r.takeWhile Char.isDigit, r.dropWhile Char.isDigit)
    | r => ([], r)
  if whole.isEmpty && frac.isEmpty then none
  else
    (readExponent? rest).map fun e =>
      decimalToFloat (digitsValue (whole ++ frac)) (e - frac.length)

/-- The double that a text writes. -/
def readFloat? (cs : List Char) : Option Float :=
  let (minus, body) := splitSign (Blank.trim (cs.map asciiDigit))
  let name := String.ofList (body.map Char.toLower)
  let size :=
    if name == "inf" || name == "infinity" then some (1.0 / 0.0)
    else if name == "nan" then some (0.0 / 0.0)
    else (dropUnderscores? false body).bind readDecimal?
  size.map fun x => if minus then -x else x

end DiceFormula
