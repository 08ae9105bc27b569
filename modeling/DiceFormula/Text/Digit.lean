import DiceFormula.Text.Toggle

/-!
# Digits of all scripts

A *decimal digit* has a place value and can be read as part of a number; the *digit forms*
(superscripts, circled and counting-rod digits) merely look like one. `isDigit` accepts both, so a
text of digits is not always a number: `readNat?` says when it is.
-/

namespace DiceFormula.Digit

/-- The zeros of all decimal digit runs (Unicode 14); nine successors follow each. -/
def zeros : List Nat := [
   48, 1632, 1776, 1984, 2406, 2534, 2662, 2790, 2918, 3046, 3174, 3302, 3430, 3558, 3664, 3792,
   3872, 4160, 4240, 6112, 6160, 6470, 6608, 6784, 6800, 6992, 7088, 7232, 7248, 42528, 43216,
   43264, 43472, 43504, 43600, 44016, 65296, 66720, 68912, 69734, 69872, 69942, 70096, 70384,
   70736, 70864, 71248, 71360, 71472, 71904, 72016, 72784, 73040, 73120, 92768, 92864, 93008,
   120782, 120792, 120802, 120812, 120822, 123200, 123632, 125264, 130032]

/-- Boundaries of the digit forms that have no place value. -/
def formBoundaries : List Nat := [
   178, 180, 185, 186, 4969, 4978, 6618, 6619, 8304, 8305, 8308, 8314, 8320, 8330, 9312, 9321,
   9332, 9341, 9352, 9361, 9450, 9451, 9461, 9470, 9471, 9472, 10102, 10111, 10112, 10121, 10122,
   10131, 68160, 68164, 69216, 69225, 69714, 69723, 127232, 127243]

/-- The place value of a decimal digit of any script. -/
def value? (c : Char) : Option Nat :=
  if c.isDigit then some (c.toNat - 48)
  else if c.toNat < 128 then none
  else (zeros.find? fun z => z ≤ c.toNat && c.toNat < z + 10).map (c.toNat - ·)

/-- A decimal digit or a digit form. -/
def isDigit (c : Char) : Bool :=
  (value? c).isSome || Toggle.mem formBoundaries c

/-- A text of one or more digits or digit forms. -/
def allDigits (cs : List Char) : Bool := !cs.isEmpty && cs.all isDigit

/-- The number written by decimal digits after the digits of `acc`. -/
def readFrom? (acc : Nat) : List Char → Option Nat
  | [] => some acc
  | c :: cs => (value? c).bind fun d => readFrom? (10 * acc + d) cs

/-- The number that a text of decimal digits writes; digit forms have none. -/
def readNat? (cs : List Char) : Option Nat :=
  if cs.isEmpty then none else readFrom? 0 cs

/-- The decimal digits of `n`. -/
def ofNat (n : Nat) : List Char := Nat.toDigits 10 n

end DiceFormula.Digit
