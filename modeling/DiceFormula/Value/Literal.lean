import DiceFormula.Text.Digit
import DiceFormula.Text.Printable
import DiceFormula.Value.Basic

/-!
# Values as text

`Value.literal` writes a value as a message shows it: texts are quoted, with single quotes unless
only single quotes occur inside, and everything unprintable is escaped. `Value.text` differs only
for a text by itself, which it leaves as it is.
-/

namespace DiceFormula

/-- The number `n` in hexadecimal, at least `width` digits. -/
def hexText (width n : Nat) : List Char :=
  let ds := Nat.toDigits 16 n
  List.replicate (width - ds.length) '0' ++ ds

namespace Quoted

/-- A code point inside quotes `quote`. -/
def escape (quote : Char) (n : Nat) : List Char :=
  let c := Char.ofNat n
  if Surrogate.isHalf n then '\\' :: 'u' :: hexText 4 n
  else if c == quote || c == '\\' then ['\\', c]
  else if c == '\n' then ['\\', 'n']
  else if c == '\r' then ['\\', 'r']
  else if c == '\t' then ['\\', 't']
  else if Printable.isPrintable c then [c]
  else if n < 0x100 then '\\' :: 'x' :: hexText 2 n
  else if n < 0x10000 then '\\' :: 'u' :: hexText 4 n
  else '\\' :: 'U' :: hexText 8 n

/-- The quotes used around `cs`. -/
def quoteFor (cs : List Char) : Char :=
  if cs.contains '\'' && !cs.contains '"' then '"' else '\''

/-- A text in quotes. -/
def encode (cs : List Char) : List Char :=
  let q := quoteFor cs
  q :: (Surrogate.points cs).flatMap (escape q) ++ [q]

end Quoted

/-- A string in quotes. -/
def quoted (s : String) : String := String.ofList (Quoted.encode s.toList)

namespace Value

mutual

/-- The value as a message shows it. -/
def literal : Value → String
  | .null => "None"
  | .bool true => "True"
  | .bool false => "False"
  | .num n => n.text
  | .str s => quoted s
  | .list vs => "[" ++ ", ".intercalate (literals vs) ++ "]"
  | .tuple [v] => "(" ++ literal v ++ ",)"
  | .tuple vs => "(" ++ ", ".intercalate (literals vs) ++ ")"
  | .mapping es => "\x7b" ++ ", ".intercalate (entryLiterals es) ++ "\x7d"
  | .table d => "SymbolTable(" ++ literal d ++ ")"

/-- Every item as a message shows it. -/
def literals : List Value → List String
  | [] => []
  | v :: vs => literal v :: literals vs

/-- Every entry as a message shows it. -/
def entryLiterals : List (String × Value) → List String
  | [] => []
  | (k, v) :: es => (quoted k ++ ": " ++ literal v) :: entryLiterals es

end

/-- The value as running text. -/
def text : Value → String
  | .str s => s
  | v => v.literal

/-- The value as formula text: a double that is an integer loses its point. -/
def formulaText : Value → String
  | .num n => n.formulaText
  | v => v.text

end Value

end DiceFormula
