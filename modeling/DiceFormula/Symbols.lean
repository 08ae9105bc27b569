import DiceFormula.Error
import DiceFormula.Text.Blank

/-!
# Symbols

A formula may refer to outside data by `@name.sub.0`. A path walks nested mappings, symbol tables
and lists; it must end at something other than nothing or a mapping. `substitute` splices the text
of each value into the formula, negative numbers in parentheses so that the formula stays valid.
-/

namespace DiceFormula

/-! ## Splicing values -/

namespace Value

mutual

/-- The text of a value inside a formula. -/
def splice : Value → String
  | .bool b => if b then "true" else "false"
  | .list vs | .tuple vs => "\x7b" ++ ",".intercalate (spliceAll vs) ++ "\x7d"
  | .num n => if n.isNegative then "(" ++ n.formulaText ++ ")" else n.formulaText
  | .str s => Blank.trimString s
  | .null => "None"
  | .mapping es => Blank.trimString (Value.mapping es).text
  | .table d => Blank.trimString (Value.table d).text

/-- The texts of all items. -/
def spliceAll : List Value → List String
  | [] => []
  | v :: vs => splice v :: spliceAll vs

end

end Value

/-! ## Paths -/

/-- Splits at every dot. -/
def splitDots : List Char → List (List Char)
  | [] => [[]]
  | c :: cs =>
    match splitDots cs with
    | [] => [[]]
    | p :: ps => if c == '.' then [] :: p :: ps else (c :: p) :: ps

namespace Symbols

/-- The data under a symbol table. -/
def unwrap : Value → Value
  | .table d => d
  | v => v

/-- One step of a path. An index that merely looks like digits is out of its domain. -/
def step (path key : String) (node : Value) : Except Error Value :=
  let index (vs : List Value) : Except Error Value :=
    if Digit.allDigits key.toList then
      match Digit.readNat? key.toList with
      | none => .error .wrongValue
      | some i => match vs[i]? with
        | some v => .ok v
        | none => .error (.unknownSymbol path)
    else .error (.unknownSymbol path)
  match node with
  | .mapping es => match es.lookup key with
    | some v => .ok v
    | none => .error (.unknownSymbol path)
  | .list vs => index vs
  | .tuple vs => index vs
  | _ => .error (.unknownSymbol path)

/-- Follows the keys of a path. -/
def walk (path : String) : Value → List String → Except Error Value
  | node, [] => .ok node
  | node, key :: keys => do walk path (← step path key (unwrap node)) keys

/-- The value at a path. Nothing and mappings are no values of symbols. -/
def lookup (data : Value) (path : String) : Except Error Value := do
  let keys := (splitDots path.toList).map String.ofList
  match unwrap (← walk path data keys) with
  | .null => .error (.unknownSymbol path)
  | .mapping _ => .error (.unknownSymbol path)
  | v => .ok v

/-- Whether a path has a value. Failures other than an unknown symbol are passed on. -/
def contains (data : Value) (path : String) : Except Error Bool :=
  match lookup data path with
  | .ok _ => .ok true
  | .error (.unknownSymbol _) => .ok false
  | .error e => .error e

/-! ## Substitution -/

/-- A character of a symbol name. -/
def isNameChar (c : Char) : Bool := c.isAlphanum || c == '_' || c == '-'

/-- The longest path at the front: names joined by single dots. `fuel` bounds its length. -/
def takePath : Nat → List Char → List Char × List Char
  | 0, cs => ([], cs)
  | fuel + 1, cs =>
    let name := cs.takeWhile isNameChar
    let rest := cs.drop name.length
    if name.isEmpty then ([], cs)
    else
      match rest with
      | '.' :: r =>
        match takePath fuel r with
        | ([], _) => (name, rest)
        | (more, r') => (name ++ '.' :: more, r')
      | _ => (name, rest)

/-- Replaces every `@path` by the text of its value; `fuel` bounds the length of the text. -/
def substituteFrom (data : Value) : Nat → List Char → Except Error (List Char)
  | _, [] => .ok []
  | 0, cs => .ok cs
  | fuel + 1, c :: cs =>
    if c == '@' then
      match takePath (cs.length + 1) cs with
      | ([], _) => do return c :: (← substituteFrom data fuel cs)
      | (path, rest) => do
        let v ← lookup data (String.ofList path)
        return v.splice.toList ++ (← substituteFrom data fuel rest)
    else do return c :: (← substituteFrom data fuel cs)

/-- Replaces every `@path` of a formula by the text of its value. -/
def substitute (data : Value) (formula : String) : Except Error String := do
  let cs := formula.toList
  return String.ofList (← substituteFrom data cs.length cs)

/-- The data that symbols are looked up in; without data there are none. -/
def tableOf : Value → Value
  | .null => .mapping []
  | .table d => d
  | v => v

end Symbols

end DiceFormula
