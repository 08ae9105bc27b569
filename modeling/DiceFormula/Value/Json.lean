import DiceFormula.Number.Reader
import DiceFormula.Value.Literal

/-!
# Values as JSON text

`Json.write` prints a value on one line with a space after every comma and colon,
`Json.writeIndented` on indented lines. All characters beyond printable ASCII are escaped, and an
escape may name half of a surrogate pair. The
undefined double and the infinities are written by name, and `Json.read?` reads them back.
-/

namespace DiceFormula.Json

/-- A 16-bit code unit as an escape. -/
def unitEscape (n : Nat) : List Char := '\\' :: 'u' :: hexText 4 n

/-- A code point inside a JSON text. -/
def escape (n : Nat) : List Char :=
  let c := Char.ofNat n
  if c == '"' || c == '\\' then ['\\', c]
  else if c == '\n' then ['\\', 'n']
  else if c == '\r' then ['\\', 'r']
  else if c == '\t' then ['\\', 't']
  else if n == 8 then ['\\', 'b']
  else if n == 12 then ['\\', 'f']
  else if 32 ≤ n && n ≤ 126 then [c]
  else if n < 0x10000 then unitEscape n
  else unitEscape (0xd800 + (n - 0x10000) / 0x400) ++ unitEscape (0xdc00 + (n - 0x10000) % 0x400)

/-- A text in JSON quotes. -/
def text (s : String) : String :=
  String.ofList ('"' :: (Surrogate.points s.toList).flatMap escape ++ ['"'])

/-- A number in JSON. -/
def number : Number → String
  | .int n => toString n
  | .float x =>
    if x.isNaN then "NaN"
    else if x.isInf then (if x < 0 then "-Infinity" else "Infinity")
    else floatText x

mutual

/-- A value on one line. -/
def write : Value → String
  | .null => "null"
  | .bool b => if b then "true" else "false"
  | .num n => number n
  | .str s => text s
  | .list vs | .tuple vs => "[" ++ ", ".intercalate (writeAll vs) ++ "]"
  | .mapping es => "\x7b" ++ ", ".intercalate (writeEntries es) ++ "\x7d"
  | .table d => write d

/-- Every item on one line. -/
def writeAll : List Value → List String
  | [] => []
  | v :: vs => write v :: writeAll vs

/-- Every entry on one line. -/
def writeEntries : List (String × Value) → List String
  | [] => []
  | (k, v) :: es => (text k ++ ": " ++ write v) :: writeEntries es

end

/-- A line break followed by `depth` steps of indentation. -/
def newline (depth : Nat) : String := String.ofList ('\n' :: List.replicate (2 * depth) ' ')

/-- Parts on lines of their own inside brackets. -/
def block (opening closing : String) (depth : Nat) (parts : List String) : String :=
  if parts.isEmpty then opening ++ closing
  else opening ++ newline (depth + 1) ++ ("," ++ newline (depth + 1)).intercalate parts
    ++ newline depth ++ closing

mutual

/-- A value on indented lines. -/
def writeIndentedAt (depth : Nat) : Value → String
  | .list vs | .tuple vs => block "[" "]" depth (indentAll (depth + 1) vs)
  | .mapping es => block "\x7b" "\x7d" depth (indentEntries (depth + 1) es)
  | v => write v

/-- Every item on indented lines. -/
def indentAll (depth : Nat) : List Value → List String
  | [] => []
  | v :: vs => writeIndentedAt depth v :: indentAll depth vs

/-- Every entry on indented lines. -/
def indentEntries (depth : Nat) : List (String × Value) → List String
  | [] => []
  | (k, v) :: es => (text k ++ ": " ++ writeIndentedAt depth v) :: indentEntries depth es

end

/-- A value on indented lines, two spaces a step. -/
def writeIndented (v : Value) : String := writeIndentedAt 0 v

/-! ## Reading -/

/-- Skips the white space of JSON. -/
def skip (cs : List Char) : List Char :=
  cs.dropWhile fun c => c == ' ' || c == '\t' || c == '\n' || c == '\r'

/-- The value of a hexadecimal digit. -/
def hexValue? (c : Char) : Option Nat :=
  let n := c.toNat
  if 48 ≤ n && n ≤ 57 then some (n - 48)
  else if 97 ≤ n && n ≤ 102 then some (n - 87)
  else if 65 ≤ n && n ≤ 70 then some (n - 55)
  else none

/-- Four hexadecimal digits. -/
def hex4? : List Char → Option (Nat × List Char)
  | a :: b :: c :: d :: cs => do
    let w ← hexValue? a
    let x ← hexValue? b
    let y ← hexValue? c
    let z ← hexValue? d
    return (((w * 16 + x) * 16 + y) * 16 + z, cs)
  | _ => none

/-- The low half of a surrogate pair, if it is next. -/
def lowHalf? (cs : List Char) : Option (Nat × List Char) :=
  match cs with
  | '\\' :: 'u' :: r =>
    match hex4? r with
    | some (low, r) => if 0xdc00 ≤ low && low ≤ 0xdfff then some (low, r) else none
    | none => none
  | _ => none

/-- The code point of a code unit, joined with the low half that follows a high one. -/
def joinUnits (unit : Nat) (cs : List Char) : Nat × List Char :=
  if 0xd800 ≤ unit && unit ≤ 0xdbff then
    match lowHalf? cs with
    | some (low, r) => (0x10000 + (unit - 0xd800) * 0x400 + (low - 0xdc00), r)
    | none => (unit, cs)
  else (unit, cs)

/-- The simple escapes. -/
def simpleEscape? (c : Char) : Option Char :=
  if c == '"' || c == '\\' || c == '/' then some c
  else if c == 'n' then some '\n'
  else if c == 't' then some '\t'
  else if c == 'r' then some '\r'
  else if c == 'b' then some (Char.ofNat 8)
  else if c == 'f' then some (Char.ofNat 12)
  else none

/-- The rest of a text after its opening quote; `fuel` bounds its length. -/
def readText? : Nat → List Char → Option (List Char × List Char)
  | 0, _ => none
  | _ + 1, [] => none
  | fuel + 1, c :: cs =>
    if c == '"' then some ([], cs)
    else if c == '\\' then
      match cs with
      | [] => none
      | 'u' :: r => do
        let (n, r) ← hex4? r
        let (n, r) := joinUnits n r
        let (ds, r) ← readText? fuel r
        return (Surrogate.ofPoint n ++ ds, r)
      | e :: r => do
        let d ← simpleEscape? e
        let (ds, r) ← readText? fuel r
        return (d :: ds, r)
    else if c.toNat < 32 then none
    else (readText? fuel cs).map fun (ds, r) => (c :: ds, r)

/-- Whether digits are the whole part of a JSON number: no leading zero but zero itself. -/
def wholePart (ds : List Char) : Bool :=
  match ds with
  | [] => false
  | ['0'] => true
  | c :: _ => c != '0'

/-- An unsigned number. Digits after a leading zero are left over. -/
def readNumber? (minus : Bool) (cs : List Char) : Option (Number × List Char) :=
  let run := cs.takeWhile Char.isDigit
  let whole := match run with
    | '0' :: _ => ['0']
    | ds => ds
  let rest := cs.drop whole.length
  if !wholePart whole then none
  else
    let (frac, rest) := match rest with
      | '.' :: r =>
        let ds := r.takeWhile Char.isDigit
        if ds.isEmpty then ([], rest) else ('.' :: ds, r.drop ds.length)
      | r => ([], r)
    let (mark, rest) := match rest with
      | c :: r =>
        if c == 'e' || c == 'E' then
          let (sign, ds) := match r with
            | '-' :: q => (['-'], q.takeWhile Char.isDigit)
            | '+' :: q => (['+'], q.takeWhile Char.isDigit)
            | q => ([], q.takeWhile Char.isDigit)
          if ds.isEmpty then ([], rest) else (c :: sign ++ ds, r.drop (sign.length + ds.length))
        else ([], rest)
      | [] => ([], rest)
    if frac.isEmpty && mark.isEmpty then
      let n : Int := digitsValue whole
      some (.int (if minus then -n else n), rest)
    else
      (readDecimal? (whole ++ frac ++ mark)).map fun x => (.float (if minus then -x else x), rest)

/-- Removes `word` from the front. -/
def word? (word : String) (cs : List Char) : Option (List Char) :=
  if word.toList.isPrefixOf cs then some (cs.drop word.length) else none

mutual

/-- A value; `fuel` bounds the number of characters read. -/
def readValue? : Nat → List Char → Option (Value × List Char)
  | 0, _ => none
  | fuel + 1, cs =>
    match cs with
    | [] => none
    | '"' :: r => (readText? (r.length + 1) r).map fun (s, r) => (.str (String.ofList s), r)
    | '[' :: r =>
      match skip r with
      | ']' :: r => some (.list [], r)
      | r => (readItems? fuel r).map fun (vs, r) => (.list vs, r)
    | '\x7b' :: r =>
      match skip r with
      | '\x7d' :: r => some (.mapping [], r)
      | r => (readEntries? fuel [] r).map fun (es, r) => (.mapping es, r)
    | '-' :: r =>
      match word? "Infinity" r with
      | some r => some (.num (.float (-1.0 / 0.0)), r)
      | none => (readNumber? true r).map fun (n, r) => (.num n, r)
    | _ =>
      match word? "null" cs, word? "true" cs, word? "false" cs, word? "NaN" cs,
        word? "Infinity" cs with
      | some r, _, _, _, _ => some (.null, r)
      | _, some r, _, _, _ => some (.bool true, r)
      | _, _, some r, _, _ => some (.bool false, r)
      | _, _, _, some r, _ => some (.num (.float (0.0 / 0.0)), r)
      | _, _, _, _, some r => some (.num (.float (1.0 / 0.0)), r)
      | none, none, none, none, none => (readNumber? false cs).map fun (n, r) => (.num n, r)

/-- The items of a list up to its closing bracket. -/
def readItems? : Nat → List Char → Option (List Value × List Char)
  | 0, _ => none
  | fuel + 1, cs => do
    let (v, r) ← readValue? fuel (skip cs)
    match skip r with
    | ']' :: r => return ([v], r)
    | ',' :: r =>
      let (vs, r) ← readItems? fuel r
      return (v :: vs, r)
    | _ => none

/-- The entries of a mapping up to its closing brace; a later entry replaces an earlier one. -/
def readEntries? :
    Nat → List (String × Value) → List Char → Option (List (String × Value) × List Char)
  | 0, _, _ => none
  | fuel + 1, es, cs =>
    match skip cs with
    | '"' :: r => do
      let (k, r) ← readText? (r.length + 1) r
      match skip r with
      | ':' :: r =>
        let (v, r) ← readValue? fuel (skip r)
        let es := Value.put (String.ofList k) v es
        match skip r with
        | '\x7d' :: r => return (es, r)
        | ',' :: r => readEntries? fuel es r
        | _ => none
      | _ => none
    | _ => none

end

/-- The value that a whole text writes. -/
def read? (s : String) : Option Value :=
  let cs := skip s.toList
  match readValue? (2 * cs.length + 2) cs with
  | some (v, r) => if (skip r).isEmpty then some v else none
  | none => none

end DiceFormula.Json
