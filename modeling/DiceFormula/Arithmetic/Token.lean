import DiceFormula.Number.Reader

/-!
# Tokens of plain arithmetic

A token is an operator, a bracket, or a numeral: digits with an optional point and an optional
exponent, read as far as possible. Blanks and tabs between tokens are dropped; any other character
has no token.
-/

namespace DiceFormula.Arithmetic

/-- The signs of plain arithmetic. -/
inductive Sign
  | plus | minus | times | divide | modulo
  deriving DecidableEq, Repr

/-- The character of a sign. -/
def Sign.char : Sign → Char
  | .plus => '+'
  | .minus => '-'
  | .times => '*'
  | .divide => '/'
  | .modulo => '%'

/-- A token. -/
inductive Token
  | sign (s : Sign)
  | openParen
  | closeParen
  | numeral (text : List Char)
  deriving DecidableEq, Repr

namespace Token

/-- An exponent at the front: a mark, an optional sign and at least one digit. -/
def takeExponent : List Char → List Char × List Char
  | [] => ([], [])
  | m :: cs =>
    if m == 'e' || m == 'E' then
      let (lead, rest) := match cs with
        | c :: r => if c == '+' || c == '-' then ([c], r) else ([], cs)
        | [] => ([], [])
      let ds := rest.takeWhile Char.isDigit
      if ds.isEmpty then ([], m :: cs) else (m :: lead ++ ds, rest.drop ds.length)
    else ([], m :: cs)

/-- The longest numeral at the front of `cs`, and what follows it. -/
def takeNumeral? (cs : List Char) : Option (List Char × List Char) :=
  let whole := cs.takeWhile Char.isDigit
  let rest := cs.drop whole.length
  let (point, rest) := match rest with
    | '.' :: r =>
      let frac := r.takeWhile Char.isDigit
      if whole.isEmpty && frac.isEmpty then ([], rest) else ('.' :: frac, r.drop frac.length)
    | r => ([], r)
  if whole.isEmpty && point.isEmpty then none
  else
    let (exponent, rest) := takeExponent rest
    some (whole ++ point ++ exponent, rest)

/-- The token that a single character is by itself. -/
def ofChar? : Char → Option Token
  | '+' => some (.sign .plus)
  | '-' => some (.sign .minus)
  | '*' => some (.sign .times)
  | '/' => some (.sign .divide)
  | '%' => some (.sign .modulo)
  | '(' => some .openParen
  | ')' => some .closeParen
  | _ => none

/-- Splits a text into tokens; `fuel` bounds its length. -/
def scanFrom : Nat → List Char → Option (List Token)
  | _, [] => some []
  | 0, _ :: _ => none
  | fuel + 1, c :: cs =>
    if c == ' ' || c == '\t' then scanFrom fuel cs
    else
      match ofChar? c with
      | some t => (scanFrom fuel cs).map (t :: ·)
      | none =>
        (takeNumeral? (c :: cs)).bind fun (n, rest) => (scanFrom fuel rest).map (.numeral n :: ·)

/-- The tokens of a text, if every character belongs to one. -/
def scan (cs : List Char) : Option (List Token) := scanFrom cs.length cs

/-- The number that a numeral writes: an integer, or a double if it has a point or an exponent. -/
def numeralValue (text : List Char) : Number :=
  if text.all Char.isDigit then .int (digitsValue text)
  else .float ((readDecimal? text).getD 0.0)

end Token

end DiceFormula.Arithmetic
