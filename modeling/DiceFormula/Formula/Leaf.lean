import DiceFormula.Formula.Token
import DiceFormula.Modifier.Text
import DiceFormula.Term.Text

/-!
# Leaves of a formula

A leaf is a token without groups: an operator, a number such as `3`, or dice such as `4d6kh3`. What
is none of these stays a text, to be joined with its neighbours later. Numbers and dice may have a
flavor, and a line break at the end of a leaf is overlooked.
-/

namespace DiceFormula.Leaf

/-- A flavor that is not empty at the front. -/
def takeFlavor (cs : List Char) : Option (List Char) × List Char :=
  match cs with
  | '[' :: r =>
    match Atom.cutFlavor? r with
    | some (c :: body, rest) => (some (c :: body), rest)
    | _ => (none, cs)
  | _ => (none, cs)

/-- Whether a text is at its end: nothing follows but a line break. -/
def isEnd (cs : List Char) : Bool := cs == [] || cs == ['\n']

/-- A number with its flavor: digits, perhaps with a point and more digits. -/
def readNumeral? (cs : List Char) : Option (Number × Option (List Char)) :=
  let whole := cs.takeWhile Char.isDigit
  let rest := cs.drop whole.length
  let (text, rest) := match rest with
    | '.' :: r =>
      let frac := r.takeWhile Char.isDigit
      if frac.isEmpty then (whole, rest) else (whole ++ '.' :: frac, r.drop frac.length)
    | _ => (whole, rest)
  let (flavor, rest) := takeFlavor rest
  if whole.isEmpty || !isEnd rest then none
  else some (Arithmetic.Token.numeralValue text, flavor)

/-- Whether a character may stand among the modifiers of dice. -/
def isModifierChar (c : Char) : Bool :=
  !(c == ' ' || c == '(' || c == ')' || c == '\x7b' || c == '\x7d' || c == '[' || c == ']'
    || c == '+' || c == '-' || c == '*' || c == '/')

/-- Dice as they are written: `4d6kh3[fire]`. -/
structure DiceText where
  number : Option Nat
  denomination : List Char
  modifiers : List Char
  flavor : Option (List Char)
  /-- The whole text without an overlooked line break. -/
  whole : List Char
  deriving DecidableEq, Repr

/-- A denomination at the front: digits, or one letter. -/
def takeDenomination? (cs : List Char) : Option (List Char × List Char) :=
  match cs with
  | [] => none
  | c :: r =>
    if c.isDigit then
      let ds := cs.takeWhile Char.isDigit
      some (ds, cs.drop ds.length)
    else if c.isAlpha then some ([c], r)
    else none

/-- Reads dice. -/
def readDice? (cs : List Char) : Option DiceText :=
  let (number, rest) := Modifier.takeNumber cs
  match rest with
  | d :: rest =>
    if d == 'd' || d == 'D' then
      (takeDenomination? rest).bind fun (denomination, rest) =>
        let modifiers := rest.takeWhile isModifierChar
        let (flavor, rest) := takeFlavor (rest.drop modifiers.length)
        if isEnd rest then
          some { number, denomination, modifiers, flavor
                 whole := cs.take (cs.length - rest.length) }
        else none
    else none
  | [] => none

/-- A term of some text. -/
def textTerm (cs : List Char) (config : Config) : Term :=
  .make (.text (.str (String.ofList cs))) [] config

/-- The number of faces of a kind of dice, where a text names one. -/
def facesOf (kind : DiceKind) (named : Option Nat) : Value :=
  match kind with
  | .die => (named.map fun n => Value.int n).getD .null
  | .coin => .int 2
  | .fate => .int 3

/-- The term of some dice. A denomination nobody knows, or the numeric die without a number of
faces, is left as text; one that does not make dice is refused. -/
def ofDice (t : DiceText) (config : Config) : Except Error Term :=
  let name := String.ofList t.denomination
  let named := Digit.readNat? t.denomination
  match config.denomination? name with
  | none => .ok (textTerm t.whole config)
  | some c =>
    if named.isNone && c == config.numericDie then .ok (textTerm t.whole config)
    else
      match c with
      | .dice kind =>
        let hand : Hand := { modifiers := Modifier.splitValues (String.ofList t.modifiers) }
        let number := Value.int (t.number.getD 1)
        .ok (.make (.dice { kind, number, faces := facesOf kind named, hand })
          (Options.ofFlavor t.flavor) config)
      | _ => .error (.invalidArgument (.notDice name))

/-- Classifies a leaf. A leaf that is `adjacent` to a group is part of something that is only known
once the group is evaluated, as in `(1d4)d6`: it stays a text, and a number is refused. -/
def classify (text : String) (config : Config) (adjacent : Bool) : Except Error Term :=
  let cs := text.toList
  match cs with
  | [c] =>
    match Arithmetic.Sign.ofChar? c with
    | some s => .ok (.make (.operator s) [] config)
    | none => leaf cs
  | [c, '\n'] =>
    if (Arithmetic.Sign.ofChar? c).isSome then
      .error (.invalidArgument (.unknownOperator (.str text)))
    else leaf cs
  | _ => leaf cs
where
  /-- Classifies a leaf that is not an operator. -/
  leaf (cs : List Char) : Except Error Term :=
    match readNumeral? cs with
    | some (n, flavor) =>
      if adjacent then .error (.parse (.numberBesideGroup text))
      else .ok (.make (.number n) (Options.ofFlavor flavor) config)
    | none =>
      match readDice? cs with
      | some t => if adjacent then .ok (textTerm cs config) else ofDice t config
      | none => .ok (textTerm cs config)

end DiceFormula.Leaf
