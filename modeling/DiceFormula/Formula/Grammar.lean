import DiceFormula.Formula.Leaf
import DiceFormula.Symbols

/-!
# The grammar of formulas

A formula is a sequence of terms in which values and operators alternate; a text that touches a
group or a call without an operator counts as one value with it. Groups, the arguments of calls and
the members of pools are formulas again: they are read to be checked, and kept as text.
-/

namespace DiceFormula.Formula

/-! ## Segments of a token -/

/-- A part of a value token: text without groups, or a group. -/
inductive Segment
  | text (as : List Atom)
  | group (g : Group)
  deriving DecidableEq, Repr

/-- Puts an atom in front of some segments. -/
def Segment.consAtom (a : Atom) : List Segment → List Segment
  | .text as :: ss => .text (a :: as) :: ss
  | ss => .text [a] :: ss

/-- The segments of a value token. -/
def segments : List Piece → List Segment
  | [] => []
  | .atom a :: ps => Segment.consAtom a (segments ps)
  | .group g :: ps => .group g :: segments ps

/-- What may follow a group: the modifiers of a pool, and a flavor. -/
structure Suffix where
  modifiers : List Char := []
  flavor : Option (List Char) := none
  deriving DecidableEq, Repr

/-- Whether a character may stand among the modifiers of a pool. -/
def isPoolModifierChar (c : Char) : Bool := Leaf.isModifierChar c && !(c == '%' || c == ',')

/-- Modifiers and a flavor, either of which may be missing. -/
def poolSuffix? (cs : List Char) : Option Suffix :=
  let modifiers := cs.takeWhile isPoolModifierChar
  let (flavor, rest) := Leaf.takeFlavor (cs.drop modifiers.length)
  if Leaf.isEnd rest then some { modifiers, flavor } else none

/-- A flavor alone. -/
def flavorSuffix? (cs : List Char) : Option Suffix :=
  match Leaf.takeFlavor cs with
  | (some f, rest) => if Leaf.isEnd rest then some { flavor := some f } else none
  | (none, _) => none

/-- The suffix that a text after a group of the given brackets makes, if it is one. -/
def suffix? (b : Bracket) (cs : List Char) : Option Suffix :=
  match b with
  | .brace => poolSuffix? cs
  | .paren => flavorSuffix? cs

/-! ## Validation -/

/-- Whether two neighbours that are not operators will become one term: a text and a group or a call
next to it. -/
def fuses (left right : Term) : Bool :=
  (left.isText && right.isIntermediate) || (left.isIntermediate && right.isText)

/-- Checks that values and operators alternate. -/
def alternate : List Term → Except ParseFault Unit
  | left :: right :: ts =>
    match left.sign?, right.sign? with
    | some a, some b => .error (.adjacentOperators a.char b.char)
    | none, none =>
      if fuses left right then alternate (right :: ts)
      else .error (.missingOperator left.formulaText right.formulaText)
    | _, _ => alternate (right :: ts)
  | _ => .ok ()

/-- Puts a zero in front of a leading sign; other operators cannot lead. -/
def withLeadingZero (config : Config) (ts : List Term) : Except ParseFault (List Term) :=
  match ts.head? with
  | none => .error .emptyExpression
  | some t =>
    match t.sign? with
    | none => .ok ts
    | some s =>
      if s == .plus || s == .minus then .ok (.make (.number 0) [] config :: ts)
      else .error (.startsWith s.char)

/-- Checks the terms of a formula. A leading plus or minus gets a zero in front of it. -/
def validateTerms (config : Config) (ts : List Term) : Except ParseFault (List Term) := do
  let ts ← withLeadingZero config ts
  match ts.getLast?.bind Term.sign? with
  | some s => .error (.endsWith s.char)
  | none =>
    alternate ts
    return ts

/-! ## Terms -/

/-- A text in which every run of white space is one space, without any at the ends. -/
def normalize (formula : String) : String := String.ofList (Blank.normalize formula.toList)

/-- A failure to parse as an error. -/
def ofParse {α : Type} : Except ParseFault α → Except Error α
  | .ok a => .ok a
  | .error f => .error (.parse f)

/-- The arguments of a call or the members of a pool. -/
def arguments (inner : String) : Except Error (List String) := do
  let args ← ofParse (splitTopLevel inner ",")
  if args.any (·.isEmpty) then .error (.parse (.emptyArgument inner)) else return args

/-- The term of a group. `check` reads a formula inside it. -/
def groupTerm (check : String → Except Error Unit) (config : Config) (g : Group) (s : Suffix) :
    Except Error Term := do
  let options := Options.ofFlavor s.flavor
  match g.bracket, g.fn with
  | .paren, none =>
    check g.inner
    return .make (.group (.str g.inner) none) options config
  | .brace, _ =>
    let args ← arguments g.inner
    args.forM check
    let hand : Hand := { modifiers := Modifier.splitValues (String.ofList s.modifiers) }
    return .make (.pool args [] hand) options config
  | .paren, some fn =>
    let args ← arguments g.inner
    args.forM check
    if (config.functions.lookup fn).isNone then .error (.parse (.unknownFunction fn))
    else return .make (.call (.str fn) args [] .null) options config

/-- The terms of the segments of a token that contains groups. -/
def segmentTerms (check : String → Except Error Unit) (config : Config) :
    List Segment → Except Error (List Term)
  | [] => .ok []
  | .text as :: ss => do
    let t ← Leaf.classify (String.ofList (Atom.render as)) config true
    return t :: (← segmentTerms check config ss)
  | .group g :: .text as :: ss => do
    match suffix? g.bracket (Atom.render as) with
    | some s =>
      let t ← groupTerm check config g s
      return t :: (← segmentTerms check config ss)
    | none =>
      let t ← groupTerm check config g {}
      let u ← Leaf.classify (String.ofList (Atom.render as)) config true
      return t :: u :: (← segmentTerms check config ss)
  | .group g :: ss => do
    let t ← groupTerm check config g {}
    return t :: (← segmentTerms check config ss)

/-- The terms of a token. -/
def tokenTerms (check : String → Except Error Unit) (config : Config) :
    FormulaToken → Except Error (List Term)
  | .sign s => .ok [.make (.operator s) [] config]
  | .value ps =>
    if (Piece.groups ps).isEmpty then do
      return [← Leaf.classify (Piece.render ps) config false]
    else segmentTerms check config (segments ps)

/-- The terms of all tokens. -/
def allTerms (check : String → Except Error Unit) (config : Config) (ts : List FormulaToken) :
    Except Error (List Term) := do
  return (← ts.mapM (tokenTerms check config)).flatten

/-- Reads a formula without symbols. The formulas inside a group are shorter than the one around it;
`fuel` bounds the length. -/
def readTerms (config : Config) : Nat → String → Except Error (List Term)
  | 0, _ => .error (.parse .emptyExpression)
  | fuel + 1, formula => do
    let formula := normalize formula
    if formula.isEmpty then .error (.parse .emptyExpression)
    else if formula.toList.contains '$' then .error (.parse (.reservedDollar formula))
    else
      let pieces ← ofParse (Piece.ofText formula)
      let check (inner : String) : Except Error Unit := do
        let _ ← readTerms config fuel inner
      let ts ← allTerms check config (FormulaToken.ofPieces pieces)
      ofParse (validateTerms config ts)

/-- Reads a formula without symbols. -/
def parseTerms (config : Config) (formula : String) : Except Error (List Term) :=
  readTerms config (formula.length + 1) formula

/-- A formula with the values of its symbols, and its terms. -/
structure Parsed where
  formula : String
  terms : List Term

/-- Puts the values of symbols into a formula and reads it. Only a text is a formula. -/
def parse (formula data : Value) (config : Config) : Except Error Parsed :=
  match formula with
  | .str text => do
    let formula := normalize (← Symbols.substitute (Symbols.tableOf data) text)
    return { formula, terms := ← parseTerms config formula }
  | v => .error (.parse (.notText v.typeName))

end DiceFormula.Formula
