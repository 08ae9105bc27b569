import DiceFormula.Arithmetic.Token
import DiceFormula.Config
import DiceFormula.Result.Basic

/-!
# Terms and rolls

A parsed formula is a `Roll`: a sequence of terms, values and operators. A term is a number, an
operator, a text that is not classified yet, a group in parentheses, a function call, a pool in
braces, or dice. Groups, calls and pools hold formulas as text and, once evaluated, the rolls that
came of them. A term that becomes part of another leaves its dice there as carried dice.
-/

namespace DiceFormula

/-- Free options of a term or a roll, of which the library reads the flavor. -/
abbrev Options := List (String × Value)

namespace Options

/-- The flavor, an empty text if there is none. -/
def flavor (o : Options) : Value := ((o.lookup "flavor").getD .null).orElse (.str "")

/-- The options that set a flavor. -/
def ofFlavor : Option (List Char) → Options
  | some f => if f.isEmpty then [] else [("flavor", .str (String.ofList f))]
  | none => []

/-- A key as the name of an option. -/
def nameOf : Value → String
  | .null => "null"
  | .bool b => if b then "true" else "false"
  | v => v.text

/-- Sets the option that a pair of a name and a value describes. -/
def putPair (o : Options) (pair : Value) : Except Error Options := do
  match ← Config.itemsOf pair with
  | [key, v] => if key.isKey then return Value.put (nameOf key) v o else .error .wrongType
  | _ => .error .wrongValue

/-- The options that a piece of data describes: a mapping, or pairs of names and values. What does
not count as true describes none. -/
def ofValue (v : Value) : Except Error Options :=
  match v.orElse (.mapping []) with
  | .mapping es => .ok es
  | v => do (← Config.itemsOf v).foldlM putPair []

end Options

/-- The results a term has rolled and the modifiers asked of them. Modifiers are texts, though a
record may hold other data in their place, which are refused when they are carried out. -/
structure Hand where
  modifiers : List Value := []
  results : List DieResult := []
  deriving Inhabited

/-- Some dice of one kind. Number and faces are data of a record or a formula; evaluation checks
them. -/
structure Dice where
  kind : DiceKind
  number : Value
  faces : Value
  hand : Hand

/-- Where a roll stands. -/
inductive RollState
  | created
  | evaluating
  | evaluated
  | failed (e : Error)

/-- What every term has besides its content: its options, the mark of having been evaluated, the
settings it was made with, and an identity if it may lie in several rolls at once. -/
structure Label where
  options : Options := []
  mark : Value := .bool false
  tag : Option Nat := none
  config : Config

/-- What a roll has besides its terms: its formula, which is a text unless a record says otherwise,
and an identity if it may lie in several places at once. -/
structure Sheet where
  formula : Value
  options : Options := []
  state : RollState := .created
  total : Value := .null
  /-- Restored from the record of an evaluated roll. -/
  replayed : Bool := false
  tag : Option Nat := none
  config : Config

mutual

/-- A term of a formula. -/
structure Term where
  body : Body
  label : Label
  carried : List Term

/-- The content of a term. Texts and the names of functions may be any data in a record; evaluation
refuses what is no text. -/
inductive Body where
  | number (n : Number)
  | operator (s : Arithmetic.Sign)
  | text (t : Value)
  | group (source : Value) (roll : Option Roll)
  | call (fn : Value) (args : List String) (rolls : List Roll) (result : Value)
  | pool (args : List String) (rolls : List Roll) (hand : Hand)
  | dice (d : Dice)

/-- A roll: the terms of a formula, the dice it counts as its own once it is evaluated, and the
identified terms it was assembled from, as they stand. -/
structure Roll where
  terms : List Term
  dice : List Term
  shared : List Term
  sheet : Sheet

end

namespace RollState

/-- Whether the roll has been evaluated. -/
def isEvaluated : RollState → Bool
  | .evaluated => true
  | _ => false

/-- Whether the roll waits for its evaluation. -/
def isCreated : RollState → Bool
  | .created => true
  | _ => false

/-- The name of a state. -/
def name : RollState → String
  | .created => "created"
  | .evaluating => "evaluating"
  | .evaluated => "evaluated"
  | .failed _ => "failed"

end RollState

/-! ## Terms -/

namespace Body

/-- The class of a content. -/
def termClass : Body → TermClass
  | .number _ => .number
  | .operator _ => .operator
  | .text _ => .text
  | .group _ _ => .group
  | .call _ _ _ _ => .call
  | .pool _ _ _ => .pool
  | .dice d => .dice d.kind

end Body

namespace Term

/-- A new term. -/
def make (body : Body) (options : Options) (config : Config) : Term :=
  ⟨body, { options, config }, []⟩

/-- The class of a term. -/
def termClass (t : Term) : TermClass := t.body.termClass

/-- Whether the term has been evaluated. -/
def evaluated (t : Term) : Bool := t.label.mark.truthy

/-- Sets the mark of having been evaluated. -/
def setMark (mark : Value) (t : Term) : Term := { t with label := { t.label with mark } }

/-- The sign of an operator. -/
def sign? (t : Term) : Option Arithmetic.Sign :=
  match t.body with
  | .operator s => some s
  | _ => none

/-- Whether the term is an operator. -/
def isOperator (t : Term) : Bool := t.sign?.isSome

/-- Whether the term is a text that is not classified yet. -/
def isText (t : Term) : Bool := t.termClass == .text

/-- Whether the term is dice. -/
def isDice (t : Term) : Bool :=
  match t.body with
  | .dice _ => true
  | _ => false

/-- Whether the term is replaced by a number when it is evaluated: groups and calls are. -/
def isIntermediate (t : Term) : Bool :=
  match t.body with
  | .group _ _ | .call _ _ _ _ => true
  | _ => false

/-- The flavor of a term; operators have none. -/
def flavor (t : Term) : Value := if t.isOperator then .str "" else t.label.options.flavor

end Term

/-! ## Rolls -/

namespace Roll

/-- Whether the roll has been evaluated. -/
def evaluated (r : Roll) : Bool := r.sheet.state.isEvaluated

/-- The total of an evaluated roll, nothing before. -/
def total (r : Roll) : Value := if r.evaluated then r.sheet.total else .null

/-- The formula of the roll. -/
def formula (r : Roll) : Value := r.sheet.formula

end Roll

/-! ## The dice of a term -/

mutual

/-- The dice that a term brings to its roll: those it carries, and its own. -/
def Term.dice : Term → List Term
  | ⟨.dice d, l, carried⟩ => carried ++ [⟨.dice d, l, carried⟩]
  | ⟨.group _ (some r), _, carried⟩ => carried ++ r.allDice
  | ⟨.call _ _ rs _, _, carried⟩ => carried ++ diceOfRolls rs
  | ⟨.pool _ rs _, _, carried⟩ => carried ++ diceOfRolls rs
  | ⟨_, _, carried⟩ => carried

/-- The dice of a roll: of an evaluated one those it settled on, else those of its terms. -/
def Roll.allDice : Roll → List Term
  | ⟨terms, dice, _, sheet⟩ => if sheet.state.isEvaluated then dice else diceOfTerms terms

/-- The dice of all rolls of a list. -/
def diceOfRolls : List Roll → List Term
  | [] => []
  | r :: rs => r.allDice ++ diceOfRolls rs

/-- The dice of all terms of a list. -/
def diceOfTerms : List Term → List Term
  | [] => []
  | t :: ts => t.dice ++ diceOfTerms ts

end

end DiceFormula
