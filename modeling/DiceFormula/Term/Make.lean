import DiceFormula.Formula.Token
import DiceFormula.Term.Text

/-!
# Making terms from data

`Term.ofArguments` makes a term of a class from named arguments. Every class knows which arguments
it takes; one that is unknown, or missing where there is no default, has the wrong type.
-/

namespace DiceFormula

/-- The number that a piece of data is or writes. Truth values are no numbers. -/
def numberOf (v : Value) : Except Error Number :=
  match v with
  | .num n => .ok n
  | .str s =>
    match readInt? s.toList with
    | some n => .ok (.int n)
    | none =>
      match readFloat? s.toList with
      | some x => .ok (.float x)
      | none => .error (.invalidArgument (.notNumber v))
  | _ => .error (.invalidArgument (.notNumber v))

/-- The number of a number term, which must not be the undefined double. -/
def definedNumber (v : Value) : Except Error Number := do
  match ← numberOf v with
  | .float x => if x.isNaN then .error (.invalidArgument .undefinedNumber) else .ok (.float x)
  | n => .ok n

/-- The sign that a piece of data writes. -/
def signOf (v : Value) : Except Error Arithmetic.Sign :=
  match v with
  | .str s =>
    match s.toList with
    | [c] =>
      match Arithmetic.Sign.ofChar? c with
      | some s => .ok s
      | none => .error (.invalidArgument (.unknownOperator v))
    | _ => .error (.invalidArgument (.unknownOperator v))
  | _ => .error (.invalidArgument (.unknownOperator v))

/-- The trimmed texts of all items. -/
def formulasOf (v : Value) : Except Error (List String) := do
  return (← Config.itemsOf v).map fun item => Blank.trimString item.text

/-- The results that a piece of data lists. -/
def resultsOf (v : Value) : Except Error (List DieResult) := do
  (← Config.itemsOf v).mapM DieResult.ofRecord

/-- Named arguments. -/
abbrev Arguments := List (String × Value)

namespace Arguments

/-- An argument that may be missing. -/
def optional (args : Arguments) (name : String) (default : Value) : Value :=
  (args.lookup name).getD default

/-- An argument that must be there. -/
def required (args : Arguments) (name : String) : Except Error Value :=
  match args.lookup name with
  | some v => .ok v
  | none => .error .wrongType

/-- The options among the arguments. -/
def options (args : Arguments) : Except Error Options :=
  Options.ofValue (args.optional "options" .null)

end Arguments

/-- The arguments that a class takes besides its options. -/
def TermClass.parameters : TermClass → List String
  | .number => ["number"]
  | .operator => ["operator"]
  | .text => ["term"]
  | .group => ["term", "roll"]
  | .call => ["fn", "terms"]
  | .pool => ["terms", "modifiers", "rolls", "results"]
  | .dice _ => ["number", "faces", "modifiers", "results"]

/-- The faces of dice: only numeric dice have a choice. -/
def DiceKind.facesOf (kind : DiceKind) (faces : Value) : Value :=
  match kind with
  | .die => faces
  | .coin => .int 2
  | .fate => .int 3

namespace Term

/-- A term of dice or a pool, which counts as evaluated if it has results. -/
def withResults (body : Body) (options : Options) (results : List DieResult) (config : Config) :
    Term :=
  (Term.make body options config).setMark (.bool !results.isEmpty)

/-- The content and the options of a term from its arguments; `readRoll` restores the rolls of a
pool. -/
def ofKnownArguments (readRoll : Value → Except Error Roll) (c : TermClass) (args : Arguments)
    (config : Config) : Except Error Term :=
  match c with
  | .number => do
    let number ← args.required "number"
    let options ← args.options
    return .make (.number (← definedNumber number)) options config
  | .operator => do
    let operator ← args.required "operator"
    let options ← args.options
    return .make (.operator (← signOf operator)) options config
  | .text => do
    let text ← args.required "term"
    let options ← args.options
    return .make (.text text) options config
  | .group => do
    let options ← args.options
    match args.optional "roll" .null, args.optional "term" .null with
    | .null, .null => .error (.invalidArgument .emptyGroup)
    | .null, source => return .make (.group source none) options config
    | _, _ => .error .missingAttribute
  | .call => do
    let fn ← args.required "fn"
    let options ← args.options
    let terms ← formulasOf (args.optional "terms" (.list []))
    return .make (.call fn terms [] .null) options config
  | .pool => do
    let options ← args.options
    let terms ← formulasOf (args.optional "terms" (.list []))
    let modifiers ← Config.itemsOf (args.optional "modifiers" (.list []))
    let rolls ← (← Config.itemsOf (args.optional "rolls" (.list []))).mapM readRoll
    let results ← resultsOf (args.optional "results" (.list []))
    return withResults (.pool terms rolls { modifiers, results }) options results config
  | .dice kind => do
    let options ← args.options
    let modifiers ← Config.itemsOf (args.optional "modifiers" (.list []))
    let results ← resultsOf (args.optional "results" (.list []))
    let number := args.optional "number" (.int 1)
    let faces := kind.facesOf (args.optional "faces" (.int 6))
    return withResults (.dice { kind, number, faces, hand := { modifiers, results } })
      options results config

/-- A term of a class from named arguments. -/
def ofArguments (readRoll : Value → Except Error Roll) (c : TermClass) (args : Arguments)
    (config : Config) : Except Error Term :=
  if args.all fun (name, _) => name == "options" || c.parameters.contains name then
    ofKnownArguments readRoll c args config
  else .error .wrongType

/-- A group around a roll. It stands where its roll stands. -/
def ofRoll (r : Roll) (options : Options) (config : Config) : Term :=
  (Term.make (.group r.formula (some r)) options config).setMark (.bool r.evaluated)

end Term

end DiceFormula
