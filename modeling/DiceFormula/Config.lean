import DiceFormula.Function.Help

/-!
# Engine settings

A `Config` is everything an engine needs that is not part of a formula: what each dice denomination
makes, which functions may be called, and the largest number of dice a term may roll. Two engines
with different settings can live side by side.
-/

namespace DiceFormula

/-- The kinds of dice. -/
inductive DiceKind
  | die
  | coin
  | fate
  deriving DecidableEq, Repr

/-- The classes of terms. -/
inductive TermClass
  | number
  | operator
  | text
  | group
  | call
  | pool
  | dice (kind : DiceKind)
  deriving DecidableEq, Repr

namespace TermClass

/-- The name of a class in records. -/
def name : TermClass → String
  | .number => "NumericTerm"
  | .operator => "OperatorTerm"
  | .text => "StringTerm"
  | .group => "ParentheticalTerm"
  | .call => "MathTerm"
  | .pool => "PoolTerm"
  | .dice .die => "Die"
  | .dice .coin => "Coin"
  | .dice .fate => "FateDie"

/-- All classes. -/
def all : List TermClass :=
  [.number, .operator, .text, .group, .call, .pool, .dice .die, .dice .coin, .dice .fate]

/-- The class of a name. -/
def ofName? (n : String) : Option TermClass := all.find? (·.name == n)

/-- The kind of a dice class. -/
def kind? : TermClass → Option DiceKind
  | .dice k => some k
  | _ => none

end TermClass

/-- A function as an engine knows it: one of the library's, or a foreign one with its help text. -/
inductive FunctionEntry
  | own (f : Function)
  | foreign (help : Option String)
  deriving DecidableEq, Repr

/-- The settings of an engine. -/
structure Config where
  /-- What a denomination letter makes. -/
  kinds : List (String × TermClass)
  functions : List (String × FunctionEntry)
  /-- The largest number of dice that one term may roll. -/
  maxDice : Nat
  /-- The dice cap as it was written. -/
  maxDiceText : Value
  deriving Inhabited

namespace Config

/-- The standard dice: numeric dice, coins and Fate dice. -/
def defaultKinds : List (String × TermClass) :=
  [("d", .dice .die), ("c", .dice .coin), ("f", .dice .fate)]

/-- All functions under their names. -/
def allFunctions : List (String × FunctionEntry) := Function.all.map fun f => (f.name, .own f)

/-- Adds a function, in its old place if its name is there. -/
def putFunction (name : String) (f : FunctionEntry) :
    List (String × FunctionEntry) → List (String × FunctionEntry)
  | [] => [(name, f)]
  | (n, g) :: fs => if n == name then (name, f) :: fs else (n, g) :: putFunction name f fs

/-- Adds the library's function of a name, in any case. -/
def addNamed (fs : List (String × FunctionEntry)) (name : String) :
    Except Error (List (String × FunctionEntry)) :=
  let n := Case.lowerString name
  match Function.ofName? n with
  | some f => .ok (putFunction n (.own f) fs)
  | none => .error (.invalidArgument (.unknownFunction n))

/-- The functions of a list of names. -/
def functionsNamed (names : List String) : Except Error (List (String × FunctionEntry)) :=
  names.foldlM addNamed []

/-- Reads a dice cap: an integer or a truth value, not negative. -/
def readCap? : Value → Option Nat
  | .num (.int n) => if 0 ≤ n then some n.toNat else none
  | .bool b => some (if b then 1 else 0)
  | _ => none

/-- Checks and assembles settings. -/
def make (kinds : List (String × TermClass)) (functions : List (String × FunctionEntry))
    (cap : Value) : Except Error Config :=
  match readCap? cap with
  | none =>
    match cap.filling? with
    | some v => .error (.invalidArgument (.diceCap v))
    | none => .error .wrongType
  | some n =>
    if (kinds.lookup "d").isNone then .error (.invalidArgument .noNumericDie)
    else .ok { kinds, functions, maxDice := n, maxDiceText := cap }

/-- The standard dice cap. -/
def defaultCap : Value := .int 999

/-- The standard settings. -/
def default : Config :=
  { kinds := defaultKinds, functions := allFunctions, maxDice := 999, maxDiceText := defaultCap }

/-! ## Settings as data -/

/-- The items that a piece of data holds; data that hold none have the wrong type. -/
def itemsOf (v : Value) : Except Error (List Value) :=
  match v.items? with
  | some vs => .ok vs
  | none => .error .wrongType

/-- A text, where only texts have the operation asked for. -/
def textOf : Value → Except Error String
  | .str s => .ok s
  | _ => .error .missingAttribute

/-- The functions that settings name; without any, all. -/
def functionsOf (names : Value) : Except Error (List (String × FunctionEntry)) :=
  match names with
  | .null => .ok allFunctions
  | v => do
    (← itemsOf v).foldlM (fun fs item => do addNamed fs (← textOf item)) []

/-- The settings that a mapping describes. -/
def ofSettings (settings : Value) : Except Error Config :=
  let settings := settings.orElse (.mapping [])
  match settings with
  | .mapping _ => do
    make defaultKinds (← functionsOf (settings.get "math_functions"))
      ((settings.get? "max_dice").getD defaultCap)
  | _ => .error .missingAttribute

/-- Data as a settings file holds it. Such a file takes a double for a number only if its text has a
point, and knows no names for unbounded doubles; all others come back as text. -/
def fromFile : Nat → Value → Value
  | 0, v => v
  | _ + 1, .num (.float x) =>
    if x.isNaN then .str "NaN"
    else if x.isInf then .str (if x < 0 then "-Infinity" else "Infinity")
    else if (floatText x).contains '.' then .num (.float x)
    else .str (floatText x)
  | fuel + 1, .list vs => .list (vs.map (fromFile fuel))
  | fuel + 1, .tuple vs => .list (vs.map (fromFile fuel))
  | fuel + 1, .mapping es => .mapping (es.map fun (k, v) => (k, fromFile fuel v))
  | _ + 1, v => v

/-! ## Questions -/

/-- What a denomination makes: digits make what `d` makes. -/
def denomination? (config : Config) (text : String) : Option TermClass :=
  if Digit.allDigits text.toList then config.kinds.lookup "d"
  else config.kinds.lookup (Case.lowerString text)

/-- What the `d` denomination makes. -/
def numericDie (config : Config) : TermClass := (config.kinds.lookup "d").getD (.dice .die)

/-- The function that a piece of data names. -/
def function (config : Config) (name : Value) : Except Error FunctionEntry :=
  match name.str?.bind fun s => config.functions.lookup s with
  | some f => .ok f
  | none => .error (Error.ofName .unknownFunction name)

/-- The help text of a function. -/
def functionHelp (config : Config) (name : Value) : Except Error String := do
  match ← config.function name with
  | .own f => return f.help
  | .foreign (some h) => return if h.isEmpty then Function.noHelp else h
  | .foreign none => return Function.noHelp

/-- The class that records call by a name, if there is one in this engine. Dice of unregistered
kinds are unknown. -/
def classNamed? (config : Config) (name : String) : Option TermClass :=
  if name == "DicePool" then some .pool
  else
    match TermClass.ofName? name with
    | some (.dice k) => if config.kinds.any (·.2 == .dice k) then some (.dice k) else none
    | c => c

/-- Texts in ascending order. -/
def sortTexts (ss : List String) : List String := ss.mergeSort fun a b => !Surrogate.precedes b a

/-- The names of the functions, in order. -/
def functionNames (config : Config) : List String := sortTexts (config.functions.map (·.1))

/-- A list of texts as a message shows it. -/
def textList (ss : List String) : String := (Value.list (ss.map Value.str)).literal

/-- One line that shows the settings. -/
def summary (config : Config) : String :=
  "EngineConfig(dice_kinds=" ++ textList (sortTexts (config.kinds.map (·.1)))
    ++ ", math_functions=" ++ textList config.functionNames
    ++ ", max_dice=" ++ config.maxDiceText.text ++ ")"

end Config

end DiceFormula
