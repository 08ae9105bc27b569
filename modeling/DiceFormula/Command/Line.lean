import DiceFormula.Text.Digit

/-!
# Command lines

A command line holds flags, of which some take values, and the words of a formula. A flag may be
shortened as long as it is unambiguous, and its value may follow an equals sign. Flags of one letter
may be run together. Everything after a double dash is a word of the formula. The words of the
formula stand together: once a flag has ended them, further words are refused.
-/

namespace DiceFormula.CommandLine

/-- The flags. -/
inductive Flag
  | help | data | settings | minimize | maximize | json | functions | verbose
  deriving DecidableEq, Repr

/-- How many values a flag takes. -/
inductive Arity
  | none | one | many
  deriving DecidableEq, Repr

/-- The number of values of a flag. -/
def Flag.arity : Flag → Arity
  | .data | .settings => .one
  | .functions => .many
  | _ => .none

/-- The names of flags. -/
def names : List (String × Flag) :=
  [("-h", .help), ("--help", .help), ("--data", .data), ("--settings", .settings),
   ("--minimize", .minimize), ("--maximize", .maximize), ("--json", .json),
   ("--functions", .functions), ("--verbose", .verbose), ("-v", .verbose)]

/-! ## Words -/

/-- A word of a command line. -/
inductive Word
  /-- A word of the formula, or a value of a flag. -/
  | value (text : String)
  /-- The double dash. -/
  | separator
  /-- A flag, whether its name has one dash only, and the text attached to it. -/
  | flag (f : Flag) (short : Bool) (attached : Option String)
  /-- What looks like a flag but is none. -/
  | unknown (text : String)
  deriving DecidableEq, Repr

/-- Splits at the first equals sign. -/
def splitEquals? : List Char → Option (List Char × List Char)
  | [] => none
  | c :: cs => if c == '=' then some ([], cs) else (splitEquals? cs).map fun (a, b) => (c :: a, b)

/-- Whether a flag name has only one dash. -/
def isShort (name : String) : Bool := !("--".toList.isPrefixOf name.toList)

/-- The flag of a name, as a word. -/
def flagWord? (name : String) (attached : Option String) : Option Word :=
  (names.lookup name).map fun f => .flag f (isShort name) attached

/-- Whether a word is a negative number. -/
def isNegativeNumber (cs : List Char) : Bool :=
  let digits (ds : List Char) := !ds.isEmpty && ds.all fun c => (Digit.value? c).isSome
  let cs := if cs.getLast? == some '\n' then cs.dropLast else cs
  match cs with
  | '-' :: r =>
    let whole := r.takeWhile fun c => (Digit.value? c).isSome
    match r.drop whole.length with
    | [] => !whole.isEmpty
    | '.' :: frac => digits frac
    | _ => false
  | _ => false

/-- The flags that a word may be short for. -/
def expansions (cs : List Char) : List Word :=
  match cs with
  | '-' :: '-' :: _ =>
    let (stem, attached) : List Char × Option String := match splitEquals? cs with
      | some (stem, v) => (stem, some (String.ofList v))
      | none => (cs, none)
    names.filterMap fun (name, f) =>
      if stem.isPrefixOf name.toList then some (.flag f (isShort name) attached) else none
  | '-' :: c :: r =>
    names.filterMap fun (name, f) =>
      if name.toList == ['-', c] then some (.flag f true (some (String.ofList r)))
      else if cs.isPrefixOf name.toList then some (.flag f (isShort name) none)
      else none
  | _ => []

/-- The word of a text; none if it may be short for several flags. -/
def wordOf (text : String) : Option Word :=
  let cs := text.toList
  match cs with
  | '-' :: _ :: _ =>
    let attached := (splitEquals? cs).bind fun (name, v) =>
      flagWord? (String.ofList name) (some (String.ofList v))
    match (flagWord? text none).or attached with
    | some w => some w
    | none =>
      match expansions cs with
      | [w] => some w
      | _ :: _ => none
      | [] =>
        if isNegativeNumber cs || cs.contains ' ' then some (.value text) else some (.unknown text)
  | _ => some (.value text)

/-- The words of a command line; none if one of them is ambiguous. -/
def wordsOf : List String → Option (List Word)
  | [] => some []
  | text :: texts =>
    if text == "--" then some (.separator :: texts.map Word.value)
    else do return (← wordOf text) :: (← wordsOf texts)

/-! ## Requests -/

/-- Where the settings come from. -/
inductive SettingsSource
  | standard
  | file (name : String)
  /-- The flag was given, but names no file. -/
  | nothing
  deriving DecidableEq, Repr

/-- What a command line asks for. -/
structure Request where
  formula : List String := []
  data : Option String := none
  settings : SettingsSource := .standard
  minimize : Bool := false
  maximize : Bool := false
  json : Bool := false
  functions : Option (List String) := none
  verbose : Bool := false
  deriving DecidableEq, Repr

/-- Why a command line is not carried out: help was asked for, or it is malformed. -/
inductive Refusal
  | help
  | malformed
  deriving DecidableEq, Repr

/-- Takes a flag with its values into a request. The extreme outcomes exclude each other. -/
def Request.take (r : Request) (f : Flag) (values : List String) : Except Refusal Request :=
  match f with
  | .help => .error .help
  | .data => .ok { r with data := values.head? }
  | .settings => .ok { r with settings := values.head?.elim .nothing .file }
  | .minimize => if r.maximize then .error .malformed else .ok { r with minimize := true }
  | .maximize => if r.minimize then .error .malformed else .ok { r with maximize := true }
  | .json => .ok { r with json := true }
  | .functions => .ok { r with functions := some values }
  | .verbose => .ok { r with verbose := true }

/-- The files that a request names. -/
def Request.files (r : Request) : List String :=
  (match r.settings with
   | .file name => [name]
   | _ => []) ++ r.data.toList

/-- The values that an attached text gives: itself, unless it is a double dash, which gives none. -/
def attachedValues (text : String) : List String := if text == "--" then [] else [text]

/-- The flags with their values that a flag and the letters run together with it stand for. Every
letter has to be a flag, up to one that takes what follows it for a value. -/
def cluster (f : Flag) (letters : List Char) : Except Refusal (List (Flag × List String)) :=
  match f.arity, letters with
  | .one, _ | .many, _ => .ok [(f, attachedValues (String.ofList letters))]
  | .none, [] => .error .malformed
  | .none, c :: cs =>
    match names.lookup (String.ofList ['-', c]), cs with
    | none, _ => .error .malformed
    | some g, [] => .ok [(f, []), (g, [])]
    | some g, cs => do return (f, []) :: (← cluster g cs)

/-- The flags with their values that a flag with an attached text stands for. -/
def attachedFlags (f : Flag) (short : Bool) (text : String) :
    Except Refusal (List (Flag × List String)) :=
  match f.arity, short with
  | .none, true => cluster f text.toList
  | .none, false => .error .malformed
  | _, _ => .ok [(f, attachedValues text)]

/-- The values at the front, and what follows them. -/
def takeValues : List Word → List String × List Word
  | .value v :: ws => let (vs, rest) := takeValues ws; (v :: vs, rest)
  | ws => ([], ws)

/-- The formula words at the front, a double dash among them dropped, and what follows them. -/
def takeFormula : List Word → List String × List Word
  | .value v :: ws => let (vs, rest) := takeFormula ws; (v :: vs, rest)
  | .separator :: ws => takeFormula ws
  | ws => ([], ws)

/-- What has been read of a command line: the request so far, whether the words of the formula have
been read, and whether something was left over. -/
structure Progress where
  request : Request := {}
  formulaRead : Bool := false
  leftOver : Bool := false

/-- Reads words; `fuel` bounds their number. -/
def readWords : Nat → Progress → List Word → Except Refusal Progress
  | _, p, [] => .ok p
  | 0, p, _ => .ok p
  | fuel + 1, p, .unknown _ :: ws => readWords fuel { p with leftOver := true } ws
  | fuel + 1, p, .flag f short (some text) :: ws => do
    let flags ← attachedFlags f short text
    let request ← flags.foldlM (fun r (f, vs) => r.take f vs) p.request
    readWords fuel { p with request } ws
  | fuel + 1, p, .flag f _ none :: ws =>
    match f.arity with
    | .none => do readWords fuel { p with request := ← p.request.take f [] } ws
    | .one =>
      match ws with
      | .value v :: ws => do readWords fuel { p with request := ← p.request.take f [v] } ws
      | _ => .error .malformed
    | .many => do
      let (vs, rest) := takeValues ws
      readWords fuel { p with request := ← p.request.take f vs } rest
  | fuel + 1, p, ws =>
    let (formula, rest) := takeFormula ws
    if p.formulaRead then readWords fuel { p with leftOver := true } rest
    else readWords fuel { p with request := { p.request with formula }, formulaRead := true } rest

/-- Reads a command line. -/
def parse (arguments : List String) : Except Refusal Request :=
  match wordsOf arguments with
  | none => .error .malformed
  | some ws => do
    let p ← readWords ws.length {} ws
    if p.leftOver then .error .malformed else return p.request

end DiceFormula.CommandLine
