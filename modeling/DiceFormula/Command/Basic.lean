import DiceFormula.Command.Line
import DiceFormula.Evaluation.Roll
import DiceFormula.Evaluation.Run
import DiceFormula.Roll.Create

/-!
# The command

The command rolls the formula it is given and shows the result, or the record of the roll; or it
lists and explains the functions of formulas. Settings and symbol data come from files. `plan` does
everything up to the first draw, `present` everything after the last.
-/

namespace DiceFormula.Command

/-! ## Functions -/

/-- One line on a function. -/
def describeFunction : FunctionEntry → String
  | .own f => f.description
  | .foreign _ => ""

/-- One line on each function of an engine, in columns. Without functions there is no widest one. -/
def functionList (config : Config) : Except Error String :=
  match config.functionNames with
  | [] => .error .wrongValue
  | names =>
    let width := (names.map Surrogate.length).foldl max 0
    let line (name : String) : String :=
      name ++ String.ofList (List.replicate (width - Surrogate.length name + 2) ' ')
        ++ ((config.functions.lookup name).map describeFunction).getD "" ++ "\n"
    .ok (String.join (names.map line)
      ++ "\nType rollexpr --functions <name> to get help on the function <name>.")

/-- The help text of a function, or a remark that there is none of that name. -/
def functionHelp (config : Config) (name : String) : Except Error String :=
  let lower := Case.lowerString name
  if (config.functions.lookup lower).isNone then .ok ("error: function " ++ name ++ " not found.")
  else config.functionHelp (.str lower)

/-- Explains the named functions, or lists all. -/
def explain (config : Config) (names : List String) : Except Error String :=
  if names.isEmpty then functionList config
  else do return "\n\n".intercalate (← names.mapM (functionHelp config))

/-! ## Output -/

/-- What the command prints, and the code it ends with. -/
structure Output where
  code : Nat
  stdout : String := ""
  stderr : String := ""
  deriving DecidableEq, Repr

/-- The output of a success. -/
def success (text : String) : Output := { code := 0, stdout := text ++ "\n" }

/-- The output of a failure. -/
def failure (text : String) : Output := { code := 1, stderr := text ++ "\n" }

/-- An evaluated roll in words: its formula, the totals of its terms if they say more, its total. -/
def describe (r : Roll) : Except Error String := do
  let flat ← r.result
  let middle := if flat.equals r.formula then "" else "=> " ++ flat.text ++ "\n"
  return "Input: " ++ r.formula.text ++ "\n" ++ middle ++ "Result: " ++ r.total.text

/-- One of the library's own errors as a failure; others are passed on. -/
def refuse (heading : String) (e : Error) : Except Error Output :=
  if e.kind.isOwn then .ok (failure (heading ++ e.message)) else .error e

/-- The usage of the command. -/
def usage : String :=
  "usage: rollexpr [-h] [--data FILE] [--settings FILE] [--minimize | --maximize] [--json]\n"
    ++ "                [--functions [NAME ...]] [--verbose] [formula ...]"

/-! ## Carrying out -/

/-- What is to be done for a command line. -/
inductive Plan
  /-- Explain the usage, and end with a code. -/
  | usage (code : Nat)
  | print (output : Output)
  | evaluate (roll : Roll) (context : Context) (json : Bool)

/-- The remark on a missing file. -/
def missingFile (name : String) : Output :=
  failure ("Error in settings: [Errno 2] No such file or directory: " ++ quoted name)

/-- Plans a roll. -/
def planRoll (request : CommandLine.Request) (config : Config) (data : Value) : Except Error Plan :=
  if request.formula.isEmpty then
    .ok (.print (failure "error: no formula given. Type rollexpr --help for usage."))
  else
    match Roll.create (.str (" ".intercalate request.formula)) data .null config with
    | .error e => do return .print (← refuse "Error in input: " e)
    | .ok r => do
      let mode ← Mode.of request.minimize request.maximize
      return .evaluate r { config, mode } request.json

/-- Plans a request under some settings. -/
def planRequest (files : String → Option Value) (request : CommandLine.Request) (settings : Value) :
    Except Error Plan :=
  match Config.ofSettings settings with
  | .error e => do return .print (← refuse "Error in settings: " e)
  | .ok config =>
    let answer (data : Value) : Except Error Plan :=
      match request.functions with
      | some names => do return .print (success (← explain config names))
      | none => planRoll request config data
    match request.data with
    | none | some "" => answer .null
    | some name =>
      match files name with
      | some data => answer data
      | none => .ok (.print (missingFile name))

/-- The code after a refused command line. -/
def refusalCode : CommandLine.Refusal → Nat
  | .help => 0
  | .malformed => 2

/-- Plans a command line. `files` are the contents of files. -/
def plan (files : String → Option Value) (arguments : List String) : Except Error Plan :=
  match CommandLine.parse arguments with
  | .error r => .ok (.usage (refusalCode r))
  | .ok request =>
    match request.settings with
    | .standard => planRequest files request (.mapping [])
    | .nothing => .error .wrongType
    | .file name =>
      match files name with
      | some settings => planRequest files request settings
      | none => .ok (.print (missingFile name))

/-- Shows what came of a roll. -/
def present (json : Bool) (r : Roll) (ending : Ending Unit) : Except Error Output :=
  match ending with
  | .failed e => refuse "Error in input: " e
  | .finished _ | .stopped =>
    if json then .ok (success (Json.writeIndented r.toRecord)) else (describe r).map success

/-- What a command line comes to: an explanation of the usage, or an output. -/
inductive Outcome
  | usage (code : Nat)
  | output (o : Output)

/-- Carries out a command line on a source of draws. -/
def run (files : String → Option Value) (arguments : List String) (src : Source) :
    Except Error Outcome := do
  match ← plan files arguments with
  | .usage code => return .usage code
  | .print o => return .output o
  | .evaluate r context json =>
    let report := (Roll.evaluation context r).run .never src
    return .output (← present json report.state report.ending)

end DiceFormula.Command
