import DiceFormula.Command.Basic

/-!
# The command line

The outer layer of the command: it reads files, draws random numbers, prints, and ends with a code.
-/

namespace DiceFormula

/-- A random number from 0 up to, but not including, 1. -/
def randomDraw : IO Float := do
  let n ← IO.rand 0 (Nat.pow 2 53 - 1)
  return n.toFloat / (Nat.pow 2 53).toFloat

/-- Carries an evaluation out on random draws. -/
def Steps.perform {σ α : Type} : Steps σ α → IO (σ × Ending α)
  | .done s a => return (s, .finished a)
  | .fail s e => return (s, .failed e)
  | .pause _ _ rest => perform (rest ())
  | .draw rest => do
    let x ← randomDraw
    perform (rest (some x))

/-- The data in a file, which are nothing unless they are JSON. -/
def readData (name : String) : IO (Option Value) :=
  try
    let contents ← IO.FS.readFile (Surrogate.toRaw name)
    let v := (Json.read? (Surrogate.ofRaw contents)).getD .null
    return some (Config.fromFile v.depth v)
  catch _ => return none

/-- The contents of the files that a command line names. -/
def readFiles (arguments : List String) : IO (List (String × Value)) :=
  match CommandLine.parse arguments with
  | .error _ => return []
  | .ok request => do
    let mut files := []
    for name in request.files do
      if let some v ← readData name then files := (name, v) :: files
    return files

/-- Prints an output. -/
def Command.Output.print (o : Command.Output) : IO UInt32 := do
  (← IO.getStdout).putStr (Surrogate.toRaw o.stdout)
  (← IO.getStderr).putStr (Surrogate.toRaw o.stderr)
  return o.code.toUInt32

/-- Prints an error that is not one of the library's own. -/
def printError (e : Error) : IO UInt32 := do
  (← IO.getStderr).putStrLn (Surrogate.toRaw e.message)
  return 1

/-- Carries out a command line. -/
def runCommand (arguments : List String) : IO UInt32 := do
  let files ← readFiles arguments
  match Command.plan (fun name => files.lookup name) arguments with
  | .error e => printError e
  | .ok (.usage code) =>
    IO.println Command.usage
    return code.toUInt32
  | .ok (.print o) => o.print
  | .ok (.evaluate r context json) => do
    let (after, ending) ← (Roll.evaluation context r).perform
    match Command.present json after ending with
    | .ok o => o.print
    | .error e => printError e

end DiceFormula

/-- The command. -/
def main (arguments : List String) : IO UInt32 :=
  DiceFormula.runCommand (arguments.map DiceFormula.Surrogate.ofRaw)
