import DiceFormula.Term.Make
import DiceFormula.Term.Record

/-!
# Restoring terms and rolls

Records are read back into the terms and rolls they describe. A roll restored from the record of an
evaluated one is final: evaluating it again rolls nothing. Dice of a class that an engine does not
know are restored as numeric dice.
-/

namespace DiceFormula

namespace Value

mutual

/-- How deep a piece of data is nested. -/
def depth : Value → Nat
  | .list vs | .tuple vs => depthAll vs + 1
  | .mapping es => depthEntries es + 1
  | .table d => depth d + 1
  | .null | .bool _ | .num _ | .str _ => 1

/-- The depth of the deepest item. -/
def depthAll : List Value → Nat
  | [] => 0
  | v :: vs => max (depth v) (depthAll vs)

/-- The depth of the deepest entry. -/
def depthEntries : List (String × Value) → Nat
  | [] => 0
  | (_, v) :: es => max (depth v) (depthEntries es)

end

end Value

namespace TermClass

/-- The class of a record. -/
def ofRecord (config : Config) (record : Value) : Except Error TermClass :=
  match record.get "class" with
  | .str name =>
    match config.classNamed? name with
    | some c => .ok c
    | none =>
      if (record.get? "faces").isSome then .ok config.numericDie
      else .error (.unknownClass name)
  | _ => .error (.classless record)

end TermClass

/-- The arguments that a record holds for a class. -/
def recordArguments (c : TermClass) (record : Value) : Arguments :=
  ("options", record.get "options")
    :: c.parameters.filterMap fun name => (record.get? name).map fun v => (name, v)

/-- Whether a record says that it is of something evaluated. -/
def recordMark (record : Value) : Value := (record.get? "evaluated").getD (.bool true)

namespace Term

/-- Restores dice. What counts as false is as good as missing; dice with results are evaluated. -/
def restoreDice (kind : DiceKind) (record : Value) (config : Config) : Except Error Term := do
  let list (name : String) : Value := (record.get name).orElse (.list [])
  let t ← ofKnownArguments (fun _ => .error .missingAttribute) (.dice kind)
    [("number", (record.get? "number").getD (.int 1)), ("faces", record.get "faces"),
     ("modifiers", list "modifiers"), ("results", list "results"),
     ("options", record.get "options")]
    config
  return t.setMark (.bool ((record.get "evaluated").truthy || t.evaluated))

/-- Restores a group, with its roll if there is one. -/
def restoreGroup (readRoll : Value → Except Error Roll) (record : Value) (config : Config) :
    Except Error Term :=
  match record.get "roll" with
  | .null => do
    let t ← ofKnownArguments readRoll .group
      [("term", record.get "term"), ("options", record.get "options")] config
    return t.setMark (recordMark record)
  | v => do
    let r ← readRoll v
    return ofRoll r (← Options.ofValue (record.get "options")) config

/-- Restores a call, with its rolls and its result. -/
def restoreCall (readRoll : Value → Except Error Roll) (record : Value) (config : Config) :
    Except Error Term := do
  let t ← ofKnownArguments readRoll .call (recordArguments .call record) config
  let rolls ← (← Config.itemsOf ((record.get "rolls").orElse (.list []))).mapM readRoll
  match t.body with
  | .call fn args _ _ =>
    return { t with body := .call fn args rolls (record.get "result") }.setMark (recordMark record)
  | _ => return t

/-- Restores a term of a class. -/
def restore (readRoll : Value → Except Error Roll) (c : TermClass) (record : Value)
    (config : Config) : Except Error Term :=
  match c with
  | .dice kind => restoreDice kind record config
  | .group => restoreGroup readRoll record config
  | .call => restoreCall readRoll record config
  | c => do
    let t ← ofKnownArguments readRoll c (recordArguments c record) config
    return t.setMark (recordMark record)

end Term

namespace Roll

/-- Restores a roll; `readTerm` restores its terms. -/
def restore (readTerm : Value → Except Error Term) (record : Value) (config : Config) :
    Except Error Roll :=
  match record with
  | .mapping _ => do
    let items (name : String) : Except Error (List Value) :=
      Config.itemsOf ((record.get name).orElse (.list []))
    let terms ← (← items "terms").mapM readTerm
    let r ← ofTerms? terms (← Options.ofValue (record.get "options")) config
    let formula := (record.get "formula").orElse r.formula
    if (recordMark record).truthy then
      let dice ← if (record.get "dice").truthy then (do (← items "dice").mapM readTerm)
        else .ok (diceOfTerms terms)
      return { r with
        dice
        sheet := { r.sheet with
          formula, state := .evaluated, total := record.get "total", replayed := true } }
    else return { r with sheet := { r.sheet with formula } }
  | _ => .error .missingAttribute

end Roll

mutual

/-- The term that a record describes; `fuel` bounds its nesting. -/
def Term.readRecord (config : Config) : Nat → Value → Except Error Term
  | 0, _ => .error .wrongType
  | fuel + 1, record => do
    let c ← TermClass.ofRecord config record
    Term.restore (Roll.readRecord config fuel) c record config

/-- The roll that a record describes; `fuel` bounds its nesting. -/
def Roll.readRecord (config : Config) : Nat → Value → Except Error Roll
  | 0, _ => .error .wrongType
  | fuel + 1, record => Roll.restore (Term.readRecord config fuel) record config

end

/-- The term that a record describes. -/
def Term.ofRecord (config : Config) (record : Value) : Except Error Term :=
  Term.readRecord config (record.depth + 1) record

/-- The roll that a record describes. -/
def Roll.ofRecord (config : Config) (record : Value) : Except Error Roll :=
  Roll.readRecord config (record.depth + 1) record

end DiceFormula
