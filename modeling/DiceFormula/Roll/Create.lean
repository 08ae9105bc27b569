import DiceFormula.Formula.Grammar
import DiceFormula.Term.Restore
import DiceFormula.Value.Json

/-!
# Creating rolls

A roll comes from a formula, from terms that are there already, or from a record. Terms with an
identity stay the same terms in every roll they are put into.
-/

namespace DiceFormula.Roll

/-- The roll of a formula, whose symbols stand for values in `data`. -/
def create (formula data options : Value) (config : Config) : Except Error Roll := do
  let p ← Formula.parse formula data config
  return ofTerms p.terms (← Options.ofValue options) config

/-- Whether a formula can be read. Only the library's own refusals count as a no. -/
def validate (formula data : Value) (config : Config) : Except Error Bool :=
  match create formula data .null config with
  | .ok _ => .ok true
  | .error e => if e.kind.isOwn then .ok false else .error e

/-- The terms with an identity, each once. -/
def identified (ts : List Term) : List Term :=
  ts.foldl
    (fun found t =>
      if t.label.tag.isNone || found.any fun u => u.label.tag == t.label.tag then found
      else found ++ [t])
    []

/-- The roll of the given terms, which must all be writable. -/
def assemble (terms : List Term) (options : Value) (config : Config) : Except Error Roll := do
  let r ← ofTerms? terms (← Options.ofValue options) config
  return { r with shared := identified terms }

/-- The roll that a JSON text describes. -/
def ofJson (text : String) (config : Config) : Except Error Roll :=
  match Json.read? text with
  | some v => Roll.ofRecord config v
  | none => .error .badJson

/-- A record as JSON, which has no symbol tables. -/
def recordJson (record : Value) : Except Error String :=
  if record.isPlain then .ok (Json.write record) else .error .wrongType

/-- The record of a roll as JSON. -/
def toJson (r : Roll) : Except Error String := recordJson r.toRecord

end DiceFormula.Roll
