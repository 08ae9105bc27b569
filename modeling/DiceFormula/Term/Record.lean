import DiceFormula.Term.Text

/-!
# Records of terms and rolls

A record is data from which a term or a roll can be restored. It names the class, the options and
whether there has been an evaluation; what follows depends on the class. A group shows its roll, and
a call its rolls and result, only once they are evaluated. Records know no tuples: those of a term
become lists.
-/

namespace DiceFormula

namespace Hand

/-- The modifiers as data. -/
def modifierRecords (h : Hand) : Value := .list (h.modifiers.map Value.recorded)

/-- The results as data. -/
def resultRecords (h : Hand) : Value := .list (h.results.map DieResult.toRecord)

end Hand

/-- Texts as data. -/
def textRecords (ss : List String) : Value := .list (ss.map Value.str)

/-- What every record of a term begins with. -/
def recordHead (c : TermClass) (l : Label) : List (String × Value) :=
  [("class", .str c.name), ("options", .mapping l.options), ("evaluated", l.mark)]

mutual

/-- The record of a term. -/
def Term.toRecord : Term → Value
  | ⟨body, l, _⟩ => .mapping (recordHead body.termClass l ++ Body.entries l.mark.truthy body)

/-- The entries that describe the content of a term. -/
def Body.entries (evaluated : Bool) : Body → List (String × Value)
  | .number n => [("number", .num n)]
  | .operator s => [("operator", .str s.char.toString)]
  | .text t => [("term", t.recorded)]
  | .group source none => [("term", source.recorded)]
  | .group source (some r) =>
    ("term", source.recorded)
      :: if r.sheet.state.isEvaluated then [("roll", Roll.toRecord r)] else []
  | .call fn args rolls result =>
    [("fn", fn.recorded), ("terms", textRecords args)]
      ++ if evaluated && !rolls.isEmpty then
          [("rolls", .list (rollRecords rolls)), ("result", result)]
        else []
  | .pool args rolls hand =>
    [("terms", textRecords args), ("modifiers", hand.modifierRecords),
     ("rolls", .list (rollRecords rolls)), ("results", hand.resultRecords)]
  | .dice d =>
    [("number", d.number.recorded), ("faces", d.faces.recorded),
     ("modifiers", d.hand.modifierRecords), ("results", d.hand.resultRecords)]

/-- The record of a roll. -/
def Roll.toRecord : Roll → Value
  | ⟨terms, dice, _, sheet⟩ =>
    .mapping
      [("class", .str "Roll"), ("options", .mapping sheet.options),
       ("dice", .list (termRecords dice)), ("formula", sheet.formula),
       ("terms", .list (termRecords terms)),
       ("total", if sheet.state.isEvaluated then sheet.total else .null),
       ("evaluated", .bool sheet.state.isEvaluated)]

/-- The records of some rolls. -/
def rollRecords : List Roll → List Value
  | [] => []
  | r :: rs => r.toRecord :: rollRecords rs

/-- The records of some terms. -/
def termRecords : List Term → List Value
  | [] => []
  | t :: ts => t.toRecord :: termRecords ts

end

end DiceFormula
