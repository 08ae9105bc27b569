import DiceFormula.Term.Text

/-!
# Tooltips

The data that a display shows for dice: their formula, total and faces, and for every result a label
and the classes it is drawn with.
-/

namespace DiceFormula

namespace DieResult

/-- What a display shows for certain faces. -/
def labels : DiceKind → List (Int × String)
  | .die => []
  | .coin => [(0, "T"), (1, "H")]
  | .fate => [(-1, "-"), (0, ""), (1, "+")]

/-- The label of a result: coins show heads or tails, Fate dice a sign, everything else its face.
Labels are looked up by face, which must be fit for it. -/
def label (kind : DiceKind) (r : DieResult) : Except Error String :=
  match kind with
  | .die => .ok r.face.text
  | .coin | .fate =>
    if r.face.isKey then
      .ok (((labels kind).find? fun (n, _) => r.face.equals (.int n)).elim r.face.text (·.2))
    else .error .wrongType

/-- The word if the condition holds. -/
def wordIf (condition : Bool) (word : String) : List String := if condition then [word] else []

/-- The classes of a result: how it was marked, and whether it is extreme where nothing was
counted. -/
def displayClasses (d : Dice) (r : DieResult) : List String :=
  let counted := wordIf r.isSuccess "success" ++ wordIf r.isFailure "failure"
  match d.kind with
  | .coin => counted
  | .die | .fate =>
    let flagged := !r.success.isNull || !r.failure.isNull
    counted ++ wordIf r.rerolled.truthy "rerolled" ++ wordIf r.exploded.truthy "exploded"
      ++ wordIf r.discarded.truthy "discarded"
      ++ wordIf (!flagged && r.face.equals (.int 1)) "min"
      ++ wordIf (!flagged && r.face.equals d.faces) "max"

/-- A result as a tooltip shows it. -/
def tooltip (d : Dice) (r : DieResult) : Except Error Value := do
  return .mapping
    [("result", .str (← r.label d.kind)), ("classes", .str (" ".intercalate (r.displayClasses d)))]

end DieResult

/-- The tooltip of dice. The default flavor stands in for a missing one. Other terms have none. -/
def Term.tooltip (default : Value) (t : Term) : Except Error Value :=
  match t.body with
  | .dice d => do
    return .mapping
      [("formula", ← t.expression), ("total", ← t.total), ("faces", d.faces),
       ("flavor", t.flavor.orElse default),
       ("rolls", .list (← d.hand.results.mapM (DieResult.tooltip d)))]
  | _ => .error .missingAttribute

/-- The tooltips of the dice among some terms. -/
def tooltipsOf (flavor : Value) (ts : List Term) : Except Error Value := do
  return .list (← (ts.filter Term.isDice).mapM (Term.tooltip flavor))

/-- The tooltips of all dice of a roll. -/
def Roll.tooltip (r : Roll) : Except Error Value :=
  tooltipsOf r.sheet.options.flavor r.allDice

end DiceFormula
