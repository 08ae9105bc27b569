import DiceFormula.Modifier.Text
import DiceFormula.Result.Selection
import DiceFormula.Result.Tally

/-!
# Modifiers that roll nothing

Each modifier here reads its text and changes the results at hand. `none` means that the text was
not understood, in which case the results are as before.
-/

namespace DiceFormula.Modifier

/-- The outcome of a modifier: not understood, or what came of the results. -/
abbrev Outcome := Option (Change (List DieResult))

/-- The number that a modifier names, by default one. -/
def numberOr1 (n : Option Nat) : Value := .int (n.getD 1)

/-- Reads `k`, `kh`, `kl`: keeps the highest or lowest results, by default the highest one. -/
def keep (text : List Char) (rs : List DieResult) : Outcome :=
  (strip? ['k'] text).map fun r =>
    let (direction, r) := takeDirection r
    DieResult.keepOrDrop (numberOr1 (takeNumber r).1) true (direction.getD true) rs

/-- Reads `d`, `dl`, `dh`: drops the lowest or highest results, by default the lowest one. -/
def drop (text : List Char) (rs : List DieResult) : Outcome :=
  (strip? ['d'] text).map fun r =>
    let (direction, r) := takeDirection r
    DieResult.keepOrDrop (numberOr1 (takeNumber r).1) false (direction.getD false) rs

/-- A comparison as a modifier writes it; without one equality is meant. -/
def comparisonOr (comparison : Option String) : Value := .str (comparison.getD "=")

/-- Reads `cs` and `cf`: counts the results that meet a comparison. Without a target and a default
there is nothing to count. -/
def count (default : Value) (m : DieResult.Marking) (text : List Char) (rs : List DieResult) :
    Outcome :=
  ((strip? ['c', 's'] text).or (strip? ['c', 'f'] text)).bind fun r =>
    let (comparison, target) := takeCondition r
    let target := (target.map fun n => Value.int n).getD default
    if target.isNull then none
    else some (DieResult.tally (comparisonOr comparison) target m rs)

/-- Reads `df` and `sf`: lets failures count against the total. -/
def deduct (p : DieResult.Penalty) (text : List Char) (rs : List DieResult) : Outcome :=
  ((strip? ['d', 'f'] text).or (strip? ['s', 'f'] text)).map fun r =>
    let (comparison, target) := takeCondition r
    DieResult.deduct (target.map fun n => (comparisonOr comparison, .int n)) p rs

/-! ### Modifiers of rolled dice

The faces of dice that were just rolled are integers. -/

/-- Whether a face is an even integer. -/
def isEven (face : Value) : Bool := face.int?.any (· % 2 == 0)

/-- Notes for every result whether its face passes a test, and counts those that do. -/
def countFaces (test : Value → Bool) (rs : List DieResult) : List DieResult :=
  rs.map fun r =>
    { r with success := .bool (test r.face), count := .int (if test r.face then 1 else 0) }

/-- Carries out `even` and `odd`: counts the results of one parity. -/
def parity (even : Bool) (rs : List DieResult) : List DieResult :=
  countFaces (fun face => isEven face == even) rs

/-- Lets every face that stands in the relation to the bound count as the bound. -/
def clamp (outside : Int → Int → Bool) (bound : Nat) (rs : List DieResult) : List DieResult :=
  rs.map fun r =>
    if r.face.int?.any (outside · bound) then
      { r with count := .int bound, rerolled := .bool true }
    else r

/-- Reads `min3`: a face below the bound counts as the bound. -/
def minimum (text : List Char) (rs : List DieResult) : Option (List DieResult) :=
  (strip? ['m', 'i', 'n'] text).bind fun r =>
    (takeNumber r).1.map fun n => clamp (fun face bound => decide (face < bound)) n rs

/-- Reads `max5`: a face above the bound counts as the bound. -/
def maximum (text : List Char) (rs : List DieResult) : Option (List DieResult) :=
  (strip? ['m', 'a', 'x'] text).bind fun r =>
    (takeNumber r).1.map fun n => clamp (fun face bound => decide (bound < face)) n rs

/-- Reads `c1` and `c0`: counts the coins that show the called side. -/
def callSide (text : List Char) (rs : List DieResult) : Option (List DieResult) :=
  match strip? ['c'] text with
  | some ('0' :: _) => some (countFaces (·.equals (.int 0)) rs)
  | some ('1' :: _) => some (countFaces (·.equals (.int 1)) rs)
  | _ => none

end DiceFormula.Modifier
