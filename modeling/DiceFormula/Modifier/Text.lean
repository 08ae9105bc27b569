import DiceFormula.Error
import DiceFormula.Text.Blank
import DiceFormula.Text.Case
import DiceFormula.Text.Digit

/-!
# The text of modifiers

A modifier is a command of letters and what belongs to it, such as `kh3` or `r2<4`. `split` cuts a
run of modifiers into single ones; the patterns below read what follows a command: a direction, a
limit, a comparison and a target.
-/

namespace DiceFormula.Modifier

/-- An ASCII letter. -/
def isLetter (c : Char) : Bool := c.isAlpha

/-- A character that may follow the letters of a modifier. -/
def isSuffix (c : Char) : Bool :=
  !(isLetter c || Blank.isBlank c || c == '(' || c == ')' || c == '+' || c == '-' || c == '*'
    || c == '/')

/-- Cuts a run of modifiers; `fuel` bounds its length. Characters that no modifier can hold are
skipped. -/
def splitFrom : Nat → List Char → List (List Char)
  | 0, _ => []
  | fuel + 1, cs =>
    let word := cs.takeWhile isLetter
    if word.isEmpty then
      match cs with
      | [] => []
      | _ :: r => splitFrom fuel r
    else
      let rest := cs.drop word.length
      let suffix := rest.takeWhile isSuffix
      (word ++ suffix) :: splitFrom fuel (rest.drop suffix.length)

/-- Cuts a run of modifiers such as `kh3r1x` into single ones. -/
def split (text : String) : List String :=
  let cs := text.toList
  (splitFrom (cs.length + 1) cs).map String.ofList

/-- The modifiers of a run as data. -/
def splitValues (text : String) : List Value := (split text).map Value.str

/-- The integer that a text of digits writes, or the default for any other text. A text of mere
digit forms has no value. -/
def parseInt (text : Option String) (default : Value) : Except Error Value :=
  match text with
  | none => .ok default
  | some t =>
    if Digit.allDigits t.toList then
      match Digit.readNat? t.toList with
      | some n => .ok (.int n)
      | none => .error .wrongValue
    else .ok default

/-! ## Patterns -/

/-- Removes a word from the front, whatever its case. -/
def strip? : List Char → List Char → Option (List Char)
  | [], cs => some cs
  | _ :: _, [] => none
  | w :: ws, c :: cs => if Case.fold c == w then strip? ws cs else none

/-- A character of a comparison. -/
def isComparison (c : Char) : Bool := c == '<' || c == '>' || c == '='

/-- The ASCII digits at the front as a number, none if there are none. -/
def takeNumber (cs : List Char) : Option Nat × List Char :=
  let ds := cs.takeWhile Char.isDigit
  (if ds.isEmpty then none else some (ds.foldl (fun n c => 10 * n + (c.toNat - 48)) 0),
    cs.drop ds.length)

/-- The comparison at the front as text, none if there is none. -/
def takeComparison (cs : List Char) : Option String × List Char :=
  let ks := cs.takeWhile isComparison
  (if ks.isEmpty then none else some (String.ofList ks), cs.drop ks.length)

/-- The direction at the front: highest or lowest. -/
def takeDirection (cs : List Char) : Option Bool × List Char :=
  match cs with
  | c :: r =>
    if Case.fold c == 'h' then (some true, r)
    else if Case.fold c == 'l' then (some false, r)
    else (none, cs)
  | [] => (none, [])

/-- A comparison and a target, either of which may be missing. -/
def takeCondition (cs : List Char) : Option String × Option Nat :=
  let (comparison, r) := takeComparison cs
  (comparison, (takeNumber r).1)

/-- What a reroll or an explosion asks for: how often at most, and which results it touches. -/
structure Matching where
  limit : Option Nat
  comparison : String
  target : Option Nat
  deriving DecidableEq, Repr

/-- Reads limit, comparison and target. A lone number is the target. -/
def takeMatching (cs : List Char) : Matching :=
  let (limit, r) := takeNumber cs
  let (comparison, target) := takeCondition r
  match limit, comparison, target with
  | some n, none, none => ⟨none, "=", some n⟩
  | _, _, _ => ⟨limit, comparison.getD "=", target⟩

end DiceFormula.Modifier
