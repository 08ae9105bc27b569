import DiceFormula.Arithmetic.Token
import DiceFormula.Formula.Group

/-!
# Tokens of a formula

A flat formula is split into tokens at its operators and at spaces; a flavor that stands by itself
belongs to the token before it. Arguments and pool members are split at commas outside of brackets.
-/

namespace DiceFormula

namespace Arithmetic.Sign

/-- All signs. -/
def all : List Sign := [plus, minus, times, divide, modulo]

/-- The sign of a character. -/
def ofChar? (c : Char) : Option Sign := all.find? (·.char == c)

theorem ofChar?_char (s : Sign) : ofChar? s.char = some s := by cases s <;> decide

theorem char_of_ofChar? {c : Char} {s : Sign} (h : ofChar? c = some s) : s.char = c := by
  have found := List.find?_some h
  exact beq_iff_eq.1 found

end Arithmetic.Sign

/-- A token of a formula: an operator, or the pieces of a value. -/
inductive FormulaToken
  | sign (s : Arithmetic.Sign)
  | value (ps : List Piece)
  deriving DecidableEq, Repr

namespace FormulaToken

/-- The text of a token. -/
def text : FormulaToken → String
  | sign s => s.char.toString
  | value ps => Piece.render ps

/-- Ends a value, if one has been begun; its pieces are given last one first. -/
def flush (current : List Piece) (rest : List FormulaToken) : List FormulaToken :=
  if current.isEmpty then rest else value current.reverse :: rest

/-- Splits pieces into tokens; `current` is the value so far, last piece first. -/
def splitFrom : List Piece → List Piece → List FormulaToken
  | current, [] => flush current []
  | current, .atom (.char c) :: ps =>
    match Arithmetic.Sign.ofChar? c with
    | some s => flush current (sign s :: splitFrom [] ps)
    | none => if c == ' ' then flush current (splitFrom [] ps)
      else splitFrom (.atom (.char c) :: current) ps
  | current, p :: ps => splitFrom (p :: current) ps

/-- The flavor that some pieces consist of; a line break may follow it. -/
def flavorOnly? : List Piece → Option (List Char)
  | [.atom (.flavor body)] => if body.isEmpty then none else some body
  | [.atom (.flavor body), .atom (.char '\n')] => if body.isEmpty then none else some body
  | _ => none

/-- Appends every lone flavor to the value before it; `done` holds the tokens before, last one
first. -/
def mergeFrom : List FormulaToken → List FormulaToken → List FormulaToken
  | done, [] => done.reverse
  | value qs :: done, value ps :: ts =>
    if (flavorOnly? ps).isSome then mergeFrom (value (qs ++ ps) :: done) ts
    else mergeFrom (value ps :: value qs :: done) ts
  | done, t :: ts => mergeFrom (t :: done) ts

/-- The tokens of some pieces. -/
def ofPieces (ps : List Piece) : List FormulaToken := mergeFrom [] (splitFrom [] ps)

/-- Whether an atom is a square bracket that is never closed. -/
def isLoose (a : Atom) : Bool := a == .char '['

theorem any_isLoose (as : List Atom) : as.any isLoose = false ↔ Atom.char '[' ∉ as := by
  rw [List.any_eq_false]
  refine ⟨fun h hm => h _ hm rfl, fun h a ha loose => ?_⟩
  obtain rfl := beq_iff_eq.1 loose
  exact h ha

/-- The tokens of a text without groups. -/
def ofText (text : String) : Except ParseFault (List FormulaToken) :=
  let as := Atom.scan text.toList
  if as.any isLoose then .error (.unmatched '[' text) else .ok (ofPieces (as.map Piece.atom))

end FormulaToken

namespace Atom

/-- How an atom changes the number of open brackets. -/
def nesting : Atom → Int
  | char c => if (Bracket.ofOpening? c).isSome then 1 else if Bracket.isClosing c then -1 else 0
  | flavor _ => 0

/-- Whether an atom is the given character. -/
def isChar (separator : String) : Atom → Bool
  | char c => c.toString == separator
  | flavor _ => false

/-- Splits at every separator outside of brackets. `depth` is the number of open brackets and
`current` the part so far, last atom first. -/
def splitAt (separator : String) : Int → List Atom → List Atom → List (List Atom)
  | _, current, [] => [current.reverse]
  | depth, current, a :: as =>
    let depth := depth + a.nesting
    if isChar separator a && depth == 0 then current.reverse :: splitAt separator depth [] as
    else splitAt separator depth (a :: current) as

end Atom

/-- The trimmed parts of a text between separators outside of brackets. -/
def splitTopLevel (text : String) (separator : String) : Except ParseFault (List String) :=
  let as := Atom.scan text.toList
  if as.any FormulaToken.isLoose then .error (.unmatched '[' text)
  else
    .ok ((Atom.splitAt separator 0 [] as).map fun part =>
      String.ofList (Blank.trim (Atom.render part)))

/-- The trimmed parts of a text between separators outside of brackets, for every separator. One
that takes two characters changes places with the comma for the time of the search. -/
def splitAtPoint (text : String) (separator : String) : Except ParseFault (List String) :=
  match Surrogate.points separator.toList with
  | [n] =>
    if separator.length = 1 then splitTopLevel text separator
    else
      let exchange := Surrogate.exchange n (','.toNat)
      if (Atom.scan text.toList).any FormulaToken.isLoose then .error (.unmatched '[' text)
      else do return (← splitTopLevel (exchange text) ",").map exchange
  | _ => splitTopLevel text separator

end DiceFormula
