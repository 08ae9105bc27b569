import DiceFormula.Formula.Atom
import DiceFormula.Text.Letter

/-!
# Groups of a formula

A group is a part of a formula in parentheses or braces: a nested formula, the arguments of a
function, or a pool. `Piece.ofText` cuts out the outermost groups; what remains is flat and can be
split at operators. `Piece.render` shows the flat rest with a numbered mark in the place of every
group.
-/

namespace DiceFormula

/-- The brackets that make groups. -/
inductive Bracket
  | paren
  | brace
  deriving DecidableEq, Repr

namespace Bracket

/-- The opening character. -/
def opening : Bracket → Char
  | paren => '('
  | brace => '\x7b'

/-- The closing character. -/
def closing : Bracket → Char
  | paren => ')'
  | brace => '\x7d'

/-- The bracket that a character opens. -/
def ofOpening? (c : Char) : Option Bracket := [paren, brace].find? (·.opening == c)

/-- Whether a character closes a group. -/
def isClosing (c : Char) : Bool := [paren, brace].any (·.closing == c)

end Bracket

/-- A group: its brackets, the function it gives arguments to, and the text inside. -/
structure Group where
  bracket : Bracket
  fn : Option String
  inner : String
  deriving DecidableEq, Repr

/-- A part of a formula without its groups: an atom, or the place of a group. -/
inductive Piece
  | atom (a : Atom)
  | group (g : Group)
  deriving DecidableEq, Repr

namespace Piece

/-! ## Function names -/

/-- Whether a piece is a letter, a digit, or ends with a dollar sign, as the mark of a group does. A
name right after such a piece is not a function name: `1d20max(` calls nothing. -/
def joinsName : Piece → Bool
  | .atom (.char c) => Letter.isWordChar c || c == '$'
  | .atom (.flavor _) => false
  | .group _ => true

/-- The character of a piece that may stand in a function name. -/
def nameChar? : Piece → Option Char
  | .atom (.char c) => if c.isAlphanum then some c else none
  | _ => none

/-- The letters and digits at the front, and what follows them. -/
def takeName : List Piece → List Char × List Piece
  | [] => ([], [])
  | p :: ps =>
    match nameChar? p with
    | some c => let (cs, rest) := takeName ps; (c :: cs, rest)
    | none => ([], p :: ps)

/-- Takes the function name off the pieces before a parenthesis, which are given last one first. A
name begins with a letter, has at least two characters, and is a word of its own; a line break may
follow it. -/
def takeFunction (before : List Piece) : Option String × List Piece :=
  let named := match before with
    | .atom (.char '\n') :: ps => ps
    | ps => ps
  let (reversed, rest) := takeName named
  match reversed.reverse with
  | c :: d :: cs =>
    if c.isAlpha && !(rest.head?.any joinsName) then (some (String.ofList (c :: d :: cs)), rest)
    else (none, before)
  | _ => (none, before)

/-! ## Cutting out groups -/

/-- A group that is still open: how many more of its brackets are open inside, the function it
belongs to, and the atoms so far, last one first. -/
structure Pending where
  bracket : Bracket
  fn : Option String
  depth : Nat
  inner : List Atom

/-- The group that is closed now. -/
def Pending.close (p : Pending) : Group :=
  ⟨p.bracket, p.fn, String.ofList (Blank.trim (Atom.render p.inner.reverse))⟩

/-- Opens a group after some pieces, last one first. A parenthesis takes its function name along. -/
def openGroup (b : Bracket) (done : List Piece) : Pending × List Piece :=
  match b with
  | .paren => let (fn, done) := takeFunction done; (⟨b, fn, 0, []⟩, done)
  | .brace => (⟨b, none, 0, []⟩, done)

/-- Reads an atom inside a group; only brackets of its own kind count. -/
def Pending.read (p : Pending) (a : Atom) : Pending ⊕ Group :=
  match a with
  | .char c =>
    if c == p.bracket.opening then .inl { p with depth := p.depth + 1, inner := a :: p.inner }
    else if c == p.bracket.closing then
      match p.depth with
      | 0 => .inr p.close
      | d + 1 => .inl { p with depth := d, inner := a :: p.inner }
    else .inl { p with inner := a :: p.inner }
  | .flavor _ => .inl { p with inner := a :: p.inner }

/-- Cuts out the outermost groups. `text` is the whole formula, for messages; `group` is the group
being read and `done` the pieces before, last one first. -/
def extract (text : String) :
    Option Pending → List Piece → List Atom → Except ParseFault (List Piece)
  | none, done, [] => .ok done.reverse
  | some p, _, [] => .error (.unmatched p.bracket.opening text)
  | _, _, .char '[' :: _ => .error (.unmatched '[' text)
  | some p, done, a :: as =>
    match p.read a with
    | .inl p => extract text (some p) done as
    | .inr g => extract text none (.group g :: done) as
  | none, done, .char c :: as =>
    match Bracket.ofOpening? c with
    | some b => let (p, done) := openGroup b done; extract text (some p) done as
    | none =>
      if Bracket.isClosing c then .error (.unmatched c text)
      else extract text none (.atom (.char c) :: done) as
  | none, done, a :: as => extract text none (.atom a :: done) as

/-- Cuts the outermost groups out of a formula. -/
def ofText (formula : String) : Except ParseFault (List Piece) :=
  extract formula none [] (Atom.scan formula.toList)

/-! ## The flat rest -/

/-- The groups among some pieces. -/
def groups (ps : List Piece) : List Group :=
  ps.filterMap fun
    | .group g => some g
    | .atom _ => none

/-- The text of some pieces with the groups numbered from `n` on. -/
def renderFrom (n : Nat) : List Piece → List Char
  | [] => []
  | .atom a :: ps => a.text ++ renderFrom n ps
  | .group _ :: ps => ("$$F" ++ toString n ++ "$$").toList ++ renderFrom (n + 1) ps

/-- The text of some pieces, with a mark in the place of every group. -/
def render (ps : List Piece) : String := String.ofList (renderFrom 0 ps)

end Piece

end DiceFormula
