import DiceFormula.Evaluation.Roll
import DiceFormula.Term.Determinism

/-!
# Items

An item is a term, a roll, or a compound: what is put together from terms and whole rolls. The
members of a compound stand side by side, so that it shows their formulas, dice and records one
after the other, as a roll shows those of its terms.
-/

namespace DiceFormula

mutual

/-- A term, a roll or a compound. -/
inductive Item where
  | term (t : Term)
  | roll (r : Roll)
  | compound (c : Compound)

/-- Terms and rolls side by side, at least one of them a roll, with the identified terms among them
as they stand. -/
structure Compound where
  members : List Item
  shared : List Term
  sheet : Sheet

end

namespace Item

/-- The term that an item is. -/
def term? : Item → Option Term
  | .term t => some t
  | _ => none

/-- The name of an item's class. -/
def className : Item → String
  | .term t => t.termClass.name
  | .roll _ | .compound _ => "Roll"

/-- The formula of an item. -/
def formula : Item → Except Error Value
  | .term t => t.formula
  | .roll r => .ok r.formula
  | .compound c => .ok c.sheet.formula

/-- What an item is worth so far. -/
def total : Item → Except Error Value
  | .term t => t.total
  | .roll r => .ok r.total
  | .compound _ => .ok .null

/-- The mark of having been evaluated. A compound never has been. -/
def mark : Item → Value
  | .term t => t.label.mark
  | .roll r => .bool r.evaluated
  | .compound _ => .bool false

/-- The settings an item was made with. -/
def config : Item → Config
  | .term t => t.label.config
  | .roll r => r.sheet.config
  | .compound c => c.sheet.config

/-- The identity of an item. -/
def tag? : Item → Option Nat
  | .term t => t.label.tag
  | .roll r => r.sheet.tag
  | .compound c => c.sheet.tag

/-- Gives an item an identity. -/
def setTag (tag : Nat) : Item → Item
  | .term t => .term { t with label := { t.label with tag := some tag } }
  | .roll r => .roll { r with sheet := { r.sheet with tag := some tag } }
  | .compound c => .compound { c with sheet := { c.sheet with tag := some tag } }

/-- An item after its formula was asked for. -/
def asked : Item → Item
  | .term t => .term t.asked
  | i => i

/-- An item after its formula and those of its dice were asked for. -/
def described : Item → Item
  | .term t => .term t.asked.diceAsked
  | .roll r => .roll r.diceAsked
  | i => i

end Item

/-! ## Views through all members -/

mutual

/-- The dice of an item. -/
def Item.dice : Item → List Term
  | .term t => t.dice
  | .roll r => r.allDice
  | .compound c => c.dice

/-- The dice of all members. -/
def Compound.dice : Compound → List Term
  | ⟨members, _, _⟩ => diceOfItems members

/-- The dice of some items. -/
def diceOfItems : List Item → List Term
  | [] => []
  | i :: is => i.dice ++ diceOfItems is

end

mutual

/-- Whether an item is deterministic. -/
def Item.isDeterministic : Item → Except Error Bool
  | .term t => t.isDeterministic
  | .roll r => r.isDeterministic
  | .compound c => c.isDeterministic

/-- Whether all members are deterministic. -/
def Compound.isDeterministic : Compound → Except Error Bool
  | ⟨members, _, _⟩ => itemsDeterministic members

/-- Whether all items are deterministic; the first that is not settles it. -/
def itemsDeterministic : List Item → Except Error Bool
  | [] => .ok true
  | i :: is => do if ← i.isDeterministic then itemsDeterministic is else return false

end

mutual

/-- The record of an item. -/
def Item.toRecord : Item → Value
  | .term t => t.toRecord
  | .roll r => r.toRecord
  | .compound c => c.toRecord

/-- The record of a compound: that of a roll that was not evaluated. -/
def Compound.toRecord : Compound → Value
  | ⟨members, _, sheet⟩ =>
    .mapping
      [("class", .str "Roll"), ("options", .mapping sheet.options), ("dice", .list []),
       ("formula", sheet.formula), ("terms", .list (recordsOfItems members)), ("total", .null),
       ("evaluated", .bool false)]

/-- The records of some items. -/
def recordsOfItems : List Item → List Value
  | [] => []
  | i :: is => i.toRecord :: recordsOfItems is

end

/-! ## Changes of what lies in several places -/

mutual

/-- Takes over how an item with an identity stands now. -/
def Item.update (new : Item) : Item → Item
  | .term t => if t.label.tag == new.tag? then new else .term t
  | .roll r =>
    if r.sheet.tag == new.tag? then new
    else
      match new.term? with
      | some t =>
        .roll { r with terms := Roll.updateTag t r.terms, shared := Roll.updateTag t r.shared }
      | none => .roll r
  | .compound c => if c.sheet.tag == new.tag? then new else .compound (Compound.update new c)

/-- Takes over how a member with an identity stands now. -/
def Compound.update (new : Item) : Compound → Compound
  | ⟨members, shared, sheet⟩ =>
    ⟨updateItems new members, (new.term?.elim shared fun t => Roll.updateTag t shared), sheet⟩

/-- Takes over how one of some items stands now. -/
def updateItems (new : Item) : List Item → List Item
  | [] => []
  | i :: is => Item.update new i :: updateItems new is

end

end DiceFormula
