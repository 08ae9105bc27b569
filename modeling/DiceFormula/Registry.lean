import DiceFormula.Item.Compound

/-!
# Registries

A registry keeps items under names. What is put into a roll or a compound stays the same: it has an
identity, and what happens to it in one place is seen wherever it lies.
-/

namespace DiceFormula

/-- An item and the identified terms in it, as they stand. -/
def Item.identified : Item → List Item
  | .term t => [.term t]
  | .roll r => .roll r :: r.shared.map .term
  | .compound c => .compound c :: c.shared.map .term

/-- Named items. -/
structure Registry where
  items : List (String × Item) := []
  nextTag : Nat := 0

namespace Registry

/-- The item of a name. -/
def find? (g : Registry) (name : String) : Option Item := g.items.lookup name

/-- Sets the item of a name. -/
def put (name : String) (item : Item) : List (String × Item) → List (String × Item)
  | [] => [(name, item)]
  | (n, old) :: items => if n == name then (n, item) :: items else (n, old) :: put name item items

/-- Takes over how an item stands now, wherever it lies. -/
def take (g : Registry) (new : Item) : Registry :=
  if new.tag?.isSome then { g with items := g.items.map fun (n, i) => (n, Item.update new i) }
  else g

/-- Takes over how some items stand now. -/
def share (new : List Item) (g : Registry) : Registry := new.foldl take g

/-- Takes over a changed item under its name, and what it shares with others. -/
def change (name : String) (item : Item) (g : Registry) : Registry :=
  share item.identified { g with items := put name item g.items }

/-- Stores a new item and gives it an identity. -/
def store (name : String) (item : Item) (g : Registry) : Registry :=
  { items := put name (item.setTag g.nextTag) g.items, nextTag := g.nextTag + 1 }

end Registry

end DiceFormula
