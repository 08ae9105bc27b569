import DiceFormula.Symbols
import DiceFormula.Value.Comparison

/-!
# Results of dice

A `DieResult` is what one die shows: its face, whether it still counts, and what modifiers noted on
it. The face is never changed; a modifier that gives a result another worth sets its `count`. Faces
and notes of rolled dice are integers and truth values, but a record may hold any data in their
place. The record form lists the face, the activity and the notes that were made.

A modifier works on the results in order. Where it meets data that it cannot work on, it stops, and
what it changed before stays changed: that is a `Change`.
-/

namespace DiceFormula

/-! ## Changes that may be cut short -/

/-- What came of a change: how things stand after it, and the error that cut it short, if one
did. -/
structure Change (σ : Type) where
  state : σ
  fault : Option Error := none

namespace Change

variable {α : Type}

/-- A change that happens as a whole or not at all. -/
def ofExcept (a : α) : Except Error α → Change α
  | .ok b => { state := b }
  | .error e => ⟨a, some e⟩

/-- Changes the items of a list in order, up to the first whose change is cut short. -/
def each (f : α → Change α) : List α → Change (List α)
  | [] => { state := [] }
  | a :: as =>
    match f a with
    | ⟨b, some e⟩ => ⟨b :: as, some e⟩
    | ⟨b, none⟩ => let rest := each f as; ⟨b :: rest.state, rest.fault⟩

theorem length_each (f : α → Change α) (as : List α) :
    (each f as).state.length = as.length := by
  induction as with
  | nil => rfl
  | cons a as ih =>
    rcases h : f a with ⟨b, _ | e⟩ <;> simp [each, h, ih]

/-- Where no item's change is cut short, every item is changed. -/
theorem each_eq_map (f : α → Change α) (g : α → α) (as : List α)
    (h : ∀ a ∈ as, f a = { state := g a }) : each f as = { state := as.map g } := by
  induction as with
  | nil => rfl
  | cons a as ih =>
    simp [each, h a List.mem_cons_self, ih fun b m => h b (List.mem_cons_of_mem a m)]

end Change

/-! ## Results -/

/-- What one die shows. A note that is null was not made. -/
structure DieResult where
  face : Value
  active : Value := .bool true
  count : Value := .null
  success : Value := .null
  failure : Value := .null
  discarded : Value := .null
  rerolled : Value := .null
  exploded : Value := .null

namespace DieResult

instance : Inhabited DieResult := ⟨{ face := .null }⟩

/-- Whether the result counts. -/
def isActive (r : DieResult) : Bool := r.active.truthy

/-- What the result adds to a total: its count if it has one. -/
def value (r : DieResult) : Value := if r.count.isNull then r.face else r.count

/-- Takes the result out of the total. -/
def discard (r : DieResult) : DieResult := { r with discarded := .bool true, active := .bool false }

/-- Whether the result is marked as a success. -/
def isSuccess (r : DieResult) : Bool := r.success.truthy

/-- Whether the result is marked as a failure. -/
def isFailure (r : DieResult) : Bool := r.failure.truthy

/-- The results that count. -/
def activeOf (rs : List DieResult) : List DieResult := rs.filter isActive

/-- The faces of the results that count. -/
def facesOf (rs : List DieResult) : List Value := (activeOf rs).map (·.face)

/-- Adds what a result is worth; only numbers and truth values can be added. -/
def addTo (sum : Number) (r : DieResult) : Except Error Number :=
  match r.value.number? with
  | some n => ofNumeric (sum.add n)
  | none => .error .wrongType

/-- The sum of the results that count, from the first on. -/
def total (rs : List DieResult) : Except Error Number := (activeOf rs).foldlM addTo 0

/-! ## Records -/

/-- A note under its name, if it was made. -/
def note (name : String) (v : Value) : List (String × Value) :=
  if v.isNull then [] else [(name, v)]

/-- The record of a result. -/
def toRecord (r : DieResult) : Value :=
  .mapping ([("result", r.face), ("active", r.active)]
    ++ note "count" r.count ++ note "success" r.success ++ note "failure" r.failure
    ++ note "discarded" r.discarded ++ note "rerolled" r.rerolled ++ note "exploded" r.exploded)

/-- The result with the entries of a record. -/
def ofEntries (face : Value) (record : Value) : DieResult :=
  { face
    active := (record.get? "active").getD (.bool true)
    count := record.get "count"
    success := record.get "success"
    failure := record.get "failure"
    discarded := record.get "discarded"
    rerolled := record.get "rerolled"
    exploded := record.get "exploded" }

/-- Whether the word occurs in data that are no mapping, as far as that can be asked of them. -/
def mentions? (word : String) : Value → Option Bool
  | .str s => some ((s.splitOn word).length != 1)
  | .list vs | .tuple vs => some (vs.any (Value.equals (.str word)))
  | .table d => (Symbols.contains d word).toOption
  | _ => none

/-- The result that a record describes. -/
def ofRecord (record : Value) : Except Error DieResult :=
  match record with
  | .mapping es =>
    match es.lookup "result" with
    | some face => .ok (ofEntries face record)
    | none => .error (.invalidArgument (.noResult record))
  | v =>
    if mentions? "result" v == some false then .error (.invalidArgument (.noResult record))
    else .error .wrongType

/-- The result that is a record if it names a face, and a bare face otherwise. -/
def ofData (v : Value) : Except Error DieResult :=
  if (v.get? "result").isSome then ofRecord v else .ok { face := v }

/-- Equality of results: that of their records. -/
def equals (a b : DieResult) : Bool := a.toRecord.equals b.toRecord

end DieResult

end DiceFormula
