import DiceFormula.Number.Basic
import DiceFormula.Text.Surrogate

/-!
# Values

The data that records, settings and symbol tables are made of: nothing, truth values, numbers,
texts, lists, tuples, mappings in the order they were written, and symbol tables inside data.
`Value.equals` is equality by content: numbers compare by value, truth values count as 1 and 0, and
the order of a mapping does not matter; the undefined double and symbol tables equal nothing.
`Value.same` differs in that everything is the same as itself.
-/

namespace DiceFormula

/-- A piece of data. -/
inductive Value
  | null
  | bool (b : Bool)
  | num (n : Number)
  | str (s : String)
  | list (vs : List Value)
  | tuple (vs : List Value)
  | mapping (es : List (String × Value))
  | table (data : Value)

namespace Value

instance : Inhabited Value := ⟨.null⟩

/-- An integer as data. -/
def int (n : Int) : Value := .num (.int n)

/-- The name of a value's type. -/
def typeName : Value → String
  | .null => "NoneType"
  | .bool _ => "bool"
  | .num (.int _) => "int"
  | .num (.float _) => "float"
  | .str _ => "str"
  | .list _ => "list"
  | .tuple _ => "tuple"
  | .mapping _ => "dict"
  | .table _ => "SymbolTable"

/-- Whether there is no value. -/
def isNull : Value → Bool
  | .null => true
  | _ => false

/-- Whether a value counts as true: zero and everything empty do not. -/
def truthy : Value → Bool
  | .null => false
  | .bool b => b
  | .num n => !n.isZero
  | .str s => !s.isEmpty
  | .list vs => !vs.isEmpty
  | .tuple vs => !vs.isEmpty
  | .mapping es => !es.isEmpty
  | .table _ => true

/-- The value, or `other` where it does not count as true. -/
def orElse (v other : Value) : Value := if v.truthy then v else other

/-- The entry of a mapping. -/
def get? (key : String) : Value → Option Value
  | .mapping es => es.lookup key
  | _ => none

/-- The entry of a mapping, nothing where it is missing. -/
def get (v : Value) (key : String) : Value := (v.get? key).getD .null

/-- A number or a truth value as a number. -/
def number? : Value → Option Number
  | .num n => some n
  | .bool b => some (if b then 1 else 0)
  | _ => none

/-- The integer of an integer value; truth values are none. -/
def int? : Value → Option Int
  | .num (.int n) => some n
  | _ => none

/-- A text, where only texts are asked for. -/
def str? : Value → Option String
  | .str s => some s
  | _ => none

/-! ## Equality by content -/

/-- Equality of numbers in value; with `identity`, identical numbers are equal too. -/
def sameNumber (identity : Bool) (a b : Number) : Bool := a.eq b || (identity && a == b)

mutual

/-- Equality by content. With `identity`, what cannot be compared is the same as itself. Truth
values are the numbers 1 and 0. -/
def sameBy (identity : Bool) : Value → Value → Bool
  | .null, .null => true
  | .bool a, .bool b => a == b
  | .bool a, .num b => sameNumber identity (if a then 1 else 0) b
  | .num a, .bool b => sameNumber identity a (if b then 1 else 0)
  | .num a, .num b => sameNumber identity a b
  | .str a, .str b => a == b
  | .list a, .list b => sameAllBy identity a b
  | .tuple a, .tuple b => sameAllBy identity a b
  | .mapping a, .mapping b => a.length == b.length && sameEntriesBy identity a b
  | .table a, .table b => identity && sameBy identity a b
  | _, _ => false

/-- Equality item by item. -/
def sameAllBy (identity : Bool) : List Value → List Value → Bool
  | [], [] => true
  | a :: as, b :: bs => sameBy identity a b && sameAllBy identity as bs
  | _, _ => false

/-- Whether every entry has an equal one under its key in `bs`. -/
def sameEntriesBy (identity : Bool) : List (String × Value) → List (String × Value) → Bool
  | [], _ => true
  | (k, a) :: as, bs =>
    (match bs.lookup k with
     | some b => sameBy identity a b
     | none => false) && sameEntriesBy identity as bs

end

/-- Equality by content; the undefined double and symbol tables differ from everything. -/
def equals (a b : Value) : Bool := sameBy false a b

/-- Equality by content; everything is the same as itself. -/
def same (a b : Value) : Bool := sameBy true a b

@[simp] theorem equals_int (a b : Int) : equals (.int a) (.int b) = decide (a = b) := by
  simp [equals, int, sameBy, sameNumber]

/-! ## Data as keys, as items and in templates -/

mutual

/-- Whether a value may be looked up as a key. -/
def isKey : Value → Bool
  | .list _ | .mapping _ => false
  | .tuple vs => areKeys vs
  | _ => true

/-- Whether all items may be looked up as keys. -/
def areKeys : List Value → Bool
  | [] => true
  | v :: vs => isKey v && areKeys vs

end

/-- The characters of a text as data. -/
def charactersOf (s : String) : List Value := (Surrogate.characters s).map .str

/-- The items that a value holds: list items, the characters of a text, the keys of a mapping. -/
def items? : Value → Option (List Value)
  | .list vs | .tuple vs => some vs
  | .str s => some (charactersOf s)
  | .mapping es => some (es.map fun (k, _) => .str k)
  | _ => none

/-- What fills the single gap of a template: a tuple stands for the list of fillings, so that it
must have one item. -/
def filling? : Value → Option Value
  | .tuple [v] => some v
  | .tuple _ => none
  | v => some v

/-- Repeats a value minus once: numbers change their sign, and nothing is left of texts, lists and
tuples. -/
def negated? : Value → Option Value
  | .num n => some (.num n.neg)
  | .bool b => some (.num (Number.neg (if b then 1 else 0)))
  | .str _ => some (.str "")
  | .list _ => some (.list [])
  | .tuple _ => some (.tuple [])
  | _ => none

mutual

/-- The value as a record keeps it: tuples become lists. What lies inside a mapping stays as it
is. -/
def recorded : Value → Value
  | .list vs | .tuple vs => .list (recordedAll vs)
  | v => v

/-- The items as a record keeps them. -/
def recordedAll : List Value → List Value
  | [] => []
  | v :: vs => recorded v :: recordedAll vs

end

mutual

/-- Whether no symbol table lies in a value. -/
def isPlain : Value → Bool
  | .table _ => false
  | .list vs | .tuple vs => arePlain vs
  | .mapping es => entriesPlain es
  | _ => true

/-- Whether no symbol table lies in a list. -/
def arePlain : List Value → Bool
  | [] => true
  | v :: vs => isPlain v && arePlain vs

/-- Whether no symbol table lies in the entries of a mapping. -/
def entriesPlain : List (String × Value) → Bool
  | [] => true
  | (_, v) :: es => isPlain v && entriesPlain es

end

/-- A symbol table of some data; without data it is empty. -/
def symbolTable : Value → Value
  | .null => .table (.mapping [])
  | v => .table v

/-! ## Mappings -/

/-- Sets an entry, in its old place if the key is there. -/
def put (key : String) (v : Value) : List (String × Value) → List (String × Value)
  | [] => [(key, v)]
  | (k, w) :: es => if k == key then (key, v) :: es else (k, w) :: put key v es

theorem lookup_put_self (key : String) (v : Value) (es : List (String × Value)) :
    (put key v es).lookup key = some v := by
  induction es with
  | nil => simp [put]
  | cons e es ih =>
    obtain ⟨k, w⟩ := e
    by_cases h : k = key
    · simp [put, h]
    · have h' : (key == k) = false := by simpa using fun e => h e.symm
      simp [put, h, List.lookup_cons, h', ih]

end Value

end DiceFormula
