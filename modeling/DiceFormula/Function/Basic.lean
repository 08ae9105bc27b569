import DiceFormula.Error
import DiceFormula.Number.Analysis
import DiceFormula.Text.Case
import DiceFormula.Value.Comparison

/-!
# Functions

The functions a formula may call, such as `floor(7/2)`. `Function.onNumbers` is their meaning on
numbers; `Function.call` checks the number of arguments and turns every failure, and every infinite
or undefined result, into a refusal that names the call. Truth values among the arguments count as 1
and 0; only the smallest and the largest of its arguments are also defined on other data.
-/

namespace DiceFormula

/-- A function of formulas. -/
inductive Function
  | floor | ceil | round | trunc | abs | sign | sqrt | cbrt | exp | log | log2 | log10 | pow | min
  | max | hypot
  deriving DecidableEq, Repr

namespace Function

/-- All functions. -/
def all : List Function :=
  [floor, ceil, round, trunc, abs, sign, sqrt, cbrt, exp, log, log2, log10, pow, min, max, hypot]

/-- The name by which a formula calls a function. -/
def name : Function → String
  | floor => "floor"
  | ceil => "ceil"
  | round => "round"
  | trunc => "trunc"
  | abs => "abs"
  | sign => "sign"
  | sqrt => "sqrt"
  | cbrt => "cbrt"
  | exp => "exp"
  | log => "log"
  | log2 => "log2"
  | log10 => "log10"
  | pow => "pow"
  | min => "min"
  | max => "max"
  | hypot => "hypot"

/-- The function of a name. -/
def ofName? (n : String) : Option Function := all.find? (·.name == n)

theorem ofName?_name (f : Function) : ofName? f.name = some f := by
  cases f <;> decide

/-- The number of arguments; none for one or more. -/
def arity? : Function → Option Nat
  | min | max | hypot => none
  | pow => some 2
  | _ => some 1

/-! ## Meaning -/

/-- A double that is an integer as an integer. -/
def integral (x : Float) : Number :=
  match Dyadic.ofFloat? x with
  | some d => if d.isIntegral then .int d.trunc else .float x
  | none => .float x

/-- The first of the smallest numbers of a list that begins with `n`. -/
def leastFrom (n : Number) : List Number → Number
  | [] => n
  | m :: ms => leastFrom (if m.lt n then m else n) ms

/-- The first of the largest numbers of a list that begins with `n`. -/
def greatestFrom (n : Number) : List Number → Number
  | [] => n
  | m :: ms => greatestFrom (if n.lt m then m else n) ms

/-- The cube root: a third power rounded to twelve places, with the sign of its argument. -/
def cubeRoot (n : Number) : Except NumberError Number := do
  let root ← Analysis.thirdPower (← n.abs.toFloat)
  return integral (if n.isNegative then -root else root)

/-- An integer power. Zero, one and minus one are settled without counting the exponent. -/
def intPower (a : Int) (n : Nat) : Int :=
  if a = 0 then (if n = 0 then 1 else 0)
  else if a = 1 then 1
  else if a = -1 then (if n % 2 = 0 then 1 else -1)
  else Int.pow a n

theorem intPower_eq_pow (a : Int) (n : Nat) : intPower a n = Int.pow a n := by
  show _ = a ^ n
  unfold intPower
  split
  · next h =>
    subst h
    cases n with
    | zero => rfl
    | succ n => rw [if_neg n.succ_ne_zero, Int.pow_succ, Int.mul_zero]
  · split
    · next h => rw [h, Int.one_pow]
    · split
      · next h =>
        have square (k : Nat) : (-1 : Int) ^ (2 * k) = 1 := by
          rw [Int.pow_mul]
          exact Int.one_pow
        rw [h]
        rcases Nat.mod_two_eq_zero_or_one n with e | e
        · obtain ⟨k, rfl⟩ := Nat.dvd_of_mod_eq_zero e
          rw [if_pos e, square]
        · obtain ⟨k, rfl⟩ : ∃ k, n = 2 * k + 1 := ⟨n / 2, by omega⟩
          rw [if_neg (by omega), Int.pow_succ, square, Int.one_mul]
      · rfl

/-- The power: exact for integers with an exponent that is not negative. -/
def power : Number → Number → Except NumberError Number
  | .int a, .int b =>
    if 0 ≤ b then .ok (.int (intPower a b.toNat)) else viaFloat (.int a) (.int b)
  | a, b => viaFloat a b
where
  /-- The power of doubles. -/
  viaFloat (a b : Number) : Except NumberError Number := do
    let (x, y) ← Number.bothFloat a b
    return .float (← Analysis.pow x y)

/-- The meaning of a function on as many numbers as it takes. -/
def onNumbers : Function → List Number → Except NumberError Number
  | floor, [n] => do return .int (← n.toInt Dyadic.floor)
  | ceil, [n] => do return .int (← n.toInt Dyadic.ceil)
  | round, [n] => do return .int (← (← n.add (.float 0.5)).toInt Dyadic.floor)
  | trunc, [n] => do return .int (← n.toInt Dyadic.trunc)
  | abs, [n] => .ok n.abs
  | sign, [n] => .ok (.int ((if Number.lt 0 n then 1 else 0) - (if n.isNegative then 1 else 0)))
  | sqrt, [n] => do return integral (← Analysis.sqrt (← n.toFloat))
  | cbrt, [n] => cubeRoot n
  | exp, [n] => do return .float (← Analysis.exp (← n.toFloat))
  | log, [n] => do return .float (← Analysis.log .natural n)
  | log2, [n] => do return integral (← Analysis.log .two n)
  | log10, [n] => do return integral (← Analysis.log .ten n)
  | pow, [n, m] => power n m
  | min, n :: ns => .ok (leastFrom n ns)
  | max, n :: ns => .ok (greatestFrom n ns)
  | hypot, n :: ns => do
    let xs ← (n :: ns).mapM Number.toFloat
    return integral (Analysis.hypot xs)
  | _, _ => .error .domain

/-! ## Calls -/

/-- The refusal of a wrong number of arguments. -/
def arityFault? (f : Function) (count : Nat) : Option Error :=
  match f.arity? with
  | some n =>
    if count == n then none else some (.invalidArgument (.argumentCount f.name n count))
  | none => if count == 0 then some (.invalidArgument (.noArguments f.name)) else none

/-- The outcome of a call with the given arguments: failures and unbounded results are refused. -/
def settle (f : Function) (args : List Value) : Except NumberError Number → Except Error Number
  | .error c => .error (.invalidArgument (.failedCall f.name (.tuple args) c))
  | .ok r =>
    if r.isUnbounded then .error (.invalidArgument (.unboundedCall f.name (.tuple args))) else .ok r

/-- Calls a function on numbers. -/
def apply (f : Function) (args : List Number) : Except Error Number :=
  match f.arityFault? args.length with
  | some e => .error e
  | none => f.settle (args.map Value.num) (f.onNumbers args)

/-! ### Calls on data -/

/-- The first of the extreme values of a list that begins with `v`: the items that stand in the
relation to it take its place. -/
def extremeFrom (relation : Comparison) : Value → List Value → Except Error Value
  | v, [] => .ok v
  | v, w :: ws => do extremeFrom relation (if ← relation.holds w v then w else v) ws

/-- The first smallest or largest piece of data of a list. An infinite or undefined one is
refused. -/
def extreme (f : Function) (args : List Value) : Except Error Value := do
  let relation := if f = min then Comparison.lt else .gt
  match ← extremeFrom relation (args.headD .null) args.tail with
  | .num n => return .num (← f.settle args (.ok n))
  | r => return r

/-- The outcome of a call of which some argument is no number. Arguments that become doubles are
looked at one by one, so that one that is too large comes first if it stands first. -/
def mistyped (f : Function) (args : List Value) : Error :=
  let leading := (args.map Value.number?).takeWhile Option.isSome
  match (leading.filterMap id).mapM Number.toFloat with
  | .error c => .invalidArgument (.failedCall f.name (.tuple args) c)
  | .ok _ => .wrongType

/-- Calls a function on data. -/
def call (f : Function) (args : List Value) : Except Error Value :=
  match f.arityFault? args.length with
  | some e => .error e
  | none =>
    if f = min || f = max then f.extreme args
    else
      match args.mapM Value.number? with
      | some ns => (f.settle args (f.onNumbers ns)).map Value.num
      | none => .error (f.mistyped args)

end Function

end DiceFormula
