import DiceFormula.Arithmetic.Grammar
import DiceFormula.Function.Basic
import DiceFormula.Proofs.Result.Cut
import DiceFormula.Term.Make

/-!
# What can go wrong in arithmetic

Integers are unbounded and doubles are not. So an operation on numbers can fail in one way only: an
integer, or the quotient of two, is too large for a double (`NumberError.IsOversize`). Beyond that
arithmetic fails with errors of the library's own: a text is outside the grammar, or a divisor is
zero (`Arithmetic.settles_evaluate`). Functions turn every failure into one of these errors
(`Function.outcome_call`), and so does everything else that numbers are asked for.
-/

namespace DiceFormula

/-! ## Causes -/

/-- A number is too large for a double: an integer, or the quotient of two. -/
def NumberError.IsOversize (c : NumberError) : Prop := c = .integerTooLarge ∨ c = .quotientTooLarge

namespace Error

/-- The error is one of the library's own. -/
def IsOwn (e : Error) : Prop := e.kind.isOwn = true

/-- The error is that a number is too large for a double. -/
def IsOversize (e : Error) : Prop := ∃ c : NumberError, c.IsOversize ∧ e = .number c

/-- The error is one of the library's own, or that a number is too large for a double. -/
def IsExpected (e : Error) : Prop := e.IsOwn ∨ e.IsOversize

theorem IsOversize.not_isOwn {e : Error} (h : e.IsOversize) : ¬e.IsOwn := by
  obtain ⟨c, rfl | rfl, rfl⟩ := h <;> exact Bool.false_ne_true

/-- A text that names nothing is refused by its name. -/
theorem isOwn_ofName (fault : String → ArgumentFault) (s : String) :
    (ofName fault (.str s)).IsOwn := rfl

/-- A text that was never classified is refused. -/
theorem isOwn_unevaluated (s : String) : (unevaluated (.str s)).IsOwn := rfl

end Error

/-! ## Numbers -/

namespace Number

/-- A computation gives a number, unless one is too large for a double. -/
abbrev Computes {α : Type} (x : Except NumberError α) : Prop :=
  Outcome (fun _ => True) NumberError.IsOversize x

theorem computes_intToFloat (n : Int) : Computes (intToFloat n) := by
  unfold intToFloat
  dsimp only
  split
  · exact .inl rfl
  · trivial

theorem computes_intRatio (a b : Int) : Computes (intRatio a b) := by
  unfold intRatio
  dsimp only
  split
  · exact .inr rfl
  · trivial

theorem computes_toFloat : ∀ n : Number, Computes n.toFloat
  | .int n => computes_intToFloat n
  | .float _ => trivial

/-- What is computed of two doubles is computed of two numbers, unless one of them is too large. -/
theorem computes_bothFloat {β : Type} (a b : Number) (f : Float × Float → β) :
    Computes (do return f (← bothFloat a b)) := by
  have both : Computes (bothFloat a b) :=
    (computes_toFloat a).bind fun _ _ => (computes_toFloat b).bind fun _ _ => trivial
  exact both.bind fun _ _ => trivial

theorem computes_add (a b : Number) : Computes (a.add b) := by
  cases a <;> cases b <;> first | trivial | exact computes_bothFloat _ _ _

theorem computes_sub (a b : Number) : Computes (a.sub b) := by
  cases a <;> cases b <;> first | trivial | exact computes_bothFloat _ _ _

theorem computes_mul (a b : Number) : Computes (a.mul b) := by
  cases a <;> cases b <;> first | trivial | exact computes_bothFloat _ _ _

theorem computes_div (a b : Number) : Computes (a.div b) := by
  cases a with
  | float x => cases b <;> exact computes_bothFloat _ _ _
  | int a =>
    cases b with
    | float y => exact computes_bothFloat _ _ _
    | int b =>
      unfold div
      dsimp only
      split
      · trivial
      · exact (computes_intRatio a b).bind fun _ _ => trivial

/-- The quotient of two integers is too large if it rounds to infinity. -/
theorem div_of_isInf {a b : Int} (inexact : (a % b == 0) = false)
    (infinite : (nearestSigned ((a < 0) != (b < 0)) a.natAbs b.natAbs).isInf = true) :
    (int a).div (int b) = .error .quotientTooLarge := by
  rw [div, inexact, intRatio, infinite]
  rfl

theorem computes_rem (a b : Number) : Computes (a.rem b) := by
  cases a <;> cases b <;> first | trivial | exact computes_bothFloat _ _ _

end Number

/-- A computation gives a value, or fails with an error of the library's own. -/
abbrev Replies {α : Type} (x : Except Error α) : Prop := Outcome (fun _ => True) Error.IsOwn x

theorem Outcome.expected {α : Type} {P : α → Prop} {x : Except Error α}
    (h : Outcome P Error.IsOwn x) : Outcome P Error.IsExpected x :=
  h.mono (fun _ h => h) fun _ => .inl

/-- What numbers fail with, evaluation is expected to fail with. -/
theorem outcome_ofNumeric {α : Type} {P : α → Prop} {x : Except NumberError α}
    (h : Outcome P NumberError.IsOversize x) : Outcome P Error.IsExpected (ofNumeric x) := by
  cases x with
  | ok a => exact h
  | error c => exact .inr ⟨c, h, rfl⟩

/-! ## Arithmetic -/

namespace Arithmetic

/-- The value of an arithmetic computation, unless it fails as is expected. -/
abbrev Settles (x : Except Error Number) : Prop := Outcome (fun _ => True) Error.IsExpected x

theorem settles_apply (op : Operation) (a b : Number) : Settles (op.apply a b) := by
  cases op with
  | add => exact outcome_ofNumeric (Number.computes_add a b)
  | sub => exact outcome_ofNumeric (Number.computes_sub a b)
  | mul => exact outcome_ofNumeric (Number.computes_mul a b)
  | div =>
    show Settles (if b.isZero then _ else _)
    split
    · exact .inl rfl
    · exact outcome_ofNumeric (Number.computes_div a b)
  | rem =>
    show Settles (if b.isZero then _ else _)
    split
    · exact .inl rfl
    · exact outcome_ofNumeric (Number.computes_rem a b)

theorem settles_eval (e : Expr) : Settles e.eval := by
  induction e with
  | number text => trivial
  | negate e ih => exact ih.bind fun _ _ => trivial
  | binary op l r ihl ihr => exact ihl.bind fun a _ => ihr.bind fun b _ => settles_apply op a b

/-- **Arithmetic fails with errors of the library's own**, or because a number is too large for a
double. -/
theorem settles_evaluate (text : String) : Settles (evaluate text) := by
  unfold evaluate
  split
  · exact settles_eval _
  · exact .inl rfl

end Arithmetic

/-! ## Data that are numbers -/

/-- The data are a number. -/
def Value.IsNumber (v : Value) : Prop := ∃ n, v = .num n

/-- A number is a number term, unless it is the undefined double. -/
theorem replies_definedNumber {v : Value} (h : v.IsNumber) : Replies (definedNumber v) := by
  obtain ⟨n, rfl⟩ := h
  cases n with
  | int n => trivial
  | float x =>
    show Replies (if x.isNaN then _ else _)
    split
    · exact rfl
    · trivial

namespace Comparison

variable {a b : Value}

theorem exists_holds (c : Comparison) (ha : a.IsNumber) (hb : b.IsNumber) :
    ∃ met, c.holds a b = .ok met := by
  obtain ⟨n, rfl⟩ := ha
  obtain ⟨m, rfl⟩ := hb
  exact ⟨_, c.holds_of_number? rfl rfl⟩

/-- Numbers can be compared, by all that is a comparison. -/
theorem replies_apply (text : String) (ha : a.IsNumber) (hb : b.IsNumber) :
    Replies (apply (.str text) a b) := by
  have known : Replies (read (.str text)) := by
    unfold read
    split
    · trivial
    · exact Error.isOwn_ofName _ text
  refine known.bind fun c _ => ?_
  obtain ⟨met, h⟩ := exists_holds c ha hb
  rw [h]
  trivial

end Comparison

/-! ## Functions -/

namespace Function

theorem replies_settle (f : Function) (args : List Value) (x : Except NumberError Number) :
    Replies (f.settle args x) := by
  unfold settle
  split
  · exact rfl
  · split
    · exact rfl
    · trivial

theorem extremeFrom_isNumber (relation : Comparison) {ws : List Value} (hws : ∀ w ∈ ws, w.IsNumber) :
    ∀ {v : Value}, v.IsNumber → ∃ n, extremeFrom relation v ws = .ok (.num n) := by
  induction ws with
  | nil => rintro v ⟨n, rfl⟩; exact ⟨n, rfl⟩
  | cons w ws ih =>
    intro v hv
    obtain ⟨hw, hws⟩ := List.forall_mem_cons.1 hws
    obtain ⟨met, h⟩ := relation.exists_holds hw hv
    rw [extremeFrom, h, bind_ok]
    cases met with
    | true => exact ih hws hw
    | false => exact ih hws hv

theorem outcome_extreme (f : Function) {args : List Value} (h : ∀ v ∈ args, v.IsNumber)
    (hne : args ≠ []) : Outcome Value.IsNumber Error.IsOwn (f.extreme args) := by
  obtain ⟨v, vs, rfl⟩ := List.exists_cons_of_ne_nil hne
  obtain ⟨hv, hvs⟩ := List.forall_mem_cons.1 h
  unfold extreme
  obtain ⟨n, extreme⟩ := extremeFrom_isNumber (if f = min then .lt else .gt) hvs hv
  simp only [List.headD_cons, List.tail_cons, extreme, bind_ok]
  exact (replies_settle f _ _).bind fun m _ => ⟨m, rfl⟩

/-- **A call on numbers gives a number**, or fails with an error of the library's own. -/
theorem outcome_call (f : Function) {args : List Value} (h : ∀ v ∈ args, v.IsNumber) :
    Outcome Value.IsNumber Error.IsOwn (f.call args) := by
  have numbers : ∃ ns, args.mapM Value.number? = some ns := by
    induction args with
    | nil => exact ⟨[], rfl⟩
    | cons v vs ih =>
      obtain ⟨⟨n, rfl⟩, hvs⟩ := List.forall_mem_cons.1 h
      obtain ⟨ns, hns⟩ := ih hvs
      exact ⟨n :: ns, by rw [List.mapM_cons, hns]; rfl⟩
  obtain ⟨ns, hns⟩ := numbers
  unfold call
  cases arity : f.arityFault? args.length with
  | some e =>
    unfold arityFault? at arity
    split at arity <;> split at arity <;> cases arity <;> exact rfl
  | none =>
    dsimp only
    split
    · next extreme =>
      refine outcome_extreme f h ?_
      -- without arguments there is no extreme one, but that is a wrong number of them
      rintro rfl
      rcases Bool.or_eq_true_iff.1 extreme with e | e <;> cases of_decide_eq_true e <;> cases arity
    · rw [hns]
      dsimp only
      have := replies_settle f args (f.onNumbers ns)
      cases settled : f.settle args (f.onNumbers ns) with
      | ok n => exact ⟨n, rfl⟩
      | error e =>
        rw [settled] at this
        exact this

end Function

end DiceFormula
