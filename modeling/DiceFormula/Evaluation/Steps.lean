import DiceFormula.Error

/-!
# Evaluation in steps

An evaluation rolls dice one after the other and pauses between them; at every pause it may be
stopped for good. `Steps σ α` is such an evaluation as a tree: it works on a state of type `σ`, asks
for draws, and ends with a result or a failure. A pause tells the state that can be seen there and
the one that is left behind if the evaluation is stopped there. A `Task` is an evaluation that has
not begun: it takes the state when it does.
-/

namespace DiceFormula

/-- What a stopped evaluation leaves behind: a state, or a state and the error that came up while
the state before was being restored. -/
inductive Left (σ : Type)
  | clean (s : σ)
  | broken (s : σ) (e : Error)

namespace Left

/-- The state left behind. -/
def state {σ : Type} : Left σ → σ
  | clean s => s
  | broken s _ => s

/-- Changes the state left behind. -/
def map {σ τ : Type} (f : σ → τ) : Left σ → Left τ
  | clean s => clean (f s)
  | broken s e => broken (f s) e

end Left

/-- An evaluation under way. -/
inductive Steps (σ α : Type)
  | done (s : σ) (a : α)
  | fail (s : σ) (e : Error)
  | pause (now : σ) (left : Left σ) (rest : Unit → Steps σ α)
  | draw (rest : Option Float → Steps σ α)

namespace Steps

variable {σ τ α β : Type}

/-- Goes on with `f` after a result. -/
def bind (f : σ → α → Steps σ β) : Steps σ α → Steps σ β
  | done s a => f s a
  | fail s e => fail s e
  | pause now left rest => pause now left fun u => bind f (rest u)
  | draw rest => draw fun x => bind f (rest x)

@[simp] theorem bind_done (x : Steps σ α) : bind done x = x := by
  induction x with
  | done | fail => rfl
  | pause now left rest ih => exact congrArg (pause now left) (funext fun u => ih u)
  | draw rest ih => exact congrArg draw (funext fun x => ih x)

theorem bind_bind {γ : Type} (f : σ → α → Steps σ β) (g : σ → β → Steps σ γ) (x : Steps σ α) :
    bind g (bind f x) = bind (fun s a => bind g (f s a)) x := by
  induction x with
  | done | fail => rfl
  | pause now left rest ih => exact congrArg (pause now left) (funext fun u => ih u)
  | draw rest ih => exact congrArg draw (funext fun x => ih x)

/-- Shows every state of an evaluation inside a larger one. -/
def mapState (f : σ → τ) : Steps σ α → Steps τ α
  | done s a => done (f s) a
  | fail s e => fail (f s) e
  | pause now left rest => pause (f now) (left.map f) fun u => mapState f (rest u)
  | draw rest => draw fun x => mapState f (rest x)

/-- Evaluates beside a state that does not change; the inner state is part of the result. -/
def beside (t : τ) : Steps σ α → Steps τ (σ × α)
  | done s a => done t (s, a)
  | fail _ e => fail t e
  | pause _ left rest => pause t (left.map fun _ => t) fun u => beside t (rest u)
  | draw rest => draw fun x => beside t (rest x)

/-- Changes what a failure leaves behind. -/
def onFail (f : Error → σ → σ) : Steps σ α → Steps σ α
  | done s a => done s a
  | fail s e => fail (f e s) e
  | pause now left rest =>
    pause now
      (match left with
       | .clean s => .clean s
       | .broken s e => .broken (f e s) e)
      fun u => onFail f (rest u)
  | draw rest => draw fun x => onFail f (rest x)

/-- Changes what is left behind by stopping. -/
def onStop (f : σ → Left σ) : Steps σ α → Steps σ α
  | done s a => done s a
  | fail s e => fail s e
  | pause now left rest =>
    pause now
      (match left with
       | .clean s => f s
       | .broken s e => .broken s e)
      fun u => onStop f (rest u)
  | draw rest => draw fun x => onStop f (rest x)

end Steps

/-- An evaluation that has not begun. -/
def Task (σ α : Type) : Type := σ → Steps σ α

namespace Task

variable {σ τ α β : Type}

instance : Monad (Task σ) where
  pure a := fun s => .done s a
  bind t f := fun s => (t s).bind fun s a => f a s

instance : LawfulMonad (Task σ) :=
  LawfulMonad.mk' _ (fun t => funext fun s => Steps.bind_done (t s)) (fun _ _ => rfl)
    (fun t f g => funext fun s => Steps.bind_bind (fun s a => f a s) (fun s b => g b s) (t s))

/-- The state. -/
def get : Task σ σ := fun s => .done s s

/-- Replaces the state. -/
def set (s : σ) : Task σ Unit := fun _ => .done s ()

/-- Changes the state. -/
def modify (f : σ → σ) : Task σ Unit := fun s => .done (f s) ()

/-- Fails. -/
def fail (e : Error) : Task σ α := fun s => .fail s e

/-- Ends with the value of a computation that rolls nothing. -/
def ofExcept : Except Error α → Task σ α
  | .ok a => fun s => .done s a
  | .error e => fail e

/-- Pauses. -/
def pause : Task σ Unit := fun s => .pause s (.clean s) fun _ => .done s ()

/-- Asks for a draw, which fails if there are no more. -/
def draw : Task σ Float := fun s =>
  .draw fun
    | some x => .done s x
    | none => .fail s .drawsExhausted

/-- Evaluates a part of the state in place. -/
def within (get : σ → τ) (put : τ → σ → σ) (t : Task τ α) : Task σ α :=
  fun s => (t (get s)).mapState fun part => put part s

/-- Evaluates something of its own, of which the state shows nothing. -/
def aside (start : τ) (t : Task τ α) : Task σ (τ × α) := fun s => (t start).beside s

/-- Changes what a failure leaves behind. -/
def onFail (f : Error → σ → σ) (t : Task σ α) : Task σ α := fun s => (t s).onFail f

/-- Changes what is left behind by stopping. -/
def onStop (f : σ → Left σ) (t : Task σ α) : Task σ α := fun s => (t s).onStop f

end Task

end DiceFormula
