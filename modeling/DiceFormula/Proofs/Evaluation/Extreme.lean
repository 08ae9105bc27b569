import DiceFormula.Evaluation.Dice
import DiceFormula.Proofs.Evaluation.Draws
import DiceFormula.Proofs.Number.Rounding

/-!
# Extreme evaluations

An evaluation that shows the smallest or the largest faces draws nothing, and if it does not fail
either, it comes to one end (`Steps.ComesTo`). To bound a random evaluation is to say, of every end
that it comes to by fair draws, that the extreme evaluation comes to an end too, and that this end
lies beyond the first one (`Steps.Bounds`).

What is below and what is above is the same question asked from two sides. `Extreme.Beyond` asks it
from the side of the extreme, so that it is answered once for both.
-/

namespace DiceFormula

/-! ## Sides -/

/-- A side on which an evaluation is bounded. -/
inductive Extreme
  | least
  | greatest
  deriving DecidableEq, Repr

namespace Extreme

/-- The mode that shows the extreme faces. -/
def mode : Extreme → Mode
  | least => .minimum
  | greatest => .maximum

variable {α β γ : Type} {e : Extreme}

/-- The second one is beyond the first on the side of the extreme, where `R` orders them upwards. -/
def Beyond (e : Extreme) (R : α → α → Prop) (a b : α) : Prop :=
  match e with
  | least => R b a
  | greatest => R a b

theorem Beyond.refl {R : α → α → Prop} {a : α} (h : R a a) : e.Beyond R a a := by
  cases e <;> exact h

/-- What is increasing keeps the side. -/
theorem Beyond.imp {R : α → α → Prop} {S : β → β → Prop} {a b : α} (f : α → β)
    (h : e.Beyond R a b) (hf : ∀ a b, R a b → S (f a) (f b)) : e.Beyond S (f a) (f b) := by
  cases e with
  | least => exact hf b a h
  | greatest => exact hf a b h

theorem Beyond.imp₂ {R : α → α → Prop} {S : β → β → Prop} {T : γ → γ → Prop} {a b : α} {c d : β}
    (f : α → β → γ) (h : e.Beyond R a b) (h' : e.Beyond S c d)
    (hf : ∀ a b c d, R a b → S c d → T (f a c) (f b d)) : e.Beyond T (f a c) (f b d) := by
  cases e with
  | least => exact hf b a d c h h'
  | greatest => exact hf a b c d h h'

theorem beyond_forall₂ {R : α → α → Prop} {as bs : List α} (h : List.Forall₂ (e.Beyond R) as bs) :
    e.Beyond (List.Forall₂ R) as bs := by
  cases e with
  | least => exact h.flip
  | greatest => exact h

end Extreme

/-! ## Ends -/

/-- Fair draws: every one lies between 0 and 1, and may be the last one. -/
def Dealing.fair : Dealing where
  drawn := fun x => ∀ y, x = some y → IsDraw y

namespace Steps

variable {σ τ α β : Type}

/-- The evaluation comes to this end without any draw. -/
def ComesTo (x : Steps σ α) (s : σ) (a : α) : Prop := x.Ends .sure fun _ t b => t = s ∧ b = a

/-- Wherever the first evaluation ends by fair draws, the second one ends too, by no draws at all,
and the relation holds of both ends. -/
def Bounds (R : σ → τ → Prop) (x : Steps σ Unit) (y : Steps τ Unit) : Prop :=
  x.Ends .fair fun _ s _ => ∃ t, R s t ∧ y.ComesTo t ()

/-- What neither draws nor fails comes to an end. -/
theorem exists_comesTo {Q : Nat → σ → α → Prop} {x : Steps σ α} (h : x.Ends .sure Q) :
    ∃ s a, Q 0 s a ∧ x.ComesTo s a := by
  induction x with
  | done s a => exact ⟨s, a, h, rfl, rfl⟩
  | fail s e => exact h.elim
  | pause now left rest ih => exact ih () h
  | draw rest ih => exact h.1.elim

namespace ComesTo

variable {x : Steps σ α} {s : σ} {a : α}

/-- There is no other end. -/
theorem unique {t : σ} {b : α} (h : x.ComesTo s a) (h' : x.ComesTo t b) : t = s ∧ b = a := by
  induction x with
  | done => exact ⟨h'.1.symm.trans h.1, h'.2.symm.trans h.2⟩
  | fail => exact h.elim
  | pause now left rest ih => exact ih () h h'
  | draw rest ih => exact h.1.elim

theorem bind {f : σ → α → Steps σ β} {t : σ} {b : β} (h : x.ComesTo s a)
    (hf : (f s a).ComesTo t b) : (x.bind f).ComesTo t b := by
  refine Ends.bind h ?_
  rintro k _ _ ⟨rfl, rfl⟩
  exact hf

theorem mapState {f : σ → τ} (h : x.ComesTo s a) : (x.mapState f).ComesTo (f s) a := by
  refine Ends.mapState (Ends.mono h ?_)
  rintro n _ _ ⟨rfl, rfl⟩
  exact ⟨rfl, rfl⟩

/-- A run that is not stopped reports the end. -/
theorem run (h : x.ComesTo s a) (src : Source) :
    (x.run .never src).ending = .finished a ∧ (x.run .never src).state = s := by
  suffices ∀ points, (x.runFrom .never src.used points src).ending = .finished a
      ∧ (x.runFrom .never src.used points src).state = s from this []
  induction x with
  | done =>
    obtain ⟨rfl, rfl⟩ := h
    exact fun _ => ⟨rfl, rfl⟩
  | fail => exact h.elim
  | pause now left rest ih => exact fun _ => ih () h _
  | draw rest ih => exact h.1.elim

end ComesTo

/-- Both evaluations inside larger ones. -/
theorem Bounds.mapState {σ' τ' : Type} {R : σ' → τ' → Prop} {f : σ → σ'} {g : τ → τ'}
    {x : Steps σ Unit} {y : Steps τ Unit} (h : x.Bounds (fun s t => R (f s) (g t)) y) :
    (x.mapState f).Bounds R (y.mapState g) := by
  refine Ends.mapState (Ends.mono h ?_)
  rintro n s - ⟨t, hR, ht⟩
  exact ⟨g t, hR, ht.mapState⟩

end Steps

end DiceFormula
