import DiceFormula.Proofs.Evaluation.Advance
import DiceFormula.Proofs.Evaluation.Draws
import DiceFormula.Proofs.Evaluation.Pauses

/-!
# The history of an evaluation

`Steps.history` lists the states that an evaluation shows, one after the other: those at its pauses,
and the one that it ends with. `Steps.Follows` says that every one of them stands in a relation to
the one before. There is one rule for every way to build an evaluation; for a transitive relation
these go through, and any two states of a history stand in it (`Steps.Follows.pairwise`).
-/

namespace DiceFormula

namespace Steps

variable {σ τ α β : Type}

/-- The states that an evaluation shows if nothing stops it: at its pauses, and in the end. -/
def history (x : Steps σ α) (src : Source) : List σ :=
  x.suspensions src ++ [(x.run .never src).state]

@[simp] theorem history_done (s : σ) (a : α) (src : Source) : (done s a).history src = [s] := rfl

@[simp] theorem history_fail (s : σ) (e : Error) (src : Source) :
    (fail s e : Steps σ α).history src = [s] := rfl

theorem history_pause (now : σ) (left : Left σ) (rest : Unit → Steps σ α) (src : Source) :
    (pause now left rest).history src = now :: (rest ()).history src := by
  have state := congrArg Prod.fst (outcome_runFrom (rest ()) src.used src.used [0] [] src)
  simp only [history, suspensions, List.cons_append, run, runFrom, Nat.sub_self]
  exact congrArg (fun s => now :: ((rest ()).suspensions src ++ [s])) state

theorem history_draw (rest : Option Float → Steps σ α) (src : Source) :
    (draw rest).history src = (rest src.next.1).history src.next.2 := by
  have state :=
    congrArg Prod.fst (outcome_runFrom (rest src.next.1) src.used src.next.2.used [] [] src.next.2)
  exact congrArg (fun s => (rest src.next.1).suspensions src.next.2 ++ [s]) state

theorem history_mapState (f : σ → τ) (x : Steps σ α) (src : Source) :
    (x.mapState f).history src = (x.history src).map f := by
  induction x generalizing src with
  | done | fail => rfl
  | pause now left rest ih =>
    rw [mapState, history_pause, history_pause, ih, List.map_cons]
  | draw rest ih => rw [mapState, history_draw, history_draw, ih]

theorem history_onStop (f : σ → Left σ) (x : Steps σ α) (src : Source) :
    (x.onStop f).history src = x.history src := by
  induction x generalizing src with
  | done | fail => rfl
  | pause now left rest ih =>
    refine (history_pause now _ _ src).trans ?_
    rw [history_pause, ih]
  | draw rest ih =>
    refine (history_draw _ src).trans ?_
    rw [history_draw, ih]

/-- What a contract asks of the pauses, of results and of failures holds all along. -/
theorem Meets.history {I : σ → Prop} {x : Steps σ α}
    (h : x.Meets { seen := I, done := fun s _ => I s, fail := fun s _ => I s }) (src : Source) :
    ∀ s ∈ x.history src, I s := by
  induction x generalizing src with
  | done s a =>
    have h : I s := h
    simpa using h
  | fail s e =>
    have h : I s := h
    simpa using h
  | pause now left rest ih =>
    rw [history_pause]
    exact List.forall_mem_cons.2 ⟨h.1, ih () h.2.2 src⟩
  | draw rest ih =>
    rw [history_draw]
    exact ih _ (h _) _

/-- Every state that is shown follows the one before by `R`, whatever is drawn that satisfies
`drawn`; `last` was shown before. -/
def Follows (drawn : Option Float → Prop) (R : σ → σ → Prop) : σ → Steps σ α → Prop
  | last, done s _ => R last s
  | last, fail s _ => R last s
  | last, pause now _ rest => R last now ∧ Follows drawn R now (rest ())
  | last, draw rest => ∀ x, drawn x → Follows drawn R last (rest x)

namespace Follows

variable {drawn : Option Float → Prop} {R : σ → σ → Prop} {last : σ} {x : Steps σ α}

/-- A state may be left out. -/
theorem of_trans [IsTrans σ R] {first : σ} (h : R first last) (hx : x.Follows drawn R last) :
    x.Follows drawn R first := by
  induction x with
  | done s a => exact trans_of R h hx
  | fail s e => exact trans_of R h hx
  | pause now left rest ih => exact ⟨trans_of R h hx.1, hx.2⟩
  | draw rest ih => exact fun y hy => ih y (hx y hy)

theorem bind [IsTrans σ R] {f : σ → α → Steps σ β} (hx : x.Follows drawn R last)
    (hf : ∀ s a, (f s a).Follows drawn R s) : (x.bind f).Follows drawn R last := by
  induction x generalizing last with
  | done s a => exact of_trans hx (hf s a)
  | fail s e => exact hx
  | pause now left rest ih => exact ⟨hx.1, ih () hx.2⟩
  | draw rest ih => exact fun y hy => ih y (hx y hy)

/-- **Every state of a history follows the one before.** -/
theorem isChain (hx : x.Follows drawn R last) {src : Source} (hsrc : src.Gives drawn) :
    (last :: x.history src).IsChain R := by
  induction x generalizing last src with
  | done s a => exact .cons_cons hx (.singleton s)
  | fail s e => exact .cons_cons hx (.singleton s)
  | pause now left rest ih =>
    rw [history_pause]
    exact .cons_cons hx.1 (ih () hx.2 hsrc)
  | draw rest ih =>
    rw [history_draw]
    exact ih _ (hx _ hsrc.next.1) hsrc.next.2

/-- **Any two states of a history stand in the relation.** -/
theorem pairwise [IsTrans σ R] (hx : x.Follows drawn R last) {src : Source}
    (hsrc : src.Gives drawn) : (last :: x.history src).Pairwise R :=
  List.isChain_iff_pairwise.1 (hx.isChain hsrc)

/-- A property that is handed on from state to state holds all along. -/
theorem meets {I : σ → Prop} (hI : I last)
    (hx : x.Follows (fun _ => True) (fun s t => I s → I t) last) :
    x.Meets { seen := I, done := fun s _ => I s, fail := fun s _ => I s } := by
  induction x generalizing last with
  | done s a => exact hx hI
  | fail s e => exact hx hI
  | pause now left rest ih => exact ⟨hx.1 hI, trivial, ih () (hx.1 hI) hx.2⟩
  | draw rest ih => exact fun y => ih y hI (hx y trivial)

end Follows

end Steps

namespace Task

/-- Two invariants hold together. -/
theorem Preserves.and {σ α : Type} {I J : σ → Prop} {t : Task σ α} (h : Preserves I t)
    (h' : Preserves J t) : Preserves (fun s => I s ∧ J s) t :=
  fun s hs => ((h s hs.1).and (h' s hs.2)).mono (fun _ => id) (fun _ _ => trivial) (fun _ _ => id)
    fun _ _ => id

variable {σ α β : Type} {drawn : Option Float → Prop} {R : σ → σ → Prop} {t : Task σ α}

/-- Whatever state a task begins with, every state that it shows follows the one before by `R`. -/
def Follows (drawn : Option Float → Prop) (R : σ → σ → Prop) (t : Task σ α) : Prop :=
  ∀ s, (t s).Follows drawn R s

namespace Follows

theorem bind [IsTrans σ R] {f : α → Task σ β} (ht : Follows drawn R t)
    (hf : ∀ a, Follows drawn R (f a)) : Follows drawn R (t >>= f) :=
  fun s => (ht s).bind fun s a => hf a s

theorem modify {f : σ → σ} (h : ∀ s, R s (f s)) : Follows drawn R (modify f) := h

variable [Std.Refl R]

theorem pure (a : α) : Follows drawn R (pure a : Task σ α) := refl_of R

theorem pause : Follows drawn R (pause : Task σ Unit) := fun s => ⟨refl_of R s, refl_of R s⟩

theorem ofExcept (x : Except Error α) : Follows drawn R (ofExcept x) := by
  intro s
  cases x <;> exact refl_of R s

end Follows

end Task

end DiceFormula
