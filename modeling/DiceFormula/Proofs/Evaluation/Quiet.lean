import DiceFormula.Proofs.Evaluation.Contract

/-!
# Evaluations without draws

A quiet evaluation asks for no draw, so that there is one end that it comes to. `Steps.Quiet` says
that, together with what holds at the end. The rules are those of contracts; `Steps.Quiet.run` tells
what a run reports that nothing stops.
-/

namespace DiceFormula

namespace Steps

variable {σ τ α β : Type} {done : σ → α → Prop} {fail : Error → Prop}

/-- The evaluation asks for no draw. If it ends with a result, `done` holds; if it fails, `fail`. -/
inductive Quiet (done : σ → α → Prop) (fail : Error → Prop) : Steps σ α → Prop
  | done {s : σ} {a : α} : done s a → Quiet done fail (.done s a)
  | fail {s : σ} {e : Error} : fail e → Quiet done fail (.fail s e)
  | pause {now : σ} {left : Left σ} {rest : Unit → Steps σ α} : Quiet done fail (rest ()) →
      Quiet done fail (.pause now left rest)

namespace Quiet

theorem mono {done' : σ → α → Prop} {fail' : Error → Prop} {x : Steps σ α}
    (h : x.Quiet done fail) (hd : ∀ s a, done s a → done' s a) (hf : ∀ e, fail e → fail' e) :
    x.Quiet done' fail' := by
  induction h with
  | done h => exact .done (hd _ _ h)
  | fail h => exact .fail (hf _ h)
  | pause _ ih => exact .pause ih

theorem bind {Q : σ → α → Prop} {done : σ → β → Prop} {x : Steps σ α} {f : σ → α → Steps σ β}
    (hx : x.Quiet Q fail) (hf : ∀ s a, Q s a → (f s a).Quiet done fail) :
    (x.bind f).Quiet done fail := by
  induction hx with
  | done h => exact hf _ _ h
  | fail h => exact .fail h
  | pause _ ih => exact .pause ih

theorem mapState {done : τ → α → Prop} {f : σ → τ} {x : Steps σ α}
    (hx : x.Quiet (fun s a => done (f s) a) fail) : (x.mapState f).Quiet done fail := by
  induction hx with
  | done h => exact .done h
  | fail h => exact .fail h
  | pause _ ih => exact .pause ih

theorem beside {t : τ} {done : τ → σ × α → Prop} {x : Steps σ α}
    (hx : x.Quiet (fun s a => done t (s, a)) fail) : (x.beside t).Quiet done fail := by
  induction hx with
  | done h => exact .done h
  | fail h => exact .fail h
  | pause _ ih => exact .pause ih

theorem onFail {f : Error → σ → σ} {x : Steps σ α} (hx : x.Quiet done fail) :
    (x.onFail f).Quiet done fail := by
  induction hx with
  | done h => exact .done h
  | fail h => exact .fail h
  | pause _ ih => exact .pause ih

theorem onStop {f : σ → Left σ} {x : Steps σ α} (hx : x.Quiet done fail) :
    (x.onStop f).Quiet done fail := by
  induction hx with
  | done h => exact .done h
  | fail h => exact .fail h
  | pause _ ih => exact .pause ih

/-- A run that is not stopped leaves the source alone and reports the end of the evaluation. -/
theorem run {x : Steps σ α} (hx : x.Quiet done fail) (src : Source) :
    (x.run .never src).source = src
      ∧ ((∃ a, (x.run .never src).ending = .finished a ∧ done (x.run .never src).state a)
        ∨ ∃ e, (x.run .never src).ending = .failed e ∧ fail e) := by
  suffices ∀ points, (x.runFrom .never src.used points src).source = src
      ∧ ((∃ a, (x.runFrom .never src.used points src).ending = .finished a
          ∧ done (x.runFrom .never src.used points src).state a)
        ∨ ∃ e, (x.runFrom .never src.used points src).ending = .failed e ∧ fail e) from this []
  induction hx with
  | done h =>
    intro points
    exact ⟨rfl, .inl ⟨_, rfl, h⟩⟩
  | fail h =>
    intro points
    exact ⟨rfl, .inr ⟨_, rfl, h⟩⟩
  | pause _ ih =>
    intro points
    exact ih _

end Quiet

end Steps

end DiceFormula
