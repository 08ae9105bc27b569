import DiceFormula.Proofs.Evaluation.Contract

/-!
# What can be seen at the pauses

A report numbers the pauses of a run, but does not show the states there. `Steps.suspensions` lists
them, and `Steps.counted` is the same evaluation with every state beside the number of draws made
before it, so that a contract can ask for both (`Steps.Meets.suspensions`, `Steps.run_counted`).

`Steps.PausesWithin n` says that an evaluation pauses at most `n` times, whatever is drawn.
-/

namespace DiceFormula

/-- The number of draws that an answer to a request counts for. -/
def drawsOf : Option Float → Nat
  | some _ => 1
  | none => 0

/-- Every draw that is made is counted. -/
theorem Source.used_next (src : Source) : src.next.2.used = src.used + drawsOf src.next.1 := by
  obtain ⟨pending, fill, used⟩ := src
  cases pending with
  | cons x xs => rfl
  | nil => cases fill <;> rfl

namespace Steps

variable {σ τ α β : Type}

/-- The states that an evaluation shows at its pauses if nothing stops it. -/
def suspensions : Steps σ α → Source → List σ
  | done _ _, _ => []
  | fail _ _, _ => []
  | pause now _ rest, src => now :: (rest ()).suspensions src
  | draw rest, src => (rest src.next.1).suspensions src.next.2

/-- What a contract asks of the pauses holds of every state that is shown. -/
theorem Meets.suspensions {c : Contract σ α} {x : Steps σ α} (h : x.Meets c) (src : Source) :
    ∀ s ∈ x.suspensions src, c.seen s := by
  induction x generalizing src with
  | done s a => simp [Steps.suspensions]
  | fail s e => simp [Steps.suspensions]
  | pause now left rest ih =>
    intro s hs
    rcases List.mem_cons.1 hs with rfl | hs
    · exact h.1
    · exact ih () h.2.2 src s hs
  | draw rest ih => exact ih _ (h _) _

theorem suspensions_mapState (f : σ → τ) (x : Steps σ α) (src : Source) :
    (x.mapState f).suspensions src = (x.suspensions src).map f := by
  induction x generalizing src with
  | done | fail => rfl
  | pause now left rest ih => exact congrArg (f now :: ·) (ih () src)
  | draw rest ih => exact ih _ _

theorem suspensions_onStop (f : σ → Left σ) (x : Steps σ α) (src : Source) :
    (x.onStop f).suspensions src = x.suspensions src := by
  induction x generalizing src with
  | done | fail => rfl
  | pause now left rest ih => exact congrArg (now :: ·) (ih () src)
  | draw rest ih => exact ih _ _

/-! ## Counting draws -/

/-- The same evaluation after `k` draws, with every state beside the draws made before it. -/
def counted (k : Nat) : Steps σ α → Steps (Nat × σ) α
  | done s a => done (k, s) a
  | fail s e => fail (k, s) e
  | pause now left rest => pause (k, now) (left.map fun s => (k, s)) fun u => (rest u).counted k
  | draw rest => draw fun x => (rest x).counted (k + drawsOf x)

theorem counted_bind (x : Steps σ α) (f : σ → α → Steps σ β) (k : Nat) :
    (x.bind f).counted k = (x.counted k).bind fun s a => (f s.2 a).counted s.1 := by
  induction x generalizing k with
  | done s a => rfl
  | fail s e => rfl
  | pause now left rest ih =>
    simp only [bind, counted, ih]
  | draw rest ih =>
    simp only [bind, counted, ih]

theorem counted_mapState (f : σ → τ) (x : Steps σ α) (k : Nat) :
    (x.mapState f).counted k = (x.counted k).mapState fun s => (s.1, f s.2) := by
  induction x generalizing k with
  | done s a => rfl
  | fail s e => rfl
  | pause now left rest ih =>
    cases left <;> simp only [mapState, counted, ih, Left.map]
  | draw rest ih =>
    simp only [mapState, counted, ih]

theorem counted_onStop (f : σ → Left σ) (x : Steps σ α) (k : Nat) :
    (x.onStop f).counted k = (x.counted k).onStop fun s => (f s.2).map fun t => (s.1, t) := by
  induction x generalizing k with
  | done s a => rfl
  | fail s e => rfl
  | pause now left rest ih =>
    cases left <;> simp only [onStop, counted, ih, Left.map]
  | draw rest ih =>
    simp only [onStop, counted, ih]

/-- What a contract of the counted evaluation asks of its results holds where the evaluation ends. -/
theorem Meets.of_counted {c : Contract (Nat × σ) α} {k : Nat} {x : Steps σ α}
    (h : (x.counted k).Meets c) : x.Meets { done := fun s a => ∃ k, c.done (k, s) a } := by
  induction x generalizing k with
  | done s a => exact ⟨k, h⟩
  | fail s e => exact trivial
  | pause now left rest ih => exact ⟨trivial, trivial, ih () h.2.2⟩
  | draw rest ih => exact fun x => ih x (h x)

/-- Counting changes nothing in a run, but tells of every state how many draws led to it. -/
theorem run_counted (rule : StopRule) (x : Steps σ α) (src : Source) :
    (x.counted 0).run rule src
      = ⟨((x.run rule src).source.used - src.used, (x.run rule src).state),
          (x.run rule src).ending, (x.run rule src).points, (x.run rule src).source⟩ := by
  suffices ∀ (x : Steps σ α) (src' : Source) (k : Nat) (points : List Nat),
      src'.used = src.used + k → (x.counted k).runFrom rule src.used points src'
        = ⟨((x.runFrom rule src.used points src').source.used - src.used,
              (x.runFrom rule src.used points src').state),
            (x.runFrom rule src.used points src').ending,
            (x.runFrom rule src.used points src').points,
            (x.runFrom rule src.used points src').source⟩ from this x src 0 [] rfl
  intro x
  induction x with
  | done s a =>
    intro src' k points hk
    simp [counted, runFrom, hk]
  | fail s e =>
    intro src' k points hk
    simp [counted, runFrom, hk]
  | pause now left rest ih =>
    intro src' k points hk
    simp only [counted, runFrom]
    split
    · cases left <;> simp [Left.map, hk]
    · exact ih () src' k _ hk
  | draw rest ih =>
    intro src' k points hk
    refine ih src'.next.1 src'.next.2 (k + drawsOf src'.next.1) points ?_
    rw [Source.used_next, hk, Nat.add_assoc]

/-- The pauses of a report are those that states are shown for. -/
theorem points_run (x : Steps σ α) (src : Source) :
    (x.run .never src).points = ((x.counted 0).suspensions src).map (·.1) := by
  suffices ∀ (x : Steps σ α) (src' : Source) (k : Nat) (points : List Nat),
      src'.used = src.used + k → (x.runFrom .never src.used points src').points
        = points.reverse ++ ((x.counted k).suspensions src').map (·.1) from this x src 0 [] rfl
  intro x
  induction x with
  | done s a =>
    intro src' k points _
    simp [counted, runFrom, suspensions]
  | fail s e =>
    intro src' k points _
    simp [counted, runFrom, suspensions]
  | pause now left rest ih =>
    intro src' k points hk
    refine (ih () src' k _ hk).trans ?_
    simp [counted, suspensions, hk]
  | draw rest ih =>
    intro src' k points hk
    refine ih src'.next.1 src'.next.2 (k + drawsOf src'.next.1) points ?_
    rw [Source.used_next, hk, Nat.add_assoc]

/-! ## Counting pauses -/

/-- The evaluation pauses at most so often, whatever is drawn. -/
def PausesWithin : Steps σ α → Nat → Prop
  | done _ _, _ => True
  | fail _ _, _ => True
  | pause _ _ rest, n => 0 < n ∧ (rest ()).PausesWithin (n - 1)
  | draw rest, n => ∀ x, (rest x).PausesWithin n

namespace PausesWithin

theorem mono {x : Steps σ α} {n m : Nat} (h : x.PausesWithin n) (hnm : n ≤ m) :
    x.PausesWithin m := by
  induction x generalizing n m with
  | done s a => exact trivial
  | fail s e => exact trivial
  | pause now left rest ih => exact ⟨by have := h.1; omega, ih () h.2 (by omega)⟩
  | draw rest ih => exact fun x => ih x (h x) hnm

/-- The pauses of one evaluation after another add up. -/
theorem bind_of_meets {c : Contract σ α} {x : Steps σ α} {f : σ → α → Steps σ β} {n m : Nat}
    (hx : x.PausesWithin n) (ends : x.Meets c)
    (hf : ∀ s a, c.done s a → (f s a).PausesWithin m) : (x.bind f).PausesWithin (n + m) := by
  induction x generalizing n with
  | done s a => exact (hf s a ends).mono (by omega)
  | fail s e => exact trivial
  | pause now left rest ih =>
    obtain ⟨hn, hrest⟩ := hx
    refine ⟨by omega, (ih () hrest ends.2.2).mono ?_⟩
    omega
  | draw rest ih => exact fun x => ih x (hx x) (ends x)

theorem bind {x : Steps σ α} {f : σ → α → Steps σ β} {n m : Nat} (hx : x.PausesWithin n)
    (hf : ∀ s a, (f s a).PausesWithin m) : (x.bind f).PausesWithin (n + m) := by
  have ends : x.Meets {} := by apply Meets.of_forall <;> simp
  exact hx.bind_of_meets ends fun s a _ => hf s a

theorem mapState {f : σ → τ} {x : Steps σ α} {n : Nat} (h : x.PausesWithin n) :
    (x.mapState f).PausesWithin n := by
  induction x generalizing n with
  | done s a => exact trivial
  | fail s e => exact trivial
  | pause now left rest ih => exact ⟨h.1, ih () h.2⟩
  | draw rest ih => exact fun x => ih x (h x)

theorem onStop {f : σ → Left σ} {x : Steps σ α} {n : Nat} (h : x.PausesWithin n) :
    (x.onStop f).PausesWithin n := by
  induction x generalizing n with
  | done s a => exact trivial
  | fail s e => exact trivial
  | pause now left rest ih => exact ⟨h.1, ih () h.2⟩
  | draw rest ih => exact fun x => ih x (h x)

/-- A run reports no more pauses. -/
theorem run {x : Steps σ α} {n : Nat} (h : x.PausesWithin n) (rule : StopRule) (src : Source) :
    (x.run rule src).points.length ≤ n := by
  suffices ∀ start points src,
      (x.runFrom rule start points src).points.length ≤ points.length + n by
    simpa [Steps.run] using this src.used [] src
  clear src
  induction x generalizing n with
  | done s a => simp [runFrom]
  | fail s e => simp [runFrom]
  | pause now left rest ih =>
    intro start points src
    have hn := h.1
    simp only [runFrom]
    split
    · cases left <;> simp <;> omega
    · have := ih () h.2 start ((src.used - start) :: points) src
      simp only [List.length_cons] at this
      omega
  | draw rest ih => exact fun start points src => ih _ (h _) _ _ _

end PausesWithin

end Steps

end DiceFormula
