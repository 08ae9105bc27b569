import DiceFormula.Proofs.Evaluation.Hand
import DiceFormula.Proofs.Evaluation.Pauses

/-!
# The dice cap

A modifier may roll further dice, and look at those again. What keeps it from going on forever is
the dice cap: `Hand.Within` says that a hand holds no more results than that and, in a random
evaluation, one for every draw. Every step of a modifier keeps this (`Hand.paced_capped`), since a
die beyond the cap is refused before it is rolled, and so does the evaluation of dice as a whole
(`Dice.capped_roll`).
-/

namespace DiceFormula

variable {context : Context} {kind : DiceKind} {faces : Int} {α : Type}

namespace Hand

/-- A hand after some draws: it is within the dice cap, and every draw of a random evaluation is one
of its results. Any other evaluation draws nothing. -/
structure Within (context : Context) (s : Nat × Hand) : Prop where
  cap : s.2.results.length ≤ context.config.maxDice
  random : context.mode = .random → s.2.results.length = s.1
  fixed : context.mode ≠ .random → s.1 = 0

/-- A hand after a failure: as it was, or with one more draw behind it that gave no face. -/
inductive Failed (context : Context) (kind : DiceKind) (faces : Int) (s : Nat × Hand) (e : Error) :
    Prop
  | within : Within context s → Failed context kind faces s e
  | faceless {k : Nat} {x : Float} : context.mode = .random → Within context (k, s.2) → s.1 = k + 1 →
      Dice.faceOfDraw kind faces x = .error e → Failed context kind faces s e

/-- No failure is made after more than one draw beyond the cap. -/
theorem Failed.cap {s : Nat × Hand} {e : Error} (h : Failed context kind faces s e) :
    s.2.results.length ≤ context.config.maxDice := by
  cases h with
  | within h => exact h.cap
  | faceless _ h _ _ => exact h.cap

/-- The number of results alone decides whether a hand is within the cap. -/
theorem Within.congr {k : Nat} {h h' : Hand} (hw : Within context (k, h))
    (same : h'.results.length = h.results.length) : Within context (k, h') where
  cap := by simpa [same] using hw.cap
  random := by simpa [same] using hw.random
  fixed := hw.fixed

/-- What is asked of an evaluation that keeps to the cap, if its results are to satisfy `Q`. -/
abbrev keepsCap (context : Context) (kind : DiceKind) (faces : Int) (Q : Nat × Hand → α → Prop) :
    Contract (Nat × Hand) α :=
  { seen := Within context, left := Left.IsClean, done := Q, fail := Failed context kind faces }

/-- The task keeps to the dice cap: at every pause, and however it ends. -/
def Capped (context : Context) (kind : DiceKind) (faces : Int) (task : Task Hand α) : Prop :=
  ∀ k h, Within context (k, h) →
    ((task h).counted k).Meets (keepsCap context kind faces fun s _ => Within context s)

theorem capped_pure (a : α) : Capped context kind faces (pure a : Task Hand α) := fun _ _ h => h

theorem Capped.bind {β : Type} {t : Task Hand α} {f : α → Task Hand β}
    (ht : Capped context kind faces t) (hf : ∀ a, Capped context kind faces (f a)) :
    Capped context kind faces (t >>= f) := by
  intro k h hw
  rw [Task.bind_apply, Steps.counted_bind]
  refine Steps.Meets.bind (ht k h hw) ?_
  intro s a hs
  exact hf a s.1 s.2 hs

theorem paced_capped (context : Context) (kind : DiceKind) (faces : Int) :
    Paced (Capped context kind faces) where
  pure := capped_pure
  bind := Capped.bind
  get_bind := fun hf k h hw => hf h k h hw
  fail := fun _ _ _ hw => .within hw
  ofExcept := by
    intro α x k h hw
    cases x with
    | ok a => exact hw
    | error e => exact .within hw
  pause := fun k h hw => ⟨hw, trivial, hw⟩
  setResult := fun _ _ k h hw => hw.congr List.length_set
  plain := by
    intro f hf k h hw
    simp only [plain, Task.bind_apply, Task.get_apply, Steps.bind]
    cases hc : f h.results with
    | none => exact hw
    | some c =>
      have changed : Within context (k, { h with results := c.state }) := hw.congr (hf _ _ hc)
      simp only [Task.bind_apply, Task.set_apply, Steps.bind]
      cases c.fault with
      | none => exact changed
      | some e => exact .within changed
  list := fun _ k h hw => hw.congr rfl

/-- A hand with one more result, after one more draw if the evaluation is random. -/
theorem Within.push {k n : Nat} {h : Hand} {r : DieResult} (hw : Within context (k, h))
    (room : h.results.length < context.config.maxDice) (random : context.mode = .random → n = k + 1)
    (fixed : context.mode ≠ .random → n = k) :
    Within context (n, { h with results := h.results ++ [r] }) where
  cap := by simpa using Nat.succ_le_of_lt room
  random := fun hm => by simp [random hm, hw.random hm]
  fixed := fun hm => (fixed hm).trans (hw.fixed hm)

/-- A die for which there is room. -/
theorem meets_rollOne {k : Nat} {h : Hand} (hw : Within context (k, h))
    (room : h.results.length < context.config.maxDice) :
    ((Dice.rollOne context kind faces h).counted k).Meets
      (keepsCap context kind faces fun s _ =>
        Within context s ∧ s.2.results.length = h.results.length + 1) := by
  simp only [Dice.rollOne, Dice.face]
  cases hm : context.mode with
  | minimum | maximum =>
    exact ⟨hw.push room (by simp [hm]) fun _ => rfl, by simp⟩
  | random =>
    intro x
    cases x with
    | none => exact .within hw
    | some x =>
      simp only [Steps.bind]
      cases hf : Dice.faceOfDraw kind faces x with
      | error e => exact .faceless hm hw rfl hf
      | ok n => exact ⟨hw.push room (fun _ => rfl) (by simp [hm]), by simp⟩

/-- **A modifier rolls no die beyond the cap.** -/
theorem capped_rollExtra (d : Dice) : Capped context d.kind faces (d.rollExtra context faces) := by
  intro k h hw
  simp only [Dice.rollExtra, Task.bind_apply, Task.get_apply, Steps.bind]
  split
  · exact .within hw
  · next room =>
    refine (meets_rollOne hw (Nat.lt_of_not_le room)).mono ?_ ?_ ?_ ?_
    · exact fun _ => id
    · exact fun _ => id
    · exact fun _ _ hs => hs.1
    · exact fun _ _ => id

/-- As many dice as there is room for. -/
theorem meets_rollMany (n : Nat) :
    ∀ {k : Nat} {h : Hand}, Within context (k, h) →
      h.results.length + n ≤ context.config.maxDice →
      ((Dice.rollMany context kind faces n h).counted k).Meets
        (keepsCap context kind faces fun s _ => Within context s) := by
  induction n with
  | zero => exact fun hw _ => hw
  | succ n ih =>
    intro k h hw room
    rw [Dice.rollMany, Task.bind_apply, Steps.counted_bind]
    refine Steps.Meets.bind (meets_rollOne hw (by omega)) ?_
    rintro ⟨k', h'⟩ - ⟨hw', one⟩
    refine ⟨hw', trivial, ih hw' ?_⟩
    rw [one]
    omega

end Hand

/-! ## Dice -/

theorem Dice.le_of_checkNumber {config : Config} {number : Value} {n : Nat}
    (h : checkNumber config number = .ok n) : n ≤ config.maxDice := by
  unfold checkNumber at h
  cases hi : number.int? with
  | none => simp [hi] at h
  | some i =>
    simp only [hi] at h
    split at h
    · cases h
    · split at h
      · cases h
      · obtain rfl := Except.ok.inj h
        omega

theorem Dice.int?_of_checkNumber {config : Config} {number : Value} {n : Nat}
    (h : checkNumber config number = .ok n) : number.int? = some (n : Int) := by
  unfold checkNumber at h
  cases hi : number.int? with
  | none => simp [hi] at h
  | some i =>
    simp only [hi] at h
    split at h
    · cases h
    · split at h
      · cases h
      · obtain rfl := Except.ok.inj h
        exact congrArg some (by omega)

theorem Dice.int?_of_checkFaces {faces : Value} {n : Int} (h : checkFaces faces = .ok n) :
    faces.int? = some n := by
  unfold checkFaces at h
  cases hi : faces.int? with
  | none => simp [hi] at h
  | some i =>
    simp only [hi] at h
    split at h
    · cases h
    · rw [Except.ok.inj h]

theorem Dice.of_check {config : Config} {d : Dice} {c : Checked} (h : d.check config = .ok c) :
    c.number ≤ config.maxDice ∧ d.faces.int? = some c.faces := by
  obtain ⟨n, hn, h⟩ := bind_eq_ok.1 h
  obtain ⟨f, hf, h⟩ := bind_eq_ok.1 h
  obtain rfl := Except.ok.inj h
  exact ⟨le_of_checkNumber hn, int?_of_checkFaces hf⟩

/-- **Dice keep to the cap.** -/
theorem Dice.capped_roll (d : Dice) {h : Hand} (empty : h.results = []) :
    (∃ e, d.check context.config = .error e ∧ d.roll context h = .fail h e)
    ∨ ∃ c, d.check context.config = .ok c ∧ ((d.roll context h).counted 0).Meets
      (Hand.keepsCap context d.kind c.faces fun s _ => Hand.Within context s) := by
  cases hc : d.check context.config with
  | error e => exact .inl ⟨e, rfl, by simp [Dice.roll, hc, Steps.bind]⟩
  | ok c =>
    have start : Hand.Within context (0, h) := by
      constructor <;> simp [empty]
    have paced := Hand.paced_capped context d.kind c.faces
    refine .inr ⟨c, rfl, ?_⟩
    simp only [Dice.roll, hc, Task.ofExcept_ok, Task.bind_apply, Steps.bind]
    rw [Steps.counted_bind]
    have within : h.results.length + c.number ≤ context.config.maxDice := by
      simpa [empty] using (of_check hc).1
    refine Steps.Meets.bind (Hand.meets_rollMany c.number start within) ?_
    rintro ⟨k, s⟩ - hs
    simp only [Hand.carryOutModifiers, Task.bind_apply, Task.get_apply, Steps.bind]
    cases s.modifiers.mapM Hand.lowerModifier with
    | error e => exact .within hs
    | ok texts =>
      exact paced.carryOutAll (paced.performOnDice (Hand.capped_rollExtra d)) texts k
        { s with modifiers := [] } (hs.congr rfl)

end DiceFormula
