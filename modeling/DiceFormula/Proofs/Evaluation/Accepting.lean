import DiceFormula.Proofs.Evaluation.Loops
import DiceFormula.Proofs.Evaluation.Result
import DiceFormula.Proofs.Evaluation.Selecting

/-!
# Modifiers that take effect

Whether a command understands its text does not depend on the results: either it does nothing at all,
or it takes effect and its text is listed (`Hand.Decides`). So the commands that take effect are known
beforehand, and carrying out these alone comes to the same (`Hand.exists_accepted`). Their texts are
what is listed. They are in lower case and are cut no further, so that a hand which is asked for the
listed modifiers does the same once more (`Hand.repeats_carryOutModifiers`).
-/

namespace DiceFormula

/-! ## Lower case -/

theorem Char.small_toLower {c : Char} (ascii : c.toNat < 128) :
    c.toLower.toNat < 128 ∧ c.toLower.toLower = c.toLower := by
  have small : ∀ n < 128, (Char.ofNat n).toLower.toNat < 128
      ∧ (Char.ofNat n).toLower.toLower = (Char.ofNat n).toLower := by decide +kernel
  have := small c.toNat ascii
  rwa [Char.ofNat_toNat] at this

/-- **Ordinary text in lower case stays as it is.** -/
theorem Case.small_of_mem_lower {cs : List Char} (ascii : ∀ c ∈ cs, c.toNat < 128) :
    ∀ c ∈ lower cs, c.toNat < 128 ∧ c.toLower = c := by
  have sigma : capitalSigma ∉ cs := fun h => absurd (ascii _ h) (by decide)
  rw [lower_of_not_mem cs sigma]
  intro c hc
  obtain ⟨d, hd, hc⟩ := List.mem_flatMap.1 hc
  rw [lowerChar, if_pos (ascii d hd)] at hc
  obtain rfl := List.mem_singleton.1 hc
  exact Char.small_toLower (ascii d hd)

namespace Hand

variable {context : Context} {α : Type}

/-! ## Modifiers are kept -/

/-- What a modifier does to the results does not touch what the hand is asked for. -/
theorem closed_preserves (ms : List Value) :
    Closed fun task => Task.Preserves (fun h : Hand => h.modifiers = ms) task where
  pure := .pure
  bind := .bind
  get_bind := fun hf => .get_bind fun h _ => hf h
  fail := fun _ _ h => h
  ofExcept := .ofExcept
  setResult := fun _ _ => .modify fun _ h => h
  plain := by
    intro f _
    refine .get_bind ?_
    intro h hh
    split
    · exact .pure _
    · refine .bind (.set hh) ?_
      intro _
      split
      · exact .pure _
      · exact fun _ h => h

theorem preserves_rollExtra (ms : List Value) {d : Dice} {faces : Int} :
    Task.Preserves (fun h : Hand => h.modifiers = ms) (d.rollExtra context faces) :=
  (closed_preserves ms).rollExtra (preserves_rollOne ms)

/-! ## Understanding -/

/-- Either the task does nothing, or it tells that it was understood, whatever the hand is. -/
def Decides (task : Task Hand Bool) : Prop :=
  task = pure false ∨ ∀ h, (task h).Meets { done := fun _ understood => understood = true }

theorem decides_plain {f : List DieResult → Modifier.Outcome}
    (h : ∀ rs ss, (f rs).isSome = (f ss).isSome) : Decides (plain f) := by
  cases known : (f []).isSome with
  | false =>
    left
    funext s
    have none : f s.results = none :=
      Option.isNone_iff_eq_none.1 (Option.isSome_eq_false_iff.1 ((h _ _).trans known))
    simp [plain, none, Steps.bind]
  | true =>
    right
    intro s
    obtain ⟨c, hc⟩ := Option.isSome_iff_exists.1 ((h s.results []).trans known)
    simp only [plain, Task.bind_apply, Task.get_apply, Steps.bind, hc, Task.set_apply]
    cases c.fault with
    | none => exact rfl
    | some e => trivial

theorem decides_keep (text : List Char) : Decides (plain (Modifier.keep text)) :=
  decides_plain fun rs ss => by simp [Modifier.keep]

theorem decides_drop (text : List Char) : Decides (plain (Modifier.drop text)) :=
  decides_plain fun rs ss => by simp [Modifier.drop]

theorem decides_count (default : Value) (m : DieResult.Marking) (text : List Char) :
    Decides (plain (Modifier.count default m text)) := by
  refine decides_plain fun rs ss => ?_
  unfold Modifier.count
  cases (Modifier.strip? ['c', 's'] text).or (Modifier.strip? ['c', 'f'] text) with
  | none => rfl
  | some r =>
    simp only [Option.bind_some]
    split <;> rfl

theorem decides_deduct (p : DieResult.Penalty) (text : List Char) :
    Decides (plain (Modifier.deduct p text)) :=
  decides_plain fun rs ss => by simp [Modifier.deduct]

theorem decides_simple {f : List DieResult → Option (List DieResult)}
    (h : ∀ rs ss, (f rs).isSome = (f ss).isSome) : Decides (simple f) :=
  decides_plain fun rs ss => by simpa using h rs ss

/-- To match results is understood whenever it is asked for. -/
theorem decides_rollMatches (d : Dice) (faces : Int) (reroll recursive : Bool)
    (m : Modifier.Matching) (default : Int) :
    Decides (do d.rollMatches context faces reroll recursive m default; pure true) := by
  refine .inr fun h => Steps.Meets.bind (Q := fun _ _ => True) ?_ fun s _ _ => rfl
  exact .of_forall (fun _ => trivial) (fun _ => trivial) (fun _ _ => trivial) (fun _ _ => trivial) _

/-- **Whether dice understand a command depends on its text alone.** -/
theorem decides_performOnDice (d : Dice) (faces : Int) (c : Command) (text : List Char) :
    Decides (performOnDice context d faces c text) := by
  cases c with
  | reroll recursive =>
    simp only [performOnDice, Dice.reroll]
    split
    · exact .inl rfl
    · exact decides_rollMatches d faces true _ _ 1
  | explode recursive =>
    simp only [performOnDice, Dice.explode]
    split
    · exact .inl rfl
    · exact decides_rollMatches d faces false _ _ faces
  | keep => exact decides_keep text
  | drop => exact decides_drop text
  | minimum =>
    refine decides_simple fun rs ss => ?_
    unfold Modifier.minimum
    cases Modifier.strip? ['m', 'i', 'n'] text <;> simp
  | maximum =>
    refine decides_simple fun rs ss => ?_
    unfold Modifier.maximum
    cases Modifier.strip? ['m', 'a', 'x'] text <;> simp
  | parity even => exact decides_simple fun _ _ => rfl
  | countSuccesses => exact decides_count _ _ text
  | countFailures => exact decides_count _ _ text
  | deductFailures => exact decides_deduct _ text
  | subtractFailures => exact decides_deduct _ text
  | call =>
    refine decides_simple fun rs ss => ?_
    unfold Modifier.callSide
    split <;> rfl

theorem decides_performOnPool (c : Command) (text : List Char) : Decides (performOnPool c text) := by
  cases c with
  | keep => exact decides_keep text
  | drop => exact decides_drop text
  | countSuccesses => exact decides_count _ _ text
  | countFailures => exact decides_count _ _ text
  | _ => exact .inl rfl

/-! ## What takes effect -/

/-- How commands are carried out that decide by their texts whether they take effect, and that leave
the modifiers of the hand alone. -/
structure Deciding (perform : Performing) : Prop where
  decides : ∀ c text, Decides (perform c text)
  preserves : ∀ ms c text, Task.Preserves (fun h : Hand => h.modifiers = ms) (perform c text)

theorem deciding_performOnDice (d : Dice) (faces : Int) :
    Deciding (performOnDice context d faces) where
  decides := decides_performOnDice d faces
  preserves ms := (closed_preserves ms).performOnDice (preserves_rollExtra ms)

theorem deciding_performOnPool : Deciding performOnPool where
  decides := decides_performOnPool
  preserves ms := (closed_preserves ms).performOnPool

/-- If a hand is asked for some texts and comes to an end, then the hand that is asked for what is
listed in the end comes to the same. -/
def Repeats (ms : List String) (task : Task Hand Unit) : Prop :=
  ∀ {h s : Hand} {src src' : Source}, h.modifiers = ms.map .str →
    (task h).result src = (.ok (s, ()), src') →
    (task { h with modifiers := s.modifiers }).result src = (.ok (s, ()), src')

/-- The texts of commands as modifiers. -/
def listed (ps : List Command.Written) : List Value := ps.map fun p => .str (String.ofList p.2)

variable {table : Command.Table} {perform : Performing} (hp : Deciding perform)

include hp

/-- A command either does nothing, or it is listed behind the others. -/
theorem carryOut_of_deciding (c : Command) (text : List Char) :
    (∀ h, (carryOut perform c text h).result = pure (h, ()))
    ∨ ∀ h, (carryOut perform c text h).Meets
        { done := fun s _ => s.modifiers = h.modifiers ++ [.str (String.ofList text)] } := by
  rcases hp.decides c text with nothing | understood
  · left
    intro h
    simp [carryOut, nothing, Steps.bind]
  · right
    intro h
    refine Steps.Meets.bind (Q := fun s b => b = true ∧ s.modifiers = h.modifiers) ?_ ?_
    · exact ((understood h).and (hp.preserves _ c text h rfl)).mono (fun _ _ => trivial)
        (fun _ _ => trivial) (fun _ _ => id) fun _ _ _ => trivial
    · rintro s _ ⟨rfl, same⟩
      exact ⟨trivial, trivial, congrArg (· ++ _) same⟩

/-- **The commands that take effect are known beforehand**: to carry them out alone comes to the same,
and they are what is listed. -/
theorem exists_accepted (ps : List Command.Written) :
    ∃ qs : List Command.Written, qs.Sublist ps
      ∧ (∀ h, (carryOutEach perform qs h).result = (carryOutEach perform ps h).result)
      ∧ ∀ h, (carryOutEach perform qs h).Meets
          { done := fun s _ => s.modifiers = h.modifiers ++ listed qs } := by
  induction ps with
  | nil => exact ⟨[], .refl _, fun _ => rfl, fun h => (List.append_nil _).symm⟩
  | cons p ps ih =>
    obtain ⟨qs, kept, same, lists⟩ := ih
    rcases carryOut_of_deciding hp p.1 p.2 with nothing | listing
    · refine ⟨qs, kept.cons p, fun h => ?_, lists⟩
      rw [carryOutEach, Task.bind_apply, Steps.result_bind, nothing, pure_bind, same]
    · refine ⟨p :: qs, kept.cons_cons p, fun h => ?_, fun h => (listing h).bind ?_⟩
      · simp only [carryOutEach, Task.bind_apply, Steps.result_bind, same]
      · intro s _ (hs : s.modifiers = _)
        refine (lists s).mono (fun _ => id) (fun _ => id) ?_ fun _ _ => id
        intro t _ (ht : t.modifiers = _)
        show t.modifiers = _
        rw [ht, hs, listed, listed, List.map_cons, List.append_assoc, List.singleton_append]

/-- **What is listed is carried out once more in the same way**, if the hand was asked for ordinary
texts. -/
theorem repeats_carryOutModifiers (proper : table.Proper) {ms : List String}
    (ascii : ∀ m ∈ ms, ∀ c ∈ m.toList, c.toNat < 128) :
    Repeats ms (carryOutModifiers table perform) := by
  intro h s src src' asked ends
  obtain ⟨qs, kept, same, lists⟩ :=
    exists_accepted hp ((ms.map fun m => Case.lower m.toList).flatMap (Command.cut table))
  simp only [carryOutModifiers, Task.bind_apply, Task.get_apply, Steps.bind, asked,
    mapM_lowerModifier, Task.ofExcept_ok, Task.set_apply, carryOutAll_eq_carryOutEach,
    ← same] at ends
  have listing : s.modifiers = listed qs := by
    obtain ⟨-, hs⟩ := (lists { h with modifiers := [] }).ends.gives _ _ _ ends
    exact hs
  -- what is kept was cut off a text in lower case
  have source (q) (hq : q ∈ qs) : ∃ m ∈ ms, q ∈ Command.cut table (Case.lower m.toList) := by
    obtain ⟨text, htext, hcut⟩ := List.mem_flatMap.1 (kept.subset hq)
    obtain ⟨m, hm, rfl⟩ := List.mem_map.1 htext
    exact ⟨m, hm, hcut⟩
  have lower (q) (hq : q ∈ qs) : Case.lower q.2 = q.2 := by
    obtain ⟨m, hm, hcut⟩ := source q hq
    exact Case.lower_of_small fun c hc =>
      Case.small_of_mem_lower (ascii m hm) c (Command.mem_of_mem_cut hcut c hc)
  have texts : (listed qs).mapM lowerModifier = .ok (qs.map Prod.snd) := by
    have := mapM_lowerModifier (qs.map fun q => String.ofList q.2)
    rw [List.map_map] at this
    refine this.trans (congrArg Except.ok ?_)
    rw [List.map_map]
    exact List.map_congr_left fun q hq => by simp [lower q hq]
  have cuts : (qs.map Prod.snd).flatMap (Command.cut table) = qs := by
    rw [List.flatMap_map]
    refine (List.flatMap_congr fun q hq => ?_).trans (List.flatMap_singleton' qs)
    obtain ⟨m, -, hcut⟩ := source q hq
    exact Command.cut_of_mem_cut proper hcut
  simp only [carryOutModifiers, Task.bind_apply, Task.get_apply, Steps.bind, listing, texts,
    Task.ofExcept_ok, Task.set_apply, carryOutAll_eq_carryOutEach, cuts]
  exact ends

end Hand

/-! ## Dice -/

namespace Dice

variable {context : Context}

/-- What a hand is asked for makes no difference to how dice are rolled. -/
theorem result_rollOne_with (kind : DiceKind) (faces : ℤ) (ms : List Value) (h : Hand) :
    (rollOne context kind faces { h with modifiers := ms }).result
      = (fun p => ({ p.1 with modifiers := ms }, p.2))
        <$> (rollOne context kind faces h).result := by
  refine (congrArg Steps.result ?_).trans
    (Steps.result_mapState (fun s : Hand => { s with modifiers := ms }) _)
  simp only [rollOne, face]
  cases context.mode with
  | minimum | maximum => rfl
  | random =>
    refine congrArg Steps.draw (funext fun x => ?_)
    cases x with
    | none => rfl
    | some x =>
      simp only [Steps.bind]
      cases faceOfDraw kind faces x <;> rfl

theorem result_rollMany_with (kind : DiceKind) (faces : ℤ) (ms : List Value) (n : ℕ) (h : Hand) :
    (rollMany context kind faces n { h with modifiers := ms }).result
      = (fun p => ({ p.1 with modifiers := ms }, p.2))
        <$> (rollMany context kind faces n h).result := by
  induction n generalizing h with
  | zero => rfl
  | succ n ih =>
    simp only [rollMany, Task.bind_apply, Steps.result_bind, result_rollOne_with, bind_map_left,
      map_bind, Task.pause_apply, Steps.result_pause, Steps.result_done, pure_bind, ih]

/-- **Dice that are asked for what they listed roll the same once more.** -/
theorem repeats_roll (d : Dice) {ms : List String}
    (ascii : ∀ m ∈ ms, ∀ c ∈ m.toList, c.toNat < 128) : Hand.Repeats ms (d.roll context) := by
  intro h s src src' asked ends
  simp only [roll, Task.bind_apply, Steps.result_bind] at ends ⊢
  cases checked : d.check context.config with
  | error e =>
    rw [checked] at ends
    cases ends
  | ok c =>
    simp only [checked, Task.ofExcept_ok, Steps.result_done, pure_bind] at ends ⊢
    rw [result_rollMany_with, bind_map_left]
    cases rolled : (rollMany context d.kind c.faces c.number h).result src with
    | mk outcome mid =>
      cases outcome with
      | error e =>
        rw [Drawing.bind_of_error rolled] at ends
        cases ends
      | ok p =>
        rw [Drawing.bind_of_ok rolled] at ends ⊢
        have same : p.1.modifiers = ms.map .str := by
          obtain ⟨-, hs⟩ := (Hand.preserves_rollMany (ms.map .str) c.number h asked).ends.gives _ _ _
            rolled
          exact hs
        exact Hand.repeats_carryOutModifiers (Hand.deciding_performOnDice d c.faces)
          (Command.proper_ofKind d.kind) ascii same ends

theorem rollMatchesFrom_with_hand (d : Dice) (hand : Hand) (faces : ℤ) (reroll : Bool)
    (comparison target : Value) (reach : Reach) (fuel : ℕ) : ∀ (i : ℕ) (limit : Option ℕ),
      ({ d with hand } : Dice).rollMatchesFrom context faces reroll comparison target reach fuel i
          limit
        = d.rollMatchesFrom context faces reroll comparison target reach fuel i limit := by
  induction fuel with
  | zero => exact fun _ _ => rfl
  | succ fuel ih =>
    intro i limit
    simp only [rollMatchesFrom, ih]
    rfl

/-- The hand that dice have has no part in how another one is rolled. -/
theorem roll_with_hand (d : Dice) (hand : Hand) :
    ({ d with hand } : Dice).roll context = d.roll context := by
  have perform (faces : ℤ) : Hand.performOnDice context { d with hand } faces
      = Hand.performOnDice context d faces := by
    funext c text
    cases c <;> simp only [Hand.performOnDice, reroll, explode, rollMatches, rollMatchesFrom_with_hand]
  simp only [roll, check, perform]

end Dice

end DiceFormula
