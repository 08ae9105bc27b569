import DiceFormula.Evaluation.Modifiers
import DiceFormula.Proofs.Result.Discarding

/-!
# What commands make of results

A command changes results one for one, and `Command.Makes` says what it may make of a single one. A
modifier that rolls nothing does to the results what its command may make of each of them
(`Modifier.Does`).
-/

namespace DiceFormula

open List (Forall₂)

/-! ## Single results -/

namespace Command

/-- What a command may make of a result. -/
inductive Makes : Command → DieResult → DieResult → Prop
  | leave (c : Command) (r : DieResult) : Makes c r r
  | reroll (recursive : Bool) {r : DieResult} (active : r.isActive = true) :
      Makes (.reroll recursive) r (Dice.mark true r)
  | explode (recursive : Bool) (r : DieResult) : Makes (.explode recursive) r (Dice.mark false r)
  | keep (r : DieResult) : Makes .keep r r.discard
  | drop (r : DieResult) : Makes .drop r r.discard
  | minimum (v : Value) (r : DieResult) :
      Makes .minimum r { r with count := v, rerolled := .bool true }
  | maximum (v : Value) (r : DieResult) :
      Makes .maximum r { r with count := v, rerolled := .bool true }
  | parity (even met : Bool) (v : Value) (r : DieResult) :
      Makes (.parity even) r { r with success := .bool met, count := v }
  | countSuccesses (met : Bool) (r : DieResult) :
      Makes .countSuccesses r (r.tallyOne .successes met)
  | countFailures (met : Bool) (r : DieResult) :
      Makes .countFailures r (r.tallyOne .failures met)
  | deductFailures (failed : Bool) (v : Value) (r : DieResult) :
      Makes .deductFailures r { (if failed then r.fail else r) with count := v }
  | subtractFailures (failed : Bool) (v : Value) (r : DieResult) :
      Makes .subtractFailures r { (if failed then r.fail else r) with count := v }
  | call (met : Bool) (v : Value) (r : DieResult) :
      Makes .call r { r with success := .bool met, count := v }

/-- A command that discards results, and does nothing else to them. -/
theorem makes_of_discards {c : Command} (discard : ∀ r, c.Makes r r.discard)
    {rs ss : List DieResult} (h : Forall₂ DieResult.Discards rs ss) : Forall₂ c.Makes rs ss := by
  refine h.imp ?_
  rintro r _ (_ | _)
  · exact .leave c r
  · exact discard r

end Command

/-! ## Modifiers that roll nothing -/

namespace DieResult

theorem makes_tally {c : Command} {m : Marking}
    (makes : ∀ met r, c.Makes r (tallyOne m met r)) (comparison target : Value)
    (rs : List DieResult) : Forall₂ c.Makes rs (tally comparison target m rs).state := by
  refine Change.forall₂_each (.leave c) ?_ rs
  intro r
  cases Comparison.apply comparison r.face target with
  | error e => exact .leave c r
  | ok met => exact makes met r

/-- A penalty changes nothing but what a result counts as. -/
theorem exists_of_penalize {p : Penalty} {r s : DieResult} (h : r.penalize p = .ok s) :
    ∃ v, s = { r with count := v } := by
  unfold penalize at h
  split at h
  · cases p with
    | none => exact ⟨r.count, (Except.ok.inj h).symm⟩
    | minusOne => exact ⟨.int (-1), (Except.ok.inj h).symm⟩
    | minusFace =>
      cases negated : r.face.negated? with
      | none => simp [negated] at h
      | some v =>
        simp only [negated] at h
        exact ⟨v, (Except.ok.inj h).symm⟩
  · exact ⟨r.count, (Except.ok.inj h).symm⟩

theorem makes_deduct {c : Command}
    (makes : ∀ (failed : Bool) v r, c.Makes r { (if failed then r.fail else r) with count := v })
    (condition : Option Condition) (p : Penalty) (rs : List DieResult) :
    Forall₂ c.Makes rs (deduct condition p rs).state := by
  refine Change.forall₂_each (.leave c) ?_ rs
  intro r
  unfold deductOne
  cases r.fails condition with
  | error e => exact .leave c r
  | ok failed =>
    have made := makes failed
    dsimp only
    cases h : (if failed then r.fail else r).penalize p with
    | error e => exact made _ r
    | ok s =>
      obtain ⟨v, rfl⟩ := exists_of_penalize h
      exact made v r

end DieResult

namespace Modifier

/-- The modifier does to results what the command may make of each of them. -/
def Does (c : Command) (f : List DieResult → Outcome) : Prop :=
  ∀ rs out, f rs = some out → Forall₂ c.Makes rs out.state

theorem does_map {c : Command} {f : List DieResult → Option (List DieResult)}
    (h : ∀ rs ss, f rs = some ss → Forall₂ c.Makes rs ss) :
    Does c fun rs => (f rs).map fun rs => { state := rs } := by
  intro rs out ho
  obtain ⟨ss, hs, rfl⟩ := Option.map_eq_some_iff.1 ho
  exact h rs ss hs

theorem does_keep (text : List Char) : Does .keep (keep text) := by
  intro rs out h
  obtain ⟨r, -, rfl⟩ := Option.map_eq_some_iff.1 h
  exact Command.makes_of_discards .keep (DieResult.discards_keepOrDrop _ _ _ rs)

theorem does_drop (text : List Char) : Does .drop (drop text) := by
  intro rs out h
  obtain ⟨r, -, rfl⟩ := Option.map_eq_some_iff.1 h
  exact Command.makes_of_discards .drop (DieResult.discards_keepOrDrop _ _ _ rs)

theorem does_count {c : Command} {m : DieResult.Marking}
    (makes : ∀ met r, c.Makes r (DieResult.tallyOne m met r)) (default : Value)
    (text : List Char) : Does c (count default m text) := by
  intro rs out h
  obtain ⟨r, -, h⟩ := Option.bind_eq_some_iff.1 h
  dsimp only at h
  split at h
  · cases h
  · obtain rfl := Option.some.inj h
    exact DieResult.makes_tally makes _ _ rs

theorem does_deduct {c : Command}
    (makes : ∀ (failed : Bool) v r, c.Makes r { (if failed then r.fail else r) with count := v })
    (p : DieResult.Penalty) (text : List Char) : Does c (deduct p text) := by
  intro rs out h
  obtain ⟨r, -, rfl⟩ := Option.map_eq_some_iff.1 h
  exact DieResult.makes_deduct makes _ p rs

theorem makes_clamp {c : Command}
    (makes : ∀ v r, c.Makes r { r with count := v, rerolled := .bool true })
    (outside : Int → Int → Bool) (bound : Nat) (rs : List DieResult) :
    Forall₂ c.Makes rs (clamp outside bound rs) := by
  refine forall₂_map ?_ rs
  intro r
  split
  · exact makes _ r
  · exact .leave c r

theorem does_minimum (text : List Char) :
    Does .minimum fun rs => (minimum text rs).map fun rs => { state := rs } := by
  refine does_map ?_
  intro rs ss h
  obtain ⟨r, -, h⟩ := Option.bind_eq_some_iff.1 h
  obtain ⟨n, -, rfl⟩ := Option.map_eq_some_iff.1 h
  exact makes_clamp .minimum _ n rs

theorem does_maximum (text : List Char) :
    Does .maximum fun rs => (maximum text rs).map fun rs => { state := rs } := by
  refine does_map ?_
  intro rs ss h
  obtain ⟨r, -, h⟩ := Option.bind_eq_some_iff.1 h
  obtain ⟨n, -, rfl⟩ := Option.map_eq_some_iff.1 h
  exact makes_clamp .maximum _ n rs

theorem does_parity (even : Bool) :
    Does (.parity even) fun rs => (some (parity even rs)).map fun rs => { state := rs } := by
  refine does_map ?_
  rintro rs ss ⟨⟩
  exact forall₂_map (fun r => .parity even _ _ r) rs

theorem does_callSide (text : List Char) :
    Does .call fun rs => (callSide text rs).map fun rs => { state := rs } := by
  refine does_map ?_
  intro rs ss h
  have counted (test : Value → Bool) : Forall₂ Command.call.Makes rs (countFaces test rs) :=
    forall₂_map (fun r => .call _ _ r) rs
  unfold callSide at h
  split at h
  · exact Option.some.inj h ▸ counted _
  · exact Option.some.inj h ▸ counted _
  · cases h

end Modifier

end DiceFormula
