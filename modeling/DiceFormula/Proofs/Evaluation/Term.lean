import DiceFormula.Evaluation.Term
import DiceFormula.Proofs.Evaluation.Hand
import DiceFormula.Proofs.Roll.Built

/-!
# What evaluation makes of a term

A storable term that is evaluated is marked, and its content is filled in: a group gets its roll, a
call its rolls and its result, a pool its rolls and results, and dice their results
(`Term.Evaluated`). It can be stopped at every pause (`Term.meets_evaluationBy`). So its dice are
storable, and so is the term itself unless it is a group or a call, whose place a number will take
(`Term.Settled`). All this rests on one assumption about the rolls inside, that their evaluation
makes rolls of a certain kind; it is `Sound` if these are storable.
-/

namespace DiceFormula

variable {context : Context} {config : Config}

/-- The evaluation of a waiting roll leaves the roll itself behind when it is stopped, and makes a
roll of the kind `P` of it at the end. -/
def RollEvaluation.Makes (P : Roll → Prop) (inner : RollEvaluation) (context : Context) : Prop :=
  ∀ r : Roll, r.Waiting context.config →
    (inner context r).Meets { left := Left.Holds (· = r), done := fun s _ => P s }

/-- The rolls that are made are storable. -/
abbrev RollEvaluation.Sound (inner : RollEvaluation) (context : Context) : Prop :=
  inner.Makes (Roll.Storable context.config) context

/-! ## Flavors -/

theorem Term.Storable.flavorTerm {flavor : Value} (hf : flavor.IsText) :
    ∀ {t : Term}, t.Storable config → (Roll.flavorTerm flavor t).Storable config
  | ⟨body, l, carried⟩, h => by
    obtain ⟨s, rfl⟩ := hf
    unfold Roll.flavorTerm
    split
    · exact h
    · exact ⟨⟨h.1.config, h.1.tag, h.1.mark, Options.isText_flavor (Value.lookup_put_self _ _ _)⟩,
        h.2.1, h.2.2⟩

theorem termsStorable_flavored {flavor : Value} (hf : flavor.IsText) {ts : List Term}
    (h : termsStorable config ts) : termsStorable config (ts.map (Roll.flavorTerm flavor)) := by
  refine termsStorable_iff.2 (List.forall_mem_map.2 ?_)
  intro t ht
  exact (termsStorable_iff.1 h t ht).flavorTerm hf

theorem Roll.Storable.allDice_propagateFlavor {flavor : Value} (hf : flavor.IsText) {r : Roll}
    (h : r.Storable config) : termsStorable config (r.propagateFlavor flavor).allDice := by
  obtain ⟨terms, dice, shared, sheet⟩ := r
  unfold Roll.propagateFlavor
  split
  · have flavored := termsStorable_flavored hf h.2.1
    simp only [Roll.allDice]
    split <;> exact storable_diceOfTerms _ flavored
  · exact Roll.storable_allDice _ h

theorem Roll.evaluated_propagateFlavor (flavor : Value) (r : Roll) :
    (r.propagateFlavor flavor).evaluated = r.evaluated := by
  unfold Roll.propagateFlavor
  split <;> rfl

/-- An evaluated roll stays storable when it takes over a flavor. -/
theorem Roll.Storable.propagateFlavor {flavor : Value} (hf : flavor.IsText) {r : Roll}
    (h : r.Storable config) (evaluated : r.evaluated = true) :
    (r.propagateFlavor flavor).Storable config := by
  obtain ⟨terms, dice, shared, sheet⟩ := r
  unfold Roll.propagateFlavor
  split
  · have flavored := termsStorable_flavored hf h.2.1
    exact ⟨h.1, flavored, storable_diceOfTerms _ flavored, (if_pos evaluated).symm⟩
  · exact h

/-- The dice of some rolls are storable if those of every roll are. -/
theorem termsStorable_diceOfRolls {rs : List Roll}
    (h : ∀ r ∈ rs, termsStorable config r.allDice) : termsStorable config (diceOfRolls rs) := by
  induction rs with
  | nil => trivial
  | cons r rs ih =>
    obtain ⟨hr, hrs⟩ := List.forall_mem_cons.1 h
    exact termsStorable_append.2 ⟨hr, ih hrs⟩

theorem Term.Storable.isText_flavor {t : Term} (h : t.Storable config) : t.flavor.IsText := by
  unfold Term.flavor
  split
  · exact ⟨"", rfl⟩
  · exact h.label.flavor

theorem diceOfRolls_append (rs ss : List Roll) :
    diceOfRolls (rs ++ ss) = diceOfRolls rs ++ diceOfRolls ss := by
  induction rs with
  | nil => rfl
  | cons r rs ih => simp [diceOfRolls, ih]

/-! ## Terms that have been evaluated -/

/-- What evaluation makes of the content of a term with a flavor, if the rolls inside become rolls
of the kind `P`. -/
inductive Body.Evaluated (P : Roll → Prop) (flavor : Value) : Body → Body → Prop
  | number (n : Number) : Evaluated P flavor (.number n) (.number n)
  | operator (s : Arithmetic.Sign) : Evaluated P flavor (.operator s) (.operator s)
  | group (source : Value) {r : Roll} (roll : P r) :
      Evaluated P flavor (.group source none) (.group source (some (r.propagateFlavor flavor)))
  | call (fn : Value) (args : List String) {rolls : List Roll} {f : FunctionEntry} {result : Value}
      (rolls_made : ∀ r ∈ rolls, ∃ s, P s ∧ r = s.propagateFlavor flavor)
      (applied : Term.applyFunction f rolls = .ok result) :
      Evaluated P flavor (.call fn args [] .null) (.call fn args rolls result)
  | pool (args : List String) (before : List Roll) (hand : Hand) {rolls : List Roll} {hand' : Hand}
      (rolls_made : ∀ r ∈ rolls, P r) (written : hand'.IsWritten) :
      Evaluated P flavor (.pool args before hand) (.pool args rolls hand')
  | dice (d : Dice) {hand : Hand} (written : hand.IsWritten) :
      Evaluated P flavor (.dice d) (.dice { d with hand })

namespace Term

/-- What evaluation makes of a term. -/
structure Evaluated (P : Roll → Prop) (t u : Term) : Prop where
  body : Body.Evaluated P t.flavor t.body u.body
  label : u.label = { t.label with mark := .bool true }
  carried : u.carried = t.carried

theorem Evaluated.exists_body {P : Roll → Prop} {t u : Term} (h : Evaluated P t u) :
    ∃ body, Body.Evaluated P t.flavor t.body body
      ∧ u = ⟨body, { t.label with mark := .bool true }, t.carried⟩ := by
  obtain ⟨filled, label, same⟩ := h
  obtain ⟨body, l, carried⟩ := u
  obtain rfl : l = { t.label with mark := .bool true } := label
  obtain rfl : carried = t.carried := same
  exact ⟨body, filled, rfl⟩

/-! ## Formulas inside a term -/

variable {inner : RollEvaluation} {P : Roll → Prop} (hi : inner.Makes P context)

include hi

/-- The roll of a formula is evaluated beside the term. -/
theorem meets_evaluateFormula (formula : Value) (t : Term) :
    (evaluateFormula inner context formula t).Meets
      { left := Left.IsClean, done := fun u r => u = t ∧ P r } := by
  refine Steps.Meets.bind (Q := fun u r => u = t ∧ r.Waiting context.config)
    (Task.meets_ofExcept (fun r hr => ⟨rfl, Roll.waiting_of_ofFormula hr⟩) fun _ _ => trivial) ?_
  rintro u r ⟨rfl, hr⟩
  refine Steps.Meets.bind (Q := fun v (p : Roll × Unit) => v = u ∧ P p.1)
    (Steps.Meets.beside ((hi r hr).mono_ends ?_ ?_)) fun _ _ h => h
  · intro l hl
    exact (Left.holds_map _ _ _).2 (hl.mono fun _ _ => trivial)
  · intro s _ hs
    exact ⟨rfl, hs⟩

/-! ## Groups, calls and pools -/

/-- The contract of the content of a term: it can be stopped everywhere, and its end is `Q`. -/
abbrev endsIn (Q : Term → Prop) : Contract Term Unit :=
  { left := Left.IsClean, done := fun u _ => Q u }

/-- A group gets the roll of its formula, with its own flavor. -/
theorem meets_evaluateGroup (source : Value) (l : Label) (carried : List Term) :
    (evaluateGroup inner context source none ⟨.group source none, l, carried⟩).Meets
      (endsIn fun u => ∃ r, P r ∧ u = ⟨.group source (some (r.propagateFlavor
        (Term.flavor ⟨.group source none, l, carried⟩))), l, carried⟩) := by
  refine Steps.Meets.bind (meets_evaluateFormula hi source _) ?_
  rintro u r ⟨rfl, hr⟩
  exact ⟨r, hr, rfl⟩

/-- What holds of a term while the rolls of its formulas are added to it, holds at the end. -/
theorem meets_evaluateMembers {flavored : Bool} {I : Term → Prop}
    (add : ∀ t r, I t → P r →
      I (t.addRoll (if flavored then r.propagateFlavor t.flavor else r))) :
    ∀ (args : List String) (t : Term), I t →
      (evaluateMembers inner context flavored args t).Meets (endsIn I)
  | [], _, h => h
  | formula :: formulas, t, h => by
    refine Steps.Meets.bind (meets_evaluateFormula hi (.str formula) t) ?_
    rintro u r ⟨rfl, hr⟩
    exact meets_evaluateMembers add formulas _ (add u r h hr)

/-- A call gets the rolls of its formulas, with its own flavor, and the result of its function. -/
theorem meets_evaluateCall (fn : Value) (args : List String) (l : Label) (carried : List Term) :
    (evaluateCall inner context fn args ⟨.call fn args [] .null, l, carried⟩).Meets
      (endsIn fun u => ∃ rolls f result, u = ⟨.call fn args rolls result, l, carried⟩
        ∧ (∀ r ∈ rolls, ∃ s, P s ∧
          r = s.propagateFlavor (Term.flavor ⟨.call fn args [] .null, l, carried⟩))
        ∧ applyFunction f rolls = .ok result) := by
  refine Steps.Meets.bind (Q := fun u _ => u = ⟨.call fn args [] .null, l, carried⟩)
    (Task.meets_ofExcept (fun _ _ => rfl) fun _ _ => trivial) ?_
  rintro u f rfl
  refine Steps.Meets.bind
    (meets_evaluateMembers hi (I := fun u => ∃ rolls, u = ⟨.call fn args rolls .null, l, carried⟩
        ∧ ∀ r ∈ rolls, ∃ s, P s ∧
          r = s.propagateFlavor (Term.flavor ⟨.call fn args [] .null, l, carried⟩))
      ?_ args _ ⟨[], rfl, List.forall_mem_nil _⟩) ?_
  · rintro _ r ⟨rolls, rfl, made⟩ hr
    refine ⟨_, rfl, ?_⟩
    exact List.forall_mem_append.2 ⟨made, List.forall_mem_singleton.2 ⟨r, hr, rfl⟩⟩
  · rintro _ - ⟨rolls, rfl, made⟩
    simp only [Task.bind_apply, Task.get_apply, Steps.bind]
    refine Steps.Meets.bind
      (Q := fun u v => u = ⟨.call fn args rolls .null, l, carried⟩
        ∧ applyFunction f rolls = .ok v)
      (Task.meets_ofExcept (fun _ hv => ⟨rfl, hv⟩) fun _ _ => trivial) ?_
    rintro _ v ⟨rfl, applied⟩
    exact ⟨rolls, f, v, rfl, made, applied⟩

/-- A pool gets the rolls of its formulas, and lists texts as its modifiers. -/
theorem meets_evaluatePool (args : List String) {rolls : List Roll} {hand : Hand} (l : Label)
    (carried : List Term) (made : ∀ r ∈ rolls, P r) (written : hand.IsWritten) :
    (evaluatePool inner context args ⟨.pool args rolls hand, l, carried⟩).Meets
      (endsIn fun u => ∃ rolls hand, u = ⟨.pool args rolls hand, l, carried⟩
        ∧ (∀ r ∈ rolls, P r) ∧ hand.IsWritten) := by
  refine Steps.Meets.bind
    (meets_evaluateMembers hi (I := fun u => ∃ rolls hand, u = ⟨.pool args rolls hand, l, carried⟩
        ∧ (∀ r ∈ rolls, P r) ∧ hand.IsWritten) ?_ args _ ⟨rolls, hand, rfl, made, written⟩) ?_
  · rintro _ r ⟨rolls, hand, rfl, made, hw⟩ hr
    exact ⟨_, _, rfl, List.forall_mem_append.2 ⟨made, List.forall_mem_singleton.2 hr⟩, hw⟩
  · rintro _ - ⟨rolls, hand, rfl, made, hw⟩
    refine Steps.Meets.mapState
      ((Hand.keeps_carryOutModifiers Hand.paced_keeps.performOnPool hand hw).mono_ends
        ?_ ?_)
    · intro l hl
      exact (Left.holds_map _ _ _).2 hl
    · intro hand _ hw
      exact ⟨rolls, hand, rfl, made, hw⟩

omit hi in
/-- Dice list texts as their modifiers. -/
theorem meets_rollDice (d : Dice) (l : Label) (carried : List Term)
    (written : d.hand.IsWritten) :
    (withHand (d.roll context) ⟨.dice d, l, carried⟩).Meets
      (endsIn fun u => ∃ hand, u = ⟨.dice { d with hand }, l, carried⟩ ∧ hand.IsWritten) := by
  refine Steps.Meets.mapState ((d.keeps_roll d.hand written).mono_ends ?_ ?_)
  · intro l hl
    exact (Left.holds_map _ _ _).2 hl
  · intro hand _ hw
    exact ⟨hand, rfl, hw⟩

/-! ## Terms -/

/-- The evaluation of the content of a term that has just been marked. -/
theorem meets_evaluateBody {t : Term} (h : t.Storable config) (made : ∀ r ∈ t.rolls, P r) :
    (evaluateBody inner context t.body (t.setMark (.bool true))).Meets
      (endsIn fun u => Evaluated P t u) := by
  obtain ⟨body, l, carried⟩ := t
  cases body with
  | number n => exact ⟨.number n, rfl, rfl⟩
  | operator s => exact ⟨.operator s, rfl, rfl⟩
  | text v => trivial
  | group source roll =>
    obtain rfl : roll = none := h.2.1.2
    refine (meets_evaluateGroup hi source _ carried).mono_done ?_
    rintro _ - ⟨r, hr, rfl⟩
    exact ⟨.group source hr, rfl, rfl⟩
  | call fn args rolls result =>
    obtain ⟨-, -, rfl, rfl⟩ := h.2.1
    refine (meets_evaluateCall hi fn args _ carried).mono_done ?_
    rintro _ - ⟨rolls, f, result, rfl, made, applied⟩
    exact ⟨.call fn args made applied, rfl, rfl⟩
  | pool args rolls hand =>
    refine (meets_evaluatePool hi args _ carried made h.2.1.2.1).mono_done ?_
    rintro _ - ⟨rolls, hand, rfl, made, hw⟩
    exact ⟨.pool args _ _ made hw, rfl, rfl⟩
  | dice d =>
    refine (meets_rollDice d _ carried h.2.1.1.hand).mono_done ?_
    rintro _ - ⟨hand, rfl, hw⟩
    exact ⟨.dice d hw, rfl, rfl⟩

/-- **The evaluation of a storable term** fills it in, and can be stopped everywhere. -/
theorem meets_evaluationBy {t : Term} (h : t.Storable config) (made : ∀ r ∈ t.rolls, P r) :
    (Term.evaluationBy inner context t).Meets (endsIn fun u => Evaluated P t u) := by
  have body : ((evaluateBody inner context t.body).onStop (fun t => .clean t.rollback)
      (t.setMark (.bool true))).Meets (endsIn fun u => Evaluated P t u) := by
    refine Steps.Meets.onStop ((meets_evaluateBody hi h made).mono_ends ?_ ?_)
    · intro l hl
      exact hl.mono fun _ _ => trivial
    · exact fun _ _ => id
  obtain ⟨b, l, carried⟩ := t
  cases b with
  | text v => trivial
  | _ =>
    simp only [Term.evaluationBy, Task.bind_apply, Task.get_apply, Steps.bind]
    split
    · trivial
    · exact body

/-! ## Storable terms -/

omit hi

theorem Storable.rolls : ∀ {t : Term}, t.Storable config → rollsStorable config t.rolls
  | ⟨.pool _ _ _, _, _⟩, h => h.2.1.2.2
  | ⟨.call _ _ _ _, _, _⟩, h => by
    obtain ⟨-, ⟨-, -, rfl, -⟩, -⟩ := h
    trivial
  | ⟨.number _, _, _⟩, _ => trivial
  | ⟨.operator _, _, _⟩, _ => trivial
  | ⟨.text _, _, _⟩, _ => trivial
  | ⟨.group _ _, _, _⟩, _ => trivial
  | ⟨.dice _, _, _⟩, _ => trivial

/-- What became of a term: it is marked, and its dice are storable. The term itself is storable
unless it is a group or a call. -/
structure Settled (config : Config) (t u : Term) : Prop where
  label : u.label = { t.label with mark := .bool true }
  intermediate : u.isIntermediate = t.isIntermediate
  dice : termsStorable config u.dice
  storable : t.isIntermediate = false → u.Storable config

theorem Storable.settled {t u : Term} (h : u.Storable config)
    (hl : u.label = { t.label with mark := .bool true })
    (hi : u.isIntermediate = t.isIntermediate) : Settled config t u :=
  ⟨hl, hi, storable_dice u h, fun _ => h⟩

/-- Evaluation settles a storable term. -/
theorem Evaluated.settled {t u : Term} (h : Evaluated (Roll.Storable config) t u)
    (ht : t.Storable config) : Settled config t u := by
  have flavor := ht.isText_flavor
  obtain ⟨body', filled, rfl⟩ := h.exists_body
  obtain ⟨body, l, carried⟩ := t
  obtain ⟨hl, hb, hc⟩ := ht
  have marked := hl.marked
  cases filled with
  | number n => exact Storable.settled ⟨marked, hb, hc⟩ rfl rfl
  | operator s => exact Storable.settled ⟨marked, hb, hc⟩ rfl rfl
  | @group source r hr =>
    exact ⟨rfl, rfl, termsStorable_append.2 ⟨hc, hr.allDice_propagateFlavor flavor⟩,
      fun hf => nomatch hf⟩
  | @call fn args rolls f result made _ =>
    refine ⟨rfl, rfl, termsStorable_append.2 ⟨hc, ?_⟩, fun hf => nomatch hf⟩
    refine termsStorable_diceOfRolls ?_
    intro r hr
    obtain ⟨s, hs, rfl⟩ := made r hr
    exact hs.allDice_propagateFlavor flavor
  | @pool args before hand rolls hand' made written =>
    exact Storable.settled ⟨marked, ⟨hb.1, written, rollsStorable_iff.2 made⟩, hc⟩ rfl rfl
  | @dice d hand written =>
    have hd := hb.1
    exact Storable.settled ⟨marked, ⟨⟨hd.known, hd.number, hd.faces, written⟩, .inl rfl⟩, hc⟩
      rfl rfl

/-- **The evaluation of a storable term settles it.** -/
theorem meets_evaluationBy_settled (hi : inner.Sound context) {t : Term}
    (h : t.Storable context.config) :
    (Term.evaluationBy inner context t).Meets
      (endsIn fun u => Settled context.config t u) :=
  (meets_evaluationBy hi h (rollsStorable_iff.1 h.rolls)).mono_done fun _ _ hu => hu.settled h

end Term

end DiceFormula
