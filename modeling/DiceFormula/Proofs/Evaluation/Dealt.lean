import DiceFormula.Proofs.Evaluation.Count
import DiceFormula.Proofs.Evaluation.Passes
import DiceFormula.Proofs.Evaluation.Term
import DiceFormula.Proofs.Formula.Nesting

/-!
# The dice of a term

The dice literals of a formula are those among its terms and, in their place, the terms of the
formulas inside (`Term.subterms`). `Dealt` says of some dice that they came of such terms after a
number of draws: every draw is one of their results, and without texts each literal has become one
of the dice, in the order they were written. When the rolls inside a term are dealt in this way, so
are the dice that come of the term (`Term.dealt_evaluationBy`).
-/

namespace DiceFormula

variable {config : Config} {context : Context}

/-! ## Literals -/

/-- The terms of a formula, none if it cannot be read. -/
def Formula.termsOf (config : Config) (formula : String) : List Term :=
  match parse (.str formula) .null config with
  | .ok p => p.terms
  | .error _ => []

namespace Term

/-- The dice of a dice term. -/
def die? (t : Term) : Option Dice :=
  match t.body with
  | .dice d => some d
  | _ => none

/-- The terms of the formulas inside a term. -/
def inside (config : Config) (t : Term) : List Term :=
  t.formulas.flatMap (Formula.termsOf config)

/-- A term that is nested less deep than `fuel`, and all terms inside it at every level, in the order
of the text. -/
def subterms (config : Config) : Nat → Term → List Term
  | 0, _ => []
  | fuel + 1, t => t :: (t.inside config).flatMap (subterms config fuel)

theorem termsOf_of_ofFormula {a : String} {r : Roll} (h : Roll.ofFormula (.str a) config = .ok r) :
    Formula.termsOf config a = r.terms := by
  obtain ⟨p, hp, h⟩ := bind_eq_ok.1 h
  obtain rfl := Except.ok.inj h
  rw [Formula.termsOf, hp]
  rfl

/-- The terms at all levels of a roll inside a term are inside the term. -/
theorem subterms_of_ofFormula {t : Term} {a : String} (ha : a ∈ t.formulas) {r : Roll}
    (hr : Roll.ofFormula (.str a) config = .ok r) (fuel : Nat) :
    r.terms.flatMap (subterms config fuel) ⊆ t.subterms config (fuel + 1) := by
  intro v hv
  obtain ⟨u, hu, hv⟩ := List.mem_flatMap.1 hv
  refine List.mem_cons_of_mem _ (List.mem_flatMap.2 ⟨u, ?_, hv⟩)
  exact List.mem_flatMap.2 ⟨a, ha, (termsOf_of_ofFormula hr).symm ▸ hu⟩

theorem subterms_of_formulas {t : Term} (h : t.formulas = []) (fuel : Nat) :
    t.subterms config (fuel + 1) = [t] := by
  rw [subterms, inside, h, List.flatMap_nil, List.flatMap_nil]

end Term

/-- What a dice literal says: the kind of the dice, their number and their faces. -/
abbrev DiceLiteral := DiceKind × Value × Value

/-- What is written of some dice. -/
def Dice.literal (d : Dice) : DiceLiteral := (d.kind, d.number, d.faces)

/-- The dice literals among some terms. -/
def literalsIn (ts : List Term) : List DiceLiteral := ts.filterMap fun t => t.die?.map Dice.literal

theorem literalsIn_append (ts us : List Term) :
    literalsIn (ts ++ us) = literalsIn ts ++ literalsIn us := List.filterMap_append

theorem literalsIn_cons_of_die? {t : Term} (h : t.die? = none) (ts : List Term) :
    literalsIn (t :: ts) = literalsIn ts := by
  simp [literalsIn, h]

theorem literalsIn_eq_nil {ts : List Term} : literalsIn ts = [] ↔ ∀ t ∈ ts, t.die? = none := by
  simp [literalsIn, List.filterMap_eq_nil_iff]

/-! ## Dice that were dealt -/

/-- The number of results that some dice hold. -/
def resultsIn (ts : List Term) : Nat :=
  (ts.map fun t => (t.die?.map fun d => d.hand.results.length).getD 0).sum

theorem resultsIn_append (ts us : List Term) :
    resultsIn (ts ++ us) = resultsIn ts + resultsIn us := by
  simp [resultsIn]

/-- None of the terms is a text. -/
abbrev Textless (ts : List Term) : Prop := ∀ t ∈ ts, t.isText = false

/-- All of the terms are dice. In a random evaluation they hold `n` results, and if there was no text
among the terms `ws` that were written, they are the dice among these. -/
structure Dealt (context : Context) (ws : List Term) (n : Nat) (ts : List Term) : Prop where
  dice : ∀ t ∈ ts, t.die?.isSome = true
  results : context.mode = .random → resultsIn ts = n
  literals : Textless ws → literalsIn ts = literalsIn ws

namespace Dealt

variable {ws vs : List Term} {n k : Nat} {ts us : List Term}

theorem nil : Dealt context [] 0 [] := ⟨List.forall_mem_nil _, fun _ => rfl, fun _ => rfl⟩

theorem append (ht : Dealt context ws n ts) (hu : Dealt context vs k us) :
    Dealt context (ws ++ vs) (n + k) (ts ++ us) where
  dice := List.forall_mem_append.2 ⟨ht.dice, hu.dice⟩
  results := fun random => by rw [resultsIn_append, ht.results random, hu.results random]
  literals := by
    intro textless
    obtain ⟨hws, hvs⟩ := List.forall_mem_append.1 textless
    rw [literalsIn_append, literalsIn_append, ht.literals hws, hu.literals hvs]

/-- A term that is no dice adds nothing itself. -/
theorem cons {w : Term} (h : Dealt context ws n ts) (hw : w.die? = none) :
    Dealt context (w :: ws) n ts where
  dice := h.dice
  results := h.results
  literals := fun textless => by
    rw [literalsIn_cons_of_die? hw, h.literals (List.forall_mem_cons.1 textless).2]

/-- Only what the dice are counts, not their labels. -/
theorem congr (h : Dealt context ws n ts) (same : us.map Term.die? = ts.map Term.die?) :
    Dealt context ws n us := by
  have results : resultsIn us = resultsIn ts := by
    have := congrArg (fun ds => (ds.map fun d : Option Dice =>
      (d.map fun d => d.hand.results.length).getD 0).sum) same
    simpa [resultsIn, List.map_map, Function.comp_def] using this
  have literals : literalsIn us = literalsIn ts := by
    have := congrArg (List.filterMap fun d : Option Dice => d.map Dice.literal) same
    simpa [literalsIn, List.filterMap_map, Function.comp_def] using this
  refine ⟨?_, ?_, ?_⟩
  · intro u hu
    have : u.die? ∈ ts.map Term.die? := same ▸ List.mem_map_of_mem hu
    obtain ⟨t, ht, e⟩ := List.mem_map.1 this
    rw [← e]
    exact h.dice t ht
  · intro random
    rw [results, h.results random]
  · intro textless
    rw [literals, h.literals textless]

/-- Dice that were rolled from an empty hand. -/
theorem die {w u : Term} {d : Dice} {hand : Hand} (hw : w.die? = some d)
    (hu : u.die? = some { d with hand })
    (h : context.mode = .random → hand.results.length = n) : Dealt context [w] n [u] where
  dice := List.forall_mem_singleton.2 (by rw [hu]; rfl)
  results := fun random => by simp [resultsIn, hu, h random]
  literals := fun _ => by simp [literalsIn, hw, hu, Dice.literal]

/-- Terms without texts have dice come of them just when some of them are dice. -/
theorem eq_nil_iff (h : Dealt context ws n ts) (textless : Textless ws) :
    ts = [] ↔ ∀ w ∈ ws, w.die? = none := by
  rw [← literalsIn_eq_nil, ← h.literals textless, literalsIn_eq_nil]
  constructor
  · rintro rfl
    exact List.forall_mem_nil _
  · refine fun none => List.eq_nil_iff_forall_not_mem.2 fun t ht => ?_
    have dice := h.dice t ht
    rw [none t ht] at dice
    cases dice

end Dealt

/-! ## Rolls -/

theorem diceOfTerms_eq_flatMap (ts : List Term) : diceOfTerms ts = ts.flatMap Term.dice := by
  induction ts with
  | nil => rfl
  | cons t ts ih => rw [diceOfTerms, ih, List.flatMap_cons]

namespace Roll

/-- The roll was evaluated, and its dice came of the given terms. -/
structure Deals (context : Context) (fuel : Nat) (ts : List Term) (n : Nat) (r : Roll) :
    Prop where
  state : r.sheet.state = .evaluated
  dice : r.dice = diceOfTerms r.terms
  dealt : Dealt context (ts.flatMap (Term.subterms context.config fuel)) n r.dice

theorem allDice_of_state {r : Roll} (h : r.sheet.state = .evaluated) : r.allDice = r.dice := by
  obtain ⟨terms, dice, shared, sheet⟩ := r
  have state : sheet.state = .evaluated := h
  rw [allDice, state]
  rfl

/-- A flavor changes no dice. -/
theorem die?_diceOfTerms_flavorTerm (flavor : Value) (ts : List Term) :
    (diceOfTerms (ts.map (flavorTerm flavor))).map Term.die?
      = (diceOfTerms ts).map Term.die? := by
  have one (t : Term) : (flavorTerm flavor t).dice.map Term.die? = t.dice.map Term.die? := by
    unfold flavorTerm
    split
    · rfl
    · obtain ⟨body, l, carried⟩ := t
      cases body with
      | group source roll => cases roll <;> rfl
      | dice d => simp [Term.dice, Term.die?]
      | _ => rfl
  induction ts with
  | nil => rfl
  | cons t ts ih => simp only [List.map_cons, diceOfTerms, List.map_append, one, ih]

theorem Deals.propagateFlavor {fuel n : Nat} {ts : List Term} {r : Roll} (flavor : Value)
    (h : r.Deals context fuel ts n) : (r.propagateFlavor flavor).Deals context fuel ts n := by
  unfold Roll.propagateFlavor
  split
  · refine ⟨h.state, rfl, h.dealt.congr ?_⟩
    rw [h.dice]
    exact die?_diceOfTerms_flavorTerm flavor r.terms
  · exact h

end Roll

/-- The rolls of a formula are dealt. -/
def RollEvaluation.Deals (inner : RollEvaluation) (context : Context) (fuel : Nat)
    (formula : String) : Prop :=
  ∀ r, Roll.ofFormula (.str formula) context.config = .ok r →
    (inner context r).Ends context.dealing fun n s _ =>
      s.Deals context fuel (Formula.termsOf context.config formula) n

/-! ## Terms -/

/-- A content of which nothing has been rolled. -/
def Body.Unrolled : Body → Prop
  | .group source roll => source.IsText ∧ roll = none
  | .call _ _ rolls _ | .pool _ rolls _ => rolls = []
  | .dice d => d.hand.results = []
  | _ => True

theorem Term.Fresh.unrolled {t : Term} (h : t.Fresh config) : t.body.Unrolled := by
  have storable := h.storable
  have rolls := h.rolls
  have results := h.results_of_isLeaf
  obtain ⟨body, l, carried⟩ := t
  cases body with
  | group source roll => exact storable.2.1
  | call | pool => exact rolls
  | dice d => exact results rfl
  | _ => trivial

namespace Term

variable {inner : RollEvaluation} {fuel : Nat}

/-- The dice that came of a term besides those it carries. -/
def Deals (context : Context) (fuel : Nat) (t : Term) (n : Nat) (u : Term) : Prop :=
  ∃ own, u.dice = t.carried ++ own
    ∧ Dealt context (t.subterms context.config fuel) n own

/-- Whether a term takes rolls. -/
def takesRolls (t : Term) : Bool :=
  match t.body with
  | .call _ _ _ _ | .pool _ _ _ => true
  | _ => false

theorem dice_addRoll {t : Term} (h : t.takesRolls = true) (r : Roll) :
    (t.addRoll r).takesRolls = true ∧ (t.addRoll r).dice = t.dice ++ r.allDice := by
  have one : diceOfRolls [r] = r.allDice := by simp [diceOfRolls]
  obtain ⟨body, l, carried⟩ := t
  cases body with
  | call | pool =>
    refine ⟨rfl, ?_⟩
    simp only [addRoll, dice, diceOfRolls_append, one, List.append_assoc]
  | _ => cases h

theorem dice_setResult (v : Value) (t : Term) : (t.setResult v).dice = t.dice := by
  obtain ⟨body, l, carried⟩ := t
  cases body <;> rfl

theorem dice_setHand {t : Term} (h : t.takesRolls = true) (hand : Hand) :
    (t.setHand hand).dice = t.dice := by
  obtain ⟨body, l, carried⟩ := t
  cases body with
  | call | pool => rfl
  | _ => cases h

/-- The dice of the rolls that are added to a term are added to its dice. -/
theorem dealt_addRolls {flavored : Bool} {args : List String} {n : Nat} {rs : List Roll}
    (h : Each (fun a k r => r.Deals context fuel (Formula.termsOf context.config a) k) args n rs) :
    ∀ {t : Term}, t.takesRolls = true →
      (t.addRolls flavored rs).takesRolls = true
        ∧ ∃ own, (t.addRolls flavored rs).dice = t.dice ++ own
          ∧ Dealt context ((args.flatMap (Formula.termsOf context.config)).flatMap
              (subterms context.config fuel)) n own := by
  induction h with
  | nil => exact fun ht => ⟨ht, [], (List.append_nil _).symm, .nil⟩
  | @cons a k r args n rs hr _ ih =>
    intro t ht
    have hr : (if flavored then r.propagateFlavor t.flavor else r).Deals context fuel
        (Formula.termsOf context.config a) k := by
      split
      · exact hr.propagateFlavor _
      · exact hr
    obtain ⟨taken, dice⟩ := dice_addRoll ht (if flavored then r.propagateFlavor t.flavor else r)
    obtain ⟨taken, own, hown, dealt⟩ := ih taken
    refine ⟨taken, (if flavored then r.propagateFlavor t.flavor else r).dice ++ own, ?_, ?_⟩
    · rw [addRolls, List.foldl_cons]
      exact hown.trans (by rw [dice, Roll.allDice_of_state hr.state, List.append_assoc])
    · rw [List.flatMap_cons, List.flatMap_append]
      exact hr.dealt.append dealt

/-- The formulas of a call or a pool. -/
theorem dealt_evaluateMembers {flavored : Bool} {t : Term} (ht : t.takesRolls = true)
    (h : ∀ a ∈ t.formulas, inner.Deals context fuel a) :
    (evaluateMembers inner context flavored t.formulas t).Ends context.dealing
      fun n u _ => u.takesRolls = true ∧ ∃ own, u.dice = t.dice ++ own
        ∧ Dealt context ((t.inside context.config).flatMap (subterms context.config fuel))
          n own := by
  refine (ends_evaluateMembers (R := fun a k r =>
    r.Deals context fuel (Formula.termsOf context.config a) k) ?_ t).mono ?_
  · intro a ha
    exact Dealing.allows_of_ok (fun _ => trivial) (h a ha)
  · rintro n u - ⟨rs, hrs, rfl⟩
    exact dealt_addRolls hrs ht

/-- **The dice of a term are those of its literals.** -/
theorem dealt_evaluateBody {t : Term} (unrolled : t.body.Unrolled)
    (h : ∀ a ∈ t.formulas, inner.Deals context fuel a) :
    (evaluateBody inner context t.body (t.setMark (.bool true))).Ends context.dealing
      fun n u _ => t.Deals context (fuel + 1) n u := by
  obtain ⟨body, l, carried⟩ := t
  cases body with
  | number | operator => exact ⟨[], (List.append_nil _).symm, Dealt.nil.cons rfl⟩
  | text v => exact trivial
  | group source roll =>
    obtain ⟨⟨s, rfl⟩, rfl⟩ := unrolled
    refine (ends_evaluateFormula (Dealing.allows_of_ok (fun _ => trivial)
      (h s (List.mem_singleton_self s))) _).bind ?_
    rintro n u r ⟨rfl, hr⟩
    refine ⟨_, rfl, ?_⟩
    have terms : inside context.config ⟨.group (.str s) none, l, carried⟩
        = Formula.termsOf context.config s := by simp [inside, formulas]
    rw [Roll.allDice_of_state (hr.propagateFlavor _).state, subterms, terms]
    exact (hr.propagateFlavor _).dealt.cons rfl
  | call fn args rolls result =>
    obtain rfl : rolls = [] := unrolled
    have members := @dealt_evaluateMembers context inner fuel true
      (setMark (.bool true) ⟨.call fn args [] result, l, carried⟩) rfl h
    refine Task.ends_bind_ofExcept (fun _ => trivial) fun f _ => ?_
    refine members.bind ?_
    rintro n u - ⟨taken, own, hown, dealt⟩
    refine Task.ends_bind_ofExcept (fun _ => trivial) fun v _ => ⟨own, ?_, ?_⟩
    · rw [dice_setResult, hown]
      simp [setMark, dice, diceOfRolls]
    · exact dealt.cons rfl
  | pool args rolls hand =>
    obtain rfl : rolls = [] := unrolled
    have members := @dealt_evaluateMembers context inner fuel false
      (setMark (.bool true) ⟨.pool args [] hand, l, carried⟩) rfl h
    refine members.bind ?_
    rintro n u - ⟨taken, own, hown, dealt⟩
    refine Steps.Ends.mapState
      ((Hand.ends_carryOutOnPool (fun _ => trivial) _).mono ?_)
    rintro _ hand' - rfl
    refine ⟨own, ?_, ?_⟩
    · rw [dice_setHand taken, hown]
      simp [setMark, dice, diceOfRolls]
    · exact dealt.cons rfl
  | dice d =>
    have empty : d.hand.results = [] := unrolled
    refine Steps.Ends.mapState ((d.counts_roll d.hand).mono ?_)
    rintro n hand - results
    refine ⟨_, rfl, ?_⟩
    rw [subterms_of_formulas rfl]
    refine Dealt.die rfl rfl ?_
    intro random
    rw [results random, empty, List.length_nil, Nat.zero_add]

/-- A term that waits is dealt with its literals. -/
theorem dealt_evaluationBy {t : Term} (waits : t.evaluated = false) (unrolled : t.body.Unrolled)
    (h : ∀ a ∈ t.formulas, inner.Deals context fuel a) :
    (Term.evaluationBy inner context t).Ends context.dealing
      fun n u _ => t.Deals context (fuel + 1) n u :=
  ends_evaluationBy (fun _ _ => trivial) waits (dealt_evaluateBody unrolled h)

end Term

end DiceFormula
