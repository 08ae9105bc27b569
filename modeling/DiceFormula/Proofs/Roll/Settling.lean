import DiceFormula.Proofs.Arithmetic.Precedence
import DiceFormula.Proofs.Evaluation.Joining
import DiceFormula.Proofs.Evaluation.Passes

/-!
# The arithmetic of a roll

Between the two passes of an evaluation, what is left of a formula is made to alternate; after them
the totals of its terms are written one after the other, and the text is evaluated. Totals that are
integers are taken together exactly in this way: each of them stands for itself in the text, whatever
its sign (`Roll.passes_flatten_exactly`).

None of this depends on how the rolls inside are evaluated, nor on what is drawn.
-/

namespace DiceFormula

open Arithmetic

variable {config : Config}

/-! ## Integer totals -/

/-- The integer that a number is in value. -/
def Number.whole? : Number → Option Int
  | .int n => some n
  | .float x => (Dyadic.ofFloat? x).bind fun d => if d.isIntegral then some d.trunc else none

theorem Number.exists_of_whole? {x : Float} {n : Int} (h : whole? (.float x) = some n) :
    ∃ d, Dyadic.ofFloat? x = some d ∧ d.isIntegral = true ∧ d.trunc = n := by
  obtain ⟨d, hd, h⟩ := Option.bind_eq_some_iff.1 h
  by_cases integral : d.isIntegral = true
  · rw [if_pos integral] at h
    exact ⟨d, hd, integral, Option.some.inj h⟩
  · rw [if_neg integral] at h
    cases h

theorem Number.formulaText_of_whole? {x : Number} {n : Int} (h : x.whole? = some n) :
    x.formulaText = toString n := by
  cases x with
  | int m => rw [Option.some.inj h, Number.formulaText]
  | float x =>
    obtain ⟨d, hd, integral, rfl⟩ := Number.exists_of_whole? h
    rw [Number.formulaText, hd]
    exact if_pos integral

/-- The total of a term, if it is an integer. -/
def Term.worth? (t : Term) : Option Int :=
  match t.total with
  | .ok (.num x) => x.whole?
  | _ => none

/-- The terms are read as integers with signs between them: the total of the first one, and those of
the others after the operators before them. -/
inductive Reads : List Term → Int → List (Sign × Int) → Prop
  | value {t : Term} {n : Int} : t.worth? = some n → Reads [t] n []
  | join {t s : Term} {ts : List Term} {op : Sign} {n m : Int} {l : List (Sign × Int)} :
      t.worth? = some n → s.sign? = some op → Reads ts m l → Reads (t :: s :: ts) n ((op, m) :: l)

/-- Terms that alternate are read as integers if all values are worth integers. -/
theorem Alternates.exists_reads {ts : List Term} (h : Alternates ts)
    (worth : ∀ t ∈ ts, t.isOperator = false → ∃ n, t.worth? = some n) : ∃ a l, Reads ts a l := by
  induction h with
  | value value =>
    obtain ⟨n, hn⟩ := worth _ List.mem_cons_self value
    exact ⟨n, [], .value hn⟩
  | join value operator _ ih =>
    obtain ⟨ht, hts⟩ := List.forall_mem_cons.1 worth
    obtain ⟨-, hts⟩ := List.forall_mem_cons.1 hts
    obtain ⟨n, hn⟩ := ht value
    obtain ⟨op, hop⟩ := Option.isSome_iff_exists.1 operator
    obtain ⟨a, l, hl⟩ := ih hts
    exact ⟨n, (op, a) :: l, .join hn hop hl⟩

namespace Roll

theorem flatTerm_of_worth? {t : Term} {n : Int} (h : t.worth? = some n) :
    flatTerm t = .ok (toString n) := by
  unfold Term.worth? at h
  split at h
  · next x hx =>
    rw [flatTerm, hx, bind_ok]
    exact congrArg _ (Number.formulaText_of_whole? h)
  · cases h

theorem flatTerm_of_sign? {s : Term} {op : Sign} (h : s.sign? = some op) :
    flatTerm s = .ok (" " ++ op.char.toString ++ " ") := by
  obtain ⟨body, l, carried⟩ := s
  cases body with
  | operator o =>
    obtain rfl := Option.some.inj h
    rfl
  | _ => cases h

/-- The flat text of terms is that of the integers they are read as. -/
theorem flatten_of_reads {ts : List Term} {a : Int} {l : List (Sign × Int)} (h : Reads ts a l) :
    ∃ text, flatten ts = .ok text ∧ text.toList = flatText a l := by
  suffices ∃ texts, ts.mapM flatTerm = .ok texts ∧ (String.join texts).toList = flatText a l by
    obtain ⟨texts, hts, text⟩ := this
    exact ⟨_, by rw [flatten, hts]; rfl, text⟩
  induction h with
  | @value t n ht =>
    refine ⟨[toString n], by rw [List.mapM_cons, flatTerm_of_worth? ht]; rfl, ?_⟩
    simp [flatText, intText]
  | @join t s ts op n m l ht hs _ ih =>
    obtain ⟨texts, hts, text⟩ := ih
    refine ⟨toString n :: (" " ++ op.char.toString ++ " ") :: texts, ?_, ?_⟩
    · rw [List.mapM_cons, flatTerm_of_worth? ht, List.mapM_cons, flatTerm_of_sign? hs, hts]
      rfl
    · rw [String.toList_join] at text ⊢
      simp [flatText, intText, text]

/-! ## The passes -/

variable {inner : RollEvaluation} {context : Context}

/-- The first pass leaves the terms spaced, and all of them can be joined. -/
theorem ends_evaluateIntermediates_spaced {r : Roll} (spaced : Spaced r.terms)
    (joinable : ∀ t ∈ r.terms, t.Joinable) (waits : ∀ t ∈ r.terms, t.evaluated = false) :
    (evaluateIntermediates inner context r.terms.length 0 r).Ends .any fun _ s _ =>
      Spaced s.terms ∧ ∀ u ∈ s.terms, u.Joinable := by
  refine (ends_evaluateIntermediates (P := fun t _ u => Replaces t u ∧ u.Joinable) ?_).mono ?_
  · intro t ht
    by_cases whole : t.isIntermediate = false
    · exact .inl ⟨whole, rfl, joinable t ht⟩
    · have group : t.isIntermediate = true := by simpa using whole
      refine .inr ⟨group, waits t ht, ?_⟩
      refine (ends_replaces (joinable t ht).tag).mono ?_
      rintro n u - ⟨tag, -⟩
      exact ⟨tag, Dealing.allows_of_ok (fun _ => trivial) fun v hv =>
        ⟨replaces_of_numberFor group hv, (joined_of_numberFor hv).joinable⟩⟩
  · rintro n s - ⟨us, hus, rfl⟩
    refine ⟨spaced.of_replaces (hus.forall₂.imp fun _ _ ⟨_, h⟩ => h.1), ?_⟩
    intro u hu
    obtain ⟨t, -, k, -, hjoin⟩ := hus.exists_of_mem u hu
    exact hjoin

/-- The second pass leaves values and operators in turn. -/
theorem ends_evaluateRest_alternates {s : Roll} {ts : List Term} (h : Alternates ts)
    (joinable : ∀ t ∈ ts, t.Joinable) :
    (evaluateRest inner context ts.length 0 { s with terms := ts }).Ends .any fun _ v _ =>
      Alternates v.terms := by
  refine (ends_evaluateRest (P := fun t _ u => Replaces t u) ?_).mono ?_
  · intro t ht
    cases evaluated : t.evaluated with
    | true => exact .inl ⟨rfl, rfl⟩
    | false => exact .inr ⟨rfl, ends_replaces (joinable t ht).tag⟩
  · rintro n v - ⟨us, hus, rfl⟩
    exact h.of_replaces (hus.forall₂.imp fun _ _ ⟨_, h⟩ => h)

/-- **Every formula that reaches the final arithmetic is calculated exactly.** Once the groups and
calls are replaced, joining leaves values and operators in turn; only a denomination that makes no
dice can keep it from that. And once all terms are evaluated and all totals are integers, the flat
text is worth what these integers are in order of precedence: it is never refused, it is a division
by zero just where a divisor is zero, and otherwise the very integer, unless a quotient is none. -/
theorem passes_flatten_exactly {formula data : Value} {options : Options} {p : Formula.Parsed}
    (h : Formula.parse formula data config = .ok p) (inner : RollEvaluation) (context : Context)
    (rule : StopRule) (src : Source) :
    let r := (ofTerms p.terms options config).setState .evaluating
    let first := (evaluateIntermediates inner context r.terms.length 0 r).run rule src
    first.ending = .finished () →
      match simplify config first.state.terms with
      | .error e => e.IsNotDice config
      | .ok ts =>
        let s := { first.state with terms := ts }
        let second := (evaluateRest inner context ts.length 0 s).run rule first.source
        Alternates ts
          ∧ (second.ending = .finished () →
            (∀ t ∈ second.state.terms, t.isOperator = false → ∃ n, t.worth? = some n) →
              ∃ a l text, Reads second.state.terms a l
                ∧ flatten second.state.terms = .ok text
                ∧ Gives (Arithmetic.evaluate text) (exactly a l)) := by
  intro r first finished
  obtain ⟨-, fresh⟩ := Formula.fresh_of_parse h
  have spaced := Formula.spaced_of_parse h
  have joinable := Formula.joinable_of_parse h
  have waits : ∀ t ∈ r.terms, t.evaluated = false := fun t ht => (fresh t ht).waits
  have hfirst : (evaluateIntermediates inner context r.terms.length 0 r).Ends .any fun _ s _ =>
      Spaced s.terms ∧ ∀ u ∈ s.terms, u.Joinable :=
    ends_evaluateIntermediates_spaced spaced joinable waits
  obtain ⟨-, -, spaced, joinable⟩ := (hfirst.run rule src.gives_any).2 () finished
  have joins := @joins_simplify config _ spaced joinable
  cases hts : simplify config first.state.terms with
  | error e =>
    rw [hts] at joins
    exact joins
  | ok ts =>
    rw [hts] at joins
    obtain ⟨alternates, joinable⟩ := joins
    refine ⟨alternates, ?_⟩
    intro finished worth
    have hsecond := @ends_evaluateRest_alternates inner context first.state ts alternates joinable
    obtain ⟨-, -, alternates⟩ := (hsecond.run rule first.source.gives_any).2 () finished
    obtain ⟨a, l, reads⟩ := alternates.exists_reads worth
    obtain ⟨text, flat, htext⟩ := flatten_of_reads reads
    exact ⟨a, l, text, reads, flat, gives_flatText htext⟩

/-- Dice whose number is a group, and a negative total after a remainder sign. -/
theorem passes_flatten_exactly_fused :
    ∃ p ts a l text, Formula.parse (.str "(1d2)d6 - 7 % (2-5)") .null .diceOnly = .ok p
      ∧ let inner := evaluationWithin 2
        let context : Context := { config := .diceOnly }
        let src : Source := { pending := [0.75, 0.5, 0.25], fill := none }
        let r := (ofTerms p.terms [] .diceOnly).setState .evaluating
        let first := (evaluateIntermediates inner context r.terms.length 0 r).run .never src
        let s := { first.state with terms := ts }
        let second := (evaluateRest inner context ts.length 0 s).run .never first.source
        simplify .diceOnly first.state.terms = .ok ts ∧ Alternates ts
          ∧ Reads second.state.terms a l ∧ flatten second.state.terms = .ok text
          ∧ Gives (Arithmetic.evaluate text) (exactly a l) := by
  let check (r : Roll) : Bool :=
    let inner := evaluationWithin 2
    let context : Context := { config := .diceOnly }
    let src : Source := { pending := [0.75, 0.5, 0.25], fill := none }
    let r := r.setState .evaluating
    let first := (evaluateIntermediates inner context r.terms.length 0 r).run .never src
    first.ending.isFinished
      && match simplify .diceOnly first.state.terms with
        | .error _ => false
        | .ok ts =>
          let s := { first.state with terms := ts }
          let second := (evaluateRest inner context ts.length 0 s).run .never first.source
          second.ending.isFinished
            && second.state.terms.all fun t => t.isOperator || t.worth?.isSome
  obtain ⟨r, h, hcheck⟩ := exists_of_create_any (.str "(1d2)d6 - 7 % (2-5)") .null .null .diceOnly
    check (by decide +kernel)
  obtain ⟨p, hp, h⟩ := bind_eq_ok.1 h
  obtain rfl := Except.ok.inj h
  obtain ⟨finished, hcheck⟩ := Bool.and_eq_true_iff.1 hcheck
  have exact := @passes_flatten_exactly .diceOnly _ _ [] p hp (evaluationWithin 2)
    { config := .diceOnly } .never { pending := [0.75, 0.5, 0.25], fill := none }
    (Ending.eq_of_isFinished finished)
  split at hcheck
  · cases hcheck
  · next ts hts =>
    rw [hts] at exact
    obtain ⟨alternates, exact⟩ := exact
    obtain ⟨finished, hcheck⟩ := Bool.and_eq_true_iff.1 hcheck
    obtain ⟨a, l, text, reads, flat, gives⟩ := exact (Ending.eq_of_isFinished finished) (by
      intro t ht value
      have := List.all_eq_true.1 hcheck t ht
      rw [value, Bool.false_or] at this
      exact Option.isSome_iff_exists.1 this)
    exact ⟨p, ts, a, l, text, hp, hts, alternates, reads, flat, gives⟩

end Roll

end DiceFormula
