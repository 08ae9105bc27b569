import DiceFormula.Proofs.Evaluation.Calm
import DiceFormula.Proofs.Evaluation.Congruence
import DiceFormula.Proofs.Formula.DiceText
import DiceFormula.Proofs.Formula.Inside
import DiceFormula.Proofs.Roll.Dice
import DiceFormula.Proofs.Roll.Record

/-!
# Deterministic rolls

A roll that waits answers whether it is deterministic by reading the formulas inside it once more,
an evaluated one by the dice it has, and a restored one by those of its record. Without texts the
three agree, and a deterministic roll draws nothing (`Roll.isDeterministic_lasts`).

A text is asked by itself, though it is joined with its neighbours later on. If it would be no dice
by itself, it makes none with its neighbours either, unless it breaks off after the `d`
(`Formula.harmless_of_parse`, `Term.still_of_fuse`). So a deterministic roll draws nothing where no
text does so (`Roll.run_of_isDeterministic`), though it may where one does
(`Roll.isDeterministic_of_head`).
-/

namespace DiceFormula

variable {config : Config} {context context' : Context} {inner inner' : RollEvaluation}

namespace Term

/-- Whether the term is a text that breaks off where the denomination of dice should follow. -/
def breaksOff (t : Term) : Bool :=
  match t.body with
  | .text (.str s) => Leaf.isHead s.toList
  | _ => false

/-- The term is no dice, and no text that may become dice. -/
structure Tame (t : Term) : Prop where
  calm : t.calm = .ok true
  whole : t.breaksOff = false

theorem whole_of_textless {t : Term} (h : t.isText = false) : t.breaksOff = false := by
  obtain ⟨body, l, carried⟩ := t
  cases body with
  | text v => cases h
  | _ => rfl

/-- A term that can never become dice. The evaluations of the formulas inside agree. -/
structure Still (config : Config) (agree : String → Prop) (t : Term) : Prop where
  joinable : t.Joinable
  unrolled : t.body.Unrolled
  notDice : t.die? = none
  formulas : ∀ a ∈ t.formulas, agree a
  harmless : Leaf.Harmless config t.written.toList

theorem Still.sameAlone (same : context'.config = context.config) {t : Term}
    (h : t.Still config (inner.Agree inner' context context')) :
    Roll.SameAlone inner inner' context context' t :=
  ⟨h.joinable.tag, evaluationBy_congr same h.unrolled (.inl h.notDice) h.formulas⟩

theorem still_of_numberFor {agree : String → Prop} {t n : Term}
    (h : Roll.numberFor t config = .ok n) : n.Still config agree := by
  have joined := Roll.joined_of_numberFor h
  obtain ⟨v, number, -, -, rfl⟩ := Roll.exists_of_numberFor h
  exact ⟨joined.joinable, trivial, rfl, List.forall_mem_nil _,
    Leaf.harmless_of_not_letter fun _ => Number.not_letter_of_mem_formulaText⟩

theorem flavorText_eq (flavor : Value) :
    (flavorText flavor).toList = [] ∨ ∃ cs, (flavorText flavor).toList = '[' :: cs := by
  unfold flavorText
  split
  · exact .inr ⟨flavor.filled.toList ++ [']'], by simp⟩
  · exact .inl rfl

/-- Terms that can never become dice cannot when they are joined. -/
theorem still_of_fuse {agree : String → Prop} {left right t : Term}
    (hl : left.Still config agree) (hr : right.Still config agree)
    (h : Roll.fuse left right config = .ok t) : t.Still config agree := by
  have joined := @Roll.outcome_fuse config left right hl.joinable hr.joinable
  rw [h] at joined
  obtain ⟨u, hu, body, mark, -⟩ := Roll.exists_of_fuse h
  have fresh := (Leaf.made_of_classify (by simp [hl.joinable.written]) hu).fresh
  have text : (left.written ++ right.formulaText).toList
      = left.written.toList ++ (right.written.toList ++ (flavorText right.flavor).toList) := by
    simp [formulaText]
  have harmless : Leaf.Harmless config (left.written ++ right.formulaText).toList := by
    rw [text]
    exact hl.harmless.append hr.harmless (flavorText_eq _)
  obtain ⟨notDice, written⟩ := Leaf.harmless_of_classify harmless hu
  refine ⟨joined.joinable, ?_, ?_, ?_, ?_⟩
  · rw [body]
    exact fresh.unrolled
  · rw [die?, body]
    exact notDice
  · rw [formulas_of_isLeaf (body ▸ Leaf.isLeaf_of_classify hu)]
    exact List.forall_mem_nil _
  · rw [Term.written, body]
    exact written

end Term

namespace Formula

/-- A tame term of a formula is no dice, and is harmless unless a number takes its place. -/
theorem harmless_of_parse {formula data : Value} {p : Parsed}
    (h : parse formula data config = .ok p) {t : Term} (ht : t ∈ p.terms) (tame : t.Tame) :
    t.die? = none ∧ (t.isIntermediate = false → Leaf.Harmless config t.written.toList) := by
  obtain ⟨fuel, text, h⟩ := exists_readTerms_of_parse h
  cases fuel with
  | zero => cases h
  | succ fuel =>
    rw [readTerms_succ] at h
    obtain ⟨ps, hps, stands⟩ := stands_of_readBy h
    cases stands t ht with
    | zero =>
      exact ⟨rfl, fun _ => Leaf.harmless_of_not_letter fun _ =>
        Number.not_letter_of_mem_formulaText⟩
    | operator s =>
      refine ⟨rfl, fun _ => .inl (@Leaf.neverDice_of_head _ _ [s.char, ' '] ' ' ?_ (by decide))⟩
      simp [Term.written, Term.make]
    | @leaf as _ _ full text h =>
      have whole : ∀ s, t.body = .text (.str s) → Leaf.isHead s.toList = false := by
        intro s hs
        have := tame.whole
        rwa [Term.breaksOff, hs] at this
      refine (Leaf.harmless_of_calm h ?_ tame.calm whole).imp_right fun h _ => h
      have neat : ∀ a ∈ as, a.Neat := fun a ha => (Piece.mem_of_ofText hps (text a ha).mem).2.neat
      rw [String.toList_ofList, Atom.scan_render neat]
      exact fun hm => neat _ hm rfl
    | group hg follows h =>
      cases grouped_of_groupTerm h with
      | group | call => exact ⟨rfl, fun h => by cases h⟩
      | pool =>
        refine ⟨rfl, fun _ => .inl ?_⟩
        simp only [Term.written, Term.make, String.toList_append]
        exact Leaf.neverDice_of_head rfl (by decide)

end Formula

namespace Roll

/-- Rolls of tame terms are evaluated alike in every mode, if those inside them are. -/
theorem evaluationBy_of_tame (same : context'.config = context.config) {formula data : Value}
    {options : Options} {p : Formula.Parsed}
    (h : Formula.parse formula data context.config = .ok p) (tame : ∀ t ∈ p.terms, t.Tame)
    (hi : ∀ t ∈ p.terms, ∀ a ∈ t.formulas, inner.Agree inner' context context' a) :
    evaluationBy inner context (ofTerms p.terms options context.config)
      = evaluationBy inner' context' (ofTerms p.terms options context.config) := by
  obtain ⟨-, fresh⟩ := Formula.fresh_of_parse h
  have joinable := Formula.joinable_of_parse h
  refine evaluationBy_congr (evaluateTerms_congr
    (G := Term.Still context.config (inner.Agree inner' context context')) ?_
    (fun _ _ => Term.still_of_numberFor) (fun _ _ _ => Term.still_of_fuse)
    fun _ => Term.Still.sameAlone same)
  intro t ht
  obtain ⟨notDice, harmless⟩ := Formula.harmless_of_parse h ht (tame t ht)
  refine ⟨⟨(joinable t ht).tag,
    Term.evaluationBy_congr same (fresh t ht).unrolled (.inl notDice) (hi t ht)⟩, ?_⟩
  cases whole : t.isIntermediate with
  | false =>
    exact .inl ⟨rfl, joinable t ht, (fresh t ht).unrolled, notDice, hi t ht, harmless whole⟩
  | true => exact .inr ⟨rfl, (fresh t ht).waits⟩

/-- Rolls of tame terms at every depth are evaluated alike in every mode. -/
theorem evaluationWithin_of_tame (same : context'.config = context.config) (fuel : Nat) :
    ∀ {formula data : Value} {options : Options} {p : Formula.Parsed},
      Formula.parse formula data context.config = .ok p → (∀ t ∈ p.terms, t.nesting ≤ fuel) →
      (∀ t ∈ p.terms.flatMap (Term.subterms context.config fuel), t.Tame) →
      evaluationWithin (fuel + 1) context (ofTerms p.terms options context.config)
        = evaluationWithin (fuel + 1) context' (ofTerms p.terms options context.config) := by
  refine induction_on_nesting (P := fun fuel r =>
    (∀ t ∈ r.terms.flatMap (Term.subterms context.config fuel), t.Tame) →
      evaluationWithin (fuel + 1) context r = evaluationWithin (fuel + 1) context' r) ?_ fuel
  intro fuel formula data options p h hi tame
  have tame : ∀ t ∈ p.terms, ∀ u ∈ t.subterms context.config (fuel + 1), u.Tame :=
    fun t ht u hu => tame u (List.mem_flatMap.2 ⟨t, ht, hu⟩)
  refine evaluationBy_of_tame same h (fun t ht => tame t ht t List.mem_cons_self) ?_
  intro t ht a ha r hr
  exact hi t ht a ha r hr fun v hv => tame t ht v (Term.subterms_of_ofFormula ha hr fuel hv)

/-- At its end an evaluation has dealt the dice of the formula. -/
theorem deals_evaluation {formula data options : Value} {r : Roll}
    (h : create formula data options context.config = .ok r) :
    (evaluation context r).Ends context.dealing
      fun n s _ => s.Deals context r.nesting r.terms n := by
  obtain ⟨p, hp, h⟩ := bind_eq_ok.1 h
  obtain ⟨options, -, h⟩ := bind_eq_ok.1 h
  obtain rfl := Except.ok.inj h
  exact deals_evaluationWithin _ hp fun t ht => nesting_le_of_mem ht

/-- A roll of tame terms draws nothing and is evaluated alike in every mode. -/
theorem run_of_tame {formula data options : Value} {r : Roll}
    (h : create formula data options config = .ok r)
    (tame : ∀ t ∈ r.terms.flatMap (Term.subterms config r.nesting), t.Tame) (mode : Mode)
    (rule : StopRule) (src : Source) :
    let report := (evaluation { config, mode } r).run rule src
    report.source = src ∧ report = (evaluation { config, mode := .random } r).run rule src := by
  have alike (mode mode' : Mode) :
      evaluation { config, mode } r = evaluation { config, mode := mode' } r := by
    obtain ⟨p, hp, h⟩ := bind_eq_ok.1 h
    obtain ⟨options, -, h⟩ := bind_eq_ok.1 h
    obtain rfl := Except.ok.inj h
    have same : Context.config { config, mode := mode' } = Context.config { config, mode } := rfl
    exact evaluationWithin_of_tame same _ hp (fun t ht => nesting_le_of_mem ht) tame
  refine ⟨?_, by rw [alike mode .random]⟩
  rw [alike mode .minimum]
  have free : src.Gives (Context.dealing { config, mode := .minimum }).drawn :=
    ⟨fun _ _ => trivial, trivial⟩
  exact ((@deals_evaluation { config, mode := .minimum } _ _ _ _ h).run rule free).1 nofun

/-! ## Answers after the evaluation -/

end Roll

namespace Term

variable {read : Config → Value → Except Error Bool}

/-- What stands in the place of the term `t` from the first pass on: a value, which is deterministic
if `t` was and it carries no dice. -/
structure Answers (read : Config → Value → Except Error Bool) (t u : Term) : Prop where
  replaces : Replaces t u
  tag : u.label.tag = none
  single : u.isIntermediate = false
  notText : u.isText = false
  answer : u.carried = [] → t.deterministicBy read = .ok true → u.deterministicBy read = .ok true

theorem answers_of_numberFor {t u v : Term} (group : t.isIntermediate = true)
    (h : Roll.numberFor u config = .ok v) : t.Answers read v := by
  have replaces := Roll.replaces_of_numberFor group h
  obtain ⟨total, number, -, -, rfl⟩ := Roll.exists_of_numberFor h
  refine ⟨replaces, rfl, rfl, rfl, fun (carried : u.dice = []) _ => ?_⟩
  simp [make, setMark, deterministicBy, carried]

theorem lasting_answers (t : Term) : Lasting (t.Answers read) where
  setMark := @fun ⟨body, _, _⟩ ⟨h, tag, single, notText, answer⟩ _ => by
    cases body with
    | group source roll => cases single
    | _ => exact ⟨h, tag, single, notText, answer⟩
  addRoll := @fun ⟨body, _, _⟩ ⟨h, tag, single, notText, answer⟩ _ => by
    cases body <;> exact ⟨h, tag, single, notText, answer⟩
  setResult := @fun ⟨body, _, _⟩ ⟨h, tag, single, notText, answer⟩ _ => by
    cases body <;> exact ⟨h, tag, single, notText, answer⟩
  setGroupRoll := @fun ⟨body, _, _⟩ ⟨h, tag, single, notText, answer⟩ _ => by
    cases body with
    | group source roll => cases single
    | _ => exact ⟨h, tag, single, notText, answer⟩
  setHand := @fun ⟨body, _, _⟩ ⟨h, tag, single, notText, answer⟩ _ => by
    cases body <;> exact ⟨h, tag, single, notText, answer⟩

/-- What a term carries is among its dice. -/
theorem carried_of_dice {t : Term} (h : t.dice = []) : t.carried = [] := by
  obtain ⟨body, l, carried⟩ := t
  cases body with
  | group source roll =>
    cases roll with
    | none => exact h
    | some r => exact (List.append_eq_nil_iff.1 h).1
  | call | pool | dice => exact (List.append_eq_nil_iff.1 h).1
  | number | operator | text => exact h

/-- A value that carries no dice answers alike when it is restored. -/
theorem deterministicBy_restored {t : Term} (single : t.isIntermediate = false)
    (carried : t.carried = []) : t.restored.deterministicBy read = t.deterministicBy read := by
  obtain ⟨body, l, c⟩ := t
  obtain rfl : c = [] := carried
  cases body with
  | group source roll => cases single
  | _ => rfl

end Term

namespace Roll

/-- After the evaluation of a roll without texts, values stand in the place of its terms. -/
theorem answers_evaluationBy {read : Config → Value → Except Error Bool} {formula data : Value}
    {options : Options} {p : Formula.Parsed}
    (h : Formula.parse formula data context.config = .ok p)
    (textless : ∀ t ∈ p.terms, t.isText = false) :
    (evaluationBy inner context (ofTerms p.terms options context.config)).Ends .any fun _ s _ =>
      ∀ u ∈ s.terms, ∃ t ∈ p.terms, t.Answers read u := by
  have fresh := (Formula.fresh_of_parse h).2
  have joinable := Formula.joinable_of_parse h
  refine ends_evaluationBy rfl rfl (ends_evaluateTerms (P := fun t _ u => t.Answers read u) ?_ ?_)
  · intro t ht
    cases whole : t.isIntermediate with
    | false => exact .inl ⟨rfl, rfl, (joinable t ht).tag, whole, textless t ht, fun _ => id⟩
    | true =>
      refine .inr ⟨rfl, (fresh t ht).waits, (ends_replaces (joinable t ht).tag).mono ?_⟩
      rintro n u - ⟨tag, -⟩
      exact ⟨tag, Dealing.allows_of_ok (fun _ => trivial) fun v =>
        Term.answers_of_numberFor whole⟩
  · intro k us hus
    have alternates := (Formula.alternates_of_parse h textless).of_replaces
      (hus.forall₂.imp fun _ _ ⟨_, hu⟩ => hu.replaces)
    rw [simplify_of_alternates alternates]
    have answers : ∀ u ∈ us, ∃ t ∈ p.terms, t.Answers read u := by
      intro u hu
      obtain ⟨t, ht, -, h⟩ := hus.exists_of_mem u hu
      exact ⟨t, ht, h⟩
    refine (ends_evaluateRest (P := fun _ _ w => ∃ t ∈ p.terms, t.Answers read w) ?_).mono ?_
    · intro u hu
      obtain ⟨t, ht, h⟩ := answers u hu
      cases waits : u.evaluated with
      | true => exact .inl ⟨rfl, t, ht, h⟩
      | false =>
        refine .inr ⟨rfl, ((Term.lasting_answers t).ends h).mono fun n w _ hw => ?_⟩
        exact ⟨hw.tag, t, ht, hw⟩
    · rintro n s - ⟨ws, hws, rfl⟩
      refine Dealing.allows_of_ok (fun _ => trivial) ?_
      intro w hw
      obtain ⟨total, rfl⟩ := exists_of_settle hw
      intro u hu
      obtain ⟨-, -, -, h⟩ := hws.exists_of_mem u hu
      exact h

/-! ## Rolls -/

theorem isDeterministic_of_dice_ne {r : Roll} (h : r.dice ≠ []) :
    r.isDeterministic = .ok false := by
  obtain ⟨terms, dice, shared, sheet⟩ := r
  have some : dice.isEmpty = false := by simpa using h
  simp [isDeterministic, deterministicBy, some]

/-- Without texts, a roll is deterministic if there are no dice at any level. -/
theorem isDeterministic_iff_of_textless {r : Roll} (h : r.Waiting config)
    (textless : Textless (r.terms.flatMap (Term.subterms config r.nesting))) {b : Bool}
    (hb : r.isDeterministic = .ok b) :
    b = true ↔ ∀ t ∈ r.terms.flatMap (Term.subterms config r.nesting), t.die? = none := by
  have calm {t : Term} (ht : t.isText = false) : t.calm = .ok t.die?.isNone := by
    obtain ⟨body, l, carried⟩ := t
    cases body with
    | text v => cases ht
    | _ => rfl
  have all := allHold_of_isDeterministic h hb
  constructor
  · rintro rfl t ht
    have := (calm (textless t ht)).symm.trans (allHold_eq_ok_true.1 all t ht)
    simpa using Except.ok.inj this
  · intro none
    have : allHold Term.calm (r.terms.flatMap (Term.subterms config r.nesting)) = .ok true :=
      allHold_eq_ok_true.2 fun t ht => by rw [calm (textless t ht), none t ht]; rfl
    exact Except.ok.inj (all.symm.trans this)

theorem dice_restored (r : Roll) : r.restored.dice = restoredTerms r.dice := by
  cases r
  rfl

theorem terms_restored (r : Roll) : r.restored.terms = restoredTerms r.terms := by
  cases r
  rfl

/-- A roll without dice is deterministic, as it is and as it comes back, if its terms are. -/
theorem isDeterministic_of_each {r : Roll} (none : r.dice = [])
    (each : ∀ t ∈ r.terms, t.isDeterministic = .ok true ∧ t.restored.isDeterministic = .ok true) :
    r.isDeterministic = .ok true ∧ r.restored.isDeterministic = .ok true := by
  rw [isDeterministic_of_dice none, isDeterministic_of_dice (by rw [dice_restored, none]; rfl),
    terms_restored, restoredTerms_eq_map, allHold_eq_ok_true, allHold_eq_ok_true]
  refine ⟨fun t ht => (each t ht).1, fun u hu => ?_⟩
  obtain ⟨t, ht, rfl⟩ := List.mem_map.1 hu
  exact (each t ht).2

/-- The evaluation of a roll without texts does not change whether it is deterministic. -/
theorem isDeterministic_of_finished {formula data options : Value} {r : Roll}
    (h : create formula data options context.config = .ok r)
    (textless : Textless (r.terms.flatMap (Term.subterms context.config r.nesting))) {b : Bool}
    (hb : r.isDeterministic = .ok b) {rule : StopRule} {src : Source}
    (finished : ((evaluation context r).run rule src).ending = .finished ()) :
    let s := ((evaluation context r).run rule src).state
    s.isDeterministic = .ok b ∧ s.restored.isDeterministic = .ok b := by
  intro s
  have waiting := waiting_of_create h
  have none_iff := isDeterministic_iff_of_textless waiting textless hb
  have free : src.Gives context.dealing.drawn := ⟨fun _ _ => trivial, trivial⟩
  obtain ⟨n, -, deals⟩ := ((deals_evaluation h).run rule free).2 () finished
  have dice : s.dice = [] ↔ b = true := (deals.dealt.eq_nil_iff textless).trans none_iff.symm
  cases b with
  | false =>
    have some : s.dice ≠ [] := fun none => Bool.false_ne_true (dice.1 none)
    refine ⟨isDeterministic_of_dice_ne some, isDeterministic_of_dice_ne ?_⟩
    rw [dice_restored, restoredTerms_eq_map]
    simpa using some
  | true =>
    have none : s.dice = [] := dice.2 rfl
    obtain ⟨p, hp, h⟩ := bind_eq_ok.1 h
    obtain ⟨options, -, h⟩ := bind_eq_ok.1 h
    obtain rfl := Except.ok.inj h
    have topTextless : ∀ t ∈ p.terms, t.isText = false := fun t ht =>
      textless t (List.mem_flatMap.2 ⟨t, ht, List.mem_cons_self⟩)
    obtain ⟨-, -, answers⟩ := ((@answers_evaluationBy context _ innerDeterministic formula data
      options p hp topTextless).run rule src.gives_any).2 () finished
    rw [isDeterministic_of_dice waiting.dice] at hb
    refine isDeterministic_of_each none fun u hu => ?_
    obtain ⟨t, ht, h⟩ := answers u hu
    have carried : u.carried = [] := by
      have := deals.dice.symm.trans none
      rw [diceOfTerms_eq_flatMap, List.flatMap_eq_nil_iff] at this
      exact Term.carried_of_dice (this u hu)
    have answer := h.answer carried (allHold_eq_ok_true.1 hb t ht)
    exact ⟨answer, (Term.deterministicBy_restored h.single carried).trans answer⟩

/-- **A deterministic roll draws nothing**, and is evaluated alike in every mode, unless a text
breaks off where the denomination of dice should follow. -/
theorem run_of_isDeterministic {formula data options : Value} {r : Roll}
    (h : create formula data options config = .ok r) (deterministic : r.isDeterministic = .ok true)
    (whole : ∀ t ∈ r.terms.flatMap (Term.subterms config r.nesting), t.breaksOff = false)
    (mode : Mode) (rule : StopRule) (src : Source) :
    let report := (evaluation { config, mode } r).run rule src
    report.source = src ∧ report = (evaluation { config, mode := .random } r).run rule src := by
  have calm := allHold_eq_ok_true.1
    (allHold_of_isDeterministic (waiting_of_create h) deterministic)
  exact run_of_tame h (fun t ht => ⟨calm t ht, whole t ht⟩) mode rule src

/-- A text between two numbers, which becomes a number with them. -/
theorem run_of_isDeterministic_point :
    ∃ r, create (.str "(1).(5) + 2") .null .null .default = .ok r ∧ r.isDeterministic = .ok true
      ∧ let report := (evaluation { config := .default } r).run .never ⟨[], none, 0⟩
        report.ending = .finished () ∧ report.source = ⟨[], none, 0⟩ := by
  obtain ⟨r, h, hcheck⟩ := exists_of_create_any (.str "(1).(5) + 2") .null .null .default
    (fun r => decide (r.isDeterministic.toOption = some true)
      && (r.terms.flatMap (Term.subterms .default r.nesting)).all (fun t => !t.breaksOff)
      && ((evaluation { config := .default } r).run .never ⟨[], none, 0⟩).ending.isFinished)
    (by decide +kernel)
  obtain ⟨hcheck, finished⟩ := Bool.and_eq_true_iff.1 hcheck
  obtain ⟨deterministic, whole⟩ := Bool.and_eq_true_iff.1 hcheck
  have deterministic := eq_ok_of_toOption (of_decide_eq_true deterministic)
  refine ⟨r, h, deterministic, Ending.eq_of_isFinished finished, ?_⟩
  refine (run_of_isDeterministic h deterministic (fun t ht => ?_) .random .never _).1
  simpa using List.all_eq_true.1 whole t ht

/-- A text that breaks off is only seen to be of dice once the group after it has a value. -/
theorem isDeterministic_of_head :
    ∃ r, create (.str "2d(6)") .null .null .default = .ok r ∧ r.isDeterministic = .ok true
      ∧ ((evaluation { config := .default } r).run .never ⟨[0.5, 0.5], none, 0⟩).source.used
        = 2 := by
  obtain ⟨r, h, hcheck⟩ := exists_of_create_any (.str "2d(6)") .null .null .default
    (fun r => decide (r.isDeterministic.toOption = some true)
      && decide (((evaluation { config := .default } r).run .never
        ⟨[0.5, 0.5], none, 0⟩).source.used = 2))
    (by decide +kernel)
  obtain ⟨deterministic, used⟩ := Bool.and_eq_true_iff.1 hcheck
  exact ⟨r, h, eq_ok_of_toOption (of_decide_eq_true deterministic), of_decide_eq_true used⟩

/-- **Whether a roll is deterministic does not depend on when it is asked.** Without texts and
symbols there is always an answer: whether there are no dice at any level. It is the same before and
after an evaluation, and from the record of either. A deterministic roll draws nothing and is
evaluated alike in every mode. -/
theorem isDeterministic_lasts {text : String} {data options : Value} {r : Roll}
    (h : create (.str text) data options config = .ok r) (symbols : '@' ∉ text.toList)
    (textless : Textless (r.terms.flatMap (Term.subterms config r.nesting))) :
    ∃ b, r.isDeterministic = .ok b
      ∧ (b = true ↔ ∀ t ∈ r.terms.flatMap (Term.subterms config r.nesting), t.die? = none)
      ∧ (∃ s, ofRecord config r.toRecord = .ok s ∧ s.isDeterministic = .ok b)
      ∧ ∀ (mode : Mode) (rule : StopRule) (src : Source),
        let report := (evaluation { config, mode } r).run rule src
        (report.ending = .finished () → report.state.isDeterministic = .ok b
          ∧ ∃ s, ofRecord config report.state.toRecord = .ok s ∧ s.isDeterministic = .ok b)
        ∧ (b = true → report.source = src
          ∧ report = (evaluation { config, mode := .random } r).run rule src) := by
  have waiting := waiting_of_create h
  obtain ⟨b, hb⟩ := exists_isDeterministic h symbols textless
  refine ⟨b, hb, isDeterministic_iff_of_textless waiting textless hb, ⟨r, ?_, hb⟩, ?_⟩
  · rw [ofRecord_toRecord waiting.storable, waiting.restored]
  · intro mode rule src report
    refine ⟨fun finished => ?_, ?_⟩
    · have finished : Report.ending ((evaluation { config, mode } r).run rule src) = .finished () :=
        finished
      obtain ⟨now, restored⟩ :=
        @isDeterministic_of_finished { config, mode } _ _ _ _ h textless _ hb _ _ finished
      have allowed := Steps.allows_run rule (@meets_evaluation { config, mode } _ waiting) src
      simp only [Contract.Allows, finished] at allowed
      exact ⟨now, _, ofRecord_toRecord allowed.1, restored⟩
    · rintro rfl
      have calm := allHold_eq_ok_true.1 (allHold_of_isDeterministic waiting hb)
      have tame : ∀ t ∈ r.terms.flatMap (Term.subterms config r.nesting), t.Tame :=
        fun t ht => ⟨calm t ht, Term.whole_of_textless (textless t ht)⟩
      exact run_of_tame h tame mode rule src

/-- Dice in a group, which is a number once it is evaluated. -/
theorem isDeterministic_lasts_group :
    ∃ r, create (.str "(1d6 + 2) * {1, 3}") .null .null .default = .ok r
      ∧ let s := ((evaluation { config := .default } r).run .never ⟨[0.5], none, 0⟩).state
        s.isDeterministic = .ok false
          ∧ ∃ t, ofRecord .default s.toRecord = .ok t ∧ t.isDeterministic = .ok false := by
  obtain ⟨r, h, hcheck⟩ := exists_of_create_any (.str "(1d6 + 2) * {1, 3}") .null .null .default
    (fun r => ((evaluation { config := .default } r).run .never ⟨[0.5], none, 0⟩).ending.isFinished
      && decide (Textless (r.terms.flatMap (Term.subterms .default r.nesting)))
      && (r.terms.flatMap (Term.subterms .default r.nesting)).any fun t => t.die?.isSome)
    (by decide +kernel)
  obtain ⟨hcheck, dice⟩ := Bool.and_eq_true_iff.1 hcheck
  obtain ⟨finished, textless⟩ := Bool.and_eq_true_iff.1 hcheck
  obtain ⟨b, -, none, -, after⟩ := isDeterministic_lasts h (by decide) (of_decide_eq_true textless)
  obtain ⟨t, ht, die⟩ := List.any_eq_true.1 dice
  obtain rfl : b = false := by
    rw [Bool.eq_false_iff]
    intro hb
    rw [none.1 hb t ht] at die
    cases die
  exact ⟨r, h, (after .random .never _).1 (Ending.eq_of_isFinished finished)⟩

end Roll

end DiceFormula
