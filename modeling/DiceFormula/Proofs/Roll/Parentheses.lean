import DiceFormula.Proofs.Formula.Enclosed
import DiceFormula.Proofs.Number.Unpacked
import DiceFormula.Proofs.Roll.Depth
import DiceFormula.Proofs.Roll.Dice
import DiceFormula.Proofs.Roll.Settling

/-!
# Parentheses around a formula

A formula in parentheses rolls as it does without them (`Roll.evaluation_parenthesized`). The group
is evaluated like the formula itself, becomes a number that carries its dice, and the roll is worth
what the digits of this number say.
-/

namespace DiceFormula

variable {config : Config} {context : Context}

theorem Value.eq_int {v : Value} {n : Int} (h : v.int? = some n) : v = .int n := by
  unfold Value.int? at h
  split at h
  · rw [Option.some.inj h]
    rfl
  · cases h

/-- A number that is an integer in value is defined. -/
theorem Number.isDefined_of_whole? {x : Number} {n : Int} (h : x.whole? = some n) :
    x.IsDefined := by
  cases x with
  | int m => trivial
  | float x =>
    obtain ⟨d, hd, -, -⟩ := Number.exists_of_whole? h
    rw [Dyadic.ofFloat?_eq_ofUnpacked?] at hd
    show x.toModel.unpack.isNaN = false
    cases hx : x.toModel.unpack with
    | notANumber =>
      rw [hx] at hd
      cases hd
    | _ => rfl

namespace Roll

/-! ## Rolls of formulas without symbols -/

/-- A formula that can be read makes a roll. -/
theorem create_of_reads {f : String} {data : Value}
    (plain : Symbols.substitute (Symbols.tableOf data) f = .ok f) {ts : List Term}
    (h : Formula.Reads config f ts) {options : Value} {opts : Options}
    (ho : Options.ofValue options = .ok opts) :
    create (.str f) data options config = .ok (ofTerms ts opts config) := by
  have read := Formula.parseTerms_eq_ok.2 (Formula.reads_normalize.2 h)
  have parsed : Formula.parse (.str f) data config = .ok ⟨Formula.normalize f, ts⟩ := by
    rw [Formula.parse, plain, bind_ok]
    dsimp only
    rw [read]
    rfl
  rw [create, parsed, bind_ok, ho]
  rfl

section

variable {f : String} (symbols : '@' ∉ f.toList)

include symbols

theorem reads_of_create {data options : Value} {r : Roll}
    (h : create (.str f) data options config = .ok r) :
    ∃ opts, Options.ofValue options = .ok opts ∧ Formula.Reads config f r.terms
      ∧ r = ofTerms r.terms opts config := by
  obtain ⟨p, hp, h⟩ := bind_eq_ok.1 h
  obtain ⟨opts, ho, h⟩ := bind_eq_ok.1 h
  obtain rfl := Except.ok.inj h
  exact ⟨opts, ho, ((Formula.parse_eq_ok symbols).1 hp).2, rfl⟩

/-- A formula inside a term is rolled like one that stands by itself. -/
theorem rollBy_of_reads {ts : List Term} (h : Formula.Reads context.config f ts) :
    Formula.rollBy evaluation context f
      = (fun p => (ofTerms ts [] context.config).finished p.1 p.2) <$> settlement context ts := by
  have made : create (.str f) .null .null context.config = .ok (ofTerms ts [] context.config) :=
    create_of_reads (Symbols.substitute_of_not_mem (Symbols.tableOf .null) symbols) h rfl
  have same : ofFormula (.str f) context.config = .ok (ofTerms ts [] context.config) := made
  rw [Formula.rollBy, same]
  simp only [Drawing.ofExcept_ok, pure_bind, result_evaluation made, bind_map_left]
  rfl

theorem rollBy_normalize {ts : List Term} (h : Formula.Reads context.config f ts) :
    Formula.rollBy evaluation context (Formula.normalize f)
      = (fun p => (ofTerms ts [] context.config).finished p.1 p.2) <$> settlement context ts := by
  refine rollBy_of_reads ?_ (Formula.reads_normalize.2 h)
  exact fun hm => (Formula.mem_of_mem_normalize hm).elim symbols (by decide)

end

/-! ## Groups -/

/-- The number that a group comes to. It carries the dice that were rolled for it. -/
def groupNumber (config : Config) (n : Number) (dice : List Term) : Term :=
  { Term.make (.number n) [] config with carried := dice }.setMark (.bool true)

theorem dice_groupNumber (config : Config) (n : Number) (dice : List Term) :
    diceOfTerms [groupNumber config n dice] = dice := by
  rw [diceOfTerms, diceOfTerms, List.append_nil]
  rfl

/-- The first pass settles on a number for a group. -/
theorem numbered_parenthesized {f : String} (symbols : '@' ∉ f.toList) {ts : List Term}
    (h : Formula.Reads context.config f ts) :
    numbered evaluation context context.config (Formula.parenthesized context.config f)
      = do
        let p ← settlement context ts
        let n ← .ofExcept (definedNumber (.num p.2))
        return groupNumber context.config n (diceOfTerms p.1) := by
  have waits : ({ config := context.config : Label }).mark.truthy = false := rfl
  show ((Term.evaluationBy evaluation context (Formula.parenthesized context.config f)).result
    >>= fun p => Drawing.ofExcept (numberFor p.1 context.config)) = _
  rw [Formula.parenthesized, Term.make, Term.result_group waits, rollBy_normalize symbols h]
  simp only [bind_map_left]
  refine bind_congr fun p => ?_
  show Drawing.ofExcept (do
    let n ← definedNumber (.num p.2)
    return groupNumber context.config n (diceOfTerms p.1)) = _
  cases definedNumber (.num p.2) <;> rfl

theorem amount_of_whole? {t : Term} {x : Number} {n : Int} (ht : t.total = .ok (.num x))
    (hx : x.whole? = some n) : amount [t] = .ok (.int n) := by
  have worth : t.worth? = some n := by
    rw [Term.worth?, ht]
    exact hx
  obtain ⟨text, flat, htext⟩ := flatten_of_reads (.value worth)
  have exact : Arithmetic.exactly n [] = .ok n := congrArg Except.ok (Int.zero_add n)
  have gives := Arithmetic.gives_flatText htext
  rw [exact] at gives
  rw [amount, flat, bind_ok]
  exact gives

/-- What a formula in parentheses settles on. -/
theorem settlement_parenthesized {f : String} (symbols : '@' ∉ f.toList) {ts : List Term}
    (h : Formula.Reads context.config f ts) :
    settlement context [Formula.parenthesized context.config f]
      = do
        let p ← settlement context ts
        let n ← .ofExcept (definedNumber (.num p.2))
        let t := groupNumber context.config n (diceOfTerms p.1)
        let m ← .ofExcept (amount [t])
        return ([t], m) := by
  rw [settlement, List.mapM_cons, numbered_parenthesized symbols h]
  simp only [List.mapM_nil, bind_assoc, pure_bind]
  rfl

/-! ## Parentheses -/

/-- The record of a roll lists its dice. -/
theorem get_dice_toRecord (r : Roll) :
    r.toRecord.get "dice" = .list (r.dice.map Term.toRecord) := by
  obtain ⟨es, record, dice⟩ := exists_lookup_dice r
  rw [record]
  exact congrArg (·.getD .null) dice

/-- **Parentheses are transparent.** A formula that makes a roll makes one in parentheses, too.
Whatever is drawn, if the formula comes to an integer so do the parentheses, with the same dice and
after the same draws; if it fails they fail alike. -/
theorem evaluation_parenthesized {f : String} (symbols : '@' ∉ f.toList) {data options : Value}
    {r : Roll} (h : create (.str f) data options config = .ok r) :
    ∃ q, create (.str ("(" ++ f ++ ")")) data options config = .ok q
      ∧ ∀ (mode : Mode) (src : Source),
        let plain := (evaluation { config, mode } r).run .never src
        let grouped := (evaluation { config, mode } q).run .never src
        (plain.ending = .finished () →
          ∀ x n, plain.state.total = .num x → x.whole? = some n →
            grouped.ending = .finished () ∧ grouped.state.total = .int n
              ∧ grouped.source = plain.source
              ∧ grouped.state.toRecord.get "dice" = plain.state.toRecord.get "dice")
        ∧ ∀ e, plain.ending = .failed e →
            grouped.ending = .failed e ∧ grouped.source = plain.source := by
  obtain ⟨opts, ho, reads, hr⟩ := reads_of_create symbols h
  have symbols' : '@' ∉ ("(" ++ f ++ ")").toList := by simpa using symbols
  have hq := create_of_reads (Symbols.substitute_of_not_mem (Symbols.tableOf data) symbols')
    (Formula.reads_group reads) ho
  refine ⟨_, hq, ?_⟩
  intro mode src plain grouped
  -- the configuration is that of the context in which both are evaluated
  have reads : Formula.Reads (Context.mk config mode).config f r.terms := reads
  have h : create _ _ _ (Context.mk config mode).config = _ := h
  have hq : create _ _ _ (Context.mk config mode).config = _ := hq
  have same := settlement_parenthesized symbols reads
  constructor
  · intro finished x n total whole
    obtain ⟨vs, y, settled, state⟩ := settlement_of_finished h finished
    obtain rfl : y = x := by
      rw [state] at total
      exact Value.num.inj total
    have number : definedNumber (.num y) = .ok y :=
      definedNumber_num (Number.isDefined_of_whole? whole)
    have worth : amount [groupNumber config y (diceOfTerms vs)] = .ok (.int n) :=
      amount_of_whole? rfl whole
    have settled : settlement { config, mode } [Formula.parenthesized config f] src
        = (.ok ([groupNumber config y (diceOfTerms vs)], .int n), plain.source) := by
      refine (congrFun same src).trans ((Drawing.bind_of_ok settled _).trans ?_)
      simp only [number, Drawing.ofExcept_ok, pure_bind, worth]
      rfl
    obtain ⟨ending, reached, source⟩ := finished_of_settlement hq settled
    refine ⟨ending, ?_, source, ?_⟩
    · rw [reached]
      rfl
    · have dice : grouped.state.dice = plain.state.dice := by
        rw [state, reached]
        exact dice_groupNumber ..
      rw [get_dice_toRecord, get_dice_toRecord, dice]
  · intro e failed
    have settled := settlement_of_failed h failed
    refine failed_of_settlement hq ?_
    exact (congrFun same src).trans (Drawing.bind_of_error settled _)

/-- Brackets in flavors close no group. The draws are enough first, and then they are not. -/
theorem evaluation_parenthesized_flavored :
    ∃ r q, create (.str "{1d4[)], (1d4)d6[a(b] - 1} * 2[\x7d]") .null .null .diceOnly = .ok r
      ∧ create (.str "({1d4[)], (1d4)d6[a(b] - 1} * 2[\x7d])") .null .null .diceOnly = .ok q
      ∧ (let src : Source := { pending := [0.25, 0.5, 0.75, 0.5], fill := none }
        let plain := (evaluation { config := .diceOnly } r).run .never src
        let grouped := (evaluation { config := .diceOnly } q).run .never src
        grouped.ending = .finished () ∧ grouped.state.total = .int 16
          ∧ grouped.source = plain.source
          ∧ grouped.state.toRecord.get "dice" = plain.state.toRecord.get "dice")
      ∧ let src : Source := { pending := [0.25, 0.5, 0.75], fill := none }
        ∃ e, ((evaluation { config := .diceOnly } q).run .never src).ending = .failed e := by
  let report (r : Roll) (draws : List Float) :=
    (evaluation { config := .diceOnly } r).run .never { pending := draws, fill := none }
  obtain ⟨r, h, hcheck⟩ := exists_of_create_any
    (.str "{1d4[)], (1d4)d6[a(b] - 1} * 2[\x7d]") .null .null .diceOnly
    (fun r => (report r [0.25, 0.5, 0.75, 0.5]).ending.isFinished
      && (report r [0.25, 0.5, 0.75, 0.5]).state.total.int? == some 16
      && !(report r [0.25, 0.5, 0.75]).ending.isFinished)
    (by decide +kernel)
  obtain ⟨hcheck, unfinished⟩ := Bool.and_eq_true_iff.1 hcheck
  obtain ⟨finished, total⟩ := Bool.and_eq_true_iff.1 hcheck
  obtain ⟨q, hq, same⟩ := evaluation_parenthesized (by decide +kernel) h
  refine ⟨r, q, h, hq, ?_, ?_⟩
  · exact (same .random _).1 (Ending.eq_of_isFinished finished) _ _
      (Value.eq_int (eq_of_beq total)) rfl
  · have ended := Steps.finished_or_failed (evaluation { config := .diceOnly } r)
      { pending := [0.25, 0.5, 0.75], fill := none }
    obtain ⟨e, failed⟩ := ended.resolve_left fun finished => by
      rw [show (report r [0.25, 0.5, 0.75]).ending = _ from finished] at unfinished
      cases unfinished
    exact ⟨e, ((same .random _).2 e failed).1⟩

end Roll

end DiceFormula
