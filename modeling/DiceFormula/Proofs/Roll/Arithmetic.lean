import DiceFormula.Proofs.Evaluation.Plain
import DiceFormula.Proofs.Formula.Nesting

/-!
# Plain formulas as arithmetic

A formula of digits, signs and parentheses can be rolled, and it can be read as plain arithmetic.
What can be rolled can also be read, and if no division leaves something over both come to the same:
to the same integer, or to a division by zero (`Roll.evaluation_agrees_evaluate`).

The induction is on the length of the text, since the text of a group is read and evaluated as a
formula of its own.
-/

namespace DiceFormula

open Arithmetic

variable {config : Config}

/-! ## Depth -/

/-- The texts of all groups are shorter than `n`. -/
def GroupsBelow (n : Nat) (ts : List Term) : Prop :=
  ∀ t ∈ ts, ∀ s : String, t.body = .group (.str s) none → s.length < n

theorem GroupsBelow.mono {n m : Nat} {ts : List Term} (h : GroupsBelow n ts) (hle : n ≤ m) :
    GroupsBelow m ts :=
  fun t ht s hs => Nat.lt_of_lt_of_le (h t ht s hs) hle

/-- The nesting of a roll bounds the texts of its groups. -/
theorem Roll.groupsBelow_nesting (r : Roll) : GroupsBelow r.nesting r.terms := by
  rintro t ht s hs
  obtain ⟨terms, dice, shared, sheet⟩ := r
  have le : t.nesting ≤ nestingOfTerms terms := nesting_le_nestingOfTerms ht
  obtain ⟨body, l, carried⟩ := t
  obtain rfl : body = _ := hs
  rw [Term.nesting] at le
  rw [Roll.nesting]
  omega

/-- Only groups become terms that hold texts. -/
theorem FormulaItem.eq_group_of_body {i : FormulaItem} {s : String}
    (h : (i.term config).body = .group (.str s) none) : ∃ d, i = .operand (.group s d) := by
  cases i with
  | sign _ => cases h
  | operand x =>
    cases x with
    | numeral _ => cases h
    | group s' d =>
      obtain ⟨hs, -⟩ := Body.group.inj h
      obtain rfl := Value.str.inj hs
      exact ⟨d, rfl⟩

/-! ## Rolls of plain texts -/

namespace Roll

/-- A roll of the terms comes to the value of the derivation, if it is evaluated deep enough. -/
def Evaluates (config : Config) (ts : List Term) (d : SumTree) : Prop :=
  ∀ mode r depth, r.terms = ts → r.sheet.state = .created ∧ r.sheet.replayed = false →
    GroupsBelow depth ts → ComesTo d.expr.trunc? (evaluationWithin (depth + 1) { config, mode } r)

/-- **A plain text that is read as a formula** has a derivation, and where its divisions are exact
the formula comes to the value of the derivation. -/
theorem exists_evaluates (length : Nat) :
    ∀ {s : String} {fuel : Nat} {ts : List Term}, s.length < length → IsPlain s.toList →
      Formula.readTerms config fuel s = .ok ts →
      ∃ d : SumTree, d.tokens = lex s.toList ∧ GroupsBelow s.length ts
        ∧ (d.expr.Divides → Evaluates config ts d) := by
  induction length with
  | zero =>
    intro s fuel ts hlength
    exact absurd hlength (Nat.not_lt_zero _)
  | succ length ih =>
    intro s fuel ts hlength plain h
    cases fuel with
    | zero => cases h
    | succ fuel =>
      -- the induction hypothesis as it is needed of the text of a group
      have inner : ∀ s' : String, IsPlain s'.toList → s'.length < s.length →
          (∃ us, Formula.readTerms config fuel s' = .ok us) →
          ∃ d : SumTree, d.tokens = lex s'.toList ∧ s'.length < s.length
            ∧ (d.expr.Divides → ∀ mode depth, s'.length < depth →
              Runs (evaluationWithin depth) { config, mode } s' d) := by
        rintro s' plain' shorter ⟨us, hus⟩
        obtain ⟨d, hd, below, evaluates⟩ := ih (by omega) plain' hus
        refine ⟨d, hd, shorter, ?_⟩
        intro hdiv mode depth hdepth
        obtain ⟨depth, rfl⟩ := Nat.exists_eq_add_one.2 (Nat.zero_lt_of_lt hdepth)
        have read := Formula.readTerms_of_fuel plain' (Nat.lt_succ_self _) hus
        refine ⟨ofTerms us [] config, ?_,
          evaluates hdiv mode _ depth rfl ⟨rfl, rfl⟩ (below.mono (by omega))⟩
        rw [ofFormula, Formula.parse_of_isPlain .null plain', read]
        rfl
      obtain ⟨is, x, l, opens, rfl, tokens, hok⟩ := Formula.exists_items plain inner h
      obtain ⟨d, hd⟩ := opens.exists_tokens
      have hok := opens.ok hok
      refine ⟨d, hd.trans tokens, ?_, ?_⟩
      · intro t ht s' hs'
        obtain ⟨i, hi, rfl⟩ := List.mem_map.1 ht
        obtain ⟨d', rfl⟩ := FormulaItem.eq_group_of_body hs'
        exact (hok _ hi).1
      · intro hdiv mode r depth hr waiting below
        refine comesTo_evaluationBy opens hd hdiv hr ?_ waiting
        intro i hi
        match i with
        | .sign _ => exact trivial
        | .operand (.numeral _) => exact hok _ hi
        | .operand (.group s' d') =>
          exact (hok _ hi).2 (opens.divides hd hdiv _ hi) mode depth
            (below _ (List.mem_map_of_mem hi) s' rfl)

/-! ## Agreement -/

/-- A roll and plain arithmetic came to the same: to the same integer, or to a division by zero. -/
def AgreesWith (report : Report Roll Unit) (x : Except Error Number) : Prop :=
  (∃ n, x = .ok (.int n) ∧ report.ending = .finished () ∧ report.state.total = .int n)
    ∨ ∃ e e', x = .error e ∧ e.IsDivideByZero ∧ report.ending = .failed e' ∧ e'.IsDivideByZero

/-- **Rolling a plain formula is arithmetic.** A formula of digits, spaces, parentheses and signs
from which a roll can be made is read as an expression too. If its divisions are exact the roll
draws nothing, and comes to what the expression is worth. -/
theorem evaluation_agrees_evaluate {formula : String} {data options : Value} {r : Roll}
    (plain : ∀ c ∈ formula.toList, IsPlainChar c)
    (h : create (.str formula) data options config = .ok r) :
    ∃ e, read? formula = some e
      ∧ (e.Exact → ∀ (mode : Mode) (src : Source),
          let report := (evaluation { config, mode } r).run .never src
          report.source = src ∧ AgreesWith report (Arithmetic.evaluate formula)) := by
  obtain ⟨p, hp, hr⟩ := bind_eq_ok.1 h
  obtain ⟨opts, -, hr⟩ := bind_eq_ok.1 hr
  obtain rfl := Except.ok.inj hr
  obtain ⟨fuel, hts⟩ := Formula.readTerms_of_parse plain hp
  obtain ⟨d, tokens, -, evaluates⟩ := exists_evaluates _ (Nat.lt_succ_self _) plain hts
  obtain ⟨read, whole, yields⟩ := yields_evaluate plain tokens
  refine ⟨d.expr, read, ?_⟩
  intro hexact mode src
  have divides := Expr.divides_of_exact whole hexact
  have yields := yields divides
  have below : GroupsBelow (ofTerms p.terms opts config).nesting p.terms :=
    groupsBelow_nesting (ofTerms p.terms opts config)
  have comes := evaluates divides mode (ofTerms p.terms opts config) _ rfl ⟨rfl, rfl⟩ below
  obtain ⟨source, ending⟩ := comes.run src
  refine ⟨source, ?_⟩
  rcases ending with ⟨_, finished, n, hn, total⟩ | ⟨e, failed, hnone, he⟩
  · rw [hn] at yields
    exact .inl ⟨n, yields, finished, total⟩
  · rw [hnone] at yields
    obtain ⟨a, op, b, yields⟩ := yields
    exact .inr ⟨_, e, yields, ⟨a, op, b, rfl⟩, failed, he⟩

/-- A sign in front of a division that is exact. -/
theorem evaluation_agrees_evaluate_signed :
    ∃ r, create (.str "-(7-1)/3 % 4 + 5*2") .null .null .diceOnly = .ok r
      ∧ AgreesWith ((evaluation { config := .diceOnly } r).run .never ⟨[], none, 0⟩)
          (Arithmetic.evaluate "-(7-1)/3 % 4 + 5*2") := by
  obtain ⟨r, h, -⟩ := exists_of_create_any (.str "-(7-1)/3 % 4 + 5*2") .null .null .diceOnly
    (fun _ => true) (by decide +kernel)
  have plain : IsPlain "-(7-1)/3 % 4 + 5*2".toList := by decide +kernel
  obtain ⟨e, read, agrees⟩ := evaluation_agrees_evaluate plain h
  have : read? "-(7-1)/3 % 4 + 5*2" = some (.binary .add
      (.binary .rem (.binary .div (.negate (.binary .sub (.number ['7']) (.number ['1'])))
        (.number ['3'])) (.number ['4']))
      (.binary .mul (.number ['5']) (.number ['2']))) := by
    decide +kernel
  rw [read] at this
  obtain rfl := Option.some.inj this
  refine ⟨r, h, (agrees ?_ .random _).2⟩
  refine ⟨⟨⟨⟨trivial, trivial, nofun⟩, trivial, fun _ a b ha hb _ => ?_⟩, trivial, nofun⟩,
    ⟨trivial, trivial, nofun⟩, nofun⟩
  obtain rfl : -6 = a := Number.int.inj (Except.ok.inj ha)
  obtain rfl : 3 = b := Number.int.inj (Except.ok.inj hb)
  decide

end Roll

end DiceFormula
