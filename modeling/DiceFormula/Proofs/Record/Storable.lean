import DiceFormula.Evaluation.Roll
import DiceFormula.Proofs.Number.Defined

/-!
# What a record holds

Not every term can be restored from its record: a record may hold any data, and it does not show the
dice that a term carries, nor the rolls of a group. `Term.Storable` and `Roll.Storable` describe the
terms and rolls that come from formulas, before and after their evaluation, and `restored` is how
they come back. What is `Fresh` comes back as it was (`Term.Fresh.restored`), and the dice of what
is storable are storable (`Term.storable_dice`).
-/

namespace DiceFormula

/-- The data are a text. -/
def Value.IsText (v : Value) : Prop := ∃ s, v = .str s

/-- None of the texts has white space at its ends. -/
def Trimmed (ss : List String) : Prop := ∀ s ∈ ss, Blank.trimString s = s

/-- Records call the class by a name that the engine knows. -/
def Config.Knows (config : Config) : TermClass → Prop
  | .dice k => config.kinds.any (·.2 == .dice k) = true
  | _ => True

namespace Hand

/-- All modifiers are texts. -/
def IsWritten (h : Hand) : Prop := ∀ m ∈ h.modifiers, m.IsText

end Hand

namespace Dice

/-- Dice of a kind that the engine knows, with an integer number and no more than one choice of
faces. -/
structure Storable (config : Config) (d : Dice) : Prop where
  known : config.Knows (.dice d.kind)
  number : ∃ n, d.number = .int n
  faces : d.kind.facesOf d.faces = d.faces ∧ d.faces.recorded = d.faces
  hand : d.hand.IsWritten

end Dice

/-- A label whose flavor is a text. -/
structure Label.Storable (config : Config) (l : Label) : Prop where
  config : l.config = config
  tag : l.tag = none
  mark : ∃ b, l.mark = .bool b
  flavor : l.options.flavor.IsText

/-- The sheet of a roll that was evaluated or waits for it, and whose formula says something. -/
structure Sheet.Storable (config : Config) (s : Sheet) : Prop where
  config : s.config = config
  tag : s.tag = none
  formula : ∃ text, s.formula = .str text ∧ text ≠ ""
  state : s.state = .evaluated ∨ s.state = .created ∧ s.total = .null ∧ s.replayed = false

mutual

/-- A term as formulas make it, and as evaluation leaves it in an evaluated roll. -/
def Term.Storable (config : Config) : Term → Prop
  | ⟨body, l, carried⟩ =>
    l.Storable config ∧ Body.Storable config l.mark body ∧ termsStorable config carried

/-- The content of such a term. Groups and calls have not been evaluated. -/
def Body.Storable (config : Config) (mark : Value) : Body → Prop
  | .number n => n.IsDefined
  | .operator _ => True
  | .text v => v.IsText
  | .group source roll => source.IsText ∧ roll = none
  | .call fn args rolls result => fn.IsText ∧ Trimmed args ∧ rolls = [] ∧ result = .null
  | .pool args rolls hand => Trimmed args ∧ hand.IsWritten ∧ rollsStorable config rolls
  | .dice d => d.Storable config ∧ (mark.truthy = true ∨ d.hand.results = [])

/-- A roll of such terms. An evaluated one counts all dice of its terms. -/
def Roll.Storable (config : Config) : Roll → Prop
  | ⟨terms, dice, _, sheet⟩ =>
    sheet.Storable config ∧ termsStorable config terms ∧ termsStorable config dice
      ∧ dice = if sheet.state.isEvaluated then diceOfTerms terms else []

/-- All rolls of a list are such rolls. -/
def rollsStorable (config : Config) : List Roll → Prop
  | [] => True
  | r :: rs => r.Storable config ∧ rollsStorable config rs

/-- All terms of a list are such terms. -/
def termsStorable (config : Config) : List Term → Prop
  | [] => True
  | t :: ts => t.Storable config ∧ termsStorable config ts

end

mutual

/-- A term as it comes back from its record: without the dice it carried. -/
def Term.restored : Term → Term
  | ⟨body, l, _⟩ => ⟨Body.restored body, l, []⟩

/-- A content as it comes back. -/
def Body.restored : Body → Body
  | .pool args rolls hand => .pool args (restoredRolls rolls) hand
  | body => body

/-- A roll as it comes back: an evaluated one is final. -/
def Roll.restored : Roll → Roll
  | ⟨terms, dice, _, sheet⟩ =>
    ⟨restoredTerms terms, restoredTerms dice, [],
      { sheet with replayed := sheet.state.isEvaluated }⟩

/-- Some rolls as they come back. -/
def restoredRolls : List Roll → List Roll
  | [] => []
  | r :: rs => r.restored :: restoredRolls rs

/-- Some terms as they come back. -/
def restoredTerms : List Term → List Term
  | [] => []
  | t :: ts => t.restored :: restoredTerms ts

end

section

variable {config : Config}

/-- A label stays as storable as it was when its term is marked as evaluated. -/
theorem Label.Storable.marked {l : Label} (h : l.Storable config) :
    Label.Storable config { l with mark := .bool true } :=
  ⟨h.config, h.tag, ⟨true, rfl⟩, h.flavor⟩

theorem Term.Storable.label : ∀ {t : Term}, t.Storable config → t.label.Storable config
  | ⟨_, _, _⟩, h => h.1

theorem Term.Storable.carried : ∀ {t : Term}, t.Storable config → termsStorable config t.carried
  | ⟨_, _, _⟩, h => h.2.2

theorem termsStorable_iff {ts : List Term} :
    termsStorable config ts ↔ ∀ t ∈ ts, t.Storable config := by
  induction ts with
  | nil => simp [termsStorable]
  | cons t ts ih => simp [termsStorable, ih]

theorem rollsStorable_iff {rs : List Roll} :
    rollsStorable config rs ↔ ∀ r ∈ rs, r.Storable config := by
  induction rs with
  | nil => simp [rollsStorable]
  | cons r rs ih => simp [rollsStorable, ih]

theorem restoredTerms_eq_map (ts : List Term) : restoredTerms ts = ts.map Term.restored := by
  induction ts with
  | nil => rfl
  | cons t ts ih => simp [restoredTerms, ih]

theorem termsStorable_append {ts us : List Term} :
    termsStorable config (ts ++ us) ↔ termsStorable config ts ∧ termsStorable config us := by
  simp only [termsStorable_iff, List.forall_mem_append]

/-! ## Dice of storable terms -/

mutual

/-- The dice that a storable term brings along are storable. -/
theorem Term.storable_dice : ∀ t : Term, t.Storable config → termsStorable config t.dice
  | ⟨.dice d, l, carried⟩, h => by
    rw [Term.dice, termsStorable_append]
    exact ⟨h.2.2, h, trivial⟩
  | ⟨.pool args rolls hand, l, carried⟩, h =>
    termsStorable_append.2 ⟨h.2.2, storable_diceOfRolls rolls h.2.1.2.2⟩
  | ⟨.call fn args rolls result, l, carried⟩, h => by
    obtain ⟨-, ⟨-, -, rfl, -⟩, hc⟩ := h
    exact termsStorable_append.2 ⟨hc, trivial⟩
  | ⟨.group source (some r), l, carried⟩, h => nomatch h.2.1.2
  | ⟨.group source none, l, carried⟩, h => h.2.2
  | ⟨.number _, l, carried⟩, h => h.2.2
  | ⟨.operator _, l, carried⟩, h => h.2.2
  | ⟨.text _, l, carried⟩, h => h.2.2

theorem Roll.storable_allDice : ∀ r : Roll, r.Storable config → termsStorable config r.allDice
  | ⟨terms, dice, _, sheet⟩, h => by
    rw [Roll.allDice]
    by_cases evaluated : sheet.state.isEvaluated = true
    · rw [if_pos evaluated]
      exact h.2.2.1
    · rw [if_neg evaluated]
      exact storable_diceOfTerms terms h.2.1

theorem storable_diceOfRolls :
    ∀ rs : List Roll, rollsStorable config rs → termsStorable config (diceOfRolls rs)
  | [], _ => trivial
  | r :: rs, h =>
    termsStorable_append.2 ⟨Roll.storable_allDice r h.1, storable_diceOfRolls rs h.2⟩

theorem storable_diceOfTerms :
    ∀ ts : List Term, termsStorable config ts → termsStorable config (diceOfTerms ts)
  | [], _ => trivial
  | t :: ts, h =>
    termsStorable_append.2 ⟨Term.storable_dice t h.1, storable_diceOfTerms ts h.2⟩

end

namespace Term

/-- A term as the parser makes it. -/
structure Fresh (config : Config) (t : Term) : Prop where
  storable : t.Storable config
  carried : t.carried = []
  rolls : t.rolls = []
  mark : t.label.mark = .bool false
  written : t.written ≠ ""

/-- What is fresh waits for its evaluation. -/
theorem Fresh.waits {t : Term} (h : t.Fresh config) : t.evaluated = false := by
  rw [evaluated, h.mark]
  rfl

/-- What is fresh comes back as it was. -/
theorem Fresh.restored {t : Term} (h : t.Fresh config) : t.restored = t := by
  obtain ⟨-, hc, hr, -, -⟩ := h
  obtain ⟨body, l, carried⟩ := t
  obtain rfl : carried = [] := hc
  cases body with
  | pool args rolls hand =>
    obtain rfl : rolls = [] := hr
    rfl
  | _ => rfl

end Term

theorem restoredTerms_of_fresh {ts : List Term} (h : ∀ t ∈ ts, t.Fresh config) :
    restoredTerms ts = ts := by
  rw [restoredTerms_eq_map, List.map_congr_left fun t ht => (h t ht).restored]
  exact List.map_id _

end

end DiceFormula
