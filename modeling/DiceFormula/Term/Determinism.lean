import DiceFormula.Formula.Grammar

/-!
# Deterministic terms and rolls

A term is deterministic if its evaluation cannot roll dice. Groups, calls and pools are asked by
reading their formulas; a term that carries dice is not deterministic, and neither is a roll that
counts dice as its own.
-/

namespace DiceFormula

/-- Whether a test holds of all items; it stops at the first that fails. -/
def allHold {α : Type} (test : α → Except Error Bool) : List α → Except Error Bool
  | [] => .ok true
  | a :: as => do if ← test a then allHold test as else return false

/-- Whether a text would be deterministic if it were a term by itself. Only texts can be asked. -/
def leafDeterministic (text : Value) (config : Config) : Except Error Bool :=
  match text with
  | .str s => do
    let t ← Leaf.classify s config false
    return match t.body with
      | .dice _ => false
      | _ => true
  | _ => .error .wrongType

mutual

/-- Whether a term is deterministic; `read` answers for a formula. -/
def Term.deterministicBy (read : Config → Value → Except Error Bool) : Term → Except Error Bool
  | ⟨.text s, l, _⟩ => leafDeterministic s l.config
  | ⟨.group _ (some r), _, _⟩ => Roll.deterministicBy read r
  | ⟨.group source none, l, _⟩ => read l.config source
  | ⟨.call _ args _ _, l, _⟩ => allHold (fun a => read l.config (.str a)) args
  | ⟨.pool args _ _, l, _⟩ => allHold (fun a => read l.config (.str a)) args
  | ⟨.dice _, _, _⟩ => .ok false
  | ⟨_, _, carried⟩ => .ok carried.isEmpty

/-- Whether a roll is deterministic. -/
def Roll.deterministicBy (read : Config → Value → Except Error Bool) : Roll → Except Error Bool
  | ⟨terms, dice, _, _⟩ => if dice.isEmpty then termsDeterministicBy read terms else .ok false

/-- Whether all terms are deterministic; the first that is not settles it. -/
def termsDeterministicBy (read : Config → Value → Except Error Bool) : List Term → Except Error Bool
  | [] => .ok true
  | t :: ts => do if ← t.deterministicBy read then termsDeterministicBy read ts else return false

end

/-- Whether a formula is deterministic. The formulas inside a formula are shorter than it; `fuel`
bounds the length. -/
def formulaDeterministic : Nat → Config → Value → Except Error Bool
  | 0, _, _ => .ok true
  | fuel + 1, config, formula => do
    let p ← Formula.parse formula .null config
    termsDeterministicBy (formulaDeterministic fuel) p.terms

/-- The length of a formula, which bounds how deep others are nested in it. -/
def formulaDepth (formula : Value) : Nat :=
  match formula with
  | .str s => s.length + 1
  | _ => 1

/-- Whether a formula inside a term is deterministic. -/
def innerDeterministic (config : Config) (formula : Value) : Except Error Bool :=
  formulaDeterministic (formulaDepth formula) config formula

/-- Whether a term is deterministic. -/
def Term.isDeterministic (t : Term) : Except Error Bool := t.deterministicBy innerDeterministic

/-- Whether a roll is deterministic. -/
def Roll.isDeterministic (r : Roll) : Except Error Bool := r.deterministicBy innerDeterministic

end DiceFormula
