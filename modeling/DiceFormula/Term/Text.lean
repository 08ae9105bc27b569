import DiceFormula.Term.Basic

/-!
# Terms as formula text

`Term.written` is what a term says in a formula, `Term.formulaText` adds its flavor, and the formula
of a roll is that of its terms one after the other. Terms of records may hold data that have no
place in a text: `Term.isWritable` tells, and `Term.expression` and `Term.formula` refuse them. A
list in the place of a text takes the flavor in, and keeps it: `Term.asked` is how a term stands
after its formula was asked for. `Term.total` is what a term is worth so far.
-/

namespace DiceFormula

/-- A value that fills the gap of a template, as text. -/
def Value.filled (v : Value) : String := (v.filling?.getD v).text

/-- Whether a value can fill the gap of a template. -/
def Value.fits (v : Value) : Bool := v.filling?.isSome

/-- The letter or the number of faces that names a kind of dice. -/
def Dice.denomination (d : Dice) : String :=
  match d.kind with
  | .die => d.faces.text
  | .coin => "c"
  | .fate => "f"

/-- The modifiers in a formula. -/
def Hand.written (h : Hand) : String := String.join (h.modifiers.map Value.text)

/-- Whether all modifiers are texts. -/
def Hand.isWritable (h : Hand) : Bool := h.modifiers.all fun m => m.str?.isSome

/-- Dice in a formula. -/
def Dice.written (d : Dice) : String := d.number.text ++ "d" ++ d.denomination ++ d.hand.written

namespace Term

/-! ## What a term says -/

/-- What a term says in a formula. -/
def written (t : Term) : String :=
  match t.body with
  | .number n => n.formulaText
  | .operator s => " " ++ s.char.toString ++ " "
  | .text v => v.text
  | .group source _ => "(" ++ source.filled ++ ")"
  | .call fn args _ _ => fn.text ++ "(" ++ ",".intercalate args ++ ")"
  | .pool args _ hand => "\x7b" ++ ",".intercalate args ++ "\x7d" ++ hand.written
  | .dice d => d.written

/-- Whether the content of a term can stand in a formula. -/
def contentFits (t : Term) : Bool :=
  match t.body with
  | .number _ | .operator _ | .call _ _ _ _ => true
  | .text v => v.str?.isSome
  | .group source _ => source.fits
  | .pool _ _ hand => hand.isWritable
  | .dice d => d.hand.isWritable

/-- What a term says in a formula, as data: a text that is not classified is itself. -/
def expression (t : Term) : Except Error Value :=
  match t.body with
  | .text v => .ok v
  | _ => if t.contentFits then .ok (.str t.written) else .error .wrongType

/-- A flavor in a formula: nothing if there is none. -/
def flavorText (flavor : Value) : String :=
  if flavor.truthy then "[" ++ flavor.filled ++ "]" else ""

/-- A term with its flavor. -/
def formulaText (t : Term) : String := t.written ++ flavorText t.flavor

/-- Whether a term can stand in a formula. -/
def isWritable (t : Term) : Bool := t.contentFits && (!t.flavor.truthy || t.flavor.fits)

/-- A term with a flavor, as data. -/
def flavoredFormula (t : Term) : Except Error Value :=
  match t.body with
  | .text (.list vs) =>
    if t.flavor.fits then .ok (.list (vs ++ Value.charactersOf (flavorText t.flavor)))
    else .error .wrongType
  | _ => if t.isWritable then .ok (.str t.formulaText) else .error .wrongType

/-- A term with its flavor, as data. -/
def formula (t : Term) : Except Error Value :=
  if t.flavor.truthy then t.flavoredFormula else t.expression

/-- A term after its formula was asked for. -/
def asked (t : Term) : Term :=
  match t.body, t.formula with
  | .text (.list _), .ok v => { t with body := .text v }
  | _, _ => t

theorem flavoredFormula_of_isWritable (t : Term) (h : t.isWritable) :
    t.flavoredFormula = .ok (.str t.formulaText) := by
  unfold flavoredFormula
  split
  · next e => simp [isWritable, contentFits, e, Value.str?] at h
  · simp [h]

theorem formula_of_isWritable (t : Term) (h : t.isWritable) :
    t.formula = .ok (.str t.formulaText) := by
  by_cases hf : t.flavor.truthy
  · simp [formula, hf, flavoredFormula_of_isWritable t h]
  · have hc : t.contentFits := (Bool.and_eq_true_iff.1 h).1
    obtain ⟨body, l, carried⟩ := t
    cases body with
    | text v =>
      cases v <;> simp_all [formula, expression, contentFits, formulaText, written, flavorText,
        Value.str?, Value.text]
    | _ => simp_all [formula, expression, formulaText, flavorText]

theorem asked_of_isWritable (t : Term) (h : t.isWritable) : t.asked = t := by
  obtain ⟨body, l, carried⟩ := t
  cases body with
  | text v => cases v <;> simp_all [asked, isWritable, contentFits, Value.str?]
  | _ => rfl

/-! ## What a term is worth -/

/-- The results of dice or a pool, none for other terms. -/
def results? (t : Term) : Option (List DieResult) :=
  match t.body with
  | .pool _ _ hand => some hand.results
  | .dice d => some d.hand.results
  | _ => none

/-- The faces that count, for dice and pools. -/
def faces? (t : Term) : Option (List Value) := t.results?.map DieResult.facesOf

/-- The total of some results, nothing before they are all there. -/
def totalOf (evaluated : Bool) (rs : List DieResult) : Except Error Value :=
  if evaluated then (DieResult.total rs).map Value.num else .ok .null

/-- What a term is worth so far. A text that is not classified is worth nothing yet. -/
def total (t : Term) : Except Error Value :=
  match t.body with
  | .number n => .ok (.num n)
  | .operator _ => .ok (.str t.written)
  | .text v => .error (.unevaluated v)
  | .group _ roll => .ok ((roll.map Roll.total).getD .null)
  | .call _ _ _ result => .ok result
  | .pool _ _ hand => totalOf t.evaluated hand.results
  | .dice d => totalOf t.evaluated d.hand.results

end Term

/-! ## Dice whose formulas were asked for -/

mutual

/-- A term after the formulas of its dice were asked for. -/
def Term.diceAsked : Term → Term
  | ⟨.group source (some r), l, carried⟩ => ⟨.group source (some r.diceAsked), l, carried⟩
  | ⟨.call fn args rs result, l, carried⟩ =>
    ⟨.call fn args (diceOfRollsAsked rs) result, l, carried⟩
  | ⟨.pool args rs hand, l, carried⟩ => ⟨.pool args (diceOfRollsAsked rs) hand, l, carried⟩
  | t => t

/-- A roll after the formulas of its dice were asked for. -/
def Roll.diceAsked : Roll → Roll
  | ⟨terms, dice, shared, sheet⟩ =>
    if sheet.state.isEvaluated then ⟨terms, dice.map Term.asked, shared, sheet⟩
    else ⟨diceOfTermsAsked terms, dice, shared, sheet⟩

/-- Rolls after the formulas of their dice were asked for. -/
def diceOfRollsAsked : List Roll → List Roll
  | [] => []
  | r :: rs => r.diceAsked :: diceOfRollsAsked rs

/-- Terms after the formulas of their dice were asked for. -/
def diceOfTermsAsked : List Term → List Term
  | [] => []
  | t :: ts => t.diceAsked :: diceOfTermsAsked ts

end

/-- The formula of some terms. -/
def formulaOf (ts : List Term) : String := String.join (ts.map Term.formulaText)

namespace Roll

/-- A roll of the given terms, all of which can stand in a formula. -/
def ofTerms (terms : List Term) (options : Options) (config : Config) : Roll :=
  { terms, dice := [], shared := [],
    sheet := { formula := .str (formulaOf terms), options, config } }

/-- A roll of the given terms, if they can stand in a formula. -/
def ofTerms? (terms : List Term) (options : Options) (config : Config) : Except Error Roll :=
  if terms.all Term.isWritable then .ok (ofTerms terms options config) else .error .wrongType

/-- The total of a term as it stands in the flat text of a roll. -/
def flatTerm (t : Term) : Except Error String := do
  return (← t.total).formulaText

/-- The totals of all terms as one arithmetic text. -/
def flatten (ts : List Term) : Except Error String := do
  return String.join (← ts.mapM flatTerm)

/-- The flat text of an evaluated roll, nothing before. -/
def result (r : Roll) : Except Error Value :=
  if r.evaluated then (flatten r.terms).map Value.str else .ok .null

end Roll

end DiceFormula
