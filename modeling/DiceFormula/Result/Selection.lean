import DiceFormula.Result.Basic
import DiceFormula.Value.Sorting

/-!
# Keeping and dropping

`keepOrDrop` discards active results until the wanted number is kept, or until the wanted number is
dropped. The results are cut at the face where the sorted faces change sides: everything beyond
the cut goes, and of the results that tie with it the first ones in list order. A list or mapping
in which the undefined double lies ties with no other face, yet with its own.
-/

namespace DiceFormula.DieResult

/-- How many of `active` results are discarded. A number with a fraction counts none of them, unless
it asks for all or for none. -/
def discardCount (active : Nat) (number : Value) (keep : Bool) : Except Error Nat := do
  let some n := number.number? | .error .wrongType
  let wanted ← ofNumeric (if keep then Number.sub (.int active) n else .ok n)
  if Number.lt (.int active) wanted then return active
  else if Number.lt 0 wanted then
    match wanted with
    | .int k => return k.toNat
    | .float _ => if wanted.lt (.int active) then .error .wrongType else return active
  else return 0

/-- How many results are discarded, and the face at which the sorted faces change sides: null where
all go. -/
def cutOf (ascending : Bool) (number : Value) (keep : Bool) (rs : List DieResult) :
    Except Error (Nat × Value) := do
  let faces ← Value.sorted ascending (facesOf rs)
  let n ← discardCount faces.length number keep
  return (n, faces[n]?.getD .null)

/-- Whether a face lies beyond the cut. -/
def beyond (ascending : Bool) (cut face : Value) : Except Error Bool :=
  if cut.isNull then .ok true
  else (if ascending then Comparison.lt else Comparison.gt).holds face cut

/-- Discards an active result beyond the cut. -/
def discardOne (ascending : Bool) (cut : Value) (r : DieResult) : Change DieResult :=
  if r.isActive then
    Change.ofExcept r do return if ← beyond ascending cut r.face then r.discard else r
  else { state := r }

/-- Discards the active results beyond the cut. -/
def discardBeyond (ascending : Bool) (cut : Value) (rs : List DieResult) :
    Change (List DieResult) := Change.each (discardOne ascending cut) rs

/-- Discards the first `n` active results that tie with the cut. -/
def discardTies (cut : Value) : Nat → List DieResult → List DieResult
  | 0, rs => rs
  | _ + 1, [] => []
  | n + 1, r :: rs =>
    if r.isActive && r.face.equals cut then r.discard :: discardTies cut n rs
    else r :: discardTies cut (n + 1) rs

/-- Whether a face ties with no face but its own: it is no number, and differs from itself. -/
def isSingular (face : Value) : Bool := face.number?.isNone && !face.equals face

/-- The place of the result at the cut among all results. -/
def cutPlace (ascending : Bool) (n : Nat) (rs : List DieResult) : Except Error (Option Nat) := do
  let sorted ← Value.sortedOn ascending (·.1.face) (rs.zipIdx.filter (·.1.isActive))
  return sorted[n]?.map (·.2)

/-- Discards what lies beyond the cut, which is the face of `own`, in front of this result and
behind it; and the result itself where less than `n` results are gone then. -/
def discardAround (ascending : Bool) (n : Nat) (front : List DieResult) (own : DieResult)
    (back : List DieResult) : Change (List DieResult) :=
  let keptFront := discardBeyond ascending own.face front
  if keptFront.fault.isSome then ⟨keptFront.state ++ own :: back, keptFront.fault⟩
  else
    let keptBack := discardBeyond ascending own.face back
    let kept := keptFront.state ++ keptBack.state
    let gone := (activeOf (front ++ back)).length - (activeOf kept).length
    let own := if keptBack.fault.isNone && gone < n then own.discard else own
    ⟨keptFront.state ++ own :: keptBack.state, keptBack.fault⟩

/-- Discards active results so that `number` of them are kept, or dropped. -/
def keepOrDrop (number : Value) (keep highest : Bool) (rs : List DieResult) :
    Change (List DieResult) :=
  let ascending := keep == highest
  match cutOf ascending number keep rs with
  | .error e => ⟨rs, some e⟩
  | .ok (n, cut) =>
    if isSingular cut then
      match cutPlace ascending n rs with
      | .ok (some i) =>
        match rs.splitAt i with
        | (front, own :: back) => discardAround ascending n front own back
        | (_, []) => { state := rs }
      | .ok none => { state := rs }
      | .error e => ⟨rs, some e⟩
    else
      let kept := discardBeyond ascending cut rs
      if kept.fault.isSome || cut.isNull then kept
      else
        let gone := (activeOf rs).length - (activeOf kept.state).length
        { state := discardTies cut (n - gone) kept.state }

end DiceFormula.DieResult
