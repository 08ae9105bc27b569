import DiceFormula.Modifier.Plain
import DiceFormula.Proofs.Fallible
import Mathlib.Data.List.Sort

/-!
# The cut through the sorted faces

Keeping and dropping goes by a cut through the sorted faces. The number of results that go is the
place of the cut (`discardCount_int`), and where all faces are numbers that compare as integers, the
sorted ones are what a stable sort by these integers gives (`sorted_map`). If the cut ties with other
faces than its own, then everything beyond it goes, and of the results that tie with it the first
ones (`keepOrDrop_of_cut`).
-/

namespace DiceFormula

/-! ## Comparing numbers -/

theorem Value.equals_of_number? {a b : Value} {x y : Number} (ha : a.number? = some x)
    (hb : b.number? = some y) : a.equals b = x.eq y := by
  cases a <;> cases b <;> simp only [Value.number?, Option.some.injEq, reduceCtorEq] at ha hb <;>
    subst ha hb
  case bool.bool a b => cases a <;> cases b <;> decide
  all_goals simp [Value.equals, Value.sameBy, Value.sameNumber]

theorem Comparison.holds_of_number? (c : Comparison) {a b : Value} {x y : Number}
    (ha : a.number? = some x) (hb : b.number? = some y) : c.holds a b = .ok (c.ofNumbers x y) := by
  unfold holds
  split
  case isTrue equal => rw [equal, Value.equals_of_number? ha hb, ofNumbers]
  case isFalse => cases a <;> cases b <;> simp_all [ordered, Value.number?]

namespace DieResult

/-! ## The place of the cut -/

/-- How many of `len` results go, if `number` of them are to be kept or to be dropped. -/
def quota (keep : Bool) (number : ℤ) (len : ℕ) : ℕ :=
  (max 0 (min (if keep then len - number else number) len)).toNat

theorem quota_le (keep : Bool) (number : ℤ) (len : ℕ) : quota keep number len ≤ len := by
  unfold quota
  split <;> omega

theorem discardCount_int (keep : Bool) (number : ℤ) (len : ℕ) :
    discardCount len (.int number) keep = .ok (quota keep number len) := by
  have given : (Value.int number).number? = some (.int number) := rfl
  have zero (n : ℤ) : Number.lt 0 (.int n) = decide (0 < n) := Number.lt_int 0 n
  have wanted : ofNumeric (if keep then Number.sub (.int len) (.int number) else .ok (.int number))
      = .ok (.int (if keep then len - number else number)) := by
    cases keep <;> rfl
  simp only [discardCount, given, wanted, bind_ok, Number.lt_int, zero, pure_eq_ok,
    decide_eq_true_eq, quota]
  generalize (if keep then (len : ℤ) - number else number) = wanted
  split
  · exact congrArg _ (by omega)
  · split <;> exact congrArg _ (by omega)

/-! ## The sorted faces -/

/-- Items with numbers that compare as integers are sorted by these. -/
theorem sorted_map {α : Type} (face : α → Value) (value : α → ℤ) {as : List α}
    (linear : ∀ a ∈ as, (face a).isLinear = true)
    (below : ∀ a ∈ as, ∀ b ∈ as,
      Value.numberBelow (face a) (face b) = decide (value a < value b))
    (ascending : Bool) :
    Value.sorted ascending (as.map face)
      = .ok ((as.mergeSort fun a b =>
          if ascending then value a ≤ value b else value b ≤ value a).map face) := by
  have all : (as.map face).all (fun v => Value.isLinear (id v)) = true := by
    simpa [List.all_eq_true] using linear
  rw [Value.sorted, Value.sortedOn, if_pos all, List.map_mergeSort]
  intro a ha b hb
  rw [Bool.eq_iff_iff]
  cases ascending <;> simp [below a ha b hb, below b hb a ha]

/-! ## What goes -/

/-- Discards an active result if it passes the test. -/
def discardIf (test : DieResult → Bool) (r : DieResult) : DieResult :=
  if r.isActive && test r then r.discard else r

section

variable {rs : List DieResult} {test : DieResult → Bool}

/-- What is discarded is no longer active. -/
theorem isActive_discardIf (test : DieResult → Bool) (r : DieResult) :
    (discardIf test r).isActive = (r.isActive && !test r) := by
  unfold discardIf
  cases active : r.isActive <;> cases passed : test r <;>
    simp only [Bool.and_true, Bool.and_false, Bool.false_eq_true, if_true, if_false, active,
      Bool.not_true, Bool.not_false]
  rfl

theorem face_discardIf (test : DieResult → Bool) (r : DieResult) :
    (discardIf test r).face = r.face := by
  unfold discardIf
  split <;> rfl

/-- The active results that pass the test are gone. -/
theorem length_activeOf_discardIf (test : DieResult → Bool) (rs : List DieResult) :
    (activeOf rs).length - (activeOf (rs.map (discardIf test))).length
      = (activeOf rs).countP test := by
  have left : (activeOf (rs.map (discardIf test))).length
      = (activeOf rs).countP fun r => !test r := by
    rw [activeOf, ← List.countP_eq_length_filter, List.countP_map, activeOf, List.countP_filter]
    refine List.countP_congr ?_
    intro r _
    rw [Function.comp_apply, isActive_discardIf, Bool.and_comm]
  have all := (activeOf rs).length_eq_countP_add_countP test
  simp only [Bool.not_eq_true, Bool.decide_eq_false] at all
  omega

theorem discardBeyond_eq_map {ascending : Bool} {cut : Value}
    (h : ∀ r ∈ rs, beyond ascending cut r.face = .ok (test r)) :
    discardBeyond ascending cut rs = { state := rs.map (discardIf test) } := by
  refine Change.each_eq_map _ _ _ ?_
  intro r hr
  unfold discardOne discardIf
  rw [h r hr]
  cases r.isActive <;> cases test r <;> rfl

/-- Where no cut is left, everything goes. -/
theorem keepOrDrop_of_null {number : Value} {keep highest : Bool} {n : ℕ}
    (cut : cutOf (keep == highest) number keep rs = .ok (n, .null)) :
    keepOrDrop number keep highest rs = { state := rs.map (discardIf fun _ => true) } := by
  have single : isSingular .null = false := rfl
  have all : discardBeyond (keep == highest) .null rs
      = { state := rs.map (discardIf fun _ => true) } := discardBeyond_eq_map fun r _ => rfl
  unfold keepOrDrop
  dsimp only
  rw [cut]
  dsimp only
  rw [single, all]
  rfl

/-- What goes: the results beyond the cut, and as many of those that tie with it as are still
missing. -/
theorem keepOrDrop_of_cut {number cut : Value} {keep highest : Bool} {n : ℕ}
    (place : cutOf (keep == highest) number keep rs = .ok (n, cut)) (present : cut.isNull = false)
    (plain : isSingular cut = false)
    (h : ∀ r ∈ rs, beyond (keep == highest) cut r.face = .ok (test r)) :
    keepOrDrop number keep highest rs
      = { state := discardTies cut (n - (activeOf rs).countP test) (rs.map (discardIf test)) } := by
  unfold keepOrDrop
  dsimp only
  rw [place]
  dsimp only
  rw [plain, discardBeyond_eq_map h, present, ← length_activeOf_discardIf]
  rfl

end

end DieResult

end DiceFormula
