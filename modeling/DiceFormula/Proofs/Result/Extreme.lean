import DiceFormula.Proofs.Evaluation.Bounds
import DiceFormula.Proofs.Number.Whole

/-!
# The extreme of some whole numbers

Keeping the highest of some results and calling the function for the largest of their faces come to
the same integer (`DieResult.exists_kept`, `Function.exists_extreme`), and so do keeping the lowest
and calling the function for the smallest one. The function takes the first extreme face. Keeping
goes by a cut through the sorted faces: all results but those at the cut are discarded, and of these
the last one stays. The two may differ in that one of them is a double.
-/

namespace DiceFormula

namespace Extreme

variable {e : Extreme}

/-- The integer is the extreme one among some integers. -/
def IsOf (e : Extreme) (c : ℤ) (zs : List ℤ) : Prop :=
  c ∈ zs ∧ ∀ z ∈ zs, e.Beyond (· ≤ ·) z c

theorem IsOf.unique {c d : ℤ} {zs : List ℤ} (hc : e.IsOf c zs) (hd : e.IsOf d zs) : c = d := by
  have le := hc.2 d hd.1
  have ge := hd.2 c hc.1
  cases e <;> exact Int.le_antisymm (by assumption) (by assumption)

theorem Beyond.trans {a b c : ℤ} (h : e.Beyond (· ≤ ·) a b) (h' : e.Beyond (· ≤ ·) b c) :
    e.Beyond (· ≤ ·) a c := by
  cases e with
  | least => exact Int.le_trans h' h
  | greatest => exact Int.le_trans h h'

/-- One of two integers stands for both if it is the extreme one. -/
theorem IsOf.split {a b c d : ℤ} {zs : List ℤ} (h : e.IsOf c (d :: zs)) (either : d = a ∨ d = b)
    (left : e.Beyond (· ≤ ·) a d) (right : e.Beyond (· ≤ ·) b d) : e.IsOf c (a :: b :: zs) := by
  obtain ⟨mem, bound⟩ := h
  obtain ⟨first, others⟩ := List.forall_mem_cons.1 bound
  constructor
  · rcases List.mem_cons.1 mem with rfl | mem
    · rcases either with rfl | rfl <;> simp
    · exact List.mem_cons_of_mem _ (List.mem_cons_of_mem _ mem)
  · exact List.forall_mem_cons.2
      ⟨left.trans first, List.forall_mem_cons.2 ⟨right.trans first, others⟩⟩

/-- The modifier that keeps the extreme of some results. -/
def command : Extreme → String
  | least => "kl"
  | greatest => "kh"

/-- Whether the highest results are kept. -/
def highest : Extreme → Bool
  | least => false
  | greatest => true

/-- The function whose value is the extreme of its arguments. -/
def function : Extreme → Function
  | least => .min
  | greatest => .max

/-- How a number compares with those that it is further out than. -/
def relation : Extreme → Comparison
  | least => .lt
  | greatest => .gt

end Extreme

open Number (Whole)

variable {e : Extreme} {ws : List Whole}

/-! ## Comparing whole numbers -/

theorem Comparison.holds_num (c : Comparison) (x y : Number) :
    c.holds (.num x) (.num y) = .ok (c.ofNumbers x y) := c.holds_of_number? rfl rfl

theorem Value.equals_num (x y : Number) : Value.equals (.num x) (.num y) = x.eq y :=
  Value.equals_of_number? rfl rfl

namespace DieResult

/-! ## Keeping one result -/

/-- The result that shows a whole number. -/
def ofWhole (w : Whole) : DieResult := { face := .num w.number }

/-- The order in which keeping the extreme sorts. -/
def upTo (e : Extreme) (a b : Whole) : Bool :=
  if true == e.highest then decide (a.value ≤ b.value) else decide (b.value ≤ a.value)

theorem upTo_iff {a b : Whole} : upTo e a b = true ↔ e.Beyond (· ≤ ·) a.value b.value := by
  cases e <;> simp [upTo, Extreme.highest, Extreme.Beyond]

/-- Sorted numbers end with the extreme one. -/
theorem exists_last (e : Extreme) (some : ws ≠ []) :
    ∃ c : Whole, e.IsOf c.value (ws.map (·.value))
      ∧ (ws.mergeSort (upTo e))[ws.length - 1]? = .some c := by
  have perm : (ws.mergeSort (upTo e)).Perm ws := List.mergeSort_perm _ _
  have full : ws.mergeSort (upTo e) ≠ [] := fun h => some (List.nil_perm.1 (h ▸ perm))
  have pairwise : (ws.mergeSort (upTo e)).Pairwise fun a b => upTo e a b = true := by
    refine List.pairwise_mergeSort ?_ ?_ ws
    · intro a b c
      cases e <;> simp [upTo, Extreme.highest] <;> omega
    · intro a b
      cases e <;> simp [upTo, Extreme.highest] <;> omega
  refine ⟨(ws.mergeSort (upTo e)).getLast full,
    ⟨List.mem_map_of_mem (perm.subset (List.getLast_mem full)), ?_⟩, ?_⟩
  · intro z hz
    obtain ⟨w, hw, rfl⟩ := List.mem_map.1 hz
    have last := pairwise.rel_getLast_of_rel_getLast_getLast (perm.symm.subset hw)
      (upTo_iff.2 (.refl (Int.le_refl _)))
    exact upTo_iff.1 last
  · rw [← perm.length_eq, ← List.getLast?_eq_getElem?, List.getLast?_eq_some_getLast]

theorem activeOf_map_ofWhole (ws : List Whole) : activeOf (ws.map ofWhole) = ws.map ofWhole := by
  refine List.filter_eq_self.2 ?_
  intro r hr
  obtain ⟨w, -, rfl⟩ := List.mem_map.1 hr
  rfl

/-- The cut lies at the extreme number. -/
theorem exists_cutOf (e : Extreme) (some : ws ≠ []) :
    ∃ c : Whole, e.IsOf c.value (ws.map (·.value))
      ∧ cutOf (true == e.highest) (.int 1) true (ws.map ofWhole)
        = .ok (ws.length - 1, .num c.number) := by
  obtain ⟨c, extreme, last⟩ := exists_last e some
  refine ⟨c, extreme, ?_⟩
  have faces : facesOf (ws.map ofWhole) = ws.map fun w => Value.num w.number := by
    rw [facesOf, activeOf_map_ofWhole, List.map_map]
    rfl
  have count : discardCount ws.length (.int 1) true = .ok (ws.length - 1) :=
    (discardCount_int true 1 ws.length).trans (congrArg _ (by simp only [quota, if_true]; omega))
  have order : (fun a b : Whole => if (true == e.highest) = true then decide (a.value ≤ b.value)
      else decide (b.value ≤ a.value)) = upTo e := rfl
  have sorted := sorted_map (fun w : Whole => .num w.number) Whole.value
    (fun w (_ : w ∈ ws) => w.eq_self) (fun w _ v _ => w.lt_eq v) (true == e.highest)
  rw [cutOf, faces, sorted, order, bind_ok, List.length_map, List.length_mergeSort, count, bind_ok,
    List.getElem?_map, last]
  rfl

/-- What is left of the results where all but those at the cut are discarded. -/
def leftAt (c : ℤ) (w : Whole) : DieResult :=
  if w.value = c then ofWhole w else (ofWhole w).discard

theorem isActive_leftAt (c : ℤ) (w : Whole) : (leftAt c w).isActive = decide (w.value = c) := by
  by_cases h : w.value = c <;> simp [leftAt, h] <;> rfl

theorem activeOf_leftAt (c : ℤ) (ws : List Whole) :
    activeOf (ws.map (leftAt c)) = (ws.filter (·.value = c)).map ofWhole := by
  unfold activeOf
  induction ws with
  | nil => rfl
  | cons w ws ih =>
    rw [List.map_cons, List.filter_cons, isActive_leftAt, ih]
    by_cases h : w.value = c
    · simp [h, leftAt]
    · simp [h]

/-- All beyond the extreme integer are the others. -/
theorem beyond_extreme {c w : Whole} (h : e.IsOf c.value (ws.map (·.value))) (hw : w ∈ ws) :
    beyond (true == e.highest) (.num c.number) (ofWhole w).face
      = .ok (!(ofWhole w).face.equals (.num c.number)) := by
  have bound := h.2 w.value (List.mem_map_of_mem hw)
  have cut : (Value.num c.number).isNull = false := rfl
  rw [beyond, cut, if_neg Bool.false_ne_true, ofWhole, Comparison.holds_num, Value.equals_num,
    Whole.eq_eq]
  refine congrArg _ (Bool.eq_iff_iff.2 ?_)
  cases e <;>
    simp [Extreme.highest, Extreme.Beyond, Comparison.ofNumbers, Whole.lt_eq] at bound ⊢ <;>
    omega

/-- The results at the cut are left. -/
theorem map_discardIf_ofWhole (c : Whole) (ws : List Whole) :
    (ws.map ofWhole).map (discardIf fun r => !r.face.equals (.num c.number))
      = ws.map (leftAt c.value) := by
  rw [List.map_map]
  refine List.map_congr_left ?_
  intro w _
  have active : (ofWhole w).isActive = true := rfl
  have test : (ofWhole w).face.equals (.num c.number) = decide (w.value = c.value) := by
    rw [ofWhole, Value.equals_num, Whole.eq_eq]
  by_cases same : w.value = c.value <;>
    simp [discardIf, leftAt, active, test, same]

/-- Of the results at the cut the first ones go. -/
theorem activeOf_discardTies (c : Whole) (ws : List Whole) (m : ℕ) :
    activeOf (discardTies (.num c.number) m (ws.map (leftAt c.value)))
      = ((ws.filter (·.value = c.value)).drop m).map ofWhole := by
  induction ws generalizing m with
  | nil => cases m <;> rfl
  | cons w ws ih =>
    cases m with
    | zero => exact activeOf_leftAt c.value (w :: ws)
    | succ m =>
      unfold activeOf at ih ⊢
      rw [List.map_cons, discardTies, isActive_leftAt]
      by_cases h : w.value = c.value
      · have tie : (leftAt c.value w).face.equals (.num c.number) = true := by
          simp [leftAt, ofWhole, h, Value.equals_num, Whole.eq_eq]
        have gone : (leftAt c.value w).discard.isActive = false := rfl
        simp [h, tie, gone, ih]
      · have out := isActive_leftAt c.value w
        simp [h, out, ih]

/-- The total of one result is the number it shows. -/
theorem exists_total {ss : List DieResult} {w : Whole} (h : activeOf ss = [ofWhole w]) :
    ∃ c : Whole, c.value = w.value ∧ total ss = .ok c.number := by
  obtain ⟨y, sum, whole⟩ := Number.exists_zero_add w.whole
  refine ⟨⟨y, w.value, whole⟩, rfl, ?_⟩
  have added : addTo 0 (ofWhole w) = .ok y := by
    show ofNumeric (Number.add 0 w.number) = .ok y
    rw [sum]
    rfl
  rw [total, h, List.foldlM_cons, added, bind_ok]
  rfl

/-- **One result is kept**, and it shows the extreme integer. -/
theorem exists_kept (e : Extreme) (some : ws ≠ []) :
    ∃ (c : Whole) (ss : List DieResult), e.IsOf c.value (ws.map (·.value))
      ∧ keepOrDrop (.int 1) true e.highest (ws.map ofWhole) = { state := ss }
      ∧ total ss = .ok c.number := by
  obtain ⟨c, extreme, cut⟩ := exists_cutOf e some
  have ties : ws.filter (·.value = c.value) ≠ [] := by
    obtain ⟨w, hw, same⟩ := List.mem_map.1 extreme.1
    exact List.ne_nil_of_mem (List.mem_filter.2 ⟨hw, decide_eq_true same⟩)
  set tied := ws.filter (·.value = c.value) with tied_eq
  have left := activeOf_discardTies c ws (tied.length - 1)
  rw [← tied_eq, List.drop_length_sub_one ties] at left
  obtain ⟨w, same, sum⟩ := exists_total left
  have last : (tied.getLast ties).value = c.value :=
    of_decide_eq_true (List.mem_filter.1 (List.getLast_mem ties)).2
  refine ⟨w, _, (same.trans last) ▸ extreme, ?_, sum⟩
  have plain : isSingular (.num c.number) = false := rfl
  have missing : ws.length - 1
      - (activeOf (ws.map ofWhole)).countP (fun r => !r.face.equals (.num c.number))
        = tied.length - 1 := by
    have within : tied.length ≤ ws.length := List.length_filter_le _ _
    have one : 0 < tied.length := List.length_pos_iff.2 ties
    rw [← length_activeOf_discardIf, map_discardIf_ofWhole, activeOf_leftAt, activeOf_map_ofWhole,
      ← tied_eq, List.length_map, List.length_map]
    omega
  rw [keepOrDrop_of_cut cut rfl plain, missing, map_discardIf_ofWhole]
  intro r hr
  obtain ⟨v, hv, rfl⟩ := List.mem_map.1 hr
  exact beyond_extreme extreme hv

end DieResult

namespace Function

/-! ## Calling the function -/

/-- The argument that stays of two: the first one, unless the second one is further out. -/
def stays (e : Extreme) (a b : Whole) : Whole :=
  if e.relation.ofNumbers b.number a.number then b else a

theorem num_stays (e : Extreme) (a b : Whole) : Value.num (stays e a b).number
    = if e.relation.ofNumbers b.number a.number then .num b.number else .num a.number :=
  apply_ite (fun w : Whole => Value.num w.number) _ _ _

theorem value_stays (e : Extreme) (a b : Whole) :
    ((stays e a b).value = a.value ∨ (stays e a b).value = b.value)
      ∧ e.Beyond (· ≤ ·) a.value (stays e a b).value
      ∧ e.Beyond (· ≤ ·) b.value (stays e a b).value := by
  unfold stays
  cases e <;>
    simp only [Extreme.relation, Extreme.Beyond, Comparison.ofNumbers, Whole.lt_eq,
      decide_eq_true_eq] <;>
    split <;> omega

theorem exists_extremeFrom (e : Extreme) (ws : List Whole) (w : Whole) :
    ∃ c : Whole, e.IsOf c.value ((w :: ws).map (·.value))
      ∧ extremeFrom e.relation (.num w.number) (ws.map fun w => .num w.number)
        = .ok (.num c.number) := by
  induction ws generalizing w with
  | nil => exact ⟨w, ⟨List.mem_singleton.2 rfl, by cases e <;> simp [Extreme.Beyond]⟩, rfl⟩
  | cons u ws ih =>
    obtain ⟨c, extreme, found⟩ := ih (stays e w u)
    obtain ⟨either, left, right⟩ := value_stays e w u
    refine ⟨c, extreme.split either left right, ?_⟩
    rw [num_stays] at found
    rw [List.map_cons, extremeFrom, Comparison.holds_num, bind_ok, found]

/-- **The function gives the extreme integer.** -/
theorem exists_extreme (e : Extreme) (some : ws ≠ []) :
    ∃ c : Whole, e.IsOf c.value (ws.map (·.value))
      ∧ e.function.call (ws.map fun w => .num w.number) = .ok (.num c.number) := by
  obtain ⟨w, ws, rfl⟩ := List.exists_cons_of_ne_nil some
  obtain ⟨c, extreme, found⟩ := exists_extremeFrom e ws w
  refine ⟨c, extreme, ?_⟩
  have known :
      e.function.arityFault? ((w :: ws).map fun w => Value.num w.number).length = none := by
    cases e <;> simp [Extreme.function, arityFault?, arity?]
  have extremes : (e.function = min || e.function = max) = true := by cases e <;> rfl
  have relation : (if e.function = min then Comparison.lt else .gt) = e.relation := by
    cases e <;> rfl
  have settled : e.function.settle ((w :: ws).map fun w => .num w.number) (.ok c.number)
      = .ok c.number := by
    rw [settle, c.isUnbounded_eq]
    rfl
  rw [call, known]
  dsimp only
  rw [if_pos extremes, Function.extreme, relation]
  simp only [List.map_cons, List.headD_cons, List.tail_cons] at settled ⊢
  rw [found, bind_ok]
  dsimp only
  rw [settled]
  rfl

end Function

end DiceFormula
