import DiceFormula.Proofs.Result.Cut
import DiceFormula.Proofs.Result.Discarding
import Mathlib.Algebra.GroupWithZero.Nat
import Mathlib.Data.List.Count
import Mathlib.Algebra.Order.BigOperators.Group.Finset
import Mathlib.Algebra.Order.BigOperators.Group.List

/-!
# Keeping and dropping natural numbers

Which results are kept depends on all of them, and two rolls of the same dice may keep results that
have nothing to do with each other. What can be said of both is how many of the numbers shown reach a
bound: dropping the lowest results leaves as many of these as before, up to the number that stays,
and dropping the highest ones takes just their number away (`DieResult.countP_keepOrDrop`). Either
grows with the number from before. So if one hand shows at least as many numbers above any bound as
another, it still does so after both have kept or dropped (`DieResult.Below.keepOrDrop`), and its
total is no less (`DieResult.Below.sum_le`).
-/

namespace DiceFormula.DieResult

/-! ## Natural results -/

/-- The number that a result shows. -/
def points (r : DieResult) : ℕ := (r.face.int?.getD 0).toNat

/-- The result shows a natural number, and no modifier counts it as anything else. -/
structure Natural (r : DieResult) : Prop where
  face : r.face = .int r.points
  count : r.count = .null

/-- A result that shows a number, without any notes. -/
def ofPoints (n : ℕ) : DieResult := { face := .int n }

theorem natural_ofPoints (n : ℕ) : (ofPoints n).Natural := ⟨rfl, rfl⟩

theorem Natural.discard {r : DieResult} (h : r.Natural) : r.discard.Natural := ⟨h.face, h.count⟩

/-- The numbers of the results that count. -/
def shown (rs : List DieResult) : List ℕ := (activeOf rs).map points

section

variable {r : DieResult} {rs : List DieResult}

theorem shown_cons_of_active (h : r.isActive = true) : shown (r :: rs) = r.points :: shown rs := by
  simp [shown, activeOf, h]

theorem shown_cons_of_not_active (h : r.isActive = false) : shown (r :: rs) = shown rs := by
  simp [shown, activeOf, h]

theorem shown_map_ofPoints (ns : List ℕ) : shown (ns.map ofPoints) = ns := by
  induction ns with
  | nil => rfl
  | cons n ns ih =>
    rw [List.map_cons, shown_cons_of_active rfl, ih]
    rfl

theorem facesOf_eq_map (h : ∀ r ∈ rs, r.Natural) :
    facesOf rs = (shown rs).map fun n : ℕ => Value.int n := by
  rw [facesOf, shown, List.map_map]
  refine List.map_congr_left ?_
  intro r hr
  exact (h r (List.mem_of_mem_filter hr)).face

/-- The total is the sum of the numbers shown. -/
theorem total_eq_sum (h : ∀ r ∈ rs, r.Natural) : total rs = .ok (.int (shown rs).sum) := by
  suffices ∀ (as : List DieResult) (n : ℕ), (∀ r ∈ as, r.Natural) →
      as.foldlM addTo (.int n) = .ok (.int ((n + (as.map points).sum : ℕ))) by
    have := this (activeOf rs) 0 fun r hr => h r (List.mem_of_mem_filter hr)
    rwa [Nat.zero_add] at this
  intro as
  induction as with
  | nil => exact fun n _ => rfl
  | cons r as ih =>
    intro n h
    obtain ⟨hr, has⟩ := List.forall_mem_cons.1 h
    have added : addTo (.int n) r = .ok (.int ((n + r.points : ℕ))) := by
      simp [addTo, value, hr.count, hr.face, Value.isNull, Value.int, Value.number?, Number.add,
        ofNumeric]
    rw [List.foldlM_cons, added, bind_ok, ih _ has, List.map_cons, List.sum_cons, Nat.add_assoc]

end

/-! ## Sorted numbers -/

/-- The order in which the numbers are sorted. -/
def ordered (ascending : Bool) (a b : ℕ) : Bool := if ascending then a ≤ b else b ≤ a

theorem ordered_refl (ascending : Bool) (a : ℕ) : ordered ascending a a = true := by
  cases ascending <;> simp [ordered]

/-- The numbers that come no later than `c` are those before it and those equal to it. -/
theorem countP_ordered (ascending : Bool) (c : ℕ) (ns : List ℕ) :
    ns.countP (ordered ascending · c)
      = (ns.countP fun a => !ordered ascending c a) + ns.count c := by
  induction ns with
  | nil => rfl
  | cons n ns ih =>
    have one : (if ordered ascending n c then 1 else 0)
        = (if !ordered ascending c n then 1 else 0) + if n == c then 1 else 0 := by
      cases ascending <;> simp only [ordered] <;> grind
    rw [List.countP_cons, List.countP_cons, List.count_cons, ih, one]
    omega

theorem sorted_map_int (ascending : Bool) (ns : List ℕ) :
    Value.sorted ascending (ns.map fun n : ℕ => Value.int n)
      = .ok ((ns.mergeSort (ordered ascending)).map fun n : ℕ => Value.int n) := by
  have same : (fun n m : ℕ =>
      if ascending then decide ((n : ℤ) ≤ m) else decide ((m : ℤ) ≤ n)) = ordered ascending := by
    funext n m
    cases ascending <;> simp [ordered]
  rw [← same]
  refine sorted_map (fun n : ℕ => Value.int n) (fun n => (n : ℤ)) ?_ ?_ ascending
  · intro n _
    simp [Value.isLinear, Value.int, Value.number?]
  · intro n _ m _
    exact Number.lt_int n m

theorem pairwise_mergeSort (ascending : Bool) (ns : List ℕ) :
    (ns.mergeSort (ordered ascending)).Pairwise fun a b => ordered ascending a b = true := by
  refine List.pairwise_mergeSort ?_ ?_ ns
  · intro a b c
    cases ascending <;> simp only [ordered] <;> grind
  · intro a b
    cases ascending <;> simp only [ordered] <;> grind

/-- Of sorted numbers no more come before the number at a place than the place says, and more than
that come no later. -/
theorem countP_of_pairwise {α : Type} {le : α → α → Bool} (refl : ∀ a, le a a = true) {c : α} :
    ∀ {ns : List α} {g : ℕ}, ns.Pairwise (fun a b => le a b = true) → ns[g]? = some c →
      ns.countP (fun a => !le c a) ≤ g ∧ g < ns.countP (le · c)
  | [], _, _, h => by cases h
  | n :: ns, 0, sorted, h => by
    obtain rfl : n = c := by simpa using h
    have none : ns.countP (fun a => !le n a) = 0 :=
      List.countP_eq_zero.2 fun a ha => by simp [(List.pairwise_cons.1 sorted).1 a ha]
    simp [refl, none]
  | n :: ns, g + 1, sorted, h => by
    obtain ⟨first, sorted⟩ := List.pairwise_cons.1 sorted
    rw [List.getElem?_cons_succ] at h
    obtain ⟨before, upTo⟩ := countP_of_pairwise refl sorted h
    have before' : (n :: ns).countP (fun a => !le c a) ≤ ns.countP (fun a => !le c a) + 1 := by
      rw [List.countP_cons]
      split <;> omega
    have upTo' : (n :: ns).countP (le · c) = ns.countP (le · c) + 1 :=
      List.countP_cons_of_pos (first c (List.mem_of_getElem? h))
    omega

theorem length_eq_countP (test : ℕ → Bool) (ns : List ℕ) :
    ns.length = ns.countP test + ns.countP fun a => !test a := by
  rw [ns.length_eq_countP_add_countP test]
  simp

/-- Let the number at the place `gone` of the sorted ones be `c`. How many of those that come no
earlier than `c` reach a bound tells how many will do so after as many as are missing are gone. -/
theorem countP_filter_ordered {ascending : Bool} {c gone : ℕ} {ns : List ℕ} (bound : ℕ)
    (before : (ns.countP fun a => !ordered ascending c a) ≤ gone)
    (upTo : gone < ns.countP (ordered ascending · c)) :
    (ns.filter (ordered ascending c)).countP (bound ≤ ·)
      = (if ascending then min (ns.countP (bound ≤ ·)) (ns.length - gone)
          else ns.countP (bound ≤ ·) - gone)
        + if bound ≤ c then gone - (ns.countP fun a => !ordered ascending c a) else 0 := by
  have all := ns.countP_eq_countP_filter_add (bound ≤ ·) (ordered ascending c)
  have length := length_eq_countP (ordered ascending c) ns
  rw [List.countP_eq_length_filter (p := ordered ascending c)] at length
  cases ascending with
  | true =>
    rw [if_pos rfl]
    by_cases low : bound ≤ c
    · have reach : (ns.filter (ordered true c)).countP (bound ≤ ·)
          = (ns.filter (ordered true c)).length :=
        List.countP_eq_length.2 (by simp [ordered]; omega)
      have := ns.countP_le_length (p := (ordered true · c))
      rw [if_pos low]
      omega
    · have none : (ns.filter fun a => !ordered true c a).countP (bound ≤ ·) = 0 :=
        List.countP_eq_zero.2 (by simp [ordered]; omega)
      have high : ns.countP (bound ≤ ·) ≤ ns.countP fun a => !ordered true a c :=
        List.countP_mono_left (by simp [ordered]; omega)
      have := length_eq_countP (ordered true · c) ns
      rw [if_neg low]
      omega
  | false =>
    rw [if_neg Bool.false_ne_true]
    have front : (ns.filter fun a => !ordered false c a).length
        = ns.countP fun a => !ordered false c a := List.countP_eq_length_filter.symm
    by_cases low : bound ≤ c
    · have reach : (ns.filter fun a => !ordered false c a).countP (bound ≤ ·)
          = (ns.filter fun a => !ordered false c a).length :=
        List.countP_eq_length.2 (by simp [ordered]; omega)
      have high : ns.countP (ordered false · c) ≤ ns.countP (bound ≤ ·) :=
        List.countP_mono_left (by simp [ordered]; omega)
      rw [if_pos low]
      omega
    · have none : (ns.filter (ordered false c)).countP (bound ≤ ·) = 0 :=
        List.countP_eq_zero.2 (by simp [ordered]; omega)
      have := (ns.filter fun a => !ordered false c a).countP_le_length (p := (bound ≤ ·))
      rw [if_neg low]
      omega

/-! ## Discarding -/

section

variable {rs : List DieResult}

theorem natural_map_discardIf (test : DieResult → Bool) (h : ∀ r ∈ rs, r.Natural) :
    ∀ r ∈ rs.map (discardIf test), r.Natural := by
  refine List.forall_mem_map.2 ?_
  intro r hr
  unfold discardIf
  split
  · exact (h r hr).discard
  · exact h r hr

theorem countP_activeOf (test : ℕ → Bool) (rs : List DieResult) :
    (activeOf rs).countP (fun r => test r.points) = (shown rs).countP test := by
  rw [shown, List.countP_map]
  rfl

theorem shown_map_discardIf (test : ℕ → Bool) (rs : List DieResult) :
    shown (rs.map (discardIf fun r => test r.points)) = (shown rs).filter (!test ·) := by
  induction rs with
  | nil => rfl
  | cons r rs ih =>
    rw [List.map_cons]
    cases active : r.isActive with
    | false =>
      have same : discardIf (fun r => test r.points) r = r := by simp [discardIf, active]
      rw [same, shown_cons_of_not_active active, shown_cons_of_not_active active, ih]
    | true =>
      rw [shown_cons_of_active active]
      cases passed : test r.points with
      | true =>
        have gone : discardIf (fun r => test r.points) r = r.discard := by
          simp [discardIf, active, passed]
        rw [gone, shown_cons_of_not_active rfl, ih, List.filter_cons_of_neg (by simp [passed])]
      | false =>
        have same : discardIf (fun r => test r.points) r = r := by simp [discardIf, passed]
        rw [same, shown_cons_of_active active, ih, List.filter_cons_of_pos (by simp [passed])]

/-- What lies beyond a cut is what comes before it in the order. -/
theorem Natural.beyond {r : DieResult} (h : r.Natural) (ascending : Bool) (c : ℕ) :
    beyond ascending (.int c) r.face = .ok !ordered ascending c r.points := by
  have some : (Value.int c).isNull = false := rfl
  rw [h.face, DieResult.beyond, some, if_neg Bool.false_ne_true, Comparison.holds_int]
  refine congrArg _ (Bool.eq_iff_iff.2 ?_)
  cases ascending <;> simp [ordered, Comparison.ofNumbers]

theorem natural_discardTies (cut : Value) (m : ℕ) (h : ∀ r ∈ rs, r.Natural) :
    ∀ r ∈ discardTies cut m rs, r.Natural :=
  forall_of_discards (P := Natural) (fun _ => Natural.discard) (discards_discardTies cut m rs) h

/-- If the cut is shown often enough, the given number of those that show it go, and nothing else. -/
theorem countP_discardTies {c m : ℕ} (test : ℕ → Bool) (h : ∀ r ∈ rs, r.Natural)
    (enough : m ≤ (shown rs).count c) :
    (shown (discardTies (.int c) m rs)).countP test + (if test c then m else 0)
      = (shown rs).countP test := by
  fun_induction discardTies (.int c) m rs with
  | case1 => simp
  | case2 m => exact absurd enough (by simp [shown, activeOf])
  | case3 m r rs ties ih =>
    obtain ⟨hr, hrs⟩ := List.forall_mem_cons.1 h
    obtain ⟨active, equal⟩ : r.isActive = true ∧ r.points = c := by
      rw [hr.face, Value.equals_int] at ties
      simpa [Int.natCast_inj] using ties
    rw [shown_cons_of_active active, equal, List.count_cons_self] at enough
    have := ih hrs (Nat.le_of_succ_le_succ enough)
    rw [shown_cons_of_not_active rfl, shown_cons_of_active active, equal, List.countP_cons]
    cases passed : test c with
    | true =>
      simp only [passed, if_true] at this ⊢
      omega
    | false =>
      simp only [passed, Bool.false_eq_true, if_false] at this ⊢
      omega
  | case4 m r rs ties ih =>
    obtain ⟨hr, hrs⟩ := List.forall_mem_cons.1 h
    cases active : r.isActive with
    | false =>
      rw [shown_cons_of_not_active active] at enough ⊢
      rw [shown_cons_of_not_active active, ih hrs enough]
    | true =>
      have differs : r.points ≠ c := by
        rw [hr.face, Value.equals_int] at ties
        simpa [active, Int.natCast_inj] using ties
      rw [shown_cons_of_active active, List.count_cons_of_ne differs] at enough
      have := ih hrs enough
      rw [shown_cons_of_active active, shown_cons_of_active active, List.countP_cons,
        List.countP_cons, ← this]
      exact Nat.add_right_comm _ _ _

end

/-! ## Keeping and dropping -/

section

variable {rs : List DieResult}

/-- What goes: everything, if that many are asked for; else what comes before the number at the cut,
and as many of those that show this number as are still missing. -/
theorem keepOrDrop_cases (h : ∀ r ∈ rs, r.Natural) (k : ℕ) (keep highest : Bool) :
    let sorted := (shown rs).mergeSort (ordered (keep == highest))
    let gone := quota keep k (shown rs).length
    sorted[gone]? = none
        ∧ keepOrDrop (.int k) keep highest rs = { state := rs.map (discardIf fun _ => true) }
      ∨ ∃ c, sorted[gone]? = some c
        ∧ keepOrDrop (.int k) keep highest rs =
          { state := discardTies (.int c)
              (gone - (shown rs).countP fun a => !ordered (keep == highest) c a)
              (rs.map (discardIf fun r => !ordered (keep == highest) c r.points)) } := by
  intro sorted gone
  have cut : cutOf (keep == highest) (.int k) keep rs
      = .ok (gone, (sorted[gone]?.map fun n : ℕ => Value.int n).getD .null) := by
    rw [cutOf, facesOf_eq_map h, sorted_map_int, bind_ok, List.length_map, List.length_mergeSort,
      discardCount_int, bind_ok, List.getElem?_map]
    rfl
  cases hc : sorted[gone]? with
  | none =>
    rw [hc] at cut
    exact .inl ⟨rfl, keepOrDrop_of_null cut⟩
  | some c =>
    rw [hc, Option.map_some, Option.getD_some] at cut
    refine .inr ⟨c, rfl, ?_⟩
    rw [keepOrDrop_of_cut cut rfl rfl fun r hr => (h r hr).beyond _ c,
      countP_activeOf fun a => !ordered (keep == highest) c a]

/-- Natural results can be kept and dropped, and stay natural. -/
theorem natural_keepOrDrop (h : ∀ r ∈ rs, r.Natural) (k : ℕ) (keep highest : Bool) :
    ∃ ss, keepOrDrop (.int k) keep highest rs = { state := ss } ∧ ∀ r ∈ ss, r.Natural := by
  rcases keepOrDrop_cases h k keep highest with ⟨-, kept⟩ | ⟨c, -, kept⟩
  · exact ⟨_, kept, natural_map_discardIf _ h⟩
  · exact ⟨_, kept, natural_discardTies _ _ (natural_map_discardIf _ h)⟩

/-- How many numbers still reach a bound after some were kept or dropped, if `n` of `len` did. -/
def leftOf (keep highest : Bool) (k len n : ℕ) : ℕ :=
  if keep == highest then min n (len - quota keep k len) else n - quota keep k len

/-- **How many of the numbers shown reach a bound** after keeping and dropping depends on how many
did before, and on nothing else. -/
theorem countP_keepOrDrop (h : ∀ r ∈ rs, r.Natural) (k : ℕ) (keep highest : Bool) (bound : ℕ) :
    (shown (keepOrDrop (.int k) keep highest rs).state).countP (bound ≤ ·)
      = leftOf keep highest k (shown rs).length ((shown rs).countP (bound ≤ ·)) := by
  unfold leftOf
  have within := quota_le keep k (shown rs).length
  have reach := (shown rs).countP_le_length (p := (bound ≤ ·))
  rcases keepOrDrop_cases h k keep highest with ⟨all, kept⟩ | ⟨c, hc, kept⟩
  · -- nothing is left
    rw [kept, shown_map_discardIf fun _ => true]
    rw [List.getElem?_eq_none_iff, List.length_mergeSort] at all
    simp only [Bool.not_true, List.filter_false, List.countP_nil]
    split <;> omega
  · -- `missing` of those that show the number at the cut go, after all those before it
    obtain ⟨before, upTo⟩ := countP_of_pairwise (ordered_refl _) (pairwise_mergeSort _ _) hc
    rw [(List.mergeSort_perm _ _).countP_eq] at before upTo
    set gone := quota keep k (shown rs).length
    set front := (shown rs).countP fun a => !ordered (keep == highest) c a
    have enough : gone - front ≤ (shown rs).count c := by
      have := countP_ordered (keep == highest) c (shown rs)
      omega
    have stay : shown (rs.map (discardIf fun r => !ordered (keep == highest) c r.points))
        = (shown rs).filter (ordered (keep == highest) c) := by
      simp [shown_map_discardIf fun a => !ordered (keep == highest) c a]
    have ties := @countP_discardTies _ c (gone - front) (bound ≤ ·)
      (natural_map_discardIf _ h) (by rwa [stay, List.count_filter (ordered_refl _ c)])
    rw [kept]
    rw [stay, countP_filter_ordered bound before upTo] at ties
    simp only [decide_eq_true_eq] at ties
    exact Nat.add_right_cancel ties

end

/-! ## Comparing hands -/

/-- There are as many numbers in both hands, and at least as many of the second one reach any
bound. -/
structure Below (rs ss : List DieResult) : Prop where
  natural : ∀ r ∈ rs, r.Natural
  natural_above : ∀ r ∈ ss, r.Natural
  length : (shown rs).length = (shown ss).length
  reach : ∀ bound, (shown rs).countP (bound ≤ ·) ≤ (shown ss).countP (bound ≤ ·)

theorem leftOf_le (keep highest : Bool) (k len : ℕ) {n m : ℕ} (h : n ≤ m) :
    leftOf keep highest k len n ≤ leftOf keep highest k len m := by
  unfold leftOf
  split <;> omega

theorem countP_zero_le (ns : List ℕ) : ns.countP (0 ≤ ·) = ns.length := by simp

/-- The sum of numbers counts for every bound how many go beyond it. -/
theorem sum_eq_sum_countP {ns : List ℕ} {top : ℕ} (h : ∀ n ∈ ns, n ≤ top) :
    ns.sum = ∑ bound ∈ Finset.range top, ns.countP (bound + 1 ≤ ·) := by
  have one (n top : ℕ) :
      ∑ bound ∈ Finset.range top, (if bound + 1 ≤ n then 1 else 0) = min n top := by
    induction top with
    | zero => simp
    | succ top ih =>
      rw [Finset.sum_range_succ, ih]
      split <;> omega
  induction ns with
  | nil => simp
  | cons n ns ih =>
    obtain ⟨hn, hns⟩ := List.forall_mem_cons.1 h
    simp only [List.countP_cons, decide_eq_true_eq, Finset.sum_add_distrib, one, List.sum_cons,
      ih hns]
    omega

namespace Below

variable {rs ss : List DieResult}

theorem refl (h : ∀ r ∈ rs, r.Natural) : Below rs rs := ⟨h, h, rfl, fun _ => Nat.le_refl _⟩

/-- **Keeping and dropping is monotone.** -/
theorem keepOrDrop (h : Below rs ss) (k : ℕ) (keep highest : Bool) :
    Below (keepOrDrop (.int k) keep highest rs).state
      (keepOrDrop (.int k) keep highest ss).state where
  natural := by
    obtain ⟨ts, kept, natural⟩ := natural_keepOrDrop h.natural k keep highest
    rwa [kept]
  natural_above := by
    obtain ⟨ts, kept, natural⟩ := natural_keepOrDrop h.natural_above k keep highest
    rwa [kept]
  length := by
    rw [← countP_zero_le, ← countP_zero_le (shown (DieResult.keepOrDrop _ _ _ ss).state),
      countP_keepOrDrop h.natural, countP_keepOrDrop h.natural_above, countP_zero_le,
      countP_zero_le, h.length]
  reach := by
    intro bound
    rw [countP_keepOrDrop h.natural, countP_keepOrDrop h.natural_above, h.length]
    exact leftOf_le _ _ _ _ (h.reach bound)

/-- **The total is monotone.** -/
theorem sum_le (h : Below rs ss) : (shown rs).sum ≤ (shown ss).sum := by
  obtain ⟨top, low, high⟩ : ∃ top, (∀ n ∈ shown rs, n ≤ top) ∧ ∀ n ∈ shown ss, n ≤ top := by
    refine ⟨(shown rs).sum + (shown ss).sum, ?_, ?_⟩
    · intro n hn
      exact Nat.le_add_right_of_le (List.single_le_sum (fun _ _ => Nat.zero_le _) n hn)
    · intro n hn
      exact Nat.le_add_left_of_le (List.single_le_sum (fun _ _ => Nat.zero_le _) n hn)
  rw [sum_eq_sum_countP low, sum_eq_sum_countP high]
  exact Finset.sum_le_sum fun bound _ => h.reach (bound + 1)

/-- Results that show numbers side by side. -/
theorem of_forall₂ {ns ms : List ℕ} (h : List.Forall₂ (· ≤ ·) ns ms) :
    Below (ns.map ofPoints) (ms.map ofPoints) where
  natural := List.forall_mem_map.2 fun n _ => natural_ofPoints n
  natural_above := List.forall_mem_map.2 fun n _ => natural_ofPoints n
  length := by
    rw [shown_map_ofPoints, shown_map_ofPoints]
    exact h.length_eq
  reach := by
    intro bound
    rw [shown_map_ofPoints, shown_map_ofPoints]
    induction h with
    | nil => exact Nat.le_refl _
    | @cons n m ns ms hnm _ ih =>
      have one : (if bound ≤ n then 1 else 0) ≤ if bound ≤ m then 1 else 0 := by
        split <;> split <;> omega
      simp only [List.countP_cons, decide_eq_true_eq]
      omega

end Below

end DiceFormula.DieResult
