import DiceFormula.Proofs.Result.Selection

/-!
# Keeping and dropping by rank

Nowhere do keeping and dropping put the results in order: they look for the face at the cut, discard
what lies beyond it, and then go through the results that tie with it. Where all faces are integers
this comes to the same as ranking the active results by a stable sort, and discarding the first ones
of these (`DieResult.keepOrDrop_eq_discardAt`). How many they are is what is not to be kept, or what
is to be dropped, but no less than none and no more than all.
-/

namespace DiceFormula.DieResult

/-! ## The beginning of a stable sort -/

section

variable {α : Type} {le : α → α → Bool}

/-- A list in which what passes a test comes first is what passes it and then what does not. -/
theorem filter_append_filter_not {p : α → Bool} :
    ∀ {as : List α}, as.Pairwise (fun a b => p b = true → p a = true) →
      as.filter p ++ as.filter (!p ·) = as
  | [], _ => rfl
  | a :: as, first => by
    obtain ⟨head, rest⟩ := List.pairwise_cons.1 first
    by_cases passed : p a = true
    · rw [List.filter_cons_of_pos passed, List.filter_cons_of_neg (by simp [passed]),
        List.cons_append, filter_append_filter_not rest]
    · have none : ∀ b ∈ as, ¬p b = true := fun b hb hpb => passed (head b hb hpb)
      have all : as.filter (!p ·) = as := List.filter_eq_self.2 (by simpa using none)
      rw [List.filter_cons_of_neg passed, List.filter_eq_nil_iff.2 none,
        List.filter_cons_of_pos (by simpa using passed), all, List.nil_append]

/-- A stable sort leaves what ties with an item as it came. -/
theorem filter_mergeSort (trans : ∀ a b c, le a b = true → le b c = true → le a c = true)
    (total : ∀ a b, (le a b || le b a) = true) (c : α) (as : List α) :
    (as.mergeSort le).filter (fun a => le a c && le c a)
      = as.filter fun a => le a c && le c a := by
  set ties := fun a => le a c && le c a
  have ordered : (as.filter ties).Pairwise fun a b => le a b = true := by
    refine List.pairwise_of_forall_mem_list ?_
    intro a ha b hb
    have ha := (Bool.and_eq_true_iff.1 (List.mem_filter.1 ha).2).1
    have hb := (Bool.and_eq_true_iff.1 (List.mem_filter.1 hb).2).2
    exact trans a c b ha hb
  have within := (List.sublist_mergeSort trans total ordered List.filter_sublist).filter ties
  simp only [List.filter_filter, Bool.and_self] at within
  exact (within.eq_of_length ((List.mergeSort_perm as le).filter ties).length_eq.symm).symm

/-- What a stable sort puts in front of a place: everything before the item that stands there, and
the first ones of those that tie with it. -/
theorem take_mergeSort (trans : ∀ a b c, le a b = true → le b c = true → le a c = true)
    (total : ∀ a b, (le a b || le b a) = true) {as : List α} {k : ℕ} {c : α}
    (place : (as.mergeSort le)[k]? = some c) :
    (as.mergeSort le).take k
      = (as.mergeSort le).filter (fun a => !le c a)
        ++ (as.filter fun a => le a c && le c a).take (k - as.countP fun a => !le c a) := by
  have refl (a : α) : le a a = true := by simpa using total a a
  have perm := List.mergeSort_perm as le
  have inOrder := List.pairwise_mergeSort trans total as
  obtain ⟨before, upTo⟩ := countP_of_pairwise refl inOrder place
  rw [← filter_mergeSort trans total, ← perm.countP_eq]
  set sorted := as.mergeSort le
  -- in front stands what comes before `c`, behind it what ties with `c`, and then all the rest
  have front : sorted.filter (fun a => !le c a) ++ sorted.filter (le c) = sorted := by
    have split := filter_append_filter_not (p := fun a => !le c a) (inOrder.imp ?_)
    · simpa only [Bool.not_not] using split
    · intro a b hab hb
      rw [Bool.not_eq_true', Bool.eq_false_iff] at hb ⊢
      exact fun ha => hb (trans c a b ha hab)
  have middle : sorted.filter (fun a => le a c && le c a)
      ++ (sorted.filter (le c)).filter (fun a => !le a c) = sorted.filter (le c) := by
    have split := filter_append_filter_not (p := (le · c))
      ((inOrder.filter (le c)).imp fun {a b} hab hb => trans a b c hab hb)
    rwa [List.filter_filter] at split
  have enough : k - sorted.countP (fun a => !le c a)
      ≤ (sorted.filter fun a => le a c && le c a).length := by
    have apart := sorted.countP_eq_countP_filter_add (le · c) (le c)
    have few := (sorted.filter fun a => !le c a).countP_le_length (p := (le · c))
    rw [List.countP_filter, List.countP_eq_length_filter (p := fun a => le a c && le c a)] at apart
    rw [← List.countP_eq_length_filter] at few
    omega
  calc sorted.take k
      = (sorted.filter (fun a => !le c a) ++ sorted.filter (le c)).take k := by rw [front]
    _ = sorted.filter (fun a => !le c a)
        ++ (sorted.filter (le c)).take (k - sorted.countP fun a => !le c a) := by
      rw [List.take_append, ← List.countP_eq_length_filter, List.take_of_length_le]
      rwa [← List.countP_eq_length_filter]
    _ = _ := by rw [← middle, List.take_append_of_le_length enough]

end

/-! ## Discarding at places -/

/-- Discards the results at some places. -/
def discardAt (places : List ℕ) (rs : List DieResult) : List DieResult :=
  rs.mapIdx fun i r => if i ∈ places then r.discard else r

/-- The places of the results that pass a test. -/
def placesOf (test : DieResult → Bool) (rs : List DieResult) : List ℕ :=
  (rs.zipIdx.filter fun p => test p.1).map (·.2)

section

variable {rs : List DieResult} {test : DieResult → Bool}

theorem mem_placesOf {i : ℕ} :
    i ∈ placesOf test rs ↔ ∃ h : i < rs.length, test rs[i] = true := by
  unfold placesOf
  constructor
  · intro h
    obtain ⟨⟨r, j⟩, hr, rfl⟩ := List.mem_map.1 h
    obtain ⟨there, passed⟩ := List.mem_filter.1 hr
    obtain ⟨within, same⟩ := List.mem_zipIdx' there
    exact ⟨within, by rwa [← same]⟩
  · rintro ⟨within, passed⟩
    refine List.mem_map.2 ⟨(rs[i], i), List.mem_filter.2 ⟨?_, passed⟩, rfl⟩
    rw [List.mk_mem_zipIdx_iff_getElem?, List.getElem?_eq_getElem within]

theorem placesOf_cons (test : DieResult → Bool) (r : DieResult) (rs : List DieResult) :
    placesOf test (r :: rs)
      = (if test r then [0] else []) ++ (placesOf test rs).map (· + 1) := by
  unfold placesOf
  rw [List.zipIdx_cons, List.zipIdx_succ, List.filter_cons, List.filter_map, List.map_map]
  split <;> simp [Function.comp_def]

theorem placesOf_congr {test' : DieResult → Bool} (h : ∀ r ∈ rs, test r = test' r) :
    placesOf test rs = placesOf test' rs := by
  unfold placesOf
  refine congrArg _ (List.filter_congr ?_)
  rintro ⟨r, i⟩ hr
  exact h r (List.fst_mem_of_mem_zipIdx hr)

theorem placesOf_map (test : DieResult → Bool) (f : DieResult → DieResult) (rs : List DieResult) :
    placesOf test (rs.map f) = placesOf (fun r => test (f r)) rs := by
  unfold placesOf
  rw [List.zipIdx_map, List.filter_map, List.map_map]
  rfl

theorem discardAt_perm {is js : List ℕ} (h : is.Perm js) (rs : List DieResult) :
    discardAt is rs = discardAt js rs := by
  unfold discardAt
  simp only [h.mem_iff]

theorem discardAt_discardAt (is js : List ℕ) (rs : List DieResult) :
    discardAt is (discardAt js rs) = discardAt (js ++ is) rs := by
  unfold discardAt
  rw [List.mapIdx_mapIdx]
  refine congrArg (List.mapIdx · rs) ?_
  funext i r
  by_cases hi : i ∈ is <;> by_cases hj : i ∈ js <;> simp [hi, hj, discard]

theorem discardAt_nil (rs : List DieResult) : discardAt [] rs = rs := by
  simp [discardAt, List.mapIdx_eq_iff]

theorem discardAt_zero_cons (is : List ℕ) (r : DieResult) (rs : List DieResult) :
    discardAt (0 :: is.map (· + 1)) (r :: rs) = r.discard :: discardAt is rs := by
  simp [discardAt, List.mapIdx_cons]

theorem discardAt_succ_cons (is : List ℕ) (r : DieResult) (rs : List DieResult) :
    discardAt (is.map (· + 1)) (r :: rs) = r :: discardAt is rs := by
  simp [discardAt, List.mapIdx_cons]

theorem map_discardIf (test : DieResult → Bool) (rs : List DieResult) :
    rs.map (discardIf test) = discardAt (placesOf (fun r => r.isActive && test r) rs) rs := by
  refine List.ext_getElem (by simp [discardAt]) ?_
  intro i hi _
  have within : i < rs.length := by simpa using hi
  simp [discardAt, discardIf, mem_placesOf, within]

/-- The ties that go are the first ones. -/
theorem discardTies_eq_discardAt (cut : Value) (m : ℕ) (rs : List DieResult) :
    discardTies cut m rs
      = discardAt ((placesOf (fun r => r.isActive && r.face.equals cut) rs).take m) rs := by
  fun_induction discardTies cut m rs with
  | case1 rs => rw [List.take_zero, discardAt_nil]
  | case2 m => rfl
  | case3 m r rs tie ih =>
    rw [placesOf_cons, if_pos tie, List.singleton_append, List.take_succ_cons, ← List.map_take,
      discardAt_zero_cons, ih]
  | case4 m r rs other ih =>
    rw [placesOf_cons, if_neg other, List.nil_append, ← List.map_take, discardAt_succ_cons, ih]

end

/-! ## Ranking results -/

/-- The integer that a result shows. -/
def integer (r : DieResult) : ℤ :=
  match r.face.number? with
  | some (.int z) => z
  | _ => 0

/-- The result shows an integer; a truth value counts as one. -/
def Integral (r : DieResult) : Prop := r.face.number? = some (.int r.integer)

/-- Whether the integer of one result may come before that of another one. -/
def inOrder (ascending : Bool) (r s : DieResult) : Bool :=
  if ascending then r.integer ≤ s.integer else s.integer ≤ r.integer

/-- The active results with their places, in the order of the integers they show, and where these tie
in that of the list. -/
def ranked (ascending : Bool) (rs : List DieResult) : List (DieResult × ℕ) :=
  (rs.zipIdx.filter (·.1.isActive)).mergeSort fun a b => inOrder ascending a.1 b.1

/-- The places of the active results in that order. -/
def ranking (ascending : Bool) (rs : List DieResult) : List ℕ := (ranked ascending rs).map (·.2)

theorem inOrder_trans (ascending : Bool) (r s t : DieResult) (h : inOrder ascending r s = true)
    (h' : inOrder ascending s t = true) : inOrder ascending r t = true := by
  unfold inOrder at *
  cases ascending <;> simp only [if_true, Bool.false_eq_true, if_false, decide_eq_true_eq] at * <;>
    omega

theorem inOrder_total (ascending : Bool) (r s : DieResult) :
    (inOrder ascending r s || inOrder ascending s r) = true := by
  unfold inOrder
  cases ascending <;> simp <;> omega

section

variable {rs : List DieResult} {r s : DieResult} {ascending : Bool}

theorem Integral.isNull (h : r.Integral) : r.face.isNull = false := by
  unfold Integral at h
  cases face : r.face with
  | null => simp [face, Value.number?] at h
  | _ => rfl

theorem Integral.beyond (hr : r.Integral) (hs : s.Integral) (ascending : Bool) :
    DieResult.beyond ascending s.face r.face = .ok (!inOrder ascending s r) := by
  rw [DieResult.beyond, hs.isNull, if_neg Bool.false_ne_true, Comparison.holds_of_number? _ hr hs]
  refine congrArg _ (Bool.eq_iff_iff.2 ?_)
  cases ascending <;> simp [inOrder, Comparison.ofNumbers]

theorem Integral.equals (hr : r.Integral) (hs : s.Integral) (ascending : Bool) :
    r.face.equals s.face = (inOrder ascending r s && inOrder ascending s r) := by
  rw [Value.equals_of_number? hr hs, Bool.eq_iff_iff]
  cases ascending <;> simp [inOrder] <;> omega

theorem map_fst_active (rs : List DieResult) :
    (rs.zipIdx.filter (·.1.isActive)).map Prod.fst = activeOf rs := by
  have both := List.filter_map (f := Prod.fst) (p := isActive) (l := rs.zipIdx)
  rw [List.zipIdx_map_fst] at both
  exact both.symm

theorem map_fst_ranked (ascending : Bool) (rs : List DieResult) :
    (ranked ascending rs).map Prod.fst = (activeOf rs).mergeSort (inOrder ascending) := by
  rw [ranked, List.map_mergeSort (s := inOrder ascending) fun _ _ _ _ => rfl, map_fst_active]

theorem ranking_perm (ascending : Bool) (rs : List DieResult) :
    (ranking ascending rs).Perm (placesOf isActive rs) :=
  (List.mergeSort_perm _ _).map _

theorem mem_of_ranked {k i : ℕ} (place : (ranked ascending rs)[k]? = some (s, i)) : s ∈ rs := by
  have there := (List.mergeSort_perm _ _).subset (List.mem_of_getElem? place)
  exact List.fst_mem_of_mem_zipIdx (List.mem_filter.1 there).1

/-- In front of a place of the ranking stand the results that come before the one there, and the
first ones of those that tie with it. -/
theorem take_ranking (h : ∀ r ∈ rs, r.Integral) {k i : ℕ}
    (place : (ranked ascending rs)[k]? = some (s, i)) :
    ((ranking ascending rs).take k).Perm
      (placesOf (fun r => r.isActive && !inOrder ascending s r) rs
        ++ (placesOf (fun r => r.isActive && r.face.equals s.face) rs).take
          (k - (activeOf rs).countP fun r => !inOrder ascending s r)) := by
  have hs := h s (mem_of_ranked place)
  have front := take_mergeSort (fun a b c => inOrder_trans ascending a.1 b.1 c.1)
    (fun a b => inOrder_total ascending a.1 b.1) place
  have count : (rs.zipIdx.filter (·.1.isActive)).countP (fun p => !inOrder ascending s p.1)
      = (activeOf rs).countP fun r => !inOrder ascending s r := by
    rw [← map_fst_active, List.countP_map]
    rfl
  have ties : placesOf (fun r => r.isActive && r.face.equals s.face) rs
      = placesOf (fun r => (inOrder ascending r s && inOrder ascending s r) && r.isActive) rs :=
    placesOf_congr fun r hr => by rw [(h r hr).equals hs ascending, Bool.and_comm]
  rw [ranking, ← List.map_take, ranked, front, List.map_append, List.map_take, count, ties]
  simp only [placesOf, Bool.and_comm (isActive _) (!_), ← List.filter_filter]
  exact (((List.mergeSort_perm _ _).filter _).map _).append_right _

/-- The cut lies at the result that stands behind those that go. -/
theorem cutOf_int (h : ∀ r ∈ rs, r.Integral) (ascending : Bool) (number : ℤ) (keep : Bool) :
    cutOf ascending (.int number) keep rs
      = .ok (quota keep number (activeOf rs).length,
          ((ranked ascending rs)[quota keep number (activeOf rs).length]?.map
            (·.1.face)).getD .null) := by
  have active : ∀ r ∈ activeOf rs, r.Integral := fun r hr => h r (List.mem_of_mem_filter hr)
  have sorted := sorted_map (·.face) integer
    (fun r hr => by rw [Value.isLinear, active r hr]; simp)
    (fun r hr s hs => by
      rw [Value.numberBelow, active r hr, active s hs]
      exact Number.lt_int _ _) ascending
  have order : (fun r s : DieResult => if ascending then decide (r.integer ≤ s.integer)
      else decide (s.integer ≤ r.integer)) = inOrder ascending := rfl
  rw [cutOf, facesOf, sorted, order, ← map_fst_ranked, bind_ok, List.length_map, List.length_map,
    ← List.length_map (f := Prod.fst), map_fst_ranked, List.length_mergeSort, discardCount_int,
    bind_ok, ← map_fst_ranked, List.map_map, List.getElem?_map]
  rfl

end

end DiceFormula.DieResult
