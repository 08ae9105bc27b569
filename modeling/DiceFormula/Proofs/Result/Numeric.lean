import DiceFormula.Proofs.Arithmetic.Failure
import DiceFormula.Proofs.Result.Discarding
import DiceFormula.Proofs.Sorting.Failure
import DiceFormula.Term.Text

/-!
# Results that are numbers

Dice show integers, and the members of a pool count by their totals, which are numbers. Modifiers
leave results that are numbers again (`Modifier.Sound`). Keeping and dropping cannot fail then, since
numbers can be compared and sorted (`DieResult.yields_keepOrDrop`); what compares by a text may find
that the text is no comparison, which is an error of the library's own. So the results can be added
up, unless one of them is too large for a double (`DieResult.settles_total`).
-/

namespace DiceFormula

/-! ## Changes -/

namespace Change

variable {σ α : Type} {P : α → Prop} {F : Error → Prop}

/-- What a change leaves satisfies `P`, also if it is cut short, and then by an error that satisfies
`F`. -/
structure Yields (P : σ → Prop) (F : Error → Prop) (c : Change σ) : Prop where
  state : P c.state
  fault : ∀ e ∈ c.fault, F e

theorem Yields.whole {P : σ → Prop} {s : σ} (h : P s) : Yields P F { state := s } :=
  ⟨h, fun e he => absurd he (Option.not_mem_none e)⟩

theorem Yields.mono {P : σ → Prop} {G : Error → Prop} {c : Change σ} (h : c.Yields P F)
    (hFG : ∀ e, F e → G e) : c.Yields P G := ⟨h.state, fun e he => hFG e (h.fault e he)⟩

theorem yields_ofExcept {a : α} {x : Except Error α} (ha : P a) (hx : Outcome P F x) :
    (ofExcept a x).Yields P F := by
  cases x with
  | ok b => exact .whole hx
  | error e =>
    refine ⟨ha, ?_⟩
    rintro _ ⟨⟩
    exact hx

/-- What every item keeps all of them keep. -/
theorem yields_each {f : α → Change α} (hf : ∀ a, P a → (f a).Yields P F) {as : List α}
    (has : ∀ a ∈ as, P a) : (each f as).Yields (fun bs => ∀ b ∈ bs, P b) F := by
  induction as with
  | nil => exact .whole has
  | cons a as ih =>
    obtain ⟨ha, has⟩ := List.forall_mem_cons.1 has
    obtain ⟨state, fault⟩ := hf a ha
    rw [each]
    rcases h : f a with ⟨b, _ | e⟩
    · rw [h] at state
      exact ⟨List.forall_mem_cons.2 ⟨state, (ih has).state⟩, (ih has).fault⟩
    · rw [h] at state fault
      exact ⟨List.forall_mem_cons.2 ⟨state, has⟩, fault⟩

end Change

/-! ## Sorting -/

/-- **Numbers can be sorted**, be they defined or not. -/
theorem Value.outcome_sortedOn {β : Type} (ascending : Bool) {value : β → Value} {bs : List β}
    (h : ∀ b ∈ bs, (value b).IsNumber) :
    Outcome (fun cs => ∀ c ∈ cs, c ∈ bs) (fun _ => False) (sortedOn ascending value bs) := by
  have compares : Sorting.Compares (· ∈ bs) (fun _ : Error => False)
      fun a b => Comparison.lt.holds (value a) (value b) := by
    intro a b ha hb
    obtain ⟨met, hm⟩ := Comparison.lt.exists_holds (h a ha) (h b hb)
    dsimp only
    rw [hm]
    trivial
  unfold sortedOn
  dsimp only
  split
  · exact fun c hc => List.mem_mergeSort.1 hc
  · split
    · exact Sorting.outcome_sort compares fun _ hb => hb
    · refine (Sorting.outcome_sort compares fun b hb => List.mem_reverse.1 hb).bind ?_
      exact fun cs hcs c hc => hcs c (List.mem_reverse.1 hc)

namespace DieResult

/-- The face is a number, and so is what the result counts as, if anything. -/
structure IsNumeric (r : DieResult) : Prop where
  face : r.face.IsNumber
  count : r.count = .null ∨ r.count.IsNumber

/-- All results are numbers. -/
abbrev Numeric (rs : List DieResult) : Prop := ∀ r ∈ rs, r.IsNumeric

theorem isNumeric_of_face {v : Value} (h : v.IsNumber) : IsNumeric { face := v } := ⟨h, .inl rfl⟩

theorem IsNumeric.setCount {r s : DieResult} (h : r.IsNumeric) (face : s.face = r.face)
    (count : s.count.IsNumber) : s.IsNumeric := ⟨face ▸ h.face, .inr count⟩

theorem IsNumeric.discard {r : DieResult} (h : r.IsNumeric) : r.discard.IsNumeric :=
  ⟨h.face, h.count⟩

/-! ## Keeping and dropping -/

section

variable {rs : List DieResult}

/-- The cut is a face, unless there is none. -/
theorem outcome_cutOf (ascending : Bool) (number : Int) (keep : Bool) (h : Numeric rs) :
    Outcome (fun p : Nat × Value => p.2 = .null ∨ p.2.IsNumber) (fun _ => False)
      (cutOf ascending (.int number) keep rs) := by
  have faces : ∀ v ∈ facesOf rs, v.IsNumber := by
    intro v hv
    obtain ⟨r, hr, rfl⟩ := List.mem_map.1 hv
    exact (h r (List.mem_of_mem_filter hr)).face
  refine (@Value.outcome_sortedOn _ ascending id _ faces).bind fun vs hvs => ?_
  rw [discardCount_int]
  show vs[quota keep number vs.length]?.getD Value.null = Value.null ∨ _
  cases hv : vs[quota keep number vs.length]? with
  | none => exact .inl rfl
  | some v => exact .inr (faces v (hvs v (List.mem_of_getElem? hv)))

theorem isSingular_of_number {cut : Value} (h : cut = .null ∨ cut.IsNumber) :
    isSingular cut = false := by
  rcases h with rfl | ⟨n, rfl⟩ <;> rfl

theorem yields_discardBeyond (ascending : Bool) {cut : Value} (hc : cut = .null ∨ cut.IsNumber)
    (h : Numeric rs) :
    (discardBeyond ascending cut rs).Yields Numeric fun _ => False := by
  refine Change.yields_each (P := IsNumeric) ?_ h
  intro r hr
  unfold discardOne
  split
  · refine Change.yields_ofExcept hr ?_
    have known : ∃ gone, beyond ascending cut r.face = .ok gone := by
      rcases hc with rfl | ⟨n, rfl⟩
      · exact ⟨true, rfl⟩
      · exact Comparison.exists_holds _ hr.face ⟨n, rfl⟩
    obtain ⟨gone, hg⟩ := known
    rw [hg]
    cases gone with
    | true => exact hr.discard
    | false => exact hr
  · exact .whole hr

theorem numeric_discardTies (cut : Value) (n : Nat) (h : Numeric rs) :
    Numeric (discardTies cut n rs) :=
  forall_of_discards (P := IsNumeric) (fun _ => IsNumeric.discard) (discards_discardTies cut n rs) h

/-- **Keeping and dropping numbers cannot fail.** -/
theorem yields_keepOrDrop (number : Int) (keep highest : Bool) (h : Numeric rs) :
    (keepOrDrop (.int number) keep highest rs).Yields Numeric fun _ => False := by
  have cut := outcome_cutOf (keep == highest) number keep h
  unfold keepOrDrop
  dsimp only
  cases hp : cutOf (keep == highest) (.int number) keep rs with
  | error e =>
    rw [hp] at cut
    exact cut.elim
  | ok p =>
    rw [hp] at cut
    have kept := yields_discardBeyond (keep == highest) cut h
    dsimp only
    rw [isSingular_of_number cut, if_neg Bool.false_ne_true]
    split
    · exact kept
    · exact .whole (numeric_discardTies _ _ kept.state)

/-! ## Counting -/

theorem yields_tally (comparison : String) {target : Value} (ht : target.IsNumber) (m : Marking)
    (h : Numeric rs) :
    (tally (.str comparison) target m rs).Yields Numeric Error.IsOwn := by
  refine Change.yields_each (P := IsNumeric) ?_ h
  intro r hr
  refine Change.yields_ofExcept hr ?_
  refine (Comparison.replies_apply comparison hr.face ht).bind fun met _ => ?_
  exact hr.setCount (by cases m <;> rfl) ⟨_, rfl⟩

theorem outcome_penalize (p : Penalty) {r : DieResult} (hr : r.IsNumeric) :
    Outcome IsNumeric Error.IsOwn (r.penalize p) := by
  unfold penalize
  split
  · cases p with
    | none => exact hr
    | minusOne => exact hr.setCount rfl ⟨_, rfl⟩
    | minusFace =>
      obtain ⟨n, hn⟩ := hr.face
      rw [hn]
      exact hr.setCount hn.symm ⟨n.neg, rfl⟩
  · exact hr

theorem yields_deduct {condition : Option Condition}
    (hc : ∀ c ∈ condition, (∃ text, c.1 = .str text) ∧ c.2.IsNumber) (p : Penalty)
    (h : Numeric rs) : (deduct condition p rs).Yields Numeric Error.IsOwn := by
  refine Change.yields_each (P := IsNumeric) ?_ h
  intro r hr
  have judged : Replies (r.fails condition) := by
    cases condition with
    | none => trivial
    | some c =>
      obtain ⟨comparison, target⟩ := c
      obtain ⟨⟨text, rfl⟩, ht⟩ := hc _ rfl
      exact Comparison.replies_apply text hr.face ht
  unfold deductOne
  cases failed : r.fails condition with
  | error e =>
    rw [failed] at judged
    refine ⟨hr, ?_⟩
    rintro _ ⟨⟩
    exact judged
  | ok b =>
    have marked : IsNumeric (if b then r.fail else r) := by
      split
      · exact ⟨hr.face, hr.count⟩
      · exact hr
    exact Change.yields_ofExcept marked (outcome_penalize p marked)

/-! ## Adding up -/

theorem IsNumeric.value {r : DieResult} (h : r.IsNumeric) : r.value.IsNumber := by
  unfold DieResult.value
  rcases h.count with hc | ⟨n, hc⟩
  · rw [hc]
    exact h.face
  · rw [hc]
    exact ⟨n, rfl⟩

/-- **Results that are numbers can be added up**, unless one is too large for a double. -/
theorem settles_total (h : Numeric rs) : Arithmetic.Settles (total rs) := by
  refine Outcome.foldlM trivial fun sum _ r hr => ?_
  obtain ⟨n, hn⟩ := (h r (List.mem_of_mem_filter hr)).value
  unfold addTo
  rw [hn]
  exact outcome_ofNumeric (Number.computes_add sum n)

end

end DieResult

/-! ## Modifiers -/

namespace Modifier

open DieResult

/-- The modifier leaves results that are numbers, and fails with errors of the library's own. -/
def Sound (f : List DieResult → Outcome) : Prop :=
  ∀ rs, Numeric rs → ∀ c ∈ f rs, c.Yields Numeric Error.IsOwn

theorem sound_keep (text : List Char) : Sound (keep text) := by
  intro rs h c hc
  obtain ⟨r, -, rfl⟩ := Option.map_eq_some_iff.1 hc
  exact (yields_keepOrDrop _ _ _ h).mono fun _ => False.elim

theorem sound_drop (text : List Char) : Sound (drop text) := by
  intro rs h c hc
  obtain ⟨r, -, rfl⟩ := Option.map_eq_some_iff.1 hc
  exact (yields_keepOrDrop _ _ _ h).mono fun _ => False.elim

/-- The target is an integer, or the default if that is a number. -/
theorem sound_count {default : Value} (hd : default = .null ∨ default.IsNumber) (m : Marking)
    (text : List Char) : Sound (count default m text) := by
  intro rs h c hc
  obtain ⟨r, -, hc⟩ := Option.bind_eq_some_iff.1 hc
  dsimp only at hc
  split at hc
  · cases hc
  · next present =>
    obtain rfl := Option.some.inj hc
    refine yields_tally _ ?_ m h
    cases ht : (takeCondition r).2 with
    | some n => exact ⟨_, rfl⟩
    | none =>
      rw [ht] at present
      exact hd.resolve_left fun e => present (by rw [e]; rfl)

theorem sound_deduct (p : Penalty) (text : List Char) : Sound (deduct p text) := by
  intro rs h c hc
  obtain ⟨r, -, rfl⟩ := Option.map_eq_some_iff.1 hc
  refine yields_deduct ?_ p h
  intro condition hcondition
  obtain ⟨n, -, rfl⟩ := Option.map_eq_some_iff.1 hcondition
  exact ⟨⟨_, rfl⟩, _, rfl⟩

/-- A change of every result by itself. -/
theorem sound_map {f : List DieResult → Option (List DieResult)}
    (h : ∀ rs, Numeric rs → ∀ ss ∈ f rs, Numeric ss) :
    Sound fun rs => (f rs).map fun rs => { state := rs } := by
  intro rs hrs c hc
  obtain ⟨ss, hss, rfl⟩ := Option.map_eq_some_iff.1 hc
  exact .whole (h rs hrs ss hss)

theorem numeric_clamp (outside : Int → Int → Bool) (bound : Nat) {rs : List DieResult}
    (h : Numeric rs) : Numeric (clamp outside bound rs) := by
  intro s hs
  obtain ⟨r, hr, rfl⟩ := List.mem_map.1 hs
  split
  · exact (h r hr).setCount rfl ⟨_, rfl⟩
  · exact h r hr

theorem numeric_countFaces (test : Value → Bool) {rs : List DieResult} (h : Numeric rs) :
    Numeric (countFaces test rs) := by
  intro s hs
  obtain ⟨r, hr, rfl⟩ := List.mem_map.1 hs
  exact (h r hr).setCount rfl ⟨_, rfl⟩

theorem sound_minimum (text : List Char) :
    Sound fun rs => (minimum text rs).map fun rs => { state := rs } := by
  refine sound_map fun rs h ss hs => ?_
  obtain ⟨r, -, hs⟩ := Option.bind_eq_some_iff.1 hs
  obtain ⟨n, -, rfl⟩ := Option.map_eq_some_iff.1 hs
  exact numeric_clamp _ n h

theorem sound_maximum (text : List Char) :
    Sound fun rs => (maximum text rs).map fun rs => { state := rs } := by
  refine sound_map fun rs h ss hs => ?_
  obtain ⟨r, -, hs⟩ := Option.bind_eq_some_iff.1 hs
  obtain ⟨n, -, rfl⟩ := Option.map_eq_some_iff.1 hs
  exact numeric_clamp _ n h

theorem sound_parity (even : Bool) :
    Sound fun rs => (some (parity even rs)).map fun rs => { state := rs } := by
  refine sound_map fun rs h ss hs => ?_
  obtain rfl := Option.some.inj hs
  exact numeric_countFaces _ h

theorem sound_callSide (text : List Char) :
    Sound fun rs => (callSide text rs).map fun rs => { state := rs } := by
  refine sound_map fun rs h ss hs => ?_
  unfold callSide at hs
  split at hs
  · rw [← Option.some.inj hs]
    exact numeric_countFaces _ h
  · rw [← Option.some.inj hs]
    exact numeric_countFaces _ h
  · cases hs

end Modifier

end DiceFormula
