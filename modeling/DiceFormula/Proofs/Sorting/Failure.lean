import DiceFormula.Proofs.Fallible
import DiceFormula.Sorting.Pending

/-!
# What can go wrong in sorting

Sorting by runs compares items and moves them, and does nothing else. So the only failures are those
of comparisons, and what comes out are items that went in (`Sorting.outcome_sort`). This holds of
every comparison, be it an order or not: the searches and merges keep to the items that they are
given, one function after the other.
-/

namespace DiceFormula

namespace Sorting

variable {α ε : Type} {P : α → Prop} {F : ε → Prop}

/-- A computation gives an answer or fails as `F` says. -/
abbrev Answers (F : ε → Prop) {β : Type} : Except ε β → Prop := Outcome (fun _ => True) F

/-- Items with the property `P` can be judged by the test. -/
abbrev Judges (P : α → Prop) (F : ε → Prop) (test : α → Except ε Bool) : Prop :=
  ∀ a, P a → Answers F (test a)

/-- Items with the property `P` can be compared. -/
abbrev Compares (P : α → Prop) (F : ε → Prop) (below : α → α → Except ε Bool) : Prop :=
  ∀ a b, P a → P b → Answers F (below a b)

/-! ## Searching -/

theorem Judges.fails {test : α → Except ε Bool} (h : Judges P F test) :
    Judges P F (Sorting.fails test) := fun a ha => (h a ha).bind fun _ _ => trivial

theorem answers_bisect {test : α → Except ε Bool} (h : Judges P F test) {as : List α}
    (has : ∀ a ∈ as, P a) (fuel : Nat) :
    ∀ low high, Answers F (bisect test as fuel low high) := by
  induction fuel with
  | zero => exact fun _ _ => trivial
  | succ fuel ih =>
    intro low high
    unfold bisect
    dsimp only
    split
    · next a ha =>
      split
      · refine (h a (has a (List.mem_of_getElem? ha))).bind fun passed _ => ?_
        cases passed <;> exact ih _ _
      · trivial
    · trivial

theorem answers_widen {test : Nat → Except ε Bool} (h : ∀ i, Answers F (test i)) (limit fuel : Nat) :
    ∀ last next, Answers F (widen test limit fuel last next) := by
  induction fuel with
  | zero => exact fun _ _ => trivial
  | succ fuel ih =>
    intro last next
    unfold widen
    split
    · refine (h next).bind fun passed _ => ?_
      cases passed
      · trivial
      · exact ih _ _
    · trivial

theorem answers_boundary {test : α → Except ε Bool} (h : Judges P F test) {as : List α}
    (has : ∀ a ∈ as, P a) (start : Nat) : Answers F (boundary test as start) := by
  have at_place (i : Nat) : Answers F ((as[i]?.map test).getD (.ok false)) := by
    cases ha : as[i]? with
    | none => trivial
    | some a => exact h a (has a (List.mem_of_getElem? ha))
  unfold boundary
  dsimp only
  split
  · refine (at_place start).bind fun passed _ => ?_
    cases passed
    · refine (answers_widen (fun i => ?_) _ _ _ _).bind fun _ _ => answers_bisect h has _ _ _
      exact (at_place _).bind fun _ _ => trivial
    · exact (answers_widen (fun i => at_place _) _ _ _ _).bind fun _ _ =>
        answers_bisect h has _ _ _
  · trivial

section

variable {below : α → α → Except ε Bool} (h : Compares P F below)

include h

/-! ## Runs -/

/-- Two parts of what is given. -/
abbrev Parts (P : α → Prop) (p : List α × List α) : Prop := (∀ a ∈ p.1, P a) ∧ ∀ a ∈ p.2, P a

theorem outcome_takeRun (falling : Bool) {last : α} (hl : P last) {as : List α}
    (has : ∀ a ∈ as, P a) : Outcome (Parts P) F (takeRun below falling last as) := by
  induction as generalizing last with
  | nil => exact ⟨List.forall_mem_nil P, List.forall_mem_nil P⟩
  | cons a as ih =>
    obtain ⟨ha, rest⟩ := List.forall_mem_cons.1 has
    unfold takeRun
    refine (h a last ha hl).bind fun lower _ => ?_
    split
    · exact (ih ha rest).bind fun p hp => ⟨List.forall_mem_cons.2 ⟨ha, hp.1⟩, hp.2⟩
    · exact ⟨List.forall_mem_nil P, has⟩

theorem outcome_frontRun {as : List α} (has : ∀ a ∈ as, P a) :
    Outcome (Parts P) F (frontRun below as) := by
  unfold frontRun
  split
  · next a b as =>
    obtain ⟨ha, rest⟩ := List.forall_mem_cons.1 has
    obtain ⟨hb, rest⟩ := List.forall_mem_cons.1 rest
    refine (h b a hb ha).bind fun falling _ => ?_
    refine (outcome_takeRun h falling hb rest).bind fun p hp => ?_
    have run := List.forall_mem_cons.2 ⟨ha, List.forall_mem_cons.2 ⟨hb, hp.1⟩⟩
    refine ⟨?_, hp.2⟩
    cases falling
    · exact run
    · exact fun c hc => run c (List.mem_reverse.1 hc)
  · exact ⟨has, List.forall_mem_nil P⟩

theorem outcome_insert {as : List α} (has : ∀ a ∈ as, P a) {a : α} (ha : P a) :
    Outcome (fun bs => ∀ b ∈ bs, P b) F (insert below as a) := by
  have judges : Judges P F (below a) := fun b hb => h a b ha hb
  refine (answers_bisect judges.fails has _ _ _).bind fun i _ => ?_
  refine List.forall_mem_append.2 ⟨fun b hb => has b (List.mem_of_mem_take hb), ?_⟩
  exact List.forall_mem_cons.2 ⟨ha, fun b hb => has b (List.mem_of_mem_drop hb)⟩

theorem outcome_nextRun (least : Nat) {as : List α} (has : ∀ a ∈ as, P a) :
    Outcome (Parts P) F (nextRun below least as) := by
  refine (outcome_frontRun h has).bind ?_
  rintro ⟨run, rest⟩ ⟨hrun, hrest⟩
  refine (Outcome.foldlM (I := fun run => ∀ a ∈ run, P a) hrun fun run hrun a ha => ?_).bind
    fun run hrun => ?_
  · exact outcome_insert h hrun (hrest a (List.mem_of_mem_take ha))
  · exact ⟨hrun, fun a ha => hrest a (List.mem_of_mem_drop ha)⟩

end

/-! ## Merging -/

namespace Merging

/-- All items have the property `P`. -/
structure All (P : α → Prop) (m : Merging α) : Prop where
  placed : ∀ a ∈ m.placed, P a
  shorter : ∀ a ∈ m.shorter, P a
  longer : ∀ a ∈ m.longer, P a

theorem All.items {m : Merging α} (h : m.All P) : ∀ a ∈ m.items, P a := by
  unfold Merging.items
  rw [List.forall_mem_append, List.forall_mem_append]
  exact ⟨⟨fun a ha => h.placed a (List.mem_reverse.1 ha), h.longer⟩, h.shorter⟩

/-- The first items of the shorter run are placed. -/
theorem All.takeShorter {m : Merging α} (h : m.All P) (n : Nat) :
    All P { m with
      placed := (m.shorter.take n).reverse ++ m.placed
      shorter := m.shorter.drop n } where
  placed := List.forall_mem_append.2
    ⟨fun a ha => h.shorter a (List.mem_of_mem_take (List.mem_reverse.1 ha)), h.placed⟩
  shorter := fun a ha => h.shorter a (List.mem_of_mem_drop ha)
  longer := h.longer

/-- The first items of the longer run are placed. -/
theorem All.takeLonger {m : Merging α} (h : m.All P) (n : Nat) :
    All P { m with
      placed := (m.longer.take n).reverse ++ m.placed
      longer := m.longer.drop n } where
  placed := List.forall_mem_append.2
    ⟨fun a ha => h.longer a (List.mem_of_mem_take (List.mem_reverse.1 ha)), h.placed⟩
  shorter := h.shorter
  longer := fun a ha => h.longer a (List.mem_of_mem_drop ha)

end Merging

namespace Side

variable {side : Side α ε} (h : Compares P F side.below)

include h

theorem answers_prefers {a b : α} (ha : P a) (hb : P b) : Answers F (side.prefers a b) := by
  unfold prefers
  split
  · exact h b a hb ha
  · exact h a b ha hb

omit h in
theorem answers_leading {test : α → Except ε Bool} (ht : Judges P F test) {as : List α}
    (has : ∀ a ∈ as, P a) : Answers F (side.leading test as) := by
  unfold leading
  split
  · refine (answers_boundary ht.fails (fun a ha => has a (List.mem_reverse.1 ha)) _).bind ?_
    exact fun _ _ => trivial
  · exact answers_boundary ht has 0

theorem outcome_placeSingly (patience : Nat) (placed : List α) (wins losses : Nat)
    (as bs : List α) (hp : ∀ a ∈ placed, P a) (has : ∀ a ∈ as, P a) (hbs : ∀ b ∈ bs, P b) :
    Outcome (Merging.All P) F (side.placeSingly patience placed wins losses as bs) := by
  fun_induction side.placeSingly patience placed wins losses as bs with
  | case1 placed wins losses a a' as b bs ih ih' =>
    obtain ⟨ha, rest⟩ := List.forall_mem_cons.1 has
    obtain ⟨hb, hrest⟩ := List.forall_mem_cons.1 hbs
    refine (answers_prefers h hb ha).bind fun won _ => ?_
    split <;> split
    · exact ⟨List.forall_mem_cons.2 ⟨hb, hp⟩, has, hrest⟩
    · exact ih (List.forall_mem_cons.2 ⟨hb, hp⟩) has hrest
    · exact ⟨List.forall_mem_cons.2 ⟨ha, hp⟩, rest, hbs⟩
    · exact ih' (List.forall_mem_cons.2 ⟨ha, hp⟩) rest hbs
  | case2 => exact ⟨hp, has, hbs⟩

theorem outcome_placeShorter {m : Merging α} (hm : m.All P) :
    Outcome (fun p => p.2.All P) F (side.placeShorter m) := by
  unfold placeShorter
  split
  · exact hm
  · next b bs longer =>
    obtain ⟨hb, rest⟩ := List.forall_mem_cons.1 (longer ▸ hm.longer)
    have judges : Judges P F (side.prefers b) := fun a ha => answers_prefers h hb ha
    refine (answers_leading judges.fails hm.shorter).bind fun n _ => ?_
    have taken := hm.takeShorter n
    show Merging.All P (if _ then _ else _)
    split
    · exact taken
    · exact ⟨List.forall_mem_cons.2 ⟨hb, taken.placed⟩, taken.shorter, rest⟩

theorem outcome_placeLonger {m : Merging α} (hm : m.All P) :
    Outcome (fun p => p.2.All P) F (side.placeLonger m) := by
  unfold placeLonger
  split
  · exact hm
  · next a as shorter =>
    obtain ⟨ha, rest⟩ := List.forall_mem_cons.1 (shorter ▸ hm.shorter)
    have judges : Judges P F (side.prefers · a) := fun b hb => answers_prefers h hb ha
    refine (answers_leading judges hm.longer).bind fun n _ => ?_
    have taken := hm.takeLonger n
    show Merging.All P (if _ then _ else _)
    split
    · exact taken
    · exact ⟨List.forall_mem_cons.2 ⟨ha, taken.placed⟩, rest, taken.longer⟩

theorem outcome_placeStretches (fuel : Nat) :
    ∀ (patience : Nat) {m : Merging α}, m.All P →
      Outcome (fun p => p.2.All P) F (side.placeStretches fuel patience m) := by
  induction fuel with
  | zero => exact fun _ _ hm => hm
  | succ fuel ih =>
    -- a round, from whichever run it takes the first stretch
    have round {one two : Merging α → Except ε (Nat × Merging α)}
        (hone : ∀ {m : Merging α}, m.All P → Outcome (fun p => p.2.All P) F (one m))
        (htwo : ∀ {m : Merging α}, m.All P → Outcome (fun p => p.2.All P) F (two m))
        (patience : Nat) {m : Merging α} (hm : m.All P) :
        Outcome (fun p => p.2.All P) F (do
          let p ← one m
          if p.2.isSettled then return (patience, p.2)
          let q ← two p.2
          if q.2.isSettled then return (patience, q.2)
          if longStretch ≤ p.1 || longStretch ≤ q.1 then side.placeStretches fuel patience q.2
          else return (patience + 1, q.2)) := by
      refine (hone hm).bind ?_
      rintro ⟨p, m⟩ hm
      dsimp only
      split
      · exact hm
      · refine (htwo hm).bind ?_
        rintro ⟨q, m⟩ hm
        dsimp only
        split
        · exact hm
        · split
          · exact ih _ hm
          · exact hm
    intro patience m hm
    obtain ⟨below, atEnd⟩ := side
    unfold placeStretches
    cases atEnd
    · exact round (outcome_placeShorter h) (outcome_placeLonger h) _ hm
    · exact round (outcome_placeLonger h) (outcome_placeShorter h) _ hm

theorem outcome_settle (fuel : Nat) :
    ∀ (patience : Nat) {m : Merging α}, m.All P →
      Outcome (fun p => p.2.All P) F (side.settle fuel patience m) := by
  induction fuel with
  | zero => exact fun _ _ hm => hm
  | succ fuel ih =>
    intro patience m hm
    unfold settle
    refine (outcome_placeSingly h _ _ _ _ _ _ hm.placed hm.shorter hm.longer).bind fun m hm => ?_
    split
    · exact hm
    · exact (outcome_placeStretches h _ _ hm).bind fun p hp => ih _ hp

theorem outcome_merged (patience : Nat) {as bs : List α} (has : ∀ a ∈ as, P a)
    (hbs : ∀ b ∈ bs, P b) :
    Outcome (fun p => ∀ a ∈ p.2, P a) F (side.merged patience as bs) := by
  unfold merged
  split
  · exact has
  · obtain ⟨hb, rest⟩ := List.forall_mem_cons.1 hbs
    have start : Merging.All P ⟨[_], as, _⟩ := ⟨List.forall_mem_singleton.2 hb, has, rest⟩
    exact (outcome_settle h _ patience start).bind fun p hp => hp.items

end Side

section

variable {below : α → α → Except ε Bool} (h : Compares P F below)

include h

theorem outcome_merge (patience : Nat) {as bs : List α} (has : ∀ a ∈ as, P a)
    (hbs : ∀ b ∈ bs, P b) :
    Outcome (fun p => ∀ a ∈ p.2, P a) F (merge below patience as bs) := by
  have both : ∀ a ∈ as ++ bs, P a := List.forall_mem_append.2 ⟨has, hbs⟩
  unfold merge
  split
  · next last first hlast hfirst =>
    have last_has : P last := has last (List.mem_of_getLast? hlast)
    have first_has : P first := hbs first (List.mem_of_head? hfirst)
    have fromFront : Judges P F (below first) := fun a ha => h first a first_has ha
    have fromBack : Judges P F (below · last) := fun a ha => h a last ha last_has
    refine (answers_boundary fromFront.fails has 0).bind fun i _ => ?_
    split
    · exact both
    · refine (answers_boundary fromBack hbs _).bind fun j _ => ?_
      have front : ∀ a ∈ as.drop i, P a := fun a ha => has a (List.mem_of_mem_drop ha)
      have back : ∀ b ∈ bs.take j, P b := fun b hb => hbs b (List.mem_of_mem_take hb)
      have whole {middle : List α} (hm : ∀ a ∈ middle, P a) :
          ∀ a ∈ as.take i ++ middle ++ bs.drop j, P a := by
        refine List.forall_mem_append.2 ⟨List.forall_mem_append.2 ⟨?_, hm⟩, ?_⟩
        · exact fun a ha => has a (List.mem_of_mem_take ha)
        · exact fun b hb => hbs b (List.mem_of_mem_drop hb)
      dsimp only
      split
      · exact (Side.outcome_merged h patience front back).bind fun p hp => whole hp
      · have merged := @Side.outcome_merged _ _ _ _ ⟨below, true⟩ h patience _ _
          (fun b hb => back b (List.mem_reverse.1 hb)) fun a ha => front a (List.mem_reverse.1 ha)
        exact merged.bind fun p hp => whole fun a ha => hp a (List.mem_reverse.1 ha)
  · exact both

/-! ## Waiting runs -/

/-- All items of some runs have the property `P`. -/
abbrev RunsOf (P : α → Prop) (runs : List (Run α)) : Prop := ∀ run ∈ runs, ∀ a ∈ run.items, P a

theorem outcome_mergeDeeper (depth patience : Nat) (runs : List (Run α)) (hr : RunsOf P runs) :
    Outcome (fun p => RunsOf P p.2) F (mergeDeeper below depth patience runs) := by
  fun_induction mergeDeeper below depth patience runs with
  | case1 patience last run runs deeper ih =>
    obtain ⟨hl, rest⟩ := List.forall_mem_cons.1 hr
    obtain ⟨hrun, rest⟩ := List.forall_mem_cons.1 rest
    refine (outcome_merge h patience hrun hl).bind fun p hp => ?_
    exact ih _ _ (List.forall_mem_cons.2 ⟨hp, rest⟩)
  | case2 patience last run runs _ =>
    obtain ⟨hl, rest⟩ := List.forall_mem_cons.1 hr
    exact List.forall_mem_cons.2 ⟨hl, rest⟩
  | case3 patience last => exact List.forall_mem_singleton.2 (List.forall_mem_singleton.1 hr)
  | case4 => exact List.forall_mem_nil _

theorem outcome_mergeAll (patience : Nat) (runs : List (Run α)) (hr : RunsOf P runs) :
    Outcome (fun as => ∀ a ∈ as, P a) F (mergeAll below patience runs) := by
  fun_induction mergeAll below patience runs with
  | case1 patience last run first runs shorter ih =>
    obtain ⟨hl, rest⟩ := List.forall_mem_cons.1 hr
    obtain ⟨hrun, rest⟩ := List.forall_mem_cons.1 rest
    obtain ⟨hf, rest⟩ := List.forall_mem_cons.1 rest
    refine (outcome_merge h patience hf hrun).bind fun p hp => ?_
    exact ih _ _ (List.forall_mem_cons.2 ⟨hl, List.forall_mem_cons.2 ⟨hp, rest⟩⟩)
  | case2 patience last run first runs _ ih =>
    obtain ⟨hl, rest⟩ := List.forall_mem_cons.1 hr
    obtain ⟨hrun, rest⟩ := List.forall_mem_cons.1 rest
    refine (outcome_merge h patience hrun hl).bind fun p hp => ?_
    exact ih _ _ (List.forall_mem_cons.2 ⟨hp, rest⟩)
  | case3 patience last run =>
    obtain ⟨hl, rest⟩ := List.forall_mem_cons.1 hr
    exact (outcome_merge h patience (List.forall_mem_singleton.1 rest) hl).bind fun p hp => hp
  | case4 patience last => exact hr last List.mem_cons_self
  | case5 => exact List.forall_mem_nil _

theorem outcome_collect (n fuel : Nat) :
    ∀ (start patience : Nat) {runs : List (Run α)} {rest : List α}, RunsOf P runs →
      (∀ a ∈ rest, P a) →
      Outcome (fun as => ∀ a ∈ as, P a) F (collect below n fuel start patience runs rest) := by
  induction fuel with
  | zero => exact fun _ _ _ _ hr _ => outcome_mergeAll h _ _ hr
  | succ fuel ih =>
    intro start patience runs rest hr hrest
    unfold collect
    split
    · exact outcome_mergeAll h _ _ hr
    · refine (outcome_nextRun h _ hrest).bind ?_
      rintro ⟨items, rest⟩ ⟨hitems, hrest⟩
      refine (outcome_mergeDeeper h _ _ _ hr).bind fun p hp => ?_
      exact ih _ _ (List.forall_mem_cons.2 ⟨hitems, hp⟩) hrest

/-- **Sorting fails only as a comparison of two items fails**, and gives back items of those it was
given. -/
theorem outcome_sort {as : List α} (has : ∀ a ∈ as, P a) :
    Outcome (fun bs => ∀ b ∈ bs, P b) F (sort below as) :=
  outcome_collect h _ _ _ _ (List.forall_mem_nil _) has

end

end Sorting

end DiceFormula
