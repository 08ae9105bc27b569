import DiceFormula.Proofs.Evaluation.Loops
import DiceFormula.Proofs.Result.Cut

/-!
# One more die for every match

A reroll or an explosion walks over the results, and over those that it adds itself if it is
recursive. For every active result that stands in a comparison to the target it rolls one more die,
up to a limit, and marks the result. What is left of a walk, seen from any place on, is described by
`Dice.Walked`: so many dice are new as there are matches among what is still looked at, and so many
of the matches are marked, the first ones. As the new dice may be looked at themselves, their number
is told in terms of themselves; every round of the walk keeps this (`Dice.meets_rollMatchesFrom`).
-/

namespace DiceFormula

/-! ## Changing the first items that pass a test -/

section

variable {α β : Type} (change : α → α) (test : α → Bool)

/-- Changes the first `n` items that pass a test. -/
def changeFirst : ℕ → List α → List α
  | 0, as => as
  | _ + 1, [] => []
  | n + 1, a :: as =>
    if test a then change a :: changeFirst n as else a :: changeFirst (n + 1) as

variable {change test}

theorem changeFirst_cons_of_neg {a : α} (h : test a = false) (n : ℕ) (as : List α) :
    changeFirst change test n (a :: as) = a :: changeFirst change test n as := by
  cases n <;> simp [changeFirst, h]

/-- What a change keeps is kept of all items. -/
theorem map_changeFirst {f : α → β} (h : ∀ a, f (change a) = f a) (n : ℕ) (as : List α) :
    (changeFirst change test n as).map f = as.map f := by
  fun_induction changeFirst change test n as with
  | case1 | case2 => rfl
  | case3 n a as _ ih => simp [h, ih]
  | case4 n a as _ ih => simp [ih]

/-- Where there are enough items that pass, those behind them are as before. -/
theorem changeFirst_append {n : ℕ} {as : List α} (h : n ≤ as.countP test) (bs : List α) :
    changeFirst change test n (as ++ bs) = changeFirst change test n as ++ bs := by
  fun_induction changeFirst change test n as with
  | case1 as => simp [changeFirst]
  | case2 n => simp at h
  | case3 n a as met ih => simp_all [changeFirst]
  | case4 n a as unmet ih => simp_all [changeFirst]

/-- If nothing passes once it was changed, so many items less pass than before. -/
theorem countP_changeFirst (h : ∀ a, test (change a) = false) (n : ℕ) (as : List α) :
    (changeFirst change test n as).countP test = as.countP test - n := by
  fun_induction changeFirst change test n as with
  | case1 as => rfl
  | case2 n => simp
  | case3 n a as met ih => simp [h, met, ih]
  | case4 n a as unmet ih => simp [unmet, ih]

end

/-- A number, but no more than the limit if there is one. -/
def upTo (limit : Option ℕ) (n : ℕ) : ℕ := limit.elim n (min n)

theorem upTo_succ {limit : Option ℕ} (h : limit ≠ some 0) (n : ℕ) :
    upTo limit (n + 1) = upTo (limit.map (· - 1)) n + 1 := by
  rcases limit with _ | _ | m <;> simp_all [upTo]

theorem upTo_le (limit : Option ℕ) (n : ℕ) : upTo limit n ≤ n := by
  cases limit <;> simp [upTo]

namespace Dice

variable {context : Context} {d : Dice} {faces : Int}

/-! ## Matches -/

/-- Whether a result is active and its face stands in the relation to the target. -/
def isMatch (c : Comparison) (target : Value) (r : DieResult) : Bool :=
  r.isActive && (c.holds r.face target).toOption == some true

theorem isMatch_of_holds {c : Comparison} {target : Value} {r : DieResult} {met : Bool}
    (h : c.holds r.face target = .ok met) : isMatch c target r = (r.isActive && met) := by
  cases met <;> simp [isMatch, h, Except.toOption]

/-- The face is no number, and cannot be compared to the target. -/
def Incomparable (c : Comparison) (target : Value) (r : DieResult) (e : Error) : Prop :=
  r.face.number? = none ∧ c.holds r.face target = .error e

@[simp] theorem face_mark (reroll : Bool) (r : DieResult) : (mark reroll r).face = r.face := by
  cases reroll <;> rfl

theorem face_resultOf (kind : DiceKind) (n : Int) : (resultOf kind n).face = .int n := by
  cases kind <;> rfl

/-- What was rerolled matches no more. -/
theorem isMatch_mark (c : Comparison) (target : Value) (r : DieResult) :
    isMatch c target (mark true r) = false := rfl

/-! ## Walks -/

/-- What may keep a modifier from rolling a die: there are as many as the cap allows already, there
is nothing left to draw, or what was drawn gives no face. -/
inductive Barred (context : Context) (d : Dice) (faces : Int) (h : Hand) : Error → Prop
  | full : h.results.length = context.config.maxDice →
      Barred context d faces h
        (.diceCapReached { d with hand := h }.written context.config.maxDiceText)
  | exhausted : context.mode = .random → Barred context d faces h .drawsExhausted
  | faceless {x : Float} {e : Error} : context.mode = .random →
      faceOfDraw d.kind faces x = .error e → Barred context d faces h e

/-- The number of draws for so many dice. -/
def drawsFor (context : Context) (n : ℕ) : ℕ := if context.mode = .random then n else 0

/-- The results from place `i` on that are looked at, if `new` are to come. -/
def within (reach : Reach) (i : ℕ) (back new : List DieResult) : List DieResult :=
  reach.elim (back ++ new) fun n => back.take (n - i)

section

variable {reach : Reach} {i : ℕ} {r : DieResult} {back new : List DieResult}

theorem within_cons (inside : inReach reach i = true) :
    within reach i (r :: back) new = r :: within reach (i + 1) back new := by
  cases reach with
  | none => rfl
  | some n =>
    obtain ⟨j, rfl⟩ : ∃ j, n = i + 1 + j :=
      Nat.exists_eq_add_of_le (Nat.succ_le_of_lt (by simpa [inReach] using inside))
    simp [within, show i + 1 + j - i = j + 1 by omega, show i + 1 + j - (i + 1) = j by omega]

/-- It makes no difference whether a result stands behind the others already. -/
theorem within_push (known : ∀ n ∈ reach, n ≤ i + back.length) :
    within reach i (back ++ [r]) new = within reach i back (r :: new) := by
  cases reach with
  | none => simp [within]
  | some n =>
    have := known n rfl
    exact List.take_append_of_le_length (by omega)

theorem within_of_not_inReach (outside : inReach reach i = false) :
    within reach i back new = [] := by
  cases reach with
  | none => simp [inReach] at outside
  | some n =>
    have : n ≤ i := by simpa [inReach] using outside
    simp [within, Nat.sub_eq_zero_of_le this]

end

/-- What becomes of the results `back` from place `i` on: for every match among those that are looked
at there is one more die, up to a limit, and as many matches are marked. The new dice show the faces
`ns`. -/
structure Walked (kind : DiceKind) (change : DieResult → DieResult) (test : DieResult → Bool)
    (reach : Reach) (limit : Option ℕ) (i : ℕ) (back : List DieResult) (ns : List Int)
    (results : List DieResult) : Prop where
  count : ns.length = upTo limit ((within reach i back (ns.map (resultOf kind))).countP test)
  results : results = changeFirst change test ns.length (back ++ ns.map (resultOf kind))

namespace Walked

variable {kind : DiceKind} {change : DieResult → DieResult} {test : DieResult → Bool}
  {reach : Reach} {limit : Option ℕ} {i : ℕ} {back ss : List DieResult} {ns : List Int}
  {r : DieResult}

/-- Where nothing is looked at, nothing happens. -/
theorem nothing (h : within reach i back [] = [] ∨ limit = some 0) :
    Walked kind change test reach limit i back [] back where
  count := by
    rcases h with h | rfl
    · cases limit <;> simp [h, upTo]
    · simp [upTo]
  results := by simp [changeFirst]

/-- A result that is no match is passed by. -/
theorem pass (inside : inReach reach i = true) (unmet : test r = false)
    (h : Walked kind change test reach limit (i + 1) back ns ss) :
    Walked kind change test reach limit i (r :: back) ns (r :: ss) where
  count := by simpa [within_cons inside, unmet] using h.count
  results := by rw [h.results, List.cons_append, changeFirst_cons_of_neg unmet]

/-- A match is marked, and one more die comes behind all others. -/
theorem follow {n : Int} (inside : inReach reach i = true) (more : limit ≠ some 0)
    (met : test r = true) (known : ∀ m ∈ reach, m ≤ i + 1 + back.length)
    (h : Walked kind change test reach (limit.map (· - 1)) (i + 1) (back ++ [resultOf kind n]) ns
      ss) :
    Walked kind change test reach limit i (r :: back) (n :: ns) (change r :: ss) where
  count := by
    have count := h.count
    rw [within_push known] at count
    simp [within_cons inside, met, upTo_succ more, count]
  results := by simp [h.results, changeFirst, met]

end Walked

@[simp] theorem drawsFor_zero : drawsFor context 0 = 0 := by simp [drawsFor]

theorem drawsFor_succ (n : ℕ) :
    drawsFor context (n + 1) = drawsFor context 1 + drawsFor context n := by
  unfold drawsFor
  split <;> omega

/-- A die that is rolled for a match comes behind all others, or there is something in the way. -/
theorem meets_rollExtra {k : ℕ} {h : Hand} (room : h.results.length ≤ context.config.maxDice) :
    ((d.rollExtra context faces h).counted k).Meets
      { left := Left.IsClean
        done := fun s _ => ∃ n, s = (k + drawsFor context 1,
            { h with results := h.results ++ [resultOf d.kind n] })
          ∧ h.results.length < context.config.maxDice
        fail := fun s e => Barred context d faces s.2 e } := by
  simp only [rollExtra, Task.bind_apply, Task.get_apply, Steps.bind]
  split
  · next full => exact .full (Nat.le_antisymm room full)
  · next free =>
    have free := Nat.lt_of_not_le free
    simp only [rollOne, face]
    cases hm : context.mode with
    | minimum => exact ⟨lowestFace d.kind, by simp [drawsFor, hm], free⟩
    | maximum => exact ⟨highestFace d.kind faces, by simp [drawsFor, hm], free⟩
    | random =>
      intro x
      cases x with
      | none => exact .exhausted hm
      | some x =>
        simp only [Steps.bind]
        cases hf : faceOfDraw d.kind faces x with
        | error e => exact .faceless hm hf
        | ok n => exact ⟨n, by simp [drawsFor, hm, drawsOf], free⟩

/-- What is asked of a walk that goes on from place `i` of the results `front ++ back`, after `k`
draws. -/
def walks (context : Context) (d : Dice) (faces : Int) (reroll : Bool) (c : Comparison)
    (target : Value) (reach : Reach) (limit : Option ℕ) (k : ℕ) (h : Hand)
    (front back : List DieResult) : Contract (ℕ × Hand) Unit :=
  { left := Left.IsClean
    done := fun s _ => ∃ ns ss,
      Walked d.kind (mark reroll) (isMatch c target) reach limit front.length back ns ss
        ∧ s = (k + drawsFor context ns.length, { h with results := front ++ ss })
    fail := fun s e =>
      Barred context d faces s.2 e ∨ ∃ r ∈ front ++ back, Incomparable c target r e }

section

variable {reroll : Bool} {c : Comparison} {target : Value} {reach : Reach} {limit : Option ℕ} {k : ℕ}
  {h : Hand} {front back : List DieResult} {r : DieResult} {x : Steps (ℕ × Hand) Unit}

/-- To walk on behind a result that is no match. -/
theorem meets_walks_of_pass (inside : inReach reach front.length = true)
    (unmet : isMatch c target r = false)
    (hx : x.Meets (walks context d faces reroll c target reach limit k h (front ++ [r]) back)) :
    x.Meets (walks context d faces reroll c target reach limit k h front (r :: back)) := by
  refine hx.mono (fun _ => id) (fun _ => id) ?_ ?_
  · rintro s _ ⟨ns, ss, walked, rfl⟩
    rw [List.length_append, List.length_singleton] at walked
    exact ⟨ns, r :: ss, walked.pass inside unmet, by simp⟩
  · rintro s e (barred | ⟨q, hq, incomparable⟩)
    · exact .inl barred
    · exact .inr ⟨q, by simpa using hq, incomparable⟩

/-- To walk on behind a match that was marked, and for which a die was rolled. -/
theorem meets_walks_of_follow {n : Int} (inside : inReach reach front.length = true)
    (more : limit ≠ some 0) (met : isMatch c target r = true)
    (known : ∀ m ∈ reach, m ≤ front.length + 1 + back.length)
    (hx : x.Meets (walks context d faces reroll c target reach (limit.map (· - 1))
      (k + drawsFor context 1) h (front ++ [mark reroll r]) (back ++ [resultOf d.kind n]))) :
    x.Meets (walks context d faces reroll c target reach limit k h front (r :: back)) := by
  refine hx.mono (fun _ => id) (fun _ => id) ?_ ?_
  · rintro s _ ⟨ns, ss, walked, rfl⟩
    rw [List.length_append, List.length_singleton] at walked
    refine ⟨n :: ns, _, walked.follow inside more met known, ?_⟩
    simp [drawsFor_succ ns.length, Nat.add_assoc]
  · rintro s e (barred | ⟨q, hq, incomparable⟩)
    · exact .inl barred
    · refine .inr ?_
      simp only [List.mem_append, List.mem_singleton] at hq
      rcases hq with (hq | rfl) | hq | rfl
      · exact ⟨q, by simp [hq], incomparable⟩
      · exact ⟨r, by simp, by simpa [Incomparable] using incomparable⟩
      · exact ⟨q, by simp [hq], incomparable⟩
      · -- the new die shows an integer
        have none := incomparable.1
        rw [face_resultOf] at none
        cases none

end

/-- **Every round of a walk rolls one die for a match, and none otherwise.** -/
theorem meets_rollMatchesFrom {c : Comparison} {comparison target : Value}
    (known : Comparison.read comparison = .ok c) {m : Number} (number : target.number? = some m)
    (reroll : Bool) (reach : Reach) (fuel : ℕ) :
    ∀ {k : ℕ} {limit : Option ℕ} {h : Hand} {front back : List DieResult},
      h.results = front ++ back → (∀ n ∈ reach, n ≤ h.results.length) →
      h.results.length ≤ context.config.maxDice → context.config.maxDice < front.length + fuel →
      ((d.rollMatchesFrom context faces reroll comparison target reach fuel front.length limit
        h).counted k).Meets
        (walks context d faces reroll c target reach limit k h front back) := by
  induction fuel with
  | zero =>
    intro k limit h front back split _ room bound
    rw [split, List.length_append] at room
    omega
  | succ fuel ih =>
    intro k limit h front back split reached room bound
    have compared (r : DieResult) :
        Comparison.apply comparison r.face target = c.holds r.face target := by
      simp [Comparison.apply, known]
    have place : h.results[front.length]? = back.head? := by
      rw [split, List.getElem?_append_right (Nat.le_refl _), Nat.sub_self, List.head?_eq_getElem?]
    have next {k : ℕ} {limit : Option ℕ} {s : Hand} {r : DieResult} {rest : List DieResult}
        (split : s.results = (front ++ [r]) ++ rest) (reached : ∀ n ∈ reach, n ≤ s.results.length)
        (room : s.results.length ≤ context.config.maxDice) :=
      @ih k limit s (front ++ [r]) rest split reached room (by
        rw [List.length_append, List.length_singleton]
        omega)
    simp only [List.length_append, List.length_singleton] at next
    have round := round context d faces reroll comparison target reach fuel front.length limit h
    generalize d.rollMatchesFrom context faces reroll comparison target reach (fuel + 1) front.length
      limit h = x at round ⊢
    cases round with
    | stop nothing =>
      refine ⟨[], back, .nothing ?_, by simp [← split]⟩
      rcases nothing with outside | none | past
      · exact .inl (within_of_not_inReach outside)
      · exact .inr none
      · obtain rfl : back = [] := List.head?_eq_none_iff.1 (place ▸ past)
        left
        cases reach <;> simp [within]
    | fault here broken =>
      obtain ⟨back, rfl⟩ := List.head?_eq_some_iff.1 (place ▸ here)
      rw [compared] at broken
      refine .inr ⟨_, by simp, ?_, broken⟩
      -- numbers can be compared
      cases face : DieResult.face _ |>.number? with
      | none => rfl
      | some n => cases broken.symm.trans (c.holds_of_number? face number)
    | pass inside here unmet =>
      obtain ⟨back, rfl⟩ := List.head?_eq_some_iff.1 (place ▸ here)
      refine meets_walks_of_pass inside ?_ (next (by simpa using split) reached room)
      rcases unmet with inactive | unmet
      · simp [isMatch, inactive]
      · rw [isMatch_of_holds (compared _ ▸ unmet), Bool.and_false]
    | @follow r inside more here active met =>
      obtain ⟨back, rfl⟩ := List.head?_eq_some_iff.1 (place ▸ here)
      have test := isMatch_of_holds (compared _ ▸ met)
      rw [active, Bool.and_self] at test
      have length : h.results.length = front.length + 1 + back.length := by
        simp [split, Nat.add_assoc, Nat.add_comm 1]
      rw [Steps.counted_bind]
      refine Steps.Meets.bind ((meets_rollExtra (by simpa using room)).mono (fun _ => id)
        (fun _ => id) (fun _ _ => id) fun _ _ => .inl) ?_
      rintro _ _ ⟨n, rfl, free⟩
      refine meets_walks_of_follow inside more test (length ▸ reached)
        (@next (k + drawsFor context 1) (limit.map (· - 1))
          { h with results := h.results.set front.length (mark reroll r) ++ [resultOf d.kind n] }
          (mark reroll r) (back ++ [resultOf d.kind n]) ?_ ?_ ?_)
      · simp [split]
      · intro m hm
        have := reached m hm
        simp
        omega
      · rw [List.length_append, List.length_singleton]
        exact free

namespace Walked

variable {kind : DiceKind} {test : DieResult → Bool} {reroll recursive : Bool} {limit : Option ℕ}
  {rs ss : List DieResult} {ns : List Int}

/-- The results at hand stay where they are, and what shows of them is as before. -/
theorem map_face {reach : Reach} {i : ℕ}
    (h : Walked kind (mark reroll) test reach limit i rs ns ss) :
    ss.map (·.face) = rs.map (·.face) ++ ns.map .int := by
  rw [h.results, map_changeFirst (face_mark reroll), List.map_append, List.map_map]
  exact congrArg _ (List.map_congr_left fun n _ => face_resultOf kind n)

/-- Whether new dice are looked at. -/
def reachOf (recursive : Bool) (rs : List DieResult) : Reach :=
  if recursive then none else some rs.length

variable (h : Walked kind (mark reroll) test (reachOf recursive rs) limit 0 rs ns ss)

include h

theorem count_from_start :
    ns.length = upTo limit ((if recursive then rs ++ ns.map (resultOf kind) else rs).countP test) :=
  by
  rw [h.count]
  cases recursive <;> simp [reachOf, within]

/-- Unless new dice are looked at, only the results at hand are marked. -/
theorem results_from_start :
    ss = if recursive then changeFirst (mark reroll) test ns.length (rs ++ ns.map (resultOf kind))
      else changeFirst (mark reroll) test ns.length rs ++ ns.map (resultOf kind) := by
  cases recursive with
  | true => exact h.results
  | false =>
    have few : ns.length ≤ rs.countP test := h.count_from_start ▸ upTo_le limit _
    rw [h.results, changeFirst_append few]
    rfl

/-- A recursive reroll without a limit leaves no match. -/
theorem no_match (unmatched : ∀ r, test (mark reroll r) = false) (again : recursive = true)
    (unlimited : limit = none) : ∀ r ∈ ss, test r = false := by
  have all := h.count_from_start
  have rest := countP_changeFirst unmatched ns.length (rs ++ ns.map (resultOf kind))
  rw [if_pos again, unlimited] at all
  rw [← h.results, show List.countP test _ = ns.length from all.symm, Nat.sub_self,
    List.countP_eq_zero] at rest
  simpa using rest

end Walked

end Dice

end DiceFormula
