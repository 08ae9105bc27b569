import DiceFormula.Proofs.Evaluation.Course
import DiceFormula.Proofs.Evaluation.Selecting
import DiceFormula.Proofs.Formula.Words

/-!
# The score of counted successes

Dice may count the results that meet a criterion, and then let failures count against these. Nothing
keeps the count but the notes on the single results, which both commands overwrite. Still the total is
the score that the faces of the active results have (`Term.total_of_tally`): `DieResult.Untallied` is
what rerolls, explosions and selections leave of a result, `DieResult.Tallied` what the count makes of
it, and `DieResult.Worth` what it is worth in the end.
-/

namespace DiceFormula

open Arithmetic

/-! ## Scores -/

/-- What a face may have to meet. -/
structure Criterion where
  comparison : Comparison
  target : ℤ
  deriving DecidableEq, Repr

namespace Criterion

/-- Whether a face meets the criterion. -/
def meets (c : Criterion) (face : ℤ) : Bool :=
  match c.comparison with
  | .eq => face = c.target
  | .lt => face < c.target
  | .le => face ≤ c.target
  | .gt => c.target < face
  | .ge => c.target ≤ face

theorem apply_eq_meets {c : Criterion} {text : String}
    (known : Comparison.ofText? text = some c.comparison) (face : ℤ) :
    Comparison.apply (.str text) (.int face) (.int c.target) = .ok (c.meets face) := by
  have compared : c.comparison.ofNumbers (.int face) (.int c.target) = c.meets face := by
    obtain ⟨comparison, target⟩ := c
    cases comparison <;> simp [meets, Comparison.ofNumbers]
  simp [Comparison.apply, Comparison.read, Value.str?, known, compared]

end Criterion

/-- What is deducted from a number of successes: nothing, or for every failure one, or its face.
Failures meet a criterion of their own, or without one are no successes. -/
inductive Deduction
  | nothing
  | ones (failure : Option Criterion)
  | faces (failure : Option Criterion)
  deriving DecidableEq, Repr

/-- The score of some faces. -/
def score (success : Criterion) : Deduction → List ℤ → ℤ
  | .nothing, faces => faces.countP success.meets
  | .ones (some failure), faces =>
    faces.countP (fun n => success.meets n && !failure.meets n) - faces.countP failure.meets
  | .ones none, faces => faces.countP success.meets - faces.countP fun n => !success.meets n
  | .faces (some failure), faces =>
    faces.countP (fun n => success.meets n && !failure.meets n) - (faces.filter failure.meets).sum
  | .faces none, faces =>
    faces.countP success.meets - (faces.filter fun n => !success.meets n).sum

/-- Whether a face is a failure. -/
def Criterion.fails (success : Criterion) (failure : Option Criterion) (face : ℤ) : Bool :=
  match failure with
  | some failure => failure.meets face
  | none => !success.meets face

/-- What a single face adds to the score. -/
def worth (success : Criterion) (d : Deduction) (face : ℤ) : ℤ :=
  let counted := if success.meets face then 1 else 0
  match d with
  | .nothing => counted
  | .ones failure => if success.fails failure face then -1 else counted
  | .faces failure => if success.fails failure face then -face else counted

/-- **The score is the sum of what the single faces add.** -/
theorem score_eq_sum (success : Criterion) (d : Deduction) (faces : List ℤ) :
    score success d faces = (faces.map (worth success d)).sum := by
  induction faces with
  | nil => rcases d with _ | (_ | _) | (_ | _) <;> rfl
  | cons n faces ih =>
    rw [List.map_cons, List.sum_cons, ← ih]
    rcases d with _ | (_ | failure) | (_ | failure)
    · cases hs : success.meets n <;> simp [score, worth, hs]
      omega
    · cases hs : success.meets n <;> simp [score, worth, Criterion.fails, hs] <;> omega
    · cases hs : success.meets n <;> cases hf : failure.meets n <;>
        simp [score, worth, Criterion.fails, hs, hf] <;> omega
    · cases hs : success.meets n <;> simp [score, worth, Criterion.fails, hs] <;> omega
    · cases hs : success.meets n <;> cases hf : failure.meets n <;>
        simp [score, worth, Criterion.fails, hs, hf] <;> omega

/-! ## Modifiers that tally -/

namespace Command

/-- Whether a command changes which results there are and which of them count, and nothing else. -/
def arranges : Command → Bool
  | reroll _ | explode _ | keep | drop => true
  | _ => false

/-- Behind two letters the text asks for a comparison, by default equality, and for a target unless
that is left open. -/
structure Asks (text : List Char) (comparison : Comparison) (target : Option ℕ) : Prop where
  comparison : Comparison.ofText? ((Modifier.takeCondition (text.drop 2)).1.getD "=")
    = some comparison
  target : (Modifier.takeCondition (text.drop 2)).2 = target

/-- How a comparison and a target are written, each of which may be missing. -/
def written (comparison : Option Comparison) (target : Option ℕ) : List Char :=
  (comparison.elim [] fun c => c.text.toList) ++ target.elim [] (Nat.toDigits 10)

theorem takeNumber_toDigits (target : Option ℕ) :
    (Modifier.takeNumber (target.elim [] (Nat.toDigits 10))).1 = target := by
  cases target with
  | none => rfl
  | some n =>
    have read := @Leaf.takeNumber_digits _ [] (isInt_toDigits n) nofun
    rw [List.append_nil] at read
    exact read.trans (congrArg some Nat.ofDigitChars_ten_toDigits)

theorem takeComparison_written (comparison : Option Comparison) (target : Option ℕ) :
    Modifier.takeComparison (written comparison target)
      = (comparison.map Comparison.text, target.elim [] (Nat.toDigits 10)) := by
  have behind : ∀ c ∈ (target.elim [] (Nat.toDigits 10)).head?, Modifier.isComparison c = false := by
    cases target with
    | none => exact nofun
    | some n =>
      intro c hc
      have digit := (isInt_toDigits n).2 c (List.mem_of_head? hc)
      rw [Bool.eq_false_iff]
      intro sign
      simp only [Modifier.isComparison, Bool.or_eq_true, beq_iff_eq] at sign
      rcases sign with (rfl | rfl) | rfl <;> cases digit
  have front : (written comparison target).takeWhile Modifier.isComparison
      = comparison.elim [] fun c => c.text.toList := by
    refine takeWhile_append_of_head? ?_ behind
    cases comparison with
    | none => exact nofun
    | some c =>
      have signs : c.text.toList.all Modifier.isComparison = true := by cases c <;> rfl
      exact List.all_eq_true.1 signs
  rw [Modifier.takeComparison, front, written, List.drop_left]
  cases comparison with
  | none => rfl
  | some c => cases c <;> rfl

/-- What is written is what is asked for, with equality for a missing comparison. -/
theorem asks_of_written (name : List Char) (two : name.length = 2) (comparison : Option Comparison)
    (target : Option ℕ) :
    Asks (name ++ written comparison target) (comparison.getD .eq) target := by
  have read : Modifier.takeCondition ((name ++ written comparison target).drop 2)
      = (comparison.map Comparison.text, target) := by
    rw [← two, List.drop_left, Modifier.takeCondition, takeComparison_written]
    exact congrArg _ (takeNumber_toDigits target)
  refine ⟨?_, congrArg Prod.snd read⟩
  rw [read]
  cases comparison with
  | none => exact Comparison.ofText?_text .eq
  | some c => exact Comparison.ofText?_text c

/-- The condition for failures that is written behind two letters. -/
def condition (text : List Char) : Option DieResult.Condition :=
  let (comparison, target) := Modifier.takeCondition (text.drop 2)
  target.map fun n => (Modifier.comparisonOr comparison, .int n)

end Command

/-- The criterion of a comparison and a target, if there is a target. -/
def Criterion.of? (comparison : Comparison) (target : Option ℕ) : Option Criterion :=
  target.map fun n : ℕ => ⟨comparison, n⟩

/-- The commands that a deduction is asked for by. -/
inductive Deduction.AskedBy : Deduction → List Command.Written → Prop
  | nothing : AskedBy .nothing []
  | ones {text : List Char} {c : Comparison} {target : Option ℕ} (asks : Command.Asks text c target) :
      AskedBy (.ones (Criterion.of? c target)) [(.deductFailures, text)]
  | faces {text : List Char} {c : Comparison} {target : Option ℕ} (asks : Command.Asks text c target) :
      AskedBy (.faces (Criterion.of? c target)) [(.subtractFailures, text)]

/-- Modifiers of a die that ask for rerolls, explosions and selections in any order, then for a count
of successes, and then for at most one deduction. -/
def Tallies (modifiers : List String) (comparison : Comparison) (target : Option ℕ) (d : Deduction) :
    Prop :=
  ∃ front text back,
    modifiers.flatMap (fun m => Command.cut (Command.ofKind .die) (Case.lower m.toList))
        = front ++ (.countSuccesses, text) :: back
      ∧ (∀ p ∈ front, p.1.arranges = true) ∧ Command.Asks text comparison target ∧ d.AskedBy back

/-! ## Single results -/

namespace Change

/-- Where every item comes to something by itself, so do all of them. -/
theorem exists_each {α : Type} {P Q : α → Prop} {f : α → Change α} {as : List α}
    (h : ∀ a, P a → ∃ b, f a = { state := b } ∧ Q b) (all : ∀ a ∈ as, P a) :
    ∃ bs, each f as = { state := bs } ∧ ∀ b ∈ bs, Q b := by
  induction as with
  | nil => exact ⟨[], rfl, List.forall_mem_nil _⟩
  | cons a as ih =>
    obtain ⟨ha, has⟩ := List.forall_mem_cons.1 all
    obtain ⟨b, hb, good⟩ := h a ha
    obtain ⟨bs, hbs, all⟩ := ih has
    exact ⟨b :: bs, by rw [each, hb, hbs], List.forall_mem_cons.2 ⟨good, all⟩⟩

end Change

namespace DieResult

/-- What is true of a result before anything is counted. -/
structure Untallied (n : ℤ) (r : DieResult) : Prop where
  face : r.face = .int n
  success : r.success = .null
  failure : r.failure = .null

/-- The result shows an integer, and it counts as what that is worth. -/
structure Worth (w : ℤ → ℤ) (n : ℤ) (r : DieResult) : Prop where
  face : r.face = .int n
  count : r.count = .int (w n)

/-- What is true of a result after successes were counted. -/
structure Tallied (c : Criterion) (n : ℤ) (r : DieResult) : Prop extends
    Worth (worth c .nothing) n r where
  success : r.success = .bool (c.meets n)
  failure : r.failure = .null

/-- A command that arranges results notes neither success nor failure. -/
theorem Untallied.of_makes {c : Command} {r s : DieResult} {n : ℤ} (arranges : c.arranges = true)
    (h : c.Makes r s) (hr : r.Untallied n) : s.Untallied n := by
  obtain ⟨face, success, failure⟩ := hr
  cases h with
  | leave => exact ⟨face, success, failure⟩
  | reroll | explode | keep | drop => exact ⟨face, success, failure⟩
  | _ => cases arranges

variable {c : Criterion} {n : ℤ} {r : DieResult}

theorem Untallied.tallyOne (hr : r.Untallied n) :
    (tallyOne .successes (c.meets n) r).Tallied c n := by
  obtain ⟨face, success, failure⟩ := hr
  cases met : c.meets n with
  | true => exact ⟨⟨face, by simp [DieResult.tallyOne, worth, met]⟩, by rw [met]; rfl, rfl⟩
  | false => exact ⟨⟨face, by simp [DieResult.tallyOne, worth, met]⟩, by rw [met]; rfl, failure⟩

/-- **A count of successes tallies all results.** -/
theorem exists_tally {text : String} (known : Comparison.ofText? text = some c.comparison)
    {rs : List DieResult} (h : ∀ r ∈ rs, ∃ n, r.Untallied n) :
    ∃ ss, tally (.str text) (.int c.target) .successes rs = { state := ss }
      ∧ ∀ s ∈ ss, ∃ n, s.Tallied c n := by
  refine Change.exists_each ?_ h
  rintro r ⟨n, hr⟩
  refine ⟨_, ?_, n, hr.tallyOne⟩
  rw [hr.face, Criterion.apply_eq_meets known]
  rfl

/-- The penalty makes a failure count as what the function says. -/
def Penalty.MakesWorth (p : Penalty) (w : ℤ → ℤ) : Prop :=
  ∀ (r : DieResult) (n : ℤ), r.face = .int n →
    r.fail.penalize p = .ok { r.fail with count := .int (w n) }

theorem Penalty.minusOne_makesWorth : minusOne.MakesWorth fun _ => -1 := fun _ _ _ => rfl

theorem Penalty.minusFace_makesWorth : minusFace.MakesWorth fun n => -n := by
  intro r n face
  simp [penalize, isFailure, fail, Value.truthy, face, Value.negated?, Value.int, Number.neg]

theorem Tallied.fails (hr : r.Tallied c n) {text : List Char} {comparison : Comparison}
    {target : Option ℕ} (asks : Command.Asks text comparison target) :
    r.fails (Command.condition text) = .ok (c.fails (Criterion.of? comparison target) n) := by
  obtain ⟨known, rfl⟩ := asks
  unfold Command.condition
  cases h : Modifier.takeCondition (text.drop 2) with
  | mk written target =>
    rw [h] at known
    cases target with
    | none => simp [Criterion.of?, DieResult.fails, isUnsuccessful, hr.success, Criterion.fails]
    | some m =>
      simp only [Criterion.of?, Option.map_some, DieResult.fails, hr.face, Criterion.fails]
      exact Criterion.apply_eq_meets (c := ⟨comparison, m⟩) known n

/-- **A deduction lets every failure count as its penalty says**, and all else as before. -/
theorem exists_deduct {p : Penalty} {w : ℤ → ℤ} (penalty : p.MakesWorth w)
    {text : List Char} {comparison : Comparison} {target : Option ℕ}
    (asks : Command.Asks text comparison target) {rs : List DieResult}
    (h : ∀ r ∈ rs, ∃ n, r.Tallied c n) :
    let fails := c.fails (Criterion.of? comparison target)
    ∃ ss, deduct (Command.condition text) p rs = { state := ss }
      ∧ ∀ s ∈ ss, ∃ n, s.Worth (fun n => if fails n then w n else worth c .nothing n) n := by
  intro fails
  refine Change.exists_each ?_ h
  rintro r ⟨n, hr⟩
  have asked : r.fails (Command.condition text) = .ok (fails n) := hr.fails asks
  simp only [deductOne, asked]
  cases failed : fails n with
  | true =>
    refine ⟨{ r.fail with count := .int (w n) }, ?_, n, hr.face, by simp [failed]⟩
    rw [if_pos rfl, penalty r n hr.face]
    rfl
  | false =>
    refine ⟨r, ?_, n, hr.face, by simpa [failed] using hr.count⟩
    simp [penalize, isFailure, hr.failure, Value.truthy, Change.ofExcept]

/-- **The total is the score of the faces that count.** -/
theorem total_of_worth {w : ℤ → ℤ} {rs : List DieResult} (h : ∀ r ∈ rs, ∃ n, r.Worth w n) :
    ∃ faces : List ℤ, facesOf rs = faces.map Value.int
      ∧ total rs = .ok (.int (faces.map w).sum) := by
  suffices ∀ as : List DieResult, (∀ r ∈ as, ∃ n, r.Worth w n) →
      ∃ faces : List ℤ, as.map (·.face) = faces.map Value.int
        ∧ ∀ m : ℤ, as.foldlM addTo (.int m) = .ok (.int (m + (faces.map w).sum)) by
    obtain ⟨faces, shown, sum⟩ := this (activeOf rs) fun r hr => h r (List.mem_of_mem_filter hr)
    refine ⟨faces, shown, (sum 0).trans ?_⟩
    rw [Int.zero_add]
  intro as
  induction as with
  | nil => exact fun _ => ⟨[], rfl, fun m => by simp [pure, Except.pure]⟩
  | cons r as ih =>
    intro h
    obtain ⟨⟨n, hr⟩, has⟩ := List.forall_mem_cons.1 h
    obtain ⟨faces, shown, sum⟩ := ih has
    refine ⟨n :: faces, by rw [List.map_cons, List.map_cons, shown, hr.face], fun m => ?_⟩
    have added : addTo (.int m) r = .ok (.int (m + w n)) := by
      simp [addTo, value, hr.count, Value.isNull, Value.int, Value.number?, Number.add, ofNumeric]
    rw [List.foldlM_cons, added, bind_ok, sum, List.map_cons, List.sum_cons, Int.add_assoc]

end DieResult

/-! ## Carrying out -/

namespace Command

/-- What a command is written by begins with its name. -/
theorem exists_append_of_mem_cut (name : List Char) {c : Command} {t text : List Char}
    (h : (c, text) ∈ cut (ofKind .die) t)
    (only : ∀ e ∈ ofKind .die, e.2 = c → e.1.toList = name) : ∃ rest, text = name ++ rest := by
  have found := lookup_of_mem_cut (proper_ofKind .die) h
  obtain ⟨front, back, whole, -⟩ := List.lookup_eq_some_iff.1 found
  have mem : (String.ofList (text.takeWhile Modifier.isLetter), c) ∈ ofKind .die :=
    whole ▸ List.mem_append_right front List.mem_cons_self
  have letters := only _ mem rfl
  rw [String.toList_ofList] at letters
  exact ⟨_, by rw [← letters, List.takeWhile_append_dropWhile]⟩

end Command

namespace Modifier

variable {comparison : Comparison} {target : Option ℕ} {rest : List Char}

/-- What a count of successes does is told by what its text asks for. -/
theorem count_of_asks (asks : Command.Asks (['c', 's'] ++ rest) comparison target) (sides : ℤ)
    (rs : List DieResult) :
    ∃ text, Comparison.ofText? text = some comparison
      ∧ count (.int sides) .successes (['c', 's'] ++ rest) rs
        = some (DieResult.tally (.str text) (.int ((target.map Nat.cast).getD sides)) .successes
          rs) := by
  obtain ⟨known, rfl⟩ := asks
  refine ⟨_, known, ?_⟩
  have front : strip? ['c', 's'] (['c', 's'] ++ rest) = some rest := rfl
  rw [count, front]
  cases h : takeCondition rest with
  | mk c target => cases target <;> simp [h, Value.isNull, Value.int, comparisonOr]

/-- What a deduction does is told by what its text asks for. -/
theorem deduct_eq {letters : List Char} (h : letters = ['d', 'f'] ∨ letters = ['s', 'f'])
    (p : DieResult.Penalty) (rest : List Char) (rs : List DieResult) :
    deduct p (letters ++ rest) rs
      = some (DieResult.deduct (Command.condition (letters ++ rest)) p rs) := by
  rcases h with rfl | rfl <;> rfl

end Modifier

namespace Hand

variable {context : Context} {d : Dice} {sides : ℤ} {h : Hand}

/-- A modifier that rolls nothing changes the results; it is listed before a pause. -/
theorem carryOut_of_plain {perform : Performing} {c : Command} {text : List Char}
    {f : List DieResult → Modifier.Outcome} (does : perform c text = plain f) {ss : List DieResult}
    (out : f h.results = some { state := ss }) :
    carryOut perform c text h
      = Task.pause { h with results := ss
                            modifiers := h.modifiers ++ [.str (String.ofList text)] } := by
  simp [carryOut, does, plain, out, Steps.bind]

/-- No result of the hand was counted. -/
abbrev AllUntallied (h : Hand) : Prop := ∀ r ∈ h.results, ∃ n, r.Untallied n

/-- All results of the hand count as what their faces are worth. -/
abbrev AllWorth (w : ℤ → ℤ) (h : Hand) : Prop := ∀ r ∈ h.results, ∃ n, r.Worth w n

theorem course_untallied :
    DieResult.Course .die (fun _ => True) (fun c => c.arranges = true)
      fun rs ss => (∀ r ∈ rs, ∃ n, r.Untallied n) → ∀ r ∈ ss, ∃ n, r.Untallied n :=
  .of_forall (fun n _ => ⟨n, rfl, rfl, rfl⟩) fun arranges h ⟨n, hr⟩ => ⟨n, hr.of_makes arranges h⟩

/-- What is asked for behind a count of successes lets all results count as they are worth. -/
theorem meets_deduct {deduction : Deduction} {back : List Command.Written}
    (asked : deduction.AskedBy back)
    (texts : ∀ p ∈ back, ∃ t, p ∈ Command.cut (Command.ofKind .die) t) {c : Criterion}
    (tallied : ∀ r ∈ h.results, ∃ n, r.Tallied c n) :
    (carryOutEach (performOnDice context d sides) back h).Meets
      { done := fun s _ => AllWorth (worth c deduction) s } := by
  have deduct {command : Command} {p : DieResult.Penalty} {w : ℤ → ℤ} (penalty : p.MakesWorth w)
      {text : List Char} {comparison : Comparison} {target : Option ℕ}
      (asks : Command.Asks text comparison target)
      (does : performOnDice context d sides command text = plain (Modifier.deduct p text))
      (out : ∀ rs, Modifier.deduct p text rs
        = some (DieResult.deduct (Command.condition text) p rs)) :
      (carryOutEach (performOnDice context d sides) [(command, text)] h).Meets
        { done := fun s _ => AllWorth (fun n =>
          if c.fails (Criterion.of? comparison target) n then w n else worth c .nothing n) s } := by
    obtain ⟨ss, changed, all⟩ := DieResult.exists_deduct penalty asks tallied
    have made := carryOut_of_plain does ((out h.results).trans (congrArg some changed))
    simp only [carryOutEach, Task.bind_apply, made, Task.pause_apply, Steps.bind]
    exact ⟨trivial, trivial, all⟩
  cases asked with
  | nothing => exact fun r hr => (tallied r hr).imp fun n hn => hn.toWorth
  | ones asks =>
    obtain ⟨t, cut⟩ := texts _ List.mem_cons_self
    obtain ⟨rest, rfl⟩ := Command.exists_append_of_mem_cut ['d', 'f'] cut (by decide)
    exact deduct DieResult.Penalty.minusOne_makesWorth asks rfl (Modifier.deduct_eq (.inl rfl) _ rest)
  | faces asks =>
    obtain ⟨t, cut⟩ := texts _ List.mem_cons_self
    obtain ⟨rest, rfl⟩ := Command.exists_append_of_mem_cut ['s', 'f'] cut (by decide)
    exact deduct DieResult.Penalty.minusFace_makesWorth asks rfl (Modifier.deduct_eq (.inr rfl) _ rest)

/-- Modifiers that tally let all results count as they are worth. -/
theorem meets_tally {texts : List (List Char)} {front back : List Command.Written}
    {text : List Char} (die : d.kind = .die)
    (cut : texts.flatMap (Command.cut (Command.ofKind d.kind))
      = front ++ (.countSuccesses, text) :: back)
    (arranges : ∀ p ∈ front, p.1.arranges = true) {comparison : Comparison} {target : Option ℕ}
    (asks : Command.Asks text comparison target) {deduction : Deduction}
    (asked : deduction.AskedBy back) (untallied : AllUntallied h) :
    (carryOutEach (performOnDice context d sides)
      (texts.flatMap (Command.cut (Command.ofKind d.kind))) h).Meets
      { done := fun s _ =>
          AllWorth (worth ⟨comparison, (target.map Nat.cast).getD sides⟩ deduction) s } := by
  have texts : ∀ p ∈ texts.flatMap (Command.cut (Command.ofKind d.kind)),
      ∃ t, p ∈ Command.cut (Command.ofKind .die) t := by
    intro p hp
    obtain ⟨t, -, hp⟩ := List.mem_flatMap.1 hp
    exact ⟨t, die ▸ hp⟩
  rw [cut] at texts ⊢
  have arranged : Task.Preserves AllUntallied
      (carryOutEach (performOnDice context d sides) front) := by
    have course := die.symm ▸ course_untallied
    exact preserves_of_takes (takes_carryOutEach course fun p hp =>
      takes_performOnDice course (shows_any d.kind sides) (arranges p hp) p.2)
  rw [carryOutEach_append]
  refine Steps.Meets.bind ((arranged h untallied).mono (fun _ _ => trivial) (fun _ _ => trivial)
    (fun _ _ => id) fun _ _ _ => trivial) ?_
  intro s _ untallied
  obtain ⟨t, ht⟩ := texts _ (List.mem_append_right front List.mem_cons_self)
  obtain ⟨rest, rfl⟩ := Command.exists_append_of_mem_cut ['c', 's'] ht (by decide)
  obtain ⟨written, known, count⟩ := Modifier.count_of_asks asks sides s.results
  let c : Criterion := ⟨comparison, (target.map Nat.cast).getD sides⟩
  obtain ⟨ss, changed, tallied⟩ := DieResult.exists_tally (c := c) known untallied
  have made := @carryOut_of_plain s (performOnDice context d sides) .countSuccesses _ _ rfl ss
    (count.trans (congrArg some changed))
  simp only [carryOutEach, Task.bind_apply, made, Task.pause_apply, Steps.bind]
  refine ⟨trivial, trivial, meets_deduct asked (fun p hp => ?_) tallied⟩
  exact texts p (List.mem_append_right front (List.mem_cons_of_mem _ hp))

end Hand

/-- **Dice that tally come to results that count as they are worth.** -/
theorem Dice.meets_roll_tally {context : Context} {d : Dice} (die : d.kind = .die)
    {modifiers : List String} {h : Hand} (empty : h.results = [])
    (asked : h.modifiers = modifiers.map .str) {comparison : Comparison} {target : Option ℕ}
    {deduction : Deduction} (tallies : Tallies modifiers comparison target deduction) :
    (d.roll context h).Meets
      { done := fun s _ => ∃ sides, d.faces.int? = some sides
          ∧ s.AllWorth (worth ⟨comparison, (target.map Nat.cast).getD sides⟩ deduction) } := by
  obtain ⟨front, text, back, cut, arranges, asks, back_asked⟩ := tallies
  simp only [roll, Task.bind_apply]
  cases checked : d.check context.config with
  | error e => exact trivial
  | ok c =>
    have course := die.symm ▸ Hand.course_untallied
    have rolled : Task.Preserves Hand.AllUntallied (rollMany context d.kind c.faces c.number) :=
      Hand.preserves_of_takes (Hand.takes_rollMany course (Hand.shows_any d.kind c.faces) c.number)
    have start : Hand.AllUntallied h := by simp [Hand.AllUntallied, empty]
    simp only [Task.ofExcept_ok, Steps.bind]
    have rolled := (rolled.and (Hand.preserves_rollMany (modifiers.map .str) c.number)) h
      ⟨start, asked⟩
    refine Steps.Meets.bind (rolled.mono (fun _ _ => trivial) (fun _ _ => trivial) (fun _ _ => id)
      fun _ _ _ => trivial) ?_
    rintro s _ ⟨untallied, same⟩
    simp only [Hand.carryOutModifiers, Task.bind_apply, Task.get_apply, Steps.bind, same,
      Hand.mapM_lowerModifier, Task.ofExcept_ok, Task.set_apply, Hand.carryOutAll_eq_carryOutEach]
    have untallied : Hand.AllUntallied { s with modifiers := [] } := untallied
    rw [← List.flatMap_map, ← die] at cut
    refine (Hand.meets_tally die cut arranges asks back_asked untallied).mono_done ?_
    exact fun _ _ worth => ⟨c.faces, (Dice.of_check checked).2, worth⟩

namespace Term

/-- **The total of counted successes is their score.** Whatever is drawn, a die that is asked for
rerolls, explosions and selections, then for a count of successes, and then for at most one
deduction, comes to the score of the faces that count in the end. By default a success shows the
highest face. -/
theorem total_of_tally (context : Context) (number faces : Value) {modifiers : List String}
    {comparison : Comparison} {target : Option ℕ} {deduction : Deduction}
    (tallies : Tallies modifiers comparison target deduction) (options : Options) (config : Config)
    (rule : StopRule) {src : Source} :
    let d : Dice := { kind := .die, number, faces, hand := { modifiers := modifiers.map .str } }
    let report := (evaluation context (Term.make (.dice d) options config)).run rule src
    report.ending = .finished () →
      ∃ (sides : ℤ) (shown : List ℤ), faces.int? = some sides
        ∧ report.state.faces? = some (shown.map Value.int)
        ∧ report.state.total
          = .ok (.int (score ⟨comparison, (target.map Nat.cast).getD sides⟩ deduction shown)) := by
  intro d report finished
  have meets : (evaluation context (Term.make (.dice d) options config)).Meets
      { done := fun t _ => ∃ sides hand, faces.int? = some sides
          ∧ t = (Term.make (.dice { d with hand }) options config).setMark (.bool true)
          ∧ hand.AllWorth
            (worth ⟨comparison, (target.map Nat.cast).getD sides⟩ deduction) } := by
    rw [evaluation_dice]
    refine Steps.Meets.onStop_of_seen (Steps.Meets.mapState ?_)
    have rolled := @Dice.meets_roll_tally context d rfl modifiers d.hand rfl rfl _ _ _ tallies
    refine rolled.mono_done ?_
    rintro hand _ ⟨sides, known, worth⟩
    exact ⟨sides, hand, known, rfl, worth⟩
  have allowed := Steps.allows_run rule meets src
  change Contract.Allows _ report at allowed
  rw [Contract.Allows, finished] at allowed
  obtain ⟨sides, hand, known, done, worth⟩ := allowed
  obtain ⟨shown, active, sum⟩ := DieResult.total_of_worth worth
  refine ⟨sides, shown, known, ?_, ?_⟩
  · show report.state.faces? = _
    rw [done]
    exact congrArg some active
  · show report.state.total = _
    rw [done, score_eq_sum]
    exact congrArg (Except.map Value.num) sum

/-- Five dice, of which one explodes and two are rerolled: of the active faces 6, 5, 3, 2, 2 and 2 two
are successes, and three failures count against them. -/
theorem total_of_tally_of_failures :
    let config : Config := { kinds := [], functions := [], maxDice := 9, maxDiceText := .int 9 }
    let modifiers := ["X", "r1", "CS>4", "df<3"]
    let d : Dice := { kind := .die, number := .int 5, faces := .int 6
                      hand := { modifiers := modifiers.map .str } }
    let report := (evaluation { config } (Term.make (.dice d) [] config)).run .never
      { pending := [0.9, 0.7, 0.1, 0.5, 0.15], fill := some 0.3 }
    Tallies modifiers .gt (some 4) (.ones (some ⟨.lt, 3⟩)) ∧ report.ending = .finished ()
      ∧ ∃ (sides : ℤ) (shown : List ℤ), Value.int? (.int 6) = some sides
        ∧ report.state.faces? = some (shown.map Value.int)
        ∧ report.state.total = .ok (.int (score ⟨.gt, 4⟩ (.ones (some ⟨.lt, 3⟩)) shown)) := by
  intro config modifiers d report
  have tallies : Tallies modifiers .gt (some 4) (.ones (some ⟨.lt, 3⟩)) := by
    refine ⟨[(.explode true, ['x']), (.reroll false, ['r', '1'])], _,
      [(.deductFailures, _)], ?_, ?_,
      Command.asks_of_written ['c', 's'] rfl (some .gt) (some 4),
      .ones (Command.asks_of_written ['d', 'f'] rfl (some .lt) (some 3))⟩
    · decide +kernel
    · decide
  have finished : report.ending.isFinished = true := by decide +kernel
  have finished := Ending.eq_of_isFinished finished
  exact ⟨tallies, finished, total_of_tally { config } (.int 5) (.int 6) tallies [] config .never
    finished⟩

end Term

end DiceFormula
