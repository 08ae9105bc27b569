import DiceFormula.Proofs.Evaluation.Course
import DiceFormula.Proofs.Evaluation.Selecting
import DiceFormula.Term.Make

/-!
# Dice never rewrite their history

Results are only added while dice are evaluated. What a result shows never changes, a result that
does not count any more never counts again, and what is noted on it says why it does not count: it
was discarded or rerolled (`Term.history_of_dice`).
-/

namespace DiceFormula

open List (Forall₂)

namespace DieResult

/-! ## Later results -/

/-- The same result at a later time: it shows what it did, and does not count again. -/
structure Later (r s : DieResult) : Prop where
  face : s.face = r.face
  active : s.isActive = true → r.isActive = true

theorem Later.refl (r : DieResult) : Later r r := ⟨rfl, id⟩

theorem Later.trans {r s t : DieResult} (h : Later r s) (h' : Later s t) : Later r t :=
  ⟨h'.face.trans h.face, fun active => h.active (h'.active active)⟩

/-- The results at a later time: the same ones in their places, and perhaps more behind them. -/
def Grown (rs ss : List DieResult) : Prop := Forall₂ Later rs (ss.take rs.length)

theorem Grown.of_forall₂ {rs ss : List DieResult} (h : Forall₂ Later rs ss) : Grown rs ss := by
  rwa [Grown, h.length_eq, List.take_length]

theorem Grown.refl (rs : List DieResult) : Grown rs rs :=
  .of_forall₂ (List.forall₂_same.2 fun r _ => Later.refl r)

theorem Grown.append (rs ss : List DieResult) : Grown rs (rs ++ ss) := by
  rw [Grown, List.take_left]
  exact List.forall₂_same.2 fun r _ => Later.refl r

theorem Grown.trans {rs ss ts : List DieResult} (h : Grown rs ss) (h' : Grown ss ts) :
    Grown rs ts := by
  have length : rs.length ≤ ss.length := by
    have := h.length_eq
    rw [List.length_take] at this
    omega
  refine forall₂_trans (ρ := Later) (fun _ _ _ => Later.trans) h ?_
  have := List.forall₂_take rs.length h'
  rwa [List.take_take, Nat.min_eq_left length] at this

/-- Why a result does not count is noted on it, and what was discarded does not count. -/
structure Explained (r : DieResult) : Prop where
  discarded : r.discarded.truthy = true → r.isActive = false
  inactive : r.isActive = false → r.discarded.truthy = true ∨ r.rerolled.truthy = true

end DieResult

namespace Command.Makes

variable {c : Command} {r s : DieResult}

/-- **No command changes a face**, or lets a result count again. -/
theorem later (h : c.Makes r s) : r.Later s := by
  cases h with
  | leave => exact .refl r
  | reroll => exact ⟨rfl, nofun⟩
  | keep | drop => exact ⟨rfl, nofun⟩
  | deductFailures failed | subtractFailures failed => cases failed <;> exact ⟨rfl, id⟩
  | _ => exact ⟨rfl, id⟩

/-- **Every command that takes a result out notes why.** -/
theorem explained (h : c.Makes r s) (hr : r.Explained) : s.Explained := by
  cases h with
  | leave => exact hr
  | reroll => exact ⟨fun _ => rfl, fun _ => .inr rfl⟩
  | keep | drop => exact ⟨fun _ => rfl, fun _ => .inl rfl⟩
  | minimum | maximum => exact ⟨hr.discarded, fun _ => .inr rfl⟩
  | deductFailures failed | subtractFailures failed =>
    cases failed <;> exact ⟨hr.discarded, hr.inactive⟩
  | _ => exact ⟨hr.discarded, hr.inactive⟩

end Command.Makes

/-! ## Faces -/

/-- What dice of a kind can show: numeric dice the integers from one up to the number of their faces,
coins zero and one, Fate dice the integers from minus one to one. -/
def DiceKind.Shows (faces : Value) (face : Value) : DiceKind → Prop
  | .die => ∃ n k : ℤ, faces.int? = some n ∧ face = .int k ∧ 1 ≤ k ∧ k ≤ n
  | .coin => face = .int 0 ∨ face = .int 1
  | .fate => face = .int (-1) ∨ face = .int 0 ∨ face = .int 1

namespace Dice

/-- A fair draw gives a face that the dice can show. -/
theorem shows_of_faceOfDraw {x : Float} {kind : DiceKind} {faces : Value} {count n : ℤ}
    (fair : IsDraw x) (known : (kind.facesOf faces).int? = some count) (positive : 1 ≤ count)
    (face : faceOfDraw kind count x = .ok n) : kind.Shows faces (.int n) := by
  obtain ⟨m, rfl⟩ := Int.eq_ofNat_of_zero_le (Int.le_trans Int.one_nonneg positive)
  have positive : 1 ≤ m := by omega
  have die : DiceKind.die ≠ .fate := nofun
  have coin : DiceKind.coin ≠ .fate := nofun
  cases kind with
  | die =>
    obtain ⟨k, rfl, bounds⟩ := bounds_of_faceOfDraw fair die positive face
    exact ⟨m, k, known, rfl, Int.ofNat_le.2 (bounds .least), Int.ofNat_le.2 (bounds .greatest)⟩
  | coin =>
    obtain ⟨k, rfl, bounds⟩ := bounds_of_faceOfDraw fair coin positive face
    have high : k ≤ 1 := bounds .greatest
    obtain rfl | rfl : k = 0 ∨ k = 1 := by omega
    · exact .inl rfl
    · exact .inr rfl
  | fate =>
    obtain ⟨k, hk, face⟩ := bind_eq_ok.1 face
    obtain rfl := Except.ok.inj face
    have three : (m : ℤ) = 3 := (Option.some.inj known).symm
    have := scaled_le fair positive hk
    obtain same | same | same : max (-1) (k - 2) = -1 ∨ max (-1) (k - 2) = 0
        ∨ max (-1) (k - 2) = 1 := by omega
    · exact .inl (congrArg Value.int same)
    · exact .inr (.inl (congrArg Value.int same))
    · exact .inr (.inr (congrArg Value.int same))

/-- All that dice can come to show is one of their faces. -/
theorem shows_of_fair {config : Config} {d : Dice} {faces : Value}
    (own : d.faces = d.kind.facesOf faces) {c : Checked} (checked : d.check config = .ok c) :
    Shows Dealing.fair.drawn d.kind c.faces fun n => d.kind.Shows faces (.int n) := by
  obtain ⟨-, known⟩ := of_check checked
  rw [own] at known
  have positive := one_le_of_check checked
  refine ⟨?_, ?_, fun x n fair => shows_of_faceOfDraw (fair x rfl) known positive⟩
  · cases h : d.kind with
    | die =>
      rw [h] at known
      exact ⟨c.faces, 1, known, rfl, Int.le_refl 1, positive⟩
    | coin | fate => exact .inl rfl
  · cases h : d.kind with
    | die =>
      rw [h] at known
      exact ⟨c.faces, c.faces, known, rfl, positive, Int.le_refl _⟩
    | coin => exact .inr rfl
    | fate => exact .inr (.inr rfl)

end Dice

/-! ## Dice as a term -/

/-- What is true of every result of dice. -/
structure DieResult.Proper (kind : DiceKind) (faces : Value) (r : DieResult) : Prop extends
    Explained r where
  shown : kind.Shows faces r.face

/-- Later results, all of which are proper ones if those before are. -/
structure DieResult.Progress (kind : DiceKind) (faces : Value) (rs ss : List DieResult) : Prop where
  grown : Grown rs ss
  proper : (∀ r ∈ rs, r.Proper kind faces) → ∀ r ∈ ss, r.Proper kind faces

/-- **The results of dice make progress**, whatever they are asked for. -/
theorem DieResult.course_progress (kind : DiceKind) (faces : Value) :
    Course kind (fun n => kind.Shows faces (.int n)) (fun _ => True) (Progress kind faces) := by
  have all : Course kind (fun n => kind.Shows faces (.int n)) (fun _ => True) fun rs ss =>
      (∀ r ∈ rs, r.Proper kind faces) → ∀ r ∈ ss, r.Proper kind faces := by
    refine .of_forall ?_ fun _ h hr => ⟨h.explained hr.toExplained, h.later.face ▸ hr.shown⟩
    intro n shown
    cases kind <;> exact ⟨⟨nofun, nofun⟩, shown⟩
  exact
    { refl := fun rs => ⟨.refl rs, all.refl rs⟩
      trans := fun h h' => ⟨h.grown.trans h'.grown, all.trans h.proper h'.proper⟩
      roll := fun rs n shown => ⟨.append rs _, all.roll rs n shown⟩
      change := fun hc makes =>
        ⟨.of_forall₂ (makes.imp fun _ _ => Command.Makes.later), all.change hc makes⟩ }

namespace Term

/-- **Evaluation never rewrites history.** Dice of any kind, number and faces may be asked for any
modifiers, and be evaluated in any mode by draws from zero up to one. Between any two of the states
at the pauses and at the end, be that a result or an error, results are only added; the others show
what they showed before, and none of them counts again. All along every result shows a face that the
dice have, and is discarded or rerolled if it does not count; what was discarded does not count. -/
theorem history_of_dice (context : Context) (kind : DiceKind) (number faces : Value)
    (modifiers : List String) (options : Options) (config : Config) {src : Source}
    (pending : ∀ x ∈ src.pending, IsDraw x) (fill : ∀ x ∈ src.fill, IsDraw x) :
    let d : Dice :=
      { kind, number, faces := kind.facesOf faces, hand := { modifiers := modifiers.map .str } }
    let x := evaluation context (Term.make (.dice d) options config)
    let history := (x.history src).map fun t => t.hand.results
    history.Pairwise DieResult.Grown
      ∧ ∀ rs ∈ history, ∀ r ∈ rs, kind.Shows faces r.face ∧ r.Explained := by
  intro d x history
  have fair : src.Gives Dealing.fair.drawn := ⟨fun x hx y same => by
    obtain rfl := Option.some.inj same
    exact pending x hx, fill⟩
  have course := DieResult.course_progress kind faces
  have := Hand.Moves.isTrans course
  have takes : Hand.Takes Dealing.fair.drawn (DieResult.Progress kind faces) (d.roll context) :=
    Dice.takes_roll course fun c checked => Dice.shows_of_fair rfl checked
  have states : history = ((d.roll context d.hand).history src).map Hand.results := by
    rw [← Term.history_hand context d options config, List.map_map]
    rfl
  obtain ⟨start, ordered⟩ := List.pairwise_cons.1 ((takes d.hand).pairwise fair)
  rw [states]
  constructor
  · exact List.pairwise_map.2 (ordered.imp fun h => h.grown)
  · intro rs hrs r hr
    obtain ⟨h, hh, rfl⟩ := List.mem_map.1 hrs
    have proper := (start h hh).proper (by simp [d]) r hr
    exact ⟨proper.shown, proper.toExplained⟩

/-- Three dice, one of which is rerolled and two explode, until there is nothing left to draw. -/
theorem history_of_dice_exhausted :
    let config : Config := { kinds := [], functions := [], maxDice := 9, maxDiceText := .int 9 }
    let src : Source := { pending := [0.2, 0.9, 0.5, 0.95, 0.4], fill := none }
    let d : Dice := { kind := .die, number := .int 3, faces := .int 6
                      hand := { modifiers := ["r2", "x"].map .str } }
    let x := evaluation { config } (Term.make (.dice d) [] config)
    let history := (x.history src).map fun t => t.hand.results
    (∀ x ∈ src.pending, IsDraw x) ∧ (∀ x ∈ src.fill, IsDraw x)
      ∧ history.map List.length = [1, 2, 3, 4, 5] ∧ history.Pairwise DieResult.Grown := by
  intro config src d x history
  have pending : ∀ x ∈ src.pending, IsDraw x := by decide +kernel
  have fill : ∀ x ∈ src.fill, IsDraw x := nofun
  refine ⟨pending, fill, by decide +kernel, ?_⟩
  exact (history_of_dice { config } .die (.int 3) (.int 6) ["r2", "x"] [] config pending fill).1

end Term

end DiceFormula
