import DiceFormula.Result.Selection
import Mathlib.Data.List.Forall2

/-!
# What is discarded

Results are changed one for one. Keeping and dropping leaves every result as it is or discards it
(`DieResult.discards_keepOrDrop`), whichever way the cut is found and even if it is cut short.
-/

namespace DiceFormula

open List (Forall₂)

/-! ## Lists -/

section

variable {α : Type} {ρ : α → α → Prop}

theorem forall₂_trans (trans : ∀ a b c, ρ a b → ρ b c → ρ a c) {as bs cs : List α}
    (h : Forall₂ ρ as bs) (h' : Forall₂ ρ bs cs) : Forall₂ ρ as cs := by
  induction h generalizing cs with
  | nil => exact h'
  | cons hab _ ih =>
    cases h' with
    | cons hbc h' => exact .cons (trans _ _ _ hab hbc) (ih h')

/-- What every item hands on holds of all items of the second list if it does of the first one. -/
theorem forall_of_forall₂ {P : α → Prop} (keeps : ∀ a b, ρ a b → P a → P b) {as bs : List α}
    (h : Forall₂ ρ as bs) (all : ∀ a ∈ as, P a) : ∀ b ∈ bs, P b := by
  induction h with
  | nil => exact all
  | cons hab _ ih =>
    obtain ⟨ha, has⟩ := List.forall_mem_cons.1 all
    exact List.forall_mem_cons.2 ⟨keeps _ _ hab ha, ih has⟩

theorem forall₂_map {f : α → α} (h : ∀ a, ρ a (f a)) (as : List α) : Forall₂ ρ as (as.map f) :=
  List.forall₂_map_right_iff.2 (List.forall₂_same.2 fun a _ => h a)

variable (refl : ∀ a, ρ a a)

include refl

/-- One item of a list is changed. -/
theorem forall₂_set {as : List α} {i : ℕ} {a b : α} (at_place : as[i]? = some a) (h : ρ a b) :
    Forall₂ ρ as (as.set i b) := by
  induction as generalizing i with
  | nil => simp at at_place
  | cons c as ih =>
    cases i with
    | zero =>
      obtain rfl : c = a := by simpa using at_place
      exact .cons h (List.forall₂_same.2 fun a _ => refl a)
    | succ i => exact .cons (refl c) (ih (by simpa using at_place))

/-- A change that is cut short leaves the items behind as they are. -/
theorem Change.forall₂_each {f : α → Change α} (h : ∀ a, ρ a (f a).state) (as : List α) :
    Forall₂ ρ as (each f as).state := by
  induction as with
  | nil => exact .nil
  | cons a as ih =>
    have ha := h a
    rw [each]
    rcases hf : f a with ⟨b, _ | e⟩
    · rw [hf] at ha
      exact .cons ha ih
    · rw [hf] at ha
      exact .cons ha (List.forall₂_same.2 fun a _ => refl a)

end

namespace DieResult

/-! ## Keeping and dropping -/

/-- What keeping and dropping may make of a result. -/
inductive Discards (r : DieResult) : DieResult → Prop
  | leave : Discards r r
  | discard : Discards r r.discard

/-- It makes no difference whether a result is discarded twice. -/
theorem Discards.trans {r s t : DieResult} (h : r.Discards s) (h' : s.Discards t) :
    r.Discards t := by
  cases h with
  | leave => exact h'
  | discard => cases h' <;> exact .discard

theorem discards_self (rs : List DieResult) : Forall₂ Discards rs rs :=
  List.forall₂_same.2 fun _ _ => .leave

theorem discards_discardBeyond (ascending : Bool) (cut : Value) (rs : List DieResult) :
    Forall₂ Discards rs (discardBeyond ascending cut rs).state := by
  refine Change.forall₂_each (fun _ => .leave) ?_ rs
  intro r
  unfold discardOne
  split
  · cases beyond ascending cut r.face with
    | error e => exact .leave
    | ok gone =>
      cases gone with
      | false => exact .leave
      | true => exact .discard
  · exact .leave

theorem discards_discardTies (cut : Value) (n : ℕ) (rs : List DieResult) :
    Forall₂ Discards rs (discardTies cut n rs) := by
  fun_induction discardTies cut n rs with
  | case1 rs => exact discards_self rs
  | case2 n => exact .nil
  | case3 n r rs tie ih => exact .cons .discard ih
  | case4 n r rs other ih => exact .cons .leave ih

theorem discards_discardAround (ascending : Bool) (n : ℕ) (front : List DieResult)
    (own : DieResult) (back : List DieResult) :
    Forall₂ Discards (front ++ own :: back) (discardAround ascending n front own back).state := by
  have kept := discards_discardBeyond ascending own.face
  unfold discardAround
  dsimp only
  split
  · exact List.rel_append (kept front) (discards_self _)
  · refine List.rel_append (kept front) (.cons ?_ (kept back))
    split
    · exact .discard
    · exact .leave

/-- **Keeping and dropping discards results**, and does nothing else to them. -/
theorem discards_keepOrDrop (number : Value) (keep highest : Bool) (rs : List DieResult) :
    Forall₂ Discards rs (keepOrDrop number keep highest rs).state := by
  unfold keepOrDrop
  dsimp only
  split
  · exact discards_self rs
  · next n cut _ =>
    split
    · split
      · next i _ =>
        split
        · next front own back at_cut =>
          have whole : rs = front ++ own :: back := by
            rw [List.splitAt_eq] at at_cut
            obtain ⟨rfl, hb⟩ := Prod.mk.inj at_cut
            rw [← hb, List.take_append_drop]
          rw [whole]
          exact discards_discardAround _ n front own back
        · exact discards_self rs
      · exact discards_self rs
      · exact discards_self rs
    · have kept := discards_discardBeyond (keep == highest) cut rs
      split
      · exact kept
      · exact forall₂_trans (fun _ _ _ h => h.trans) kept (discards_discardTies cut _ _)

/-- What discarding keeps of a result holds of all results that were kept or dropped. -/
theorem forall_of_discards {P : DieResult → Prop} (discard : ∀ r, P r → P r.discard)
    {rs ss : List DieResult} (h : Forall₂ Discards rs ss) (all : ∀ r ∈ rs, P r) :
    ∀ s ∈ ss, P s := by
  refine forall_of_forall₂ ?_ h all
  rintro r _ (_ | _) hr
  · exact hr
  · exact discard r hr

end DieResult

end DiceFormula
