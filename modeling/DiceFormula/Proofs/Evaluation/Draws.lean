import DiceFormula.Proofs.Evaluation.Contract
import DiceFormula.Proofs.Fallible
import Mathlib.Algebra.GroupWithZero.Nat
import Mathlib.Data.List.Forall2

/-!
# Counting draws

`Steps.Ends d Q` says of an evaluation that `Q n s a` holds wherever it ends with the result `a` in
the state `s` after `n` draws. The `Dealing` `d` tells what may come of a draw, whether there may be
one at all, and which failures are allowed: none for an evaluation that is to succeed. There is one
rule for every way to build an evaluation, and `Steps.Ends.run` carries the statement over to a run
on a source of draws.

`Each` does the same for lists: items become others one by one, and their draws add up.
-/

namespace DiceFormula

/-- How an evaluation is dealt with: whether it may draw, what may come of a draw, and how it may
fail. -/
structure Dealing where
  mayDraw : Prop := True
  drawn : Option Float → Prop := fun _ => True
  fail : Error → Prop := fun _ => True

namespace Dealing

/-- Anything may be drawn, and anything may fail. -/
def any : Dealing := {}

/-- Nothing is drawn, and nothing fails. -/
def sure : Dealing := { mayDraw := False, fail := fun _ => False }

/-- What a computation that rolls nothing may come to: a value that satisfies `P`, or a failure. -/
abbrev Allows {α : Type} (d : Dealing) (P : α → Prop) : Except Error α → Prop := Outcome P d.fail

/-- Where every failure is allowed, only values count. -/
theorem allows_of_ok {α : Type} {d : Dealing} {P : α → Prop} {x : Except Error α}
    (free : ∀ e, d.fail e) (h : ∀ a, x = .ok a → P a) : d.Allows P x := by
  cases x with
  | ok a => exact h a rfl
  | error e => exact free e

end Dealing

/-- What may come of the draws of a source. -/
def Source.Gives (P : Option Float → Prop) (src : Source) : Prop :=
  (∀ x ∈ src.pending, P (some x)) ∧ P src.fill

/-- What may come of the draws of a source may come of its next one, and of those after that. -/
theorem Source.Gives.next {P : Option Float → Prop} {src : Source} (h : src.Gives P) :
    P src.next.1 ∧ src.next.2.Gives P := by
  obtain ⟨pending, fill, used⟩ := src
  obtain ⟨hpending, hfill⟩ := h
  cases pending with
  | cons x xs =>
    obtain ⟨hx, hxs⟩ := List.forall_mem_cons.1 hpending
    exact ⟨hx, hxs, hfill⟩
  | nil => cases fill <;> exact ⟨hfill, hpending, hfill⟩

theorem Source.gives_any (src : Source) : src.Gives Dealing.any.drawn :=
  ⟨fun _ _ => trivial, trivial⟩

namespace Steps

variable {σ τ α β : Type} {d : Dealing}

/-- Wherever the evaluation ends, `Q` holds of the number of its draws, its state and its result. -/
def Ends (d : Dealing) : (Nat → σ → α → Prop) → Steps σ α → Prop
  | Q, done s a => Q 0 s a
  | _, fail _ e => d.fail e
  | Q, pause _ _ rest => Ends d Q (rest ())
  | Q, draw rest => d.mayDraw ∧ (∀ x, d.drawn (some x) → Ends d (fun n => Q (n + 1)) (rest (some x)))
      ∧ (d.drawn none → Ends d Q (rest none))

/-- What a contract promises of the results holds whatever is drawn. -/
theorem Meets.ends {c : Contract σ α} {x : Steps σ α} (h : x.Meets c) :
    x.Ends .any fun _ s a => c.done s a := by
  induction x with
  | done s a => exact h
  | fail s e => exact trivial
  | pause now left rest ih => exact ih () h.2.2
  | draw rest ih => exact ⟨trivial, fun x _ => ih _ (h _), fun _ => ih _ (h _)⟩

namespace Ends

/-! ## Rules -/

theorem mono {Q P : Nat → σ → α → Prop} {x : Steps σ α} (h : x.Ends d Q)
    (hQ : ∀ n s a, Q n s a → P n s a) : x.Ends d P := by
  induction x generalizing Q P with
  | done s a => exact hQ 0 s a h
  | fail s e => exact h
  | pause now left rest ih => exact ih () h hQ
  | draw rest ih =>
    refine ⟨h.1, ?_, ?_⟩
    · intro x hx
      exact ih _ (h.2.1 x hx) fun n => hQ (n + 1)
    · intro hx
      exact ih _ (h.2.2 hx) hQ

/-- What holds wherever the evaluation ends, holds there as well. -/
theorem and {Q P : Nat → σ → α → Prop} {x : Steps σ α} (h : x.Ends d Q) (hP : x.Ends .any P) :
    x.Ends d fun n s a => Q n s a ∧ P n s a := by
  induction x generalizing Q P with
  | done s a => exact ⟨h, hP⟩
  | fail s e => exact h
  | pause now left rest ih => exact ih () h hP
  | draw rest ih =>
    refine ⟨h.1, ?_, ?_⟩
    · intro x hx
      exact ih _ (h.2.1 x hx) (hP.2.1 x trivial)
    · intro hx
      exact ih _ (h.2.2 hx) (hP.2.2 trivial)

/-- Where nothing may be drawn, nothing is. -/
theorem noDraws {Q : Nat → σ → α → Prop} {x : Steps σ α} (h : x.Ends d Q) (never : ¬d.mayDraw)
    {d' : Dealing} (free : ∀ e, d'.fail e) : x.Ends d' fun n s a => n = 0 ∧ Q 0 s a := by
  induction x with
  | done s a => exact ⟨rfl, h⟩
  | fail s e => exact free e
  | pause now left rest ih => exact ih () h
  | draw rest ih => exact absurd h.1 never

/-- One evaluation after another: the draws add up. -/
theorem bind {Q : Nat → σ → α → Prop} {P : Nat → σ → β → Prop} {x : Steps σ α}
    {f : σ → α → Steps σ β} (hx : x.Ends d Q)
    (hf : ∀ k s a, Q k s a → (f s a).Ends d fun n => P (k + n)) : (x.bind f).Ends d P := by
  induction x generalizing Q P with
  | done s a => exact (hf 0 s a hx).mono fun n _ _ h => by simpa using h
  | fail s e => exact hx
  | pause now left rest ih => exact ih () hx hf
  | draw rest ih =>
    refine ⟨hx.1, ?_, ?_⟩
    · intro x hd
      refine ih _ (hx.2.1 x hd) fun k s a hk => (hf (k + 1) s a hk).mono fun n _ _ h => ?_
      rwa [Nat.add_right_comm] at h
    · intro hd
      exact ih _ (hx.2.2 hd) hf

theorem mapState {f : σ → τ} {Q : Nat → τ → α → Prop} {x : Steps σ α}
    (hx : x.Ends d fun n s a => Q n (f s) a) : (x.mapState f).Ends d Q := by
  induction x generalizing Q with
  | done s a => exact hx
  | fail s e => exact hx
  | pause now left rest ih => exact ih () hx
  | draw rest ih => exact ⟨hx.1, fun x hd => ih _ (hx.2.1 x hd), fun hd => ih _ (hx.2.2 hd)⟩

theorem beside {t : τ} {Q : Nat → τ → σ × α → Prop} {x : Steps σ α}
    (hx : x.Ends d fun n s a => Q n t (s, a)) : (x.beside t).Ends d Q := by
  induction x generalizing Q with
  | done s a => exact hx
  | fail s e => exact hx
  | pause now left rest ih => exact ih () hx
  | draw rest ih => exact ⟨hx.1, fun x hd => ih _ (hx.2.1 x hd), fun hd => ih _ (hx.2.2 hd)⟩

theorem onFail {f : Error → σ → σ} {Q : Nat → σ → α → Prop} {x : Steps σ α} (hx : x.Ends d Q) :
    (x.onFail f).Ends d Q := by
  induction x generalizing Q with
  | done s a => exact hx
  | fail s e => exact hx
  | pause now left rest ih => exact ih () hx
  | draw rest ih => exact ⟨hx.1, fun x hd => ih _ (hx.2.1 x hd), fun hd => ih _ (hx.2.2 hd)⟩

theorem onStop {f : σ → Left σ} {Q : Nat → σ → α → Prop} {x : Steps σ α} (hx : x.Ends d Q) :
    (x.onStop f).Ends d Q := by
  induction x generalizing Q with
  | done s a => exact hx
  | fail s e => exact hx
  | pause now left rest ih => exact ih () hx
  | draw rest ih => exact ⟨hx.1, fun x hd => ih _ (hx.2.1 x hd), fun hd => ih _ (hx.2.2 hd)⟩

/-! ## Runs -/

/-- What the report of a run tells that began with the source `src`. A run that is stopped tells
nothing, and neither does one that failed while the state before was restored. -/
def Tells (d : Dealing) (Q : Nat → σ → α → Prop) (src : Source) (report : Report σ α) : Prop :=
  (¬d.mayDraw → report.source = src)
    ∧ ∀ a, report.ending = .finished a →
      ∃ n, report.source.used = src.used + n ∧ Q n report.state a

theorem tells_runFrom {Q : Nat → σ → α → Prop} {x : Steps σ α} (hx : x.Ends d Q) (rule : StopRule)
    (start : Nat) (points : List Nat) {src : Source} (hsrc : src.Gives d.drawn) :
    Tells d Q src (x.runFrom rule start points src) := by
  induction x generalizing Q points src with
  | done s a =>
    refine ⟨fun _ => rfl, ?_⟩
    intro b hb
    obtain rfl := Ending.finished.inj hb
    exact ⟨0, rfl, hx⟩
  | fail s e => exact ⟨fun _ => rfl, fun a h => by cases h⟩
  | pause now left rest ih =>
    simp only [runFrom]
    split
    · cases left <;> exact ⟨fun _ => rfl, fun a h => by cases h⟩
    · exact ih () hx _ hsrc
  | draw rest ih =>
    obtain ⟨may, some, none⟩ := hx
    refine ⟨fun h => absurd may h, ?_⟩
    obtain ⟨pending, fill, used⟩ := src
    obtain ⟨hpending, hfill⟩ := hsrc
    -- a draw that was made counts as one more
    have drew {x : Float} {next : Source} (hx : d.drawn (.some x)) (hnext : next.Gives d.drawn)
        (hused : next.used = used + 1) :
        ∀ a, ((rest (.some x)).runFrom rule start points next).ending = .finished a →
          ∃ n, ((rest (.some x)).runFrom rule start points next).source.used = used + n
            ∧ Q n ((rest (.some x)).runFrom rule start points next).state a := by
      intro a ha
      obtain ⟨n, hn, hQ⟩ := (ih _ (some x hx) points hnext).2 a ha
      exact ⟨n + 1, by omega, hQ⟩
    cases pending with
    | cons x xs =>
      obtain ⟨hx, hxs⟩ := List.forall_mem_cons.1 hpending
      exact drew hx ⟨hxs, hfill⟩ rfl
    | nil =>
      cases fill with
      | some x => exact drew hfill ⟨List.forall_mem_nil _, hfill⟩ rfl
      | none => exact (ih _ (none hfill) points ⟨List.forall_mem_nil _, hfill⟩).2

/-- **What holds wherever an evaluation ends holds of its runs.** -/
theorem run {Q : Nat → σ → α → Prop} {x : Steps σ α} (hx : x.Ends d Q) (rule : StopRule)
    {src : Source} (hsrc : src.Gives d.drawn) : Tells d Q src (x.run rule src) :=
  tells_runFrom hx rule _ [] hsrc

end Ends

end Steps

/-! ## Tasks -/

namespace Task

variable {σ α : Type} {d : Dealing}

theorem ends_ofExcept {Q : Nat → σ → α → Prop} {x : Except Error α} {s : σ}
    (h : d.Allows (Q 0 s) x) : (ofExcept x s).Ends d Q := by
  cases x with
  | ok a => exact h
  | error e => exact h

/-- What is made of a computed value, where every failure is allowed. -/
theorem ends_bind_ofExcept {β : Type} {Q : Nat → σ → β → Prop} {x : Except Error α} {s : σ}
    {f : σ → α → Steps σ β} (free : ∀ e, d.fail e)
    (h : ∀ a, x = .ok a → (f s a).Ends d Q) : ((ofExcept x s).bind f).Ends d Q := by
  cases x with
  | ok a => exact h a rfl
  | error e => exact free e

/-- What a task preserves holds wherever it ends. -/
theorem Preserves.ends {I : σ → Prop} {t : Task σ α} (h : Preserves I t) {s : σ} (hs : I s) :
    (t s).Ends .any fun _ s _ => I s := (h s hs).ends

theorem ends_draw {Q : Nat → σ → Float → Prop} {s : σ} (may : d.mayDraw)
    (some : ∀ x, d.drawn (some x) → Q 1 s x) (none : d.drawn none → d.fail .drawsExhausted) :
    (draw s).Ends d Q := ⟨may, some, none⟩

end Task

/-! ## Lists -/

/-- The items of a list become those of another one by one, and the draws that each takes add up. -/
inductive Each {α β : Type} (P : α → Nat → β → Prop) : List α → Nat → List β → Prop
  | nil : Each P [] 0 []
  | cons {a : α} {k : Nat} {b : β} {as : List α} {n : Nat} {bs : List β} : P a k b →
      Each P as n bs → Each P (a :: as) (k + n) (b :: bs)

namespace Each

variable {α β : Type} {P : α → Nat → β → Prop} {as : List α} {n : Nat} {bs : List β}

theorem forall₂ (h : Each P as n bs) : List.Forall₂ (fun a b => ∃ k, P a k b) as bs := by
  induction h with
  | nil => exact .nil
  | cons hp _ ih => exact .cons ⟨_, hp⟩ ih

/-- Every item of the second list came of an item of the first one. -/
theorem exists_of_mem (h : Each P as n bs) : ∀ b ∈ bs, ∃ a ∈ as, ∃ k, P a k b := by
  induction h with
  | nil => exact List.forall_mem_nil _
  | cons hp _ ih =>
    refine List.forall_mem_cons.2 ⟨⟨_, List.mem_cons_self, _, hp⟩, ?_⟩
    intro b hb
    obtain ⟨a, ha, h⟩ := ih b hb
    exact ⟨a, List.mem_cons_of_mem _ ha, h⟩

/-- What is found in the new items is what was found in those they came of. -/
theorem flatMap {γ : Type} {f : β → List γ} {g : α → List γ} (h : Each P as n bs)
    (hfg : ∀ a ∈ as, ∀ k b, P a k b → f b = g a) : bs.flatMap f = as.flatMap g := by
  induction h with
  | nil => rfl
  | cons hp _ ih =>
    obtain ⟨ha, has⟩ := List.forall_mem_cons.1 hfg
    rw [List.flatMap_cons, List.flatMap_cons, ha _ _ hp, ih has]

/-- A measure that every item gains by its draws grows by all of them together. -/
theorem sum {μ : α → Nat} {ν : β → Nat} (h : Each P as n bs)
    (hμ : ∀ a k b, P a k b → ν b = μ a + k) : (bs.map ν).sum = (as.map μ).sum + n := by
  induction h with
  | nil => rfl
  | cons hp _ ih =>
    simp only [List.map_cons, List.sum_cons, ih, hμ _ _ _ hp]
    omega

end Each

end DiceFormula
