import DiceFormula.Error

/-!
# Computations that may fail

What is known of a computation once it has given a result: the parts it is made of have given one
too.
-/

namespace DiceFormula

variable {ε α β : Type}

@[simp] theorem pure_eq_ok (a : α) : (pure a : Except ε α) = .ok a := rfl

@[simp] theorem bind_ok (a : α) (f : α → Except ε β) : (Except.ok a >>= f) = f a := rfl

@[simp] theorem bind_error (e : ε) (f : α → Except ε β) :
    ((Except.error e : Except ε α) >>= f) = .error e := rfl

theorem bind_eq_ok {x : Except ε α} {f : α → Except ε β} {b : β} :
    (x >>= f) = .ok b ↔ ∃ a, x = .ok a ∧ f a = .ok b := by
  cases x with
  | ok a => simp
  | error e => simp

theorem eq_ok_of_toOption {x : Except ε α} {a : α} (h : x.toOption = some a) : x = .ok a := by
  cases x with
  | ok b => exact congrArg Except.ok (Option.some.inj h)
  | error e => cases h

/-- A result of which a check can be computed. -/
theorem exists_ok_of_any {x : Except ε α} {p : α → Bool} (h : x.toOption.any p = true) :
    ∃ a, x = .ok a ∧ p a = true := by
  cases x with
  | ok a => exact ⟨a, rfl, h⟩
  | error e => cases h

/-- What a computation comes to: a value that satisfies `P`, or a failure that satisfies `F`. -/
def Outcome (P : α → Prop) (F : ε → Prop) : Except ε α → Prop
  | .ok a => P a
  | .error e => F e

theorem Outcome.bind {P : α → Prop} {Q : β → Prop} {F : ε → Prop} {x : Except ε α}
    {f : α → Except ε β} (hx : Outcome P F x) (hf : ∀ a, P a → Outcome Q F (f a)) :
    Outcome Q F (x >>= f) := by
  cases x with
  | ok a => exact hf a hx
  | error e => exact hx

theorem Outcome.mono {P Q : α → Prop} {F G : ε → Prop} {x : Except ε α} (h : Outcome P F x)
    (hPQ : ∀ a, P a → Q a) (hFG : ∀ e, F e → G e) : Outcome Q G x := by
  cases x with
  | ok a => exact hPQ a h
  | error e => exact hFG e h

/-- How a computation may fail and what it may come to are known apart from each other. -/
theorem Outcome.of_ok {P Q : α → Prop} {F : ε → Prop} {x : Except ε α} (h : Outcome Q F x)
    (hP : ∀ a, x = .ok a → P a) : Outcome P F x := by
  cases x with
  | ok a => exact hP a rfl
  | error e => exact h

/-- What every step of a fold keeps holds of its result, if no step fails otherwise. -/
theorem Outcome.foldlM {I : β → Prop} {F : ε → Prop} {f : β → α → Except ε β} :
    ∀ {as : List α} {b : β}, I b → (∀ b, I b → ∀ a ∈ as, Outcome I F (f b a)) →
      Outcome I F (as.foldlM f b)
  | [], _, hb, _ => hb
  | a :: as, b, hb, step => by
    rw [List.foldlM_cons]
    refine (step b hb a List.mem_cons_self).bind fun c hc => ?_
    exact Outcome.foldlM hc fun d hd a ha => step d hd a (List.mem_cons_of_mem _ ha)

/-- Every item is made of an item, unless one of them fails. -/
theorem Outcome.mapM {P : β → Prop} {F : ε → Prop} {f : α → Except ε β} :
    ∀ {as : List α}, (∀ a ∈ as, Outcome P F (f a)) → Outcome (fun bs => ∀ b ∈ bs, P b) F (as.mapM f)
  | [], _ => List.forall_mem_nil P
  | a :: as, h => by
    obtain ⟨ha, has⟩ := List.forall_mem_cons.1 h
    rw [List.mapM_cons]
    refine ha.bind fun b hb => (Outcome.mapM has).bind fun bs hbs => ?_
    exact List.forall_mem_cons.2 ⟨hb, hbs⟩

/-- Every item of a result was made of an item. -/
theorem forall_of_mapM_eq_ok {f : α → Except ε β} {P : β → Prop} :
    ∀ {as : List α} {bs : List β}, as.mapM f = .ok bs →
      (∀ a ∈ as, ∀ b, f a = .ok b → P b) → ∀ b ∈ bs, P b
  | [], bs, h, _ => by
    obtain rfl : [] = bs := Except.ok.inj h
    intro _ hb
    exact absurd hb List.not_mem_nil
  | a :: as, bs, h, hP => by
    rw [List.mapM_cons, bind_eq_ok] at h
    obtain ⟨b, hb, h⟩ := h
    obtain ⟨rest, hrest, h⟩ := bind_eq_ok.1 h
    obtain rfl := Except.ok.inj h
    obtain ⟨ha, has⟩ := List.forall_mem_cons.1 hP
    exact List.forall_mem_cons.2 ⟨ha b hb, forall_of_mapM_eq_ok hrest has⟩

/-- What every step of a fold keeps holds of its result. -/
theorem of_foldlM_eq_ok {f : β → α → Except ε β} {I : β → Prop} :
    ∀ {as : List α} {b c : β}, as.foldlM f b = .ok c → I b →
      (∀ a ∈ as, ∀ b c, I b → f b a = .ok c → I c) → I c
  | [], b, c, h, hb, _ => by
    obtain rfl : b = c := Except.ok.inj h
    exact hb
  | a :: as, b, c, h, hb, step => by
    rw [List.foldlM_cons, bind_eq_ok] at h
    obtain ⟨d, hd, h⟩ := h
    obtain ⟨ha, has⟩ := List.forall_mem_cons.1 step
    exact of_foldlM_eq_ok h (ha b d hb hd) has

end DiceFormula
