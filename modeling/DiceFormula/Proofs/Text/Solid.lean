import DiceFormula.Proofs.Text.Blank

/-!
# Texts without loose white space

A `Solid` text has single spaces only, and none of them at its ends: normalizing such a text changes
nothing (`Blank.Solid.normalize`), and it comes out of trimming a part of one (`Blank.solid_trim`).
Solid texts may be written side by side, or with a space between them.
-/

namespace DiceFormula.Blank

/-- All white space is single spaces, none of them at the ends. -/
structure Solid (cs : List Char) : Prop where
  squeezed : IsSqueezed false cs
  begun : Begun cs
  ended : ∀ c ∈ cs.getLast?, isBlank c = false

variable {cs ds : List Char} {gap : Bool}

theorem isSqueezed_cons {c : Char} (h : isBlank c = false) :
    IsSqueezed gap (c :: cs) ↔ IsSqueezed false cs := by
  simp [IsSqueezed, h]

/-- The only white space are spaces. -/
theorem IsSqueezed.eq_space (h : IsSqueezed gap cs) {c : Char} (hc : c ∈ cs)
    (blank : isBlank c = true) : c = ' ' := by
  induction cs generalizing gap with
  | nil => exact absurd hc List.not_mem_nil
  | cons d cs ih =>
    by_cases hd : isBlank d = true
    · simp only [IsSqueezed, hd, if_true] at h
      rcases List.mem_cons.1 hc with rfl | hc
      · exact h.2.1
      · exact ih h.2.2 hc
    · rw [Bool.not_eq_true] at hd
      rcases List.mem_cons.1 hc with rfl | hc
      · rw [hd] at blank
        cases blank
      · exact ih ((isSqueezed_cons hd).1 h) hc

theorem IsSqueezed.left (h : IsSqueezed gap (cs ++ ds)) : IsSqueezed gap cs := by
  induction cs generalizing gap with
  | nil => trivial
  | cons c cs ih =>
    by_cases blank : isBlank c = true
    · simp only [List.cons_append, IsSqueezed, blank, if_true] at h ⊢
      exact ⟨h.1, h.2.1, ih h.2.2⟩
    · rw [Bool.not_eq_true] at blank
      exact (isSqueezed_cons blank).2 (ih ((isSqueezed_cons blank).1 h))

/-- What follows a character that is no white space is squeezed by itself. -/
theorem IsSqueezed.append_cons {d : Char} (hc : IsSqueezed gap cs) (hd : isBlank d = false)
    (hds : IsSqueezed false ds) : IsSqueezed gap (cs ++ d :: ds) := by
  induction cs generalizing gap with
  | nil => exact (isSqueezed_cons hd).2 hds
  | cons c cs ih =>
    by_cases blank : isBlank c = true
    · simp only [List.cons_append, IsSqueezed, blank, if_true] at hc ⊢
      exact ⟨hc.1, hc.2.1, ih hc.2.2⟩
    · rw [Bool.not_eq_true] at blank
      exact (isSqueezed_cons blank).2 (ih ((isSqueezed_cons blank).1 hc))

theorem IsSqueezed.append (hc : IsSqueezed gap cs) (full : cs ≠ [])
    (last : ∀ c ∈ cs.getLast?, isBlank c = false) (hd : IsSqueezed false ds) :
    IsSqueezed gap (cs ++ ds) := by
  obtain ⟨front, c, rfl⟩ := List.eq_nil_or_concat cs |>.resolve_left full
  rw [List.concat_eq_append] at *
  have blank : isBlank c = false := last c (by simp)
  rw [List.append_assoc]
  exact hc.left.append_cons blank hd

theorem IsSqueezed.right (h : IsSqueezed gap (cs ++ ds)) : IsSqueezed false ds := by
  induction cs generalizing gap with
  | nil => exact h.of_gap
  | cons c cs ih =>
    by_cases blank : isBlank c = true
    · simp only [List.cons_append, IsSqueezed, blank, if_true] at h
      exact ih h.2.2
    · rw [Bool.not_eq_true] at blank
      exact ih ((isSqueezed_cons blank).1 h)

/-- A stretch of a text with single spaces has single spaces. -/
theorem IsSqueezed.stretch (h : IsSqueezed gap ds) (stretch : cs <:+: ds) : IsSqueezed false cs := by
  obtain ⟨before, after, rfl⟩ := stretch
  exact h.left.right

theorem getLast?_trimRight (cs : List Char) : ∀ c ∈ (trimRight cs).getLast?, isBlank c = false := by
  induction cs with
  | nil =>
    intro c hc
    cases hc
  | cons c cs ih =>
    unfold trimRight
    cases hr : trimRight cs with
    | nil =>
      by_cases blank : isBlank c = true
      · rw [if_pos blank]
        intro d hd
        cases hd
      · rw [if_neg blank]
        intro d hd
        rw [← Option.some.inj hd]
        simpa using blank
    | cons d ds =>
      rw [hr] at ih
      simpa only [List.getLast?_cons_cons] using ih

theorem solid_trim (h : IsSqueezed gap cs) : Solid (trim cs) where
  squeezed := h.trimLeft.trimRight
  begun := begun_trimRight (begun_trimLeft cs)
  ended := getLast?_trimRight _

theorem solid_normalize (cs : List Char) : Solid (normalize cs) :=
  solid_trim (isSqueezed_squeezeFrom false cs)

/-- A text without white space. -/
theorem solid_of_forall (h : ∀ c ∈ cs, isBlank c = false) : Solid cs where
  squeezed := by
    induction cs with
    | nil => trivial
    | cons c cs ih =>
      obtain ⟨hc, hcs⟩ := List.forall_mem_cons.1 h
      exact (isSqueezed_cons hc).2 (ih hcs)
  begun := by
    cases cs with
    | nil => trivial
    | cons c cs => exact h c List.mem_cons_self
  ended := fun c hc => h c (List.mem_of_getLast? hc)

theorem trimRight_of_ended (h : ∀ c ∈ cs.getLast?, isBlank c = false) : trimRight cs = cs := by
  induction cs with
  | nil => rfl
  | cons c cs ih =>
    cases cs with
    | nil => simp [trimRight, h c rfl]
    | cons d cs =>
      rw [List.getLast?_cons_cons] at h
      rw [trimRight, ih h]

theorem trimRight_append_of_eq_nil (h : trimRight ds = []) (cs : List Char) :
    trimRight (cs ++ ds) = trimRight cs := by
  induction cs with
  | nil => exact h
  | cons c cs ih => rw [List.cons_append, trimRight, trimRight, ih]

theorem trimRight_append_of_ne_nil (h : trimRight ds ≠ []) (cs : List Char) :
    trimRight (cs ++ ds) = cs ++ trimRight ds := by
  induction cs with
  | nil => rfl
  | cons c cs ih =>
    obtain ⟨e, es, hes⟩ := List.exists_cons_of_ne_nil (List.append_ne_nil_of_right_ne_nil cs h)
    rw [List.cons_append, trimRight, ih, hes, List.cons_append, hes]

namespace Solid

theorem trim (h : Solid cs) : Blank.trim cs = cs := by
  rw [Blank.trim, trimLeft_of_begun h.begun, trimRight_of_ended h.ended]

/-- **Normalizing a solid text changes nothing.** -/
theorem normalize (h : Solid cs) : Blank.normalize cs = cs := by
  rw [Blank.normalize, squeezeFrom_of_isSqueezed h.squeezed, h.trim]

theorem append (hc : Solid cs) (hd : Solid ds) : Solid (cs ++ ds) := by
  cases cs with
  | nil => exact hd
  | cons c cs =>
    refine ⟨hc.squeezed.append (List.cons_ne_nil _ _) hc.ended hd.squeezed, hc.begun, ?_⟩
    rw [List.getLast?_append]
    intro d last
    cases hl : ds.getLast? with
    | none =>
      rw [hl] at last
      exact hc.ended d last
    | some e =>
      rw [hl] at last
      rw [← Option.some.inj last]
      exact hd.ended e hl

theorem cons {c : Char} (hc : isBlank c = false) (h : Solid cs) : Solid (c :: cs) :=
  (solid_of_forall (List.forall_mem_singleton.2 hc)).append h

/-- A space may stand between solid texts that say something. -/
theorem spaced (hc : Solid cs) (hd : Solid ds) (full : cs ≠ []) (full' : ds ≠ []) :
    Solid (cs ++ ' ' :: ds) := by
  obtain ⟨c, cs, rfl⟩ := List.exists_cons_of_ne_nil full
  obtain ⟨d, ds, rfl⟩ := List.exists_cons_of_ne_nil full'
  have next : IsSqueezed false (' ' :: d :: ds) := by
    refine ⟨rfl, rfl, ?_⟩
    exact (isSqueezed_cons hd.begun).2 ((isSqueezed_cons hd.begun).1 hd.squeezed)
  refine ⟨hc.squeezed.append full hc.ended next, hc.begun, ?_⟩
  rw [List.getLast?_append, List.getLast?_cons_cons]
  intro e last
  refine hd.ended e ?_
  rw [List.getLast?_cons] at last ⊢
  exact last

/-- A text between characters that are no white space. -/
theorem between {c d : Char} (hc : isBlank c = false) (hd : isBlank d = false)
    (h : IsSqueezed false cs) : Solid (c :: cs ++ [d]) where
  squeezed := by
    rw [List.cons_append, isSqueezed_cons hc]
    exact h.append_cons hd trivial
  begun := hc
  ended := by
    rw [List.getLast?_append]
    intro e last
    rwa [← Option.some.inj last]

end Solid

end DiceFormula.Blank
