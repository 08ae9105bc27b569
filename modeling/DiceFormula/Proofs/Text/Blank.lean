import DiceFormula.Text.Blank

/-!
# Trimmed texts

Trimming a text twice does no more than trimming it once (`trim_trim`): what is left begins and ends
with characters that are no white space. The same holds of a text in which runs of white space are
single spaces (`normalize_normalize`), since trimming makes no new runs. All that is lost is white
space, and all that is new are single spaces (`mem_of_mem_squeezeFrom`, `mem_trim`).
-/

namespace DiceFormula.Blank

/-- A text that does not begin with white space. -/
def Begun : List Char → Prop
  | [] => True
  | c :: _ => isBlank c = false

theorem begun_trimLeft (cs : List Char) : Begun (trimLeft cs) := by
  unfold trimLeft
  cases h : cs.dropWhile isBlank with
  | nil => trivial
  | cons c r =>
    have := List.head?_dropWhile_not isBlank cs
    rw [h] at this
    simpa [Begun] using this

theorem trimLeft_of_begun : ∀ {cs : List Char}, Begun cs → trimLeft cs = cs
  | [], _ => rfl
  | c :: cs, h => by
    have hc : isBlank c = false := h
    simp [trimLeft, hc]

theorem trimRight_cons_of_not_blank {c : Char} {cs : List Char} (h : isBlank c = false) :
    trimRight (c :: cs) = c :: trimRight cs := by
  cases e : trimRight cs with
  | nil => simp [trimRight, h, e]
  | cons d ds => simp [trimRight, e]

theorem begun_trimRight : ∀ {cs : List Char}, Begun cs → Begun (trimRight cs)
  | [], _ => trivial
  | c :: cs, h => by
    rw [trimRight_cons_of_not_blank h]
    exact h

theorem trimRight_trimRight (cs : List Char) : trimRight (trimRight cs) = trimRight cs := by
  induction cs with
  | nil => rfl
  | cons c cs ih =>
    cases h : trimRight cs with
    | nil =>
      cases hc : isBlank c with
      | true => simp [trimRight, h, hc]
      | false => simp [trimRight, h, hc]
    | cons d ds =>
      have step : trimRight (c :: cs) = c :: d :: ds := by rw [trimRight, h]
      rw [h] at ih
      rw [step, trimRight, ih]

theorem trim_trim (cs : List Char) : trim (trim cs) = trim cs := by
  unfold trim
  rw [trimLeft_of_begun (begun_trimRight (begun_trimLeft cs)), trimRight_trimRight]

theorem trimString_ofList_trim (cs : List Char) :
    trimString (String.ofList (trim cs)) = String.ofList (trim cs) := by
  simp [trimString, trim_trim]

/-! ## Single spaces -/

/-- All white space is single spaces; `gap` says that one stands before. -/
def IsSqueezed : Bool → List Char → Prop
  | _, [] => True
  | gap, c :: cs =>
    if isBlank c then gap = false ∧ c = ' ' ∧ IsSqueezed true cs else IsSqueezed false cs

theorem isSqueezed_squeezeFrom (gap : Bool) (cs : List Char) :
    IsSqueezed gap (squeezeFrom gap cs) := by
  fun_induction squeezeFrom gap cs with
  | case1 => trivial
  | case2 c cs _ ih => exact ih
  | case3 gap c cs _ hgap ih => exact ⟨by simpa using hgap, rfl, ih⟩
  | case4 gap c cs hc ih => simpa [IsSqueezed, hc] using ih

theorem squeezeFrom_of_isSqueezed {gap : Bool} {cs : List Char} (h : IsSqueezed gap cs) :
    squeezeFrom gap cs = cs := by
  induction cs generalizing gap with
  | nil => rfl
  | cons c cs ih =>
    by_cases hc : isBlank c = true
    · simp only [IsSqueezed, hc, if_true] at h
      obtain ⟨rfl, rfl, h⟩ := h
      simp [squeezeFrom, hc, ih h]
    · simp only [IsSqueezed, hc] at h
      simp [squeezeFrom, hc, ih h]

theorem IsSqueezed.of_gap {gap : Bool} {cs : List Char} (h : IsSqueezed gap cs) :
    IsSqueezed false cs := by
  cases cs with
  | nil => trivial
  | cons c cs =>
    by_cases hc : isBlank c = true
    · simp only [IsSqueezed, hc, if_true] at h ⊢
      exact ⟨trivial, h.2⟩
    · simp only [IsSqueezed, hc] at h ⊢
      exact h

theorem IsSqueezed.trimLeft {gap : Bool} {cs : List Char} (h : IsSqueezed gap cs) :
    IsSqueezed false (Blank.trimLeft cs) := by
  induction cs generalizing gap with
  | nil => trivial
  | cons c cs ih =>
    unfold Blank.trimLeft at ih ⊢
    rw [List.dropWhile_cons]
    by_cases hc : isBlank c = true
    · simp only [IsSqueezed, hc, if_true] at h ⊢
      exact ih h.2.2
    · rw [if_neg hc]
      exact h.of_gap

theorem IsSqueezed.trimRight {gap : Bool} {cs : List Char} (h : IsSqueezed gap cs) :
    IsSqueezed gap (Blank.trimRight cs) := by
  induction cs generalizing gap with
  | nil => trivial
  | cons c cs ih =>
    by_cases hc : isBlank c = true
    · simp only [IsSqueezed, hc, if_true] at h
      have kept := ih h.2.2
      unfold Blank.trimRight
      cases e : Blank.trimRight cs with
      | nil =>
        rw [if_pos hc]
        trivial
      | cons d ds =>
        rw [e] at kept
        simp only [IsSqueezed, hc, if_true]
        exact ⟨h.1, h.2.1, kept⟩
    · simp only [IsSqueezed, hc] at h
      rw [trimRight_cons_of_not_blank (by simpa using hc)]
      simp only [IsSqueezed, hc]
      exact ih h

theorem normalize_normalize (cs : List Char) : normalize (normalize cs) = normalize cs := by
  have squeezed : IsSqueezed false (normalize cs) :=
    (isSqueezed_squeezeFrom false cs).trimLeft.trimRight
  rw [normalize, squeezeFrom_of_isSqueezed squeezed, normalize, trim_trim]

theorem length_squeezeFrom_le (gap : Bool) (cs : List Char) :
    (squeezeFrom gap cs).length ≤ cs.length := by
  fun_induction squeezeFrom gap cs with
  | case1 => exact Nat.le_refl _
  | case2 c cs _ ih => exact Nat.le_succ_of_le ih
  | case3 gap c cs _ _ ih | case4 gap c cs _ ih => exact Nat.succ_le_succ ih

theorem length_normalize_le (cs : List Char) : (normalize cs).length ≤ cs.length :=
  Nat.le_trans (trim_length_le _) (length_squeezeFrom_le false cs)

/-! ## The characters that are left -/

theorem mem_of_mem_squeezeFrom {gap : Bool} {d : Char} {cs : List Char} (h : d ∈ squeezeFrom gap cs) :
    d ∈ cs ∨ d = ' ' := by
  fun_induction squeezeFrom gap cs with
  | case1 => cases h
  | case2 c cs _ ih => exact (ih h).imp_left (List.mem_cons_of_mem c)
  | case3 gap c cs _ _ ih =>
    rcases List.mem_cons.1 h with h | h
    · exact .inr h
    · exact (ih h).imp_left (List.mem_cons_of_mem c)
  | case4 gap c cs _ ih =>
    rcases List.mem_cons.1 h with rfl | h
    · exact .inl List.mem_cons_self
    · exact (ih h).imp_left (List.mem_cons_of_mem c)

theorem mem_squeezeFrom {gap : Bool} {d : Char} {cs : List Char} (solid : isBlank d = false) (h : d ∈ cs) :
    d ∈ squeezeFrom gap cs := by
  have other {c : Char} (hc : isBlank c = true) : d ≠ c := by
    rintro rfl
    rw [hc] at solid
    cases solid
  fun_induction squeezeFrom gap cs with
  | case1 => cases h
  | case2 c cs blank ih => exact ih ((List.mem_cons.1 h).resolve_left (other blank))
  | case3 gap c cs blank _ ih =>
    exact List.mem_cons_of_mem _ (ih ((List.mem_cons.1 h).resolve_left (other blank)))
  | case4 gap c cs _ ih =>
    rcases List.mem_cons.1 h with rfl | h
    · exact List.mem_cons_self
    · exact List.mem_cons_of_mem _ (ih h)

/-- What is trimmed away is white space. -/
theorem exists_trim (cs : List Char) : ∃ before after, cs = before ++ (trim cs ++ after)
    ∧ (∀ c ∈ before, isBlank c = true) ∧ ∀ c ∈ after, isBlank c = true := by
  have right (cs : List Char) :
      ∃ after, cs = trimRight cs ++ after ∧ ∀ c ∈ after, isBlank c = true := by
    induction cs with
    | nil => exact ⟨[], rfl, List.forall_mem_nil _⟩
    | cons c cs ih =>
      obtain ⟨after, text, blank⟩ := ih
      rw [trimRight]
      split
      · next nothing =>
        rw [nothing] at text
        subst text
        cases hc : isBlank c with
        | true => exact ⟨c :: _, rfl, List.forall_mem_cons.2 ⟨hc, blank⟩⟩
        | false => exact ⟨_, rfl, blank⟩
      · exact ⟨after, congrArg (c :: ·) text, blank⟩
  obtain ⟨after, text, blank⟩ := right (trimLeft cs)
  refine ⟨cs.takeWhile isBlank, after, ?_, List.all_eq_true.1 List.all_takeWhile, blank⟩
  rw [trim, ← text]
  exact List.takeWhile_append_dropWhile.symm

theorem mem_of_mem_trim {c : Char} {cs : List Char} (h : c ∈ trim cs) : c ∈ cs := by
  obtain ⟨before, after, text, -, -⟩ := exists_trim cs
  rw [text]
  exact List.mem_append_right _ (List.mem_append_left _ h)

theorem mem_trim {c : Char} {cs : List Char} (h : isBlank c = false) (hc : c ∈ cs) :
    c ∈ trim cs := by
  obtain ⟨before, after, text, first, last⟩ := exists_trim cs
  have solid {ds : List Char} (blank : ∀ d ∈ ds, isBlank d = true) : c ∉ ds := by
    intro hm
    rw [blank c hm] at h
    cases h
  rw [text] at hc
  rcases List.mem_append.1 hc with hc | hc
  · exact absurd hc (solid first)
  · exact (List.mem_append.1 hc).resolve_right (solid last)

end DiceFormula.Blank
