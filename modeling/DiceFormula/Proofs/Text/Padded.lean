import DiceFormula.Proofs.Formula.Spacing
import DiceFormula.Proofs.Text.Solid

/-!
# White space around and between texts

White space at the ends of a text is lost when it is normalized (`Blank.normalize_padded`), and what
stands around a character between two texts becomes a single space on either side
(`Blank.normalize_parted`). So texts are normalized one by one where a sign between white space
parts them.
-/

namespace DiceFormula.Blank

variable {cs ds : List Char}

/-- Only white space. -/
def Gap (cs : List Char) : Prop := ∀ c ∈ cs, isBlank c = true

instance : DecidablePred Gap := fun cs =>
  decidable_of_iff (cs.all isBlank = true) List.all_eq_true

theorem gap_nil : Gap [] := List.forall_mem_nil _

theorem Gap.squeezeFrom_append (h : Gap ds) (cs : List Char) :
    squeezeFrom true (ds ++ cs) = squeezeFrom true cs := by
  induction ds with
  | nil => rfl
  | cons d ds ih =>
    obtain ⟨hd, hds⟩ := List.forall_mem_cons.1 h
    rw [List.cons_append, squeezeFrom, if_pos hd, if_pos rfl, ih hds]

theorem Gap.trimRight_eq_nil (h : Gap ds) : trimRight ds = [] := by
  induction ds with
  | nil => rfl
  | cons d ds ih =>
    obtain ⟨hd, hds⟩ := List.forall_mem_cons.1 h
    rw [trimRight, ih hds, if_pos hd]

/-- White space around a text does not show when the text is trimmed. -/
theorem trim_padded {before after : List Char} (hb : Gap before) (ha : Gap after)
    (cs : List Char) : trim (before ++ (cs ++ after)) = trim cs := by
  have front : trimLeft (before ++ (cs ++ after)) = trimLeft (cs ++ after) :=
    List.dropWhile_append_of_pos hb
  rw [trim, front, trimLeft, List.dropWhile_append]
  split
  · next empty =>
    rw [trim, trimLeft, List.isEmpty_iff.1 empty, List.dropWhile_eq_nil_iff.2 ha]
  · exact trimRight_append_of_eq_nil ha.trimRight_eq_nil _

theorem gap_squeezeFrom (h : Gap ds) (gap : Bool) : Gap (squeezeFrom gap ds) := by
  intro c hc
  rcases mem_of_mem_squeezeFrom hc with hc | rfl
  · exact h c hc
  · rfl

/-- Squeezing behind a space leaves out the white space at the front. -/
theorem squeezeFrom_true (cs : List Char) :
    squeezeFrom true cs = trimLeft (squeezeFrom false cs) := by
  induction cs with
  | nil => rfl
  | cons c cs ih =>
    cases blank : isBlank c with
    | true =>
      have space : trimLeft (' ' :: squeezeFrom true cs) = trimLeft (squeezeFrom true cs) := rfl
      have again : trimLeft (trimLeft (squeezeFrom false cs)) = trimLeft (squeezeFrom false cs) :=
        trimLeft_of_begun (begun_trimLeft _)
      simp only [squeezeFrom, blank, if_true, Bool.false_eq_true, if_false]
      rw [space, ih, again]
    | false =>
      have begun : Begun (c :: squeezeFrom false cs) := blank
      rw [squeezeFrom_cons blank, squeezeFrom_cons blank, trimLeft_of_begun begun]

theorem normalize_eq (cs : List Char) : normalize cs = trimRight (squeezeFrom true cs) := by
  rw [normalize, trim, squeezeFrom_true]

/-- White space at the end is lost, whatever stands before. -/
theorem Gap.trimRight_squeezeFrom (h : Gap ds) (gap : Bool) (cs : List Char) :
    trimRight (squeezeFrom gap (cs ++ ds)) = trimRight (squeezeFrom gap cs) := by
  induction cs generalizing gap with
  | nil => exact (gap_squeezeFrom h gap).trimRight_eq_nil
  | cons c cs ih =>
    cases blank : isBlank c with
    | true => cases gap <;> simp [squeezeFrom, blank, trimRight, ih]
    | false => simp [squeezeFrom, blank, trimRight, ih]

/-- **White space at the ends is lost.** -/
theorem normalize_padded {before after : List Char} (hb : Gap before) (ha : Gap after)
    (cs : List Char) : normalize (before ++ (cs ++ after)) = normalize cs := by
  rw [normalize_eq, hb.squeezeFrom_append, ha.trimRight_squeezeFrom, normalize_eq]

/-! ## Texts with a character between them -/

theorem Gap.squeezeFrom_false (h : Gap ds) (some : ds ≠ []) (cs : List Char) :
    squeezeFrom false (ds ++ cs) = ' ' :: squeezeFrom true cs := by
  obtain ⟨d, ds, rfl⟩ := List.exists_cons_of_ne_nil some
  obtain ⟨hd, hds⟩ := List.forall_mem_cons.1 h
  rw [List.cons_append, squeezeFrom, if_pos hd, if_neg Bool.false_ne_true,
    Gap.squeezeFrom_append hds]

/-- White space behind a text becomes one space, unless it goes on with a space before it. -/
theorem Gap.squeezeFrom_behind (h : Gap ds) (some : ds ≠ []) (gap : Bool) (cs : List Char) :
    squeezeFrom gap (cs ++ ds)
      = if gap && (trimRight (squeezeFrom gap cs)).isEmpty then []
        else trimRight (squeezeFrom gap cs) ++ [' '] := by
  induction cs generalizing gap with
  | nil =>
    have first := h.squeezeFrom_false some []
    have later := h.squeezeFrom_append []
    rw [List.append_nil] at first later
    cases gap
    · exact first
    · exact later
  | cons c cs ih =>
    cases blank : isBlank c with
    | true =>
      cases gap with
      | true => simpa [squeezeFrom, blank] using ih true
      | false =>
        have space : isBlank ' ' = true := rfl
        simp only [List.cons_append, squeezeFrom, blank, if_true, Bool.false_eq_true, if_false,
          ih true, trimRight, space]
        cases trimRight (squeezeFrom true cs) <;> rfl
    | false =>
      rw [List.cons_append, squeezeFrom_cons blank, squeezeFrom_cons blank,
        trimRight_cons_of_not_blank blank, ih false]
      simp

/-- **White space around a character between two texts becomes a single space on either side.** -/
theorem normalize_parted {c : Char} (hc : isBlank c = false) {before after : List Char}
    (hb : Gap before) (ha : Gap after) (some : before ≠ []) (some' : after ≠ [])
    (full : normalize cs ≠ []) (full' : normalize ds ≠ []) :
    normalize (cs ++ (before ++ c :: (after ++ ds)))
      = normalize cs ++ ' ' :: c :: ' ' :: normalize ds := by
  have front : squeezeFrom true (cs ++ before) = normalize cs ++ [' '] := by
    rw [hb.squeezeFrom_behind some, ← normalize_eq, if_neg (by simpa using full)]
  have back : trimRight (squeezeFrom false (after ++ ds)) = ' ' :: normalize ds := by
    rw [ha.squeezeFrom_false some', ← List.singleton_append,
      trimRight_append_of_ne_nil (by rwa [← normalize_eq]), ← normalize_eq]
    rfl
  have rest : trimRight (c :: squeezeFrom false (after ++ ds)) = c :: ' ' :: normalize ds := by
    rw [trimRight_cons_of_not_blank hc, back]
  rw [← List.append_assoc, normalize_eq, squeezeFrom_append_cons hc, front,
    trimRight_append_of_ne_nil (by rw [rest]; exact List.cons_ne_nil _ _), rest]
  simp

/-- A character in front of a text stays there, with a single space behind it or none. -/
theorem normalize_cons {c : Char} (hc : isBlank c = false) (full : normalize cs ≠ []) :
    normalize (c :: cs) = c :: normalize cs ∨ normalize (c :: cs) = c :: ' ' :: normalize cs := by
  have front : normalize (c :: cs) = c :: trimRight (squeezeFrom false cs) := by
    rw [normalize_eq, squeezeFrom_cons hc, trimRight_cons_of_not_blank hc]
  rw [front, normalize_eq]
  rw [normalize_eq] at full
  cases cs with
  | nil => exact .inl rfl
  | cons d cs =>
    cases blank : isBlank d with
    | true =>
      simp only [squeezeFrom, blank, if_true, Bool.false_eq_true, if_false] at full ⊢
      exact .inr (congrArg (c :: ·) (trimRight_append_of_ne_nil full [' ']))
    | false => exact .inl (by rw [squeezeFrom_cons blank, squeezeFrom_cons blank])

end DiceFormula.Blank
