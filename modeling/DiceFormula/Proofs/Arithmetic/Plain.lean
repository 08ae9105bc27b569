import DiceFormula.Proofs.Arithmetic.Numeral

/-!
# Plain texts

A plain text has only digits, spaces, parentheses and signs. No point and no exponent can occur in
it, so that its tokens are found character by character: `lex` collects digits and ends a numeral
wherever something else stands (`splits_lex`). Between two texts a numeral can only run on if digits
meet (`lex_append`), and white space never matters where it separates nothing (`lex_normalize`).
-/

namespace DiceFormula.Arithmetic

/-- The characters of plain texts. -/
def IsPlainChar (c : Char) : Prop :=
  c.isDigit = true ∨ c ∈ [' ', '(', ')', '+', '-', '*', '/', '%']

instance : DecidablePred IsPlainChar := fun c =>
  inferInstanceAs (Decidable (c.isDigit = true ∨ c ∈ [' ', '(', ')', '+', '-', '*', '/', '%']))

/-- A text of such characters. -/
def IsPlain (cs : List Char) : Prop := ∀ c ∈ cs, IsPlainChar c

instance : DecidablePred IsPlain := fun cs =>
  decidable_of_iff (cs.all fun c => decide (IsPlainChar c)) (by simp [IsPlain])

/-- A character that is no digit is a space or a token by itself. -/
theorem IsPlainChar.eq_space_or_ofChar? {c : Char} (h : IsPlainChar c) (hd : c.isDigit = false) :
    c = ' ' ∨ ∃ t, Token.ofChar? c = some t := by
  rcases h with h | h
  · rw [h] at hd
    cases hd
  · simp only [List.mem_cons, List.not_mem_nil, or_false] at h
    rcases h with rfl | rfl | rfl | rfl | rfl | rfl | rfl | rfl
    · exact .inl rfl
    all_goals exact .inr ⟨_, rfl⟩

/-- Ends a numeral, if one has been begun; its digits are given last one first. -/
def flushNumeral (digits : List Char) (ts : List Token) : List Token :=
  if digits = [] then ts else .numeral digits.reverse :: ts

/-- The tokens of a plain text after some digits, which are given last one first. -/
def lexFrom : List Char → List Char → List Token
  | digits, [] => flushNumeral digits []
  | digits, c :: cs =>
    if c.isDigit then lexFrom (c :: digits) cs
    else flushNumeral digits ((Token.ofChar? c).toList ++ lexFrom [] cs)

/-- The tokens of a plain text. -/
def lex (cs : List Char) : List Token := lexFrom [] cs

/-! ## Lexing is splitting -/

/-- Digits before something that is no part of a numeral are a token. -/
theorem Splits.digits {ds cs : List Char} {ts : List Token} (hd : IsInt ds)
    (stop : ∀ c ∈ cs.head?, c.isDigit = false ∧ c ≠ '.' ∧ c ≠ 'e' ∧ c ≠ 'E') (h : Splits cs ts) :
    Splits (ds ++ cs) (.numeral ds :: ts) := by
  have taken : Token.takeNumeral? (ds ++ cs) = some (ds, cs) := by
    have noPoint : cs.head? ≠ some '.' := fun hc => (stop '.' hc).2.1 rfl
    rw [Token.takeNumeral?_digits hd.2 (fun c hc => (stop c hc).1) noPoint, if_neg hd.1,
      Token.takeExponent_of_noMark fun c hc => (stop c hc).2.2, List.append_nil]
  exact .token (.numeral (.inr hd)) (Token.isLongest_of_takeNumeral? taken) h

theorem Splits.flushNumeral {digits cs : List Char} {ts : List Token} (hd : IsDigits digits)
    (stop : ∀ c ∈ cs.head?, c.isDigit = false ∧ c ≠ '.' ∧ c ≠ 'e' ∧ c ≠ 'E') (h : Splits cs ts) :
    Splits (digits.reverse ++ cs) (flushNumeral digits ts) := by
  unfold Arithmetic.flushNumeral
  by_cases h0 : digits = []
  · subst h0
    exact h
  · rw [if_neg h0]
    refine .digits ⟨by simpa using h0, ?_⟩ stop h
    intro c hc
    exact hd c (List.mem_reverse.1 hc)

theorem splits_lexFrom (digits : List Char) {cs : List Char} (hd : IsDigits digits)
    (h : IsPlain cs) :
    Splits (digits.reverse ++ cs) (lexFrom digits cs) := by
  induction cs generalizing digits with
  | nil => exact .flushNumeral hd nofun .nil
  | cons c cs ih =>
    have rest : IsPlain cs := fun d hd => h d (List.mem_cons_of_mem c hd)
    have plain : IsPlainChar c := h c List.mem_cons_self
    unfold lexFrom
    by_cases hc : c.isDigit = true
    · rw [if_pos hc]
      have := ih _ (List.forall_mem_cons.2 ⟨hc, hd⟩) rest
      rwa [List.reverse_cons, List.append_assoc] at this
    · rw [if_neg hc]
      rw [Bool.not_eq_true] at hc
      have next := ih [] nofun rest
      have stop : ∀ d ∈ (c :: cs).head?, d.isDigit = false ∧ d ≠ '.' ∧ d ≠ 'e' ∧ d ≠ 'E' := by
        intro d hd
        obtain rfl := Option.some.inj hd
        refine ⟨hc, ?_, ?_, ?_⟩ <;> rintro rfl <;> exact absurd plain (by decide)
      refine .flushNumeral hd stop ?_
      rcases plain.eq_space_or_ofChar? hc with rfl | ⟨t, ht⟩
      · exact .blank (.inl rfl) next
      · rw [ht]
        exact @Splits.token _ [c] _ _ (Token.spells_of_ofChar? ht) (Token.isLongest_of_ofChar? ht)
          next

/-- The tokens of a plain text are those that it splits into. -/
theorem splits_lex {cs : List Char} (h : IsPlain cs) : Splits cs (lex cs) :=
  splits_lexFrom [] nofun h

/-! ## Texts side by side -/

theorem lexFrom_append {digits a b : List Char} (h : NoDigit b) :
    lexFrom digits (a ++ b) = lexFrom digits a ++ lex b := by
  induction a generalizing digits with
  | nil =>
    cases b with
    | nil => simp [lex, lexFrom, flushNumeral]
    | cons c b =>
      have hc : c.isDigit = false := h c rfl
      by_cases hd : digits = [] <;> simp [lex, lexFrom, flushNumeral, hc, hd]
  | cons c a ih =>
    simp only [List.cons_append, lexFrom]
    by_cases hc : c.isDigit = true
    · rw [if_pos hc, if_pos hc]
      exact ih
    · rw [if_neg hc, if_neg hc]
      by_cases hd : digits = [] <;> simp [flushNumeral, hd, ih]

/-- Where no digit follows, two texts have their tokens one after the other. -/
theorem lex_append {a b : List Char} (h : NoDigit b) : lex (a ++ b) = lex a ++ lex b :=
  lexFrom_append h

theorem Token.not_isDigit_of_ofChar? {c : Char} {t : Token} (h : ofChar? c = some t) :
    c.isDigit = false := by
  by_cases hd : c.isDigit = true
  · rw [(ofChar?_of_numeral (.inl hd)).1] at h
    cases h
  · simpa using hd

/-- A token of a single character comes before those of the rest. -/
theorem lex_cons {c : Char} {t : Token} (cs : List Char) (h : Token.ofChar? c = some t) :
    lex (c :: cs) = t :: lex cs := by
  simp [lex, lexFrom, Token.not_isDigit_of_ofChar? h, h, flushNumeral]

/-- A space separates, and has no token itself. -/
theorem lex_space (a b : List Char) : lex (a ++ ' ' :: b) = lex a ++ lex b := by
  rw [lex_append (.cons rfl)]
  rfl

/-- A token of a single character between two texts. -/
theorem lex_between {c : Char} {t : Token} (a b : List Char) (h : Token.ofChar? c = some t) :
    lex (a ++ c :: b) = lex a ++ t :: lex b := by
  rw [lex_append (.cons (Token.not_isDigit_of_ofChar? h)), lex_cons b h]

theorem lexFrom_digits {digits w : List Char} (hw : IsDigits w) :
    lexFrom digits w = flushNumeral (w.reverse ++ digits) [] := by
  induction w generalizing digits with
  | nil => rfl
  | cons c w ih =>
    rw [lexFrom, if_pos (hw c List.mem_cons_self),
      ih fun d hd => hw d (List.mem_cons_of_mem c hd)]
    simp

/-- Digits are a numeral. -/
theorem lex_digits {w : List Char} (hw : IsInt w) : lex w = [.numeral w] := by
  rw [lex, lexFrom_digits hw.2]
  simp [flushNumeral, hw.1]

/-! ## White space -/

theorem not_digit_of_blank {c : Char} (h : Blank.isBlank c = true) :
    c.isDigit = false ∧ Token.ofChar? c = none := by
  constructor
  · by_cases hd : c.isDigit = true
    · rw [IsNumeralChar.not_blank (.inl hd)] at h
      cases h
    · simpa using hd
  · unfold Token.ofChar?
    split <;> first | rfl | cases h

theorem lexFrom_blank {c : Char} (h : Blank.isBlank c = true) (digits cs : List Char) :
    lexFrom digits (c :: cs) = flushNumeral digits (lex cs) := by
  have := not_digit_of_blank h
  simp [lexFrom, this, lex]

theorem lex_trimLeft (cs : List Char) : lex (Blank.trimLeft cs) = lex cs := by
  induction cs with
  | nil => rfl
  | cons c cs ih =>
    unfold Blank.trimLeft at ih ⊢
    rw [List.dropWhile_cons]
    by_cases hc : Blank.isBlank c = true
    · rw [if_pos hc, ih, lex, lex, lexFrom_blank hc, flushNumeral, if_pos rfl, lex]
    · rw [if_neg hc]

theorem lexFrom_trimRight (digits cs : List Char) :
    lexFrom digits (Blank.trimRight cs) = lexFrom digits cs := by
  induction cs generalizing digits with
  | nil => rfl
  | cons c cs ih =>
    unfold Blank.trimRight
    split
    · next hcs =>
      rw [hcs] at ih
      by_cases hc : Blank.isBlank c = true
      · rw [if_pos hc, lexFrom_blank hc, lex, ← ih]
        simp [lexFrom, flushNumeral]
      · rw [if_neg hc]
        simp [lexFrom, ← ih]
    · next hcs => simp [lexFrom, ← ih]

/-- White space at the ends does not matter. -/
theorem lex_trim (cs : List Char) : lex (Blank.trim cs) = lex cs := by
  rw [Blank.trim, lex, lexFrom_trimRight, ← lex, lex_trimLeft]

theorem lexFrom_squeezeFrom (cs : List Char) :
    (∀ digits, lexFrom digits (Blank.squeezeFrom false cs) = lexFrom digits cs)
      ∧ lex (Blank.squeezeFrom true cs) = lex cs := by
  induction cs with
  | nil => exact ⟨fun _ => rfl, rfl⟩
  | cons c cs ih =>
    by_cases hb : Blank.isBlank c = true
    · constructor
      · intro digits
        simp only [Blank.squeezeFrom, hb, if_true, Bool.false_eq_true, if_false]
        rw [lexFrom_blank rfl, lexFrom_blank hb, ih.2]
      · simp only [Blank.squeezeFrom, hb, if_true]
        rw [ih.2, lex, lex, lexFrom_blank hb, flushNumeral, if_pos rfl, lex]
    · have same (gap : Bool) (digits : List Char) :
          lexFrom digits (Blank.squeezeFrom gap (c :: cs)) = lexFrom digits (c :: cs) := by
        simp only [Blank.squeezeFrom, hb, Bool.false_eq_true, if_false, lexFrom, ih.1]
      exact ⟨same false, same true []⟩

/-- Runs of white space count as one space. -/
theorem lex_normalize (cs : List Char) : lex (Blank.normalize cs) = lex cs := by
  rw [Blank.normalize, lex_trim]
  exact (lexFrom_squeezeFrom cs).1 []

end DiceFormula.Arithmetic
