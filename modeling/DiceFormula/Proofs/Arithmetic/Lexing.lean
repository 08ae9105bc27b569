import DiceFormula.Arithmetic.Token

/-!
# Tokens of a text

The tokens of plain arithmetic as its grammar describes them: numerals are built from digits, a
point and an exponent (`IsNumber`), every token spells some characters (`Token.Spells`), and a text
splits into tokens by longest match with blanks and tabs dropped between them (`Splits`). The
scanner finds exactly that splitting (`scan_eq_some`).

A plus or a minus belongs to a numeral only inside an exponent, so what decides is `takeNumeral?`:
no numeral at the front of a text is longer than the one it takes (`takeNumeral?_spec`).
-/

namespace DiceFormula.Arithmetic

/-! ## Numerals -/

/-- Digits only, perhaps none. -/
def IsDigits (cs : List Char) : Prop := ∀ c ∈ cs, c.isDigit = true

/-- An integer: digits, at least one. -/
def IsInt (cs : List Char) : Prop := cs ≠ [] ∧ IsDigits cs

/-- An exponent: a mark, an optional sign and an integer. -/
inductive IsExponent : List Char → Prop
  | signed {m s : Char} {ds : List Char} : m = 'e' ∨ m = 'E' → s = '+' ∨ s = '-' → IsInt ds →
      IsExponent (m :: s :: ds)
  | unsigned {m : Char} {ds : List Char} : m = 'e' ∨ m = 'E' → IsInt ds → IsExponent (m :: ds)

/-- A decimal: an integer, a point and perhaps another integer, or a point and an integer. -/
inductive IsDecimal : List Char → Prop
  | whole {w : List Char} : IsInt w → IsDecimal (w ++ ['.'])
  | both {w f : List Char} : IsInt w → IsInt f → IsDecimal (w ++ '.' :: f)
  | frac {f : List Char} : IsInt f → IsDecimal ('.' :: f)

/-- A float: an integer with an exponent, or a decimal that may have one. -/
inductive IsFloat : List Char → Prop
  | int {w e : List Char} : IsInt w → IsExponent e → IsFloat (w ++ e)
  | decimal {d : List Char} : IsDecimal d → IsFloat d
  | scientific {d e : List Char} : IsDecimal d → IsExponent e → IsFloat (d ++ e)

/-- A number: a float or an integer. -/
def IsNumber (cs : List Char) : Prop := IsFloat cs ∨ IsInt cs

/-- What may stand between the digits of a number and its exponent. -/
inductive IsPoint (w : List Char) : List Char → Prop
  | none : w ≠ [] → IsPoint w []
  | point {f : List Char} : IsDigits f → w ≠ [] ∨ f ≠ [] → IsPoint w ('.' :: f)

/-- Numbers in one form: digits, a point that may be missing, an exponent that may be missing. -/
theorem isNumber_iff {n : List Char} :
    IsNumber n ↔
      ∃ w p e, n = w ++ (p ++ e) ∧ IsDigits w ∧ IsPoint w p ∧ (e = [] ∨ IsExponent e) := by
  have decimal {d : List Char} (h : IsDecimal d) :
      ∃ w p, d = w ++ p ∧ IsDigits w ∧ IsPoint w p ∧ p ≠ [] := by
    cases h with
    | whole hw => exact ⟨_, ['.'], rfl, hw.2, .point nofun (.inl hw.1), nofun⟩
    | both hw hf => exact ⟨_, _, rfl, hw.2, .point hf.2 (.inl hw.1), nofun⟩
    | frac hf => exact ⟨[], _, rfl, nofun, .point hf.2 (.inr hf.1), nofun⟩
  constructor
  · rintro ((⟨hw, he⟩ | hd | ⟨hd, he⟩) | hn)
    · exact ⟨_, [], _, rfl, hw.2, .none hw.1, .inr he⟩
    · obtain ⟨w, p, rfl, hw, hp, -⟩ := decimal hd
      exact ⟨w, p, [], by simp, hw, hp, .inl rfl⟩
    · obtain ⟨w, p, rfl, hw, hp, -⟩ := decimal hd
      exact ⟨w, p, _, List.append_assoc .., hw, hp, .inr he⟩
    · exact ⟨n, [], [], by simp, hn.2, .none hn.1, .inl rfl⟩
  · rintro ⟨w, p, e, rfl, hw, hp, he⟩
    cases hp with
    | none hne =>
      rcases he with rfl | he
      · exact .inr (by simpa using ⟨hne, hw⟩)
      · exact .inl (.int ⟨hne, hw⟩ he)
    | @point f hf hne =>
      have hd : IsDecimal (w ++ '.' :: f) := by
        by_cases hw0 : w = []
        · subst hw0
          exact .frac ⟨hne.resolve_left (· rfl), hf⟩
        · by_cases hf0 : f = []
          · subst hf0
            exact .whole ⟨hw0, hw⟩
          · exact .both ⟨hw0, hw⟩ ⟨hf0, hf⟩
      rw [← List.append_assoc]
      rcases he with rfl | he
      · exact .inl (.decimal (by simpa using hd))
      · exact .inl (.scientific hd he)

/-- A number begins with a digit or a point. -/
theorem IsNumber.exists_head {n : List Char} (h : IsNumber n) :
    ∃ c cs, n = c :: cs ∧ (c.isDigit = true ∨ c = '.') := by
  obtain ⟨w, p, e, rfl, hw, hp, -⟩ := isNumber_iff.1 h
  cases w with
  | nil =>
    cases hp with
    | none hne => exact absurd rfl hne
    | point => exact ⟨'.', _, rfl, .inr rfl⟩
  | cons c w => exact ⟨c, _, rfl, .inl (hw c List.mem_cons_self)⟩

/-! ## The longest digits -/

/-- No digit is next. -/
def NoDigit (cs : List Char) : Prop := ∀ c ∈ cs.head?, c.isDigit = false

theorem NoDigit.cons {c : Char} {cs : List Char} (h : c.isDigit = false) : NoDigit (c :: cs) := by
  intro d hd
  rwa [← Option.some.inj hd]

theorem isDigits_takeWhile (cs : List Char) : IsDigits (cs.takeWhile Char.isDigit) := by
  have := List.all_takeWhile (p := Char.isDigit) (l := cs)
  rwa [List.all_eq_true] at this

theorem noDigit_dropWhile (cs : List Char) : NoDigit (cs.dropWhile Char.isDigit) := by
  intro c hc
  have := List.head?_dropWhile_not Char.isDigit cs
  rw [hc] at this
  simpa using this

theorem NoDigit.exponent {e : List Char} (h : IsExponent e) (cs : List Char) :
    NoDigit (e ++ cs) := by
  cases h with
  | signed hm | unsigned hm => rcases hm with rfl | rfl <;> exact .cons rfl

/-- Every text is digits and then something else. -/
theorem exists_digits (cs : List Char) : ∃ w r, cs = w ++ r ∧ IsDigits w ∧ NoDigit r :=
  ⟨_, _, List.takeWhile_append_dropWhile.symm, isDigits_takeWhile cs, noDigit_dropWhile cs⟩

section
variable {w r : List Char}

theorem takeWhile_digits (hw : IsDigits w) (hr : NoDigit r) :
    (w ++ r).takeWhile Char.isDigit = w := by
  rw [List.takeWhile_append_of_pos hw]
  cases r with
  | nil => simp
  | cons c r => simp [hr c rfl]

theorem dropWhile_digits (hw : IsDigits w) (hr : NoDigit r) :
    (w ++ r).dropWhile Char.isDigit = r := by
  have := List.takeWhile_append_dropWhile (p := Char.isDigit) (l := w ++ r)
  rw [takeWhile_digits hw hr] at this
  exact List.append_cancel_left this

/-- Digits at the front of a text are the front of its longest digits. -/
theorem digits_le (hr : NoDigit r) {v s : List Char} (hv : IsDigits v)
    (h : v ++ s = w ++ r) : ∃ u, w = v ++ u ∧ s = u ++ r := by
  rcases List.append_eq_append_iff.1 h with ⟨u, hw', hs⟩ | ⟨u, hv', hr'⟩
  · exact ⟨u, hw', hs⟩
  · cases u with
    | nil => exact ⟨[], by simpa using hv'.symm, by simpa using hr'.symm⟩
    | cons c u =>
      have digit := hv c (by simp [hv'])
      have := hr c (by simp [hr'])
      simp [digit] at this

/-- Where digits end, they are the longest. -/
theorem digits_eq (hw : IsDigits w) (hr : NoDigit r) {v s : List Char} (hv : IsDigits v)
    (hs : NoDigit s) (h : v ++ s = w ++ r) : v = w ∧ s = r := by
  obtain ⟨u, rfl, hs'⟩ := digits_le hr hv h
  cases u with
  | nil => exact ⟨by simp, by simpa using hs'⟩
  | cons c u =>
    have digit := hw c (by simp)
    have := hs c (by simp [hs'])
    simp [digit] at this

end

/-! ## The longest numeral -/

namespace Token

theorem takeExponent_of_noMark {cs : List Char} (h : ∀ c ∈ cs.head?, c ≠ 'e' ∧ c ≠ 'E') :
    takeExponent cs = ([], cs) := by
  cases cs with
  | nil => rfl
  | cons c cs => simp [takeExponent, h c rfl]

theorem takeExponent_signed {m s : Char} {ds r : List Char} (hm : m = 'e' ∨ m = 'E')
    (hs : s = '+' ∨ s = '-') (hd : IsDigits ds) (hr : NoDigit r) :
    takeExponent (m :: s :: (ds ++ r)) =
      if ds = [] then ([], m :: s :: r) else (m :: s :: ds, r) := by
  have taken := takeWhile_digits hd hr
  by_cases h : ds = []
  · subst h
    rw [List.nil_append] at taken
    simp [takeExponent, hm, hs, taken]
  · simp [takeExponent, hm, hs, taken, h]

theorem takeExponent_unsigned {m : Char} {ds r : List Char} (hm : m = 'e' ∨ m = 'E')
    (hd : IsDigits ds) (hr : NoDigit r) (hs : ds ≠ [] ∨ ∀ c ∈ r.head?, c ≠ '+' ∧ c ≠ '-') :
    takeExponent (m :: (ds ++ r)) = if ds = [] then ([], m :: r) else (m :: ds, r) := by
  have taken := takeWhile_digits hd hr
  cases ds with
  | nil =>
    rw [List.nil_append] at taken
    cases r with
    | nil => simp [takeExponent, hm]
    | cons c r =>
      have hc := (hs.resolve_left (· rfl)) c rfl
      simp [takeExponent, hm, taken, hc]
  | cons d ds =>
    have digit : d.isDigit = true := hd d List.mem_cons_self
    have plus : d ≠ '+' := by
      rintro rfl
      contradiction
    have minus : d ≠ '-' := by
      rintro rfl
      contradiction
    simp only [List.cons_append] at taken
    simp [takeExponent, hm, taken, plus, minus]

/-- The characters `e` are an exponent at the front of `cs`, and none there is longer; or there is
none and `e` is empty. -/
structure LongestExponent (cs e r : List Char) : Prop where
  append : e ++ r = cs
  isExponent : e = [] ∨ IsExponent e
  longest : ∀ e' r', IsExponent e' → e' ++ r' = cs → e'.length ≤ e.length

theorem not_isDigit_sign {s : Char} (h : s = '+' ∨ s = '-') : s.isDigit = false := by
  rcases h with rfl | rfl <;> rfl

theorem longestExponent_signed {m s : Char} {ds r : List Char} (hm : m = 'e' ∨ m = 'E')
    (hs : s = '+' ∨ s = '-') (hd : IsDigits ds) (hr : NoDigit r) :
    LongestExponent (m :: s :: (ds ++ r)) (takeExponent (m :: s :: (ds ++ r))).1
      (takeExponent (m :: s :: (ds ++ r))).2 := by
  have bound {e' r' : List Char} (he : IsExponent e') (h : e' ++ r' = m :: s :: (ds ++ r)) :
      ds ≠ [] ∧ e'.length ≤ ds.length + 2 := by
    cases he with
    | signed _ _ hd' =>
      simp only [List.cons_append, List.cons.injEq] at h
      obtain ⟨u, rfl, -⟩ := digits_le hr hd'.2 h.2.2
      refine ⟨?_, by simp⟩
      simp [hd'.1]
    | @unsigned _ ds' _ hd' =>
      cases ds' with
      | nil => exact absurd rfl hd'.1
      | cons d ds' =>
        simp only [List.cons_append, List.cons.injEq] at h
        have digit := hd'.2 d List.mem_cons_self
        rw [h.2.1, not_isDigit_sign hs] at digit
        cases digit
  rw [takeExponent_signed hm hs hd hr]
  by_cases h0 : ds = []
  · subst h0
    refine ⟨rfl, .inl rfl, ?_⟩
    intro e' r' he h
    exact absurd rfl (bound he h).1
  · rw [if_neg h0]
    refine ⟨rfl, .inr (.signed hm hs ⟨h0, hd⟩), ?_⟩
    intro e' r' he h
    exact (bound he h).2

theorem longestExponent_unsigned {m : Char} {ds r : List Char} (hm : m = 'e' ∨ m = 'E')
    (hd : IsDigits ds) (hr : NoDigit r) (hs : ds ≠ [] ∨ ∀ c ∈ r.head?, c ≠ '+' ∧ c ≠ '-') :
    LongestExponent (m :: (ds ++ r)) (takeExponent (m :: (ds ++ r))).1
      (takeExponent (m :: (ds ++ r))).2 := by
  have bound {e' r' : List Char} (he : IsExponent e') (h : e' ++ r' = m :: (ds ++ r)) :
      ds ≠ [] ∧ e'.length ≤ ds.length + 1 := by
    cases he with
    | @signed _ s ds' _ hs' hd' =>
      simp only [List.cons_append, List.cons.injEq] at h
      cases ds with
      | nil =>
        have head : r.head? = some s := by
          rw [← List.nil_append r, ← h.2]
          rfl
        have := (hs.resolve_left (· rfl)) s head
        rcases hs' with rfl | rfl <;> simp at this
      | cons d ds =>
        simp only [List.cons_append, List.cons.injEq] at h
        have digit := hd d List.mem_cons_self
        rw [← h.2.1, not_isDigit_sign hs'] at digit
        cases digit
    | unsigned _ hd' =>
      simp only [List.cons_append, List.cons.injEq] at h
      obtain ⟨u, rfl, -⟩ := digits_le hr hd'.2 h.2
      refine ⟨?_, by simp⟩
      simp [hd'.1]
  rw [takeExponent_unsigned hm hd hr hs]
  by_cases h0 : ds = []
  · subst h0
    refine ⟨rfl, .inl rfl, ?_⟩
    intro e' r' he h
    exact absurd rfl (bound he h).1
  · rw [if_neg h0]
    refine ⟨rfl, .inr (.unsigned hm ⟨h0, hd⟩), ?_⟩
    intro e' r' he h
    exact (bound he h).2

theorem longestExponent (cs : List Char) :
    LongestExponent cs (takeExponent cs).1 (takeExponent cs).2 := by
  have noMark (h : ∀ c ∈ cs.head?, c ≠ 'e' ∧ c ≠ 'E') :
      LongestExponent cs (takeExponent cs).1 (takeExponent cs).2 := by
    rw [takeExponent_of_noMark h]
    refine ⟨rfl, .inl rfl, ?_⟩
    intro e' r' he hcs
    subst hcs
    cases he with
    | signed hm | unsigned hm => simp_all
  cases cs with
  | nil => exact noMark nofun
  | cons m cs =>
    by_cases hm : m = 'e' ∨ m = 'E'
    · by_cases hs : ∀ c ∈ cs.head?, c ≠ '+' ∧ c ≠ '-'
      · obtain ⟨ds, r, rfl, hd, hr⟩ := exists_digits cs
        refine longestExponent_unsigned hm hd hr ?_
        by_cases h0 : ds = []
        · subst h0
          exact .inr hs
        · exact .inl h0
      · cases cs with
        | nil => simp at hs
        | cons s cs =>
          obtain ⟨ds, r, rfl, hd, hr⟩ := exists_digits cs
          refine longestExponent_signed hm ?_ hd hr
          simp only [List.head?_cons, Option.mem_def, Option.some.injEq] at hs
          grind
    · refine noMark ?_
      intro c hc
      obtain rfl := Option.some.inj hc
      exact not_or.1 hm

/-- What `takeNumeral?` makes of digits that are followed by no point. -/
theorem takeNumeral?_digits {w r : List Char} (hw : IsDigits w) (hr : NoDigit r)
    (hp : r.head? ≠ some '.') :
    takeNumeral? (w ++ r) =
      if w = [] then none else some (w ++ (takeExponent r).1, (takeExponent r).2) := by
  unfold takeNumeral?
  simp only [takeWhile_digits hw hr, List.drop_left]
  split
  · simp at hp
  · cases w <;> simp

/-- What `takeNumeral?` makes of digits that are followed by a point. -/
theorem takeNumeral?_point {w f r : List Char} (hw : IsDigits w) (hf : IsDigits f)
    (hr : NoDigit r) :
    takeNumeral? (w ++ '.' :: (f ++ r)) =
      if w = [] ∧ f = [] then none
      else some (w ++ '.' :: f ++ (takeExponent r).1, (takeExponent r).2) := by
  unfold takeNumeral?
  have point : NoDigit ('.' :: (f ++ r)) := .cons rfl
  simp only [takeWhile_digits hw point, List.drop_left, takeWhile_digits hf hr]
  cases w with
  | nil =>
    cases f with
    | nil => simp
    | cons d f => simp
  | cons c w => simp

/-- Digits with an exponent at the front of a text are no longer than its longest digits with the
exponent that is taken after them. -/
theorem length_digits_exponent_le {w r v e s : List Char} (hw : IsDigits w) (hr : NoDigit r)
    (hv : IsDigits v) (he : e = [] ∨ IsExponent e) (h : v ++ (e ++ s) = w ++ r) :
    v.length + e.length ≤ w.length + (takeExponent r).1.length := by
  rcases he with rfl | he
  · obtain ⟨u, rfl, -⟩ := digits_le hr hv h
    simp only [List.length_append, List.length_nil]
    omega
  · obtain ⟨rfl, hs⟩ := digits_eq hw hr hv (.exponent he s) h
    exact Nat.add_le_add_left ((longestExponent r).longest e s he hs) _

/-- The numeral that is taken is a number at the front of the text. -/
theorem isNumber_of_takeNumeral? {cs n r : List Char} (h : takeNumeral? cs = some (n, r)) :
    n ++ r = cs ∧ IsNumber n := by
  obtain ⟨w, s, rfl, hw, hs⟩ := exists_digits cs
  by_cases hp : s.head? = some '.'
  · obtain ⟨s, rfl⟩ := List.head?_eq_some_iff.1 hp
    obtain ⟨f, s, rfl, hf, hs'⟩ := exists_digits s
    rw [takeNumeral?_point hw hf hs'] at h
    by_cases none : w = [] ∧ f = []
    · rw [if_pos none] at h
      cases h
    · rw [if_neg none] at h
      obtain ⟨rfl, rfl⟩ := Prod.mk.inj (Option.some.inj h)
      have exponent := longestExponent s
      refine ⟨by simp [exponent.append], isNumber_iff.2 ?_⟩
      exact ⟨w, _, _, by simp, hw, .point hf (by grind), exponent.isExponent⟩
  · rw [takeNumeral?_digits hw hs hp] at h
    by_cases none : w = []
    · rw [if_pos none] at h
      cases h
    · rw [if_neg none] at h
      obtain ⟨rfl, rfl⟩ := Prod.mk.inj (Option.some.inj h)
      have exponent := longestExponent s
      refine ⟨by simp [exponent.append], isNumber_iff.2 ?_⟩
      exact ⟨w, [], _, by simp, hw, .none none, exponent.isExponent⟩

/-- A text that begins with a number has a numeral taken, one that is at least as long. -/
theorem takeNumeral?_longest {cs n r : List Char} (hn : IsNumber n) (h : n ++ r = cs) :
    ∃ n' r', takeNumeral? cs = some (n', r') ∧ n.length ≤ n'.length := by
  obtain ⟨v, p, e, rfl, hv, hp, he⟩ := isNumber_iff.1 hn
  obtain ⟨w, s, rfl, hw, hs⟩ := exists_digits cs
  simp only [List.append_assoc] at h
  cases hp with
  | none hne =>
    obtain ⟨u, hu, -⟩ := digits_le hs hv h
    have hw0 : w ≠ [] := by
      rw [hu]
      exact List.append_ne_nil_of_left_ne_nil hne u
    by_cases hp : s.head? = some '.'
    · obtain ⟨s, rfl⟩ := List.head?_eq_some_iff.1 hp
      obtain ⟨f, s, rfl, hf, hs'⟩ := exists_digits s
      rw [takeNumeral?_point hw hf hs', if_neg (by simp [hw0])]
      refine ⟨_, _, rfl, ?_⟩
      have := length_digits_exponent_le hw hs hv he h
      simp [takeExponent] at this
      simp
      omega
    · rw [takeNumeral?_digits hw hs hp, if_neg hw0]
      refine ⟨_, _, rfl, ?_⟩
      have := length_digits_exponent_le hw hs hv he h
      simpa using this
  | @point f hf hne =>
    have stop : NoDigit (('.' :: f) ++ (e ++ r)) := .cons rfl
    obtain ⟨rfl, rfl⟩ := digits_eq hw hs hv stop h
    obtain ⟨g, s, hg, hgd, hs'⟩ := exists_digits (f ++ (e ++ r))
    obtain ⟨u, rfl, -⟩ := digits_le hs' hf hg
    have some_digit : ¬(v = [] ∧ f ++ u = []) := by
      rintro ⟨hv0, hf0⟩
      exact hne.elim (· hv0) (· (List.append_eq_nil_iff.1 hf0).1)
    rw [List.cons_append, hg, takeNumeral?_point hv hgd hs', if_neg some_digit]
    refine ⟨_, _, rfl, ?_⟩
    have := length_digits_exponent_le hgd hs' hf he hg
    simp at this ⊢
    omega

/-! ## Splitting a text -/

/-- The characters that spell a token. -/
inductive Spells : Token → List Char → Prop
  | sign (s : Sign) : Spells (.sign s) [s.char]
  | openParen : Spells .openParen ['(']
  | closeParen : Spells .closeParen [')']
  | numeral {n : List Char} : IsNumber n → Spells (.numeral n) n

/-- No token at the front of `cs` is longer than `spelled`. -/
def IsLongest (cs spelled : List Char) : Prop :=
  ∀ (t : Token) (longer rest : List Char), t.Spells longer → longer ++ rest = cs →
    longer.length ≤ spelled.length

end Token

/-- A text splits into tokens by longest match; blanks and tabs between tokens are dropped. -/
inductive Splits : List Char → List Token → Prop
  | nil : Splits [] []
  | blank {c : Char} {cs : List Char} {ts : List Token} : c = ' ' ∨ c = '\t' → Splits cs ts →
      Splits (c :: cs) ts
  | token {t : Token} {spelled rest : List Char} {ts : List Token} : t.Spells spelled →
      Token.IsLongest (spelled ++ rest) spelled → Splits rest ts →
      Splits (spelled ++ rest) (t :: ts)

namespace Token

theorem spells_of_ofChar? {c : Char} {t : Token} (h : ofChar? c = some t) : t.Spells [c] := by
  unfold ofChar? at h
  split at h <;> cases h <;> constructor

theorem ofChar?_of_numeral {c : Char} (h : c.isDigit = true ∨ c = '.') :
    ofChar? c = none ∧ ¬(c = ' ' ∨ c = '\t') := by
  unfold ofChar?
  constructor
  · split
    all_goals first | rfl | exact absurd h (by decide)
  · rintro (rfl | rfl) <;> exact absurd h (by decide)

/-- What is not a numeral has one character. -/
theorem Spells.numeral_or_ofChar? {t : Token} {spelled : List Char} (h : t.Spells spelled) :
    (t = .numeral spelled ∧ IsNumber spelled) ∨
      ∃ c, spelled = [c] ∧ ofChar? c = some t ∧ ¬(c = ' ' ∨ c = '\t') := by
  cases h with
  | sign s => cases s <;> exact .inr ⟨_, rfl, rfl, by decide⟩
  | openParen | closeParen => exact .inr ⟨_, rfl, rfl, by decide⟩
  | numeral hn => exact .inl ⟨rfl, hn⟩

/-- A character that is a token by itself begins no longer one. -/
theorem isLongest_of_ofChar? {c : Char} {t : Token} {cs : List Char} (h : ofChar? c = some t) :
    IsLongest (c :: cs) [c] := by
  intro t' longer rest hl heq
  rcases hl.numeral_or_ofChar? with ⟨-, hn⟩ | ⟨d, rfl, -, -⟩
  · obtain ⟨d, ds, rfl, hd⟩ := hn.exists_head
    obtain rfl := (List.cons.inj heq).1
    rw [(ofChar?_of_numeral hd).1] at h
    cases h
  · exact Nat.le_refl 1

/-- The numeral that is taken is the longest token at the front. -/
theorem isLongest_of_takeNumeral? {cs n r : List Char} (h : takeNumeral? cs = some (n, r)) :
    IsLongest cs n := by
  intro t longer rest hl heq
  rcases hl.numeral_or_ofChar? with ⟨-, hn⟩ | ⟨d, rfl, -, -⟩
  · obtain ⟨m, s, hm, hle⟩ := takeNumeral?_longest hn heq
    rw [h] at hm
    obtain ⟨rfl, rfl⟩ := Prod.mk.inj (Option.some.inj hm)
    exact hle
  · obtain ⟨d, ds, rfl, -⟩ := (isNumber_of_takeNumeral? h).2.exists_head
    exact Nat.succ_le_succ (Nat.zero_le _)

theorem splits_of_scanFrom {fuel : Nat} {cs : List Char} {ts : List Token}
    (h : scanFrom fuel cs = some ts) : Splits cs ts := by
  induction fuel generalizing cs ts with
  | zero =>
    cases cs with
    | nil =>
      cases h
      exact .nil
    | cons c cs => cases h
  | succ fuel ih =>
    cases cs with
    | nil =>
      cases h
      exact .nil
    | cons c cs =>
      unfold scanFrom at h
      by_cases hb : (c == ' ' || c == '\t') = true
      · rw [if_pos hb] at h
        exact .blank (by simpa using hb) (ih h)
      · rw [if_neg hb] at h
        split at h
        · next t ht =>
          obtain ⟨ts, hts, rfl⟩ := Option.map_eq_some_iff.1 h
          exact @Splits.token _ [c] _ _ (spells_of_ofChar? ht) (isLongest_of_ofChar? ht) (ih hts)
        · next hc =>
          obtain ⟨⟨n, rest⟩, hn, h⟩ := Option.bind_eq_some_iff.1 h
          obtain ⟨ts, hts, rfl⟩ := Option.map_eq_some_iff.1 h
          obtain ⟨happ, hnum⟩ := isNumber_of_takeNumeral? hn
          have hlong := isLongest_of_takeNumeral? hn
          rw [← happ] at hlong ⊢
          exact .token (.numeral hnum) hlong (ih hts)

theorem scanFrom_of_splits {cs : List Char} {ts : List Token} (h : Splits cs ts) :
    ∀ fuel, cs.length ≤ fuel → scanFrom fuel cs = some ts := by
  induction h with
  | nil =>
    intro fuel _
    cases fuel <;> rfl
  | blank hb _ ih =>
    intro fuel hf
    cases fuel with
    | zero => simp at hf
    | succ fuel => simpa [scanFrom, hb] using ih fuel (Nat.le_of_succ_le_succ hf)
  | @token t spelled rest ts ht hlong _ ih =>
    intro fuel hf
    rcases ht.numeral_or_ofChar? with ⟨rfl, hn⟩ | ⟨c, rfl, hc, hb⟩
    · obtain ⟨n, r, hnr, hle⟩ := takeNumeral?_longest hn rfl
      have hn' := isNumber_of_takeNumeral? hnr
      have hlen := Nat.le_antisymm hle (hlong _ _ _ (.numeral hn'.2) hn'.1)
      obtain ⟨rfl, rfl⟩ := List.append_inj hn'.1 hlen.symm
      obtain ⟨c, cs, rfl, hc⟩ := hn.exists_head
      cases fuel with
      | zero => simp at hf
      | succ fuel =>
        have rest := ih fuel (by simp at hf; omega)
        simp only [List.cons_append] at hnr ⊢
        simp [scanFrom, ofChar?_of_numeral hc, hnr, rest]
    · cases fuel with
      | zero => simp at hf
      | succ fuel =>
        have rest := ih fuel (Nat.le_of_succ_le_succ hf)
        simp [scanFrom, hc, hb, rest]

/-- The scanner splits a text the way that the grammar says, and fails where nothing does. -/
theorem scan_eq_some {cs : List Char} {ts : List Token} : scan cs = some ts ↔ Splits cs ts := by
  constructor
  · exact splits_of_scanFrom
  · intro h
    exact scanFrom_of_splits h _ (Nat.le_refl _)

end Token

end DiceFormula.Arithmetic
