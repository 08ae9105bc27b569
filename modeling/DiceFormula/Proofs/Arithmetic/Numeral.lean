import DiceFormula.Error
import DiceFormula.Proofs.Arithmetic.Lexing
import DiceFormula.Proofs.Text.Blank

/-!
# The number node

A numeral is read as a double if it has a point or an exponent mark, and as an integer otherwise.
The general readers allow for white space, signs, underscores, digits of other scripts and names
besides. A numeral of the grammar has none of these, so that reading it never fails and gives
`numeralValue` (`numberNode_eq`).
-/

namespace DiceFormula.Arithmetic

/-- The marks that make a numeral a double. -/
def isFloatMark (c : Char) : Bool := c == '.' || c == 'e' || c == 'E'

/-- The value of a numeral by the general readers, which may refuse a text. -/
def numberNode (n : List Char) : Except Error Number :=
  if n.any isFloatMark then ((readFloat? n).map Number.float).elim (.error .wrongValue) .ok
  else ((readInt? n).map Number.int).elim (.error .wrongValue) .ok

/-! ## The characters of a numeral -/

/-- The characters that numerals are made of. -/
def IsNumeralChar (c : Char) : Prop :=
  c.isDigit = true ∨ c = '.' ∨ c = 'e' ∨ c = 'E' ∨ c = '+' ∨ c = '-'

theorem IsDigits.isNumeralChar {cs : List Char} (h : IsDigits cs) : ∀ c ∈ cs, IsNumeralChar c :=
  fun c hc => .inl (h c hc)

theorem IsNumber.isNumeralChar {n : List Char} (h : IsNumber n) : ∀ c ∈ n, IsNumeralChar c := by
  obtain ⟨w, p, e, rfl, hw, hp, he⟩ := isNumber_iff.1 h
  have point : ∀ c ∈ p, IsNumeralChar c := by
    cases hp with
    | none => exact nofun
    | point hf => exact List.forall_mem_cons.2 ⟨.inr (.inl rfl), hf.isNumeralChar⟩
  have exponent : ∀ c ∈ e, IsNumeralChar c := by
    rcases he with rfl | he
    · exact nofun
    · cases he with
      | signed hm hs hd =>
        refine List.forall_mem_cons.2 ⟨?_, List.forall_mem_cons.2 ⟨?_, hd.2.isNumeralChar⟩⟩
        · rcases hm with rfl | rfl <;> simp [IsNumeralChar]
        · rcases hs with rfl | rfl <;> simp [IsNumeralChar]
      | unsigned hm hd =>
        refine List.forall_mem_cons.2 ⟨?_, hd.2.isNumeralChar⟩
        rcases hm with rfl | rfl <;> simp [IsNumeralChar]
  intro c hc
  rcases List.mem_append.1 hc with hc | hc
  · exact hw.isNumeralChar c hc
  · rcases List.mem_append.1 hc with hc | hc
    · exact point c hc
    · exact exponent c hc

theorem toNat_of_isDigit {c : Char} (h : c.isDigit = true) : 48 ≤ c.toNat ∧ c.toNat ≤ 57 := by
  simp only [Char.isDigit, Bool.and_eq_true, decide_eq_true_eq, ge_iff_le,
    UInt32.le_iff_toNat_le] at h
  exact h

theorem toNat_of_isAlpha {c : Char} (h : c.isAlpha = true) : 65 ≤ c.toNat ∧ c.toNat ≤ 122 := by
  rcases Bool.or_eq_true_iff.1 h with upper | lower
  · have upper : 'A'.val ≤ c.val ∧ c.val ≤ 'Z'.val := of_decide_eq_true upper
    have least : 65 ≤ c.toNat := UInt32.le_iff_toNat_le.1 upper.1
    have greatest : c.toNat ≤ 90 := UInt32.le_iff_toNat_le.1 upper.2
    omega
  · have lower : (decide ('a'.val ≤ c.val) && decide (c.val ≤ 'z'.val)) = true := lower
    obtain ⟨least, greatest⟩ := Bool.and_eq_true_iff.1 lower
    have least : 97 ≤ c.toNat := UInt32.le_iff_toNat_le.1 (of_decide_eq_true least)
    have greatest : c.toNat ≤ 122 := UInt32.le_iff_toNat_le.1 (of_decide_eq_true greatest)
    omega

theorem not_isAlpha_of_isDigit {c : Char} (h : c.isDigit = true) : c.isAlpha = false := by
  have digit := toNat_of_isDigit h
  rw [Bool.eq_false_iff]
  intro letter
  have letter := toNat_of_isAlpha letter
  omega

theorem Digit.value?_of_isDigit {c : Char} (h : c.isDigit = true) :
    Digit.value? c = some (c.toNat - 48) := by
  simp [Digit.value?, h]

namespace IsNumeralChar

variable {c : Char}

theorem asciiDigit_eq (h : IsNumeralChar c) : asciiDigit c = c := by
  rcases h with h | rfl | rfl | rfl | rfl | rfl
  · have bounds := toNat_of_isDigit h
    rw [asciiDigit, Digit.value?_of_isDigit h]
    simp [Nat.add_sub_cancel' bounds.1]
  all_goals decide

theorem not_blank (h : IsNumeralChar c) : Blank.isBlank c = false := by
  rcases h with h | rfl | rfl | rfl | rfl | rfl
  · have bounds := toNat_of_isDigit h
    simp only [Blank.isBlank, Bool.or_eq_false_iff, Bool.and_eq_false_iff, decide_eq_false_iff_not,
      beq_eq_false_iff_ne, ne_eq]
    omega
  all_goals decide

theorem ne_underscore (h : IsNumeralChar c) : c ≠ '_' := by
  rintro rfl
  revert h
  simp [IsNumeralChar]

end IsNumeralChar

theorem Blank.trim_of_not_blank {cs : List Char} (h : ∀ c ∈ cs, Blank.isBlank c = false) :
    Blank.trim cs = cs := by
  have right : ∀ {cs : List Char}, (∀ c ∈ cs, Blank.isBlank c = false) →
      Blank.trimRight cs = cs := by
    intro cs h
    induction cs with
    | nil => rfl
    | cons c cs ih =>
      rw [Blank.trimRight_cons_of_not_blank (h c List.mem_cons_self),
        ih fun d hd => h d (List.mem_cons_of_mem c hd)]
  have left : Blank.Begun cs := by
    cases cs with
    | nil => trivial
    | cons c cs => exact h c List.mem_cons_self
  rw [Blank.trim, Blank.trimLeft_of_begun left, right h]

theorem dropUnderscores?_of_ne {cs : List Char} (h : ∀ c ∈ cs, c ≠ '_') :
    ∀ after, dropUnderscores? after cs = some cs := by
  induction cs with
  | nil => exact fun _ => rfl
  | cons c cs ih =>
    intro after
    have hc := h c List.mem_cons_self
    have rest := ih (fun d hd => h d (List.mem_cons_of_mem c hd))
    unfold dropUnderscores?
    split
    · contradiction
    · next heq => exact absurd (List.cons.inj heq).1 hc
    · next d ds _ heq =>
      obtain ⟨rfl, rfl⟩ := List.cons.inj heq
      simp [hc, rest]

/-- What the general readers see of a numeral is the numeral. -/
theorem splitSign_of_isNumber {n : List Char} (h : IsNumber n) :
    splitSign (Blank.trim (n.map asciiDigit)) = (false, n) := by
  have chars := h.isNumeralChar
  have same : n.map asciiDigit = n := by
    rw [List.map_congr_left fun c hc => (chars c hc).asciiDigit_eq, List.map_id']
  rw [same, Blank.trim_of_not_blank fun c hc => (chars c hc).not_blank]
  obtain ⟨c, cs, rfl, hc⟩ := h.exists_head
  unfold splitSign
  split
  · next heq =>
    obtain ⟨rfl, -⟩ := List.cons.inj heq
    rcases hc with hc | hc <;> contradiction
  · next heq =>
    obtain ⟨rfl, -⟩ := List.cons.inj heq
    rcases hc with hc | hc <;> contradiction
  · rfl

/-! ## Reading the characters -/

theorem readFrom?_of_isDigits {ds : List Char} (h : IsDigits ds) (acc : Nat) :
    Digit.readFrom? acc ds = some (ds.foldl (fun n c => 10 * n + (c.toNat - 48)) acc) := by
  induction ds generalizing acc with
  | nil => rfl
  | cons c ds ih =>
    rw [Digit.readFrom?, Digit.value?_of_isDigit (h c List.mem_cons_self)]
    exact ih (fun d hd => h d (List.mem_cons_of_mem c hd)) _

/-- An integer is read as one. -/
theorem readInt?_of_isInt {n : List Char} (h : IsInt n) :
    readInt? n = some (digitsValue n : Int) := by
  have hne : n.isEmpty = false := by simp [h.1]
  unfold readInt?
  rw [splitSign_of_isNumber (.inr h)]
  simp only [dropUnderscores?_of_ne fun c hc => (h.2.isNumeralChar c hc).ne_underscore,
    Option.bind_some, Digit.readNat?, hne, readFrom?_of_isDigits h.2]
  rfl

theorem exists_readExponent? {e : List Char} (h : e = [] ∨ IsExponent e) :
    ∃ k, readExponent? e = some k := by
  have all {ds : List Char} (h : IsDigits ds) : ds.all Char.isDigit = true :=
    List.all_eq_true.2 h
  rcases h with rfl | h
  · exact ⟨0, rfl⟩
  · cases h with
    | @signed m s ds hm hs hd =>
      rcases hs with rfl | rfl <;>
        simp [readExponent?, hm, splitSign, hd.1, all hd.2]
    | @unsigned m ds hm hd =>
      obtain ⟨hne, hd⟩ := hd
      cases ds with
      | nil => exact absurd rfl hne
      | cons d ds =>
        have same : splitSign (d :: ds) = (false, d :: ds) := by
          have digit := hd d List.mem_cons_self
          unfold splitSign
          split
          · simp_all
          · simp_all
          · rfl
        simp only [readExponent?, same, all hd]
        simp [hm]

/-- Every numeral is read as a double. -/
theorem exists_readDecimal? {n : List Char} (h : IsNumber n) : ∃ x, readDecimal? n = some x := by
  obtain ⟨w, p, e, rfl, hw, hp, he⟩ := isNumber_iff.1 h
  obtain ⟨k, hk⟩ := exists_readExponent? he
  have stop : NoDigit e := by
    rcases he with rfl | he
    · exact nofun
    · simpa using NoDigit.exponent he []
  unfold readDecimal?
  cases hp with
  | none hne =>
    simp only [List.nil_append, takeWhile_digits hw stop, dropWhile_digits hw stop]
    rcases he with rfl | he
    · simp [hne, hk]
    · cases he with
      | signed hm | unsigned hm => rcases hm with rfl | rfl <;> simp [hne, hk]
  | @point f hf hne =>
    have point : NoDigit ('.' :: f ++ e) := .cons rfl
    rw [takeWhile_digits hw point, dropWhile_digits hw point]
    simp only [List.cons_append, takeWhile_digits hf stop, dropWhile_digits hf stop]
    split
    · next none =>
      simp only [Bool.and_eq_true, List.isEmpty_iff] at none
      exact absurd none (by rintro ⟨h, h'⟩; exact hne.elim (· h) (· h'))
    · simp [hk]

theorem toLower_of_isNumeralHead {c : Char} (h : c.isDigit = true ∨ c = '.') : c.toLower = c := by
  rcases h with h | rfl
  · have bounds : c.val.toNat ≤ 57 := (toNat_of_isDigit h).2
    refine dif_neg ?_
    intro upper
    have : 65 ≤ c.val.toNat := UInt32.le_iff_toNat_le.1 upper.1
    omega
  · rfl

/-- No numeral is the name of an infinity or of the undefined double. -/
theorem ne_name_of_isNumber {n : List Char} (h : IsNumber n) {s : String} {c : Char}
    (hs : s.toList.head? = some c) (hc : c.isAlpha = true) :
    (String.ofList (n.map Char.toLower) == s) = false := by
  obtain ⟨d, ds, rfl, hd⟩ := h.exists_head
  rw [beq_eq_false_iff_ne]
  rintro rfl
  simp only [String.toList_ofList, List.map_cons, List.head?_cons, Option.some.injEq,
    toLower_of_isNumeralHead hd] at hs
  subst hs
  rcases hd with hd | rfl
  · rw [not_isAlpha_of_isDigit hd] at hc
    cases hc
  · cases hc

/-- A numeral is read as what it writes: there is no name and no sign for `readFloat?` to see. -/
theorem readFloat?_of_isNumber {n : List Char} (h : IsNumber n) :
    readFloat? n = readDecimal? n := by
  have inf := ne_name_of_isNumber h (s := "inf") rfl rfl
  have infinity := ne_name_of_isNumber h (s := "infinity") rfl rfl
  have nan := ne_name_of_isNumber h (s := "nan") rfl rfl
  unfold readFloat?
  rw [splitSign_of_isNumber h]
  simp [inf, infinity, nan,
    dropUnderscores?_of_ne fun c hc => (h.isNumeralChar c hc).ne_underscore]

/-- The mark of a double is what tells a float from an integer. -/
theorem any_isFloatMark {n : List Char} (h : IsNumber n) :
    n.any isFloatMark = !n.all Char.isDigit := by
  have digits {w : List Char} (hw : IsDigits w) : w.any isFloatMark = false := by
    rw [List.any_eq_false]
    intro c hc
    have digit := hw c hc
    simp only [isFloatMark, Bool.or_eq_true, beq_iff_eq, not_or]
    refine ⟨⟨?_, ?_⟩, ?_⟩ <;> rintro rfl <;> cases digit
  obtain ⟨w, p, e, rfl, hw, hp, he⟩ := isNumber_iff.1 h
  cases hp with
  | none =>
    rcases he with rfl | he
    · simp [digits hw, List.all_eq_true.2 hw]
    · cases he with
      | signed hm | unsigned hm => rcases hm with rfl | rfl <;> simp [isFloatMark]
  | point => simp [isFloatMark]

/-- The number node does not fail on a numeral, and its value is that of the numeral. -/
theorem numberNode_eq {n : List Char} (h : IsNumber n) :
    numberNode n = .ok (Token.numeralValue n) := by
  obtain ⟨x, hx⟩ := exists_readDecimal? h
  unfold numberNode Token.numeralValue
  rw [any_isFloatMark h]
  cases hd : n.all Char.isDigit with
  | false => simp [readFloat?_of_isNumber h, hx]
  | true =>
    have hint : IsInt n := by
      obtain ⟨c, cs, rfl, -⟩ := h.exists_head
      exact ⟨nofun, List.all_eq_true.1 hd⟩
    simp [readInt?_of_isInt hint]

end DiceFormula.Arithmetic
