import DiceFormula.Proofs.Arithmetic.Flat
import DiceFormula.Proofs.Number.Nearest

/-!
# Reading decimals that are printed

The shortest decimal of a double is near it (`Decimal.near_shortest`), so that it is read as the
double again (`Decimal.decimalToFloat_shortest`). How it is laid out depends on its size: from
`10 ^ -4` up to below `10 ^ 16` it is written as digits with a point between them
(`Decimal.exists_layout`), and these digits are what the decimal says.
-/

namespace DiceFormula

open Arithmetic Double

namespace Decimal

variable {m : ℕ} {e : ℤ}

/-- The value of a decimal. -/
def toRat (d : Decimal) : ℚ := d.coeff * 10 ^ d.exp

/-! ## The search -/

/-- A quarter of the last place on the scale of the interval. -/
theorem scale_mul (e : ℤ) :
    ((if 0 ≤ e - 2 then Nat.pow 2 (e - 2).toNat else Nat.pow 5 (2 - e).toNat : ℕ) : ℚ)
      * 10 ^ min (e - 2) 0 = 2 ^ e / 4 := by
  have quarter : (2 : ℚ) ^ e / 4 = 2 ^ (e - 2) := by
    rw [zpow_sub₀ two_ne_zero]
    norm_num
  rw [quarter]
  by_cases h : 0 ≤ e - 2
  · obtain ⟨k, hk⟩ := Int.eq_ofNat_of_zero_le h
    rw [if_pos h, hk, min_eq_right (by omega), zpow_zero, mul_one, Int.toNat_natCast]
    push_cast [Nat.pow_eq]
    rfl
  · obtain ⟨k, hk⟩ : ∃ k : ℕ, e - 2 = -(k : ℤ) := ⟨(2 - e).toNat, by omega⟩
    have flip : (2 - e).toNat = k := by omega
    rw [if_neg h, hk, flip, min_eq_left (by omega), zpow_neg, zpow_neg, zpow_natCast, zpow_natCast,
      show (10 : ℚ) = 5 * 2 by norm_num, mul_pow, mul_inv]
    push_cast [Nat.pow_eq]
    rw [mul_inv_cancel_left₀ (by positivity)]

/-- What the interval of a double holds is near the double. -/
theorem near_of_contains {n : ℕ} (pos : 0 < m) (h : (interval m e).contains n = true) :
    Near m e (n * 10 ^ (interval m e).exp) := by
  have scale := scale_mul e
  unfold interval Interval.contains at h
  unfold interval
  dsimp only at h ⊢
  generalize (if 0 ≤ e - 2 then Nat.pow 2 (e - 2).toNat else Nat.pow 5 (2 - e).toNat) = k at *
  have down : (if (m == Nat.pow 2 52 && decide (-1074 < e)) = true then 1 else 2) = slack m e := by
    simp [slack, Nat.pow_eq]
  have small : slack m e ≤ 4 * m := by
    have : slack m e ≤ 2 := by exact_mod_cast slack_le m e
    omega
  rw [down] at h
  have place : (0 : ℚ) < 2 ^ e := by positivity
  have full : (0 : ℚ) < k := by
    by_contra none
    obtain rfl : k = 0 := by simpa using none
    rw [Nat.cast_zero, zero_mul] at scale
    linarith
  -- four times the value in last places is the ratio to the scale
  have scaled : 4 * (n * 10 ^ min (e - 2) 0 / 2 ^ e : ℚ) = n / k := by
    rw [eq_div_iff full.ne', ← mul_div_assoc, div_mul_eq_mul_div, div_eq_iff place.ne']
    linear_combination 4 * (n : ℚ) * scale
  refine ⟨?_, ?_, fun odd => ?_⟩
  · rw [scaled, le_div_iff₀ full]
    have low : (4 * m - slack m e) * k ≤ n := by
      split at h <;> simp at h <;> omega
    rw [← Nat.cast_ofNat, ← Nat.cast_mul, ← Nat.cast_sub small]
    exact_mod_cast low
  · rw [scaled, div_le_iff₀ full]
    have high : n ≤ (4 * m + 2) * k := by
      split at h <;> simp at h <;> omega
    exact_mod_cast high
  · have inside : (4 * m - slack m e) * k < n ∧ n < (4 * m + 2) * k := by
      rw [if_neg (by simpa using odd)] at h
      simpa using h
    rw [scaled, lt_div_iff₀ full, div_lt_iff₀ full]
    refine ⟨?_, ?_⟩
    · rw [← Nat.cast_ofNat, ← Nat.cast_mul, ← Nat.cast_sub small]
      exact_mod_cast inside.1
    · exact_mod_cast inside.2

/-- The exact value of a double is near it. -/
theorem near_value (m : ℕ) (e : ℤ) :
    Near m e ((interval m e).value * 10 ^ (interval m e).exp) := by
  have place : (2 : ℚ) ^ e ≠ 0 := by positivity
  have exact : ((interval m e).value * 10 ^ (interval m e).exp : ℚ) = m * 2 ^ e := by
    have scale := scale_mul e
    unfold interval
    dsimp only
    push_cast at scale ⊢
    linear_combination 4 * (m : ℚ) * scale
  have some : (0 : ℚ) < slack m e := by
    unfold slack
    split <;> norm_num
  rw [exact]
  refine ⟨?_, ?_, fun _ => ?_⟩ <;> rw [mul_div_cancel_right₀ _ place]
  · linarith
  · linarith
  · exact ⟨by linarith, by linarith⟩

/-- Whatever the search ends with is near the double. -/
theorem near_search (pos : 0 < m) (length count fuel : ℕ) :
    Near m e (search (interval m e) length count fuel).toRat := by
  induction fuel generalizing count with
  | zero => exact near_value m e
  | succ fuel ih =>
    unfold search
    dsimp only
    split
    · next c picked =>
      have near := near_of_contains pos (Interval.contains_of_pick picked)
      have value : (⟨c, (interval m e).exp + (length - count : ℕ)⟩ : Decimal).toRat
          = ((c * Nat.pow 10 (length - count) : ℕ) : ℚ) * 10 ^ (interval m e).exp := by
        rw [toRat, zpow_add₀ (by norm_num), zpow_natCast, Nat.pow_eq]
        push_cast
        ring
      rwa [value]
    · exact ih _

theorem near_shortest (pos : 0 < m) (e : ℤ) : Near m e (shortest m e).toRat :=
  near_search pos _ _ _

/-- **The shortest decimal of a double is read as the double again.** -/
theorem decimalToFloat_shortest {x : Float} (hx : Dyadic.ofFloat? x = some ⟨m, e⟩) (pos : 0 < m) :
    decimalToFloat (shortest m e).coeff (shortest m e).exp = x :=
  decimalToFloat_of_near hx pos (near_shortest pos e)

/-! ## The layout -/

theorem stripZeros_append (ds : List Char) :
    ∃ k, ds = stripZeros ds ++ List.replicate k '0' := by
  have cut := List.takeWhile_append_dropWhile (p := (· == '0')) (l := ds.reverse)
  have zeros : ds.reverse.takeWhile (· == '0')
      = List.replicate (ds.reverse.takeWhile (· == '0')).length '0' := by
    refine List.eq_replicate_iff.2 ⟨rfl, fun c hc => ?_⟩
    simpa using List.mem_takeWhile_imp hc
  refine ⟨(ds.reverse.takeWhile (· == '0')).length, ?_⟩
  rw [← List.reverse_replicate, ← zeros, stripZeros, ← List.reverse_append, cut,
    List.reverse_reverse]

theorem digitsValue_append_zeros (ds : List Char) (k : ℕ) :
    digitsValue (ds ++ List.replicate k '0') = digitsValue ds * 10 ^ k := by
  show Nat.ofDigitChars 10 (ds ++ List.replicate k '0') 0 = Nat.ofDigitChars 10 ds 0 * 10 ^ k
  rw [Nat.ofDigitChars_append, Nat.ofDigitChars_replicate_zero, mul_comm]

theorem digitsValue_zeros_append (k : ℕ) (ds : List Char) :
    digitsValue (List.replicate k '0' ++ ds) = digitsValue ds := by
  show Nat.ofDigitChars 10 (List.replicate k '0' ++ ds) 0 = Nat.ofDigitChars 10 ds 0
  rw [Nat.ofDigitChars_append, Nat.ofDigitChars_replicate_zero, mul_zero]

/-- Digits with a point between them that write a number. -/
structure Writes (w f : List Char) (v : ℚ) : Prop where
  whole : IsInt w
  frac : IsInt f
  value : (digitsValue (w ++ f) : ℚ) * 10 ^ (-(f.length : ℤ)) = v

theorem Writes.readDecimal? {w f : List Char} {v : ℚ} {x : Float} (h : Writes w f v)
    (hx : Dyadic.ofFloat? x = some ⟨m, e⟩) (pos : 0 < m) (near : Near m e v) :
    readDecimal? (w ++ '.' :: f) = some x := by
  have point : NoDigit ('.' :: f) := .cons rfl
  have ends : NoDigit [] := nofun
  have taken := takeWhile_digits h.frac.2 ends
  have dropped := dropWhile_digits h.frac.2 ends
  rw [List.append_nil] at taken dropped
  have full : w.isEmpty = false := by simpa using h.whole.1
  simp only [DiceFormula.readDecimal?, takeWhile_digits h.whole.2 point,
    dropWhile_digits h.whole.2 point, taken, dropped, full, Bool.false_and, Bool.false_eq_true,
    if_false, readExponent?, Option.map_some, zero_sub]
  rw [decimalToFloat_of_near hx pos (h.value ▸ near)]

/-- The digits of a decimal without the zeros at their end, and the place of the first of them. -/
theorem toRat_eq {d : Decimal} (pos : 0 < d.coeff) :
    IsInt (stripZeros (Nat.toDigits 10 d.coeff))
      ∧ d.toRat = digitsValue (stripZeros (Nat.toDigits 10 d.coeff))
        * 10 ^ (d.exp + (Nat.toDigits 10 d.coeff).length
          - (stripZeros (Nat.toDigits 10 d.coeff)).length) := by
  have digits := (isInt_toDigits d.coeff).2
  have full := stripZeros_ne_nil (exists_digit_ne_zero pos)
  have value : digitsValue (Nat.toDigits 10 d.coeff) = d.coeff := Nat.ofDigitChars_ten_toDigits
  obtain ⟨k, parts⟩ := stripZeros_append (Nat.toDigits 10 d.coeff)
  have length := congrArg List.length parts
  rw [List.length_append, List.length_replicate] at length
  rw [parts, digitsValue_append_zeros] at value
  refine ⟨⟨full, fun c hc => digits c ?_⟩, ?_⟩
  · rw [parts]
    exact List.mem_append_left _ hc
  · have coeff : (d.coeff : ℚ) = digitsValue (stripZeros (Nat.toDigits 10 d.coeff)) * 10 ^ k := by
      exact_mod_cast value.symm
    rw [toRat, length]
    conv_lhs => rw [coeff]
    push_cast
    rw [show d.exp + ((stripZeros (Nat.toDigits 10 d.coeff)).length + k)
      - (stripZeros (Nat.toDigits 10 d.coeff)).length = k + d.exp by ring, zpow_add₀ (by norm_num),
      zpow_natCast, mul_assoc]

/-- How large a decimal is says where its first digit stands. -/
theorem place_bounds {d : Decimal} (pos : 0 < d.coeff) (low : (10 : ℚ) ^ (-4 : ℤ) ≤ d.toRat)
    (high : d.toRat < 10 ^ (16 : ℤ)) :
    -4 < (Nat.toDigits 10 d.coeff).length + d.exp
      ∧ (Nat.toDigits 10 d.coeff).length - 1 + d.exp < 16 := by
  have power : (0 : ℚ) < 10 ^ d.exp := by positivity
  have order {i j : ℤ} (h : (10 : ℚ) ^ i < 10 ^ j) : i < j :=
    (zpow_lt_zpow_iff_right₀ (by norm_num)).1 h
  obtain ⟨least, most⟩ := natCast_mem_of_toDigits pos
  refine ⟨order (lt_of_le_of_lt low ?_), order (lt_of_le_of_lt ?_ high)⟩
  · rw [zpow_add₀ (by norm_num)]
    exact mul_lt_mul_of_pos_right most power
  · rw [zpow_add₀ (by norm_num)]
    exact mul_le_mul_of_nonneg_right least power.le

/-- **A decimal of middling size is written as digits with a point between them.** -/
theorem exists_layout {d : Decimal} (pos : 0 < d.coeff) (low : (10 : ℚ) ^ (-4 : ℤ) ≤ d.toRat)
    (high : d.toRat < 10 ^ (16 : ℤ)) : ∃ w f, d.layout = w ++ '.' :: f ∧ Writes w f d.toRat := by
  obtain ⟨bottom, top⟩ := place_bounds pos low high
  obtain ⟨digits, value⟩ := toRat_eq pos
  unfold layout
  dsimp only
  rw [if_neg (by simp; omega)]
  generalize stripZeros (Nat.toDigits 10 d.coeff) = ds at *
  generalize ((Nat.toDigits 10 d.coeff).length : ℤ) = length at *
  have zeros (k : ℕ) : IsDigits (List.replicate k '0') := fun c hc => by
    rw [List.eq_of_mem_replicate hc]
    rfl
  split
  · next small =>
    -- the zeros before the digits stand after the point
    refine ⟨['0'], List.replicate (-1 - (d.exp + length - 1)).toNat '0' ++ ds, rfl,
      ⟨List.cons_ne_nil _ _, zeros 1⟩, ⟨?_, ?_⟩, ?_⟩
    · exact List.append_ne_nil_of_right_ne_nil _ digits.1
    · exact List.forall_mem_append.2 ⟨zeros _, digits.2⟩
    · rw [← List.append_assoc, show ['0'] = List.replicate 1 '0' from rfl,
        List.replicate_append_replicate, digitsValue_zeros_append, value, List.length_append,
        List.length_replicate]
      congr 2
      omega
  · next large =>
    split
    · next short =>
      -- zeros fill up the places before the point, and one stands after it
      refine ⟨ds ++ List.replicate ((d.exp + length - 1).toNat + 1 - ds.length) '0', ['0'], rfl,
        ⟨?_, ?_⟩, ⟨List.cons_ne_nil _ _, zeros 1⟩, ?_⟩
      · exact List.append_ne_nil_of_left_ne_nil digits.1 _
      · exact List.forall_mem_append.2 ⟨digits.2, zeros _⟩
      · rw [List.append_assoc, show ['0'] = List.replicate 1 '0' from rfl,
          List.replicate_append_replicate, digitsValue_append_zeros, value, List.length_replicate]
        push_cast
        rw [mul_assoc, ← zpow_natCast, ← zpow_add₀ (by norm_num)]
        congr 2
        omega
    · next long =>
      refine ⟨_, _, rfl, ⟨?_, ?_⟩, ⟨?_, ?_⟩, ?_⟩
      · refine List.length_pos_iff.1 ?_
        rw [List.length_take]
        omega
      · exact fun c hc => digits.2 c (List.mem_of_mem_take hc)
      · refine List.length_pos_iff.1 ?_
        rw [List.length_drop]
        omega
      · exact fun c hc => digits.2 c (List.mem_of_mem_drop hc)
      · rw [List.take_append_drop, value, List.length_drop]
        congr 2
        omega

end Decimal

/-! ## Fractions -/

/-- A fraction that is large enough to be written without an exponent. -/
structure Fraction (x : Float) : Prop where
  finite : (Dyadic.ofFloat? x).isSome = true
  broken : isIntegral x = false
  large : 0.0001 ≤ x

theorem Double.le_iff {x y : Float} {c d : Dyadic} (hx : Dyadic.ofFloat? x = some c)
    (hy : Dyadic.ofFloat? y = some d) : x ≤ y ↔ c.toRat ≤ d.toRat := by
  have exact := (exact_unpack hx).compare_eq (exact_unpack hy)
  change decide ((x.toModel.unpack.compare y.toModel.unpack).any (·.isLE) = true) = true ↔ _
  rw [exact, decide_eq_true_iff, Option.any_some, Ordering.isLE_iff_ne_gt]
  exact compare_le_iff_le

namespace Fraction

variable {x : Float}

/-- A fraction is a positive number of last places, which are not whole. -/
theorem exists_value (h : Fraction x) : ∃ (m : ℕ) (e : ℤ), Dyadic.ofFloat? x = some ⟨m, e⟩
    ∧ 0 < m ∧ e < 0 ∧ (7378697629483821 : ℚ) * 2 ^ (-66 : ℤ) ≤ m * 2 ^ e := by
  obtain ⟨⟨sig, e⟩, hd⟩ := Option.isSome_iff_exists.1 h.finite
  have least : Dyadic.ofFloat? 0.0001 = some ⟨7378697629483821, -66⟩ := by decide +kernel
  have large := (Double.le_iff least hd).1 h.large
  simp only [Dyadic.toRat] at large
  push_cast at large
  have place : (0 : ℚ) < 2 ^ e := by positivity
  have pos : 0 < sig := by
    have : (0 : ℚ) < sig * 2 ^ e := lt_of_lt_of_le (by positivity) large
    exact_mod_cast (pos_iff_pos_of_mul_pos this).2 place
  obtain ⟨m, rfl⟩ := Int.eq_ofNat_of_zero_le pos.le
  refine ⟨m, e, hd, by omega, ?_, by exact_mod_cast large⟩
  by_contra whole
  have broken := h.broken
  rw [isIntegral, hd, Option.any_some, Dyadic.isIntegral, decide_eq_true (not_lt.1 whole)] at broken
  cases broken

/-- Its shortest decimal is neither too small nor too large to be written without an exponent. -/
theorem mem_of_value {m : ℕ} {e : ℤ} (hx : Dyadic.ofFloat? x = some ⟨m, e⟩) (pos : 0 < m)
    (broken : e < 0) (large : (7378697629483821 : ℚ) * 2 ^ (-66 : ℤ) ≤ m * 2 ^ e) :
    (10 : ℚ) ^ (-4 : ℤ) ≤ (Decimal.shortest m e).toRat
      ∧ (Decimal.shortest m e).toRat < 10 ^ (16 : ℤ) := by
  have canonical := (canonical_of_ofFloat? hx pos).1
  have near := Decimal.near_shortest pos e
  have place : (0 : ℚ) < 2 ^ e := by positivity
  have split : (Decimal.shortest m e).toRat = (Decimal.shortest m e).toRat / 2 ^ e * 2 ^ e :=
    (div_mul_cancel₀ _ place.ne').symm
  have least : Canonical 7378697629483821 (-66) := ⟨by decide, by decide, by decide⟩
  refine ⟨?_, ?_⟩
  · by_cases same : e = -66 ∧ m = 7378697629483821
    · obtain ⟨rfl, rfl⟩ := same
      have value : Decimal.shortest 7378697629483821 (-66) = ⟨1, -4⟩ := by decide +kernel
      rw [value, Decimal.toRat, Nat.cast_one, one_mul]
    -- the middle to the next double is above `10 ^ -4`
    have middle : (4 * 7378697629483821 + 2 : ℚ) * 2 ^ (-66 : ℤ) ≤ (4 * m - slack m e) * 2 ^ e := by
      rcases lt_trichotomy e (-66) with less | rfl | more
      · have below := mul_lt_mul_of_canonical canonical least less
        exact absurd large (not_le.2 (by exact_mod_cast below))
      · refine mul_le_mul_of_nonneg_right ?_ place.le
        have next : 7378697629483821 < m := by
          have : (7378697629483821 : ℚ) ≤ m := le_of_mul_le_mul_right large place
          have : 7378697629483821 ≤ m := by exact_mod_cast this
          omega
        have : (7378697629483821 : ℚ) + 1 ≤ m := by exact_mod_cast next
        linarith [slack_le m (-66)]
      · have twice : (2 : ℚ) ^ (-65 : ℤ) ≤ 2 ^ e := zpow_le_zpow_right₀ one_le_two (by omega)
        have digits : (2 : ℚ) ^ 52 ≤ m := by exact_mod_cast canonical.low (by omega)
        calc (4 * 7378697629483821 + 2 : ℚ) * 2 ^ (-66 : ℤ)
            ≤ (4 * 2 ^ 52 - 2) * 2 ^ (-65 : ℤ) := by norm_num
          _ ≤ (4 * m - slack m e) * 2 ^ e :=
            mul_le_mul (by linarith [slack_le m e]) twice (by positivity)
              (by linarith [slack_le m e])
    have low := mul_le_mul_of_nonneg_right near.low place.le
    have numeric : (4 : ℚ) * 10 ^ (-4 : ℤ) ≤ (4 * 7378697629483821 + 2) * 2 ^ (-66 : ℤ) := by
      norm_num
    rw [split]
    generalize (Decimal.shortest m e).toRat / 2 ^ e = v at *
    linarith
  · have half : (2 : ℚ) ^ e ≤ 2 ^ (-1 : ℤ) := zpow_le_zpow_right₀ one_le_two (by omega)
    have digits : (m : ℚ) + 1 ≤ 2 ^ 53 := by exact_mod_cast canonical.high
    have high : (Decimal.shortest m e).toRat / 2 ^ e ≤ 2 ^ 53 := by linarith [near.high]
    rw [split]
    calc (Decimal.shortest m e).toRat / 2 ^ e * 2 ^ e ≤ 2 ^ 53 * 2 ^ (-1 : ℤ) :=
          mul_le_mul high half place.le (by norm_num)
      _ < 10 ^ (16 : ℤ) := by norm_num

/-- **A fraction is written as digits with a point between them**, which are read as it again. -/
theorem exists_text (h : Fraction x) : ∃ w f, (floatText x).toList = w ++ '.' :: f
    ∧ IsInt w ∧ IsInt f ∧ readDecimal? (w ++ '.' :: f) = some x := by
  obtain ⟨m, e, hx, pos, broken, large⟩ := h.exists_value
  obtain ⟨low, high⟩ := mem_of_value hx pos broken large
  obtain ⟨w, f, text, writes⟩ := Decimal.exists_layout (Decimal.coeff_shortest_pos pos) low high
  have positive := sign_of_ofFloat? hx pos
  refine ⟨w, f, ?_, writes.whole, writes.frac,
    writes.readDecimal? hx pos (Decimal.near_shortest pos e)⟩
  have nonzero : ((m : ℤ) == 0) = false := by simpa using pos.ne'
  rw [floatText, hx]
  dsimp only
  rw [nonzero, if_neg Bool.false_ne_true, positive, if_neg (by decide), List.nil_append,
    String.toList_ofList, Int.natAbs_natCast, text]

end Fraction

end DiceFormula
