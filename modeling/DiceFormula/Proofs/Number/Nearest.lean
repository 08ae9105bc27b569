import DiceFormula.Number.Reader
import DiceFormula.Proofs.Number.Whole
import Mathlib

/-!
# Ratios that round to a double

A ratio that lies no farther from a double than the middle to the next one (`Double.Near`) rounds to
this double (`Double.nearest_of_near`): the last place is that of the double, or half of it right
below a power of two, and the ratio is nearer to the significand than to any other integer. So does
a decimal, of which all but the largest and the smallest are rounded as ratios
(`Double.decimalToFloat_of_near`).
-/

namespace DiceFormula

open Float.Model UnpackedFloat

namespace Double

/-! ## Last places -/

/-- A ratio that is scaled by a power of two is a ratio of naturals again. -/
theorem exists_scaled (num : ℕ) {den : ℕ} (hd : 0 < den) (e : ℤ) :
    ∃ N D : ℕ, 0 < D ∧ (N : ℚ) / D = num / den / 2 ^ e ∧ ∀ (α : Type) (f : ℕ → ℕ → α),
      (if 0 ≤ e then f num (den * Nat.pow 2 e.toNat) else f (num * Nat.pow 2 (-e).toNat) den)
        = f N D := by
  by_cases h : 0 ≤ e
  · obtain ⟨k, rfl⟩ := Int.eq_ofNat_of_zero_le h
    refine ⟨num, den * 2 ^ k, Nat.mul_pos hd (Nat.two_pow_pos k), ?_, fun α f => if_pos h⟩
    push_cast
    rw [zpow_natCast, div_div]
  · obtain ⟨k, rfl⟩ : ∃ k : ℕ, e = -(k : ℤ) := ⟨(-e).toNat, by omega⟩
    refine ⟨num * 2 ^ k, den, hd, ?_, fun α f => ?_⟩
    · push_cast
      rw [zpow_neg, zpow_natCast, div_inv_eq_mul, div_mul_eq_mul_div]
    · rw [if_neg h, neg_neg, Int.toNat_natCast]
      rfl

variable {num den : ℕ}

/-- A ratio lies between the powers of two that its logarithms say. -/
theorem ratio_mem_of_log2 (hn : 0 < num) (hd : 0 < den) :
    (2 : ℚ) ^ ((num.log2 : ℤ) - den.log2 - 1) ≤ num / den
      ∧ (num : ℚ) / den < 2 ^ ((num.log2 : ℤ) - den.log2 + 1) := by
  have numLow : (2 : ℚ) ^ num.log2 ≤ num := by exact_mod_cast Nat.log2_self_le hn.ne'
  have numHigh : (num : ℚ) < 2 ^ (num.log2 + 1) := by exact_mod_cast @Nat.lt_log2_self num
  have denLow : (2 : ℚ) ^ den.log2 ≤ den := by exact_mod_cast Nat.log2_self_le hd.ne'
  have denHigh : (den : ℚ) < 2 ^ (den.log2 + 1) := by exact_mod_cast @Nat.lt_log2_self den
  have den0 : (0 : ℚ) < den := by exact_mod_cast hd
  generalize num.log2 = a at *
  generalize den.log2 = b at *
  refine ⟨?_, ?_⟩
  · have power : (2 : ℚ) ^ ((a : ℤ) - b - 1) = 2 ^ a / 2 ^ (b + 1) := by
      rw [show (a : ℤ) - b - 1 = a - (b + 1 : ℕ) by omega, zpow_sub₀ two_ne_zero, zpow_natCast,
        zpow_natCast]
    rw [power]
    exact div_le_div₀ (by positivity) numLow den0 denHigh.le
  · have power : (2 : ℚ) ^ ((a : ℤ) - b + 1) = 2 ^ (a + 1) / 2 ^ b := by
      rw [show (a : ℤ) - b + 1 = (a + 1 : ℕ) - b by omega, zpow_sub₀ two_ne_zero, zpow_natCast,
        zpow_natCast]
    rw [power]
    exact div_lt_div₀ numHigh denLow (by positivity) (by positivity)

/-- A ratio has at most 53 binary digits down to its last place, and no fewer unless this is the
least one. -/
theorem lastPlace_spec (hn : 0 < num) (hd : 0 < den) :
    -1074 ≤ lastPlace num den ∧ (num : ℚ) / den < 2 ^ (lastPlace num den + 53)
      ∧ (-1074 < lastPlace num den → (2 : ℚ) ^ (lastPlace num den + 52) ≤ num / den) := by
  obtain ⟨low, high⟩ := ratio_mem_of_log2 hn hd
  unfold lastPlace
  dsimp only
  obtain ⟨N, D, hD, scaled, read⟩ := exists_scaled num hd ((num.log2 : ℤ) - den.log2 - 53)
  rw [read ℕ fun a b => a / b]
  generalize (num.log2 : ℤ) - den.log2 = k at *
  -- the digits down to the place that is tried first are 53 or 54
  have wide : Nat.pow 2 53 ≤ N / D ↔ (2 : ℚ) ^ k ≤ num / den := by
    have place : (0 : ℚ) < 2 ^ (k - 53) := by positivity
    have power : (2 : ℚ) ^ k = 2 ^ 53 * 2 ^ (k - 53) := by
      rw [← zpow_natCast, ← zpow_add₀ two_ne_zero]
      congr 1
      omega
    rw [Nat.le_div_iff_mul_le hD, power, ← le_div_iff₀ place, ← scaled,
      le_div_iff₀ (by exact_mod_cast hD)]
    exact_mod_cast Iff.rfl
  generalize (num : ℚ) / den = v at *
  have mono {i j : ℤ} (h : i ≤ j) : (2 : ℚ) ^ i ≤ 2 ^ j := zpow_le_zpow_right₀ one_le_two h
  split
  · next long =>
    refine ⟨le_max_right _ _, high.trans_le (mono (by omega)), fun least => ?_⟩
    exact (mono (by omega)).trans (wide.1 long)
  · next short =>
    rw [wide, not_le] at short
    refine ⟨le_max_right _ _, short.trans_le (mono (by omega)), fun least => ?_⟩
    exact (mono (by omega)).trans low

/-! ## Rounding to an integer -/

theorem roundDiv_eq_of_near {q N D : ℕ} (hD : 0 < D) (low : 2 * q * D ≤ 2 * N + D)
    (high : 2 * N ≤ 2 * q * D + D)
    (odd : q % 2 = 1 → 2 * q * D < 2 * N + D ∧ 2 * N < 2 * q * D + D) : roundDiv N D = q := by
  have cut := Nat.div_add_mod N D
  have rest := Nat.mod_lt N hD
  unfold roundDiv
  dsimp only
  generalize N % D = r at *
  generalize N / D = p at *
  subst cut
  -- either integer next to the ratio is the only one that is near enough
  rcases lt_trichotomy p q with below | rfl | above
  · obtain ⟨k, rfl⟩ : ∃ k, q = p + 1 + k := ⟨q - (p + 1), by omega⟩
    have zero : k = 0 := by
      by_contra more
      have : D ≤ k * D := Nat.le_mul_of_pos_left D (by omega)
      have split : 2 * (p + 1 + k) * D = 2 * (D * p) + 2 * D + 2 * (k * D) := by ring
      omega
    subst zero
    have split : 2 * (p + 1 + 0) * D = 2 * (D * p) + 2 * D := by ring
    rw [split] at low high odd
    rw [if_neg]
    simp only [Bool.or_eq_true, decide_eq_true_eq, Bool.and_eq_true, beq_iff_eq]
    omega
  · have split : 2 * p * D = 2 * (D * p) := by ring
    rw [split] at low high odd
    rw [if_pos]
    simp only [Bool.or_eq_true, decide_eq_true_eq, Bool.and_eq_true, beq_iff_eq]
    omega
  · obtain ⟨k, rfl⟩ : ∃ k, p = q + 1 + k := ⟨p - (q + 1), by omega⟩
    have split : D * (q + 1 + k) = q * D + D + k * D := by ring
    have split' : 2 * q * D = 2 * (q * D) := by ring
    omega

/-- The nearest integer is the one that is at most one half away; the even one of two. -/
theorem roundDiv_eq {q N D : ℕ} (hD : 0 < D) (low : (2 * q - 1 : ℚ) ≤ 2 * (N / D))
    (high : 2 * (N / D : ℚ) ≤ 2 * q + 1)
    (odd : q % 2 = 1 → (2 * q - 1 : ℚ) < 2 * (N / D) ∧ 2 * (N / D : ℚ) < 2 * q + 1) :
    roundDiv N D = q := by
  have den : (0 : ℚ) < D := by exact_mod_cast hD
  rw [← mul_div_assoc] at low high odd
  rw [le_div_iff₀ den] at low
  rw [div_le_iff₀ den] at high
  rw [lt_div_iff₀ den, div_lt_iff₀ den] at odd
  refine roundDiv_eq_of_near hD ?_ ?_ fun h => ⟨?_, ?_⟩
  · have : (2 * q * D : ℚ) ≤ 2 * N + D := by linarith
    exact_mod_cast this
  · have : (2 * N : ℚ) ≤ 2 * q * D + D := by linarith
    exact_mod_cast this
  · have : (2 * q * D : ℚ) < 2 * N + D := by linarith [(odd h).1]
    exact_mod_cast this
  · have : (2 * N : ℚ) < 2 * q * D + D := by linarith [(odd h).2]
    exact_mod_cast this

/-! ## Doubles from significands -/

/-- The sign of a positive double is not set. -/
theorem sign_of_ofFloat? {x : Float} {m : ℕ} {e : ℤ} (h : Dyadic.ofFloat? x = some ⟨m, e⟩)
    (pos : 0 < m) : x.toBits.toNat / Nat.pow 2 63 = 0 := by
  have size : x.toBits.toNat < 2 ^ 64 := x.toBits.toNat_lt
  unfold Dyadic.ofFloat? at h
  simp only [Nat.pow_eq] at h ⊢
  split at h
  · cases h
  · obtain ⟨sig, -⟩ := Dyadic.mk.inj (Option.some.inj h)
    by_contra negative
    rw [if_pos (by simp; omega)] at sig
    omega

/-- A positive double is put together of its significand and its exponent. -/
theorem ofSignificand_eq {x : Float} {m : ℕ} {e : ℤ} (h : Dyadic.ofFloat? x = some ⟨m, e⟩)
    (pos : 0 < m) : ofSignificand m e = x := by
  have positive : x.toBits.toNat / 2 ^ 63 = 0 := sign_of_ofFloat? h pos
  have bits : UInt64.ofNat x.toBits.toNat = x.toBits := UInt64.ofNat_toNat
  unfold Dyadic.ofFloat? at h
  simp only [Nat.pow_eq] at h
  split at h
  · cases h
  · next finite =>
    obtain ⟨sig, exp⟩ := Dyadic.mk.inj (Option.some.inj h)
    have finite : x.toBits.toNat / 2 ^ 52 % 2048 ≠ 2047 := by simpa using finite
    have cut := Nat.div_add_mod x.toBits.toNat (2 ^ 52)
    rw [positive, if_neg (by decide)] at sig
    have field : x.toBits.toNat / 2 ^ 52 % 2048 = x.toBits.toNat / 2 ^ 52 := by omega
    rw [field] at sig exp finite
    have same : (if m < 2 ^ 52 then m else (e + 1075).toNat * 2 ^ 52 + (m - 2 ^ 52))
        = x.toBits.toNat := by
      by_cases least : x.toBits.toNat / 2 ^ 52 = 0
      · simp only [least, beq_self_eq_true, if_true] at sig exp
        split <;> omega
      · simp only [least, beq_iff_eq, if_false] at sig exp
        split <;> omega
    have bounded : min x.toBits.toNat (2047 * 2 ^ 52) = x.toBits.toNat := by omega
    unfold ofSignificand
    simp only [Nat.pow_eq]
    rw [same, bounded, bits, Float.ofBits_toBits]

/-- The significand and the exponent of a positive double. -/
theorem canonical_of_ofFloat? {x : Float} {m : ℕ} {e : ℤ}
    (h : Dyadic.ofFloat? x = some ⟨m, e⟩) (pos : 0 < m) : Canonical m e ∧ e ≤ 971 := by
  have stands : Stands _ _ _ x.toModel.unpack := stands_unpack x.toBits.toBitVec
  have field : _ < 2 ^ 11 := (@unpackExponent Format.binary64 x.toBits.toBitVec).isLt
  rw [Dyadic.ofFloat?_eq_ofUnpacked?] at h
  generalize x.toModel.unpack = u at h stands
  cases u with
  | infinity | notANumber => cases h
  | zero =>
    obtain ⟨sig, -⟩ := Dyadic.mk.inj (Option.some.inj h)
    omega
  | finite s n k positive =>
    obtain ⟨sig, rfl⟩ := Dyadic.mk.inj (Option.some.inj h)
    obtain rfl : n = m := by
      cases s with
      | positive => exact Int.ofNat.inj sig
      | negative =>
        have : -(n : ℤ) = m := sig
        omega
    refine ⟨stands.canonical (BitVec.isLt _), ?_⟩
    cases stands with
    | subnormal => omega
    | normal => omega

/-- The least significand of 53 digits is half of the next power of two. -/
theorem ofSignificand_carry {e : ℤ} (h : -1074 < e) :
    ofSignificand (2 ^ 53) (e - 1) = ofSignificand (2 ^ 52) e := by
  unfold ofSignificand
  simp only [Nat.pow_eq]
  have next : (e + 1075).toNat = (e - 1 + 1075).toNat + 1 := by omega
  have same : (e - 1 + 1075).toNat * 2 ^ 52 + (2 ^ 53 - 2 ^ 52)
      = (e + 1075).toNat * 2 ^ 52 + (2 ^ 52 - 2 ^ 52) := by omega
  rw [if_neg (by decide), if_neg (by decide), same]

/-! ## What rounds to a double -/

/-- How far below a double a number may lie that rounds to it, in quarters of its last place. Below
a power of two the doubles lie twice as close. -/
def slack (m : ℕ) (e : ℤ) : ℕ := if m = 2 ^ 52 ∧ -1074 < e then 1 else 2

/-- The number `v` lies no farther from the double `m · 2 ^ e` than the middle to the next double;
if it lies in the middle, the significand is even. -/
structure Near (m : ℕ) (e : ℤ) (v : ℚ) : Prop where
  low : (4 * m - slack m e : ℚ) ≤ 4 * (v / 2 ^ e)
  high : 4 * (v / 2 ^ e) ≤ 4 * m + 2
  odd : m % 2 = 1 → (4 * m - slack m e : ℚ) < 4 * (v / 2 ^ e) ∧ 4 * (v / 2 ^ e) < 4 * m + 2

variable {m : ℕ} {e : ℤ} {v : ℚ}

theorem slack_le (m : ℕ) (e : ℤ) : (slack m e : ℚ) ≤ 2 := by
  unfold slack
  split <;> norm_num

theorem Near.pos (h : Near m e v) (pos : 0 < m) : 0 < v := by
  have place : (0 : ℚ) < 2 ^ e := by positivity
  have : (1 : ℚ) ≤ m := by exact_mod_cast pos
  refine (div_pos_iff_of_pos_right place).1 ?_
  linarith [h.low, slack_le m e]

/-- A ratio that rounds to a double has the last place of the double, or half of it if it lies right
below a power of two. -/
theorem Near.place (canonical : Canonical m e) (hn : 0 < num) (hd : 0 < den)
    (h : Near m e (num / den)) :
    lastPlace num den = e
      ∨ lastPlace num den = e - 1 ∧ m = 2 ^ 52 ∧ -1074 < e ∧ (num : ℚ) / den / 2 ^ e < 2 ^ 52 := by
  obtain ⟨least, above, below⟩ := lastPlace_spec hn hd
  generalize (num : ℚ) / den = v at *
  generalize lastPlace num den = t at *
  have place : (0 : ℚ) < 2 ^ e := by positivity
  have power (k : ℕ) : (2 : ℚ) ^ (e + k) = 2 ^ k * 2 ^ e := by
    rw [zpow_add₀ two_ne_zero, zpow_natCast, mul_comm]
  have order {i j : ℤ} (h : (2 : ℚ) ^ i < 2 ^ j) : i < j :=
    (zpow_lt_zpow_iff_right₀ one_lt_two).1 h
  have short : v < 2 ^ (e + 53) := by
    have digits : (m : ℚ) + 1 ≤ 2 ^ 53 := by exact_mod_cast canonical.high
    rw [show e + 53 = e + (53 : ℕ) from rfl, power, ← div_lt_iff₀ place]
    linarith [h.high]
  by_cases carry : -1074 < e ∧ v / 2 ^ e < 2 ^ 52
  · obtain ⟨normal, small⟩ := carry
    have long : 2 ^ 52 ≤ m := canonical.low normal
    have least : m = 2 ^ 52 := by
      by_contra more
      have more : (2 : ℚ) ^ 52 + 1 ≤ m := by exact_mod_cast (by omega : 2 ^ 52 + 1 ≤ m)
      linarith [h.low, slack_le m e]
    have low : (2 : ℚ) ^ (e + 51) ≤ v := by
      rw [show e + 51 = e + (51 : ℕ) from rfl, power, ← le_div_iff₀ place]
      have : (2 : ℚ) ^ 52 ≤ m := by exact_mod_cast long
      linarith [h.low, slack_le m e]
    have high : v < 2 ^ (e + 52) := by
      rwa [show e + 52 = e + (52 : ℕ) from rfl, power, ← div_lt_iff₀ place]
    have := order (low.trans_lt above)
    by_cases first : -1074 < t
    · have := order ((below first).trans_lt high)
      exact .inr ⟨by omega, least, normal, small⟩
    · exact .inr ⟨by omega, least, normal, small⟩
  · refine .inl (le_antisymm ?_ ?_)
    · by_cases first : -1074 < t
      · have := order ((below first).trans_lt short)
        omega
      · have := canonical.least
        omega
    · by_cases normal : -1074 < e
      · have low : (2 : ℚ) ^ (e + 52) ≤ v := by
          rw [show e + 52 = e + (52 : ℕ) from rfl, power, ← le_div_iff₀ place]
          exact not_lt.1 fun small => carry ⟨normal, small⟩
        have := order (low.trans_lt above)
        omega
      · omega

/-- **A ratio near a double rounds to it.** -/
theorem nearest_of_near (canonical : Canonical m e) (pos : 0 < m) (hd : 0 < den)
    (h : Near m e (num / den)) : nearest num den = ofSignificand m e := by
  have hn : 0 < num := by
    have := h.pos pos
    rw [div_pos_iff_of_pos_right (by exact_mod_cast hd)] at this
    exact_mod_cast this
  unfold nearest
  rw [if_neg (by simpa using hn.ne')]
  dsimp only
  obtain ⟨N, D, hD, scaled, read⟩ := exists_scaled num hd (lastPlace num den)
  rw [read ℕ roundDiv]
  rcases h.place canonical hn hd with same | ⟨half, rfl, normal, small⟩
  · rw [same] at scaled ⊢
    obtain ⟨low, high, odd⟩ := h
    rw [← scaled] at low high odd
    rw [roundDiv_eq hD]
    · linarith [slack_le m e]
    · linarith
    · intro h
      obtain ⟨low, high⟩ := odd h
      exact ⟨by linarith [slack_le m e], by linarith⟩
  · -- with one digit more, the significand is rounded up to the power of two
    have double : (num : ℚ) / den / 2 ^ (e - 1) = 2 * (num / den / 2 ^ e) := by
      rw [zpow_sub_one₀ two_ne_zero]
      field_simp
    have near := h.low
    rw [slack, if_pos ⟨rfl, normal⟩] at near
    push_cast at near
    rw [half] at scaled ⊢
    rw [roundDiv_eq (q := 2 ^ 53) hD, ofSignificand_carry normal]
    · rw [scaled, double]
      push_cast
      linarith
    · rw [scaled, double]
      push_cast
      linarith
    · intro odd
      omega

/-! ## Decimals -/

/-- What rounds to a double lies between `10 ^ -324` and `10 ^ 309`. -/
theorem Near.mem (canonical : Canonical m e) (pos : 0 < m) (top : e ≤ 971) (h : Near m e v) :
    (10 : ℚ) ^ (-324 : ℤ) < v ∧ v < 10 ^ (309 : ℤ) := by
  have place : (0 : ℚ) < 2 ^ e := by positivity
  have least : (2 : ℚ) ^ (-1074 : ℤ) ≤ 2 ^ e := zpow_le_zpow_right₀ one_le_two canonical.least
  have most : (2 : ℚ) ^ e ≤ 2 ^ (971 : ℤ) := zpow_le_zpow_right₀ one_le_two top
  have digits : (m : ℚ) + 1 ≤ 2 ^ 53 := by exact_mod_cast canonical.high
  have one : (1 : ℚ) ≤ m := by exact_mod_cast pos
  have low : (2 : ℚ) ^ (-1 : ℤ) ≤ v / 2 ^ e := by
    rw [zpow_neg_one]
    linarith [h.low, slack_le m e]
  have high : v / 2 ^ e ≤ 2 ^ (53 : ℤ) := by
    norm_num at digits ⊢
    linarith [h.high]
  rw [← div_mul_cancel₀ v place.ne']
  constructor
  · calc (10 : ℚ) ^ (-324 : ℤ) < 2 ^ (-1075 : ℤ) := by
          have : (2 : ℚ) ^ 1075 < 10 ^ 324 := by
            exact_mod_cast (by decide +kernel : 2 ^ 1075 < 10 ^ 324)
          rw [zpow_neg, zpow_neg, inv_lt_inv₀ (by positivity) (by positivity)]
          exact this
      _ = 2 ^ (-1 : ℤ) * 2 ^ (-1074 : ℤ) := by rw [← zpow_add₀ two_ne_zero]; rfl
      _ ≤ v / 2 ^ e * 2 ^ e := mul_le_mul low least (by positivity) (by linarith)
  · calc v / 2 ^ e * 2 ^ e ≤ 2 ^ (53 : ℤ) * 2 ^ (971 : ℤ) :=
          mul_le_mul high most place.le (by positivity)
      _ = 2 ^ (1024 : ℤ) := by rw [← zpow_add₀ two_ne_zero]; rfl
      _ < 10 ^ (309 : ℤ) := by
          have : (2 : ℚ) ^ 1024 < 10 ^ 309 := by
            exact_mod_cast (by decide +kernel : 2 ^ 1024 < 10 ^ 309)
          exact this

/-- A number is as long as its decimal digits. -/
theorem natCast_mem_of_toDigits {c : ℕ} (hc : 0 < c) :
    (10 : ℚ) ^ (((Nat.toDigits 10 c).length : ℤ) - 1) ≤ c
      ∧ (c : ℚ) < 10 ^ ((Nat.toDigits 10 c).length : ℤ) := by
  obtain ⟨k, hk⟩ := Nat.exists_eq_add_one.2 (Nat.length_toDigits_pos (b := 10) (n := c))
  refine ⟨?_, ?_⟩
  · rw [hk, Nat.cast_succ, add_sub_cancel_right, zpow_natCast]
    by_cases zero : k = 0
    · subst zero
      exact_mod_cast hc
    · have longer : ¬(Nat.toDigits 10 c).length ≤ k := by omega
      rw [Nat.length_toDigits_le_iff (by decide) (by omega), not_lt] at longer
      exact_mod_cast longer
  · rw [zpow_natCast]
    have := (Nat.length_toDigits_le_iff (n := c) (b := 10) (by decide)
      (by omega : 0 < (Nat.toDigits 10 c).length)).1 le_rfl
    exact_mod_cast this

/-- **A decimal near a double is read as it.** -/
theorem decimalToFloat_of_near {x : Float} {c : ℕ} {k : ℤ}
    (hx : Dyadic.ofFloat? x = some ⟨m, e⟩) (pos : 0 < m) (h : Near m e (c * 10 ^ k)) :
    decimalToFloat c k = x := by
  obtain ⟨canonical, top⟩ := canonical_of_ofFloat? hx pos
  obtain ⟨small, large⟩ := h.mem canonical pos top
  have hc : 0 < c := by
    by_contra zero
    obtain rfl : c = 0 := by omega
    have := h.pos pos
    simp at this
  obtain ⟨low, high⟩ := natCast_mem_of_toDigits hc
  have power : (0 : ℚ) < 10 ^ k := by positivity
  have below : -324 < (Nat.toDigits 10 c).length + k := by
    have := small.trans (mul_lt_mul_of_pos_right high power)
    rw [← zpow_add₀ (by norm_num)] at this
    exact (zpow_lt_zpow_iff_right₀ (by norm_num)).1 this
  have above : (Nat.toDigits 10 c).length - 1 + k < 309 := by
    have := (mul_le_mul_of_nonneg_right low power.le).trans_lt large
    rw [← zpow_add₀ (by norm_num)] at this
    exact (zpow_lt_zpow_iff_right₀ (by norm_num)).1 this
  unfold decimalToFloat
  dsimp only
  rw [if_neg (by simp; omega), if_neg (by omega)]
  split
  · next whole =>
    obtain ⟨j, rfl⟩ := Int.eq_ofNat_of_zero_le whole
    rw [nearest_of_near canonical pos Nat.one_pos, ofSignificand_eq hx pos]
    simpa using h
  · next broken =>
    obtain ⟨j, rfl⟩ : ∃ j : ℕ, k = -(j : ℤ) := ⟨(-k).toNat, by omega⟩
    rw [neg_neg, Int.toNat_natCast, Nat.pow_eq,
      nearest_of_near canonical pos (Nat.pow_pos (by decide)), ofSignificand_eq hx pos]
    simpa [div_eq_mul_inv] using h

end Double

end DiceFormula
