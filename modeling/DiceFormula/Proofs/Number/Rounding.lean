import DiceFormula.Proofs.Number.Unpacked
import Mathlib.Tactic.FieldSimp
import Mathlib.Tactic.Linarith
import Mathlib.Tactic.Ring

/-!
# Draws as numbers

A draw is a double from zero up to, but not including, one. Two things are done with it: it is
multiplied with a number of faces and rounded up, or a half is added and it is rounded down. The
first gives no more than the number of faces (`Double.ceil_mul_le`), the second zero or one
(`Double.floor_add_half`). Both go through roundings that could be too large. That they are not is
shown for the bound itself: what lies less than half a place above a number of 53 places is not
rounded to more than it, nor to a greater last place (`Double.fits_roundWithAccuracy`). So nothing
infinite comes of a draw, as long as the number of faces itself has a double
(`Double.exists_floatToInt_mul`, `Double.exists_floatToInt_add_half`).

An integer need not be a double. It is cut to `q` places, the double nearest to it is at most `q + 1`
places, and of these a draw leaves less than half of the last one.
-/

namespace DiceFormula

open Float.Model UnpackedFloat

/-- A number from zero up to, but not including, one. -/
def IsDraw (x : Float) : Prop := 0 ≤ x ∧ x < 1

instance (x : Float) : Decidable (IsDraw x) := inferInstanceAs (Decidable (0 ≤ x ∧ x < 1))

namespace Double

/-! ## Rounding -/

/-- A mantissa that loses its last places. -/
abbrev shifted (m k : Nat) : ExtendedMantissa :=
  ExtendedMantissa.ofMantissaAndAccuracy m .exact >>> k

/-- What is kept of a mantissa, the next place counting half, is no more than it was. -/
theorem shifted_le (m k : Nat) :
    (2 * (shifted m k).mantissa + (shifted m k).roundBit.toNat) * 2 ^ k ≤ 2 * m := by
  induction k with
  | zero => exact Nat.le_of_eq (Nat.mul_one _)
  | succ k ih =>
    have halves (n : Nat) : 2 * (n / 2) + (n % 2 != 0).toNat = n := by
      rcases Nat.mod_two_eq_zero_or_one n with e | e <;> simp [e] <;> omega
    have step : 2 * (shifted m (k + 1)).mantissa + (shifted m (k + 1)).roundBit.toNat
        = (shifted m k).mantissa := halves _
    rw [step, Nat.pow_succ]
    calc (shifted m k).mantissa * (2 ^ k * 2) = 2 * (shifted m k).mantissa * 2 ^ k := by ring
      _ ≤ (2 * (shifted m k).mantissa + (shifted m k).roundBit.toNat) * 2 ^ k :=
        Nat.mul_le_mul_right _ (Nat.le_add_right _ _)
      _ ≤ 2 * m := ih

theorem mantissa_shifted_le (m k : Nat) : (shifted m k).mantissa * 2 ^ k ≤ m := by
  have := Nat.le_trans (Nat.mul_le_mul_right (2 ^ k) (Nat.le_add_right _ _)) (shifted_le m k)
  rw [Nat.mul_assoc] at this
  omega

/-- A mantissa is rounded up only from the middle on. -/
theorem roundedMantissa_shifted_le {m k b : Nat} (h : 2 * m < (2 * b + 1) * 2 ^ k) :
    (shifted m k).roundedMantissa ≤ b := by
  have half (em : ExtendedMantissa) :
      em.roundedMantissa ≤ em.mantissa + em.roundBit.toNat := by
    obtain ⟨q, _ | _, _ | _⟩ := em
    · exact Nat.le_refl _
    · exact Nat.le_refl _
    · exact Nat.add_le_add_left (Nat.le_of_lt_succ (Nat.mod_lt _ (by decide))) _
    · exact Nat.le_refl _
  have := Nat.lt_of_mul_lt_mul_right (Nat.lt_of_le_of_lt (shifted_le m k) h)
  have := Bool.toNat_le (shifted m k).roundBit
  refine Nat.le_trans (half _) ?_
  omega

/-- The exponent that leaves 53 places of a mantissa. -/
def target (m : Nat) (e : Int) : Int := max (m.log2 + 1 + e - 53) (-1074)

/-- How many places a mantissa loses so that 53 are left. -/
def excess (m : Nat) (e : Int) : Nat := (target m e - e).toNat

/-- The double of a mantissa, which is zero where nothing is left of it. -/
def finiteOrZero (m : Nat) (e : Int) : UnpackedFloat :=
  if h : m = 0 then .zero .positive else .finite .positive m e (Nat.pos_of_ne_zero h)

/-- A mantissa is shifted and rounded, and shifted once more in case it became too long. -/
theorem roundWithAccuracy_eq (m : Nat) (e : Int) :
    roundWithAccuracy Format.binary64 .positive m e .exact
      = let k := excess m e
        let r := (shifted m k).roundedMantissa
        let k' := excess r (e + k)
        finiteOrZero (shifted r k').mantissa (e + k + k') := rfl

variable {m q j : Nat} {e : Int}

theorem log2_lt_of_lt_mul {m i : ℕ} (h : m < 2 ^ 53 * 2 ^ i) : m.log2 < 53 + i := by
  by_cases zero : m = 0
  · simp [zero]
  · rwa [Nat.log2_lt zero, Nat.pow_add]

/-- **What lies less than half a place above a number of 53 places is not rounded to more than
it.** -/
theorem fits_roundWithAccuracy (low : 2 ^ 52 ≤ q) (high : q < 2 ^ 53) (least : -1074 ≤ e + j)
    (h : 2 * m < (2 * q + 1) * 2 ^ j) :
    Fits (q * 2 ^ (e + j)) (e + j) (roundWithAccuracy Format.binary64 .positive m e .exact) := by
  rw [roundWithAccuracy_eq]
  dsimp only
  have hk : excess m e = (target m e - e).toNat := rfl
  have ht : target m e = max (m.log2 + 1 + e - 53) (-1074) := rfl
  generalize excess m e = k at hk
  -- no more places are lost than lie below the last one of the bound
  have length : m.log2 < 53 + j := by
    have : (2 * q + 1) * 2 ^ j < 2 ^ 54 * 2 ^ j :=
      Nat.mul_lt_mul_of_pos_right (by omega) (Nat.two_pow_pos j)
    exact log2_lt_of_lt_mul (by omega)
  have lost : k ≤ j := by omega
  have all : 2 ^ (j - k) * 2 ^ k = 2 ^ j := by rw [← Nat.pow_add, Nat.sub_add_cancel lost]
  have rounded : (shifted m k).roundedMantissa ≤ q * 2 ^ (j - k) := by
    apply roundedMantissa_shifted_le
    by_cases less : k < j
    · -- the number is shorter than the bound
      have short : m < 2 ^ (52 + j) :=
        Nat.lt_of_lt_of_le Nat.lt_log2_self (Nat.pow_le_pow_right (by decide) (by omega))
      have below : m < q * 2 ^ j := by
        rw [Nat.pow_add] at short
        exact Nat.lt_of_lt_of_le short (Nat.mul_le_mul_right _ low)
      calc 2 * m < 2 * (q * 2 ^ j) := by omega
        _ = 2 * (q * 2 ^ (j - k)) * 2 ^ k := by rw [← all]; ring
        _ ≤ (2 * (q * 2 ^ (j - k)) + 1) * 2 ^ k := Nat.mul_le_mul_right _ (Nat.le_succ _)
    · obtain rfl : k = j := by omega
      simpa using h
  generalize (shifted m k).roundedMantissa = r at rounded
  have again : excess r (e + k) = (target r (e + k) - (e + k)).toNat := rfl
  have next : target r (e + k) = max (r.log2 + 1 + (e + k) - 53) (-1074) := rfl
  generalize excess r (e + k) = k' at again
  -- once more, no place above the last one of the bound is reached
  have longer : r.log2 < 53 + (j - k) :=
    log2_lt_of_lt_mul (rounded.trans_lt (Nat.mul_lt_mul_of_pos_right high (Nat.two_pow_pos _)))
  have whole : (shifted r k').mantissa * 2 ^ (k + k') ≤ q * 2 ^ j := by
    calc (shifted r k').mantissa * 2 ^ (k + k')
        = (shifted r k').mantissa * 2 ^ k' * 2 ^ k := by ring
      _ ≤ q * 2 ^ (j - k) * 2 ^ k :=
        Nat.mul_le_mul_right _ (Nat.le_trans (mantissa_shifted_le r k') rounded)
      _ = q * 2 ^ j := by rw [Nat.mul_assoc, all]
  have whole : ((shifted r k').mantissa : ℚ) * 2 ^ (k + k') ≤ q * 2 ^ j := by
    exact_mod_cast whole
  unfold finiteOrZero
  split
  · exact trivial
  · refine ⟨⟨rfl, by omega, ?_⟩, by omega⟩
    rw [Int.add_assoc, ← Nat.cast_add, zpow_add₀ two_ne_zero, zpow_add₀ two_ne_zero, zpow_natCast,
      zpow_natCast]
    calc ((shifted r k').mantissa : ℚ) * (2 ^ e * 2 ^ (k + k'))
        = 2 ^ e * ((shifted r k').mantissa * 2 ^ (k + k')) := by ring
      _ ≤ 2 ^ e * (q * 2 ^ j) := mul_le_mul_of_nonneg_left whole (by positivity)
      _ = q * (2 ^ e * 2 ^ j) := by ring

/-- A number that is rounded may be filled up with places first. -/
theorem fits_round (low : 2 ^ 52 ≤ q) (high : q < 2 ^ 53) (least : -1074 ≤ e + j)
    (h : 2 * m < (2 * q + 1) * 2 ^ j) :
    Fits (q * 2 ^ (e + j)) (e + j) (UnpackedFloat.round Format.binary64 .positive m e) := by
  unfold UnpackedFloat.round decreaseExponent
  dsimp only
  generalize (e - Format.binary64.targetExponent (totalExponent m e)).toNat = i
  have same : e + j = e - i + (j + i : Nat) := by omega
  rw [same, Nat.shiftLeft_eq]
  refine fits_roundWithAccuracy low high (by omega) ?_
  rw [Nat.pow_add, ← Nat.mul_assoc, ← Nat.mul_assoc]
  exact Nat.mul_lt_mul_of_pos_right h (Nat.two_pow_pos i)

/-! ## The double nearest to an integer -/

/-- A double is read off the bits it is made of. -/
theorem atMost_ofBits {v : ℚ} {field frac : Nat} (low : field < 2048) (short : frac < 2 ^ 52)
    (nonzero : field ≠ 0)
    (hv : field ≠ 2047 → ((frac + 2 ^ 52 : Nat) : ℚ) * 2 ^ ((field : ℤ) - 1075) ≤ v) :
    AtMost v (Float.ofBits (UInt64.ofNat (field * 2 ^ 52 + frac))).toModel.unpack := by
  generalize hb : UInt64.ofNat (field * 2 ^ 52 + frac) = b
  have bits : b.toBitVec.toNat = field * 2 ^ 52 + frac := by
    rw [← hb, UInt64.toNat_toBitVec, UInt64.toNat_ofNat']
    omega
  have stands := stands_unpack b.toBitVec
  have sign : @unpackSign Format.binary64 b.toBitVec = 0#1 := by
    apply BitVec.eq_of_toNat_eq
    rw [toNat_unpackSign, bits]
    simp
    omega
  have hfield : (field * 2 ^ 52 + frac) / 2 ^ 52 % 2 ^ 11 = field := by omega
  have hfrac : (field * 2 ^ 52 + frac) % 2 ^ 52 = frac := by omega
  rw [toNat_unpackExponent, toNat_unpackMantissa, sign, bits, hfield, hfrac] at stands
  exact atMost_unpack_pack (stands.atMost (fun zero => absurd zero nonzero) fun _ => hv)

/-- A significand of 53 places, or the one above them, makes a double of its value. -/
theorem atMost_ofSignificand {sig : Nat} {exp : Int} (low : 2 ^ 52 ≤ sig) (high : sig ≤ 2 ^ 53)
    (least : -1074 ≤ exp) : AtMost (sig * 2 ^ exp) (ofSignificand sig exp).toModel.unpack := by
  have hidden : Nat.pow 2 52 = 2 ^ 52 := rfl
  unfold ofSignificand
  simp only [hidden]
  rw [if_neg (by omega)]
  by_cases top : 2047 * 2 ^ 52 ≤ (exp + 1075).toNat * 2 ^ 52 + (sig - 2 ^ 52)
  · rw [Nat.min_eq_right top]
    exact @atMost_ofBits _ 2047 0 (by decide) (by decide) (by decide) (absurd rfl)
  · rw [Nat.min_eq_left (by omega)]
    by_cases whole : sig = 2 ^ 53
    · have next : (exp + 1075).toNat * 2 ^ 52 + (sig - 2 ^ 52)
          = (exp + 1076).toNat * 2 ^ 52 + 0 := by omega
      rw [next]
      refine atMost_ofBits (by omega) (by decide) (by omega) fun _ => le_of_eq ?_
      have exponent : ((exp + 1076).toNat : ℤ) - 1075 = exp + 1 := by omega
      rw [exponent, whole, zpow_add₀ two_ne_zero]
      push_cast
      ring
    · refine atMost_ofBits (by omega) (by omega) (by omega) fun _ => le_of_eq ?_
      have exponent : ((exp + 1075).toNat : ℤ) - 1075 = exp := by omega
      rw [exponent, Nat.sub_add_cancel low]

/-- The last place of the double nearest to an integer. -/
theorem lastPlace_one {n : Nat} (h : 0 < n) : lastPlace n 1 = (n.log2 : Int) - 52 := by
  have low := Nat.log2_self_le (Nat.ne_of_gt h)
  have one : Nat.log2 1 = 0 := by decide
  have pow (k : Nat) : Nat.pow 2 k = 2 ^ k := rfl
  unfold lastPlace
  simp only [one, pow]
  rw [if_pos]
  · omega
  · split
    · next long =>
      rw [Nat.one_mul, Nat.le_div_iff_mul_le (Nat.two_pow_pos _), ← Nat.pow_add]
      exact Nat.le_trans (Nat.pow_le_pow_right (by decide) (by omega)) low
    · next short =>
      rw [Nat.div_one]
      refine Nat.le_trans ?_ (Nat.mul_le_mul_right _ low)
      rw [← Nat.pow_add]
      exact Nat.pow_le_pow_right (by decide) (by omega)

theorem roundDiv_mem (num den : Nat) :
    num / den ≤ roundDiv num den ∧ roundDiv num den ≤ num / den + 1 := by
  unfold roundDiv
  dsimp only
  split <;> omega

/-- The integer is cut to 53 places. What is nearest to it is no more than the next number of so
many places. -/
theorem atMost_nearest {n : Nat} (h : 0 < n) :
    ∃ (q : Nat) (t : Int), 2 ^ 52 ≤ q ∧ q < 2 ^ 53 ∧ -52 ≤ t ∧ (q : ℚ) * 2 ^ t ≤ n
      ∧ AtMost ((q + 1) * 2 ^ t) (nearest n 1).toModel.unpack := by
  have low := Nat.log2_self_le (Nat.ne_of_gt h)
  have high := @Nat.lt_log2_self n
  have pow (k : Nat) : Nat.pow 2 k = 2 ^ k := rfl
  unfold nearest
  rw [if_neg (by simpa using Nat.ne_of_gt h), lastPlace_one h]
  simp only [pow]
  generalize n.log2 = L at low high
  -- the significand is the number that was cut, or the next one
  have next {sig q : Nat} {t : Int} (below : 2 ^ 52 ≤ q) (above : q < 2 ^ 53) (ht : -52 ≤ t)
      (hs : q ≤ sig ∧ sig ≤ q + 1) :
      AtMost ((q + 1) * 2 ^ t) (ofSignificand sig t).toModel.unpack := by
    refine (atMost_ofSignificand (by omega) (by omega) (by omega)).mono ?_
    have : (sig : ℚ) ≤ q + 1 := by exact_mod_cast hs.2
    exact mul_le_mul_of_nonneg_right this (by positivity)
  by_cases long : 0 ≤ (L : Int) - 52
  · obtain ⟨k, rfl⟩ : ∃ k, L = 52 + k := ⟨L - 52, by omega⟩
    have place : ((52 + k : Nat) : Int) - 52 = k := by omega
    rw [if_pos long, place, Int.toNat_natCast, Nat.one_mul]
    rw [Nat.pow_add] at low
    rw [Nat.add_right_comm, Nat.pow_add] at high
    have pos := Nat.two_pow_pos k
    have below : 2 ^ 52 ≤ n / 2 ^ k := (Nat.le_div_iff_mul_le pos).2 low
    have above : n / 2 ^ k < 2 ^ 53 := (Nat.div_lt_iff_lt_mul pos).2 high
    refine ⟨n / 2 ^ k, k, below, above, by omega, ?_, next below above (by omega) ?_⟩
    · rw [zpow_natCast]
      exact_mod_cast Nat.div_mul_le_self n (2 ^ k)
    · exact roundDiv_mem n (2 ^ k)
  · obtain ⟨k, hk⟩ : ∃ k, 52 = L + k := ⟨52 - L, by omega⟩
    have place : (-((L : Int) - 52)).toNat = k := by omega
    have exact : roundDiv (n * 2 ^ k) 1 = n * 2 ^ k := by
      simpa using roundDiv_mul (n * 2 ^ k) 1 Nat.one_pos
    rw [if_neg long, place]
    have below : 2 ^ 52 ≤ n * 2 ^ k := by
      rw [hk, Nat.pow_add]
      exact Nat.mul_le_mul_right _ low
    have above : n * 2 ^ k < 2 ^ 53 := by
      rw [show 53 = L + 1 + k by omega, Nat.pow_add]
      exact Nat.mul_lt_mul_of_pos_right high (Nat.two_pow_pos k)
    refine ⟨n * 2 ^ k, (L : Int) - 52, below, above, by omega, le_of_eq ?_,
      next below above (by omega) (by omega)⟩
    have exponent : (L : Int) - 52 = -(k : Int) := by omega
    rw [exponent, zpow_neg, zpow_natCast]
    push_cast
    field_simp

/-! ## Draws -/

/-- What is not below zero and below one is zero, or has at most 53 places after the point. -/
theorem Stands.of_lt_one {sign : Sign} {field frac : Nat} {u : UnpackedFloat}
    (h : Stands sign field frac u) (short : frac < 2 ^ 52)
    (low : (UnpackedFloat.zero .positive).le u = true)
    (high : u.lt (.finite .positive (2 ^ 52) (-52) (by decide)) = true) :
    u = .zero sign ∨ ∃ m e h, u = .finite .positive m e h ∧ m < 2 ^ 53 ∧ e ≤ -53 := by
  cases h with
  | infinity =>
    cases sign
    · cases low
    · cases high
  | notANumber => cases low
  | zero => exact .inl rfl
  | subnormal pos =>
    cases sign
    · cases low
    · exact .inr ⟨_, _, _, rfl, by omega, by decide⟩
  | normal pos =>
    cases sign
    · cases low
    · refine .inr ⟨_, _, _, rfl, by omega, ?_⟩
      have less := beq_iff_eq.1 high
      simp only [UnpackedFloat.compare, Option.some.injEq, Ordering.then_eq_lt] at less
      rcases less with less | ⟨-, less⟩
      · have := Int.compare_eq_lt.1 less
        omega
      · have := Nat.compare_eq_lt.1 less
        omega

/-- A draw is zero, or has at most 53 places after the point. -/
theorem unpack_of_isDraw {x : Float} (h : IsDraw x) :
    (∃ sign, x.toModel.unpack = .zero sign)
      ∨ ∃ m e h, x.toModel.unpack = .finite .positive m e h ∧ m < 2 ^ 53 ∧ e ≤ -53 := by
  have stands := stands_unpack x.toBits.toBitVec
  refine (stands.of_lt_one (BitVec.isLt _) ?_ ?_).imp_left fun zero => ⟨_, zero⟩
  · exact of_decide_eq_true h.1
  · exact of_decide_eq_true h.2

/-- A draw leaves less than half of the last place of a number that is at most `q + 1` places. -/
theorem two_mul_mul_lt {m' : Nat} {t e' : Int} (low : 2 ^ 52 ≤ q) (hm : m < 2 ^ 53) (he : e ≤ -53)
    (hv : (m' : ℚ) * 2 ^ e' ≤ (q + 1) * 2 ^ t) (hj : e + e' + j = t) :
    2 * (m * m') < (2 * q + 1) * 2 ^ j := by
  have unit : (2 : ℚ) ^ (-53 : ℤ) * 2 ^ 53 = 1 := by norm_num
  have low : (4503599627370496 : ℚ) ≤ q := by exact_mod_cast low
  have place : (2 : ℚ) ^ e ≤ 2 ^ (-53 : ℤ) := zpow_le_zpow_right₀ (by norm_num) he
  have below : (m : ℚ) ≤ 2 ^ 53 - 1 := by
    have : (m : ℚ) + 1 ≤ 2 ^ 53 := by exact_mod_cast hm
    linarith
  have draw : (m : ℚ) * 2 ^ e ≤ (2 ^ 53 - 1) * 2 ^ (-53 : ℤ) :=
    mul_le_mul below place (by positivity) (by norm_num)
  have product : (m : ℚ) * 2 ^ e * (m' * 2 ^ e')
      ≤ (2 ^ 53 - 1) * 2 ^ (-53 : ℤ) * ((q + 1) * 2 ^ t) :=
    mul_le_mul draw hv (by positivity) (by norm_num)
  have left : (2 : ℚ) * (m * m') * 2 ^ (e + e') = 2 * (m * 2 ^ e * (m' * 2 ^ e')) := by
    rw [zpow_add₀ two_ne_zero]
    ring
  have right : (2 * (q : ℚ) + 1) * 2 ^ j * 2 ^ (e + e') = (2 * q + 1) * 2 ^ t := by
    rw [← hj, zpow_add₀ two_ne_zero (e + e'), zpow_natCast]
    ring
  have scaled : (2 : ℚ) * (m * m') * 2 ^ (e + e') < (2 * q + 1) * 2 ^ j * 2 ^ (e + e') := by
    rw [left, right]
    calc 2 * ((m : ℚ) * 2 ^ e * (m' * 2 ^ e'))
        ≤ 2 * ((2 ^ 53 - 1) * 2 ^ (-53 : ℤ) * ((q + 1) * 2 ^ t)) := by linarith
      _ = (2 - 2 * 2 ^ (-53 : ℤ)) * (q + 1) * 2 ^ t := by
        rw [sub_mul, one_mul, mul_comm ((2 : ℚ) ^ 53), unit]
        ring
      _ < (2 * q + 1) * 2 ^ t := by
        refine mul_lt_mul_of_pos_right ?_ (by positivity)
        norm_num
        linarith
  have := lt_of_mul_lt_mul_right scaled (by positivity)
  exact_mod_cast this

variable {x y : Float} {t : Int}

/-- **A draw takes its share of a number.** The product is at most `q` places where the factor is at
most `q + 1`. -/
theorem atMost_mul (low : 2 ^ 52 ≤ q) (high : q < 2 ^ 53) (least : -1074 ≤ t) (hx : IsDraw x)
    (hy : AtMost ((q + 1) * 2 ^ t) y.toModel.unpack) :
    AtMost (q * 2 ^ t) (x * y).toModel.unpack := by
  apply atMost_unpack_pack
  generalize y.toModel.unpack = u at hy
  rcases unpack_of_isDraw hx with ⟨sign, hx⟩ | ⟨m, e, pos, hx, hm, he⟩
  · rw [hx]
    cases u <;> exact trivial
  · rw [hx]
    cases u with
    | infinity | zero | notANumber => exact trivial
    | finite s m' e' pos' =>
      obtain ⟨rfl, -, hv⟩ := hy
      have places : e' ≤ t + 53 := by
        have one : (1 : ℚ) ≤ m' := by exact_mod_cast pos'
        have top : (q : ℚ) + 1 ≤ 2 ^ (53 : ℤ) := by exact_mod_cast high
        have : (2 : ℚ) ^ e' ≤ 2 ^ (t + 53) :=
          calc (2 : ℚ) ^ e' ≤ m' * 2 ^ e' := le_mul_of_one_le_left (by positivity) one
            _ ≤ (q + 1) * 2 ^ t := hv
            _ ≤ 2 ^ (53 : ℤ) * 2 ^ t := mul_le_mul_of_nonneg_right top (by positivity)
            _ = 2 ^ (t + 53) := by rw [zpow_add₀ two_ne_zero, mul_comm]
        exact (zpow_le_zpow_iff_right₀ (by norm_num)).1 this
      obtain ⟨j, hj⟩ : ∃ j : ℕ, e + e' + j = t := ⟨(t - (e + e')).toNat, by omega⟩
      subst hj
      exact (fits_roundWithAccuracy low high least (two_mul_mul_lt low hm he hv rfl)).atMost

/-- **A draw leaves a finite number finite.** -/
theorem fits_mul {v : ℚ} {d : Dyadic} (hx : IsDraw x) (hy : AtMost v y.toModel.unpack)
    (finite : Dyadic.ofFloat? y = some d) :
    ∃ w t, t ≤ 971
      ∧ Fits w t (UnpackedFloat.mul Format.binary64 x.toModel.unpack y.toModel.unpack) := by
  have stands : Stands _ _ _ y.toModel.unpack := stands_unpack y.toBits.toBitVec
  have frac : _ < 2 ^ 52 := (@unpackMantissa Format.binary64 y.toBits.toBitVec).isLt
  have field : _ < 2 ^ 11 := (@unpackExponent Format.binary64 y.toBits.toBitVec).isLt
  rw [Dyadic.ofFloat?_eq_ofUnpacked?] at finite
  generalize y.toModel.unpack = u at hy stands finite
  generalize Sign.ofBitVec _ = sign at stands
  rcases unpack_of_isDraw hx with ⟨sign, hx⟩ | ⟨m, e, pos, hx, hm, he⟩
  · rw [hx]
    cases u with
    | infinity | notANumber => cases finite
    | zero | finite => exact ⟨0, 0, by decide, trivial⟩
  · rw [hx]
    cases u with
    | infinity | notANumber => cases finite
    | zero => exact ⟨0, 0, by decide, trivial⟩
    | finite s m' e' pos' =>
      obtain ⟨rfl, least, -⟩ := hy
      obtain ⟨short, top⟩ : m' < 2 ^ 53 ∧ e' ≤ 971 := by
        cases stands with
        | subnormal => omega
        | normal => omega
      obtain ⟨j, hj⟩ : ∃ j : ℕ, e + e' + j = e' := ⟨(-e).toNat, by omega⟩
      have bound : (m' : ℚ) * 2 ^ e' ≤ ((2 ^ 53 - 1 : ℕ) + 1) * 2 ^ e' := by
        refine mul_le_mul_of_nonneg_right ?_ (by positivity)
        exact_mod_cast short.le
      have product := two_mul_mul_lt (by decide) hm he bound hj
      have fits := fits_roundWithAccuracy (by decide) (by decide) (hj ▸ least) product
      rw [hj] at fits
      exact ⟨_, e', top, fits⟩

/-- A draw and a half are at most three halves. -/
theorem fits_add_half (hx : IsDraw x) :
    Fits ((3 * 2 ^ 51 : Nat) * 2 ^ (-52 : ℤ)) (-52)
      (UnpackedFloat.add Format.binary64 x.toModel.unpack (0.5 : Float).toModel.unpack) := by
  have half : (0.5 : Float).toModel.unpack = .finite .positive (2 ^ 52) (-53) (by decide) := rfl
  rw [half]
  rcases unpack_of_isDraw hx with ⟨sign, hx⟩ | ⟨m, e, pos, hx, hm, he⟩
  · rw [hx]
    refine ⟨⟨rfl, by decide, ?_⟩, by decide⟩
    norm_num
  · obtain ⟨i, rfl⟩ : ∃ i : ℕ, e = -53 - i := ⟨(-53 - e).toNat, by omega⟩
    have least : min (-53 - (i : Int)) (-53) = -53 - i := by omega
    have lost : (-53 - (-53 - (i : Int))).toNat = i := by omega
    have positive : compare ((m + 2 ^ 52 * 2 ^ i : Nat) : Int) 0 = .gt := by
      rw [Int.compare_eq_gt]
      omega
    have sum : UnpackedFloat.add Format.binary64 (.finite .positive m (-53 - i) pos)
        (.finite .positive (2 ^ 52) (-53) (by decide))
        = UnpackedFloat.round Format.binary64 .positive (m + 2 ^ 52 * 2 ^ i) (-53 - i) := by
      simp only [UnpackedFloat.add, least, decreaseExponent, lost, sub_self, Int.toNat_zero,
        Nat.shiftLeft_eq, Nat.pow_zero, Nat.mul_one, Sign.apply]
      rw [← Nat.cast_add, UnpackedFloat.normalize, positive, Int.toNat_natCast]
    have bound : 2 * (m + 2 ^ 52 * 2 ^ i) < (2 * (3 * 2 ^ 51) + 1) * 2 ^ (i + 1) := by
      have := Nat.two_pow_pos i
      rw [Nat.pow_succ]
      omega
    have exponent : -52 = -53 - (i : Int) + (i + 1 : Nat) := by omega
    rw [hx, sum, exponent]
    exact fits_round (by decide) (by decide) (by omega) bound

theorem atMost_add_half (hx : IsDraw x) :
    AtMost ((3 * 2 ^ 51 : Nat) * 2 ^ (-52 : ℤ)) (x + 0.5).toModel.unpack :=
  atMost_unpack_pack (fits_add_half hx).atMost

/-! ## Rounding to integers -/

theorem exists_toRat_of_floatToInt {round : Dyadic → Int} {v : ℚ} (hv : 0 ≤ v) {k : Int}
    (hx : AtMost v x.toModel.unpack) (h : floatToInt round x = .ok k) :
    ∃ d : Dyadic, k = round d ∧ 0 ≤ d.toRat ∧ d.toRat ≤ v := by
  unfold floatToInt at h
  split at h
  · next d hd =>
    rw [Dyadic.ofFloat?_eq_ofUnpacked?] at hd
    exact ⟨d, (Except.ok.inj h).symm, toRat_of_atMost hv hx hd⟩
  · cases h

theorem exists_floatToInt {round : Dyadic → Int} {d : Dyadic} (h : Dyadic.ofFloat? x = some d) :
    ∃ k, floatToInt round x = .ok k := ⟨round d, by rw [floatToInt, h]⟩

/-- A positive integer that has a double is not too large. -/
theorem of_intToFloat {n : Nat} (h : intToFloat n = .ok y) :
    y = nearest n 1 ∧ y.isInf = false := by
  have positive : decide ((n : Int) < 0) = false := by simp
  unfold intToFloat at h
  dsimp only at h
  split at h
  · cases h
  · next finite =>
    obtain rfl := Except.ok.inj h
    refine ⟨?_, by simpa using finite⟩
    simp [nearestSigned, positive]

/-- **A draw out of a number that is a double can be rounded.** -/
theorem exists_floatToInt_mul {n : Int} (hx : IsDraw x) (hn : 1 ≤ n) (hy : intToFloat n = .ok y)
    (round : Dyadic → Int) : ∃ k, floatToInt round (x * y) = .ok k := by
  obtain ⟨m, rfl⟩ := Int.eq_ofNat_of_zero_le (Int.le_trans Int.one_nonneg hn)
  obtain ⟨rfl, bounded⟩ := of_intToFloat hy
  obtain ⟨q, t, -, -, -, -, hm⟩ := atMost_nearest (n := m) (by omega)
  obtain ⟨d, hd⟩ : ∃ d, Dyadic.ofFloat? (nearest m 1) = some d := by
    have defined := isNaN_nearest m 1
    change (nearest m 1).toModel.unpack.isInf = false at bounded
    change (nearest m 1).toModel.unpack.isNaN = false at defined
    rw [Dyadic.ofFloat?_eq_ofUnpacked?]
    generalize (nearest m 1).toModel.unpack = u at bounded defined
    cases u with
    | infinity => cases bounded
    | notANumber => cases defined
    | zero | finite => exact ⟨_, rfl⟩
  obtain ⟨w, t', top, fits⟩ := fits_mul hx hm hd
  obtain ⟨d', hd'⟩ := fits.exists_value top
  exact exists_floatToInt ((Dyadic.ofFloat?_eq_ofUnpacked? (x * nearest m 1)).trans hd')

/-- **A draw and a half can be rounded.** -/
theorem exists_floatToInt_add_half (hx : IsDraw x) (round : Dyadic → Int) :
    ∃ k, floatToInt round (x + 0.5) = .ok k := by
  obtain ⟨d, hd⟩ := (fits_add_half hx).exists_value (by decide)
  exact exists_floatToInt ((Dyadic.ofFloat?_eq_ofUnpacked? (x + 0.5)).trans hd)

/-- **A draw out of `n` is rounded up to no more than `n`.** -/
theorem ceil_mul_le {n k : Int} (hx : IsDraw x) (hn : 1 ≤ n) (hy : intToFloat n = .ok y)
    (h : floatToInt Dyadic.ceil (x * y) = .ok k) : k ≤ n := by
  obtain ⟨m, rfl⟩ := Int.eq_ofNat_of_zero_le (Int.le_trans Int.one_nonneg hn)
  obtain ⟨rfl, -⟩ := of_intToFloat hy
  obtain ⟨q, t, low, high, least, hq, hm⟩ := atMost_nearest (n := m) (by omega)
  obtain ⟨d, rfl, -, hd⟩ := exists_toRat_of_floatToInt (by positivity)
    (atMost_mul low high (by omega) hx hm) h
  rw [Dyadic.ceil_eq, Int.ceil_le]
  exact_mod_cast hd.trans hq

/-- **A draw and a half are rounded down to zero or one.** -/
theorem floor_add_half {k : Int} (hx : IsDraw x)
    (h : floatToInt Dyadic.floor (x + 0.5) = .ok k) : 0 ≤ k ∧ k ≤ 1 := by
  obtain ⟨d, rfl, low, high⟩ := exists_toRat_of_floatToInt (by positivity) (atMost_add_half hx) h
  rw [Dyadic.floor_eq]
  refine ⟨Int.floor_nonneg.2 low, Int.lt_add_one_iff.1 (Int.floor_lt.2 (high.trans_lt ?_))⟩
  norm_num

end Double

end DiceFormula
