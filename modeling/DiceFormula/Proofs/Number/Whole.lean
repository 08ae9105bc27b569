import DiceFormula.Proofs.Number.Unpacked
import DiceFormula.Proofs.Roll.Settling
import Mathlib

/-!
# Whole numbers

A number that is an integer in value may be a double. Such numbers compare as the integers that they
are in value (`Number.compare?_of_whole?`), be they doubles or not: the exponents of two doubles
decide first, as the mantissa of a double is shorter than `2 ^ 52` only below the least exponent.
Nothing added, they keep their value (`Number.exists_zero_add`).
-/

namespace DiceFormula

open Float.Model UnpackedFloat

theorem compare_of_strictMono {α β : Type} [LinearOrder α] [LinearOrder β] {f : α → β}
    (h : StrictMono f) (x y : α) : compare (f x) (f y) = compare x y := by
  rw [← cmp_eq_compare, h.cmp_map_eq, cmp_eq_compare]

/-! ## Comparing doubles -/

namespace Double

/-- The mantissa and the exponent of a finite double. -/
structure Canonical (m : ℕ) (e : ℤ) : Prop where
  least : -1074 ≤ e
  high : m < 2 ^ 53
  low : -1074 < e → 2 ^ 52 ≤ m

theorem Stands.canonical {sign s : Sign} {field frac m : ℕ} {e : ℤ} {h : 0 < m}
    (stands : Stands sign field frac (.finite s m e h)) (short : frac < 2 ^ 52) :
    Canonical m e := by
  cases stands with
  | subnormal => exact ⟨by omega, by omega, by omega⟩
  | normal => exact ⟨by omega, by omega, by omega⟩

variable {m n : ℕ} {e k : ℤ}

theorem mul_lt_mul_of_canonical (hm : Canonical m e) (hn : Canonical n k) (h : e < k) :
    (m : ℚ) * 2 ^ e < n * 2 ^ k := by
  have low : (2 : ℚ) ^ 52 ≤ n := by exact_mod_cast hn.low (lt_of_le_of_lt hm.least h)
  have high : (m : ℚ) < 2 ^ 53 := by exact_mod_cast hm.high
  calc (m : ℚ) * 2 ^ e < 2 ^ 53 * 2 ^ e := mul_lt_mul_of_pos_right high (by positivity)
    _ = 2 ^ 52 * 2 ^ (e + 1) := by
      rw [zpow_add_one₀ two_ne_zero]
      ring
    _ ≤ 2 ^ 52 * 2 ^ k :=
      mul_le_mul_of_nonneg_left (zpow_le_zpow_right₀ one_le_two (by omega)) (by positivity)
    _ ≤ n * 2 ^ k := mul_le_mul_of_nonneg_right low (by positivity)

theorem compare_of_canonical (hm : Canonical m e) (hn : Canonical n k) :
    (compare e k).then (compare m n) = compare ((m : ℚ) * 2 ^ e) (n * 2 ^ k) := by
  rcases lt_trichotomy e k with h | rfl | h
  · rw [compare_lt_iff_lt.2 h, compare_lt_iff_lt.2 (mul_lt_mul_of_canonical hm hn h)]
    rfl
  · have scaled : StrictMono fun m : ℕ => (m : ℚ) * 2 ^ e := by
      intro m n h
      exact mul_lt_mul_of_pos_right (Nat.cast_lt.2 h) (by positivity)
    rw [compare_eq_iff_eq.2 rfl, compare_of_strictMono scaled m n]
    rfl
  · rw [compare_gt_iff_gt.2 h, compare_gt_iff_gt.2 (mul_lt_mul_of_canonical hn hm h)]
    rfl

/-- The exact value of a double that is finite. -/
inductive Exact : UnpackedFloat → ℚ → Prop
  | zero (s : Sign) : Exact (.zero s) 0
  | positive {m : ℕ} {e : ℤ} (h : 0 < m) :
      Canonical m e → Exact (.finite .positive m e h) (m * 2 ^ e)
  | negative {m : ℕ} {e : ℤ} (h : 0 < m) :
      Canonical m e → Exact (.finite .negative m e h) (-(m * 2 ^ e))

theorem exact_unpack {x : Float} {d : Dyadic} (h : Dyadic.ofFloat? x = some d) :
    Exact x.toModel.unpack d.toRat := by
  have stands : Stands _ _ _ x.toModel.unpack := stands_unpack x.toBits.toBitVec
  rw [Dyadic.ofFloat?_eq_ofUnpacked?] at h
  generalize x.toModel.unpack = u at h stands
  cases u with
  | infinity | notANumber => cases h
  | zero s =>
    obtain rfl := Option.some.inj h
    simpa [Dyadic.toRat] using Exact.zero s
  | finite s m e pos =>
    obtain rfl := Option.some.inj h
    have canonical := stands.canonical (BitVec.isLt _)
    cases s with
    | positive => simpa [Dyadic.toRat, Sign.apply] using Exact.positive pos canonical
    | negative => simpa [Dyadic.toRat, Sign.apply] using Exact.negative pos canonical

/-- **Doubles compare as their exact values.** -/
theorem Exact.compare_eq {u w : UnpackedFloat} {v r : ℚ} (hu : Exact u v) (hw : Exact w r) :
    u.compare w = some (compare v r) := by
  have positive {m : ℕ} (e : ℤ) (h : 0 < m) : 0 < (m : ℚ) * 2 ^ e := by positivity
  cases hu with
  | zero =>
    cases hw with
    | zero => rw [compare_eq_iff_eq.2 rfl, UnpackedFloat.compare]
    | positive h => rw [compare_lt_iff_lt.2 (positive _ h), UnpackedFloat.compare]
    | negative h =>
      rw [compare_gt_iff_gt.2 (neg_lt_zero.2 (positive _ h)), UnpackedFloat.compare]
  | positive hm canonical =>
    cases hw with
    | zero => rw [compare_gt_iff_gt.2 (positive _ hm), UnpackedFloat.compare]
    | positive _ canonical' =>
      rw [UnpackedFloat.compare, compare_of_canonical canonical canonical']
    | negative hn =>
      rw [compare_gt_iff_gt.2 ((neg_lt_zero.2 (positive _ hn)).trans (positive _ hm)),
        UnpackedFloat.compare]
  | negative hm canonical =>
    cases hw with
    | zero => rw [compare_lt_iff_lt.2 (neg_lt_zero.2 (positive _ hm)), UnpackedFloat.compare]
    | positive hn =>
      rw [compare_lt_iff_lt.2 ((neg_lt_zero.2 (positive _ hm)).trans (positive _ hn)),
        UnpackedFloat.compare]
    | negative _ canonical' =>
      have reversed : StrictAnti fun v : ℚ => -v := fun _ _ h => neg_lt_neg h
      rw [UnpackedFloat.compare, compare_of_canonical canonical canonical', ← cmp_eq_compare,
        ← cmp_eq_compare, cmp_swap, reversed.cmp_map_eq]

end Double

namespace Dyadic

theorem toRat_of_isIntegral {d : Dyadic} (h : d.isIntegral = true) : d.toRat = d.trunc := by
  by_cases sign : 0 ≤ d.exp
  · rw [toRat_of_nonneg sign, trunc, if_pos sign]
    rfl
  · have divides : ((2 ^ (-d.exp).toNat : ℕ) : ℤ) ∣ d.sig := by
      rw [isIntegral, decide_eq_false sign, Bool.false_or, beq_iff_eq, intPow_two] at h
      exact Int.dvd_of_emod_eq_zero h
    have place : ((2 ^ (-d.exp).toNat : ℕ) : ℤ) ≠ 0 := by positivity
    rw [toRat_of_neg sign, trunc, if_neg sign, intPow_two, Int.tdiv_eq_ediv_of_dvd divides,
      Int.cast_div divides (by exact_mod_cast place)]
    rfl

theorem compareInt_of_isIntegral {d : Dyadic} (h : d.isIntegral = true) (n : ℤ) :
    d.compareInt n = compare n d.trunc := by
  have exact := toRat_of_isIntegral h
  unfold compareInt
  split
  · next sign => rw [trunc, if_pos sign]
  · next sign =>
    have scaled : StrictMono fun n : ℤ => n * ((2 ^ (-d.exp).toNat : ℕ) : ℤ) := by
      intro n m h
      exact mul_lt_mul_of_pos_right h (by positivity)
    have sig : d.sig = d.trunc * ((2 ^ (-d.exp).toNat : ℕ) : ℤ) := by
      rw [toRat_of_neg sign, div_eq_iff (by positivity)] at exact
      exact_mod_cast exact
    rw [sig, intPow_two]
    exact compare_of_strictMono scaled n d.trunc

end Dyadic

namespace Number

variable {x y : Number} {n m : ℤ}

theorem compare?_float {x y : Float} {c d : Dyadic} (hx : Dyadic.ofFloat? x = some c)
    (hy : Dyadic.ofFloat? y = some d) :
    compare? (.float x) (.float y) = some (compare c.toRat d.toRat) := by
  have forward := (Double.exact_unpack hx).compare_eq (Double.exact_unpack hy)
  have backward := (Double.exact_unpack hy).compare_eq (Double.exact_unpack hx)
  have lt : x < y ↔ compare c.toRat d.toRat = .lt := by
    show decide ((x.toModel.unpack.compare y.toModel.unpack == some .lt) = true) = true ↔ _
    simp [forward]
  have eq : (x == y) = true ↔ compare c.toRat d.toRat = .eq := by
    show (x.toModel.unpack.compare y.toModel.unpack == some .eq) = true ↔ _
    simp [forward]
  have gt : y < x ↔ compare c.toRat d.toRat = .gt := by
    show decide ((y.toModel.unpack.compare x.toModel.unpack == some .lt) = true) = true ↔ _
    simp [backward, compare_lt_iff_lt, compare_gt_iff_gt]
  rw [compare?]
  split
  · next h => rw [lt.1 h]
  · next below =>
    split
    · next h => rw [eq.1 h]
    · next same =>
      cases h : compare c.toRat d.toRat with
      | lt => exact absurd (lt.2 h) below
      | eq => exact absurd (eq.2 h) same
      | gt => rw [if_pos (gt.2 h)]

/-- **Numbers that are integers in value compare as these.** -/
theorem compare?_of_whole? (hx : x.whole? = some n) (hy : y.whole? = some m) :
    compare? x y = some (compare n m) := by
  cases x with
  | int a =>
    obtain rfl := Option.some.inj hx
    cases y with
    | int b =>
      obtain rfl := Option.some.inj hy
      rfl
    | float y =>
      obtain ⟨d, hd, integral, rfl⟩ := exists_of_whole? hy
      rw [compare?, compare?.compareFloat, hd]
      exact congrArg some (Dyadic.compareInt_of_isIntegral integral a)
  | float x =>
    obtain ⟨c, hc, integral, rfl⟩ := exists_of_whole? hx
    cases y with
    | int b =>
      obtain rfl := Option.some.inj hy
      rw [compare?, compare?.compareFloat, hc]
      refine congrArg some ?_
      rw [Dyadic.compareInt_of_isIntegral integral, ← Std.OrientedOrd.eq_swap]
    | float y =>
      obtain ⟨d, hd, integral', rfl⟩ := exists_of_whole? hy
      have exact : compare c.toRat d.toRat = compare c.trunc d.trunc := by
        rw [Dyadic.toRat_of_isIntegral integral, Dyadic.toRat_of_isIntegral integral']
        exact compare_of_strictMono Int.cast_strictMono c.trunc d.trunc
      rw [compare?_float hc hd, exact]

theorem whole?_of_zero {x : Float} {s : Sign} (h : x.toModel.unpack = .zero s) :
    whole? (.float x) = some 0 := by
  have integral : Dyadic.isIntegral ⟨0, -1074⟩ = true := by
    rw [Dyadic.isIntegral, Int.zero_emod]
    rfl
  have value : Dyadic.trunc ⟨0, -1074⟩ = 0 := by
    rw [Dyadic.trunc, if_neg (by decide), Int.zero_tdiv]
  rw [whole?, Dyadic.ofFloat?_eq_ofUnpacked?, h, Dyadic.ofUnpacked?, Option.bind_some,
    if_pos integral, value]

/-- **Adding to zero keeps the value.** -/
theorem exists_zero_add (h : x.whole? = some n) :
    ∃ y, Number.add 0 x = .ok y ∧ y.whole? = some n := by
  cases x with
  | int a => exact ⟨.int (0 + a), rfl, by rw [Int.zero_add]; exact h⟩
  | float x =>
    refine ⟨.float (0.0 + x), rfl, ?_⟩
    obtain ⟨d, hd, -, -⟩ := exists_of_whole? h
    have sum : 0.0 + x = .ofModel (Float.Model.pack (UnpackedFloat.add Format.binary64
      (.zero .positive) x.toModel.unpack)) := rfl
    have finite := Double.exact_unpack hd
    generalize unpacked : x.toModel.unpack = u at sum finite
    generalize d.toRat = v at finite
    cases finite with
    | zero s =>
      rw [whole?_of_zero unpacked] at h
      rw [← h]
      refine whole?_of_zero (s := .positive) ?_
      rw [sum]
      cases s <;> rfl
    | positive | negative =>
      have same : 0.0 + x = .ofModel (Float.Model.pack x.toModel.unpack) := by
        rw [sum, unpacked]
        rfl
      rwa [same.trans (Float.ofBits_toBits x)]

/-- A number that is an integer in value. -/
structure Whole where
  number : Number
  value : ℤ
  whole : number.whole? = some value

namespace Whole

variable (a b : Whole)

theorem lt_eq : a.number.lt b.number = decide (a.value < b.value) := by
  rw [lt, compare?_of_whole? a.whole b.whole, Bool.eq_iff_iff]
  simp [compare_lt_iff_lt]

theorem eq_eq : a.number.eq b.number = decide (a.value = b.value) := by
  rw [eq, compare?_of_whole? a.whole b.whole, Bool.eq_iff_iff]
  simp

theorem eq_self : a.number.eq a.number = true := by
  rw [eq_eq]
  exact decide_eq_true rfl

theorem isUnbounded_eq : a.number.isUnbounded = false := by
  obtain ⟨number, n, whole⟩ := a
  cases number with
  | int m => rfl
  | float x =>
    obtain ⟨d, hd, -⟩ := exists_of_whole? whole
    have finite := Double.exact_unpack hd
    show (x.toModel.unpack.isInf || x.toModel.unpack.isNaN) = false
    generalize x.toModel.unpack = u at finite
    generalize d.toRat = v at finite
    cases finite <;> rfl

end Whole

end Number

end DiceFormula
