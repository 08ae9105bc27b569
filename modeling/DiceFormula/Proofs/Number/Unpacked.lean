import DiceFormula.Proofs.Number.Defined
import Mathlib

/-!
# Doubles in parts

A double is packed into a sign, a field for its exponent and one for its fraction; `Double.Stands`
says what these stand for. The exact value that is read off the bits is that of the unpacked double
(`Dyadic.ofFloat?_eq_ofUnpacked?`), and the roundings of a `Dyadic` are those of rational numbers
(`Dyadic.floor_eq`, `Dyadic.ceil_eq`).

`Double.AtMost v` bounds an unpacked double from zero to `v`. Of infinities and the undefined double
it says nothing: they have no exact value. Packing keeps it (`Double.atMost_unpack_pack`).
`Double.Fits v t` says besides that the double is finite, and packing keeps it finite as long as the
last place fits (`Double.Fits.exists_value`).
-/

namespace DiceFormula

open Float.Model UnpackedFloat

namespace Double

/-! ## Fields -/

theorem toNat_unpackMantissa (b : BitVec 64) :
    (@unpackMantissa Format.binary64 b).toNat = b.toNat % 2 ^ 52 := by
  simp [unpackMantissa]

theorem toNat_unpackExponent (b : BitVec 64) :
    (@unpackExponent Format.binary64 b).toNat = b.toNat / 2 ^ 52 % 2 ^ 11 := by
  simp [unpackExponent, Nat.shiftRight_eq_div_pow]

theorem toNat_unpackSign (b : BitVec 64) :
    (@unpackSign Format.binary64 b).toNat = b.toNat / 2 ^ 63 := by
  simp [unpackSign, Nat.shiftRight_eq_div_pow]
  have := b.isLt
  omega

theorem toNat_one_append (v : BitVec 52) : (1#1 ++ v).toNat = v.toNat + 2 ^ 52 := by
  rw [BitVec.toNat_append, ← Nat.shiftLeft_add_eq_or_of_lt v.isLt, Nat.add_comm]
  rfl

/-- What a sign, the field of an exponent and the field of a fraction stand for. -/
inductive Stands (sign : Sign) (field frac : Nat) : UnpackedFloat → Prop
  | infinity : field = 2047 → Stands sign field frac (.infinity sign)
  | notANumber : field = 2047 → Stands sign field frac .notANumber
  | zero : field = 0 → frac = 0 → Stands sign field frac (.zero sign)
  | subnormal (h : 0 < frac) : field = 0 → Stands sign field frac (.finite sign frac (-1074) h)
  | normal (h : 0 < frac + 2 ^ 52) : field ≠ 0 → field ≠ 2047 →
      Stands sign field frac (.finite sign (frac + 2 ^ 52) (field - 1075) h)

theorem stands_unpack (b : BitVec 64) :
    Stands (Sign.ofBitVec (@unpackSign Format.binary64 b))
      (@unpackExponent Format.binary64 b).toNat (@unpackMantissa Format.binary64 b).toNat
      (UnpackedFloat.unpack Format.binary64 b) := by
  unfold UnpackedFloat.unpack
  dsimp only
  by_cases top : @unpackExponent Format.binary64 b = -1#11
  · rw [if_pos top, top]
    split
    · exact .infinity rfl
    · exact .notANumber rfl
  · rw [if_neg top]
    by_cases least : @unpackExponent Format.binary64 b = 0#11
    · rw [if_pos least, least]
      by_cases none : @unpackMantissa Format.binary64 b = 0#52
      · rw [dif_pos none, none]
        exact .zero rfl rfl
      · rw [dif_neg none]
        exact .subnormal (Nat.pos_of_ne_zero fun e => none (BitVec.eq_of_toNat_eq e)) rfl
    · rw [if_neg least]
      have finite : (@unpackExponent Format.binary64 b).toNat ≠ 2047 :=
        fun e => top (BitVec.eq_of_toNat_eq e)
      have normal : (@unpackExponent Format.binary64 b).toNat ≠ 0 :=
        fun e => least (BitVec.eq_of_toNat_eq e)
      simp only [toNat_one_append]
      exact .normal _ normal finite

theorem unpackSign_packComponents (sign : Sign) (e : BitVec 11) (m : BitVec 52) :
    unpackSign (packComponents Format.binary64 sign e m) = sign.toBitVec := by
  show (sign.toBitVec ++ e ++ m).extractLsb' 63 1 = sign.toBitVec
  rw [BitVec.extractLsb'_append_eq_of_le (by decide),
    BitVec.extractLsb'_append_eq_of_le (by decide)]
  cases sign <;> rfl

theorem stands_packComponents (sign : Sign) (e : BitVec 11) (m : BitVec 52) :
    Stands sign e.toNat m.toNat
      (UnpackedFloat.unpack Format.binary64 (packComponents Format.binary64 sign e m)) := by
  have stands := stands_unpack (packComponents Format.binary64 sign e m)
  have same : Sign.ofBitVec sign.toBitVec = sign := by cases sign <;> rfl
  rwa [unpackSign_packComponents, same, unpackExponent_packComponents,
    unpackMantissa_packComponents] at stands

end Double

/-! ## Exact values -/

namespace Dyadic

/-- The exact value of an unpacked double. -/
def ofUnpacked? : UnpackedFloat → Option Dyadic
  | .finite sign mantissa exponent _ => some ⟨sign.apply mantissa, exponent⟩
  | .zero _ => some ⟨0, -1074⟩
  | .infinity _ | .notANumber => none

/-- **The value that is read off the bits is that of the unpacked double.** -/
theorem ofFloat?_eq_ofUnpacked? (x : Float) : ofFloat? x = ofUnpacked? x.toModel.unpack := by
  have hs : x.toBits.toNat / Nat.pow 2 63 = _ :=
    (Double.toNat_unpackSign x.toBits.toBitVec).symm
  have stands := Double.stands_unpack x.toBits.toBitVec
  rw [Double.toNat_unpackExponent, Double.toNat_unpackMantissa] at stands
  have stands : Double.Stands _ (x.toBits.toNat / Nat.pow 2 52 % 2048)
    (x.toBits.toNat % Nat.pow 2 52) x.toModel.unpack := stands
  unfold ofFloat?
  dsimp only
  rw [hs]
  generalize x.toModel.unpack = u at stands
  generalize @unpackSign Format.binary64 x.toBits.toBitVec = sign at stands
  have signed (n : Int) :
      (if (sign.toNat == 1) = true then -n else n) = (Sign.ofBitVec sign).apply n := by
    rcases BitVec.eq_zero_or_eq_one sign with rfl | rfl <;> rfl
  rw [signed]
  cases stands with
  | infinity top | notANumber top => simp [top, ofUnpacked?]
  | zero least none =>
    rw [least, none]
    cases Sign.ofBitVec sign <;> rfl
  | subnormal h least => simp [least, ofUnpacked?]
  | normal h normal finite => simp [normal, finite, ofUnpacked?]

/-- The value as a rational number. -/
def toRat (d : Dyadic) : ℚ := d.sig * 2 ^ d.exp

theorem toRat_of_nonneg {d : Dyadic} (h : 0 ≤ d.exp) :
    d.toRat = (d.sig * 2 ^ d.exp.toNat : ℤ) := by
  obtain ⟨k, hk⟩ := Int.eq_ofNat_of_zero_le h
  rw [toRat, hk, Int.toNat_natCast, zpow_natCast]
  push_cast
  rfl

theorem toRat_of_neg {d : Dyadic} (h : ¬0 ≤ d.exp) :
    d.toRat = d.sig / (2 ^ (-d.exp).toNat : ℕ) := by
  obtain ⟨k, hk⟩ : ∃ k : ℕ, d.exp = -(k : ℤ) := ⟨(-d.exp).toNat, by omega⟩
  rw [toRat, hk, zpow_neg, zpow_natCast, neg_neg, Int.toNat_natCast, div_eq_mul_inv]
  push_cast
  rfl

theorem intPow_two (k : ℕ) : Int.pow 2 k = ((2 ^ k : ℕ) : ℤ) := (Int.natCast_pow 2 k).symm

theorem floor_eq (d : Dyadic) : d.floor = ⌊d.toRat⌋ := by
  unfold floor
  split
  · next h =>
    rw [toRat_of_nonneg h, Int.floor_intCast]
    rfl
  · next h =>
    rw [toRat_of_neg h, Rat.floor_intCast_div_natCast, intPow_two,
      Int.fdiv_eq_ediv_of_nonneg _ (Int.natCast_nonneg _)]

theorem ceil_eq (d : Dyadic) : d.ceil = ⌈d.toRat⌉ := by
  unfold ceil
  split
  · next h =>
    rw [toRat_of_nonneg h, Int.ceil_intCast]
    rfl
  · next h =>
    rw [toRat_of_neg h, Rat.ceil_intCast_div_natCast, intPow_two,
      Int.fdiv_eq_ediv_of_nonneg _ (Int.natCast_nonneg _)]

end Dyadic

/-! ## Bounds -/

namespace Double

/-- An unpacked double that is finite is not negative, and at most `v`. -/
def AtMost (v : ℚ) : UnpackedFloat → Prop
  | .finite sign mantissa exponent _ =>
    sign = .positive ∧ -1074 ≤ exponent ∧ (mantissa : ℚ) * 2 ^ exponent ≤ v
  | .zero _ | .infinity _ | .notANumber => True

variable {v : ℚ} {u : UnpackedFloat}

theorem AtMost.mono {w : ℚ} (h : AtMost v u) (hv : v ≤ w) : AtMost w u := by
  cases u with
  | finite => exact ⟨h.1, h.2.1, h.2.2.trans hv⟩
  | _ => trivial

theorem Stands.atMost {field frac : Nat} (h : Stands .positive field frac u)
    (low : field = 0 → (frac : ℚ) * 2 ^ (-1074 : ℤ) ≤ v)
    (high : field ≠ 0 → field ≠ 2047 →
      ((frac + 2 ^ 52 : Nat) : ℚ) * 2 ^ ((field : ℤ) - 1075) ≤ v) : AtMost v u := by
  cases h with
  | infinity | notANumber | zero => trivial
  | subnormal _ zero => exact ⟨rfl, le_rfl, low zero⟩
  | normal _ nonzero finite => exact ⟨rfl, by omega, high nonzero finite⟩

/-- **Packing does not make a double larger.** One that does not fit is lost. -/
theorem atMost_unpack_pack (h : AtMost v u) :
    AtMost v (UnpackedFloat.unpack Format.binary64
      (UnpackedFloat.pack Format.binary64 u)) := by
  match u, h with
  | .notANumber, _ => exact trivial
  | .infinity .negative, _ | .infinity .positive, _ => exact trivial
  | .zero .negative, _ | .zero .positive, _ => exact trivial
  | .finite sign m e pos, ⟨hs, low, hv⟩ => ?_
  subst hs
  have bias : (e + Format.binary64.exponentBias
      + Format.binary64.mantissaBitsWithoutImplicit).toNat = (e + 1075).toNat := by
    rw [Int.add_assoc]
    rfl
  unfold UnpackedFloat.pack
  dsimp only
  rw [bias]
  split
  · exact trivial
  · next finite =>
    have finite : (e + 1075).toNat + 1 < 2 ^ 11 := Nat.not_le.1 finite
    split
    · next normal =>
      have hm : 2 ^ 52 ≤ m ∧ m < 2 ^ 53 :=
        (Nat.log2_eq_iff (Nat.ne_of_gt pos)).1 (Nat.succ.inj normal)
      refine (stands_packComponents _ _ _).atMost ?_ ?_
      · intro zero
        have zero : (e + 1075).toNat % 2 ^ 11 = 0 := zero
        omega
      · intro _ _
        have same : m % 2 ^ 52 + 2 ^ 52 = m := by omega
        have exponent : (((e + 1075).toNat % 2 ^ 11 : Nat) : ℤ) - 1075 = e := by omega
        rwa [BitVec.toNat_ofNat, BitVec.toNat_ofNat, exponent, same]
    · refine (stands_packComponents _ _ _).atMost (fun _ => ?_) fun nonzero _ => absurd rfl nonzero
      have frac : ((m % 2 ^ 52 : Nat) : ℚ) ≤ m := Nat.cast_le.2 (Nat.mod_le _ _)
      have place : (2 : ℚ) ^ (-1074 : ℤ) ≤ 2 ^ e := zpow_le_zpow_right₀ (by norm_num) low
      rw [BitVec.toNat_ofNat]
      exact (mul_le_mul frac place (by positivity) (by positivity)).trans hv

/-- An unpacked double is finite, from zero to `v`, and its last place is at most `2 ^ t`. -/
def Fits (v : ℚ) (t : ℤ) : UnpackedFloat → Prop
  | .finite sign mantissa exponent h =>
    AtMost v (.finite sign mantissa exponent h) ∧ exponent ≤ t
  | .zero _ => True
  | .infinity _ | .notANumber => False

theorem Fits.atMost {t : ℤ} (h : Fits v t u) : AtMost v u := by
  cases u with
  | finite => exact h.1
  | _ => trivial

/-- Unless the field of the exponent is the largest one, something finite stands there. -/
theorem Stands.exists_value {sign : Sign} {field frac : Nat} (h : Stands sign field frac u)
    (finite : field ≠ 2047) : ∃ d, Dyadic.ofUnpacked? u = some d := by
  cases h with
  | infinity top | notANumber top => exact absurd top finite
  | zero | subnormal | normal => exact ⟨_, rfl⟩

/-- **What fits stays finite when it is packed.** -/
theorem Fits.exists_value {t : ℤ} (h : Fits v t u) (ht : t ≤ 971) :
    ∃ d, Dyadic.ofUnpacked? (UnpackedFloat.unpack Format.binary64
      (UnpackedFloat.pack Format.binary64 u)) = some d := by
  match u, h with
  | .zero .negative, _ | .zero .positive, _ => exact ⟨_, rfl⟩
  | .finite sign m e pos, ⟨⟨_, low, _⟩, high⟩ => ?_
  have bias : (e + Format.binary64.exponentBias
      + Format.binary64.mantissaBitsWithoutImplicit).toNat = (e + 1075).toNat := by
    rw [Int.add_assoc]
    rfl
  unfold UnpackedFloat.pack
  dsimp only
  rw [bias]
  split
  · next top =>
    have top : 2 ^ 11 ≤ (e + 1075).toNat + 1 := top
    omega
  · split
    · refine (stands_packComponents _ _ _).exists_value ?_
      intro top
      rw [BitVec.toNat_ofNat] at top
      have top : (e + 1075).toNat % 2 ^ 11 = 2047 := top
      omega
    · exact (stands_packComponents _ _ _).exists_value (by decide)

/-- The exact value of a bounded double. -/
theorem toRat_of_atMost (hv : 0 ≤ v) {d : Dyadic} (h : AtMost v u)
    (hd : Dyadic.ofUnpacked? u = some d) : 0 ≤ d.toRat ∧ d.toRat ≤ v := by
  cases u with
  | finite sign m e pos =>
    obtain ⟨rfl, -, hle⟩ := h
    obtain rfl := Option.some.inj hd
    refine ⟨mul_nonneg (Int.cast_nonneg (Int.natCast_nonneg m)) (by positivity), ?_⟩
    simpa [Dyadic.toRat, Sign.apply] using hle
  | zero =>
    obtain rfl := Option.some.inj hd
    simpa [Dyadic.toRat] using hv
  | infinity | notANumber => cases hd

end Double

end DiceFormula
