import DiceFormula.Proofs.Fallible
import DiceFormula.Term.Make

/-!
# Numbers that are defined

The undefined double is the only number that a number term refuses. A numeral never writes it, be it
ever so long: rounding a ratio gives a finite double or an infinity (`isNaN_nearest`). And the text
of a number is never empty (`Number.formulaText_ne_empty`), so that no number gets lost when terms
are written one after the other.
-/

namespace DiceFormula

open Float.Model

/-! ## Packed doubles -/

/-- A double is defined unless its exponent is the largest one and something stands after the
point. -/
theorem isNaN_unpack {b : BitVec Format.binary64.numBits}
    (h : UnpackedFloat.unpackExponent b ≠ (-1#11)
      ∨ @UnpackedFloat.unpackMantissa Format.binary64 b = 0#52) :
    (UnpackedFloat.unpack Format.binary64 b).isNaN = false := by
  unfold UnpackedFloat.unpack
  dsimp only
  by_cases he : UnpackedFloat.unpackExponent b = (-1#11)
  · have hm := h.resolve_left fun hne => hne he
    rw [if_pos he, if_pos hm]
    rfl
  · rw [if_neg he]
    by_cases hz : UnpackedFloat.unpackExponent b = 0#11
    · rw [if_pos hz]
      by_cases hm : @UnpackedFloat.unpackMantissa Format.binary64 b = 0#52
      · rw [dif_pos hm]
        rfl
      · rw [dif_neg hm]
        rfl
    · rw [if_neg hz]
      rfl

/-- A double made of its parts is defined for the same reason. -/
theorem isNaN_unpack_packComponents {s : UnpackedFloat.Sign} {e : BitVec 11} {m : BitVec 52}
    (h : e ≠ (-1#11) ∨ m = 0) :
    (UnpackedFloat.unpack Format.binary64
      (UnpackedFloat.packComponents Format.binary64 s e m)).isNaN = false := by
  refine isNaN_unpack ?_
  rw [UnpackedFloat.unpackExponent_packComponents, UnpackedFloat.unpackMantissa_packComponents]
  exact h

theorem isNaN_unpack_pack {f : UnpackedFloat} (h : f.isNaN = false) :
    (UnpackedFloat.unpack Format.binary64 (UnpackedFloat.pack Format.binary64 f)).isNaN
      = false := by
  fun_cases UnpackedFloat.pack Format.binary64 f with
  | case1 => cases h
  | case2 | case3 | case4 => exact isNaN_unpack_packComponents (.inr rfl)
  | case5 s m e hm bits biased hbiased _ =>
    refine isNaN_unpack_packComponents (.inl ?_)
    intro he
    have := congrArg BitVec.toNat he
    simp only [BitVec.toNat_ofNat, BitVec.reduceNeg] at this
    simp only [Nat.not_le] at hbiased
    omega
  | case6 => exact isNaN_unpack_packComponents (.inl (by decide))

/-- Up to the bits of the infinity all doubles are defined. -/
theorem isNaN_ofBits {b : UInt64} (h : b.toNat ≤ 2047 * Nat.pow 2 52) :
    (Float.ofBits b).isNaN = false := by
  have h : b.toNat ≤ 9218868437227405312 := h
  refine isNaN_unpack_pack (isNaN_unpack ?_)
  by_cases he : @UnpackedFloat.unpackExponent Format.binary64 b.toBitVec = (-1#11)
  · refine .inr (BitVec.eq_of_toNat_eq ?_)
    have he := congrArg BitVec.toNat he
    simp [UnpackedFloat.unpackMantissa, UnpackedFloat.unpackExponent] at he ⊢
    omega
  · exact .inl he

/-! ## Numerals -/

theorem isNaN_ofSignificand (sig : Nat) (exp : Int) : (ofSignificand sig exp).isNaN = false := by
  refine isNaN_ofBits ?_
  rw [UInt64.toNat_ofNat']
  exact Nat.le_trans (Nat.mod_le _ _) (Nat.min_le_right _ _)

theorem isNaN_nearest (num den : Nat) : (nearest num den).isNaN = false := by
  unfold nearest
  by_cases h : (num == 0) = true
  · rw [if_pos h]
    decide
  · rw [if_neg h]
    exact isNaN_ofSignificand _ _

theorem isNaN_decimalToFloat (coeff : Nat) (exp : Int) :
    (decimalToFloat coeff exp).isNaN = false := by
  unfold decimalToFloat
  dsimp only
  split
  · decide
  · split
    · decide
    · split <;> exact isNaN_nearest _ _

theorem isNaN_of_readDecimal? {cs : List Char} {x : Float} (h : readDecimal? cs = some x) :
    x.isNaN = false := by
  have read {b : Bool} {e? : Option Int} {coeff places : Nat}
      (h : (if b then none else e?.map fun e => decimalToFloat coeff (e - places)) = some x) :
      x.isNaN = false := by
    by_cases hb : b = true
    · rw [if_pos hb] at h
      cases h
    · rw [if_neg hb] at h
      obtain ⟨e, -, rfl⟩ := Option.map_eq_some_iff.1 h
      exact isNaN_decimalToFloat _ _
  unfold readDecimal? at h
  dsimp only at h
  split at h <;> exact read h

namespace Number

/-- The number is not the undefined double. -/
def IsDefined : Number → Prop
  | .int _ => True
  | .float x => x.isNaN = false

theorem isDefined_numeralValue (cs : List Char) :
    (Arithmetic.Token.numeralValue cs).IsDefined := by
  unfold Arithmetic.Token.numeralValue
  by_cases hd : cs.all Char.isDigit = true
  · rw [if_pos hd]
    trivial
  · rw [if_neg hd]
    cases h : readDecimal? cs with
    | none => exact (by decide : (0.0 : Float).isNaN = false)
    | some x => exact isNaN_of_readDecimal? h

end Number

/-- A defined number is kept. -/
theorem definedNumber_num {n : Number} (h : n.IsDefined) : definedNumber (.num n) = .ok n := by
  cases n with
  | int n => rfl
  | float x =>
    have hx : x.isNaN = false := h
    show (if x.isNaN = true then _ else _) = _
    rw [hx]
    rfl

/-- No other number is let through. -/
theorem isDefined_of_definedNumber {v : Value} {n : Number} (h : definedNumber v = .ok n) :
    n.IsDefined := by
  obtain ⟨m, -, h⟩ := bind_eq_ok.1 h
  cases m with
  | int m =>
    obtain rfl := Except.ok.inj h
    trivial
  | float x =>
    have h : (if x.isNaN = true then Except.error _ else Except.ok (Number.float x)) = .ok n := h
    by_cases hx : x.isNaN = true
    · rw [if_pos hx] at h
      cases h
    · rw [if_neg hx] at h
      obtain rfl := Except.ok.inj h
      show x.isNaN = false
      simpa using hx

/-! ## Texts of numbers -/

namespace Decimal

variable {i : Interval} {sig : Nat} {exp : Int}

/-- Whatever rounds to a positive double is positive itself. -/
theorem Interval.pos_of_contains {n : Nat} (h : i.contains n = true) (low : 0 < i.low) : 0 < n := by
  unfold Interval.contains at h
  split at h <;> simp at h <;> omega

/-- What is picked rounds to the double. -/
theorem Interval.contains_of_pick {unit c : Nat} (h : i.pick unit = some c) :
    i.contains (c * unit) = true := by
  unfold Interval.pick at h
  dsimp only at h
  split at h
  · next below above =>
    split at h <;> obtain rfl := Option.some.inj h
    · exact below
    · exact above
  · next below _ =>
    obtain rfl := Option.some.inj h
    exact below
  · next above =>
    obtain rfl := Option.some.inj h
    exact above
  · cases h

theorem Interval.pos_of_pick {unit c : Nat} (h : i.pick unit = some c) (low : 0 < i.low) :
    0 < c :=
  Nat.pos_of_mul_pos_right (Interval.pos_of_contains (Interval.contains_of_pick h) low)

theorem coeff_search_pos (low : 0 < i.low) (value : 0 < i.value) (length fuel : Nat) :
    ∀ count, 0 < (search i length count fuel).coeff := by
  induction fuel with
  | zero =>
    intro count
    exact value
  | succ fuel ih =>
    intro count
    unfold search
    dsimp only
    split
    · next c h => exact Interval.pos_of_pick h low
    · exact ih _

theorem coeff_shortest_pos (h : 0 < sig) : 0 < (shortest sig exp).coeff := by
  have scale :
      0 < if 0 ≤ exp - 2 then Nat.pow 2 (exp - 2).toNat else Nat.pow 5 (2 - exp).toNat := by
    split <;> exact Nat.pow_pos (by decide)
  refine coeff_search_pos ?_ ?_ _ _ _
  · refine Nat.mul_pos ?_ scale
    split <;> omega
  · exact Nat.mul_pos (by omega) scale

theorem stripZeros_ne_nil {ds : List Char} (h : ∃ c ∈ ds, c ≠ '0') : stripZeros ds ≠ [] := by
  obtain ⟨c, hc, hne⟩ := h
  intro he
  have dropped : ds.reverse.dropWhile (· == '0') = [] := by simpa [stripZeros] using he
  have taken : ds.reverse.takeWhile (· == '0') = ds.reverse := by
    have := List.takeWhile_append_dropWhile (p := (· == '0')) (l := ds.reverse)
    rwa [dropped, List.append_nil] at this
  have zeros := List.all_takeWhile (p := (· == '0')) (l := ds.reverse)
  rw [taken, List.all_eq_true] at zeros
  exact hne (by simpa using zeros c (List.mem_reverse.2 hc))

/-- Not all digits of a positive number are zeros. -/
theorem exists_digit_ne_zero {n : Nat} (h : 0 < n) : ∃ c ∈ Nat.toDigits 10 n, c ≠ '0' := by
  apply Classical.byContradiction
  intro none
  have zeros : Nat.toDigits 10 n = List.replicate (Nat.toDigits 10 n).length '0' := by
    refine List.eq_replicate_iff.2 ⟨rfl, ?_⟩
    intro c hc
    by_cases hz : c = '0'
    · exact hz
    · exact absurd ⟨c, hc, hz⟩ none
  have value (k : Nat) : Nat.ofDigitChars 10 (List.replicate k '0') 0 = 0 := by
    induction k with
    | zero => rfl
    | succ k ih => simpa [Nat.ofDigitChars, List.replicate_succ] using ih
  have : n = 0 := by
    rw [← Nat.ofDigitChars_ten_toDigits (n := n), zeros, value]
  omega

theorem layout_ne_nil {d : Decimal} (h : 0 < d.coeff) : d.layout ≠ [] := by
  have digits := stripZeros_ne_nil (exists_digit_ne_zero h)
  unfold layout
  dsimp only
  split
  · split
    · next e => exact absurd e digits
    · simp
    · simp
  · split
    · simp
    · split <;> simp

end Decimal

theorem floatText_ne_empty (x : Float) : floatText x ≠ "" := by
  unfold floatText
  split
  · split
    · decide
    · split <;> decide
  · dsimp only
    split
    · simp
    · next d _ hsig =>
      have hpos : 0 < d.sig.natAbs := Int.natAbs_pos.2 (by simpa using hsig)
      simp [Decimal.layout_ne_nil (Decimal.coeff_shortest_pos hpos)]

theorem toString_int_ne_empty (n : Int) : toString n ≠ "" := by
  rw [Int.toString_eq_repr, Int.repr_eq_if]
  by_cases hn : 0 ≤ n
  · rw [if_pos hn]
    intro h
    exact Nat.toDigits_ne_nil (Nat.toList_repr.symm.trans (congrArg String.toList h))
  · rw [if_neg hn]
    intro h
    have := congrArg String.length h
    simp at this

/-- Every number says something in a formula. -/
theorem Number.formulaText_ne_empty (n : Number) : n.formulaText ≠ "" := by
  cases n with
  | int n => exact toString_int_ne_empty n
  | float x =>
    unfold Number.formulaText
    dsimp only
    split
    · next d _ =>
      by_cases hd : d.isIntegral = true
      · rw [if_pos hd]
        exact toString_int_ne_empty _
      · rw [if_neg hd]
        exact floatText_ne_empty _
    · exact floatText_ne_empty _

end DiceFormula
