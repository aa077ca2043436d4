import JavaScriptCore.Runtime.JSBigInt.CompareToDouble

/-!
# Doubles and 32-bit integers

The bit patterns of doubles, as the run time compares and converts them: `==`, the conversion of an
`int32_t`, and `static_cast<int>`. A pattern is its sign, exponent and mantissa, and two patterns of
one value are equal but for the two zeros and the many NaNs.
-/

namespace JavaScriptCore.Runtime

open JSBigInt JSBigInt.DoubleBits BitVec Bool

namespace DoubleBits

/-- The pattern with these fields. -/
def ofFields (sign : Bool) (exponent mantissa : Nat) : DoubleBits :=
  .ofNat 64 (sign.toNat * 2 ^ 63 + exponent * 2 ^ 52 + mantissa)

/-- The double of an `int32_t`, which is exact. -/
def ofInt32 (i : BitVec 32) : DoubleBits :=
  let m := i.toInt.natAbs
  if m = 0 then 0
  else
    let k := m.log2
    ofFields (i.toInt < 0) (1023 + k) ((m - 2 ^ k) * 2 ^ (52 - k))

/-- The absolute value without its fraction. -/
def integralPart (y : DoubleBits) : Nat :=
  if y.rawExponent < 1075 then
    (if y.rawExponent = 0 then 0 else 2 ^ 52 + y.mantissa.toNat) / 2 ^ (1075 - y.rawExponent)
  else (2 ^ 52 + y.mantissa.toNat) * 2 ^ (y.rawExponent - 1075)

/-- `static_cast<int>(y)`. Where the value does not fit, the language leaves the result open; no
integer is equal to such a `y`. -/
def toInt32 (y : DoubleBits) : BitVec 32 :=
  .ofInt 32 (if y.msb then -y.integralPart else y.integralPart)

/-- `x == y`. -/
def equal (x y : DoubleBits) : Bool := !x.isNaN && !y.isNaN && (x = y || x.isZero && y.isZero)

/-! ## Fields -/

theorem rawExponent_eq (y : DoubleBits) : y.rawExponent = y.toNat / 2 ^ 52 % 2 ^ 11 := by
  rw [rawExponent, toNat_and, toNat_shiftRight,
    show (0x7FF : BitVec 64).toNat = 2 ^ 11 - 1 from rfl, Nat.and_two_pow_sub_one_eq_mod]

theorem toNat_mantissa (y : DoubleBits) : y.mantissa.toNat = y.toNat % 2 ^ 52 := by
  rw [mantissa, toNat_and, show (0x000FFFFFFFFFFFFF : BitVec 64).toNat = 2 ^ 52 - 1 from rfl,
    Nat.and_two_pow_sub_one_eq_mod]

variable {x y : DoubleBits}

theorem eq_of_fields (hs : x.msb = y.msb)
    (hexp : x.rawExponent = y.rawExponent) (hm : x.mantissa.toNat = y.mantissa.toNat) :
    x = y := by
  rw [rawExponent_eq, rawExponent_eq] at hexp
  rw [toNat_mantissa, toNat_mantissa] at hm
  rw [msb_eq_decide, msb_eq_decide, decide_eq_decide] at hs
  refine eq_of_toNat_eq ?_
  omega

theorem fields_ofFields {sign : Bool} {e m : Nat} (he : e < 2 ^ 11) (hm : m < 2 ^ 52) :
    (ofFields sign e m).msb = sign ∧ (ofFields sign e m).rawExponent = e ∧
      (ofFields sign e m).mantissa.toNat = m := by
  have hs : sign.toNat < 2 := by cases sign <;> decide
  have hlt : sign.toNat * 2 ^ 63 + e * 2 ^ 52 + m < 2 ^ 64 := by omega
  have hv : (ofFields sign e m).toNat = sign.toNat * 2 ^ 63 + e * 2 ^ 52 + m := by
    rw [ofFields, toNat_ofNat, Nat.mod_eq_of_lt hlt]
  refine ⟨?_, ?_, ?_⟩
  · rw [msb_eq_decide, hv]
    cases sign
    · simp only [toNat_false, decide_eq_false_iff_not]
      omega
    · simp only [toNat_true, decide_eq_true_eq]
      omega
  · rw [rawExponent_eq, hv]
    omega
  · rw [toNat_mantissa, hv]
    omega

/-! ## Values -/

/-- The absolute value of a finite double, in units of the smallest positive one. -/
def scaled (y : DoubleBits) : Nat :=
  if y.rawExponent = 0 then y.mantissa.toNat
  else (2 ^ 52 + y.mantissa.toNat) * 2 ^ (y.rawExponent - 1)

theorem magnitude_eq_scaled (y : DoubleBits) :
    JSBigInt.DoubleBits.magnitude y = (scaled y : ℚ) / 2 ^ 1074 := by
  rw [JSBigInt.DoubleBits.magnitude, scaled]
  split
  · rw [show (-1074 : ℤ) = -((1074 : ℕ) : ℤ) from rfl, zpow_neg, zpow_natCast, div_eq_mul_inv]
  rename_i hexp
  have hsp : (y.rawExponent : ℤ) - 1075 = ((y.rawExponent - 1 : ℕ) : ℤ) - ((1074 : ℕ) : ℤ) := by
    omega
  rw [hsp, zpow_sub₀ (by norm_num), zpow_natCast, zpow_natCast]
  push_cast
  rw [mul_div_assoc]

theorem scaled_inj (h : scaled x = scaled y) :
    x.rawExponent = y.rawExponent ∧ x.mantissa.toNat = y.mantissa.toNat := by
  have hx := mantissa_lt x
  have hy := mantissa_lt y
  -- the greater exponent gives the greater value
  have hlt : ∀ {x y : DoubleBits}, x.mantissa.toNat < 2 ^ 52 → x.rawExponent < y.rawExponent →
      scaled x < scaled y := by
    intro x y hx hexp
    rw [scaled, scaled, if_neg (show ¬y.rawExponent = 0 by omega)]
    have hpos : 1 ≤ 2 ^ (y.rawExponent - 1) := Nat.one_le_two_pow
    split
    · nlinarith
    · have hpow : 2 ^ (x.rawExponent - 1) * 2 ≤ 2 ^ (y.rawExponent - 1) := by
        rw [← pow_succ]
        exact Nat.pow_le_pow_right (by omega) (by omega)
      nlinarith
  obtain hexp | hexp | hexp := Nat.lt_trichotomy x.rawExponent y.rawExponent
  · exact absurd h (ne_of_lt (hlt hx hexp))
  · refine ⟨hexp, ?_⟩
    rw [scaled, scaled, hexp] at h
    split at h
    · exact h
    · have := Nat.eq_of_mul_eq_mul_right (Nat.two_pow_pos _) h
      omega
  · exact absurd h.symm (ne_of_lt (hlt hy hexp))

theorem value_finite (h : y.rawExponent ≠ 0x7FF) :
    value y = .finite (rational y) := by
  rw [value, if_neg h]
  rfl

theorem value_infinity (h : y.rawExponent = 0x7FF) (hm : y.mantissa = 0) :
    value y = .infinity y.msb := by
  rw [value, if_pos h, if_pos hm]

theorem value_eq_nan_iff (y : DoubleBits) :
    value y = .nan ↔ y.isNaN = true := by
  by_cases h : y.rawExponent = 0x7FF
  · by_cases hm : y.mantissa = 0
    · simp [value_infinity h hm, isNaN, hm]
    · simp [value, isNaN, h]
  · simp [value_finite h, isNaN, h]

theorem rawExponent_ne_of_value {q : ℚ} (h : value y = .finite q) : y.rawExponent ≠ 0x7FF := by
  intro hexp
  rw [value, if_pos hexp] at h
  split at h <;> cases h

theorem rational_of_value {q : ℚ} (h : value y = .finite q) :
    rational y = q := by
  rw [value_finite (rawExponent_ne_of_value h)] at h
  exact DoubleValue.finite.inj h

theorem isZero_iff_value (y : DoubleBits) :
    y.isZero = true ↔ value y = .finite 0 := by
  constructor
  · intro h
    have hexp : y.rawExponent ≠ 0x7FF := by
      simp only [isZero, decide_eq_true_eq] at h
      omega
    rw [value_finite hexp, (isZero_iff_rational y).mp h]
  · intro h
    exact (isZero_iff_rational y).mpr (rational_of_value h)

/-- Two finite doubles of one value other than zero are the same pattern. -/
theorem eq_of_rational_eq (h : rational x = rational y) (hz : rational x ≠ 0) : x = y := by
  have hx := magnitude_nonneg x
  have hy := magnitude_nonneg y
  have hne : magnitude x ≠ 0 := by
    rw [ne_eq, magnitude_eq_zero_iff, isZero_iff_rational]
    exact hz
  have hpos : 0 < magnitude x := lt_of_le_of_ne hx (Ne.symm hne)
  -- values of opposite sign are not equal
  have hsg : x.msb = y.msb ∧ magnitude x = magnitude y := by
    rw [rational, rational] at h
    cases hxs : x.msb <;> cases hys : y.msb <;>
      simp only [hxs, hys, if_true, if_false, false_eq_true] at h
    · exact ⟨rfl, h⟩
    · linarith
    · linarith
    · exact ⟨rfl, neg_injective h⟩
  have hs : scaled x = scaled y := by
    have hmag := hsg.2
    rw [magnitude_eq_scaled, magnitude_eq_scaled, div_left_inj' (by positivity)] at hmag
    exact_mod_cast hmag
  exact eq_of_fields hsg.1 (scaled_inj hs).1 (scaled_inj hs).2

/-- Two doubles of one value are the same pattern, unless both are zero or both are no number. -/
theorem eq_of_value_eq (h : value x = value y) (hnan : x.isNaN = false)
    (hz : x.isZero = false) : x = y := by
  by_cases hx : x.rawExponent = 0x7FF
  · have hm : x.mantissa = 0 := by simpa [isNaN, hx] using hnan
    rw [value_infinity hx hm] at h
    have hy : y.rawExponent = 0x7FF := by
      by_contra hy
      rw [value_finite hy] at h
      cases h
    have hm' : y.mantissa = 0 := by
      by_contra hm'
      rw [value, if_pos hy, if_neg hm'] at h
      cases h
    rw [value_infinity hy hm'] at h
    exact eq_of_fields (DoubleValue.infinity.inj h) (hx.trans hy.symm) (by rw [hm, hm'])
  · rw [value_finite hx] at h
    refine eq_of_rational_eq (rational_of_value h.symm).symm ?_
    rw [ne_eq, ← isZero_iff_rational, hz]
    simp

theorem equal_iff (hx : x.isNaN = false) :
    equal x y = true ↔ value x = value y := by
  simp only [equal, hx, Bool.not_false, Bool.true_and, and_eq_true, or_eq_true,
    not_eq_true', decide_eq_true_eq]
  constructor
  · rintro ⟨_, rfl | ⟨hzx, hzy⟩⟩
    · rfl
    · rw [(isZero_iff_value x).mp hzx, (isZero_iff_value y).mp hzy]
  intro h
  have hy : y.isNaN = false := by
    rw [← not_eq_true, ← value_eq_nan_iff, ← h, value_eq_nan_iff, hx]
    simp
  refine ⟨hy, ?_⟩
  cases hz : x.isZero with
  | true => exact .inr ⟨rfl, (isZero_iff_value y).mpr (h ▸ (isZero_iff_value x).mp hz)⟩
  | false => exact .inl (eq_of_value_eq h hx hz)

/-! ## Integers -/

variable (i : BitVec 32)

theorem natAbs_toInt_le : i.toInt.natAbs ≤ 2 ^ 31 := by
  have hle := le_toInt i
  have hlt := toInt_lt (x := i)
  omega

theorem value_ofInt32 :
    JSBigInt.DoubleBits.value (ofInt32 i) = .finite (i.toInt : ℚ) := by
  rw [ofInt32]
  split_ifs with hm
  · rw [Int.natAbs_eq_zero.mp hm, Int.cast_zero]
    exact (isZero_iff_value 0).mp (by decide)
  have hle := natAbs_toInt_le i
  generalize hn : i.toInt.natAbs = n at hm hle
  have hlow : 2 ^ n.log2 ≤ n := Nat.log2_self_le hm
  have hh : n < 2 ^ (n.log2 + 1) := Nat.lt_log2_self
  generalize n.log2 = k at hlow hh
  have hk : k ≤ 31 := by
    by_contra hgt
    have : 2 ^ 32 ≤ 2 ^ k := Nat.pow_le_pow_right (by omega) (by omega)
    omega
  have hsp : 2 ^ k * 2 ^ (52 - k) = 2 ^ 52 := by
    rw [← pow_add]
    congr 1
    omega
  have hman : (n - 2 ^ k) * 2 ^ (52 - k) < 2 ^ 52 := by
    rw [← hsp]
    refine Nat.mul_lt_mul_of_pos_right ?_ (Nat.two_pow_pos _)
    rw [pow_succ] at hh
    omega
  obtain ⟨hs, hexp, hf⟩ := @fields_ofFields
    (decide (i.toInt < 0)) _ _ (show 1023 + k < 2 ^ 11 by omega) hman
  have hma : JSBigInt.DoubleBits.magnitude
      (ofFields (decide (i.toInt < 0)) (1023 + k) ((n - 2 ^ k) * 2 ^ (52 - k))) = n := by
    rw [JSBigInt.DoubleBits.magnitude, hexp, hf, if_neg (by omega)]
    have hsum : 2 ^ 52 + (n - 2 ^ k) * 2 ^ (52 - k) = n * 2 ^ (52 - k) := by
      rw [← hsp, ← Nat.add_mul]
      congr 1
      omega
    rw [hsum, show ((1023 + k : ℕ) : ℤ) - 1075 = -((52 - k : ℕ) : ℤ) by omega, zpow_neg,
      zpow_natCast]
    push_cast
    rw [mul_assoc, mul_inv_cancel₀ (by positivity), mul_one]
  rw [value_finite (by rw [hexp]; omega), rational, hs, hma]
  by_cases hneg : i.toInt < 0
  · have hc : i.toInt = -(n : ℤ) := by omega
    simp [hc]
  · have hc : i.toInt = (n : ℤ) := by omega
    simp [hc]

theorem isNaN_ofInt32 : (ofInt32 i).isNaN = false := by
  rw [← not_eq_true, ← value_eq_nan_iff, value_ofInt32]
  simp

theorem integralPart_of_magnitude {n : Nat} (h : magnitude y = n) : y.integralPart = n := by
  have hs : scaled y = n * 2 ^ 1074 := by
    rw [magnitude_eq_scaled, div_eq_iff (by positivity)] at h
    exact_mod_cast h
  have hm := mantissa_lt y
  rw [scaled] at hs
  rw [integralPart]
  by_cases hz : y.rawExponent = 0
  · rw [if_pos hz] at hs
    rw [if_pos (by omega), if_pos hz, Nat.zero_div]
    by_contra hne
    have hpow : 2 ^ 52 ≤ 2 ^ 1074 := Nat.pow_le_pow_right (by omega) (by omega)
    have hmul := Nat.le_mul_of_pos_left (2 ^ 1074) (Nat.pos_of_ne_zero (Ne.symm hne))
    exact absurd (hs ▸ hm) (not_lt.mpr (hpow.trans hmul))
  · rw [if_neg hz] at hs
    rw [if_neg hz]
    split
    · rename_i hlt
      have hpow : 2 ^ 1074 = 2 ^ (1075 - y.rawExponent) * 2 ^ (y.rawExponent - 1) := by
        rw [← pow_add]
        congr 1
        omega
      rw [hpow, ← mul_assoc] at hs
      rw [Nat.eq_of_mul_eq_mul_right (Nat.two_pow_pos _) hs,
        Nat.mul_div_cancel _ (Nat.two_pow_pos _)]
    · rename_i hge
      have hpow : 2 ^ (y.rawExponent - 1) = 2 ^ (y.rawExponent - 1075) * 2 ^ 1074 := by
        rw [← pow_add]
        congr 1
        omega
      rw [hpow, ← mul_assoc] at hs
      exact Nat.eq_of_mul_eq_mul_right (Nat.two_pow_pos _) hs

theorem toInt32_of_value {i : BitVec 32} (h : value y = .finite (i.toInt : ℚ)) : toInt32 y = i := by
  have hr := rational_of_value h
  have hno := magnitude_nonneg y
  have hp : (if y.msb then -(y.integralPart : ℤ) else y.integralPart) = i.toInt := by
    rw [rational] at hr
    cases hs : y.msb
    · simp only [hs, false_eq_true, if_false] at hr ⊢
      have hge : 0 ≤ i.toInt := by
        rw [hr] at hno
        exact_mod_cast hno
      have hn : magnitude y = (i.toInt.toNat : ℚ) := by
        rw [hr]
        exact_mod_cast (Int.toNat_of_nonneg hge).symm
      rw [integralPart_of_magnitude hn, Int.toNat_of_nonneg hge]
    · simp only [hs, if_true] at hr ⊢
      have hmag : magnitude y = ((-i.toInt : ℤ) : ℚ) := by
        push_cast
        linarith
      have hge : 0 ≤ -i.toInt := by
        rw [hmag] at hno
        exact_mod_cast hno
      have hn : magnitude y = ((-i.toInt).toNat : ℚ) := by
        rw [hmag]
        exact_mod_cast (Int.toNat_of_nonneg hge).symm
      rw [integralPart_of_magnitude hn, Int.toNat_of_nonneg hge, Int.neg_neg]
  rw [toInt32, hp, ofInt_toInt]

end DoubleBits

end JavaScriptCore.Runtime
