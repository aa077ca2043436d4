import Mathlib.Algebra.Order.Field.Power
import JavaScriptCore.Runtime.JSBigInt.DigitShift

/-!
# Comparing a BigInt with a double

`runtime/JSBigInt.cpp:1808-1950`. A double is its 64-bit pattern, and is read as an exact
rational; the comparisons of the language on doubles (`isnan`, `y < 0`, `!y`) are read off
the pattern. The mantissa is streamed against the digits from the top: what is left of it
is a 64-bit fraction of the digit just compared.
-/

namespace JavaScriptCore.Runtime

open Nat hiding mul_eq_zero

/-- The bit pattern of an IEEE 754 double. -/
abbrev DoubleBits := BitVec 64

namespace DoubleBits

def rawExponent (y : DoubleBits) : Nat := ((y >>> 52) &&& 0x7FF).toNat

def mantissa (y : DoubleBits) : BitVec 64 := y &&& 0x000FFFFFFFFFFFFF

/-- `std::isnan(y)`. -/
def isNaN (y : DoubleBits) : Bool := y.rawExponent = 0x7FF ∧ y.mantissa ≠ 0

/-- `!y`, true of both zeros. -/
def isZero (y : DoubleBits) : Bool := y.rawExponent = 0 ∧ y.mantissa = 0

/-- `y < 0`, false of the negative zero. -/
def isNegative (y : DoubleBits) : Bool := y.msb && !y.isZero && !y.isNaN

end DoubleBits

namespace JSBigInt

open JavaScriptCore.ProgramLogic JavaScriptCore.Numeral

variable {t : Target}

/-- The verdict when the magnitude of `x` is the greater, or the smaller, one. -/
def absoluteGreater (xSign : Bool) : ComparisonResult := if xSign then .lessThan else .greaterThan

def absoluteLess (xSign : Bool) : ComparisonResult := if xSign then .greaterThan else .lessThan

/-- `compareMantissa`, and what is left of the mantissa and its bits. -/
def nextChunk (t : Target) (mantissa : BitVec 64) (remainingMantissaBits : Int) :
    t.Digit × BitVec 64 × Int :=
  if remainingMantissaBits > 0 then
    if t.digitBits ≠ 64 then
      ((mantissa >>> (64 - t.digitBits)).setWidth _, mantissa <<< (t.digitBits &&& 63),
        remainingMantissaBits - t.digitBits)
    else (mantissa.setWidth _, 0, remainingMantissaBits - t.digitBits)
  else (0, mantissa, remainingMantissaBits)

/-- The loop over the digits below the top one; the `Nat` is `digitIndex + 1`. -/
def compareLowDigits (x : JSBigInt t) (xSign : Bool) :
    Nat → BitVec 64 → Int → Run t ComparisonResult
  | 0, mantissa, _ => pure (if mantissa ≠ 0 then absoluteLess xSign else .equal)
  | digitIndex + 1, mantissa, remainingMantissaBits => do
    let (compareMantissa, mantissa, remainingMantissaBits) :=
      nextChunk t mantissa remainingMantissaBits
    let digit ← x.digit digitIndex
    if digit > compareMantissa then return absoluteGreater xSign
    if digit < compareMantissa then return absoluteLess xSign
    compareLowDigits x xSign digitIndex mantissa remainingMantissaBits

/-- The top digit's share of the mantissa. -/
def topChunk (t : Target) (mantissa : BitVec 64) (msdTopBit : Nat) : t.Digit × BitVec 64 × Int :=
  let mantissaTopBit := 52
  if msdTopBit < mantissaTopBit then
    let remainingMantissaBits := mantissaTopBit - msdTopBit
    ((mantissa >>> remainingMantissaBits).setWidth _, mantissa <<< (64 - remainingMantissaBits),
      remainingMantissaBits)
  else ((mantissa <<< (msdTopBit - mantissaTopBit)).setWidth _, 0, 0)

/-- Lines 1897-1949: signs and bit lengths agree, so the bits decide. -/
def compareDigits (x : JSBigInt t) (xSign : Bool) (xMSD : t.Digit) (mantissa : BitVec 64)
    (msdTopBit : Nat) : Run t ComparisonResult := do
  let (compareMantissa, mantissa, remainingMantissaBits) := topChunk t mantissa msdTopBit
  if xMSD > compareMantissa then return absoluteGreater xSign
  if xMSD < compareMantissa then return absoluteLess xSign
  compareLowDigits x xSign (x.length - 1) mantissa remainingMantissaBits

/-- Lines 1865-1895: neither is zero, and the double is at least one. -/
def compareBitLengths (x : JSBigInt t) (xSign : Bool) (mantissa : BitVec 64) (exponent : Int) :
    Run t ComparisonResult := do
  let xMSD ← x.digit (x.length - 1)
  let msdLeadingZeros := clz xMSD
  let xBitLength : Int := x.length * t.digitBits - msdLeadingZeros
  let yBitLength := exponent + 1
  if xBitLength < yBitLength then return absoluteLess xSign
  if xBitLength > yBitLength then return absoluteGreater xSign
  compareDigits x xSign xMSD (mantissa ||| 0x0010000000000000) (t.digitBits - 1 - msdLeadingZeros)

def compareToDouble (x : JSBigInt t) (y : DoubleBits) : Run t ComparisonResult := do
  let rawExponent := y.rawExponent
  if rawExponent = 0x7FF then
    if y.isNaN then return .undefined
    return if y = 0x7FF0000000000000 then .lessThan else .greaterThan
  let xSign := x.sign
  let ySign := y.isNegative
  if xSign ≠ ySign then return if xSign then .lessThan else .greaterThan
  if y.isZero then return if x.isZero then .equal else .greaterThan
  if x.isZero then return .lessThan
  let exponent : Int := rawExponent - 0x3FF
  if exponent < 0 then return absoluteGreater xSign
  compareBitLengths x xSign y.mantissa exponent

/-- A number that is no BigInt: `isInt32()` or `asDouble()`. -/
inductive NumberValue where
  | int32 (value : BitVec 32)
  | double (value : DoubleBits)

/-- What a double denotes. -/
inductive DoubleValue where
  | nan
  | infinity (sign : Bool)
  | finite (value : ℚ)

/-- The absolute value of a finite double. A zero exponent field stands for the exponent of a
one, without the hidden bit. -/
def DoubleBits.magnitude (y : DoubleBits) : ℚ :=
  if y.rawExponent = 0 then (y.mantissa.toNat : ℚ) * 2 ^ (-1074 : ℤ)
  else ((2 ^ 52 + y.mantissa.toNat : ℕ) : ℚ) * 2 ^ ((y.rawExponent : ℤ) - 1075)

def DoubleBits.value (y : DoubleBits) : DoubleValue :=
  if y.rawExponent = 0x7FF then if y.mantissa = 0 then .infinity y.msb else .nan
  else .finite (if y.msb then -DoubleBits.magnitude y else DoubleBits.magnitude y)

/-- The order of an integer and a double. -/
def DoubleValue.order (n : ℤ) : DoubleValue → ComparisonResult
  | .nan => .undefined
  | .infinity sign => if sign then .greaterThan else .lessThan
  | .finite q => .of (n : ℚ) q

section Streaming

variable {exc : Exception → Prop} {s : Heap t} {sign : Bool}

open ComparisonResult

theorem of_signed_lt {m n : Nat} (h : m < n) :
    of (signed sign m) (signed sign n) = absoluteLess sign := by
  cases sign
  · exact of_lt (by simpa using h)
  · exact of_gt (by simpa using h)

theorem of_signed_gt {m n : Nat} (h : n < m) :
    of (signed sign m) (signed sign n) = absoluteGreater sign := by
  cases sign
  · exact of_gt (by simpa using h)
  · exact of_lt (by simpa using h)

theorem of_signed_add (k m n : Nat) :
    of (signed sign (k + m)) (signed sign (k + n)) = of (signed sign m) (signed sign n) := by
  rcases lt_trichotomy m n with h | rfl | h
  · rw [of_signed_lt h, of_signed_lt (by omega)]
  · rw [of_self, of_self]
  · rw [of_signed_gt h, of_signed_gt (by omega)]

/-- No bits of the mantissa stand below the ones still counted. -/
def Left (mantissa : BitVec 64) (remaining : Int) : Prop :=
  remaining ≤ 64 ∧ (remaining ≤ 0 → mantissa = 0) ∧ 2 ^ (64 - remaining.toNat) ∣ mantissa.toNat

variable {mantissa : BitVec 64}

theorem left_of_dvd {rem : Int} (hmax : rem ≤ 64)
    (h : 2 ^ (64 - rem.toNat) ∣ mantissa.toNat) : Left mantissa rem := by
  refine ⟨hmax, fun hneg => ?_, h⟩
  rw [show rem.toNat = 0 by omega] at h
  exact BitVec.eq_of_toNat_eq (eq_zero_of_dvd_of_lt h mantissa.isLt)

/-- The chunk and the rest are the quotient and the remainder of the mantissa moved up by a
digit. -/
theorem nextChunk_spec {rem : Int} (h : Left mantissa rem) :
    (nextChunk t mantissa rem).1.toNat * 2 ^ 64 +
        (nextChunk t mantissa rem).2.1.toNat = mantissa.toNat * 2 ^ t.digitBits ∧
      Left (nextChunk t mantissa rem).2.1 (nextChunk t mantissa rem).2.2 := by
  obtain ⟨hmax, hz, hdvd⟩ := h
  unfold nextChunk
  split_ifs with hpos hw <;> dsimp only
  · have h32 : t.digitBits = 32 := by rcases t.digitBits_cases with h | h <;> omega
    have hr : (mantissa <<< (t.digitBits &&& 63)).toNat = mantissa.toNat * 2 ^ 32 % 2 ^ 64 := by
      rw [h32, show 32 &&& 63 = 32 from rfl, BitVec.toNat_shiftLeft, shiftLeft_eq]
    have hd' : 2 ^ (64 - (rem - t.digitBits).toNat) ∣ mantissa.toNat * 2 ^ 32 := by
      have h := mul_dvd_mul_right hdvd (2 ^ 32)
      rw [← pow_add] at h
      exact dvd_trans (pow_dvd_pow 2 (by omega)) h
    constructor
    · rw [hr, BitVec.toNat_setWidth, toNat_shiftRight, h32]
      omega
    · refine left_of_dvd (by omega) ?_
      rw [hr]
      exact (dvd_mod_iff (pow_dvd_pow 2 (sub_le _ _))).mpr hd'
  · rw [not_not] at hw
    refine ⟨?_, left_of_dvd (by omega) (dvd_zero _)⟩
    rw [BitVec.toNat_setWidth, hw, mod_eq_of_lt mantissa.isLt,
      show (0 : BitVec 64).toNat = 0 from rfl, add_zero]
  · rw [hz (by omega)]
    refine ⟨?_, hmax, fun _ => rfl, dvd_zero _⟩
    simp

/-- The order of two numbers is that of their leading parts, or of what is below them. -/
theorem of_signed_step {P S d c low rest : Nat} (hlow : low < P) (hre : rest < S) :
    of (signed sign ((d * P + low) * S)) (signed sign ((c * S + rest) * P)) =
      if c < d then absoluteGreater sign else if d < c then absoluteLess sign
      else .of (signed sign (low * S)) (signed sign (rest * P)) := by
  have hl : (d * P + low) * S = d * (P * S) + low * S := by ring
  have hr : (c * S + rest) * P = c * (P * S) + rest * P := by ring
  have hlo : low * S < P * S := mul_lt_mul_of_pos_right hlow (by omega)
  have hres : rest * P < P * S := by
    rw [mul_comm P]
    exact mul_lt_mul_of_pos_right hre (by omega)
  rw [hl, hr]
  split_ifs with h1 h2
  · have := mul_le_mul_right (P * S) (succ_le_of_lt h1)
    rw [succ_mul] at this
    exact of_signed_gt (by omega)
  · have := mul_le_mul_right (P * S) (succ_le_of_lt h2)
    rw [succ_mul] at this
    exact of_signed_lt (by omega)
  · rw [show d = c by omega]
    exact of_signed_add _ _ _

/-- The loop compares the digits below `n` with the rest of the mantissa. -/
theorem compareLowDigits_wp (x : JSBigInt t) : ∀ {n : Nat} {mantissa : BitVec 64} {rem : Int},
    n ≤ x.length → Left mantissa rem →
    wp (compareLowDigits x sign n mantissa rem)
      (fun r _ => r = .of (signed sign (window x.digits 0 n * 2 ^ 64))
        (signed sign (mantissa.toNat * (2 ^ t.digitBits) ^ n))) exc s
  | 0, mantissa, rem, _, _ => by
    simp only [compareLowDigits, wp_pure, window_zero, zero_mul, pow_zero, mul_one]
    split_ifs with h
    · refine (of_signed_lt (pos_of_ne_zero (fun h0 => h ?_))).symm
      exact BitVec.eq_of_toNat_eq h0
    · rw [not_not] at h
      rw [h]
      exact (of_self _).symm
  | n + 1, mantissa, rem, hn, hl => by
    obtain ⟨hc, hl'⟩ := nextChunk_spec (t := t) hl
    simp only [compareLowDigits, wp_bind, wp_digit (show n < x.length by omega)]
    generalize nextChunk t mantissa rem = chunk at hc hl' ⊢
    obtain ⟨c, rest, remaining'⟩ := chunk
    have hsp : window x.digits 0 (n + 1) * 2 ^ 64 =
        (word x.digits n * (2 ^ t.digitBits) ^ n + window x.digits 0 n) * 2 ^ 64 := by
      rw [window_succ, zero_add, add_comm]
    have hm : mantissa.toNat * (2 ^ t.digitBits) ^ (n + 1) =
        (c.toNat * 2 ^ 64 + rest.toNat) * (2 ^ t.digitBits) ^ n := by
      rw [hc, pow_succ']
      ring
    rw [hsp, hm, of_signed_step (window_lt x.digits 0 n) rest.isLt]
    change wp (if c.toNat < word x.digits n then _ else if word x.digits n < c.toNat then _ else _)
      _ _ _
    split_ifs
    · exact rfl
    · exact rfl
    · exact compareLowDigits_wp x (by omega) hl'

/-- The top digit's chunk, for a mantissa with its hidden bit. -/
theorem topChunk_spec {top : Nat} (htop : top < t.digitBits) (hm : mantissa.toNat < 2 ^ 53) :
    (topChunk t mantissa top).1.toNat * 2 ^ 64 + (topChunk t mantissa top).2.1.toNat =
        mantissa.toNat * 2 ^ (top + 12) ∧
      Left (topChunk t mantissa top).2.1 (topChunk t mantissa top).2.2 := by
  unfold topChunk
  dsimp only
  split_ifs with h <;> dsimp only
  · have hr : (mantissa <<< (64 - (52 - top))).toNat =
        mantissa.toNat * 2 ^ (top + 12) % 2 ^ 64 := by
      rw [BitVec.toNat_shiftLeft, shiftLeft_eq, show 64 - (52 - top) = top + 12 by omega]
    have hsp : (2 : Nat) ^ 64 = 2 ^ (52 - top) * 2 ^ (top + 12) := by
      rw [← pow_add]
      congr 1
      omega
    have hc : mantissa.toNat * 2 ^ (top + 12) / 2 ^ 64 = mantissa.toNat / 2 ^ (52 - top) := by
      rw [hsp, Nat.mul_div_mul_right _ _ (Nat.two_pow_pos _)]
    have hsm : mantissa.toNat / 2 ^ (52 - top) < 2 ^ t.digitBits := by
      refine Nat.div_lt_of_lt_mul (lt_of_lt_of_le hm ?_)
      rw [← pow_add]
      exact Nat.pow_le_pow_right (by decide) (by omega)
    constructor
    · rw [hr, BitVec.toNat_setWidth, toNat_shiftRight, mod_eq_of_lt hsm, ← hc]
      exact div_add_mod' _ _
    · refine left_of_dvd (by omega) ?_
      rw [hr]
      refine (dvd_mod_iff (pow_dvd_pow 2 (sub_le _ _))).mpr ?_
      exact Nat.dvd_mul_left_of_dvd (pow_dvd_pow 2 (by omega)) _
  · have hw : t.digitBits = 64 := by rcases t.digitBits_cases with hw | hw <;> omega
    have hsm : mantissa.toNat * 2 ^ (top - 52) < 2 ^ 64 := by
      calc
        mantissa.toNat * 2 ^ (top - 52) < 2 ^ 53 * 2 ^ (top - 52) :=
          Nat.mul_lt_mul_of_pos_right hm (Nat.two_pow_pos _)
        _ = 2 ^ (53 + (top - 52)) := (pow_add _ _ _).symm
        _ ≤ 2 ^ 64 := Nat.pow_le_pow_right (by decide) (by omega)
    refine ⟨?_, left_of_dvd (by decide) (dvd_zero _)⟩
    rw [BitVec.toNat_setWidth, BitVec.toNat_shiftLeft, shiftLeft_eq, hw, mod_mod,
      mod_eq_of_lt hsm, show (0 : BitVec 64).toNat = 0 from rfl, add_zero, mul_assoc,
      ← pow_add, show top - 52 + 64 = top + 12 by omega]

/-- `x` against `mantissa * 2 ^ (exponent - 52)`, both scaled by `2 ^ 64`, when their bit
lengths agree. -/
theorem compareDigits_wp {x : JSBigInt t} (hx : x.length ≠ 0)
    {top : Nat} (htop : top < t.digitBits) (hm : mantissa.toNat < 2 ^ 53) :
    wp (compareDigits x sign (x.digits.getD (x.length - 1) 0) mantissa top)
      (fun r _ => r = .of (signed sign (x.magnitude * 2 ^ 64)) (signed sign
        (mantissa.toNat * 2 ^ (t.digitBits * (x.length - 1) + top + 12)))) exc s := by
  obtain ⟨hc, hl⟩ := topChunk_spec htop hm
  unfold compareDigits
  generalize topChunk t mantissa top = chunk at hc hl ⊢
  obtain ⟨c, rest, rem⟩ := chunk
  have hsp : x.magnitude * 2 ^ 64 = (word x.digits (x.length - 1) *
      (2 ^ t.digitBits) ^ (x.length - 1) + window x.digits 0 (x.length - 1)) * 2 ^ 64 := by
    rw [magnitude_eq_window, show x.length = x.length - 1 + 1 by omega, window_succ, zero_add,
      Nat.add_comm, Nat.add_sub_cancel]
  have hmo : mantissa.toNat * 2 ^ (t.digitBits * (x.length - 1) + top + 12) =
      (c.toNat * 2 ^ 64 + rest.toNat) * (2 ^ t.digitBits) ^ (x.length - 1) := by
    rw [hc, ← pow_mul, add_assoc, pow_add]
    ring
  rw [hsp, hmo, of_signed_step (window_lt x.digits 0 (x.length - 1)) rest.isLt]
  change wp (if c.toNat < word x.digits (x.length - 1) then _
    else if word x.digits (x.length - 1) < c.toNat then _ else _) _ _ _
  split_ifs
  · exact rfl
  · exact rfl
  · exact compareLowDigits_wp x (sub_le _ _) hl

end Streaming

section Results

variable {s : Heap t} {exc : Exception → Prop} {x : JSBigInt t} {y : DoubleBits}

theorem mantissa_lt (y : DoubleBits) : y.mantissa.toNat < 2 ^ 52 := by
  rw [DoubleBits.mantissa, BitVec.toNat_and,
    show (0x000FFFFFFFFFFFFF : BitVec 64).toNat = 2 ^ 52 - 1 from rfl, and_two_pow_sub_one_eq_mod]
  exact mod_lt _ (by decide)

theorem toNat_hiddenBit (y : DoubleBits) :
    (y.mantissa ||| 0x0010000000000000).toNat = 2 ^ 52 + y.mantissa.toNat := by
  have h := two_pow_add_eq_or_of_lt (mantissa_lt y) 1
  rw [BitVec.toNat_or, Nat.or_comm]
  exact h.symm

theorem magnitude_nonneg (y : DoubleBits) : 0 ≤ DoubleBits.magnitude y := by
  unfold DoubleBits.magnitude
  split_ifs <;> positivity

theorem magnitude_eq_zero_iff (y : DoubleBits) :
    DoubleBits.magnitude y = 0 ↔ y.isZero = true := by
  unfold DoubleBits.magnitude DoubleBits.isZero
  by_cases h : y.rawExponent = 0
  · simp only [h, if_true, true_and, decide_eq_true_eq]
    rw [mul_eq_zero, or_iff_left (by positivity), cast_eq_zero]
    exact ⟨fun h0 => BitVec.eq_of_toNat_eq h0, fun h0 => h0 ▸ rfl⟩
  · simp only [h, if_false, false_and, decide_false, Bool.false_eq_true, iff_false]
    positivity

theorem magnitude_lt_one (h : y.rawExponent < 0x3FF) : DoubleBits.magnitude y < 1 := by
  have hm := mantissa_lt y
  have hpow : ∀ {n : ℕ} {e : ℤ}, n < 2 ^ 53 → e ≤ -53 → (n : ℚ) * 2 ^ e < 1 := by
    intro n e hn he
    calc
      (n : ℚ) * 2 ^ e < 2 ^ (53 : ℤ) * 2 ^ e := by
        refine mul_lt_mul_of_pos_right ?_ (by positivity)
        exact_mod_cast hn
      _ = 2 ^ (53 + e) := (zpow_add₀ (by norm_num) _ _).symm
      _ ≤ 1 := zpow_le_one_of_nonpos₀ (by norm_num) (by omega)
  unfold DoubleBits.magnitude
  split_ifs
  · exact hpow (by omega) (by norm_num)
  · exact hpow (by omega) (by omega)

theorem magnitude_eq_div (h : 0x3FF ≤ y.rawExponent) :
    DoubleBits.magnitude y =
      ((2 ^ 52 + y.mantissa.toNat) * 2 ^ (y.rawExponent - 1011) : ℕ) / 2 ^ 64 := by
  rw [DoubleBits.magnitude, if_neg (by omega),
    show ((y.rawExponent : ℤ) - 1075) = ((y.rawExponent - 1011 : ℕ) : ℤ) - ((64 : ℕ) : ℤ) by omega,
    zpow_sub₀ (by norm_num), zpow_natCast, zpow_natCast]
  push_cast
  ring

theorem of_rat_eq (a n : ℤ) :
    ComparisonResult.of (a : ℚ) ((n : ℚ) / 2 ^ 64) = ComparisonResult.of (a * 2 ^ 64) n := by
  have hlt : (a : ℚ) < (n : ℚ) / 2 ^ 64 ↔ a * 2 ^ 64 < n := by
    rw [lt_div_iff₀ (by positivity)]
    exact_mod_cast Iff.rfl
  have hgt : (n : ℚ) / 2 ^ 64 < (a : ℚ) ↔ n < a * 2 ^ 64 := by
    rw [div_lt_iff₀ (by positivity)]
    exact_mod_cast Iff.rfl
  simp only [ComparisonResult.of, hlt, hgt]

theorem eq_infinity_iff (hexp : y.rawExponent = 0x7FF) (hm : y.mantissa = 0) :
    y = 0x7FF0000000000000 ↔ y.msb = false := by
  have he' : y.toNat / 2 ^ 52 % 2 ^ 11 = 0x7FF := by
    rw [← hexp, DoubleBits.rawExponent, BitVec.toNat_and, toNat_shiftRight,
      show (0x7FF : BitVec 64).toNat = 2 ^ 11 - 1 from rfl, and_two_pow_sub_one_eq_mod]
  have hm' : y.toNat % 2 ^ 52 = 0 := by
    rw [← and_two_pow_sub_one_eq_mod]
    exact congrArg BitVec.toNat hm
  rw [BitVec.toNat_eq, BitVec.msb_eq_decide, decide_eq_false_iff_not]
  change y.toNat = 0x7FF0000000000000 ↔ _
  omega

/-- The rational a finite double denotes. -/
def rational (y : DoubleBits) : ℚ :=
  if y.msb then -DoubleBits.magnitude y else DoubleBits.magnitude y

theorem isZero_iff_rational (y : DoubleBits) : y.isZero = true ↔ rational y = 0 := by
  rw [← magnitude_eq_zero_iff, rational]
  split_ifs
  · exact neg_eq_zero.symm
  · exact Iff.rfl

theorem isNegative_iff (hexp : y.rawExponent ≠ 0x7FF) : y.isNegative = true ↔ rational y < 0 := by
  have hmag := magnitude_nonneg y
  have hz := magnitude_eq_zero_iff y
  have hnan : y.isNaN = false := by simp [DoubleBits.isNaN, hexp]
  rw [DoubleBits.isNegative, rational, hnan]
  cases hmsb : y.msb
  · simpa using hmag
  · simp only [Bool.true_and, Bool.not_false, Bool.and_true, Bool.not_eq_true', if_true,
      neg_lt_zero]
    rw [← Bool.not_eq_true, ← hz]
    exact ⟨fun h => lt_of_le_of_ne hmag (Ne.symm h), fun h => ne_of_gt h⟩

theorem msb_eq_isNegative (hexp : y.rawExponent ≠ 0x7FF) (hz : y.isZero = false) :
    y.msb = y.isNegative := by
  simp [DoubleBits.isNegative, DoubleBits.isNaN, hexp, hz]

theorem of_magnitude_gt (hs : y.msb = x.sign) (h : DoubleBits.magnitude y < x.magnitude) :
    ComparisonResult.of (x.toInt : ℚ) (rational y) = absoluteGreater x.sign := by
  rw [rational, toInt, hs]
  cases x.sign
  · exact ComparisonResult.of_gt (by simpa using h)
  · exact ComparisonResult.of_lt (by simpa using h)

/-- With one sign and a double of at least one, both can be scaled to integers. -/
theorem of_scaled (hs : y.msb = x.sign) (h : 0x3FF ≤ y.rawExponent) :
    ComparisonResult.of (x.toInt : ℚ) (rational y) =
      .of (signed x.sign (x.magnitude * 2 ^ 64)) (signed x.sign
        ((2 ^ 52 + y.mantissa.toNat) * 2 ^ (y.rawExponent - 1011))) := by
  generalize hn : (2 ^ 52 + y.mantissa.toNat) * 2 ^ (y.rawExponent - 1011) = n
  have hq : rational y = ((signed x.sign n : ℤ) : ℚ) / 2 ^ 64 := by
    rw [rational, magnitude_eq_div h, hn, hs]
    cases x.sign
    · simp
    · simp [neg_div]
  have hx : x.toInt * 2 ^ 64 = signed x.sign (x.magnitude * 2 ^ 64) := by
    have hc : ((x.magnitude * 2 ^ 64 : ℕ) : ℤ) = x.magnitude * 2 ^ 64 := by
      rw [cast_mul, cast_pow, cast_ofNat]
    rw [toInt]
    cases x.sign
    · exact hc.symm
    · rw [signed_true, signed_true, hc, neg_mul]
  rw [hq, of_rat_eq, hx]

theorem compareBitLengths_wp (hx : x.Canonical) (hl : x.length ≠ 0) (h : 0x3FF ≤ y.rawExponent) :
    wp (compareBitLengths x x.sign y.mantissa ((y.rawExponent : Int) - 0x3FF))
      (fun r _ => r = .of (signed x.sign (x.magnitude * 2 ^ 64)) (signed x.sign
        ((2 ^ 52 + y.mantissa.toNat) * 2 ^ (y.rawExponent - 1011)))) exc s := by
  obtain ⟨hlow, hh⟩ := magnitude_bounds hx hl
  have hm := mantissa_lt y
  obtain ⟨-, -, hclz⟩ := toNat_shiftLeft_clz _ (hx.top_ne_zero hl)
  have hle : t.digitBits ≤ x.length * t.digitBits := Nat.le_mul_of_pos_left _ (by omega)
  unfold compareBitLengths
  rw [wp_bind, wp_digit (by omega)]
  dsimp only
  have htop : t.digitBits - 1 - clz (x.digits.getD (x.length - 1) 0) < t.digitBits := by omega
  have hhi : (y.mantissa ||| 0x0010000000000000).toNat < 2 ^ 53 := by
    rw [toNat_hiddenBit]
    omega
  have hd : wp (compareDigits x x.sign _ _ _) _ exc s := compareDigits_wp hl htop hhi
  generalize x.digits.getD (x.length - 1) 0 = top at *
  generalize hb : x.length * t.digitBits - clz top = bits at hlow hh
  have hc : (x.length : Int) * t.digitBits = ((x.length * t.digitBits : Nat) : Int) :=
    (cast_mul _ _).symm
  rw [hc]
  split_ifs with hlt hgt
  · refine (of_signed_lt ?_).symm
    calc
      x.magnitude * 2 ^ 64 < 2 ^ bits * 2 ^ 64 := mul_lt_mul_of_pos_right hh (by decide)
      _ = 2 ^ (bits + 64) := (pow_add _ _ _).symm
      _ ≤ 2 ^ (52 + (y.rawExponent - 1011)) := Nat.pow_le_pow_right (by decide) (by omega)
      _ = 2 ^ 52 * 2 ^ (y.rawExponent - 1011) := pow_add _ _ _
      _ ≤ _ := Nat.mul_le_mul_right _ (Nat.le_add_right _ _)
  · refine (of_signed_gt ?_).symm
    calc
      (2 ^ 52 + y.mantissa.toNat) * 2 ^ (y.rawExponent - 1011)
          < 2 ^ 53 * 2 ^ (y.rawExponent - 1011) :=
        Nat.mul_lt_mul_of_pos_right (by omega) (Nat.two_pow_pos _)
      _ = 2 ^ (53 + (y.rawExponent - 1011)) := (pow_add _ _ _).symm
      _ ≤ 2 ^ (bits - 1 + 64) := Nat.pow_le_pow_right (by decide) (by omega)
      _ = 2 ^ (bits - 1) * 2 ^ 64 := pow_add _ _ _
      _ ≤ x.magnitude * 2 ^ 64 := mul_le_mul_right _ hlow
  · have hexp : t.digitBits * (x.length - 1) + (t.digitBits - 1 - clz top) + 12 =
        y.rawExponent - 1011 := by
      rw [Nat.mul_sub_one, Nat.mul_comm]
      omega
    rw [toNat_hiddenBit, hexp] at hd
    exact hd

theorem compareToDouble_finite_wp (hx : x.Canonical) (hexp : y.rawExponent ≠ 0x7FF) :
    wp (compareToDouble x y) (fun r _ => r = .of (x.toInt : ℚ) (rational y)) exc s := by
  unfold compareToDouble
  rw [if_neg hexp]
  have hneg := isNegative_iff hexp
  have hz := isZero_iff_rational y
  by_cases hs : x.sign = y.isNegative
  · rw [if_neg (not_not.mpr hs)]
    cases hyz : y.isZero
    · have hmsb := (msb_eq_isNegative hexp hyz).trans hs.symm
      simp only [Bool.false_eq_true, if_false]
      by_cases hxz : x.length = 0
      · rw [if_pos ((isZero_iff x).mpr hxz), wp_pure, hx.toInt_eq_zero_iff.mpr hxz]
        have hpos : ¬ rational y < 0 := by
          rw [← hneg, ← hs, hx.zero_positive hxz]
          decide
        have hne : rational y ≠ 0 := by
          rw [ne_eq, ← hz, hyz]
          decide
        exact (ComparisonResult.of_lt (lt_of_le_of_ne (not_lt.mp hpos) (Ne.symm hne))).symm
      · rw [if_neg (fun h => hxz ((isZero_iff x).mp h))]
        by_cases hsm : y.rawExponent < 0x3FF
        · rw [if_pos (by omega), wp_pure]
          have hone : (1 : ℚ) ≤ x.magnitude := by
            exact_mod_cast pos_of_ne_zero (fun h => hxz (hx.magnitude_eq_zero_iff.mp h))
          exact (of_magnitude_gt hmsb (lt_of_lt_of_le (magnitude_lt_one hsm) hone)).symm
        · rw [if_neg (by omega), of_scaled hmsb (by omega)]
          exact compareBitLengths_wp hx hxz (by omega)
    · have hq := hz.mp hyz
      have hxs : x.sign = false := by
        rw [hs, ← Bool.not_eq_true, hneg, hq]
        exact lt_irrefl _
      have hn := toInt_nonneg hxs
      simp only [if_true, hq, wp_pure]
      by_cases hxz : x.length = 0
      · rw [if_pos ((isZero_iff x).mpr hxz), hx.toInt_eq_zero_iff.mpr hxz]
        exact (ComparisonResult.of_self _).symm
      · rw [if_neg (fun h => hxz ((isZero_iff x).mp h))]
        refine (ComparisonResult.of_gt ?_).symm
        exact_mod_cast lt_of_le_of_ne hn (fun h => hxz (hx.toInt_eq_zero_iff.mp h.symm))
  · rw [if_pos hs, wp_pure]
    cases hxs : x.sign
    · have hy : rational y < 0 := by
        rw [← hneg, ← Bool.not_eq_false]
        exact fun h => hs (hxs.trans h.symm)
      have hn : (0 : ℚ) ≤ x.toInt := by exact_mod_cast toInt_nonneg hxs
      exact (ComparisonResult.of_gt (lt_of_lt_of_le hy hn)).symm
    · have hy : ¬ rational y < 0 := by
        rw [← hneg]
        exact fun h => hs (hxs.trans h.symm)
      have hlt : (x.toInt : ℚ) < 0 := by exact_mod_cast hx.toInt_lt_zero hxs
      exact (ComparisonResult.of_lt (lt_of_lt_of_le hlt (not_lt.mp hy))).symm

theorem compareToDouble_wp (hx : x.Canonical) :
    wp (compareToDouble x y)
      (fun r _ => r = DoubleValue.order x.toInt (DoubleBits.value y)) exc s := by
  by_cases hexp : y.rawExponent = 0x7FF
  · unfold compareToDouble DoubleBits.value
    simp only [hexp, if_true, DoubleBits.isNaN, true_and, decide_eq_true_eq]
    by_cases hm : y.mantissa = 0
    · simp only [hm, ne_eq, not_true_eq_false, if_false, if_true, eq_infinity_iff hexp hm]
      cases y.msb
      · exact rfl
      · exact rfl
    · simp only [hm, ne_eq, not_false_eq_true, if_true]
      exact rfl
  · have hv : DoubleBits.value y = .finite (rational y) := if_neg hexp
    rw [hv]
    exact compareToDouble_finite_wp hx hexp

theorem DoubleValue.order_eq_undefined_iff (n : ℤ) (v : DoubleValue) :
    v.order n = .undefined ↔ v = .nan := by
  cases v with
  | nan => simp [order]
  | infinity sign => cases sign <;> simp [order]
  | finite q =>
    rcases ComparisonResult.of_cases (n : ℚ) q with ⟨-, hr⟩ | ⟨-, hr⟩ | ⟨-, hr⟩ <;> simp [order, hr]

/-- The comparison is the exact order of the integer and the double's value, and is undefined
for the NaNs alone. -/
theorem compareToDouble_exact (hx : x.Canonical) (y : DoubleBits) (heap : Heap t) :
    wp (compareToDouble x y) (fun r _ => (r = .undefined ↔ DoubleBits.value y = .nan) ∧
        r = DoubleValue.order x.toInt (DoubleBits.value y)) (fun _ => False) heap := by
  refine wp_post (compareToDouble_wp hx) ?_
  rintro r _ rfl
  exact ⟨DoubleValue.order_eq_undefined_iff _ _, rfl⟩

theorem compareToDouble_exact_at :
    wp (compareToDouble (t := ⟨false, false, false⟩) ⟨false, [1, 0x200000]⟩ 0x4340000000000000)
      (fun r _ => r = .greaterThan) (fun _ => False) ⟨0, fun _ _ => 0⟩ := by
  have hcanonical : Canonical (t := ⟨false, false, false⟩) ⟨false, [1, 0x200000]⟩ :=
    ⟨fun _ => rfl, fun _ => by decide⟩
  have hvalue : DoubleBits.value 0x4340000000000000 = .finite (2 ^ 53) := by
    have hmsb : (0x4340000000000000 : BitVec 64).msb = false := by decide
    have hexp : DoubleBits.rawExponent 0x4340000000000000 = 1076 := by decide
    have hm : (DoubleBits.mantissa 0x4340000000000000).toNat = 0 := by decide
    rw [DoubleBits.value, DoubleBits.magnitude, hexp, hmsb, hm]
    norm_num
  refine wp_post (compareToDouble_exact hcanonical 0x4340000000000000 ⟨0, fun _ _ => 0⟩) ?_
  rintro r _ ⟨-, rfl⟩
  rw [hvalue]
  have hx : toInt (t := ⟨false, false, false⟩) ⟨false, [1, 0x200000]⟩ = 2 ^ 53 + 1 := by decide
  refine ComparisonResult.of_gt ?_
  rw [hx]
  norm_num

end Results

end JSBigInt

end JavaScriptCore.Runtime
