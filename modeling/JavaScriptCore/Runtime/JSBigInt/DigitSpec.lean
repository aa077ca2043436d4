import JavaScriptCore.Runtime.JSBigInt.Digit
import JavaScriptCore.Numeral.QuotientEstimate

/-!
# What the digit helpers compute

Every helper is related to unbounded arithmetic by the equation its caller needs:
the returned digit together with the carried-out digit is the exact sum,
difference, product or quotient. The portable paths are shown equal in meaning to
the double-width ones, so nothing below depends on the build.
-/

namespace JavaScriptCore.Runtime.JSBigInt

open Nat hiding pow_succ'

open BitVec hiding two_mul shiftLeft_eq

section Carries

variable {w : Nat}

theorem digitAdd_spec (a b c : BitVec w) (hc : c.toNat + 1 < 2 ^ w) :
    (digitAdd a b c).1.toNat + (digitAdd a b c).2.toNat * 2 ^ w =
        a.toNat + b.toNat + c.toNat * 2 ^ w ∧
      (digitAdd a b c).2.toNat ≤ c.toNat + 1 := by
  have h1 : (1 : BitVec w).toNat = 1 := mod_eq_of_lt (show 1 < 2 ^ w by omega)
  by_cases h : a.toNat + b.toNat < 2 ^ w
  · have hs : ¬ a + b < a := by rw [lt_def, toNat_add_of_lt h]; omega
    simp [digitAdd, hs, mod_eq_of_lt h]
  · have hs : (a + b).toNat = a.toNat + b.toNat - 2 ^ w := by
      rw [toNat_add, mod_eq_sub_mod (by omega), mod_eq_of_lt (by omega)]
    have hlt : a + b < a := by rw [lt_def, hs]; omega
    simp only [digitAdd, if_pos hlt, hs, toNat_add_of_lt (h1 ▸ hc), h1, Nat.add_mul]
    omega

theorem digitSub_spec (a b c : BitVec w) (hc : c.toNat + 1 < 2 ^ w) :
    (digitSub a b c).1.toNat + b.toNat + c.toNat * 2 ^ w =
        a.toNat + (digitSub a b c).2.toNat * 2 ^ w ∧
      (digitSub a b c).2.toNat ≤ c.toNat + 1 := by
  have h1 : (1 : BitVec w).toNat = 1 := mod_eq_of_lt (show 1 < 2 ^ w by omega)
  by_cases h : b.toNat ≤ a.toNat
  · have hs := toNat_sub_of_le (le_def.mpr h)
    have hle : ¬ a - b > a := by rw [gt_iff_lt, lt_def, hs]; omega
    simp only [digitSub, if_neg hle, hs, ofNat_eq_ofNat, BitVec.add_zero]
    omega
  · have hs : (a - b).toNat = 2 ^ w - b.toNat + a.toNat := mod_eq_of_lt (by omega)
    have hlt : a - b > a := by rw [gt_iff_lt, lt_def, hs]; omega
    simp only [digitSub, if_pos hlt, hs, toNat_add_of_lt (h1 ▸ hc), h1, Nat.add_mul]
    omega

end Carries

section Products

variable {w : Nat}

theorem mul_toNat_lt (a b : BitVec w) : a.toNat * b.toNat < 2 ^ w * 2 ^ w :=
  Nat.mul_lt_mul'' a.isLt b.isLt

theorem digitMulTwoDigit_spec (a b : BitVec w) :
    (digitMulTwoDigit a b).1.toNat + (digitMulTwoDigit a b).2.toNat * 2 ^ w =
      a.toNat * b.toNat := by
  have hlt := mul_toNat_lt a b
  have hle : w ≤ 2 * w := by omega
  have hm : (a.setWidth (2 * w) * b.setWidth (2 * w)).toNat = a.toNat * b.toNat := by
    rw [toNat_mul_of_lt, toNat_setWidth_of_le hle, toNat_setWidth_of_le hle]
    rwa [toNat_setWidth_of_le hle, toNat_setWidth_of_le hle, two_mul, pow_add]
  simp only [digitMulTwoDigit, toNat_setWidth, toNat_ushiftRight, hm,
    shiftRight_eq_div_pow, mod_eq_of_lt (Nat.div_lt_of_lt_mul hlt)]
  exact mod_add_div' _ _

variable {h : Nat} (hw : w = 2 * h)

include hw

theorem halfDigitBits_eq : halfDigitBits w = h := by unfold halfDigitBits; omega

theorem toNat_halfDigitBase (hp : 0 < h) : (halfDigitBase w).toNat = 2 ^ h := by
  have hlt : (2 : Nat) ^ h < 2 ^ w := Nat.pow_lt_pow_right (by decide) (by omega)
  have h1 : 1 < 2 ^ w := Nat.one_lt_two_pow (by omega)
  rw [halfDigitBase, halfDigitBits_eq hw, toNat_shiftLeft, shiftLeft_eq]
  simp [mod_eq_of_lt h1, mod_eq_of_lt hlt]

theorem toNat_and_halfDigitMask (hp : 0 < h) (a : BitVec w) :
    (a &&& halfDigitMask w).toNat = a.toNat % 2 ^ h := by
  have hb := toNat_halfDigitBase hw hp
  have h1 : (1 : BitVec w).toNat = 1 := BitVec.toNat_one (by omega)
  have hle : (1 : BitVec w) ≤ halfDigitBase w := by
    rw [le_def, h1, hb]
    exact Nat.two_pow_pos h
  have hm : (halfDigitMask w).toNat = 2 ^ h - 1 := by
    rw [← h1, ← hb]
    exact toNat_sub_of_le hle
  rw [toNat_and, hm, and_two_pow_sub_one_eq_mod]

theorem toNat_shiftRight_half (a : BitVec w) :
    (a >>> halfDigitBits w).toNat = a.toNat / 2 ^ h := by
  rw [halfDigitBits_eq hw, toNat_ushiftRight, shiftRight_eq_div_pow]

theorem two_pow_half : 2 ^ w = 2 ^ h * 2 ^ h := by
  rw [hw, two_mul, pow_add]

omit hw

theorem four_le_two_pow (hh : 2 ≤ h) : 4 ≤ 2 ^ h := Nat.pow_le_pow_right (n := 2) (by decide) hh

variable (hw : w = 2 * h)

include hw

/-- The halves of a digit are less than half a digit's base. -/
theorem toNat_and_halfDigitMask_lt (hp : 0 < h) (a : BitVec w) :
    (a &&& halfDigitMask w).toNat < 2 ^ h := by
  rw [toNat_and_halfDigitMask hw hp]
  exact mod_lt _ (Nat.two_pow_pos h)

theorem toNat_shiftRight_half_lt (a : BitVec w) :
    (a >>> halfDigitBits w).toNat < 2 ^ h := by
  rw [toNat_shiftRight_half hw]
  exact Nat.div_lt_of_lt_mul (two_pow_half hw ▸ a.isLt)

/-- Shifting a digit up by half a digit keeps its low half. -/
theorem toNat_shiftLeft_half (a : BitVec w) :
    (a <<< halfDigitBits w).toNat = a.toNat % 2 ^ h * 2 ^ h := by
  rw [halfDigitBits_eq hw, toNat_shiftLeft, shiftLeft_eq, two_pow_half hw]
  exact mul_mod_mul_right _ _ _

/-- A product of half digits does not wrap. -/
theorem toNat_mul_half {x y : BitVec w} (hx : x.toNat < 2 ^ h)
    (hy : y.toNat < 2 ^ h) : (x * y).toNat = x.toNat * y.toNat :=
  toNat_mul_of_lt (two_pow_half hw ▸ Nat.mul_lt_mul'' hx hy)

omit hw

/-- The four partial products, split where the columns carry. -/
private theorem columns (H a0 a1 b0 b1 : Nat) :
    (a0 + H * a1) * (b0 + H * b1) = a0 * b0 + (a0 * b1 % H * H) + (a1 * b0 % H * H) +
        (a0 * b1 / H + a1 * b0 / H + a1 * b1) * (H * H) := by
  have m1 := mod_add_div (a0 * b1) H
  have m2 := mod_add_div (a1 * b0) H
  calc
    (a0 + H * a1) * (b0 + H * b1) =
        a0 * b0 + H * (a0 * b1) + H * (a1 * b0) + H * H * (a1 * b1) := by ring
    _ = a0 * b0 + H * (a0 * b1 % H + H * (a0 * b1 / H)) +
          H * (a1 * b0 % H + H * (a1 * b0 / H)) + H * H * (a1 * b1) := by rw [m1, m2]
    _ = _ := by ring

theorem digitMulHalves_spec (hw : w = 2 * h) (hh : 2 ≤ h) (a b : BitVec w) :
    (digitMulHalves a b).1.toNat + (digitMulHalves a b).2.toNat * 2 ^ w = a.toNat * b.toNat := by
  have hp : 0 < h := by omega
  have hB4 : 4 ≤ 2 ^ w := four_le_two_pow (by omega)
  have hlt := mul_toNat_lt a b
  have a0 := toNat_and_halfDigitMask_lt hw hp a
  have b0 := toNat_and_halfDigitMask_lt hw hp b
  have a1 := toNat_shiftRight_half_lt hw a
  have b1 := toNat_shiftRight_half_lt hw b
  have whole := columns (2 ^ h) (a.toNat % 2 ^ h) (a.toNat / 2 ^ h) (b.toNat % 2 ^ h)
    (b.toNat / 2 ^ h)
  rw [mod_add_div, mod_add_div, ← two_pow_half hw] at whole
  simp only [← toNat_and_halfDigitMask hw hp, ← toNat_shiftRight_half hw] at whole
  unfold digitMulHalves
  dsimp only
  generalize a &&& halfDigitMask w = aLow, a >>> halfDigitBits w = aHigh,
    b &&& halfDigitMask w = bLow, b >>> halfDigitBits w = bHigh at *
  have first := digitAdd_spec (aLow * bLow) ((aLow * bHigh) <<< halfDigitBits w) 0 (by simp; omega)
  generalize digitAdd (aLow * bLow) ((aLow * bHigh) <<< halfDigitBits w) 0 = s1 at *
  have second := digitAdd_spec s1.1 ((aHigh * bLow) <<< halfDigitBits w) s1.2
    (by simp at first; omega)
  generalize digitAdd s1.1 ((aHigh * bLow) <<< halfDigitBits w) s1.2 = s2 at *
  simp only [toNat_shiftLeft_half hw, toNat_mul_half hw a0 b0, toNat_mul_half hw a0 b1,
    toNat_mul_half hw a1 b0, ofNat_eq_ofNat, toNat_ofNat, zero_mod, Nat.zero_mul,
    Nat.add_zero] at first second
  have total : s2.1.toNat + (aLow.toNat * bHigh.toNat / 2 ^ h + aHigh.toNat * bLow.toNat / 2 ^ h +
      aHigh.toNat * bHigh.toNat + s2.2.toNat) * 2 ^ w = a.toNat * b.toNat := by
    rw [whole, Nat.add_mul _ s2.2.toNat]
    omega
  have fits := Nat.lt_of_mul_lt_mul_right (lt_of_le_of_lt (Nat.le_add_left ..) (total ▸ hlt))
  rw [← total]
  simp only [toNat_add, toNat_shiftRight_half hw, toNat_mul_half hw a0 b1,
    toNat_mul_half hw a1 b0, toNat_mul_half hw a1 b1, mod_add_mod]
  rw [mod_eq_of_lt fits]

end Products

section Powers

variable {w : Nat}

theorem digitPowLoop_spec : ∀ (fuel : Nat) (base ex result : BitVec w),
    ex.toNat < 2 ^ fuel →
    (digitPowLoop fuel base ex result).toNat = result.toNat * base.toNat ^ ex.toNat % 2 ^ w
  | 0, base, ex, result, h => by
    have h0 : ex.toNat = 0 := by omega
    rw [digitPowLoop, h0, pow_zero, Nat.mul_one, mod_eq_of_lt result.isLt]
  | fuel + 1, base, ex, result, h => by
    rw [digitPowLoop]
    by_cases hz : ex > 0
    · rw [gt_iff_lt, lt_def, ofNat_eq_ofNat, toNat_ofNat, zero_mod] at hz
      have hh : (ex >>> 1).toNat = ex.toNat / 2 := by
        rw [toNat_ushiftRight, shiftRight_eq_div_pow, pow_one]
      have hw : 0 < w := by
        rcases Nat.eq_zero_or_pos w with rfl | hw
        · omega
        · exact hw
      have hodd : (ex &&& 1 ≠ 0) ↔ ex.toNat % 2 = 1 := by
        have h1 : (1 : BitVec w).toNat = 1 := BitVec.toNat_one hw
        rw [ne_eq, ← toNat_inj, toNat_and, h1, and_one_is_mod]
        simp
      have hs : ∀ k, (base * base).toNat ^ k % 2 ^ w = base.toNat ^ (2 * k) % 2 ^ w := by
        intro k
        rw [toNat_mul, ← pow_mod, ← pow_two, ← pow_mul]
      rw [if_pos (by simpa [lt_def]),
        digitPowLoop_spec fuel _ _ _ (by rw [hh, pow_succ] at *; omega), hh, mul_mod, hs,
        ← mul_mod]
      split_ifs with hb
      · rw [toNat_mul, mod_mul_mod, Nat.mul_assoc, ← pow_succ']
        rw [hodd] at hb
        congr 3
        omega
      · rw [hodd] at hb
        congr 3
        omega
    · have h0 : ex.toNat = 0 := by
        rw [gt_iff_lt, lt_def] at hz
        simpa using hz
      rw [if_neg hz, h0, pow_zero, Nat.mul_one, mod_eq_of_lt result.isLt]

theorem digitPow_spec (base ex : BitVec w) (hw : w ≠ 0) :
    (digitPow base ex).toNat = base.toNat ^ ex.toNat % 2 ^ w := by
  have h1 : (1 : BitVec w).toNat = 1 := mod_eq_of_lt (Nat.one_lt_two_pow hw)
  rw [digitPow, digitPowLoop_spec w _ _ _ ex.isLt, h1, Nat.one_mul]

end Powers

section Quotients

open JavaScriptCore.Numeral

variable {w : Nat}

theorem toNat_shiftLeft_clz (d : BitVec w) (hd : d ≠ 0) :
    (d <<< clz d).toNat = d.toNat * 2 ^ clz d ∧ 2 ^ w ≤ 2 * (d.toNat * 2 ^ clz d) ∧ clz d < w := by
  have hn : d.toNat ≠ 0 := fun h => hd (eq_of_toNat_eq (by simpa using h))
  have hlog : d.toNat.log2 < w := (log2_lt hn).mpr d.isLt
  have hclz : clz d = w - 1 - d.toNat.log2 := if_neg hd
  have hsum : 2 ^ w = 2 ^ (d.toNat.log2 + 1) * 2 ^ clz d := by rw [← pow_add]; congr 1; omega
  have hlow := Nat.mul_le_mul_right (2 ^ clz d) (log2_self_le hn)
  have hh := Nat.mul_lt_mul_of_pos_right (lt_log2_self (n := d.toNat)) (Nat.two_pow_pos (clz d))
  refine ⟨?_, by rw [hsum, pow_succ']; linarith, by omega⟩
  rw [toNat_shiftLeft, shiftLeft_eq, mod_eq_of_lt (hsum ▸ hh)]

/-- The loop ends with the exact half-digit quotient. `v1` and `v0` are the halves
of the normalized divisor, `u` the part of the dividend already seen. -/
theorem digitDivAdjust_spec {h : Nat} (hw : w = 2 * h) (hh : 2 ≤ h) {vn0 vn1 un : BitVec w}
    {u : Nat} (norm : 2 ^ h ≤ 2 * vn1.toNat) (h1 : vn1.toNat < 2 ^ h) (h0 : vn0.toNat < 2 ^ h)
    (hun : un.toNat < 2 ^ h) (hu : u < vn1.toNat * 2 ^ h + vn0.toNat) (n : Nat) :
    ∀ rhat : BitVec w, n * vn1.toNat + rhat.toNat = u → rhat.toNat < 2 ^ h →
      u * 2 ^ h + un.toNat < (n + 1) * (vn1.toNat * 2 ^ h + vn0.toNat) →
      (digitDivAdjust vn0 vn1 un n rhat).1.toNat * (vn1.toNat * 2 ^ h + vn0.toNat) ≤
          u * 2 ^ h + un.toNat ∧
        u * 2 ^ h + un.toNat <
          ((digitDivAdjust vn0 vn1 un n rhat).1.toNat + 1) * (vn1.toNat * 2 ^ h + vn0.toNat) := by
  have hB := two_pow_half hw
  have hb := toNat_halfDigitBase hw (by omega : 0 < h)
  have hHB : 4 * 2 ^ h ≤ 2 ^ w := hB ▸ Nat.mul_le_mul_right _ (four_le_two_pow hh)
  induction n with
  | zero =>
    intro rhat hq hr hlow
    simpa [digitDivAdjust] using hlow
  | succ n ih =>
    intro rhat hq hr hlow
    -- An estimate above the base plus one would already exceed the dividend.
    have hbd : n + 1 ≤ 2 ^ h + 1 := by
      by_contra hc
      have hle : (2 ^ h + 2) * vn1.toNat ≤ (n + 1) * vn1.toNat := Nat.mul_le_mul_right _ (by omega)
      rw [Nat.add_mul, Nat.mul_comm (2 ^ h)] at hle
      omega
    have hqn : ∀ k ≤ n + 1, (BitVec.ofNat w k).toNat = k := fun k hk =>
      mod_eq_of_lt (show k < 2 ^ w by omega)
    have hsum : (rhat + vn1).toNat = rhat.toNat + vn1.toNat := toNat_add_of_lt (by omega)
    have hri : (rhat * halfDigitBase w + un).toNat = rhat.toNat * 2 ^ h + un.toNat := by
      have hm : (rhat.toNat + 1) * 2 ^ h ≤ 2 ^ w := hB ▸ Nat.mul_le_mul_right _ hr
      rw [Nat.add_mul] at hm
      have hmul : (rhat * halfDigitBase w).toNat = rhat.toNat * 2 ^ h := by
        rw [toNat_mul_of_lt (by rw [hb]; omega), hb]
      rw [toNat_add_of_lt (by omega), hmul]
    have ht : (BitVec.ofNat w (n + 1) ≥ halfDigitBase w ∨
        BitVec.ofNat w (n + 1) * vn0 > rhat * halfDigitBase w + un) ↔
        (2 ^ h ≤ n + 1 ∨ rhat.toNat * 2 ^ h + un.toNat < (n + 1) * vn0.toNat) := by
      rw [ge_iff_le, le_def, gt_iff_lt, lt_def, hb, hqn _ le_rfl, hri]
      refine or_congr_right' fun hbig => ?_
      rw [toNat_mul_half hw (by rw [hqn _ le_rfl]; omega) h0, hqn _ le_rfl]
    simp only [digitDivAdjust, ht]
    by_cases hc : 2 ^ h ≤ n + 1 ∨ rhat.toNat * 2 ^ h + un.toNat < (n + 1) * vn0.toNat
    · have hl' : u * 2 ^ h + un.toNat < (n + 1) * (vn1.toNat * 2 ^ h + vn0.toNat) := by
        rcases hc with hbig | ht
        · calc
            u * 2 ^ h + un.toNat < u * 2 ^ h + 2 ^ h := Nat.add_lt_add_left hun _
            _ = 2 ^ h * (u + 1) := by ring
            _ ≤ (n + 1) * (vn1.toNat * 2 ^ h + vn0.toNat) := Nat.mul_le_mul hbig hu
        · exact lt_estimate_mul_of_test (R := 1) hq ht (by omega) (by omega)
      have hq' : n * vn1.toNat + (rhat + vn1).toNat = u := by rw [hsum, ← hq]; ring
      simp only [if_pos hc, ge_iff_le, le_def, hb]
      split_ifs with ho
      · rw [hqn n (by omega)]
        exact ⟨estimate_mul_le_of_exact hq' (test_fails_of_base_le ho (by omega) h0), hl'⟩
      · exact ih (rhat + vn1) hq' (by omega) hl'
    · rw [if_neg hc, hqn _ le_rfl]
      exact ⟨estimate_mul_le_of_exact hq (by omega), hlow⟩

/-- A half digit of quotient: `u` is the running remainder, `un` the next half digit of the
dividend. -/
def halfQuotient (divisor u un : BitVec w) : BitVec w :=
  let vn1 := divisor >>> halfDigitBits w
  (digitDivAdjust (divisor &&& halfDigitMask w) vn1 un (u / vn1).toNat (u - u / vn1 * vn1)).1

/-- A digit divided by `v`. -/
theorem toNat_sub_div_mul (u v : BitVec w) : (u - u / v * v).toNat = u.toNat % v.toNat := by
  have hle := div_mul_le_self u.toNat v.toNat
  have hm : (u / v * v).toNat = u.toNat / v.toNat * v.toNat := by
    rw [toNat_mul_of_lt, toNat_udiv]
    exact lt_of_le_of_lt hle u.isLt
  rw [toNat_sub_of_le (by rwa [le_def, hm]), hm, mod_eq_sub_div_mul]

/-- A wrapped difference is the number that, added back, is congruent to the minuend. -/
theorem toNat_sub_of_add_mod {x y : BitVec w} {n : Nat} (hn : n < 2 ^ w)
    (h : (n + y.toNat) % 2 ^ w = x.toNat) : (x - y).toNat = n := by
  have hxy : x = BitVec.ofNat w n + y := by
    apply eq_of_toNat_eq
    rw [toNat_add, toNat_ofNat, mod_add_mod, h]
  rw [hxy, BitVec.add_sub_cancel, toNat_ofNat, mod_eq_of_lt hn]

/-- One half of the division by a normalized divisor. -/
theorem halfQuotient_spec {h : Nat} (hw : w = 2 * h) (hh : 2 ≤ h) {d u un : BitVec w}
    (norm : 2 ^ w ≤ 2 * d.toNat) (hu : u.toNat < d.toNat) (hun : un.toNat < 2 ^ h) :
    (halfQuotient d u un).toNat * d.toNat +
        (u * halfDigitBase w + un - halfQuotient d u un * d).toNat =
        u.toNat * 2 ^ h + un.toNat ∧
      (u * halfDigitBase w + un - halfQuotient d u un * d).toNat < d.toNat := by
  have hB := two_pow_half hw
  have hvn1 := toNat_shiftRight_half hw d
  have hvn0 := toNat_and_halfDigitMask hw (by omega) d
  have h0 := toNat_and_halfDigitMask_lt hw (by omega) d
  have h1 := toNat_shiftRight_half_lt hw d
  have hsp := div_add_mod' d.toNat (2 ^ h)
  rw [← hvn1, ← hvn0] at hsp
  rw [halfQuotient]
  generalize d >>> halfDigitBits w = vn1, d &&& halfDigitMask w = vn0 at *
  have norm1 : 2 ^ h ≤ 2 * vn1.toNat := by
    obtain ⟨k, hk⟩ : ∃ k, 2 ^ h = 2 * k := ⟨2 ^ (h - 1), by rw [← pow_succ']; congr 1; omega⟩
    by_contra hc
    have hle := Nat.mul_le_mul_right k (show vn1.toNat + 1 ≤ k by omega)
    rw [hB, hk] at norm
    rw [hk] at h0 hsp
    linarith
  have hv : 0 < vn1.toNat := by have := Nat.two_pow_pos h; omega
  have hrem := toNat_sub_div_mul u vn1
  have hlt := mod_lt u.toNat hv
  have spec := digitDivAdjust_spec hw hh norm1 h1 h0 hun (hsp ▸ hu) (u / vn1).toNat
    (u - u / vn1 * vn1) (by rw [hrem, toNat_udiv, div_add_mod']) (by omega)
    (by rw [toNat_udiv]
        exact lt_succ_estimate_mul (P := 2 ^ h) hv (by rw [Nat.add_mul]; omega) (by omega))
  rw [hsp] at spec
  generalize (digitDivAdjust vn0 vn1 un (u / vn1).toNat (u - u / vn1 * vn1)).1 = q at *
  rw [Nat.add_mul, Nat.one_mul] at spec
  have hr : u.toNat * 2 ^ h + un.toNat - q.toNat * d.toNat < d.toNat := by omega
  have hn : (u * halfDigitBase w + un - q * d).toNat =
      u.toNat * 2 ^ h + un.toNat - q.toNat * d.toNat := by
    apply toNat_sub_of_add_mod (lt_trans hr d.isLt)
    rw [toNat_mul, add_mod_mod, Nat.sub_add_cancel spec.1, toNat_add,
      toNat_mul, toNat_halfDigitBase hw (by omega), mod_add_mod]
  rw [hn]
  exact ⟨Nat.add_sub_cancel' spec.1, hr⟩

/-- The mask is all ones for a nonzero shift amount and zero for none. -/
theorem sZeroMask_eq (hw : 0 < w) {s : Nat} (hs : s < w) :
    (-(BitVec.ofNat w s)).sshiftRight (w - 1) = if s = 0 then 0 else allOnes w := by
  have hpow : s < 2 ^ (w - 1) := lt_of_le_of_lt (le_sub_one_of_lt hs) Nat.lt_two_pow_self
  have hd : 2 * 2 ^ (w - 1) = 2 ^ w := by rw [← pow_succ']; congr 1; omega
  have hmsb : (-(BitVec.ofNat w s)).msb = decide (s ≠ 0) := by
    rw [msb_eq_decide, toNat_neg, toNat_ofNat, mod_eq_of_lt (show s < 2 ^ w by omega)]
    by_cases h : s = 0
    · simp [h]
    · rw [mod_eq_of_lt (show 2 ^ w - s < 2 ^ w by omega)]
      simp only [h, ne_eq, not_false_eq_true, decide_true, decide_eq_true_eq]
      omega
  ext i hi
  rw [getElem_sshiftRight]
  have hbit : (if h : w - 1 + i < w then (-(BitVec.ofNat w s))[w - 1 + i] else
      (-(BitVec.ofNat w s)).msb) = decide (s ≠ 0) := by
    by_cases h : w - 1 + i < w
    · have h0 : i = 0 := by omega
      subst h0
      rw [dif_pos h, ← hmsb, msb_eq_getMsbD_zero]
      simp [getMsbD, hw, getLsbD_eq_getElem]
    · rw [dif_neg h, hmsb]
  rw [hbit]
  by_cases h : s = 0 <;> simp [h]

theorem shift_mask_eq (hw : w = 32 ∨ w = 64) (s : Nat) : (w - s) &&& (w - 1) = (w - s) % w := by
  rcases hw with rfl | rfl
  · exact and_two_pow_sub_one_eq_mod _ 5
  · exact and_two_pow_sub_one_eq_mod _ 6

/-- `un32` of `digitDivHalves`. -/
def scaledHigh (s : Nat) (high low : BitVec w) : BitVec w :=
  (high <<< s) ||| ((low >>> ((w - s) &&& (w - 1))) &&& (-(BitVec.ofNat w s)).sshiftRight (w - 1))

variable {high low d : BitVec w} {s : Nat}

/-- `un32` and `un10` are the two digits of the dividend scaled like the divisor. -/
theorem scaledHigh_spec (low : BitVec w) (hw : w = 32 ∨ w = 64) (hs : s < w)
    (hfit : high.toNat * 2 ^ s < 2 ^ w) :
    (scaledHigh s high low).toNat * 2 ^ w + (low <<< s).toNat =
      (high.toNat * 2 ^ w + low.toNat) * 2 ^ s := by
  have hpow : 2 ^ w = 2 ^ (w - s) * 2 ^ s := by rw [← pow_add]; congr 1; omega
  have hu : (scaledHigh s high low).toNat = high.toNat * 2 ^ s + low.toNat / 2 ^ (w - s) := by
    simp only [scaledHigh, toNat_or, toNat_shiftLeft, shiftLeft_eq,
      sZeroMask_eq (by omega) hs, shift_mask_eq hw, mod_eq_of_lt hfit]
    split_ifs with h0
    · simp [h0, div_eq_of_lt low.isLt]
    · have hsm : low.toNat / 2 ^ (w - s) < 2 ^ s := Nat.div_lt_of_lt_mul (hpow ▸ low.isLt)
      rw [and_allOnes, toNat_ushiftRight, shiftRight_eq_div_pow,
        mod_eq_of_lt (show w - s < w by omega), ← shiftLeft_eq, ← shiftLeft_add_eq_or_of_lt hsm]
  have hdiv : low.toNat / 2 ^ (w - s) = low.toNat * 2 ^ s / 2 ^ w := by
    rw [hpow, Nat.mul_div_mul_right _ _ (Nat.two_pow_pos s)]
  rw [hu, toNat_shiftLeft, shiftLeft_eq, Nat.add_mul, Nat.add_assoc, hdiv, div_add_mod']
  ring

theorem mul_two_pow_add_lt (low : BitVec w) (hlt : high.toNat < d.toNat) :
    high.toNat * 2 ^ w + low.toNat < d.toNat * 2 ^ w := by
  have hm := Nat.mul_le_mul_right (2 ^ w) (show high.toNat + 1 ≤ d.toNat from hlt)
  rw [Nat.add_mul] at hm
  omega

theorem digitDivHalves_eq (high low d : BitVec w) :
    digitDivHalves high low d =
      let v := d <<< clz d
      let un32 := scaledHigh (clz d) high low
      let un1 := (low <<< clz d) >>> halfDigitBits w
      let un0 := (low <<< clz d) &&& halfDigitMask w
      let un21 := un32 * halfDigitBase w + un1 - halfQuotient v un32 un1 * v
      (halfQuotient v un32 un1 * halfDigitBase w + halfQuotient v un21 un0,
        (un21 * halfDigitBase w + un0 - halfQuotient v un21 un0 * v) >>> clz d) := rfl

theorem digitDivHalves_spec (hw : w = 32 ∨ w = 64) (hlt : high.toNat < d.toNat) :
    (digitDivHalves high low d).1.toNat * d.toNat +
        (digitDivHalves high low d).2.toNat = high.toNat * 2 ^ w + low.toNat ∧
      (digitDivHalves high low d).2.toNat < d.toNat := by
  obtain ⟨h, hwh, hh⟩ : ∃ h, w = 2 * h ∧ 2 ≤ h := ⟨w / 2, by omega, by omega⟩
  obtain ⟨hsh, norm, hs⟩ := toNat_shiftLeft_clz d (by rintro rfl; simp at hlt)
  have hwide := mul_two_pow_add_lt low hlt
  have hS := Nat.two_pow_pos (clz d)
  have scaled := scaledHigh_spec low hw hs
    (lt_trans (Nat.mul_lt_mul_of_pos_right hlt hS) (hsh ▸ isLt _))
  have h1 := toNat_shiftRight_half_lt hwh (low <<< clz d)
  have h0 := toNat_and_halfDigitMask_lt hwh (by omega) (low <<< clz d)
  have hlow := div_add_mod' (low <<< clz d).toNat (2 ^ h)
  rw [← toNat_shiftRight_half hwh, ← toNat_and_halfDigitMask hwh (by omega)] at hlow
  rw [← hsh] at norm
  rw [digitDivHalves_eq]
  dsimp only
  generalize scaledHigh (clz d) high low = un32, d <<< clz d = v,
    (low <<< clz d) >>> halfDigitBits w = un1,
    (low <<< clz d) &&& halfDigitMask w = un0 at *
  have hu32 : un32.toNat < v.toNat := by
    have := Nat.mul_lt_mul_of_pos_right hwide hS
    apply Nat.lt_of_mul_lt_mul_right (a := 2 ^ w)
    rw [hsh, Nat.mul_right_comm]
    omega
  obtain ⟨first, hu21⟩ := halfQuotient_spec hwh hh norm hu32 h1
  generalize halfQuotient v un32 un1 = q1 at *
  generalize un32 * halfDigitBase w + un1 - q1 * v = un21 at *
  obtain ⟨second, hrem⟩ := halfQuotient_spec hwh hh norm hu21 h0
  generalize halfQuotient v un21 un0 = q0 at *
  generalize un21 * halfDigitBase w + un0 - q0 * v = rem at *
  -- Both steps together divide the scaled dividend by the scaled divisor.
  have total : (q1.toNat * 2 ^ h + q0.toNat) * v.toNat + rem.toNat =
      (high.toNat * 2 ^ w + low.toNat) * 2 ^ clz d := by
    rw [← scaled, ← hlow, two_pow_half hwh]
    calc
      (q1.toNat * 2 ^ h + q0.toNat) * v.toNat + rem.toNat =
          q1.toNat * v.toNat * 2 ^ h + (q0.toNat * v.toNat + rem.toNat) := by ring
      _ = (q1.toNat * v.toNat + un21.toNat) * 2 ^ h + un0.toNat := by rw [second]; ring
      _ = _ := by rw [first]; ring
  rw [hsh, ← Nat.mul_assoc] at total
  obtain ⟨r, hr⟩ : 2 ^ clz d ∣ rem.toNat :=
    (Nat.dvd_add_right (Dvd.intro_left _ rfl)).mp (total ▸ Dvd.intro_left _ rfl)
  rw [hr, Nat.mul_comm _ r, ← Nat.add_mul] at total
  have unscaled := eq_of_mul_eq_mul_right hS total
  rw [hr, hsh, Nat.mul_comm, Nat.mul_lt_mul_right hS] at hrem
  have hq : q1.toNat * 2 ^ h + q0.toNat < 2 ^ w := by
    apply Nat.lt_of_mul_lt_mul_right (a := d.toNat)
    rw [Nat.mul_comm (2 ^ w)]
    omega
  rw [toNat_add, toNat_mul, toNat_halfDigitBase hwh (by omega), mod_add_mod, mod_eq_of_lt hq,
    toNat_ushiftRight, shiftRight_eq_div_pow, hr, Nat.mul_div_cancel_left _ hS]
  exact ⟨unscaled, hrem⟩

theorem digitDivInstruction_spec (hlt : high.toNat < d.toNat) :
    (digitDivInstruction high low d).1.toNat * d.toNat +
        (digitDivInstruction high low d).2.toNat = high.toNat * 2 ^ w + low.toNat ∧
      (digitDivInstruction high low d).2.toNat < d.toNat := by
  have hmod := mod_lt (high.toNat * 2 ^ w + low.toNat) (show 0 < d.toNat by omega)
  simp only [digitDivInstruction, toNat_ofNat,
    mod_eq_of_lt (Nat.div_lt_of_lt_mul (mul_two_pow_add_lt _ hlt)),
    mod_eq_of_lt (lt_trans hmod d.isLt)]
  exact ⟨div_add_mod' _ _, hmod⟩

end Quotients

section Selected

variable (t : Target)

theorem digitMulHalves_eq (a b : t.Digit) : (digitMulHalves a b).1.toNat +
    (digitMulHalves a b).2.toNat * 2 ^ t.digitBits = a.toNat * b.toNat := by
  rcases t.digitBits_cases with h | h
  · exact digitMulHalves_spec (h := 16) (by omega) (by decide) a b
  · exact digitMulHalves_spec (h := 32) (by omega) (by decide) a b

/-- The product and the quotient from half digits are exact on both widths. -/
theorem digitHalves_exact :
    (∀ a b : t.Digit, (digitMulHalves a b).2.toNat * 2 ^ t.digitBits +
      (digitMulHalves a b).1.toNat = a.toNat * b.toNat) ∧
    ∀ high low divisor : t.Digit, high < divisor →
      high.toNat * 2 ^ t.digitBits + low.toNat = (digitDivHalves high low divisor).1.toNat *
          divisor.toNat + (digitDivHalves high low divisor).2.toNat ∧
        (digitDivHalves high low divisor).2 < divisor := by
  refine ⟨fun a b => ?_, fun high low divisor hlt => ?_⟩
  · rw [← digitMulHalves_eq t a b, Nat.add_comm]
  · exact (digitDivHalves_spec t.digitBits_cases hlt).imp_left Eq.symm

/-- `2 ^ 32` by three. -/
theorem digitHalves_exact_third : digitDivHalves (1 : BitVec 32) 0 3 = (0x55555555, 1) ∧
    1 * 2 ^ 32 + 0 = 0x55555555 * 3 + 1 :=
  ⟨by decide, ((digitHalves_exact ⟨false, false, false⟩).2 1 0 3 (by decide)).1⟩

/-- Both multiplications return the exact double-width product. -/
theorem digitMul_spec (a b : t.Digit) :
    (digitMul t a b).1.toNat + (digitMul t a b).2.toNat * 2 ^ t.digitBits = a.toNat * b.toNat := by
  unfold digitMul
  split
  · exact digitMulTwoDigit_spec a b
  · exact digitMulHalves_eq t a b

/-- Both divisions satisfy the division identity when the quotient fits a digit. -/
theorem digitDiv_spec (low : t.Digit) {high d : t.Digit} (hlt : high.toNat < d.toNat) :
    (digitDiv t high low d).1.toNat * d.toNat +
        (digitDiv t high low d).2.toNat = high.toNat * 2 ^ t.digitBits + low.toNat ∧
      (digitDiv t high low d).2.toNat < d.toNat := by
  unfold digitDiv
  split
  · exact digitDivInstruction_spec hlt
  · exact digitDivHalves_spec t.digitBits_cases hlt

theorem productGreaterThan_iff (factor1 factor2 high low : t.Digit) :
    productGreaterThan t factor1 factor2 high low = true ↔
      high.toNat * 2 ^ t.digitBits + low.toNat < factor1.toNat * factor2.toNat := by
  have spec := digitMul_spec t factor1 factor2
  have h1 := (digitMul t factor1 factor2).1.isLt
  simp only [productGreaterThan, decide_eq_true_eq, gt_iff_lt, lt_def, ← toNat_inj]
  rw [← spec]
  generalize (digitMul t factor1 factor2).1.toNat = lo at *
  generalize (digitMul t factor1 factor2).2.toNat = hi at *
  rcases Nat.lt_trichotomy high.toNat hi with hlt | heq | hgt
  · have := Nat.mul_le_mul_right (2 ^ t.digitBits) (show high.toNat + 1 ≤ hi from hlt)
    rw [Nat.add_mul] at this
    omega
  · rw [heq]
    omega
  · have := Nat.mul_le_mul_right (2 ^ t.digitBits) (show hi + 1 ≤ high.toNat from hgt)
    rw [Nat.add_mul] at this
    omega

end Selected

end JavaScriptCore.Runtime.JSBigInt
