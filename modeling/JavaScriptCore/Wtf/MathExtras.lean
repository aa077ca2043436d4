import Mathlib.Data.Nat.Bitwise
import Mathlib.Data.Nat.Log

/-!
# Rounding up to a power of two

`wtf/MathExtras.h:420-430`. Each step doubles the number of bits that are set from the highest one
down; after the last one every bit below the highest is set.
-/

namespace JavaScriptCore.Wtf

open Nat

def smear (shift v : Nat) : Nat := v ||| v >>> shift

/-- On `uint32_t`. -/
def roundUpToPowerOfTwo (v : Nat) : Nat :=
  let v := (v + 2 ^ 32 - 1) % 2 ^ 32
  (smear 16 (smear 8 (smear 4 (smear 2 (smear 1 v)))) + 1) % 2 ^ 32

variable {v n : Nat}

theorem smear_testBit {shift i : Nat} :
    (smear shift v).testBit i = (v.testBit i || v.testBit (i + shift)) := by
  rw [smear, testBit_or, testBit_shiftRight, Nat.add_comm]

theorem smear_lt (shift : Nat) (h : v < 2 ^ n) : smear shift v < 2 ^ n :=
  or_lt_two_pow h (Nat.lt_of_le_of_lt (shiftRight_le v shift) h)

/-- Once the top `k` of `n` bits are set, smearing by `k` sets the top `2 * k`. -/
theorem smear_top {k : Nat} (h : ∀ i, n ≤ i + k → i < n → v.testBit i = true) :
    ∀ i, n ≤ i + 2 * k → i < n → (smear k v).testBit i = true := by
  intro i hlow hh
  rw [smear_testBit, Bool.or_eq_true]
  by_cases hi : n ≤ i + k
  · exact .inl (h i hi hh)
  · exact .inr (h (i + k) (by omega) (by omega))

/-- All five steps together set every bit below the leading one. -/
theorem smear_all (hlow : 2 ^ n ≤ v) (hh : v < 2 ^ (n + 1)) (hn : n < 32) :
    smear 16 (smear 8 (smear 4 (smear 2 (smear 1 v)))) = 2 ^ (n + 1) - 1 := by
  have htop : ∀ i, n + 1 ≤ i + 1 → i < n + 1 → v.testBit i = true := by
    intro i hi hi'
    obtain rfl : i = n := by omega
    have hdiv : v / 2 ^ i = 1 := by
      refine Nat.div_eq_of_lt_le (by omega) ?_
      rw [succ_mul, Nat.one_mul, ← Nat.two_mul, ← pow_succ']
      exact hh
    rw [testBit, shiftRight_eq_div_pow, hdiv]
    rfl
  have hb := smear_top (smear_top (smear_top (smear_top (smear_top htop))))
  have hlt := smear_lt 16 (smear_lt 8 (smear_lt 4 (smear_lt 2 (smear_lt 1 hh))))
  apply eq_of_testBit_eq
  intro i
  rw [testBit_two_pow_sub_one]
  by_cases hi : i < n + 1
  · rw [hb i (by omega) hi, decide_eq_true hi]
  · rw [decide_eq_false hi]
    exact testBit_lt_two_pow (Nat.lt_of_lt_of_le hlt (Nat.pow_le_pow_right (by decide) (by omega)))

theorem roundUpToPowerOfTwo_eq (hpos : 0 < n) (hmax : n ≤ 2 ^ 31) :
    roundUpToPowerOfTwo n = 2 ^ clog 2 n := by
  have hp : (n + 2 ^ 32 - 1) % 2 ^ 32 = n - 1 := by omega
  rw [roundUpToPowerOfTwo, hp]
  by_cases hone : n = 1
  · subst hone
    decide
  have hlow : 2 ^ (n - 1).log2 ≤ n - 1 := log2_self_le (by omega)
  have hh : n - 1 < 2 ^ ((n - 1).log2 + 1) := lt_log2_self
  generalize (n - 1).log2 = k at hlow hh
  have hk : k < 31 := (Nat.pow_lt_pow_iff_right (Nat.one_lt_two)).mp (by omega : 2 ^ k < 2 ^ 31)
  have hc : clog 2 n = k + 1 := by
    refine Nat.le_antisymm ?_ ?_
    · exact (clog_le_iff_le_pow (by omega)).mpr (by omega)
    · exact (lt_clog_iff_pow_lt (by omega)).mpr (by omega)
  rw [smear_all hlow hh (by omega), hc]
  omega

/-- `size - 1` on 32-bit words, for a size that is a power of two. -/
theorem two_pow_mask {p : Nat} (hp : p ≤ 32) : (2 ^ p + 2 ^ 32 - 1) % 2 ^ 32 = 2 ^ p - 1 := by
  have hlt : 2 ^ p - 1 < 2 ^ 32 :=
    Nat.lt_of_lt_of_le (sub_lt (Nat.two_pow_pos p) Nat.one_pos)
      (Nat.pow_le_pow_right (by decide) hp)
  rw [Nat.sub_add_comm Nat.one_le_two_pow, add_mod_right, mod_eq_of_lt hlt]

end JavaScriptCore.Wtf
