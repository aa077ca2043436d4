import Mathlib.Tactic.Ring
import Mathlib.Tactic.Linarith

/-!
# Quotient estimates in long division

One step of long division estimates a quotient digit of `N / d` from leading parts
of both. `U` is the leading part of `N` above the weight `P`, `v` the leading part of
`d` above the same weight, and an estimate `q` comes with `r` such that
`q * v + r = U`. The refined test looks one base-`B` digit further down, at the weight
`R` with `P = B * R`: the next digit is `v'` in the divisor and `u'` in the dividend.
-/

namespace JavaScriptCore.Numeral

variable {N d U v B P R q r u' v' : Nat}

/-- A rest below the divisor is the remainder. -/
theorem eq_div_mod (h : q * d + r = N) (hr : r < d) : q = N / d ∧ r = N % d := by
  have := (Nat.div_mod_unique (by omega)).mpr ⟨(by rw [← h]; ring : r + d * q = N), hr⟩
  exact ⟨this.1.symm, this.2.symm⟩

/-- Dividing the leading parts never underestimates. -/
theorem lt_succ_estimate_mul (hv : 0 < v) (hN : N < (U + 1) * P) (hd : v * P ≤ d) :
    N < (U / v + 1) * d := by
  have hU : U + 1 ≤ (U / v + 1) * v := Nat.lt_mul_of_div_lt (Nat.lt_succ_self _) hv
  calc
    N < (U + 1) * P := hN
    _ ≤ (U / v + 1) * v * P := Nat.mul_le_mul_right _ hU
    _ = (U / v + 1) * (v * P) := by ring
    _ ≤ (U / v + 1) * d := Nat.mul_le_mul_left _ hd

/-- A positive test shows that the estimate is too large. -/
theorem lt_estimate_mul_of_test (hq : q * v + r = U) (test : r * B + u' < q * v')
    (hN : N < (U * B + u' + 1) * R) (hd : (v * B + v') * R ≤ d) : N < q * d := by
  have hl : U * B + u' + 1 ≤ q * (v * B + v') := by
    calc
      U * B + u' + 1 = q * v * B + (r * B + u' + 1) := by rw [← hq]; ring
      _ ≤ q * v * B + q * v' := Nat.add_le_add_left test _
      _ = q * (v * B + v') := by ring
  calc
    N < (U * B + u' + 1) * R := hN
    _ ≤ q * (v * B + v') * R := Nat.mul_le_mul_right _ hl
    _ = q * ((v * B + v') * R) := by ring
    _ ≤ q * d := Nat.mul_le_mul_left _ hd

/-- A negative test leaves an exact estimate when the two digits are the whole
divisor. -/
theorem estimate_mul_le_of_exact (hq : q * v + r = U) (test : q * v' ≤ r * B + u') :
    q * (v * B + v') ≤ U * B + u' := by
  calc
    q * (v * B + v') = q * v * B + q * v' := by ring
    _ ≤ q * v * B + (r * B + u') := Nat.add_le_add_left test _
    _ = U * B + u' := by rw [← hq]; ring

/-- A negative test leaves the estimate at most one too large. -/
theorem pred_estimate_mul_le_of_test (hq : q * v + r = U) (test : q * v' ≤ r * B + u')
    (hqB : q ≤ v * B + v' + 1) (hN : (U * B + u') * R ≤ N) (hd : d ≤ (v * B + v' + 1) * R) :
    (q - 1) * d ≤ N := by
  have hl : (q - 1) * (v * B + v' + 1) ≤ U * B + u' := by
    rcases eq_zero_or_pos q with rfl | hpos
    · simp
    · obtain ⟨k, rfl⟩ : ∃ k, q = k + 1 := ⟨q - 1, by omega⟩
      simp only [Nat.add_sub_cancel]
      nlinarith
  calc
    (q - 1) * d ≤ (q - 1) * ((v * B + v' + 1) * R) := Nat.mul_le_mul_left _ hd
    _ = (q - 1) * (v * B + v' + 1) * R := by ring
    _ ≤ (U * B + u') * R := Nat.mul_le_mul_right _ hl
    _ ≤ N := hN

/-- Once `r` has reached the base no further test can succeed. -/
theorem test_fails_of_base_le (hr : B ≤ r) (hqB : q ≤ B) (hv : v' < B) : q * v' ≤ r * B + u' := by
  calc
    q * v' ≤ B * B := Nat.mul_le_mul hqB (by omega)
    _ ≤ r * B := Nat.mul_le_mul_right _ hr
    _ ≤ r * B + u' := Nat.le_add_right _ _

/-- The largest digit is at most one too large when the leading digits agree and
the divisor is normalized. -/
theorem max_digit_estimate (hB : 2 ≤ B) (norm : B ≤ 2 * v) (hN : v * B * P ≤ N)
    (hd : d ≤ (v + 1) * P) : (B - 1 - 1) * d ≤ N := by
  obtain ⟨k, rfl⟩ : ∃ k, B = k + 2 := ⟨B - 2, by omega⟩
  have hl : k * (v + 1) ≤ v * (k + 2) := by nlinarith
  calc
    (k + 2 - 1 - 1) * d = k * d := by simp
    _ ≤ k * ((v + 1) * P) := Nat.mul_le_mul_left _ hd
    _ = k * (v + 1) * P := by ring
    _ ≤ v * (k + 2) * P := Nat.mul_le_mul_right _ hl
    _ ≤ N := hN

end JavaScriptCore.Numeral
