import Mathlib.Data.Nat.Digits.Lemmas

/-!
# The low digits of a number

A fixed count of digits in any radix, least significant first and zero padded, as a
formatter produces them before it knows how many there are.
-/

namespace JavaScriptCore.Numeral

def lowDigits (r : Nat) : Nat → Nat → List Nat
  | 0, _ => []
  | k + 1, n => n % r :: lowDigits r k (n / r)

@[simp] theorem length_lowDigits (r k n : Nat) : (lowDigits r k n).length = k := by
  induction k generalizing n with
  | zero => rfl
  | succ k ih => simp [lowDigits, ih]

theorem lowDigits_add (r j k n : Nat) :
    lowDigits r (j + k) n = lowDigits r j n ++ lowDigits r k (n / r ^ j) := by
  induction j generalizing n with
  | zero => simp [lowDigits]
  | succ j ih =>
    rw [Nat.add_right_comm, lowDigits, ih, lowDigits, List.cons_append, Nat.div_div_eq_div_mul,
      ← pow_succ']

theorem lowDigits_succ (r k n : Nat) :
    lowDigits r (k + 1) n = lowDigits r k n ++ [n / r ^ k % r] := lowDigits_add r k 1 n

/-- Only the digits asked for matter. -/
theorem lowDigits_mod (r k n : Nat) : lowDigits r k (n % r ^ k) = lowDigits r k n := by
  induction k generalizing n with
  | zero => rfl
  | succ k ih =>
    rw [lowDigits, lowDigits, pow_succ', Nat.mod_mul_right_mod, Nat.mod_mul_right_div_self, ih]

/-- Digits of a number that reaches above the low ones. -/
theorem digits_eq_lowDigits_append {r k n : Nat} (hr : 1 < r) (h : n / r ^ k ≠ 0) :
    Nat.digits r n = lowDigits r k n ++ Nat.digits r (n / r ^ k) := by
  induction k generalizing n with
  | zero => simp [lowDigits]
  | succ k ih =>
    rw [pow_succ', ← Nat.div_div_eq_div_mul] at h ⊢
    have hn : 0 < n := by
      refine pos_of_ne_zero (fun h0 => h ?_)
      rw [h0, Nat.zero_div, Nat.zero_div]
    rw [Nat.digits_def' hr hn, ih h, lowDigits, List.cons_append]

/-- A count that reaches exactly the leading digit gives all of them. -/
theorem digits_eq_lowDigits {r k n : Nat} (hr : 1 < r) (hlo : n / r ^ k ≠ 0)
    (hhi : n < r ^ (k + 1)) : Nat.digits r n = lowDigits r (k + 1) n := by
  have htop : n / r ^ k < r := by
    rw [Nat.div_lt_iff_lt_mul (Nat.pow_pos (by omega)), ← pow_succ']
    exact hhi
  rw [digits_eq_lowDigits_append hr hlo, lowDigits_succ, Nat.digits_of_lt r _ hlo htop,
    Nat.mod_eq_of_lt htop]

end JavaScriptCore.Numeral
