import JavaScriptCore.Runtime.JSBigInt.Divide

/-!
# Division is exact

The specifications of the loops of `Divide`, and from them that quotient and remainder
are those of truncating division. In algorithm D the digit that is finally stored is
the exact one: the estimate is never too small, the test on the second digit leaves it
at most one too large, and the borrow of the subtraction detects exactly that case.
-/

namespace JavaScriptCore.Runtime.JSBigInt

open JavaScriptCore.ProgramLogic JavaScriptCore.Numeral BitVec Nat Option

variable {t : Target}

section DigitDivisor

variable {exc : Exception → Prop} {s : Heap t} {divisor : t.Digit}

theorem divDigits_wp (source : Option (JSBigInt t)) {result x : JSBigInt t}
    (hd : 0 < divisor.toNat) (hx : source.getD result = x) (hlen : result.length = x.length) :
    wp (forDown x.length ((0 : t.Digit), result) fun i (remainder, result) => do
        let (q, remainder) := digitDiv t remainder (← (source.getD result).digit i) divisor
        return (remainder, ← result.setDigit i q))
      (fun (remainder, r) _ => r.length = x.length ∧
        r.magnitude = x.magnitude / divisor.toNat ∧
        remainder.toNat = x.magnitude % divisor.toNat) exc s := by
  refine wp_post (wp_forDown (fun i (c : t.Digit × JSBigInt t) _ => c.2.length = x.length ∧
    (∀ k, k < i → word c.2.digits k = word result.digits k) ∧ c.1.toNat < divisor.toNat ∧
    window c.2.digits i (x.length - i) * divisor.toNat + c.1.toNat =
      window x.digits i (x.length - i)) x.length
    ⟨hlen, fun _ _ => rfl, by simpa using hd, by simp⟩ ?_) ?_
  · rintro i ⟨remainder, r⟩ s' hi ⟨hl, hr, hrem, hsum⟩
    dsimp only at hl hr hrem hsum
    obtain ⟨hrd, hsl⟩ := getD_unwritten source (hl.trans hlen.symm) (hr i (by omega))
    rw [hx] at hrd hsl
    obtain ⟨column, hr'⟩ := digitDiv_spec t (x.digits.getD i 0) hrem
    simp only [wp_bind, wp_digit (show i < (source.getD r).length by omega),
      wp_setDigit (show i < r.length by omega), wp_pure, hrd]
    refine ⟨by simpa using hl, fun k hk => ?_, hr', ?_⟩
    · rw [word_set_ne (by omega), hr k (by omega)]
    · rw [show x.length - i = x.length - (i + 1) + 1 by omega, window_bottom, window_bottom,
        word_set (show i < r.length by omega), if_pos rfl, window_set_outside (by omega)]
      exact division_step hsum column
  · rintro ⟨remainder, r⟩ s' ⟨hl, -, hrem, hsum⟩
    rw [Nat.sub_zero, ← magnitude_eq_window, ← hl, ← magnitude_eq_window] at hsum
    exact ⟨hl, eq_div_mod hsum hrem⟩

variable (hd : 0 < divisor.toNat)

include hd

theorem ne_zero_of_toNat_pos : divisor ≠ 0 := by
  rintro rfl
  simp at hd

theorem absoluteDivWithDigitDivisor_wp {x : JSBigInt t}
    (quotient : QuotientSlot) (hq : quotient ≠ .unwanted) :
    wp (absoluteDivWithDigitDivisor x divisor quotient)
      (fun (q, remainder) _ => ∃ r, q = some r ∧ r.length = x.length ∧
        r.magnitude = x.magnitude / divisor.toNat ∧
        remainder.toNat = x.magnitude % divisor.toNat) exc s := by
  unfold absoluteDivWithDigitDivisor
  rw [if_neg (ne_zero_of_toNat_pos hd)]
  by_cases h1 : divisor = 1
  · simp only [h1, if_true, hq, if_false, wp_pure]
    exact ⟨x, rfl, rfl, by rw [toNat_one, Nat.div_one], by rw [toNat_one, mod_one]; rfl⟩
  simp only [h1, if_false]
  cases quotient with
  | unwanted => exact absurd rfl hq
  | unallocated =>
    simp only [wp_bind]
    refine wp_createWithLengthUnchecked (fun r s' _ hl => ?_)
    refine wp_post (divDigits_wp (some x) hd rfl hl) ?_
    rintro ⟨remainder, r⟩ s' h
    exact ⟨r, rfl, h⟩
  | inPlace =>
    refine wp_seq (divDigits_wp none hd rfl rfl) ?_
    rintro ⟨remainder, r⟩ s' h
    exact ⟨r, rfl, h⟩

theorem remainderDigit_wp {x : JSBigInt t} :
    wp (absoluteDivWithDigitDivisor x divisor .unwanted)
      (fun (_, remainder) _ => remainder.toNat = x.magnitude % divisor.toNat) exc s := by
  unfold absoluteDivWithDigitDivisor
  rw [if_neg (ne_zero_of_toNat_pos hd)]
  by_cases h1 : divisor = 1
  · simp only [h1, if_true, wp_pure, toNat_one, mod_one]
    rfl
  simp only [h1, if_false]
  refine wp_seq (wp_forDown (fun i (remainder : t.Digit) _ => remainder.toNat < divisor.toNat ∧
    ∃ Q, Q * divisor.toNat + remainder.toNat = window x.digits i (x.length - i)) x.length
    ⟨by simpa using hd, 0, by simp⟩ ?_) ?_
  · rintro i remainder s' hi ⟨hrem, Q, hsum⟩
    obtain ⟨column, hr'⟩ := digitDiv_spec t (x.digits.getD i 0) hrem
    simp only [wp_bind, wp_digit hi, wp_pure]
    refine ⟨hr', (digitDiv t remainder (x.digits.getD i 0) divisor).1.toNat +
      2 ^ t.digitBits * Q, ?_⟩
    rw [show x.length - i = x.length - (i + 1) + 1 by omega, window_bottom]
    exact division_step hsum column
  · rintro remainder s' ⟨hrem, Q, hsum⟩
    rw [Nat.sub_zero, ← magnitude_eq_window] at hsum
    exact (eq_div_mod hsum hrem).2

end DigitDivisor

section InPlace

variable {exc : Exception → Prop} {s : Heap t} {x : JSBigInt t}

theorem absoluteInplaceAdd_wp {sm : JSBigInt t} {a : Nat} (hlen : a + sm.length ≤ x.length) :
    wp (absoluteInplaceAdd x sm a) (fun (r, c) _ => r.length = x.length ∧
        (∀ k, k < a ∨ a + sm.length ≤ k → word r.digits k = word x.digits k) ∧
        window r.digits a sm.length + c.toNat * (2 ^ t.digitBits) ^ sm.length =
          window x.digits a sm.length + sm.magnitude) exc s := by
  have hw := radix_gt t
  unfold absoluteInplaceAdd
  rw [wp_bind, magnitude_eq_window sm]
  refine wp_post (wp_forUp (fun i (c : t.Digit × JSBigInt t) _ => c.2.length = x.length ∧
    (∀ k, k < a ∨ a + i ≤ k → word c.2.digits k = word x.digits k) ∧
    window c.2.digits a i + c.1.toNat * (2 ^ t.digitBits) ^ i =
      window x.digits a i + window sm.digits 0 i) (zero_le _)
    ⟨rfl, fun _ _ => rfl, by simp⟩ ?_) (fun c s' h => ⟨h.1, h.2.1, h.2.2⟩)
  rintro i ⟨carry, r⟩ s' - hi ⟨hl, hr, hsum⟩
  dsimp only at hl hr hsum
  obtain ⟨column, -⟩ := digitAddCarry_spec (by omega) (r.digits.getD (a + i) 0)
    (sm.digits.getD i 0) carry
  have hold : (r.digits.getD (a + i) 0).toNat = word x.digits (a + i) :=
    hr (a + i) (.inr (le_refl _))
  have ht : (sm.digits.getD i 0).toNat = word sm.digits i := rfl
  rw [hold, ht] at column
  simp only [wp_bind, wp_digit (show a + i < r.length by omega), wp_digit hi,
    wp_setDigit (show a + i < r.length by omega), wp_pure]
  refine ⟨by simpa using hl, fun k hk => ?_, ?_⟩
  · rw [word_set_ne (by omega), hr k (by omega)]
  · rw [window_set_top (show a + i < r.length by omega), pow_succ,
      carry_step hsum column, window_succ, window_succ, zero_add]
    ring

theorem absoluteInplaceSub_wp {sub : JSBigInt t} {a : Nat} (hlen : a + sub.length ≤ x.length) :
    wp (absoluteInplaceSub x sub a) (fun (r, c) _ => r.length = x.length ∧ c.toNat ≤ 1 ∧
        (∀ k, k < a ∨ a + sub.length ≤ k → word r.digits k = word x.digits k) ∧
        window r.digits a sub.length + sub.magnitude = window x.digits a sub.length +
            c.toNat * (2 ^ t.digitBits) ^ sub.length) exc s := by
  have hw := radix_gt t
  unfold absoluteInplaceSub
  rw [wp_bind, magnitude_eq_window sub]
  refine wp_post (wp_forUp (fun i (c : t.Digit × JSBigInt t) _ => c.2.length = x.length ∧
    c.1.toNat ≤ 1 ∧ (∀ k, k < a ∨ a + i ≤ k → word c.2.digits k = word x.digits k) ∧
    window c.2.digits a i + window sub.digits 0 i =
      window x.digits a i + c.1.toNat * (2 ^ t.digitBits) ^ i) (zero_le _)
    ⟨rfl, by simp, fun _ _ => rfl, by simp⟩ ?_) (fun c s' h => ⟨h.1, h.2.1, h.2.2.1, h.2.2.2⟩)
  rintro i ⟨borrow, r⟩ s' - hi ⟨hl, hb, hr, hsum⟩
  dsimp only at hl hb hr hsum
  obtain ⟨column, hb'⟩ := digitSubBorrow_spec (by omega) (r.digits.getD (a + i) 0)
    (sub.digits.getD i 0) borrow
  have hold : (r.digits.getD (a + i) 0).toNat = word x.digits (a + i) :=
    hr (a + i) (.inr (le_refl _))
  rw [hold] at column
  simp only [wp_bind, wp_digit (show a + i < r.length by omega), wp_digit hi,
    wp_setDigit (show a + i < r.length by omega), wp_pure]
  refine ⟨by simpa using hl, hb' hb, fun k hk => ?_, ?_⟩
  · rw [word_set_ne (by omega), hr k (by omega)]
  · rw [window_set_top (show a + i < r.length by omega), pow_succ,
      window_succ, window_succ, zero_add]
    exact borrow_step hsum column

theorem inplaceRightShift_wp {shift : Nat} (hx : x.length ≠ 0) (hs : shift ≤ t.digitBits) :
    wp (inplaceRightShift x shift)
      (fun r _ => r.length = x.length ∧ r.magnitude = x.magnitude / 2 ^ shift) exc s := by
  unfold inplaceRightShift
  split_ifs with h0
  · simp [h0]
  refine wp_post (rightShiftDigits_wp none hs (by simp only [getD_none]; omega) (by omega)) ?_
  rintro r s' ⟨-, hl, hwin⟩
  rw [show x.length - 1 + 1 = x.length by omega] at hwin
  refine ⟨hl, ?_⟩
  rw [magnitude_eq_window, hl, hwin, magnitude_eq_window]
  rfl

theorem absoluteLeftShiftAlwaysCopy_grow_wp {shift : Nat} (hs : shift ≤ t.digitBits) :
    wp (absoluteLeftShiftAlwaysCopy x shift .alwaysAddOneDigit)
      (fun r _ => r.length = x.length + 1 ∧ r.magnitude = x.magnitude * 2 ^ shift)
      (fun e => e = .outOfMemoryError ∧ t.maxLength < x.length + 1) s := by
  unfold absoluteLeftShiftAlwaysCopy
  simp only [if_true, wp_bind]
  refine wp_tryCreateWithLength (fun _ r s' _ hl => ?_) (fun h => ⟨rfl, h⟩)
  by_cases h0 : shift = 0
  · simp only [h0, if_true]
    refine wp_seq (copyDigits_wp x r (le_refl _) (by omega)) ?_
    rintro r' s'' ⟨-, hl', hw⟩
    rw [wp_setDigit (by omega)]
    refine ⟨by rw [length_set]; omega, ?_⟩
    rw [magnitude_eq_window, length_set, show r'.length = x.length + 1 by omega,
      window_set_next (show x.length < r'.length by omega),
      show window r'.digits 0 x.length = window x.digits 0 x.length from
        window_congr (fun k _ hk => hw k (by omega)), magnitude_eq_window x]
    simp
  · simp only [h0, if_false]
    refine wp_seq (leftShiftDigits_wp hs (by omega)) ?_
    rintro ⟨carry, r'⟩ s'' ⟨-, hl', -, hsum⟩
    dsimp only at hl' hsum ⊢
    rw [wp_setDigit (by omega)]
    refine ⟨by rw [length_set]; omega, ?_⟩
    rw [magnitude_eq_window, length_set, show r'.length = x.length + 1 by omega,
      window_set_next (show x.length < r'.length by omega), hsum]

/-- The normalizing shift of the divisor stays in its length. -/
theorem absoluteLeftShiftAlwaysCopy_same_wp {shift : Nat} (h0 : shift ≠ 0)
    (hs : shift ≤ t.digitBits) (fits : x.magnitude * 2 ^ shift < (2 ^ t.digitBits) ^ x.length) :
    wp (absoluteLeftShiftAlwaysCopy x shift .sameSizeResult)
      (fun r _ => r.length = x.length ∧ r.magnitude = x.magnitude * 2 ^ shift)
      (fun e => e = .outOfMemoryError ∧ t.maxLength < x.length) s := by
  unfold absoluteLeftShiftAlwaysCopy
  simp only [reduceCtorEq, if_false, wp_bind]
  refine wp_tryCreateWithLength (fun _ r s' _ hl => ?_) (fun h => ⟨rfl, h⟩)
  simp only [h0, if_false]
  refine wp_seq (leftShiftDigits_wp hs (by omega)) ?_
  rintro ⟨carry, r'⟩ s'' ⟨-, hl', -, hsum⟩
  dsimp only at hl' hsum ⊢
  refine ⟨by omega, ?_⟩
  rw [carry_eq_zero hsum fits, Nat.zero_mul, Nat.add_zero] at hsum
  rw [magnitude_eq_window, show r'.length = x.length by omega, hsum]

end InPlace

section AlgorithmD

variable {exc : Exception → Prop} {s : Heap t}

/-- What the correction loop leaves: the quotient digit, or one more than it. -/
theorem lowerQuotientEstimate_spec {vn1 vn2 ujn2 : t.Digit} {N d U R : Nat} (hv : 0 < vn1.toNat)
    (hN : N < (U * 2 ^ t.digitBits + ujn2.toNat + 1) * R)
    (hN' : (U * 2 ^ t.digitBits + ujn2.toNat) * R ≤ N)
    (hd : (vn1.toNat * 2 ^ t.digitBits + vn2.toNat) * R ≤ d)
    (hd' : d ≤ (vn1.toNat * 2 ^ t.digitBits + vn2.toNat + 1) * R) (n : Nat) :
    ∀ rhat : t.Digit, n < 2 ^ t.digitBits → n * vn1.toNat + rhat.toNat = U → N < (n + 1) * d →
      N < ((lowerQuotientEstimate vn1 vn2 ujn2 n rhat).toNat + 1) * d ∧
        ((lowerQuotientEstimate vn1 vn2 ujn2 n rhat).toNat - 1) * d ≤ N := by
  have hb : 2 ^ t.digitBits ≤ vn1.toNat * 2 ^ t.digitBits := Nat.le_mul_of_pos_left _ hv
  induction n with
  | zero =>
    intro rhat _ _ hlt
    simp only [lowerQuotientEstimate]
    simpa using hlt
  | succ n ih =>
    intro rhat hn hq hlt
    have hq1 : (BitVec.ofNat t.digitBits (n + 1)).toNat = n + 1 := by
      rw [toNat_ofNat, mod_eq_of_lt hn]
    have hq0 : (BitVec.ofNat t.digitBits n).toNat = n := by
      rw [toNat_ofNat, mod_eq_of_lt (by omega)]
    have ht := productGreaterThan_iff t (BitVec.ofNat t.digitBits (n + 1)) vn2 rhat ujn2
    rw [hq1] at ht
    simp only [lowerQuotientEstimate]
    by_cases hgt : productGreaterThan t (BitVec.ofNat t.digitBits (n + 1)) vn2 rhat ujn2 = true
    · rw [if_pos hgt]
      have hlow : N < (n + 1) * d := lt_estimate_mul_of_test hq (ht.mp hgt) hN hd
      have hsum : n * vn1.toNat + (rhat.toNat + vn1.toNat) = U := by rw [← hq]; ring
      split_ifs with ho
      · -- the next test would compare with a value past two digits, and fail
        have hbig : 2 ^ t.digitBits ≤ rhat.toNat + vn1.toNat := by
          by_contra hsm
          rw [lt_def, toNat_add, mod_eq_of_lt (by omega)] at ho
          omega
        rw [hq0]
        refine ⟨hlow, pred_estimate_mul_le_of_test hsum ?_ (by omega) hN' hd'⟩
        exact test_fails_of_base_le hbig (by omega) vn2.isLt
      · have hsm : rhat.toNat + vn1.toNat < 2 ^ t.digitBits := by
          by_contra hbig
          apply ho
          rw [lt_def, toNat_add, mod_eq_sub_mod (by omega), mod_eq_of_lt (by omega)]
          omega
        refine ih (rhat + vn1) (by omega) ?_ hlow
        rw [toNat_add, mod_eq_of_lt hsm, hsum]
    · rw [if_neg hgt, hq1]
      exact ⟨hlt, pred_estimate_mul_le_of_test hq (by rw [ht] at hgt; omega) (by omega) hN' hd'⟩

variable {u divisor : JSBigInt t} {n j : Nat}

theorem estimateQuotientDigit_wp {vn1 : t.Digit} (hn : 2 ≤ n) (hdl : divisor.length = n)
    (hul : j + n < u.length) (hv : vn1.toNat = word divisor.digits (n - 1))
    (norm : 2 ^ t.digitBits ≤ 2 * vn1.toNat)
    (hN : window u.digits j (n + 1) < 2 ^ t.digitBits * divisor.magnitude) :
    wp (estimateQuotientDigit u divisor vn1 n j)
      (fun q _ => window u.digits j (n + 1) < (q.toNat + 1) * divisor.magnitude ∧
        (q.toNat - 1) * divisor.magnitude ≤ window u.digits j (n + 1)) exc s := by
  obtain ⟨k, rfl⟩ : ∃ k, n = k + 2 := ⟨n - 2, by omega⟩
  rw [show k + 2 - 1 = k + 1 by omega] at hv
  have hpos := radix_pos t
  have hVtop := window_lt_top_mul divisor.digits 0 (k + 1)
  have hVbot := top_mul_le_window divisor.digits 0 (k + 1)
  have hWtop := top_mul_le_window u.digits j (k + 2)
  rw [zero_add, ← hv, ← hdl, ← magnitude_eq_window] at hVtop hVbot
  have hle : word u.digits (j + (k + 2)) ≤ vn1.toNat := by
    refine le_of_lt_succ (Nat.lt_of_mul_lt_mul_right (a := (2 ^ t.digitBits) ^ (k + 2)) ?_)
    calc
      word u.digits (j + (k + 2)) * (2 ^ t.digitBits) ^ (k + 2) ≤ window u.digits j (k + 2 + 1) :=
        hWtop
      _ < 2 ^ t.digitBits * divisor.magnitude := hN
      _ ≤ 2 ^ t.digitBits * ((vn1.toNat + 1) * (2 ^ t.digitBits) ^ (k + 1)) :=
        Nat.mul_le_mul_left _ hVtop.le
      _ = (vn1.toNat + 1) * (2 ^ t.digitBits) ^ (k + 2) := by ring
  unfold estimateQuotientDigit
  rw [wp_bind, wp_digit hul]
  by_cases heq : u.digits.getD (j + (k + 2)) 0 = vn1
  · -- the leading digits agree, and the largest digit is the estimate
    simp only [heq, ne_eq, not_true_eq_false, if_false, wp_pure, toNat_allOnes]
    refine ⟨by rwa [Nat.sub_add_cancel hpos], ?_⟩
    rw [word, heq, pow_succ' _ (k + 1), ← mul_assoc] at hWtop
    exact max_digit_estimate (by omega) norm hWtop hVtop.le
  · have hlt : (u.digits.getD (j + (k + 2)) 0).toNat < vn1.toNat :=
      lt_of_le_of_ne hle fun h => heq (eq_of_toNat_eq h)
    obtain ⟨hq, hrem⟩ := digitDiv_spec t (u.digits.getD (j + (k + 1)) 0) hlt
    have hdiv := (eq_div_mod hq hrem).1
    simp only [heq, ne_eq, not_false_eq_true, if_true, wp_bind, wp_pure,
      show j + (k + 2) - 1 = j + (k + 1) by omega, show j + (k + 2) - 2 = j + k by omega,
      show k + 2 - 2 = k by omega, wp_digit (show j + (k + 1) < u.length by omega),
      wp_digit (show k < divisor.length by omega), wp_digit (show j + k < u.length by omega)]
    -- the two leading digits of the divisor and the three of the dividend
    obtain ⟨hV, hV'⟩ := window_between divisor.digits 0 k 2
    obtain ⟨hW, hW'⟩ := window_between u.digits j k 3
    obtain ⟨-, hU⟩ := window_between u.digits j (k + 1) 2
    rw [← hdl, ← magnitude_eq_window, zero_add, window_two, ← hv] at hV hV'
    have hthree : window u.digits (j + k) 3 = (word u.digits (j + (k + 2)) * 2 ^ t.digitBits +
        word u.digits (j + (k + 1))) * 2 ^ t.digitBits + word u.digits (j + k) := by
      rw [window_bottom, window_two, add_comm, mul_comm]
      rfl
    rw [hthree] at hW hW'
    rw [window_two] at hU
    refine lowerQuotientEstimate_spec (by omega) hW' hW hV hV'.le _ _ (isLt _) hq ?_
    rw [hdiv]
    exact lt_succ_estimate_mul (by omega) hU hVbot

/-- The estimate was not too large when the subtraction did not borrow. -/
theorem exact_of_no_borrow {N V q W : Nat} (hest : N < (q + 1) * V) (hsub : W + V * q = N) :
    q = N / V ∧ W = N % V := by
  rw [Nat.mul_comm V] at hsub
  rw [Nat.add_mul] at hest
  exact eq_div_mod (by omega) (by omega)

/-- A borrow means one too large; the divisor is added back modulo the window. `T` is the
top digit with the carry of that addition, before it is cut to a digit. -/
theorem exact_of_borrow {N V q W F T B P : Nat} (hB : 0 < B) (hV : V < P)
    (hest : (q - 1) * V ≤ N) (hWlt : W < P * B) (hsub : W + V * q = N + P * B)
    (hadd : F + T * P = W + V) (hF : F < P) :
    q - 1 = N / V ∧ F + T % B * P = N % V ∧ 0 < q := by
  obtain ⟨p, rfl⟩ : ∃ p, q = p + 1 := ⟨q - 1, by cases q <;> omega⟩
  rw [Nat.mul_comm V, Nat.add_mul] at hsub
  rw [Nat.add_sub_cancel] at hest ⊢
  have hVB : V < P * B := lt_of_lt_of_le hV (Nat.le_mul_of_pos_right _ hB)
  have hcut : F + T % B * P = N - p * V := by
    calc
      F + T % B * P = (F + T * P) % (P * B) := by
        rw [mod_mul, add_mul_mod_self_right, mod_eq_of_lt hF,
          add_mul_div_right _ _ (by omega), div_eq_of_lt hF, zero_add, mul_comm P]
      _ = (N - p * V + P * B) % (P * B) := by rw [hadd]; congr 1; omega
      _ = N - p * V := by rw [add_mod_right, mod_eq_of_lt (by omega)]
  obtain ⟨hq, hr⟩ := eq_div_mod (show p * V + (F + T % B * P) = N by omega) (by omega)
  exact ⟨hq, hr, by omega⟩

theorem subtractProduct_wp {qhatv : JSBigInt t} {qhat : t.Digit} (hdl : divisor.length = n)
    (hul : j + n < u.length) (hql : qhatv.length = n + 1)
    (hest : window u.digits j (n + 1) < (qhat.toNat + 1) * divisor.magnitude)
    (he' : (qhat.toNat - 1) * divisor.magnitude ≤ window u.digits j (n + 1)) :
    wp (subtractProduct u divisor qhatv qhat n j)
      (fun (u', qhatv', q) _ => u'.length = u.length ∧ qhatv'.length = n + 1 ∧
        (∀ k, k < j ∨ j + n < k → word u'.digits k = word u.digits k) ∧
        q.toNat = window u.digits j (n + 1) / divisor.magnitude ∧
        window u'.digits j (n + 1) = window u.digits j (n + 1) % divisor.magnitude) exc s := by
  unfold subtractProduct
  refine wp_seq (internalMultiplyAdd_wp (some divisor) qhat 0 (by simp [hdl]) (by omega)
    (.inl (by omega))) ?_
  rintro v s' ⟨-, hvl, hv⟩
  have hvl' : v.length = n + 1 := by omega
  have hvm : v.magnitude = divisor.magnitude * qhat.toNat := by
    rw [hv, getD_some, magnitude_eq_window divisor, hdl]
    simp
  refine wp_seq (absoluteInplaceSub_wp (by omega)) ?_
  rintro ⟨u₁, c⟩ s' ⟨hl₁, hc, hr, hsub⟩
  rw [hvl', hvm] at hsub
  rw [hvl'] at hr
  by_cases hc0 : c = 0
  · simp only [hc0, ne_eq, not_true_eq_false, if_false, wp_pure]
    rw [hc0, ofNat_eq_ofNat, toNat_ofNat, zero_mod, Nat.zero_mul, Nat.add_zero] at hsub
    obtain ⟨hq, hW⟩ := exact_of_no_borrow hest hsub
    exact ⟨hl₁, hvl', fun k hk => hr k (by omega), hq, hW⟩
  · have hc1 : c.toNat = 1 := by
      have : c.toNat ≠ 0 := fun h => hc0 (eq_of_toNat_eq (by simpa using h))
      omega
    rw [hc1, Nat.one_mul] at hsub
    simp only [hc0, ne_eq, not_false_eq_true, if_true, wp_bind]
    refine wp_post (absoluteInplaceAdd_wp (by omega)) ?_
    rintro ⟨u₂, c'⟩ s' ⟨hl₂, hr', hadd⟩
    rw [hdl] at hadd hr'
    have hlt : j + n < u₂.length := by omega
    simp only [wp_digit hlt, wp_setDigit hlt, wp_pure]
    have htop : word u₂.digits (j + n) = word u₁.digits (j + n) := hr' _ (.inr (Nat.le_refl _))
    have hsum : window u₂.digits j n + (word u₂.digits (j + n) + c'.toNat) *
        (2 ^ t.digitBits) ^ n = window u₁.digits j (n + 1) + divisor.magnitude := by
      rw [window_succ, htop, Nat.add_mul]
      omega
    obtain ⟨hq, hW, hpos⟩ := exact_of_borrow (radix_pos t)
      (by rw [← hdl]; exact divisor.magnitude_lt) he'
      (by rw [← pow_succ]; exact window_lt u₁.digits j (n + 1))
      (by rw [← pow_succ]; exact hsub) hsum (window_lt _ _ _)
    refine ⟨by rw [length_set]; omega, hvl', fun k hk => ?_, ?_, ?_⟩
    · rw [word_set_ne (by omega), hr' k (by omega), hr k (by omega)]
    · have h1 := toNat_one t
      rw [← hq, toNat_sub_of_le (by rw [le_def, h1]; omega), h1]
    · rw [window_set_top hlt, toNat_add]
      exact hW

/-- What holds when the digits `m, …, j` of the quotient are found: the digits of `u` from
`j` on are less than the divisor, and `u` with the found digits is still the dividend. -/
structure Divided (V U n m : Nat) (want : Bool) (j : Nat) (q : Option (JSBigInt t))
    (u qhatv : JSBigInt t) : Prop where
  wanted : q.isSome = want
  u_length : u.length = m + n + 1
  qhatv_length : qhatv.length = n + 1
  high_zero : ∀ k, j + n ≤ k → word u.digits k = 0
  rest_lt : window u.digits j n < V
  quotient : ∃ Q, U = window u.digits 0 (j + n) + V * (2 ^ t.digitBits) ^ j * Q ∧
    ∀ r, q = some r → r.length = m + 1 ∧ window r.digits j (m + 1 - j) = Q

/-- One round of the loop. -/
theorem Divided.step {qhatv u' qhatv' : JSBigInt t} {q : Option (JSBigInt t)} {d : t.Digit}
    {U m : Nat} {want : Bool} (hj : j < m + 1) (hdl : divisor.length = n)
    (h : Divided divisor.magnitude U n m want (j + 1) q u qhatv) (hl : u'.length = u.length)
    (hql : qhatv'.length = n + 1)
    (hre : ∀ k, k < j ∨ j + n < k → word u'.digits k = word u.digits k)
    (hd : d.toNat = window u.digits j (n + 1) / divisor.magnitude)
    (hrem : window u'.digits j (n + 1) = window u.digits j (n + 1) % divisor.magnitude) :
    Divided divisor.magnitude U n m want j
      (q.map fun r => { r with digits := r.digits.set j d }) u' qhatv' := by
  have hpos : 0 < divisor.magnitude := zero_lt_of_lt h.rest_lt
  have hlt : window u'.digits j (n + 1) < divisor.magnitude := hrem ▸ mod_lt _ hpos
  -- a remainder smaller than the divisor leaves nothing in the digit above its length
  have htop : word u'.digits (j + n) = 0 :=
    carry_eq_zero (window_succ ..).symm (lt_trans hlt (hdl ▸ divisor.magnitude_lt))
  have hwin : window u'.digits j n = window u'.digits j (n + 1) := by
    rw [window_succ, htop, Nat.zero_mul, Nat.add_zero]
  refine ⟨by simpa using h.wanted, hl.trans h.u_length, hql, fun k hk => ?_, hwin ▸ hlt, ?_⟩
  · by_cases hkj : k = j + n
    · rw [hkj, htop]
    · rw [hre k (by omega), h.high_zero k (by omega)]
  obtain ⟨Q, hU, hQ⟩ := h.quotient
  refine ⟨d.toNat + 2 ^ t.digitBits * Q, ?_, ?_⟩
  · have hdiv := div_add_mod (window u.digits j (n + 1)) divisor.magnitude
    rw [← hd, ← hrem, ← hwin] at hdiv
    have hlow : window u'.digits 0 j = window u.digits 0 j :=
      window_congr (fun k _ hk => hre k (by omega))
    rw [hU, show j + 1 + n = j + (n + 1) by omega, window_add u.digits 0 j,
      window_add u'.digits 0 j, hlow, zero_add, ← hdiv]
    ring
  · intro r hr
    obtain ⟨r₀, hr₀, rfl⟩ := map_eq_some_iff.mp hr
    obtain ⟨hl₀, hw₀⟩ := hQ r₀ hr₀
    refine ⟨by simpa using hl₀, ?_⟩
    rw [show m + 1 - j = m + 1 - (j + 1) + 1 by omega, window_bottom,
      word_set (show j < r₀.length by omega), if_pos rfl, window_set_outside (by omega), hw₀]

end AlgorithmD

section AlgorithmD

variable {s : Heap t}

variable {qhatv : JSBigInt t} {q : Option (JSBigInt t)} {m : Nat}

/-- The loop of algorithm D on a normalized divisor. -/
theorem divideLoop_wp {exc : Exception → Prop} {divisor u : JSBigInt t} {vn1 : t.Digit} {n U : Nat}
    {want : Bool} (hn : 2 ≤ n)
    (hdl : divisor.length = n) (hv : vn1.toNat = word divisor.digits (n - 1))
    (norm : 2 ^ t.digitBits ≤ 2 * vn1.toNat)
    (start : Divided divisor.magnitude U n m want (m + 1) q u qhatv) :
    wp (forDown (m + 1) (q, u, qhatv) fun j (q, u, qhatv) => do
        let qhat ← estimateQuotientDigit u divisor vn1 n j
        let (u, qhatv, qhat) ← subtractProduct u divisor qhatv qhat n j
        let q ← (match q with
          | none => pure none
          | some q => some <$> q.setDigit j qhat)
        return (q, u, qhatv))
      (fun (q, u, qhatv) _ => Divided divisor.magnitude U n m want 0 q u qhatv) exc s := by
  refine wp_forDown (fun j (c : Option (JSBigInt t) × JSBigInt t × JSBigInt t) _ =>
    Divided divisor.magnitude U n m want j c.1 c.2.1 c.2.2) (m + 1) start ?_
  rintro j ⟨q, u, qhatv⟩ s' hj h
  dsimp only at h ⊢
  have hul := h.u_length
  have hN : window u.digits j (n + 1) < 2 ^ t.digitBits * divisor.magnitude := by
    have hlt := h.rest_lt
    have hw := word_lt u.digits j
    rw [window_bottom]
    calc
      word u.digits j + 2 ^ t.digitBits * window u.digits (j + 1) n <
          2 ^ t.digitBits + 2 ^ t.digitBits * window u.digits (j + 1) n :=
        Nat.add_lt_add_right hw _
      _ = 2 ^ t.digitBits * (window u.digits (j + 1) n + 1) := by ring
      _ ≤ 2 ^ t.digitBits * divisor.magnitude := Nat.mul_le_mul_left _ hlt
  refine wp_seq (estimateQuotientDigit_wp hn hdl (by omega) hv norm hN) ?_
  rintro qhat s' ⟨hest, he'⟩
  refine wp_seq (subtractProduct_wp hdl (by omega) h.qhatv_length hest he') ?_
  rintro ⟨u', qhatv', d⟩ s' ⟨hl, hql, hr, hd, hrem⟩
  have next := h.step hj hdl hl hql hr hd hrem
  cases q with
  | none => simpa using next
  | some r =>
    obtain ⟨Q, -, hQ⟩ := h.quotient
    have hlr := (hQ r rfl).1
    simpa [wp_setDigit (show j < r.length by omega)] using next

/-- Shifting the leading zeros of the top digit out keeps the length and leaves its
highest bit set. -/
theorem normalize {x : JSBigInt t} {k : Nat} (hl : x.length = k + 1) (htop : word x.digits k ≠ 0) :
    clz (x.digits.getD k 0) < t.digitBits ∧
      x.magnitude * 2 ^ clz (x.digits.getD k 0) < (2 ^ t.digitBits) ^ (k + 1) ∧
      ∀ y : JSBigInt t, y.length = k + 1 → y.magnitude = x.magnitude * 2 ^ clz (x.digits.getD k 0) →
        2 ^ t.digitBits ≤ 2 * word y.digits k := by
  have hd : x.digits.getD k 0 ≠ 0 := fun h => htop (by rw [word, h]; rfl)
  obtain ⟨hs, hn, hlt⟩ := toNat_shiftLeft_clz _ hd
  change _ ≤ 2 * (word x.digits k * _) at hn
  generalize clz (x.digits.getD k 0) = s at *
  have hw : (2 : Nat) ^ t.digitBits = 2 ^ (t.digitBits - s) * 2 ^ s := by
    rw [← pow_add]; congr 1; omega
  have hsu : (word x.digits k + 1) * 2 ^ s ≤ 2 ^ t.digitBits := by
    have hbit := isLt (x.digits.getD k 0 <<< s)
    rw [hs, hw] at hbit
    rw [hw]
    exact Nat.mul_le_mul_right _ (Nat.lt_of_mul_lt_mul_right hbit)
  have hbot := top_mul_le_window x.digits 0 k
  have htop := window_lt_top_mul x.digits 0 k
  rw [zero_add, ← hl, ← magnitude_eq_window] at hbot htop
  refine ⟨hlt, ?_, fun y hyl hym => ?_⟩
  · calc
      x.magnitude * 2 ^ s < (word x.digits k + 1) * (2 ^ t.digitBits) ^ k * 2 ^ s :=
        Nat.mul_lt_mul_of_pos_right htop (Nat.two_pow_pos s)
      _ = (word x.digits k + 1) * 2 ^ s * (2 ^ t.digitBits) ^ k := by ring
      _ ≤ 2 ^ t.digitBits * (2 ^ t.digitBits) ^ k := Nat.mul_le_mul_right _ hsu
      _ = (2 ^ t.digitBits) ^ (k + 1) := by ring
  · have hy := window_lt_top_mul y.digits 0 k
    rw [zero_add, ← hyl, ← magnitude_eq_window, hym] at hy
    have hld : word x.digits k * 2 ^ s * (2 ^ t.digitBits) ^ k <
        (word y.digits k + 1) * (2 ^ t.digitBits) ^ k := by
      calc
        word x.digits k * 2 ^ s * (2 ^ t.digitBits) ^ k =
            word x.digits k * (2 ^ t.digitBits) ^ k * 2 ^ s := by ring
        _ ≤ x.magnitude * 2 ^ s := Nat.mul_le_mul_right _ hbot
        _ < _ := hy
    have := Nat.lt_of_mul_lt_mul_right hld
    omega

theorem divide_start {divisor dd v u : JSBigInt t}
    {k shift : Nat} (hk : divisor.length = k + 1) (htop : word divisor.digits k ≠ 0)
    (hl : dd.length = m + (k + 1)) (hv : v.magnitude = divisor.magnitude * 2 ^ shift)
    (hu : u.magnitude = dd.magnitude * 2 ^ shift) (hul : u.length = dd.length + 1)
    (hql : qhatv.length = k + 1 + 1) (hq : ∀ r, q = some r → r.length = m + 1) :
    Divided v.magnitude (dd.magnitude * 2 ^ shift) (k + 1) m q.isSome (m + 1) q u qhatv := by
  refine ⟨rfl, by omega, hql, fun i hi => word_of_le (by unfold length at *; omega), ?_, 0, ?_,
    fun r hr => ⟨hq r hr, by simp⟩⟩
  · -- the dividend has one digit less than `u`, and the divisor's top digit is not zero
    have hsp : u.magnitude = window u.digits 0 (m + 1) +
        (2 ^ t.digitBits) ^ (m + 1) * window u.digits (m + 1) (k + 1) := by
      rw [magnitude_eq_window, show u.length = m + 1 + (k + 1) by omega, window_add, zero_add]
    have hbot := top_mul_le_window divisor.digits 0 k
    rw [zero_add, ← hk, ← magnitude_eq_window] at hbot
    have hld : (2 ^ t.digitBits) ^ k ≤ divisor.magnitude :=
      le_trans (Nat.le_mul_of_pos_left _ (pos_of_ne_zero htop)) hbot
    have hdl := dd.magnitude_lt
    apply Nat.lt_of_mul_lt_mul_left (a := (2 ^ t.digitBits) ^ (m + 1))
    calc
      (2 ^ t.digitBits) ^ (m + 1) * window u.digits (m + 1) (k + 1) ≤ u.magnitude := by omega
      _ = dd.magnitude * 2 ^ shift := hu
      _ < (2 ^ t.digitBits) ^ (m + (k + 1)) * 2 ^ shift :=
        Nat.mul_lt_mul_of_pos_right (hl ▸ hdl) (Nat.two_pow_pos shift)
      _ = (2 ^ t.digitBits) ^ (m + 1) * ((2 ^ t.digitBits) ^ k * 2 ^ shift) := by ring
      _ ≤ (2 ^ t.digitBits) ^ (m + 1) * v.magnitude := by
        rw [hv]
        exact Nat.mul_le_mul_left _ (Nat.mul_le_mul_right _ hld)
  · rw [← hu, magnitude_eq_window, show u.length = m + 1 + (k + 1) by omega]
    simp

/-- The scaling of both operands leaves the quotient and scales the remainder. -/
theorem Divided.result {V D shift n : Nat} {want : Bool}
    {u : JSBigInt t} {d : Nat} (hV : V = d * 2 ^ shift)
    (h : Divided V (D * 2 ^ shift) n m want 0 q u qhatv) :
    u.magnitude = D % d * 2 ^ shift ∧ ∀ r, q = some r → r.length = m + 1 ∧ r.magnitude = D / d := by
  have hpos := Nat.two_pow_pos shift
  have hmag : u.magnitude = window u.digits 0 n := by
    have hul := h.u_length
    rw [magnitude_eq_window, show u.length = n + (m + 1) by omega, window_add,
      (window_eq_zero_iff u.digits (0 + n) (m + 1)).mpr (fun k _ => h.high_zero _ (by omega)),
      Nat.mul_zero, Nat.add_zero]
  obtain ⟨Q, hU, hQ⟩ := h.quotient
  have hlt := h.rest_lt
  rw [Nat.zero_add, pow_zero, Nat.mul_one, ← hmag] at hU
  rw [← hmag] at hlt
  obtain ⟨hdiv, hmod⟩ := (Nat.div_mod_unique (by omega)).mpr ⟨hU.symm, hlt⟩
  rw [hV, Nat.mul_div_mul_right _ _ hpos] at hdiv
  rw [hV, mul_mod_mul_right] at hmod
  refine ⟨hmod.symm, fun r hr => ?_⟩
  obtain ⟨hl, hw⟩ := hQ r hr
  exact ⟨hl, by rw [magnitude_eq_window, hl, hdiv, ← hw, Nat.sub_zero]⟩

theorem absoluteDivWithBigIntDivisor_wp {dd divisor : JSBigInt t} (hn : 2 ≤ divisor.length)
    (hm : divisor.length ≤ dd.length)
    (htop : word divisor.digits (divisor.length - 1) ≠ 0) (wq wr : Bool) :
    wp (absoluteDivWithBigIntDivisor dd divisor wq wr) (fun (q, r) _ =>
        (wq = true → ∃ c, q = some c ∧
          c.length = dd.length - divisor.length + 1 ∧
          c.magnitude = dd.magnitude / divisor.magnitude) ∧
        (wr = true → ∃ c, r = some c ∧ c.length = dd.length + 1 ∧
          c.magnitude = dd.magnitude % divisor.magnitude))
      (fun e => e = .outOfMemoryError ∧ t.maxLength ≤ dd.length) s := by
  obtain ⟨k, hk⟩ : ∃ k, divisor.length = k + 1 := ⟨divisor.length - 1, by omega⟩
  obtain ⟨m, hl⟩ := Nat.exists_eq_add_of_le' hm
  rw [hk] at hl
  rw [hk, Nat.add_sub_cancel] at htop
  obtain ⟨hs, fits, hno⟩ := normalize hk htop
  unfold absoluteDivWithBigIntDivisor
  simp only [hk, hl, Nat.add_sub_cancel, wp_bind]
  refine wp_post (p := fun q _ => q.isSome = wq ∧
    ∀ r : JSBigInt t, q = some r → r.length = m + 1) ?_ ?_
  · cases wq
    · simp
    · simp only [if_true, wp_map]
      exact wp_createWithLengthUnchecked (fun r s' _ hr =>
        ⟨rfl, fun r' h' => by rw [← some.inj h', hr]⟩)
  rintro q s' ⟨hso, hq⟩
  refine wp_tryCreateWithLength (fun _ qhatv s' _ hql => ?_) (fun h => ⟨rfl, by omega⟩)
  rw [wp_digit (by omega)]
  generalize clz (divisor.digits.getD k 0) = shift at *
  refine wp_post (p := fun v _ => v.length = k + 1 ∧
    v.magnitude = divisor.magnitude * 2 ^ shift) ?_ ?_
  · split_ifs with h0
    · refine wp_mono (absoluteLeftShiftAlwaysCopy_same_wp (by omega) (by omega) (hk ▸ fits))
        (fun r s' h => ⟨h.1.trans hk, h.2⟩) ?_
      rintro e ⟨he, hlo⟩
      exact ⟨he, by omega⟩
    · rw [wp_pure]
      exact ⟨hk, by rw [show shift = 0 by omega, pow_zero, mul_one]⟩
  rintro v s' ⟨hvl, hv⟩
  refine wp_mono (absoluteLeftShiftAlwaysCopy_grow_wp (le_of_lt hs)) ?_ ?_
  · rintro u s' ⟨hul, hu⟩
    rw [wp_digit (by omega)]
    have start := divide_start hk htop hl hv hu hul hql hq
    refine wp_post (divideLoop_wp (by omega) hvl rfl (hno v hvl hv) start) ?_
    rintro ⟨q, u, qhatv⟩ s' hd
    obtain ⟨hum, hqm⟩ := hd.result hv
    have hul := hd.u_length
    have hqu : wq = true → ∃ c, q = some c ∧ c.length = m + 1 ∧
        c.magnitude = dd.magnitude / divisor.magnitude := by
      intro hw
      obtain ⟨c, hc⟩ := isSome_iff_exists.mp (hd.wanted.trans (hso.trans hw))
      exact ⟨c, hc, hqm c hc⟩
    cases wr
    · simp only [Bool.false_eq_true, if_false, wp_pure]
      exact ⟨hqu, fun h => h.elim⟩
    · simp only [if_true]
      refine wp_seq (inplaceRightShift_wp (by omega) (le_of_lt hs)) ?_
      rintro r s' ⟨hrl, hrm⟩
      refine ⟨hqu, fun _ => ⟨r, rfl, by omega, ?_⟩⟩
      rw [hrm, hum, Nat.mul_div_cancel _ (Nat.two_pow_pos shift)]
  · rintro e ⟨he, hlo⟩
    exact ⟨he, by omega⟩

end AlgorithmD

section Results

variable {s : Heap t} {x y : JSBigInt t}

theorem tdiv_signed (a b : Bool) (m n : Nat) :
    (signed a m).tdiv (signed b n) = signed (a ≠ b) (m / n) := by
  cases a <;> cases b <;> simp [Int.neg_tdiv, Int.tdiv_neg]

theorem tmod_signed (a b : Bool) (m n : Nat) :
    (signed a m).tmod (signed b n) = signed a (m % n) := by
  cases a <;> cases b <;>
    simp [Int.neg_tmod, Int.tmod_neg, Int.tmod_eq_emod_of_nonneg (Int.natCast_nonneg m)]

/-- The checks at the head of both operations. -/
theorem checked_wp (hx : x.Canonical) (hy : y.Canonical) (hy0 : y.length ≠ 0)
    {small large : Run t (JSBigInt t)} {post : JSBigInt t → Heap t → Prop} {exc : Exception → Prop}
    (hsmall : x.magnitude < y.magnitude → ∀ s', wp small post exc s')
    (hlarge : y.length ≤ x.length → 0 < y.magnitude → ∀ s', wp large post exc s') :
    wp (do
      if y.isZero then throw (.rangeError "0 is an invalid divisor value.")
      if (← absoluteCompare x y) = .lessThan then small else large) post exc s := by
  have hz : y.isZero = false := by simpa [isZero] using hy0
  simp only [hz, Bool.false_eq_true, if_false]
  refine wp_seq (absoluteCompare_wp hx hy) ?_
  rintro c s' rfl
  by_cases hlt : x.magnitude < y.magnitude
  · rw [ComparisonResult.of_lt hlt, if_pos rfl]
    exact hsmall hlt s'
  · rw [if_neg (ComparisonResult.of_ne_lessThan hlt)]
    exact hlarge (hy.length_le_of_magnitude_le (lt_of_le_of_lt (Nat.le_of_not_lt hlt)
      x.magnitude_lt)) (Nat.pos_of_ne_zero fun h => hy0 (hy.magnitude_eq_zero_iff.mp h)) s'

theorem divide_wp (hx : x.Canonical) (hy : y.Canonical) (hy0 : y.length ≠ 0) :
    wp (divide x y) (fun q _ => Denotes (x.toInt.tdiv y.toInt) x.length q)
      (fun e => e = .outOfMemoryError ∧ t.maxLength ≤ x.length) s := by
  have hqu : x.magnitude / y.magnitude < (2 ^ t.digitBits) ^ x.length :=
    lt_of_le_of_lt (Nat.div_le_self _ _) x.magnitude_lt
  rw [toInt, toInt, tdiv_signed]
  refine checked_wp hx hy hy0 (fun hlt s' => createZero_wp ?_) fun hle hyp s' => ?_
  · rw [div_eq_of_lt hlt, signed_zero]
  by_cases hone : y.length = 1
  · have hym := toNat_digit_of_length_one hone
    simp only [hone, if_true, wp_bind, wp_digit (show 0 < y.length by omega)]
    by_cases hd : y.digits.getD 0 0 = 1
    · rw [if_pos hd]
      rw [hd, toNat_one] at hym
      rw [← hym, Nat.div_one]
      exact sameOrMinus_wp hx _
    · rw [if_neg hd]
      refine wp_seq (absoluteDivWithDigitDivisor_wp (hym ▸ hyp) .unallocated (by decide)) ?_
      rintro ⟨q, rem⟩ s' ⟨r, rfl, hrl, hrm, -⟩
      rw [hym] at hrm
      exact signAndTrim_wp (by rw [getD_some]; omega) hrm hqu
  · simp only [hone, if_false]
    refine wp_seq (absoluteDivWithBigIntDivisor_wp (by omega) hle (hy.top_nonzero hy0)
      true false) ?_
    rintro ⟨q, rem⟩ s' ⟨hq, -⟩
    obtain ⟨r, rfl, hrl, hrm⟩ := hq rfl
    exact signAndTrim_wp (by rw [getD_some]; omega) hrm hqu

theorem remainder_wp (hx : x.Canonical) (hy : y.Canonical) (hy0 : y.length ≠ 0) :
    wp (remainder x y) (fun r _ => Denotes (x.toInt.tmod y.toInt) x.length r)
      (fun e => e = .outOfMemoryError ∧ t.maxLength ≤ x.length) s := by
  have hrem : x.magnitude % y.magnitude < (2 ^ t.digitBits) ^ x.length :=
    lt_of_le_of_lt (mod_le _ _) x.magnitude_lt
  rw [toInt, toInt, tmod_signed]
  refine checked_wp hx hy hy0 (fun hlt s' => ?_) fun hle hyp s' => ?_
  · rw [mod_eq_of_lt hlt, wp_pure]
    exact ⟨hx, rfl, le_refl _⟩
  by_cases hone : y.length = 1
  · have hym := toNat_digit_of_length_one hone
    simp only [hone, if_true, wp_bind, wp_digit (show 0 < y.length by omega)]
    split_ifs with hd
    · rw [hd, toNat_one] at hym
      exact createZero_wp (by rw [← hym, mod_one, signed_zero])
    refine wp_seq (remainderDigit_wp (hym ▸ hyp)) ?_
    rintro ⟨q, rem⟩ s' hrm
    rw [hym] at hrm
    by_cases hr0 : rem = 0
    · rw [if_pos hr0]
      exact createZero_wp (by rw [← hrm, hr0]; exact signed_zero _)
    · rw [if_neg hr0, wp_bind]
      refine wp_createWithLengthUnchecked (fun r s' _ hl => ?_)
      rw [wp_bind, wp_setDigit (by omega), digits_set_single hl]
      exact signAndTrim_wp (by simp [length]) (by simpa [magnitude] using hrm) hrem
  · simp only [hone, if_false]
    refine wp_seq (absoluteDivWithBigIntDivisor_wp (by omega) hle (hy.top_nonzero hy0)
      false true) ?_
    rintro ⟨q, rem⟩ s' ⟨-, hr⟩
    obtain ⟨r, rfl, hrl, hrm⟩ := hr rfl
    exact signAndTrim_wp (by rw [getD_some]; omega) hrm hrem

/-- Quotient and remainder of canonical operands are canonical, satisfy the division
equation, and fail for lack of memory only when the dividend is already as long as a
BigInt can be. -/
theorem divide_remainder_exact (hx : x.Canonical) (hy : y.Canonical) (hy0 : y.toInt ≠ 0)
    (heap : Heap t) :
    wp (divide x y) (fun q _ => q.Canonical ∧ q.toInt = x.toInt.tdiv y.toInt)
        (fun e => e = .outOfMemoryError ∧ ¬ x.length < t.maxLength) heap ∧
      wp (remainder x y)
        (fun r _ => r.Canonical ∧ x.toInt = y.toInt * x.toInt.tdiv y.toInt + r.toInt ∧
          r.toInt.natAbs < y.toInt.natAbs ∧ (r.toInt = 0 ∨ r.sign = x.sign))
        (fun e => e = .outOfMemoryError ∧ ¬ x.length < t.maxLength) heap := by
  have hyl : y.length ≠ 0 := fun h => hy0 (hy.toInt_eq_zero_iff.mpr h)
  have hexc : ∀ e : Exception, e = .outOfMemoryError ∧ t.maxLength ≤ x.length →
      e = .outOfMemoryError ∧ ¬ x.length < t.maxLength := fun e h => ⟨h.1, by omega⟩
  refine ⟨wp_mono (divide_wp hx hy hyl) (fun q _ h => ⟨h.canonical, h.toInt_eq⟩) hexc,
    wp_mono (remainder_wp hx hy hyl) (fun r _ h => ⟨h.canonical, ?_, ?_, ?_⟩) hexc⟩
  · rw [h.toInt_eq, Int.mul_tdiv_add_tmod]
  · have hpos : 0 < y.magnitude := by
      rw [← natAbs_toInt]
      omega
    rw [h.toInt_eq, toInt, toInt, tmod_signed, natAbs_signed, natAbs_signed]
    exact mod_lt _ hpos
  · -- a nonzero canonical remainder carries the sign of its integer
    have hr := h.toInt_eq
    rw [toInt, toInt, toInt, tmod_signed] at hr
    by_cases hz : r.toInt = 0
    · exact .inl hz
    · right
      have hmag : r.magnitude ≠ 0 := by
        rw [← natAbs_toInt]
        omega
      cases hs : r.sign <;> cases hs' : x.sign <;> simp [hs, hs'] at hr ⊢ <;> omega

theorem divide_remainder_exact_at :
    wp (divide (t := ⟨true, true, true⟩) ⟨true, [0, 0, 0x8000000000000000]⟩
        ⟨false, [0xffffffffffffffff, 0x8000000000000000]⟩)
      (fun q _ => q.Canonical ∧ q.toInt = -18446744073709551614)
      (fun e => e = .outOfMemoryError ∧ ¬ 3 < 16384) ⟨0, fun _ _ => 0⟩ := by
  have hx : Canonical (⟨true, [0, 0, 0x8000000000000000]⟩ : JSBigInt ⟨true, true, true⟩) :=
    ⟨by decide, by decide⟩
  have hy : Canonical (⟨false, [0xffffffffffffffff, 0x8000000000000000]⟩ :
      JSBigInt ⟨true, true, true⟩) := ⟨by decide, by decide⟩
  exact (divide_remainder_exact hx hy (by decide) ⟨0, fun _ _ => 0⟩).1

end Results

end JavaScriptCore.Runtime.JSBigInt
