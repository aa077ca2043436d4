import JavaScriptCore.Runtime.JSBigInt.AddSub

/-!
# Multiplication

`runtime/JSBigInt.cpp:233-260, 700-778`. A row of the schoolbook product adds the
multiplicand, scaled by one digit, into the accumulator. What a column passes on is a
high word and a count of carries; the two together never exceed a digit, and that is
what keeps the additions from losing a carry.
-/

namespace JavaScriptCore.Runtime.JSBigInt

open JavaScriptCore.ProgramLogic JavaScriptCore.Numeral

variable {t : Target}

/-- `source` is empty when the caller passes one cell as source and result. -/
def internalMultiplyAdd (source : Option (JSBigInt t)) (factor summand : t.Digit) (n : Nat)
    (result : JSBigInt t) : Run t (JSBigInt t) := do
  let (carry, high, result) ← forUp 0 n (summand, (0 : t.Digit), result)
    fun i (carry, high, result) => do
      let current ← (source.getD result).digit i
      let (current, newHigh) := digitMul t current factor
      let (current, newCarry) := digitAdd current high 0
      let (current, newCarry) := digitAdd current carry newCarry
      return (newCarry, newHigh, ← result.setDigit i current)
  if result.length > n then do
    let result ← result.setDigit n (carry + high)
    forUp (n + 1) result.length result fun n result => result.setDigit n 0
  else return result

def inplaceMultiplyAdd (x : JSBigInt t) (factor summand : t.Digit) : Run t (JSBigInt t) :=
  internalMultiplyAdd none factor summand x.length x

def multiplyAccumulate (multiplicand : JSBigInt t) (multiplier : t.Digit)
    (accumulator : JSBigInt t) (accumulatorIndex : Nat) : Run t (JSBigInt t) := do
  if multiplier = 0 then return accumulator
  let (carry, high, accumulator) ← forUp 0 multiplicand.length
    ((0 : t.Digit), (0 : t.Digit), accumulator) fun i (carry, high, accumulator) => do
      let acc ← accumulator.digit (accumulatorIndex + i)
      let (acc, newCarry) := digitAdd acc high 0
      let (acc, newCarry) := digitAdd acc carry newCarry
      let multiplicandDigit ← multiplicand.digit i
      let (low, high) := digitMul t multiplier multiplicandDigit
      let (acc, newCarry) := digitAdd acc low newCarry
      return (newCarry, high, ← accumulator.setDigit (accumulatorIndex + i) acc)
  -- the index grows in every round, so leaving the storage precedes using up the budget
  let (_, _, _, accumulator) ← whileLoop (accumulator.length + 1) .budgetExhausted
    (accumulatorIndex + multiplicand.length, carry, high, accumulator)
    (fun (_, carry, high, _) => carry ≠ 0 ∨ high ≠ 0)
    fun (accumulatorIndex, carry, high, accumulator) => do
      let acc ← accumulator.digit accumulatorIndex
      let (acc, newCarry) := digitAdd acc high 0
      let (acc, newCarry) := digitAdd acc carry newCarry
      let accumulator ← accumulator.setDigit accumulatorIndex acc
      return (accumulatorIndex + 1, newCarry, 0, accumulator)
  return accumulator

def multiply (x y : JSBigInt t) : Run t (JSBigInt t) := do
  if x.isZero then return x
  if y.isZero then return y
  let result ← tryCreateWithLength (x.length + y.length)
  let result ← forUp 0 x.length result.initializeWithZero fun i result => do
    multiplyAccumulate y (← x.digit i) result i
  (result.setSign (x.sign ≠ y.sign)).rightTrim

section Columns

/-- The column of `internalMultiplyAdd`. -/
theorem multiplyAdd_column (cur factor : t.Digit) {high carry : t.Digit}
    (hin : high.toNat + carry.toNat < 2 ^ t.digitBits) :
    let prod := digitMul t cur factor
    let first := digitAdd prod.1 high 0
    let second := digitAdd first.1 carry first.2
    second.1.toNat + (prod.2.toNat + second.2.toNat) * 2 ^ t.digitBits =
        cur.toNat * factor.toNat + (high.toNat + carry.toNat) ∧
      prod.2.toNat + second.2.toNat < 2 ^ t.digitBits := by
  have hw := radix_gt t
  have hp := digitMul_spec t cur factor
  generalize digitMul t cur factor = prod at *
  obtain ⟨h1, h1'⟩ := digitAdd_zero_spec (by omega) prod.1 high
  dsimp only
  generalize digitAdd prod.1 high 0 = first at *
  obtain ⟨h2, -⟩ := digitAdd_spec first.1 carry first.2 (by omega)
  generalize digitAdd first.1 carry first.2 = second at *
  have hsum : second.1.toNat + (prod.2.toNat + second.2.toNat) * 2 ^ t.digitBits =
      cur.toNat * factor.toNat + (high.toNat + carry.toNat) := by
    rw [add_mul]
    omega
  exact ⟨hsum, column_out_lt (v := second.1.toNat) (d := 0) (by omega) cur.isLt
    factor.isLt (by omega)⟩

/-- The column of `multiplyAccumulate`. -/
theorem multiplyAccumulate_column (acc mr md : t.Digit) {high carry : t.Digit}
    (hin : high.toNat + carry.toNat < 2 ^ t.digitBits) :
    let first := digitAdd acc high 0
    let second := digitAdd first.1 carry first.2
    let prod := digitMul t mr md
    let third := digitAdd second.1 prod.1 second.2
    third.1.toNat + (prod.2.toNat + third.2.toNat) * 2 ^ t.digitBits =
        acc.toNat + mr.toNat * md.toNat + (high.toNat + carry.toNat) ∧
      prod.2.toNat + third.2.toNat < 2 ^ t.digitBits := by
  have hw := radix_gt t
  have hp := digitMul_spec t mr md
  generalize digitMul t mr md = prod at *
  obtain ⟨h1, h1'⟩ := digitAdd_zero_spec (by omega) acc high
  dsimp only
  generalize digitAdd acc high 0 = first at *
  obtain ⟨h2, h2'⟩ := digitAdd_spec first.1 carry first.2 (by omega)
  generalize digitAdd first.1 carry first.2 = second at *
  obtain ⟨h3, -⟩ := digitAdd_spec second.1 prod.1 second.2 (by omega)
  generalize digitAdd second.1 prod.1 second.2 = third at *
  have hsum : third.1.toNat + (prod.2.toNat + third.2.toNat) * 2 ^ t.digitBits =
      acc.toNat + mr.toNat * md.toNat + (high.toNat + carry.toNat) := by
    rw [add_mul]
    omega
  exact ⟨hsum, column_out_lt (v := third.1.toNat) acc.isLt mr.isLt md.isLt (by omega)⟩

end Columns

section Rows

variable {exc : Exception → Prop} {s : Heap t}

/-- The accumulator's digits after a row has written the first `i` of them. -/
structure RowDone (A : JSBigInt t) (a i S : Nat) (out : Nat) (r : JSBigInt t) : Prop where
  length_eq : r.length = A.length
  below : ∀ k, k < a → word r.digits k = word A.digits k
  above : ∀ k, a + i ≤ k → word r.digits k = word A.digits k
  sum : window r.digits a i + out * (2 ^ t.digitBits) ^ i = window A.digits a i + S
  out_lt : out < 2 ^ t.digitBits

variable {A r : JSBigInt t} {a S : Nat}

theorem RowDone.next {i c c' p : Nat} {d : t.Digit}
    (h : RowDone A a i S c r) (hi : a + i < r.length)
    (column : d.toNat + c' * 2 ^ t.digitBits = word A.digits (a + i) + p + c)
    (hc' : c' < 2 ^ t.digitBits) :
    RowDone A a (i + 1) (S + p * (2 ^ t.digitBits) ^ i) c'
      { r with digits := r.digits.set (a + i) d } := by
  refine ⟨by simpa using h.length_eq, fun k hk => ?_, fun k hk => ?_, ?_, hc'⟩
  · rw [word_set_ne (by omega), h.below k hk]
  · rw [word_set_ne (by omega), h.above k (by omega)]
  · rw [window_set_top hi, pow_succ, carry_step h.sum column, window_succ]
    ring

theorem multiplyAccumulate_row_wp {md : JSBigInt t} {mr : t.Digit}
    (hlen : a + md.length ≤ A.length) :
    wp (forUp 0 md.length ((0 : t.Digit), (0 : t.Digit), A)
        fun i (carry, high, accumulator) => do
          let acc ← accumulator.digit (a + i)
          let (acc, newCarry) := digitAdd acc high 0
          let (acc, newCarry) := digitAdd acc carry newCarry
          let multiplicandDigit ← md.digit i
          let (low, high) := digitMul t mr multiplicandDigit
          let (acc, newCarry) := digitAdd acc low newCarry
          return (newCarry, high, ← accumulator.setDigit (a + i) acc))
      (fun (carry, high, r) _ => RowDone A a md.length
        (mr.toNat * md.magnitude) (high.toNat + carry.toNat) r) exc s := by
  rw [magnitude_eq_window]
  refine wp_forUp (fun i (c : t.Digit × t.Digit × JSBigInt t) _ => RowDone A a i
    (mr.toNat * window md.digits 0 i) (c.2.1.toNat + c.1.toNat) c.2.2)
    (Nat.zero_le _) ⟨rfl, fun _ _ => rfl, fun _ _ => rfl, by simp, by simp⟩ ?_
  rintro i ⟨carry, high, r⟩ s' - hi hrow
  dsimp only at hrow
  have hr : a + i < r.length := by have := hrow.length_eq; omega
  obtain ⟨column, hout⟩ := multiplyAccumulate_column (r.digits.getD (a + i) 0) mr
    (md.digits.getD i 0) hrow.out_lt
  simp only [wp_bind, wp_digit hr, wp_digit hi, wp_setDigit hr, wp_pure]
  have hold : (r.digits.getD (a + i) 0).toNat = word A.digits (a + i) := hrow.above _ (by omega)
  rw [hold] at column
  have next := hrow.next hr column hout
  have hS : mr.toNat * window md.digits 0 i +
      mr.toNat * (md.digits.getD i 0).toNat * (2 ^ t.digitBits) ^ i =
      mr.toNat * window md.digits 0 (i + 1) := by
    rw [window_succ, zero_add, word]
    ring
  rwa [hS] at next

theorem multiplyAccumulate_carry_wp {n fuel : Nat} {carry high : t.Digit}
    (hrow : RowDone A a n S (high.toNat + carry.toNat) r) (hn : a + n ≤ A.length)
    (hf : A.length + 1 ≤ fuel)
    (fits : window A.digits a (A.length - a) + S < (2 ^ t.digitBits) ^ (A.length - a)) :
    wp (whileLoop fuel .budgetExhausted (a + n, carry, high, r)
        (fun (_, carry, high, _) => carry ≠ 0 ∨ high ≠ 0)
        fun (accumulatorIndex, carry, high, accumulator) => do
          let acc ← accumulator.digit accumulatorIndex
          let (acc, newCarry) := digitAdd acc high 0
          let (acc, newCarry) := digitAdd acc carry newCarry
          let accumulator ← accumulator.setDigit accumulatorIndex acc
          return (accumulatorIndex + 1, newCarry, 0, accumulator))
      (fun (_, _, _, r) _ => ∃ i, a + i ≤ A.length ∧ RowDone A a i S 0 r) exc s := by
  have hw := radix_gt t
  refine wp_post (wp_whileLoop (fun (c : Nat × t.Digit × t.Digit × JSBigInt t) _ =>
    ∃ i, c.1 = a + i ∧ a + i ≤ A.length ∧ RowDone A a i S (c.2.2.1.toNat + c.2.1.toNat) c.2.2.2)
    (fun c => A.length + 1 - c.1) fuel (by dsimp only; omega) ⟨n, rfl, hn, hrow⟩ ?_) ?_
  · rintro ⟨index, carry, high, r⟩ s' ht ⟨i, rfl, hi, hrow⟩
    dsimp only at hrow
    have hout : high.toNat + carry.toNat ≠ 0 := by
      intro h0
      have hc : carry = 0 := BitVec.eq_of_toNat_eq (by simp; omega)
      have hh : high = 0 := BitVec.eq_of_toNat_eq (by simp; omega)
      simp [hc, hh] at ht
    have hlt : a + i < A.length := by
      by_contra hge
      have hend : A.length - a = i := by omega
      rw [hend] at fits
      exact hout (carry_eq_zero hrow.sum fits)
    have hr : a + i < r.length := by have := hrow.length_eq; omega
    refine ⟨by dsimp only; omega, ?_⟩
    obtain ⟨h1, h1'⟩ := digitAdd_zero_spec (by omega) (r.digits.getD (a + i) 0) high
    obtain ⟨h2, -⟩ := digitAdd_spec (digitAdd (r.digits.getD (a + i) 0) high 0).1 carry
      (digitAdd (r.digits.getD (a + i) 0) high 0).2 (by omega)
    simp only [wp_bind, wp_digit hr, wp_setDigit hr, wp_pure]
    have hold : (r.digits.getD (a + i) 0).toNat = word A.digits (a + i) := hrow.above _ (by omega)
    refine ⟨⟨i + 1, by omega, by omega, ?_⟩, by omega⟩
    have next := hrow.next (p := 0) hr (h2.trans (by rw [← hold]; omega)) (BitVec.isLt _)
    simpa using next
  · rintro ⟨index, carry, high, r⟩ s' ⟨⟨i, -, hi, hrow⟩, ht⟩
    simp only [ne_eq, decide_eq_false_iff_not, not_or, not_not] at ht
    exact ⟨i, hi, by simpa [ht.1, ht.2] using hrow⟩

/-- One row of the product. The sum must fit the accumulator, as the source asks of
its callers; then the carry loop stays inside it. -/
theorem multiplyAccumulate_wp {md : JSBigInt t} {mr : t.Digit} (hlen : a + md.length ≤ A.length)
    (fits : window A.digits a (A.length - a) + mr.toNat * md.magnitude <
      (2 ^ t.digitBits) ^ (A.length - a)) :
    wp (multiplyAccumulate md mr A a) (fun r _ => r.length = A.length ∧ r.magnitude = A.magnitude +
        mr.toNat * md.magnitude * (2 ^ t.digitBits) ^ a) exc s := by
  unfold multiplyAccumulate
  by_cases h0 : mr = 0
  · simp [h0]
  simp only [h0, if_false, wp_bind]
  refine wp_post (multiplyAccumulate_row_wp hlen) ?_
  rintro ⟨carry, high, r⟩ s' hrow
  dsimp only at hrow ⊢
  refine wp_post (multiplyAccumulate_carry_wp hrow hlen (by have := hrow.length_eq; omega) fits) ?_
  rintro ⟨index, carry, high, r⟩ s' ⟨i, hi, hrow⟩
  refine ⟨hrow.length_eq, ?_⟩
  obtain ⟨k, hk⟩ := Nat.exists_eq_add_of_le hi
  have hsum := hrow.sum
  rw [zero_mul, add_zero] at hsum
  rw [magnitude_eq_window, magnitude_eq_window A, hrow.length_eq, hk, window_add _ _ (a + i),
    window_add _ _ (a + i), window_add _ _ a, window_add _ _ a, zero_add, zero_add, hsum,
    show window r.digits 0 a = window A.digits 0 a from
      window_congr (fun k _ h => hrow.below k (by omega)),
    show window r.digits (a + i) k = window A.digits (a + i) k from
      window_congr (fun k h _ => hrow.above k h)]
  ring

end Rows

section MultiplyAdd

variable {exc : Exception → Prop} {s : Heap t}

theorem internalMultiplyAdd_loop_wp (src : Option (JSBigInt t)) (factor sm : t.Digit)
    {n : Nat} {res : JSBigInt t} (hs : n ≤ (src.getD res).length) (hr : n ≤ res.length) :
    wp (forUp 0 n (sm, (0 : t.Digit), res) fun i (carry, high, res) => do
        let cur ← (src.getD res).digit i
        let (cur, newHigh) := digitMul t cur factor
        let (cur, newCarry) := digitAdd cur high 0
        let (cur, newCarry) := digitAdd cur carry newCarry
        return (newCarry, newHigh, ← res.setDigit i cur))
      (fun (carry, high, r) _ => r.sign = res.sign ∧ r.length = res.length ∧
        high.toNat + carry.toNat < 2 ^ t.digitBits ∧
        window r.digits 0 n + (high.toNat + carry.toNat) * (2 ^ t.digitBits) ^ n =
          window (src.getD res).digits 0 n * factor.toNat + sm.toNat) exc s := by
  refine wp_post (wp_forUp (fun i (c : t.Digit × t.Digit × JSBigInt t) _ =>
    c.2.2.sign = res.sign ∧ c.2.2.length = res.length ∧
    (∀ k, i ≤ k → word c.2.2.digits k = word res.digits k) ∧
    c.2.1.toNat + c.1.toNat < 2 ^ t.digitBits ∧
    window c.2.2.digits 0 i + (c.2.1.toNat + c.1.toNat) * (2 ^ t.digitBits) ^ i =
      window (src.getD res).digits 0 i * factor.toNat + sm.toNat) (Nat.zero_le _)
    ⟨rfl, rfl, fun _ _ => rfl, by simp [BitVec.isLt], by simp⟩ ?_)
    (fun c s' h => ⟨h.1, h.2.1, h.2.2.2⟩)
  rintro i ⟨carry, high, r⟩ s' - hi ⟨hsg, hl, hre, hout, hsum⟩
  dsimp only at hsg hl hre hout hsum
  obtain ⟨hrd, hsl⟩ := getD_unwritten src hl (hre i (le_refl _))
  obtain ⟨column, ho'⟩ := multiplyAdd_column ((src.getD r).digits.getD i 0) factor hout
  simp only [wp_bind, wp_digit (show i < (src.getD r).length by omega),
    wp_setDigit (show i < r.length by omega), wp_pure]
  refine ⟨hsg, by simpa using hl, fun k hk => ?_, ho', ?_⟩
  · rw [word_set_ne (by omega), hre k (by omega)]
  · rw [window_set_next (show i < r.length by omega), pow_succ,
      carry_step hsum column, window_succ, zero_add, hrd, word]
    ring

theorem internalMultiplyAdd_wp (src : Option (JSBigInt t)) (factor sm : t.Digit)
    {n : Nat} {res : JSBigInt t} (hs : n ≤ (src.getD res).length) (hr : n ≤ res.length)
    (fits : n < res.length ∨ window (src.getD res).digits 0 n * factor.toNat +
      sm.toNat < (2 ^ t.digitBits) ^ n) :
    wp (internalMultiplyAdd src factor sm n res)
      (fun r _ => r.sign = res.sign ∧ r.length = res.length ∧
        r.magnitude = window (src.getD res).digits 0 n * factor.toNat + sm.toNat)
      exc s := by
  unfold internalMultiplyAdd
  refine wp_seq (internalMultiplyAdd_loop_wp src factor sm hs hr) ?_
  rintro ⟨carry, high, r⟩ s' ⟨hsg, hl, hout, hsum⟩
  dsimp only
  split_ifs with hlo
  · rw [add_comm high.toNat] at hout hsum
    rw [wp_bind, wp_setDigit hlo]
    refine wp_post (zeroDigits_wp (by rw [length_set]; omega)) ?_
    rintro r' s'' ⟨hs', hl', hmag⟩
    refine ⟨hs'.trans hsg, by rw [hl', length_set, hl], ?_⟩
    rw [hmag, window_set_next hlo, BitVec.toNat_add_of_lt hout, hsum]
  · rw [wp_pure]
    refine ⟨hsg, hl, ?_⟩
    have hn : r.length = n := by omega
    rw [carry_eq_zero hsum (fits.resolve_left (by omega)), zero_mul, add_zero] at hsum
    rw [magnitude_eq_window, hn, hsum]

theorem inplaceMultiplyAdd_wp {x : JSBigInt t} {factor sm : t.Digit}
    (fits : x.magnitude * factor.toNat + sm.toNat < (2 ^ t.digitBits) ^ x.length) :
    wp (inplaceMultiplyAdd x factor sm) (fun r _ => r.sign = x.sign ∧ r.length = x.length ∧
        r.magnitude = x.magnitude * factor.toNat + sm.toNat) exc s := by
  rw [magnitude_eq_window] at fits ⊢
  exact internalMultiplyAdd_wp none factor sm (le_refl _) (le_refl _) (.inr fits)

end MultiplyAdd

section Results

variable {s : Heap t} {x y : JSBigInt t}

theorem multiply_rows_wp {exc : Exception → Prop} {res : JSBigInt t}
    (hlen : res.length = x.length + y.length) :
    wp (forUp 0 x.length res.initializeWithZero fun i res => do
        multiplyAccumulate y (← x.digit i) res i)
      (fun r _ => r.length = x.length + y.length ∧
        r.magnitude = x.magnitude * y.magnitude) exc s := by
  rw [magnitude_eq_window x]
  refine wp_forUp (fun i (r : JSBigInt t) _ => r.length = x.length + y.length ∧
    r.magnitude = window x.digits 0 i * y.magnitude) (Nat.zero_le _) ⟨?_, ?_⟩ ?_
  · rw [length_initializeWithZero, hlen]
  · rw [window_zero, zero_mul, magnitude_initializeWithZero]
  · rintro i r s' - hi ⟨hl, hmag⟩
    rw [wp_bind, wp_digit hi]
    have hro : r.magnitude + word x.digits i * y.magnitude * (2 ^ t.digitBits) ^ i =
        window x.digits 0 (i + 1) * y.magnitude := by
      rw [hmag, window_succ, zero_add]
      ring
    refine wp_post (multiplyAccumulate_wp (by omega) (window_fits (by omega) ?_))
      (fun r' s' hr => ⟨by omega, ?_⟩)
    · rw [← magnitude_eq_window]
      refine lt_of_eq_of_lt hro ?_
      calc
        window x.digits 0 (i + 1) * y.magnitude <
            (2 ^ t.digitBits) ^ (i + 1) * (2 ^ t.digitBits) ^ y.length :=
          Nat.mul_lt_mul'' (window_lt _ _ _) y.magnitude_lt
        _ = (2 ^ t.digitBits) ^ (i + 1 + y.length) := (pow_add _ _ _).symm
        _ ≤ (2 ^ t.digitBits) ^ r.length := Nat.pow_le_pow_right (radix_pos t) (by omega)
    · rw [hr.2]
      exact hro

theorem multiply_wp (hx : x.Canonical) (hy : y.Canonical) :
    wp (multiply x y)
      (fun r _ => Denotes (x.toInt * y.toInt) (max (max x.length y.length) t.maxLength) r)
      (fun e => e = .outOfMemoryError ∧ x.length ≠ 0 ∧ y.length ≠ 0 ∧
        t.maxLength < x.length + y.length) s := by
  unfold multiply
  by_cases hx0 : x.isZero = true
  · have hz := hx.toInt_eq_zero_iff.mpr ((isZero_iff x).mp hx0)
    simp only [hx0, if_true, wp_pure]
    exact ⟨hx, by rw [hz, Int.zero_mul], by omega⟩
  have hxl : x.length ≠ 0 := fun h => hx0 ((isZero_iff x).mpr h)
  simp only [hx0, Bool.false_eq_true, if_false]
  by_cases hy0 : y.isZero = true
  · have hz := hy.toInt_eq_zero_iff.mpr ((isZero_iff y).mp hy0)
    simp only [hy0, if_true, wp_pure]
    exact ⟨hy, by rw [hz, Int.mul_zero], by omega⟩
  have hyl : y.length ≠ 0 := fun h => hy0 ((isZero_iff y).mpr h)
  simp only [hy0, Bool.false_eq_true, if_false, wp_bind]
  refine wp_tryCreateWithLength (fun hro r s' _ hl => ?_) (fun hlo => ⟨rfl, hxl, hyl, hlo⟩)
  refine wp_post (multiply_rows_wp hl) ?_
  rintro r s' ⟨hl, hmag⟩
  have hsign : x.toInt * y.toInt = signed (x.sign ≠ y.sign) (x.magnitude * y.magnitude) := by
    rw [toInt, toInt]
    cases x.sign <;> cases y.sign <;> simp
  rw [hsign]
  refine signAndTrim_wp (by omega) hmag (hmag ▸ lt_of_lt_of_le r.magnitude_lt ?_)
  exact Nat.pow_le_pow_right (radix_pos t) (by omega)

/-- The three arithmetic operations are exact on canonical operands and restore the
form. The only failure is the allocation of a result that could not be stored, and the
carry of a row is absorbed before the accumulator ends. -/
theorem multiply_add_sub_exact (hx : x.Canonical) (hy : y.Canonical) (heap : Heap t) :
    wp (multiply x y) (fun r _ => r.Canonical ∧ r.toInt = x.toInt * y.toInt)
        (fun e => e = .outOfMemoryError ∧ x.toInt ≠ 0 ∧ y.toInt ≠ 0 ∧
          x.length + y.length > t.maxLength) heap ∧
      wp (add x y) (fun r _ => r.Canonical ∧ r.toInt = x.toInt + y.toInt)
        (fun e => e = .outOfMemoryError ∧ max x.length y.length ≥ t.maxLength) heap ∧
      wp (sub x y) (fun r _ => r.Canonical ∧ r.toInt = x.toInt - y.toInt)
        (fun e => e = .outOfMemoryError ∧ max x.length y.length ≥ t.maxLength) heap ∧
      ∀ (multiplicand accumulator : JSBigInt t) (multiplier : t.Digit) (index : Nat),
        accumulator.length > multiplicand.length + index →
        accumulator.magnitude +
            multiplier.toNat * multiplicand.magnitude * (2 ^ t.digitBits) ^ index <
          (2 ^ t.digitBits) ^ accumulator.length →
        wp (multiplyAccumulate multiplicand multiplier accumulator index)
          (fun r _ => r.length = accumulator.length ∧ r.magnitude = accumulator.magnitude +
            multiplier.toNat * multiplicand.magnitude * (2 ^ t.digitBits) ^ index)
          (fun _ => False) heap := by
  refine ⟨?_, ?_, ?_, ?_⟩
  · refine wp_mono (multiply_wp hx hy) (fun r _ h => ⟨h.canonical, h.toInt_eq⟩) ?_
    rintro e ⟨he, hxl, hyl, hlong⟩
    exact ⟨he, fun h => hxl (hx.toInt_eq_zero_iff.mp h),
      fun h => hyl (hy.toInt_eq_zero_iff.mp h), hlong⟩
  · exact wp_post (add_wp hx hy) (fun r _ h => ⟨h.canonical, h.toInt_eq⟩)
  · exact wp_post (sub_wp hx hy) (fun r _ h => ⟨h.canonical, h.toInt_eq⟩)
  · intro multiplicand accumulator multiplier index hlen fits
    refine multiplyAccumulate_wp (by omega) ?_
    rw [magnitude_eq_window accumulator] at fits
    exact window_fits (by omega) fits

theorem multiply_add_sub_exact_at :
    wp (multiply (t := ⟨true, true, true⟩) ⟨true, [0xffffffffffffffff]⟩ ⟨false, [5]⟩)
      (fun r _ => r.Canonical ∧ r.toInt = -92233720368547758075)
      (fun e => e = .outOfMemoryError ∧ 2 > 16384) ⟨0, fun _ _ => 0⟩ := by
  have h := (multiply_add_sub_exact (t := ⟨true, true, true⟩)
    (x := ⟨true, [0xffffffffffffffff]⟩) (y := ⟨false, [5]⟩) (canonical_single (by decide))
    (canonical_single (by decide)) ⟨0, fun _ _ => 0⟩).1
  exact wp_mono h (fun r _ hr => hr) (fun e he => ⟨he.1, he.2.2.2⟩)

end Results

end JavaScriptCore.Runtime.JSBigInt
