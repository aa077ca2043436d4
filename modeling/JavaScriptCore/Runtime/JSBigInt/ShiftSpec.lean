import JavaScriptCore.Runtime.JSBigInt.Shift

/-!
# What the shifts compute

Left shifts are exact and refuse precisely the results that are too long. Right shifts
are exact except for the reserved digit: what the allocator left in it becomes the top
digit of the result. The characterization below is over every content of fresh
storage, so it says for which operands the result does not depend on it.
-/

namespace JavaScriptCore.Runtime.JSBigInt

open JavaScriptCore.ProgramLogic JavaScriptCore.Numeral Nat

variable {t : Target}

section Amount

variable {exc : Exception → Prop} {s : Heap t} {x y : JSBigInt t}

theorem maxLengthBits_lt (t : Target) : t.maxLengthBits < 2 ^ t.digitBits := by
  have := radix_gt t
  unfold Target.maxLengthBits Target.maxInt
  omega

theorem toShiftAmount_wp (hy : y.Canonical) (hy0 : y.length ≠ 0) :
    wp (toShiftAmount y) (fun o s' => s' = s ∧ ((o = none ∧ t.maxLengthBits < y.magnitude) ∨
        ∃ d, o = some d ∧ d.toNat = y.magnitude ∧ y.magnitude ≤ t.maxLengthBits)) exc s := by
  unfold toShiftAmount
  split_ifs with hl
  · have hle : (2 ^ t.digitBits) ^ 1 ≤ y.magnitude :=
      le_trans (Nat.pow_le_pow_right (radix_pos t) (by omega)) (hy.pow_le_magnitude hy0)
    have := maxLengthBits_lt t
    rw [pow_one] at hle
    rw [wp_pure]
    exact ⟨rfl, .inl ⟨rfl, by omega⟩⟩
  · have hone := toNat_digit_of_length_one (show y.length = 1 by omega)
    rw [wp_bind, wp_digit (by omega)]
    split_ifs with hbig
    · rw [wp_pure]
      exact ⟨rfl, .inl ⟨rfl, by omega⟩⟩
    · rw [wp_pure]
      exact ⟨rfl, .inr ⟨_, rfl, hone, by omega⟩⟩

theorem two_pow_split (t : Target) (n : Nat) :
    2 ^ n = (2 ^ t.digitBits) ^ (n / t.digitBits) * 2 ^ (n % t.digitBits) := by
  rw [← pow_mul, ← pow_add, div_add_mod]

/-- A cell cut at digit `k`. -/
theorem magnitude_div_two_pow {n : Nat} (hk : n / t.digitBits ≤ x.length) :
    x.magnitude / 2 ^ n = window x.digits (n / t.digitBits) (x.length - n / t.digitBits) /
      2 ^ (n % t.digitBits) := by
  rw [two_pow_split t n, ← Nat.div_div_eq_div_mul, magnitude_div_digits hk]

/-- The bits a right shift drops: whole digits, and the low bits of the digit it cuts. -/
theorem magnitude_mod_two_pow {n : Nat} (hk : n / t.digitBits < x.length) :
    x.magnitude % 2 ^ n = window x.digits 0 (n / t.digitBits) +
      (2 ^ t.digitBits) ^ (n / t.digitBits) *
        (word x.digits (n / t.digitBits) % 2 ^ (n % t.digitBits)) := by
  have hb : n % t.digitBits ≤ t.digitBits := le_of_lt (mod_lt _ (digitBits_pos t))
  rw [two_pow_split t n, mod_mul, magnitude_mod_digits (by omega), magnitude_div_digits (by omega)]
  obtain ⟨m, hm⟩ : ∃ m, x.length - n / t.digitBits = m + 1 :=
    ⟨x.length - n / t.digitBits - 1, by omega⟩
  rw [hm, window_bottom]
  congr 2
  nth_rewrite 1 [← pow_mul_pow_sub 2 hb]
  rw [mul_assoc, add_mul_mod_self_left]

end Amount

section Left

variable {s : Heap t} {x y : JSBigInt t} {exc : Exception → Prop}

/-- Clearing the low digits of a fresh result. -/
theorem clearDigits_wp {res : JSBigInt t} {n : Nat} (hn : n ≤ res.length) :
    wp (forUp 0 n res fun i res => res.setDigit i 0)
      (fun r _ => r.length = res.length ∧ ∀ k, k < n → word r.digits k = 0) exc s := by
  refine wp_post (fillDigits_wp (g := fun _ => 0) (zero_le _) hn
    (fun i r s' _ hi hl => by rw [wp_setDigit (by omega)])) ?_
  rintro r s' ⟨-, hl, hw⟩
  exact ⟨hl, fun k hk => by rw [hw, if_pos ⟨zero_le _, hk⟩]; rfl⟩

theorem magnitude_of_low_zero {r : JSBigInt t} {n m V : Nat} (hl : r.length = n + m)
    (hz : ∀ k, k < n → word r.digits k = 0) (hV : window r.digits n m = V) :
    r.magnitude = (2 ^ t.digitBits) ^ n * V := by
  rw [magnitude_split (show n ≤ r.length by omega), hl, Nat.add_sub_cancel_left, hV,
    (window_eq_zero_iff _ _ _).mpr (fun k hk => hz _ (by omega)), zero_add]

/-- `grow`: the bits shifted out of the top digit. -/
theorem top_shifted_out {b : Nat} (hx : x.length ≠ 0) (hb : b ≤ t.digitBits) :
    x.magnitude * 2 ^ b / (2 ^ t.digitBits) ^ x.length =
      ((x.digits.getD (x.length - 1) 0) >>> (t.digitBits - b)).toNat := by
  obtain ⟨k, hk⟩ : ∃ k, x.length = k + 1 := ⟨x.length - 1, by omega⟩
  rw [toNat_shiftRight, hk, Nat.add_sub_cancel, pow_succ]
  nth_rewrite 2 [← pow_sub_mul_pow 2 hb]
  rw [← Nat.mul_assoc, Nat.mul_div_mul_right _ _ (Nat.two_pow_pos b), ← Nat.div_div_eq_div_mul,
    magnitude_eq_window, hk, window_succ, zero_add,
    add_mul_div_right _ _ (pow_pos (radix_pos t) k), div_eq_of_lt (window_lt ..),
    zero_add, word]

theorem maxLength_bits_le (t : Target) : t.digitBits * t.maxLength ≤ t.maxLengthBits := by
  rcases t.digitBits_cases with h | h <;>
    simp [Target.maxLength, Target.maxLengthBits, Target.maxInt, h]

/-- A shift amount that is refused could not be applied to any nonzero number. -/
theorem pow_maxLength_le {n : Nat} (hx : x.magnitude ≠ 0) (hn : t.maxLengthBits < n) :
    (2 ^ t.digitBits) ^ t.maxLength ≤ x.magnitude * 2 ^ n := by
  have := maxLength_bits_le t
  rw [← pow_mul]
  calc
    2 ^ (t.digitBits * t.maxLength) ≤ 2 ^ n := Nat.pow_le_pow_right (by decide) (by omega)
    _ ≤ x.magnitude * 2 ^ n := Nat.le_mul_of_pos_left _ (Nat.pos_of_ne_zero hx)

theorem grow_wp {b : Nat} (hx : x.Canonical) (hx0 : x.length ≠ 0) (hb : b < t.digitBits) :
    wp (if b ≠ 0 then do
          return decide ((← x.digit (x.length - 1)) >>> (t.digitBits - b) ≠ 0)
        else pure false)
      (fun grow s' => s' = s ∧ (b = 0 → grow = false) ∧
        x.magnitude * 2 ^ b < (2 ^ t.digitBits) ^ (x.length + grow.toNat) ∧
        (2 ^ t.digitBits) ^ (x.length + grow.toNat - 1) ≤ x.magnitude * 2 ^ b) exc s := by
  have hlow : (2 ^ t.digitBits) ^ (x.length - 1) ≤ x.magnitude * 2 ^ b :=
    le_trans (hx.pow_le_magnitude hx0) (Nat.le_mul_of_pos_right _ (Nat.two_pow_pos b))
  by_cases hb0 : b = 0
  · simp only [hb0, ne_eq, not_true_eq_false, if_false, wp_pure]
    exact ⟨trivial, fun _ => trivial, by simpa using x.magnitude_lt, by simpa [hb0] using hlow⟩
  have htop := top_shifted_out hx0 (le_of_lt hb)
  have hpos : 0 < (2 ^ t.digitBits) ^ x.length := Nat.pow_pos (radix_pos t)
  simp only [hb0, ne_eq, not_false_eq_true, if_true, wp_bind,
    wp_digit (show x.length - 1 < x.length by omega), wp_pure]
  refine ⟨trivial, fun h => h.elim, ?_⟩
  by_cases hz : (x.digits.getD (x.length - 1) 0) >>> (t.digitBits - b) = 0
  · have hdiv : x.magnitude * 2 ^ b / (2 ^ t.digitBits) ^ x.length = 0 := by
      rw [htop, hz]
      rfl
    simp only [hz, not_true_eq_false, decide_false, Bool.toNat_false, add_zero]
    exact ⟨lt_of_div_eq_zero hpos hdiv, hlow⟩
  · have hne : x.magnitude * 2 ^ b / (2 ^ t.digitBits) ^ x.length ≠ 0 := by
      rw [htop]
      exact fun h => hz (BitVec.eq_of_toNat_eq (by simpa using h))
    simp only [hz, not_false_eq_true, decide_true, Bool.toNat_true, Nat.add_sub_cancel]
    refine ⟨?_, ?_⟩
    · calc
        x.magnitude * 2 ^ b < (2 ^ t.digitBits) ^ x.length * 2 ^ b :=
          Nat.mul_lt_mul_of_pos_right x.magnitude_lt (Nat.two_pow_pos b)
        _ ≤ (2 ^ t.digitBits) ^ x.length * 2 ^ t.digitBits :=
          Nat.mul_le_mul_left _ (Nat.pow_le_pow_right (by decide) (Nat.le_of_lt hb))
        _ = (2 ^ t.digitBits) ^ (x.length + 1) := (pow_succ _ _).symm
    · by_contra hlt
      exact hne (div_eq_of_lt (by omega))

/-- The digits of the result, below them the cleared ones. -/
theorem shiftedDigits_wp {r : JSBigInt t} {k b : Nat} {grow : Bool}
    (hb : b < t.digitBits) (hgr : b = 0 → grow = false)
    (hf : x.magnitude * 2 ^ b < (2 ^ t.digitBits) ^ (x.length + grow.toNat))
    (hl : r.length = x.length + k + grow.toNat) (hz : ∀ i, i < k → word r.digits i = 0) :
    wp (if b = 0 then
          forUp k (x.length + k + grow.toNat) r fun i res => do res.setDigit i (← x.digit (i - k))
        else do
          let (carry, res) ← leftShiftDigits x b k r
          if grow then res.setDigit (x.length + k) carry else return res)
      (fun c _ => c.length = x.length + k + grow.toNat ∧
        c.magnitude = (2 ^ t.digitBits) ^ k * (x.magnitude * 2 ^ b)) exc s := by
  by_cases hb0 : b = 0
  · have hg := hgr hb0
    subst hg
    rw [if_pos hb0]
    refine wp_post (fillDigits_wp (g := fun i => x.digits.getD (i - k) 0)
      (by omega) (by omega) ?_) ?_
    · intro i r' s' hk hi hl'
      simp only [Bool.toNat_false] at hi hl
      simp [wp_bind, wp_digit (show i - k < x.length by omega),
        wp_setDigit (show i < r'.length by omega)]
    rintro c s' ⟨-, hlc, hw⟩
    simp only [Bool.toNat_false, add_zero] at hl hw ⊢
    refine ⟨by omega, magnitude_of_low_zero (m := x.length) (by omega) (fun i hi => ?_) ?_⟩
    · rw [hw, if_neg (by omega), hz i hi]
    · rw [hb0, pow_zero, mul_one, magnitude_eq_window]
      refine window_shift (fun i hi => ?_)
      rw [hw, if_pos (by omega), Nat.add_sub_cancel_left, Nat.zero_add, word]
  · rw [if_neg hb0]
    refine wp_seq (leftShiftDigits_wp (le_of_lt hb) (by omega)) ?_
    rintro ⟨carry, c⟩ s' ⟨-, hlc, hlow, hsum⟩
    cases grow with
    | true =>
      simp only [Bool.toNat_true] at hl
      simp only [if_true, wp_setDigit (show x.length + k < c.length by omega), Bool.toNat_true]
      refine ⟨by rw [length_set]; omega, magnitude_of_low_zero (m := x.length + 1)
        (by rw [length_set]; omega) (fun i hi => ?_) ?_⟩
      · rw [word_set_ne (by omega), hlow i hi, hz i hi]
      · rw [add_comm x.length k, window_set_top (show k + x.length < c.length by omega), hsum]
    | false =>
      simp only [Bool.toNat_false, add_zero] at hl hf
      simp only [Bool.false_eq_true, if_false, wp_pure, Bool.toNat_false, add_zero]
      rw [carry_eq_zero hsum hf, zero_mul, add_zero] at hsum
      exact ⟨by omega, magnitude_of_low_zero (m := x.length) (by omega)
        (fun i hi => by rw [hlow i hi, hz i hi]) hsum⟩

theorem leftShiftByAbsolute_wp (hx : x.Canonical) (hx0 : x.length ≠ 0) (hy : y.Canonical)
    (hy0 : y.length ≠ 0) :
    wp (leftShiftByAbsolute x y)
      (fun r _ => Denotes (signed x.sign (x.magnitude * 2 ^ y.magnitude)) t.maxLength r)
      (fun e => e = tooBig ∧
        (2 ^ t.digitBits) ^ t.maxLength ≤ x.magnitude * 2 ^ y.magnitude) s := by
  have hm0 : x.magnitude ≠ 0 := fun h => hx0 (hx.magnitude_eq_zero_iff.mp h)
  unfold leftShiftByAbsolute
  refine wp_seq (toShiftAmount_wp hy hy0) ?_
  rintro o s' ⟨rfl, ⟨rfl, hn⟩ | ⟨d, rfl, hd, -⟩⟩
  · exact ⟨rfl, pow_maxLength_le hm0 hn⟩
  dsimp only
  rw [hd]
  generalize y.magnitude = n
  have hb : n % t.digitBits < t.digitBits := mod_lt _ (digitBits_pos t)
  have hn := two_pow_split t n
  have hp : x.magnitude * 2 ^ n =
      (2 ^ t.digitBits) ^ (n / t.digitBits) * (x.magnitude * 2 ^ (n % t.digitBits)) := by
    rw [hn]
    ring
  generalize n / t.digitBits = k, n % t.digitBits = b at *
  refine wp_seq (grow_wp hx hx0 hb) ?_
  rintro grow s' ⟨rfl, hg, hf, hne⟩
  by_cases hlo : x.length + k + grow.toNat > t.maxLength
  · rw [if_pos hlo, wp_throw, hp]
    refine ⟨rfl, ?_⟩
    calc
      (2 ^ t.digitBits) ^ t.maxLength ≤ (2 ^ t.digitBits) ^ (k + (x.length + grow.toNat - 1)) :=
        Nat.pow_le_pow_right (radix_pos t) (by omega)
      _ = (2 ^ t.digitBits) ^ k * (2 ^ t.digitBits) ^ (x.length + grow.toNat - 1) := pow_add _ _ _
      _ ≤ _ := mul_le_mul_left _ hne
  · rw [if_neg hlo, wp_bind]
    refine wp_tryCreateWithLength (fun _ r s' _ hl => ?_) (fun h => absurd h hlo)
    refine wp_seq (clearDigits_wp (by omega)) ?_
    rintro r₁ s' ⟨hl₁, hz⟩
    refine wp_seq (shiftedDigits_wp hb hg hf (hl₁.trans hl) hz) ?_
    rintro c s' ⟨hlc, hmag⟩
    rw [hp]
    refine signAndTrim_wp (by omega) hmag ?_
    calc
      (2 ^ t.digitBits) ^ k * (x.magnitude * 2 ^ b) <
          (2 ^ t.digitBits) ^ k * (2 ^ t.digitBits) ^ (x.length + grow.toNat) :=
        Nat.mul_lt_mul_of_pos_left hf (Nat.pow_pos (radix_pos t))
      _ = (2 ^ t.digitBits) ^ (k + (x.length + grow.toNat)) := (pow_add _ _ _).symm
      _ ≤ (2 ^ t.digitBits) ^ t.maxLength := Nat.pow_le_pow_right (radix_pos t) (by omega)

end Left

section Right

variable {s : Heap t} {x y : JSBigInt t} {exc : Exception → Prop}

theorem anyDigitBelow_wp : ∀ {count i : Nat}, i + count ≤ x.length →
    wp (anyDigitBelow x count i) (fun b s' => s' = s ∧
      (b = true ↔ window x.digits i count ≠ 0)) exc s
  | 0, i, _ => by simp [anyDigitBelow]
  | count + 1, i, h => by
    simp only [anyDigitBelow, wp_bind, wp_digit (show i < x.length by omega)]
    by_cases hd : x.digits.getD i 0 = 0
    · have hw : word x.digits i = 0 := by rw [word, hd]; rfl
      have hiff : window x.digits i (count + 1) ≠ 0 ↔ window x.digits (i + 1) count ≠ 0 := by
        have := radix_pos t
        rw [window_bottom, hw, zero_add, mul_ne_zero_iff]
        exact ⟨fun h => h.2, fun h => ⟨by omega, h⟩⟩
      simp only [hd, ne_eq, not_true_eq_false, if_false]
      rw [← ne_eq, hiff]
      exact anyDigitBelow_wp (by omega)
    · have hw : word x.digits i ≠ 0 := fun h => hd (BitVec.eq_of_toNat_eq h)
      simp only [hd, ne_eq, not_false_eq_true, if_true, wp_pure, true_iff]
      refine ⟨trivial, ?_⟩
      rw [window_bottom]
      omega

variable {n : Nat}

theorem mustRoundDown_wp (hk : n / t.digitBits < x.length) :
    wp (mustRoundDown x (n / t.digitBits) (n % t.digitBits)) (fun b s' => s' = s ∧
      (b = true ↔ x.sign = true ∧ x.magnitude % 2 ^ n ≠ 0)) exc s := by
  have hb : n % t.digitBits < t.digitBits := mod_lt _ (digitBits_pos t)
  have hpos : 0 < (2 ^ t.digitBits) ^ (n / t.digitBits) := Nat.pow_pos (radix_pos t)
  have hm := toNat_and_lowMask hb (x.digits.getD (n / t.digitBits) 0)
  change _ = word x.digits (n / t.digitBits) % _ at hm
  unfold mustRoundDown
  rw [magnitude_mod_two_pow hk]
  cases hs : x.sign
  · simp
  · simp only [if_true, wp_bind, wp_digit hk, true_and]
    by_cases hz : x.digits.getD (n / t.digitBits) 0 &&&
        (((1 : t.Digit) <<< (n % t.digitBits)) - 1) = 0
    · have hmod : word x.digits (n / t.digitBits) % 2 ^ (n % t.digitBits) = 0 := by
        rw [← hm, hz]
        rfl
      simp only [hz, ne_eq, not_true_eq_false, if_false]
      rw [hmod, mul_zero, add_zero]
      exact anyDigitBelow_wp (by omega)
    · have hmod : word x.digits (n / t.digitBits) % 2 ^ (n % t.digitBits) ≠ 0 := by
        rw [← hm]
        exact fun h => hz (BitVec.eq_of_toNat_eq h)
      simp only [hz, ne_eq, not_false_eq_true, if_true, wp_pure, true_iff]
      refine ⟨trivial, ?_⟩
      have := mul_pos hpos (pos_of_ne_zero hmod)
      omega

/-- The source reserves a digit for the carry of rounding. -/
def RoundingReserves (x : JSBigInt t) (n : Nat) : Prop :=
  x.sign = true ∧ x.magnitude % 2 ^ n ≠ 0 ∧ n % t.digitBits = 0 ∧
    word x.digits (x.length - 1) = 2 ^ t.digitBits - 1

theorem reserve_wp {roundDown : Bool} (hx0 : x.length ≠ 0)
    (hr : roundDown = true ↔ x.sign = true ∧ x.magnitude % 2 ^ n ≠ 0) :
    wp (if roundDown && decide (n % t.digitBits = 0) then do
          let msd ← x.digit (x.length - 1)
          return decide (~~~msd = 0)
        else pure false)
      (fun o s' => s' = s ∧ (o = true ↔ RoundingReserves x n)) exc s := by
  unfold RoundingReserves
  rw [← and_assoc, ← hr]
  split_ifs with hc
  · obtain ⟨h1, h2⟩ := (Bool.and_eq_true _ _).mp hc
    rw [decide_eq_true_eq] at h2
    rw [wp_bind, wp_digit (show x.length - 1 < x.length by omega), wp_pure]
    simp only [decide_eq_true_eq, h1, h2, true_and]
    have hlt := word_lt x.digits (x.length - 1)
    rw [← BitVec.toNat_inj, BitVec.toNat_not]
    change 2 ^ t.digitBits - 1 - word x.digits (x.length - 1) = 0 % 2 ^ t.digitBits ↔ _
    rw [zero_mod]
    omega
  · rw [wp_pure]
    refine ⟨rfl, ?_⟩
    simp only [Bool.and_eq_true, decide_eq_true_eq, not_and] at hc
    simp only [Bool.false_eq_true, false_iff]
    exact fun h => hc h.1 h.2.1

theorem shiftedDown_wp {r : JSBigInt t}
    (hk : n / t.digitBits < x.length) (hr : x.length - n / t.digitBits ≤ r.length) :
    wp (if n % t.digitBits = 0 then
          forUp (n / t.digitBits) x.length r fun i res => do
            res.setDigit (i - n / t.digitBits) (← x.digit i)
        else rightShiftDigits (some x) (n / t.digitBits) (x.length - n / t.digitBits - 1)
          (n % t.digitBits) r)
      (fun c _ => c.sign = r.sign ∧ c.length = r.length ∧
        window c.digits 0 (x.length - n / t.digitBits) = x.magnitude / 2 ^ n ∧
        (n % t.digitBits = 0 → word c.digits (x.length - n / t.digitBits) =
          word r.digits (x.length - n / t.digitBits))) exc s := by
  rw [magnitude_div_two_pow (le_of_lt hk)]
  have hb : n % t.digitBits < t.digitBits := mod_lt _ (digitBits_pos t)
  generalize n / t.digitBits = k, n % t.digitBits = b at *
  split_ifs with hb0
  · simp only [hb0, pow_zero, Nat.div_one, true_implies]
    refine wp_post (wp_forUp (fun i (c : JSBigInt t) _ => c.sign = r.sign ∧
      c.length = r.length ∧ ∀ j, word c.digits j =
        if j < i - k then word x.digits (k + j) else word r.digits j) (Nat.le_of_lt hk)
      ⟨rfl, rfl, fun j => by rw [if_neg (by omega)]⟩ ?_) ?_
    · rintro i c s' hki hi ⟨hs, hl, hw⟩
      simp only [wp_bind, wp_digit hi, wp_setDigit (show i - k < c.length by omega)]
      refine ⟨hs, by simpa using hl, fun j => ?_⟩
      rw [word_set (show i - k < c.length by omega), hw j]
      by_cases hj : j = i - k
      · rw [if_pos hj, if_pos (by omega), hj, show k + (i - k) = i by omega, word]
      · rw [if_neg hj]
        by_cases hlt : j < i - k
        · rw [if_pos hlt, if_pos (by omega)]
        · rw [if_neg hlt, if_neg (by omega)]
    · rintro c s' ⟨hs, hl, hw⟩
      refine ⟨hs, hl, window_shift (fun j hj => ?_), by rw [hw, if_neg (by omega)]⟩
      rw [hw, zero_add, if_pos hj]
  · refine wp_post (rightShiftDigits_wp _ (le_of_lt hb)
      (by simp only [Option.getD_some]; omega) (by omega)) ?_
    rintro c s' ⟨hs, hl, hw⟩
    rw [show x.length - k - 1 + 1 = x.length - k by omega] at hw
    exact ⟨hs, hl, hw, fun h => absurd h hb0⟩

theorem signed_ediv (b : Bool) (M n : Nat) : signed b M / (2 ^ n : Nat) =
    if b = true ∧ M % 2 ^ n ≠ 0 then signed true (M / 2 ^ n + 1) else signed b (M / 2 ^ n) := by
  have hpos := Nat.two_pow_pos n
  have hlt := mod_lt M hpos
  have hdm : (M : Int) = (2 ^ n : Nat) * (M / 2 ^ n : Nat) + (M % 2 ^ n : Nat) := by
    exact_mod_cast (div_add_mod M (2 ^ n)).symm
  generalize 2 ^ n = d at *
  generalize M / d = q, M % d = r at *
  have hd : (0 : Int) < d := by exact_mod_cast hpos
  cases b
  · simp only [Bool.false_eq_true, false_and, if_false, signed_false]
    exact ((Int.ediv_emod_unique hd).mpr ⟨by rw [hdm]; ring, by omega, by omega⟩ :
      _ ∧ (M : Int) % d = r).1
  · by_cases hr : r = 0
    · simp only [hr, ne_eq, not_true_eq_false, and_false, if_false, signed_true]
      exact ((Int.ediv_emod_unique hd).mpr ⟨by rw [hdm, hr]; push_cast; ring, le_refl _, hd⟩ :
        _ ∧ -(M : Int) % d = 0).1
    · simp only [hr, ne_eq, not_false_eq_true, and_self, if_true, signed_true]
      exact ((Int.ediv_emod_unique hd).mpr ⟨by rw [hdm]; push_cast; ring, by omega, by omega⟩ :
        _ ∧ -(M : Int) % d = d - r).1

/-- What the allocator left in the reserved digit. -/
def reservedDigit (s : Heap t) (x : JSBigInt t) (n : Nat) : Nat :=
  (s.contents s.allocated (x.length - n / t.digitBits)).toNat

theorem rightShiftMagnitude_wp (hk : n / t.digitBits < x.length) :
    wp (rightShiftMagnitude x (n / t.digitBits) (n % t.digitBits))
      (fun (roundDown, c) _ => (roundDown = true ↔ x.sign = true ∧ x.magnitude % 2 ^ n ≠ 0) ∧
        ∃ o : Bool, (o = true ↔ RoundingReserves x n) ∧ c.sign = false ∧
          c.length = x.length - n / t.digitBits + o.toNat ∧
          c.magnitude = x.magnitude / 2 ^ n + o.toNat * (reservedDigit s x n *
            (2 ^ t.digitBits) ^ (x.length - n / t.digitBits))) exc s := by
  unfold rightShiftMagnitude
  refine wp_seq (mustRoundDown_wp hk) ?_
  rintro roundDown s' ⟨rfl, hr⟩
  refine wp_seq (reserve_wp (ne_of_gt (zero_lt_of_lt hk)) hr) ?_
  rintro o s' ⟨rfl, ho⟩
  rw [wp_bind]
  have hc : ∀ {post : JSBigInt t → Heap t → Prop} (L : Nat),
      post ⟨false, (List.range L).map (s'.contents s'.allocated)⟩
        { s' with allocated := s'.allocated + 1 } →
      wp (createWithLengthUnchecked L) post exc s' := fun L h => h
  apply hc
  refine wp_seq (shiftedDown_wp hk (by simp [length])) ?_
  rintro c s'' ⟨hs, hl, hwin, htop⟩
  have hl' : c.length = x.length - n / t.digitBits + o.toNat := by simpa [length] using hl
  refine ⟨hr, o, ho, hs, hl', ?_⟩
  cases o with
  | false =>
    rw [Bool.toNat_false, add_zero] at hl'
    rw [magnitude_eq_window, hl', hwin]
    simp
  | true =>
    have hw := htop (ho.mp rfl).2.2.1
    rw [Bool.toNat_true] at hl'
    rw [magnitude_eq_window, hl', window_succ, hwin, zero_add, hw, Bool.toNat_true, one_mul]
    congr 2
    simp [word, reservedDigit]

theorem rightShiftByMaximum_wp (sign : Bool) :
    wp (rightShiftByMaximum sign : Run t (JSBigInt t))
      (fun r _ => Denotes (if sign then -1 else 0) 1 r) exc s := by
  cases sign
  · exact createZero_wp rfl
  · exact createFromInt32_wp (-1)

/-- Shifting all the digits of a nonzero number out leaves zero, or minus one. -/
theorem ediv_of_magnitude_lt (hm : x.magnitude ≠ 0) (hlt : x.magnitude < 2 ^ n) :
    x.toInt / (2 ^ n : Nat) = if x.sign then -1 else 0 := by
  rw [toInt, signed_ediv, div_eq_of_lt hlt, mod_eq_of_lt hlt]
  cases x.sign <;> simp [hm]

theorem rightShift_exact_wp (hx : x.Canonical) (hx0 : x.length ≠ 0) (hy : y.Canonical)
    (hy0 : y.length ≠ 0) (hn : y.magnitude ≤ t.maxLengthBits)
    (hre : y.magnitude / t.digitBits < x.length → ¬ RoundingReserves x y.magnitude) :
    wp (rightShiftByAbsolute x y)
      (fun r _ => Denotes (x.toInt / (2 ^ y.magnitude : Nat)) (max x.length t.maxLength) r)
      (Exhausts t (x.length - y.magnitude / t.digitBits)) s := by
  have hm0 : x.magnitude ≠ 0 := fun h => hx0 (hx.magnitude_eq_zero_iff.mp h)
  unfold rightShiftByAbsolute
  refine wp_seq (toShiftAmount_wp hy hy0) ?_
  rintro o s' ⟨rfl, ⟨rfl, hbig⟩ | ⟨d, rfl, hd, -⟩⟩
  · omega
  dsimp only
  rw [hd]
  generalize y.magnitude = n at *
  by_cases hk : x.length ≤ n / t.digitBits
  · have hlt : x.magnitude < 2 ^ n := by
      calc
        x.magnitude < (2 ^ t.digitBits) ^ x.length := x.magnitude_lt
        _ ≤ (2 ^ t.digitBits) ^ (n / t.digitBits) := Nat.pow_le_pow_right (radix_pos t) hk
        _ ≤ 2 ^ n := by
          rw [two_pow_split t n]
          exact Nat.le_mul_of_pos_right _ (Nat.two_pow_pos _)
    rw [if_pos hk, ediv_of_magnitude_lt hm0 hlt]
    exact wp_mono (rightShiftByMaximum_wp _) (fun r s' hr => hr.mono (by omega)) (fun _ he => he)
  · rw [if_neg hk]
    refine wp_seq (rightShiftMagnitude_wp (by omega)) ?_
    rintro ⟨roundDown, c⟩ s' ⟨hro, o, ho, hsg, hl, hmag⟩
    have ho0 : o = false := by
      cases o with
      | false => rfl
      | true => exact absurd (ho.mp rfl) (hre (by omega))
    subst ho0
    simp only [Bool.toNat_false, add_zero, zero_mul] at hl hmag
    rw [toInt, signed_ediv]
    have hb : x.magnitude / 2 ^ n < (2 ^ t.digitBits) ^ (x.length - n / t.digitBits) := by
      rw [← hmag, ← hl]
      exact c.magnitude_lt
    have hle : x.length - n / t.digitBits ≤ max x.length t.maxLength :=
      le_trans (Nat.sub_le _ _) (le_max_left _ _)
    cases hs : x.sign
    · simp only [Bool.false_eq_true, false_and, if_false]
      have ht : c.setSign false = c := by rw [← hsg]; rfl
      rw [← ht]
      exact wp_post (signAndTrim_wp (by omega) hmag hb) fun r s' h => h.mono hle
    · simp only [if_true, true_and]
      rw [hs] at hro
      simp only [true_and] at hro
      by_cases hr : roundDown = true
      · rw [if_pos hr, if_pos (hro.mp hr)]
        exact wp_seq (signAndTrim_wp (by omega) hmag hb)
          fun c' s' hc' => negativeResult_wp hc'.magnitude_signed hc'.length_le
      · rw [if_neg hr, if_neg (fun h => hr (hro.mpr h))]
        exact wp_post (signAndTrim_wp (by omega) hmag hb) fun r s' h => h.mono hle

theorem rightShift_tooFar_wp (hy : y.Canonical) (hy0 : y.length ≠ 0)
    (hn : t.maxLengthBits < y.magnitude) :
    wp (rightShiftByAbsolute x y) (fun r _ => Denotes (if x.sign then -1 else 0) 1 r) exc s := by
  unfold rightShiftByAbsolute
  refine wp_seq (toShiftAmount_wp hy hy0) ?_
  rintro o s' ⟨rfl, ⟨rfl, -⟩ | ⟨d, rfl, hd, hsm⟩⟩
  · exact rightShiftByMaximum_wp _
  · omega

theorem not_all_ones {B R g L m : Nat} (hR : R < B ^ L) (hg : g ≠ 0) (hg' : g < B - 1)
    (h : R + g * B ^ L + 1 = B ^ m) : False := by
  have hone : 1 * B ^ L ≤ g * B ^ L := mul_le_mul_right _ (by omega)
  rcases lt_or_ge L m with hlt | hge
  · have hpow : B ^ (L + 1) ≤ B ^ m := Nat.pow_le_pow_right (by omega) hlt
    have hs : (g + 1) * B ^ L < B * B ^ L := mul_lt_mul_of_pos_right (by omega) (by omega)
    rw [pow_succ, mul_comm] at hpow
    rw [add_mul] at hs
    omega
  · have hpow : B ^ m ≤ B ^ L := Nat.pow_le_pow_right (by omega) hge
    omega

/-- With the reserved digit the result is larger by whatever that digit happened to hold. -/
theorem rightShift_reserved_wp (hy : y.Canonical) (hy0 : y.length ≠ 0)
    (hn : y.magnitude ≤ t.maxLengthBits) (hk : y.magnitude / t.digitBits < x.length)
    (hr : RoundingReserves x y.magnitude) :
    wp (rightShiftByAbsolute x y)
      (fun r _ =>
        Denotes (signed true (x.magnitude / 2 ^ y.magnitude + reservedDigit s x y.magnitude *
        (2 ^ t.digitBits) ^ (x.length - y.magnitude / t.digitBits) + 1)) t.maxLength r)
      (fun e => e = .outOfMemoryError ∧ (t.maxLength < x.length - y.magnitude / t.digitBits + 1 ∨
          reservedDigit s x y.magnitude = 0 ∨
          reservedDigit s x y.magnitude = 2 ^ t.digitBits - 1)) s := by
  unfold rightShiftByAbsolute
  refine wp_seq (toShiftAmount_wp hy hy0) ?_
  rintro o s' ⟨rfl, ⟨rfl, hbig⟩ | ⟨d, rfl, hd, -⟩⟩
  · omega
  dsimp only
  rw [hd]
  generalize y.magnitude = n at *
  rw [if_neg (by omega)]
  refine wp_seq (rightShiftMagnitude_wp hk) ?_
  rintro ⟨roundDown, c⟩ s'' ⟨hro, o, ho, -, hl, hmag⟩
  rw [ho.mpr hr, Bool.toNat_true] at hl hmag
  rw [one_mul] at hmag
  simp only [hr.1, hro.mpr ⟨hr.1, hr.2.1⟩, if_true]
  refine wp_seq (signAndTrim_wp (by omega) hmag (by rw [← hmag]; exact c.magnitude_lt)) ?_
  intro c' s₂ hc'
  have hm' := hc'.magnitude_signed
  rw [← hm']
  refine wp_mono (absoluteAddOne_wp .signed) (fun r s' h => h) ?_
  · rintro e ⟨⟨he, -⟩, hlo⟩
    refine ⟨he, ?_⟩
    have hlen := hc'.length_le
    by_contra hno
    push Not at hno
    obtain ⟨hroom, hg0, hg⟩ := hno
    rcases hlo with hlo | hf
    · omega
    -- the magnitude would be all ones, and with it the reserved digit
    have hR : x.magnitude / 2 ^ n < (2 ^ t.digitBits) ^ (x.length - n / t.digitBits) := by
      rw [magnitude_div_two_pow (le_of_lt hk)]
      exact lt_of_le_of_lt (div_le_self _ _) (window_lt _ _ _)
    rw [hm'] at hf
    exact not_all_ones hR hg0 (lt_of_le_of_ne (le_sub_one_of_lt (BitVec.isLt _)) hg) hf

end Right

section Results

variable {x y : JSBigInt t}

/-- `a * 2 ^ n` rounded down: the exact result of a shift by `n` to the left. -/
def scaled (a n : Int) : Int :=
  if 0 ≤ n then a * (2 ^ n.toNat : Nat) else a / (2 ^ (-n).toNat : Nat)

/-- What a shift with a result may fail with: memory runs out, since `x` would keep the most digits,
or the result does not fit the longest BigInt. -/
def ShiftFails (x : JSBigInt t) (n : Nat) (result : Int) (e : Exception) : Prop :=
  Exhausts t (x.length - n / t.digitBits) e ∨
    (e = tooBig ∧ (2 ^ t.digitBits) ^ t.maxLength ≤ result.natAbs)

/-- Both shifts are exact and canonical whatever fresh storage holds. -/
def ShiftsExactly (x y : JSBigInt t) : Prop :=
  ∀ heap,
    wp (leftShift x y) (fun r _ => r.Canonical ∧ r.toInt = scaled x.toInt y.toInt)
      (ShiftFails x y.magnitude (scaled x.toInt y.toInt)) heap ∧
    wp (signedRightShift x y) (fun r _ => r.Canonical ∧ r.toInt = scaled x.toInt (-y.toInt))
      (ShiftFails x y.magnitude (scaled x.toInt (-y.toInt))) heap

/-- The reserved digit becomes part of a result that can be returned: a negative number
whose top digit is full is shifted right by whole digits, fewer than it has, and loses a
nonzero bit. -/
def ReadsReservedDigit (x : JSBigInt t) (n : Nat) : Prop :=
  n ≤ t.maxLengthBits ∧ n / t.digitBits < x.length ∧ RoundingReserves x n ∧
    x.length - n / t.digitBits < t.maxLength

/-- The shift is past the largest amount and still leaves something; no number of at most
`maxLength` digits is that long. -/
def OutlastsMaximum (x : JSBigInt t) (n : Nat) : Prop :=
  t.maxLengthBits < n ∧ 2 ^ n ≤ x.magnitude ∧ ¬ (x.sign = true ∧ x.magnitude = 2 ^ n)

theorem scaled_natCast (a : Int) (n : Nat) : scaled a n = a * (2 ^ n : Nat) := by
  simp [scaled]

theorem scaled_neg_natCast (a : Int) (n : Nat) : scaled a (-(n : Int)) = a / (2 ^ n : Nat) := by
  rcases Nat.eq_zero_or_pos n with rfl | hn
  · simp [scaled]
  · rw [scaled, if_neg (by omega), Int.neg_neg, Int.toNat_natCast]

theorem leftShift_exact_wp {s : Heap t} (hx : x.Canonical) (hx0 : x.length ≠ 0)
    (hy : y.Canonical) (hy0 : y.length ≠ 0) :
    wp (leftShiftByAbsolute x y)
      (fun r _ => r.Canonical ∧ r.toInt = x.toInt * (2 ^ y.magnitude : Nat))
      (ShiftFails x y.magnitude (x.toInt * (2 ^ y.magnitude : Nat))) s := by
  have hval : signed x.sign (x.magnitude * 2 ^ y.magnitude) =
      x.toInt * (2 ^ y.magnitude : Nat) := by
    rw [toInt]
    cases x.sign <;> simp
  refine wp_mono (leftShiftByAbsolute_wp hx hx0 hy hy0)
    (fun r _ h => ⟨h.canonical, h.toInt_eq.trans hval⟩) ?_
  rintro e ⟨he, hbig⟩
  exact .inr ⟨he, by rwa [← hval, natAbs_signed]⟩

theorem ediv_eq_maximum_iff {n : Nat} (hm : x.magnitude ≠ 0) :
    x.toInt / (2 ^ n : Nat) = (if x.sign then -1 else 0) ↔
      ¬ (2 ^ n ≤ x.magnitude ∧ ¬ (x.sign = true ∧ x.magnitude = 2 ^ n)) := by
  have hpos := Nat.two_pow_pos n
  by_cases hlt : x.magnitude < 2 ^ n
  · exact iff_of_true (ediv_of_magnitude_lt hm hlt) (fun h => by omega)
  have hq : 1 ≤ x.magnitude / 2 ^ n := div_pos (by omega) hpos
  have hdm := div_add_mod x.magnitude (2 ^ n)
  rw [toInt, signed_ediv]
  cases hs : x.sign
  · simp only [Bool.false_eq_true, false_and, if_false, signed_false, not_false_eq_true, and_true]
    omega
  · simp only [true_and, if_true]
    by_cases hr : x.magnitude % 2 ^ n = 0
    · rw [hr, add_zero] at hdm
      simp only [hr, ne_eq, not_true_eq_false, if_false, signed_true]
      constructor
      · intro h hne
        apply hne.2
        rw [← hdm, show x.magnitude / 2 ^ n = 1 by omega, mul_one]
      intro h
      have heq : x.magnitude = 2 ^ n := by
        by_contra hne
        exact h ⟨by omega, hne⟩
      rw [heq, Nat.div_self hpos]
      rfl
    · simp only [hr, ne_eq, not_false_eq_true, if_true, signed_true]
      refine iff_of_false (by omega) (fun h => h ⟨by omega, fun heq => hr ?_⟩)
      rw [heq, mod_self]

/-- Right shifts are exact on every heap outside the two exceptional cases, and in each of
them some heap shows it. -/
theorem rightShift_exact_iff (hx : x.Canonical) (hx0 : x.length ≠ 0) (hy : y.Canonical)
    (hy0 : y.length ≠ 0) :
    (∀ heap, wp (rightShiftByAbsolute x y)
      (fun r _ => r.Canonical ∧ r.toInt = x.toInt / (2 ^ y.magnitude : Nat))
      (ShiftFails x y.magnitude (x.toInt / (2 ^ y.magnitude : Nat))) heap) ↔
      ¬ ReadsReservedDigit x y.magnitude ∧ ¬ OutlastsMaximum x y.magnitude := by
  have hm0 : x.magnitude ≠ 0 := fun h => hx0 (hx.magnitude_eq_zero_iff.mp h)
  constructor
  · intro hall
    refine ⟨?_, ?_⟩
    · rintro ⟨hn, hk, hres, hro⟩
      have h := wp_and (hall ⟨0, fun _ _ => 1⟩) (rightShift_reserved_wp hy hy0 hn hk hres)
      have hg : reservedDigit (⟨0, fun _ _ => 1⟩ : Heap t) x y.magnitude = 1 := toNat_one t
      have hrad := radix_gt t
      rw [hg, toInt, signed_ediv, if_pos ⟨hres.1, hres.2.1⟩] at h
      obtain ⟨r, s', -, ⟨-, hr⟩, hr'⟩ := wp_returns (wp_mono h (fun _ _ h => h) (by
        rintro e ⟨-, -, hl | h0 | h1⟩ <;> omega))
      have hpos : 0 < (2 ^ t.digitBits) ^ (x.length - y.magnitude / t.digitBits) :=
        Nat.pow_pos (radix_pos t)
      rw [hr'.toInt_eq, signed_true, signed_true] at hr
      omega
    · rintro ⟨hn, hbig⟩
      have h := wp_and (hall ⟨0, fun _ _ => 1⟩)
        (show wp _ _ (fun _ => False) _ from rightShift_tooFar_wp hy hy0 hn)
      obtain ⟨r, s', -, ⟨-, hr⟩, hr'⟩ := wp_returns (wp_mono h (fun _ _ h => h) (fun e h => h.2))
      exact (ediv_eq_maximum_iff hm0).mp (hr.symm.trans hr'.toInt_eq) hbig
  · rintro ⟨hrd, hl⟩ heap
    by_cases hn : t.maxLengthBits < y.magnitude
    · refine wp_post (rightShift_tooFar_wp hy hy0 hn) (fun r _ h => ⟨h.canonical, ?_⟩)
      rw [h.toInt_eq, (ediv_eq_maximum_iff hm0).mpr (fun hbig => hl ⟨hn, hbig⟩)]
    by_cases hres : y.magnitude / t.digitBits < x.length ∧ RoundingReserves x y.magnitude
    · -- a returned result has no room for the reserved digit, so it was zero
      have hf : t.maxLength ≤ x.length - y.magnitude / t.digitBits := by
        by_contra hro
        exact hrd ⟨by omega, hres.1, hres.2, by omega⟩
      refine wp_mono (rightShift_reserved_wp hy hy0 (by omega) hres.1 hres.2)
        (fun r _ h => ⟨h.canonical, ?_⟩) (fun e h => .inl ⟨h.1, hf⟩)
      rw [h.toInt_eq, toInt, signed_ediv, if_pos ⟨hres.2.1, hres.2.2.1⟩]
      have hlt := r.magnitude_lt
      rw [← natAbs_toInt, h.toInt_eq, natAbs_signed] at hlt
      have hle : (2 ^ t.digitBits) ^ r.length ≤
          (2 ^ t.digitBits) ^ (x.length - y.magnitude / t.digitBits) :=
        Nat.pow_le_pow_right (radix_pos t) (le_trans h.length_le hf)
      rw [carry_eq_zero rfl (lt_of_lt_of_le (lt_of_succ_lt hlt) hle), zero_mul, add_zero]
    · refine wp_mono (rightShift_exact_wp hx hx0 hy hy0 (by omega)
        (fun hk hr => hres ⟨hk, hr⟩)) (fun r _ h => ⟨h.canonical, h.toInt_eq⟩) (fun e h => .inl h)

/-- Shifts are exact except where a right shift reads the digit that it has reserved, or leaves
something of a number longer than any BigInt. -/
theorem shiftsExactly_iff (hx : x.Canonical) (hy : y.Canonical) :
    ShiftsExactly x y ↔ ¬ ReadsReservedDigit x y.magnitude ∧ ¬ OutlastsMaximum x y.magnitude := by
  by_cases hzero : y.length = 0 ∨ x.length = 0
  · have hpure : (y.isZero || x.isZero) = true := by simpa [isZero] using hzero
    have hscaled : scaled x.toInt y.toInt = x.toInt ∧ scaled x.toInt (-y.toInt) = x.toInt := by
      rcases hzero with h | h
      · rw [hy.toInt_eq_zero_iff.mpr h]
        simp [scaled]
      · rw [hx.toInt_eq_zero_iff.mpr h]
        simp [scaled]
    refine iff_of_true (fun heap => ?_) ⟨?_, ?_⟩
    · simp only [leftShift, signedRightShift, hpure, if_true, wp_pure, hscaled]
      exact ⟨⟨hx, trivial⟩, hx, trivial⟩
    · rintro ⟨-, hk, hres, -⟩
      rcases hzero with h | h
      · exact hres.2.1 (by rw [magnitude_of_length_zero h, pow_zero, mod_one])
      · exact not_lt_zero _ (h ▸ hk)
    · rintro ⟨hn, hbig, -⟩
      rcases hzero with h | h
      · rw [magnitude_of_length_zero h] at hn
        omega
      · rw [magnitude_of_length_zero h] at hbig
        have := Nat.two_pow_pos y.magnitude
        omega
  · have hx0 : x.length ≠ 0 := fun h => hzero (.inr h)
    have hy0 : y.length ≠ 0 := fun h => hzero (.inl h)
    have hpure : (y.isZero || x.isZero) = false := by simp [isZero, hx0, hy0]
    rw [← rightShift_exact_iff hx hx0 hy hy0]
    unfold ShiftsExactly leftShift signedRightShift
    simp only [hpure, Bool.false_eq_true, if_false]
    cases hs : y.sign
    · have hint : y.toInt = (y.magnitude : Int) := by rw [toInt, hs, signed_false]
      simp only [Bool.false_eq_true, if_false, hint, scaled_natCast, scaled_neg_natCast]
      exact ⟨fun h heap => (h heap).2, fun h heap => ⟨leftShift_exact_wp hx hx0 hy hy0, h heap⟩⟩
    · have hint : y.toInt = -(y.magnitude : Int) := by rw [toInt, hs, signed_true]
      simp only [if_true, hint, Int.neg_neg, scaled_natCast, scaled_neg_natCast]
      exact ⟨fun h heap => (h heap).1, fun h heap => ⟨h heap, leftShift_exact_wp hx hx0 hy hy0⟩⟩

/-- `-5 >> 1`, which does not fail. -/
theorem shiftsExactly_at :
    wp (signedRightShift (t := ⟨true, true, true⟩) ⟨true, [5]⟩ ⟨false, [1]⟩)
      (fun r _ => r.Canonical ∧ r.toInt = -3) (fun _ => False) ⟨0, fun _ _ => 7⟩ := by
  have h := (shiftsExactly_iff (t := ⟨true, true, true⟩) (x := ⟨true, [5]⟩) (y := ⟨false, [1]⟩)
    ⟨by decide, by decide⟩ ⟨by decide, by decide⟩).mpr ⟨?_, ?_⟩
  · refine wp_mono (h _).2 (fun _ _ h => h) ?_
    rintro e (⟨-, hle⟩ | ⟨-, hle⟩)
    · exact absurd hle (by decide)
    · exact absurd (le_trans (Nat.le_self_pow (by decide) _) hle) (by decide)
  · rintro ⟨-, -, ⟨-, -, -, htop⟩, -⟩
    exact absurd htop (by decide)
  · rintro ⟨hn, -⟩
    exact absurd hn (by decide)

/-- `-(2 ** 128 - 1) >> 64` over storage that was not zero. -/
theorem signedRightShift_reads_reserved_digit :
    (signedRightShift (t := ⟨true, true, true⟩) ⟨true, [0xffffffffffffffff, 0xffffffffffffffff]⟩
        ⟨false, [64]⟩ ⟨0, fun _ _ => 1⟩).map Prod.fst = .ok ⟨true, [0, 2]⟩ ∧
      toInt (t := ⟨true, true, true⟩) ⟨true, [0, 2]⟩ ≠
        scaled (toInt (t := ⟨true, true, true⟩)
          ⟨true, [0xffffffffffffffff, 0xffffffffffffffff]⟩) (-64) := by
  decide

end Results

end JavaScriptCore.Runtime.JSBigInt
