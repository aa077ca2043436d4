import JavaScriptCore.Runtime.JSBigInt.CellSpec
import JavaScriptCore.Runtime.JSBigInt.DigitSpec

/-!
# Addition and subtraction

`runtime/JSBigInt.cpp:355-390, 831-911`. The signed operations dispatch on the signs
and on the absolute order to `absoluteAdd` and `absoluteSub`, which walk the digits
of the shorter operand and then the rest of the longer one.
-/

namespace JavaScriptCore.Runtime.JSBigInt

open JavaScriptCore.ProgramLogic JavaScriptCore.Numeral

variable {t : Target}

section Columns

variable {w : Nat}

/-- The two additions of a carry loop: the digits of the column, then the carry. -/
def digitAddCarry (a b carry : BitVec w) : BitVec w × BitVec w :=
  let (sum, newCarry) := digitAdd a b 0
  digitAdd sum carry newCarry

/-- The two subtractions of a borrow loop. -/
def digitSubBorrow (a b borrow : BitVec w) : BitVec w × BitVec w :=
  let (difference, newBorrow) := digitSub a b 0
  digitSub difference borrow newBorrow

theorem digitAdd_zero_spec (hw : 1 < 2 ^ w) (a b : BitVec w) :
    (digitAdd a b 0).1.toNat + (digitAdd a b 0).2.toNat * 2 ^ w = a.toNat + b.toNat ∧
      (digitAdd a b 0).2.toNat ≤ 1 := by
  simpa using digitAdd_spec a b 0 (by simpa using hw)

theorem digitSub_zero_spec (hw : 1 < 2 ^ w) (a b : BitVec w) :
    (digitSub a b 0).1.toNat + b.toNat = a.toNat + (digitSub a b 0).2.toNat * 2 ^ w ∧
      (digitSub a b 0).2.toNat ≤ 1 := by
  simpa using digitSub_spec a b 0 (by simpa using hw)

theorem digitAddCarry_spec (hw : 2 < 2 ^ w) (a b c : BitVec w) :
    (digitAddCarry a b c).1.toNat + (digitAddCarry a b c).2.toNat * 2 ^ w =
        a.toNat + b.toNat + c.toNat ∧
      (c.toNat ≤ 1 → (digitAddCarry a b c).2.toNat ≤ 1) := by
  obtain ⟨h1, h2⟩ := digitAdd_zero_spec (by omega) a b
  obtain ⟨h3, -⟩ := digitAdd_spec (digitAdd a b 0).1 c (digitAdd a b 0).2 (by omega)
  have heq : digitAddCarry a b c = digitAdd (digitAdd a b 0).1 c (digitAdd a b 0).2 := rfl
  rw [heq]
  refine ⟨by omega, fun hc => ?_⟩
  by_contra hca
  have : 2 * 2 ^ w ≤ (digitAdd (digitAdd a b 0).1 c (digitAdd a b 0).2).2.toNat * 2 ^ w :=
    Nat.mul_le_mul_right _ (by omega)
  omega

theorem digitSubBorrow_spec (hw : 2 < 2 ^ w) (a b c : BitVec w) :
    (digitSubBorrow a b c).1.toNat + b.toNat + c.toNat =
        a.toNat + (digitSubBorrow a b c).2.toNat * 2 ^ w ∧
      (c.toNat ≤ 1 → (digitSubBorrow a b c).2.toNat ≤ 1) := by
  obtain ⟨h1, h2⟩ := digitSub_zero_spec (by omega) a b
  obtain ⟨h3, -⟩ := digitSub_spec (digitSub a b 0).1 c (digitSub a b 0).2 (by omega)
  have heq : digitSubBorrow a b c = digitSub (digitSub a b 0).1 c (digitSub a b 0).2 := rfl
  rw [heq]
  refine ⟨by omega, fun hc => ?_⟩
  by_contra hbo
  have : 2 * 2 ^ w ≤ (digitSub (digitSub a b 0).1 c (digitSub a b 0).2).2.toNat * 2 ^ w :=
    Nat.mul_le_mul_right _ (by omega)
  omega

end Columns

/-- `absoluteAdd` once the longer operand comes first. -/
def absoluteAddLonger (x y : JSBigInt t) (resultSign : Bool) : Run t (JSBigInt t) := do
  if x.isZero then return x
  if y.isZero then
    if resultSign = x.sign then return x else unaryMinus x
  else do
    let result ← tryCreateWithLength (x.length + 1)
    let (carry, result) ← forUp 0 y.length ((0 : t.Digit), result) fun i (carry, result) => do
      let (sum, newCarry) := digitAddCarry (← x.digit i) (← y.digit i) carry
      return (newCarry, ← result.setDigit i sum)
    let (carry, result) ← forUp y.length x.length (carry, result) fun i (carry, result) => do
      let (sum, newCarry) := digitAdd (← x.digit i) carry 0
      return (newCarry, ← result.setDigit i sum)
    let result ← result.setDigit x.length carry
    (result.setSign resultSign).rightTrim

def absoluteAdd (x y : JSBigInt t) (resultSign : Bool) : Run t (JSBigInt t) :=
  if x.length < y.length then absoluteAddLonger y x resultSign
  else absoluteAddLonger x y resultSign

def absoluteSub (x y : JSBigInt t) (resultSign : Bool) : Run t (JSBigInt t) := do
  let comparisonResult ← absoluteCompare x y
  if x.isZero then return x
  if y.isZero then
    if resultSign = x.sign then return x else unaryMinus x
  else if comparisonResult = .equal then createZero
  else do
    let result ← createWithLengthUnchecked x.length
    let (borrow, result) ← forUp 0 y.length ((0 : t.Digit), result) fun i (borrow, result) => do
      let (difference, newBorrow) := digitSubBorrow (← x.digit i) (← y.digit i) borrow
      return (newBorrow, ← result.setDigit i difference)
    let (_, result) ← forUp y.length x.length (borrow, result) fun i (borrow, result) => do
      let (difference, newBorrow) := digitSub (← x.digit i) borrow 0
      return (newBorrow, ← result.setDigit i difference)
    (result.setSign resultSign).rightTrim

def add (x y : JSBigInt t) : Run t (JSBigInt t) := do
  let xSign := x.sign
  if xSign = y.sign then absoluteAdd x y xSign
  else do
    let comparisonResult ← absoluteCompare x y
    if comparisonResult = .greaterThan ∨ comparisonResult = .equal then absoluteSub x y xSign
    else absoluteSub y x (!xSign)

def sub (x y : JSBigInt t) : Run t (JSBigInt t) := do
  let xSign := x.sign
  if xSign ≠ y.sign then absoluteAdd x y xSign
  else do
    let comparisonResult ← absoluteCompare x y
    if comparisonResult = .greaterThan ∨ comparisonResult = .equal then absoluteSub x y xSign
    else absoluteSub y x (!xSign)

section Loops

variable {exc : Exception → Prop} {s : Heap t} {x y : JSBigInt t}

variable {res : JSBigInt t}

/-- The first loop of `absoluteAdd` leaves the sum of the low digits and a carry. -/
theorem absoluteAdd_pairs_wp (hlen : res.length = x.length + 1) (hyx : y.length ≤ x.length) :
    wp (forUp 0 y.length ((0 : t.Digit), res) fun i (carry, res) => do
        let (sum, newCarry) := digitAddCarry (← x.digit i) (← y.digit i) carry
        return (newCarry, ← res.setDigit i sum))
      (fun (carry, r) _ => r.length = x.length + 1 ∧ carry.toNat ≤ 1 ∧
        window r.digits 0 y.length + carry.toNat * (2 ^ t.digitBits) ^ y.length =
          window x.digits 0 y.length + window y.digits 0 y.length) exc s := by
  have hw := radix_gt t
  refine wp_forUp (fun i (c : t.Digit × JSBigInt t) _ => c.2.length = x.length + 1 ∧
    c.1.toNat ≤ 1 ∧ window c.2.digits 0 i + c.1.toNat * (2 ^ t.digitBits) ^ i =
      window x.digits 0 i + window y.digits 0 i) (Nat.zero_le _) ⟨hlen, by simp, by simp⟩ ?_
  rintro i ⟨carry, r⟩ s' - hi ⟨hl, hc, hsum⟩
  dsimp only at hl hc hsum
  obtain ⟨column, hc'⟩ := digitAddCarry_spec (by omega)
    (x.digits.getD i 0) (y.digits.getD i 0) carry
  simp only [wp_bind, wp_digit (show i < x.length by omega), wp_digit hi,
    wp_setDigit (show i < r.length by omega), wp_pure]
  refine ⟨by simpa using hl, hc' hc, ?_⟩
  rw [window_set_next (show i < r.length by omega), pow_succ,
    carry_step hsum column, window_succ, window_succ, zero_add, word, word]
  ring

/-- A loop that only propagates the carry through the rest of `x`. -/
theorem carryDigits_wp {first S : Nat} {carry : t.Digit}
    (hlen : x.length ≤ res.length) (hf : first ≤ x.length) (hc : carry.toNat ≤ 1)
    (hs : window res.digits 0 first + carry.toNat * (2 ^ t.digitBits) ^ first =
      window x.digits 0 first + S) :
    wp (forUp first x.length (carry, res) fun i (carry, res) => do
        let (sum, newCarry) := digitAdd (← x.digit i) carry 0
        return (newCarry, ← res.setDigit i sum))
      (fun (carry, r) _ => r.length = res.length ∧
        window r.digits 0 x.length + carry.toNat * (2 ^ t.digitBits) ^ x.length =
          x.magnitude + S) exc s := by
  have hw := radix_gt t
  rw [magnitude_eq_window]
  refine wp_post (wp_forUp (fun i (c : t.Digit × JSBigInt t) _ => c.2.length = res.length ∧
    c.1.toNat ≤ 1 ∧ window c.2.digits 0 i + c.1.toNat * (2 ^ t.digitBits) ^ i =
      window x.digits 0 i + S) hf ⟨rfl, hc, hs⟩ ?_) (fun c s' h => ⟨h.1, h.2.2⟩)
  rintro i ⟨carry, r⟩ s' - hi ⟨hl, hc, hsum⟩
  dsimp only at hl hc hsum
  obtain ⟨column, hc'⟩ := digitAdd_zero_spec (by omega) (x.digits.getD i 0) carry
  simp only [wp_bind, wp_digit hi, wp_setDigit (show i < r.length by omega), wp_pure]
  refine ⟨by simpa using hl, hc', ?_⟩
  rw [window_set_next (show i < r.length by omega), pow_succ,
    carry_step hsum column, window_succ, zero_add, word]
  ring

theorem absoluteSub_pairs_wp (hlen : res.length = x.length) (hyx : y.length ≤ x.length) :
    wp (forUp 0 y.length ((0 : t.Digit), res) fun i (borrow, res) => do
        let (difference, newBorrow) := digitSubBorrow (← x.digit i) (← y.digit i) borrow
        return (newBorrow, ← res.setDigit i difference))
      (fun (borrow, r) _ => r.length = x.length ∧ borrow.toNat ≤ 1 ∧
        window r.digits 0 y.length + window y.digits 0 y.length =
          window x.digits 0 y.length + borrow.toNat * (2 ^ t.digitBits) ^ y.length) exc s := by
  have hw := radix_gt t
  refine wp_forUp (fun i (c : t.Digit × JSBigInt t) _ => c.2.length = x.length ∧
    c.1.toNat ≤ 1 ∧ window c.2.digits 0 i + window y.digits 0 i =
      window x.digits 0 i + c.1.toNat * (2 ^ t.digitBits) ^ i) (Nat.zero_le _)
        ⟨hlen, by simp, by simp⟩ ?_
  rintro i ⟨borrow, r⟩ s' - hi ⟨hl, hb, hsum⟩
  dsimp only at hl hb hsum
  obtain ⟨column, hb'⟩ := digitSubBorrow_spec (by omega)
    (x.digits.getD i 0) (y.digits.getD i 0) borrow
  simp only [wp_bind, wp_digit (show i < x.length by omega), wp_digit hi,
    wp_setDigit (show i < r.length by omega), wp_pure]
  refine ⟨by simpa using hl, hb' hb, ?_⟩
  rw [window_set_next (show i < r.length by omega), pow_succ, window_succ, window_succ, zero_add]
  exact borrow_step hsum column

/-- The same for the borrow. Borrowing past the end would leave a difference longer than
`x`, so a subtrahend that is not larger leaves none. -/
theorem borrowDigits_wp {first S : Nat} {borrow : t.Digit}
    (hlen : x.length ≤ res.length) (hf : first ≤ x.length) (hb : borrow.toNat ≤ 1)
    (hS : S ≤ x.magnitude) (hsta : window res.digits 0 first + S =
      window x.digits 0 first + borrow.toNat * (2 ^ t.digitBits) ^ first) :
    wp (forUp first x.length (borrow, res) fun i (borrow, res) => do
        let (difference, newBorrow) := digitSub (← x.digit i) borrow 0
        return (newBorrow, ← res.setDigit i difference))
      (fun (borrow, r) _ => r.sign = res.sign ∧ r.length = res.length ∧ borrow = 0 ∧
        window r.digits 0 x.length = x.magnitude - S) exc s := by
  have hw := radix_gt t
  refine wp_post (wp_forUp (fun i (c : t.Digit × JSBigInt t) _ => c.2.sign = res.sign ∧
    c.2.length = res.length ∧ c.1.toNat ≤ 1 ∧ window c.2.digits 0 i + S =
      window x.digits 0 i + c.1.toNat * (2 ^ t.digitBits) ^ i) hf ⟨rfl, rfl, hb, hsta⟩ ?_) ?_
  rotate_left
  · rintro ⟨borrow, r⟩ s' ⟨hs, hl, hb, hsum⟩
    dsimp only at hs hl hb hsum
    rw [← magnitude_eq_window] at hsum
    have hlt := window_lt r.digits 0 x.length
    have hb0 : borrow.toNat = 0 :=
      carry_eq_zero (V := x.magnitude - S) (S := window r.digits 0 x.length) (by omega) hlt
    rw [hb0] at hsum
    exact ⟨hs, hl, BitVec.eq_of_toNat_eq (by simpa using hb0), by omega⟩
  rintro i ⟨borrow, r⟩ s' - hi ⟨hs, hl, hb, hsum⟩
  dsimp only at hs hl hb hsum
  obtain ⟨column, hb'⟩ := digitSub_zero_spec (by omega) (x.digits.getD i 0) borrow
  simp only [wp_bind, wp_digit hi, wp_setDigit (show i < r.length by omega), wp_pure]
  refine ⟨hs, by simpa using hl, hb', ?_⟩
  rw [window_set_next (show i < r.length by omega), pow_succ, window_succ, zero_add]
  have step := borrow_step (s := 0) hsum (by rw [add_zero]; exact column)
  rwa [zero_mul, add_zero] at step

/-- The operand itself, or its negation, when the other one is zero. -/
theorem sameOrMinus_wp (hx : x.Canonical) (b : Bool) :
    wp (if b = x.sign then pure x else unaryMinus x)
      (fun r _ => Denotes (signed b x.magnitude) x.length r) exc s := by
  split_ifs with h
  · rw [wp_pure, h]
    exact ⟨hx, rfl, le_refl _⟩
  · rw [Bool.eq_not.mpr h, signed_not]
    exact unaryMinus_wp hx

end Loops

section Results

variable {s : Heap t} {x y : JSBigInt t} (hx : x.Canonical)

include hx

theorem absoluteAddLonger_wp (hyx : y.length ≤ x.length) (b : Bool) :
    wp (absoluteAddLonger x y b)
      (fun r _ => Denotes (signed b (x.magnitude + y.magnitude)) (max x.length t.maxLength) r)
      (fun e => e = .outOfMemoryError ∧ t.maxLength ≤ x.length) s := by
  unfold absoluteAddLonger
  by_cases hx0 : x.isZero = true
  · have hl := (isZero_iff x).mp hx0
    simp only [hx0, if_true, wp_pure]
    refine ⟨hx, ?_, by omega⟩
    rw [hx.toInt_eq_zero_iff.mpr hl, magnitude_of_length_zero hl,
      magnitude_of_length_zero (x := y) (by omega), signed_zero]
  · simp only [hx0, Bool.false_eq_true, if_false]
    by_cases hy0 : y.isZero = true
    · simp only [hy0, if_true]
      rw [magnitude_of_length_zero ((isZero_iff y).mp hy0), add_zero]
      exact wp_post (sameOrMinus_wp hx b) (fun r s' hr => hr.mono (by omega))
    simp only [hy0, Bool.false_eq_true, if_false, wp_bind]
    refine wp_tryCreateWithLength (fun hro r s' _ hl => ?_) (fun hlo => ⟨rfl, by omega⟩)
    refine wp_post (absoluteAdd_pairs_wp hl hyx) ?_
    rintro ⟨carry, r⟩ s' ⟨hl, hc, hsum⟩
    refine wp_post (carryDigits_wp (by dsimp only; omega) hyx hc hsum) ?_
    rintro ⟨carry, r⟩ s' ⟨hl', hsum⟩
    dsimp only at hl' hsum ⊢
    have hl : r.length = x.length + 1 := by omega
    simp only [wp_setDigit (show x.length < r.length by omega)]
    have hmag : JSBigInt.magnitude { r with digits := r.digits.set x.length carry } =
        x.magnitude + y.magnitude := by
      rw [magnitude_eq_window, length_set, hl, magnitude_eq_window y, ← hsum]
      exact window_set_next (show x.length < r.length by omega)
    refine signAndTrim_wp (by rw [length_set]; omega) hmag ?_
    rw [← hmag]
    refine lt_of_lt_of_le (magnitude_lt _) (Nat.pow_le_pow_right (radix_pos t) ?_)
    rw [length_set]
    omega

theorem absoluteAdd_wp (hy : y.Canonical) (b : Bool) :
    wp (absoluteAdd x y b) (fun r _ => Denotes (signed b (x.magnitude + y.magnitude))
        (max (max x.length y.length) t.maxLength) r)
      (fun e => e = .outOfMemoryError ∧ t.maxLength ≤ max x.length y.length) s := by
  unfold absoluteAdd
  split_ifs with h
  · rw [add_comm x.magnitude, max_eq_right (le_of_lt h)]
    exact absoluteAddLonger_wp hy (by omega) b
  · rw [max_eq_left (show y.length ≤ x.length by omega)]
    exact absoluteAddLonger_wp hx (by omega) b

theorem absoluteSub_wp {exc : Exception → Prop} (hy : y.Canonical)
    (hyx : y.magnitude ≤ x.magnitude) (b : Bool) :
    wp (absoluteSub x y b)
      (fun r _ => Denotes (signed b (x.magnitude - y.magnitude)) x.length r) exc s := by
  have hlen : y.length ≤ x.length :=
    hy.length_le_of_magnitude_le (lt_of_le_of_lt hyx x.magnitude_lt)
  unfold absoluteSub
  refine wp_seq (absoluteCompare_wp hx hy) ?_
  rintro c s' rfl
  by_cases hx0 : x.isZero = true
  · have hl := (isZero_iff x).mp hx0
    simp only [hx0, if_true, wp_pure]
    refine ⟨hx, ?_, le_refl _⟩
    rw [hx.toInt_eq_zero_iff.mpr hl, magnitude_of_length_zero hl, Nat.zero_sub, signed_zero]
  · simp only [hx0, Bool.false_eq_true, if_false]
    by_cases hy0 : y.isZero = true
    · simp only [hy0, if_true]
      rw [magnitude_of_length_zero ((isZero_iff y).mp hy0), Nat.sub_zero]
      exact sameOrMinus_wp hx b
    simp only [hy0, Bool.false_eq_true, if_false]
    rcases ComparisonResult.of_cases x.magnitude y.magnitude with ⟨h, -⟩ | ⟨h, hc⟩ | ⟨h, hc⟩
    · omega
    · simp only [hc, reduceCtorEq, if_false, wp_bind]
      refine wp_createWithLengthUnchecked (fun r s' _ hl => ?_)
      refine wp_post (absoluteSub_pairs_wp hl hlen) ?_
      rintro ⟨borrow, r⟩ s' ⟨hl, hb, hsum⟩
      rw [← magnitude_eq_window y] at hsum
      refine wp_post (borrowDigits_wp (by dsimp only; omega) hlen hb hyx hsum) ?_
      rintro ⟨borrow, r⟩ s' ⟨-, hl', -, hd⟩
      rw [hl] at hl'
      exact signAndTrim_wp (fun h => hx0 ((isZero_iff x).mpr (hl' ▸ h)))
        (by rw [magnitude_eq_window, hl', hd])
        (lt_of_le_of_lt (Nat.sub_le _ _) x.magnitude_lt)
    · simp only [hc, if_true]
      exact createZero_wp (by rw [h, Nat.sub_self, signed_zero])

/-- The common tail of `add` and `sub`: the larger magnitude keeps its sign. -/
theorem absoluteDifference_wp {exc : Exception → Prop} (hy : y.Canonical) (b : Bool) :
    wp (do
        let comparisonResult ← absoluteCompare x y
        if comparisonResult = .greaterThan ∨ comparisonResult = .equal then absoluteSub x y b
        else absoluteSub y x (!b))
      (fun r _ => Denotes (signed b x.magnitude - signed b y.magnitude)
        (max x.length y.length) r) exc s := by
  refine wp_seq (absoluteCompare_wp hx hy) ?_
  rintro c s' rfl
  rcases ComparisonResult.of_cases x.magnitude y.magnitude with ⟨h, hc⟩ | ⟨h, hc⟩ | ⟨h, hc⟩
  · simp only [hc, reduceCtorEq, or_self, if_false]
    rw [← Int.neg_sub, ← signed_sub b h.le, ← signed_not]
    exact wp_post (absoluteSub_wp hy hx h.le (!b)) (fun r s' hr => hr.mono (le_max_right _ _))
  all_goals
    simp only [hc, reduceCtorEq, true_or, or_true, if_true]
    rw [← signed_sub b (by omega)]
    exact wp_post (absoluteSub_wp hx hy (by omega) b) (fun r s' hr => hr.mono (le_max_left _ _))

theorem add_wp (hy : y.Canonical) :
    wp (add x y)
      (fun r _ => Denotes (x.toInt + y.toInt) (max (max x.length y.length) t.maxLength) r)
      (fun e => e = .outOfMemoryError ∧ t.maxLength ≤ max x.length y.length) s := by
  unfold add
  by_cases hs : x.sign = y.sign
  · rw [if_pos hs]
    rw [toInt, toInt, ← hs, ← signed_add]
    exact absoluteAdd_wp hx hy x.sign
  · rw [if_neg hs, toInt, toInt, Bool.eq_not.mpr (Ne.symm hs), signed_not, ← Int.sub_eq_add_neg]
    exact wp_mono (absoluteDifference_wp hx hy x.sign) (fun r s' hr => hr.mono (le_max_left _ _))
      (fun _ he => he)

theorem sub_wp (hy : y.Canonical) :
    wp (sub x y)
      (fun r _ => Denotes (x.toInt - y.toInt) (max (max x.length y.length) t.maxLength) r)
      (fun e => e = .outOfMemoryError ∧ t.maxLength ≤ max x.length y.length) s := by
  unfold sub
  by_cases hs : x.sign = y.sign
  · rw [if_neg (not_not.mpr hs), toInt, toInt, ← hs]
    exact wp_post (absoluteDifference_wp hx hy x.sign) (fun r s' hr => hr.mono (le_max_left _ _))
  · rw [if_pos hs, toInt, toInt, Bool.eq_not.mpr (Ne.symm hs), signed_not, Int.sub_neg,
      ← signed_add]
    exact absoluteAdd_wp hx hy x.sign

end Results

end JavaScriptCore.Runtime.JSBigInt
