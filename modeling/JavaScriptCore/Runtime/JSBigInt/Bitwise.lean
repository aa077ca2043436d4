import JavaScriptCore.Runtime.JSBigInt.AddSub
import Mathlib.Data.Int.Bitwise

/-!
# Bitwise operations

`runtime/JSBigInt.cpp:392-504, 528-536, 1171-1290`. A negative operand `-n` is read in
two's complement as the complement of `n - 1`, and every operation is reduced to a
digitwise one on nonnegative numbers by the identity its source comment states. The
digitwise operation has two switches: what becomes of the digits only one operand
has, and whether the longer operand may be taken first.
-/

namespace JavaScriptCore.Runtime.JSBigInt

open JavaScriptCore.ProgramLogic JavaScriptCore.Numeral Nat BitVec Int

variable {t : Target}

inductive ExtraDigitsHandling where
  | copy | skip
  deriving DecidableEq, Repr

inductive SymmetricOp where
  | symmetric | notSymmetric
  deriving DecidableEq, Repr

inductive SignOption where
  | unsigned | signed
  deriving DecidableEq, Repr

def absoluteBitwiseOp (x y : JSBigInt t) (extraDigits : ExtraDigitsHandling)
    (symmetry : SymmetricOp) (op : t.Digit → t.Digit → t.Digit) : Run t (JSBigInt t) := do
  let numPairs := min x.length y.length
  let (x, y) := if x.length < y.length ∧ symmetry = .symmetric then (y, x) else (x, y)
  let resultLength := if extraDigits = .copy then x.length else numPairs
  let result ← createWithLengthUnchecked resultLength
  let result ← forUp 0 numPairs result fun i result => do
    result.setDigit i (op (← x.digit i) (← y.digit i))
  let (i, result) ← (if extraDigits = .copy then do
      let result ← forUp numPairs x.length result fun i result => do
        result.setDigit i (← x.digit i)
      return (x.length, result)
    else pure (numPairs, result))
  let result ← forUp i resultLength result fun i result => result.setDigit i 0
  result.rightTrim

def absoluteAnd (x y : JSBigInt t) : Run t (JSBigInt t) :=
  absoluteBitwiseOp x y .skip .symmetric fun a b => a &&& b

def absoluteOr (x y : JSBigInt t) : Run t (JSBigInt t) :=
  absoluteBitwiseOp x y .copy .symmetric fun a b => a ||| b

def absoluteAndNot (x y : JSBigInt t) : Run t (JSBigInt t) :=
  absoluteBitwiseOp x y .copy .notSymmetric fun a b => a &&& ~~~b

def absoluteXor (x y : JSBigInt t) : Run t (JSBigInt t) :=
  absoluteBitwiseOp x y .copy .symmetric fun a b => a ^^^ b

/-- The scan for a digit that is not at its maximum. -/
def addOneOverflows (x : JSBigInt t) : Nat → Nat → Run t Bool
  | 0, _ => pure true
  | count + 1, i => do
    if allOnes _ ≠ (← x.digit i) then return false else addOneOverflows x count (i + 1)

def absoluteAddOne (x : JSBigInt t) (signOption : SignOption) : Run t (JSBigInt t) := do
  let inputLength := x.length
  let willOverflow ← addOneOverflows x inputLength 0
  let resultLength := inputLength + willOverflow.toNat
  let result ← tryCreateWithLength resultLength
  let (carry, result) ← forUp 0 x.length ((1 : t.Digit), result) fun i (carry, result) => do
    let (sum, newCarry) := digitAdd (← x.digit i) carry 0
    return (newCarry, ← result.setDigit i sum)
  let result ← (if resultLength > inputLength then result.setDigit inputLength carry
    else pure result)
  (result.setSign (signOption = .signed)).rightTrim

def absoluteSubOne (x : JSBigInt t) (resultLength : Nat) : Run t (JSBigInt t) := do
  let result ← tryCreateWithLength resultLength
  let (borrow, result) ← forUp 0 x.length ((1 : t.Digit), result) fun i (borrow, result) => do
    let (difference, newBorrow) := digitSub (← x.digit i) borrow 0
    return (newBorrow, ← result.setDigit i difference)
  let result ← forUp x.length resultLength result fun i result => result.setDigit i borrow
  result.rightTrim

def bitwiseAnd (x y : JSBigInt t) : Run t (JSBigInt t) := do
  if !x.sign && !y.sign then absoluteAnd x y
  else if x.sign && y.sign then do
    -- (-x) & (-y) == ~(x-1) & ~(y-1) == ~((x-1) | (y-1)) == -(((x-1) | (y-1)) + 1)
    let resultLength := max x.length y.length + 1
    let result ← absoluteSubOne x resultLength
    let y1 ← absoluteSubOne y y.length
    let result ← absoluteOr result y1
    absoluteAddOne result .signed
  else do
    let (x, y) := if x.sign then (y, x) else (x, y)
    -- x & (-y) == x & ~(y-1)
    let y1 ← absoluteSubOne y y.length
    absoluteAndNot x y1

def bitwiseOr (x y : JSBigInt t) : Run t (JSBigInt t) := do
  let resultLength := max x.length y.length
  if !x.sign && !y.sign then absoluteOr x y
  else if x.sign && y.sign then do
    -- (-x) | (-y) == ~(x-1) | ~(y-1) == ~((x-1) & (y-1)) == -(((x-1) & (y-1)) + 1)
    let result ← absoluteSubOne x resultLength
    let y1 ← absoluteSubOne y y.length
    let result ← absoluteAnd result y1
    absoluteAddOne result .signed
  else do
    let (x, y) := if x.sign then (y, x) else (x, y)
    -- x | (-y) == x | ~(y-1) == ~((y-1) &~ x) == -(((y-1) &~ x) + 1)
    let result ← absoluteSubOne y resultLength
    let result ← absoluteAndNot result x
    absoluteAddOne result .signed

def bitwiseXor (x y : JSBigInt t) : Run t (JSBigInt t) := do
  if !x.sign && !y.sign then absoluteXor x y
  else if x.sign && y.sign then do
    -- (-x) ^ (-y) == ~(x-1) ^ ~(y-1) == (x-1) ^ (y-1)
    let resultLength := max x.length y.length
    let result ← absoluteSubOne x resultLength
    let y1 ← absoluteSubOne y y.length
    absoluteXor result y1
  else do
    let resultLength := max x.length y.length + 1
    let (x, y) := if x.sign then (y, x) else (x, y)
    -- x ^ (-y) == x ^ ~(y-1) == ~(x ^ (y-1)) == -((x ^ (y-1)) + 1)
    let result ← absoluteSubOne y resultLength
    let result ← absoluteXor result x
    absoluteAddOne result .signed

def bitwiseNot (x : JSBigInt t) : Run t (JSBigInt t) :=
  -- ~(-x) == ~(~(x-1)) == x-1, and ~x == -x-1 == -(x+1)
  if x.sign then absoluteSubOne x x.length else absoluteAddOne x .signed

section Digitwise

variable {exc : Exception → Prop} {s : Heap t} {x y : JSBigInt t}

theorem testBit_magnitude (x : JSBigInt t) (k : Nat) :
    x.magnitude.testBit k = (word x.digits (k / t.digitBits)).testBit (k % t.digitBits) :=
  testBit_value (digitBits_pos t) x.digits k

/-- A digit operation that acts on every bit as `f`, and the switches under which what is
done with the digits only one operand has is also `f`. -/
structure ActsAs (op : t.Digit → t.Digit → t.Digit) (extraDigits : ExtraDigitsHandling)
    (f : Bool → Bool → Bool) : Prop where
  bits : ∀ a b i, i < t.digitBits → (op a b).toNat.testBit i =
    f (a.toNat.testBit i) (b.toNat.testBit i)
  copy : extraDigits = .copy → ∀ a, f a false = a
  skip : extraDigits = .skip → ∀ a, f a false = false

variable {extraDigits : ExtraDigitsHandling} {op : t.Digit → t.Digit → t.Digit}

theorem ActsAs.magnitude_eq {r : JSBigInt t} {f : Bool → Bool → Bool} {n : Nat}
    (h : ActsAs op extraDigits f) (hs : x.length < y.length → ∀ b, f false b = false)
    (hl : r.length = if extraDigits = .copy then x.length else min x.length y.length)
    (hw : ∀ k, k < r.length → word r.digits k = if k < min x.length y.length
      then (op (x.digits.getD k 0) (y.digits.getD k 0)).toNat else word x.digits k)
    (hn : ∀ k, n.testBit k = f (x.magnitude.testBit k) (y.magnitude.testBit k)) :
    r.magnitude = n := by
  refine eq_of_testBit_eq (fun k => ?_)
  rw [hn, testBit_magnitude, testBit_magnitude, testBit_magnitude]
  have hbit : k % t.digitBits < t.digitBits := mod_lt _ (digitBits_pos t)
  generalize k / t.digitBits = d, k % t.digitBits = i at *
  by_cases hp : d < min x.length y.length
  · rw [hw d (by rw [hl]; split <;> omega), if_pos hp]
    exact h.bits _ _ i hbit
  by_cases hdx : d < x.length
  · -- only `x` has this digit
    rw [show word y.digits d = 0 from word_of_le (show y.length ≤ d by omega), zero_testBit]
    cases hc : extraDigits with
    | copy =>
      rw [if_pos hc] at hl
      rw [h.copy hc, hw d (by omega), if_neg hp]
    | skip =>
      rw [if_neg (by rw [hc]; decide)] at hl
      rw [h.skip hc, word_of_le (show r.length ≤ d by omega), zero_testBit]
  · have hr : r.length ≤ d := by
      rw [hl]
      split <;> omega
    rw [word_of_le hr, show word x.digits d = 0 from word_of_le (show x.length ≤ d by omega),
      zero_testBit]
    by_cases hdy : d < y.length
    · rw [hs (by omega)]
    · rw [show word y.digits d = 0 from word_of_le (show y.length ≤ d by omega), zero_testBit]
      cases hc : extraDigits with
      | copy => rw [h.copy hc]
      | skip => rw [h.skip hc]

theorem absoluteBitwiseOp_wp {symmetry : SymmetricOp} {f : Bool → Bool → Bool} {n : Nat}
    (h : ActsAs op extraDigits f) (hsym : symmetry = .symmetric → ∀ a b, f a b = f b a)
    (hnot : symmetry = .notSymmetric → ∀ b, f false b = false)
    (hn : ∀ k, n.testBit k = f (x.magnitude.testBit k) (y.magnitude.testBit k)) :
    wp (absoluteBitwiseOp x y extraDigits symmetry op)
      (fun r _ => Denotes n (max x.length y.length) r) exc s := by
  -- the operands in the order in which the loops take them
  obtain ⟨a, b, hab, hle, hmin, hshort, hn⟩ : ∃ a b : JSBigInt t,
      (if x.length < y.length ∧ symmetry = .symmetric then (y, x) else (x, y)) = (a, b) ∧
      max a.length b.length = max x.length y.length ∧
      min x.length y.length = min a.length b.length ∧
      (a.length < b.length → ∀ c, f false c = false) ∧
      ∀ k, n.testBit k = f (a.magnitude.testBit k) (b.magnitude.testBit k) := by
    by_cases hsw : x.length < y.length ∧ symmetry = .symmetric
    · exact ⟨y, x, if_pos hsw, by omega, by omega, fun hlt => by omega,
        fun k => by rw [hn, hsym hsw.2]⟩
    · refine ⟨x, y, if_neg hsw, rfl, rfl, fun hlt => hnot ?_, hn⟩
      cases hs : symmetry with
      | symmetric => exact absurd ⟨hlt, hs⟩ hsw
      | notSymmetric => rfl
  unfold absoluteBitwiseOp
  rw [hab, hmin, ← hle, wp_bind]
  refine wp_createWithLengthUnchecked (fun r₀ s' hsg hl => ?_)
  have hp : min a.length b.length ≤ r₀.length := by rw [hl]; split <;> omega
  refine wp_seq (fillDigits_wp (g := fun i => op (a.digits.getD i 0) (b.digits.getD i 0))
    (zero_le _) hp ?_) ?_
  · intro i r s' _ hi hlen
    simp only [wp_bind, wp_digit (show i < a.length by omega),
      wp_digit (show i < b.length by omega), wp_setDigit (show i < r.length by omega)]
  rintro r₁ s' ⟨hsi, hl₁, hw₁⟩
  refine wp_seq (p := fun c _ => c.1 = r₀.length ∧ c.2.sign = false ∧ c.2.length = r₀.length ∧
    ∀ k, k < c.2.length → word c.2.digits k = if k < min a.length b.length
      then (op (a.digits.getD k 0) (b.digits.getD k 0)).toNat else word a.digits k) ?_ ?_
  · by_cases hc : extraDigits = .copy
    · simp only [hc, if_true] at hl ⊢
      refine wp_seq (fillDigits_wp (g := fun i => a.digits.getD i 0) (min_le_left _ _)
        (by omega) ?_) ?_
      · intro i r s' _ hi hlen
        simp only [wp_bind, wp_digit hi, wp_setDigit (show i < r.length by omega)]
      rintro r₂ s' ⟨hs, hl₂, hw₂⟩
      refine ⟨hl.symm, by rw [hs, hsi, hsg], hl₂.trans hl₁, fun k hk => ?_⟩
      rw [hw₂, hw₁]
      by_cases hkp : k < min a.length b.length
      · rw [if_neg (by omega), if_pos ⟨zero_le _, hkp⟩, if_pos hkp]
      · rw [if_pos (by dsimp only at hk; omega), if_neg hkp]
        rfl
    · simp only [hc, if_false, wp_pure] at hl ⊢
      refine ⟨hl.symm, by rw [hsi, hsg], hl₁, fun k hk => ?_⟩
      rw [hw₁, if_pos (by omega), if_pos (by omega)]
  · rintro ⟨i, r₂⟩ s' ⟨hi, hs, hl₂, hw₂⟩
    dsimp only at hi hs hl₂ hw₂ ⊢
    -- both branches leave nothing for the last loop
    rw [hi, ← hl, show forUp r₀.length r₀.length r₂ (fun i res => res.setDigit i 0) =
      (pure r₂ : Run t (JSBigInt t)) by simp [forUp, forUpCount], pure_bind]
    have hint : r₂.toInt = n := by
      rw [toInt, hs, h.magnitude_eq hshort (hl₂.trans hl) hw₂ hn, signed_false]
    rw [← hint]
    exact wp_post (rightTrim_wp fun _ => hs) fun c s' hc =>
      hc.mono (by rw [hl₂, hl]; split <;> omega)

theorem absoluteAnd_wp : wp (absoluteAnd x y)
    (fun r _ => Denotes (x.magnitude &&& y.magnitude : Nat) (max x.length y.length) r) exc s :=
  absoluteBitwiseOp_wp (f := fun a b => a && b)
    ⟨fun a b i _ => by simp [toNat_and, testBit_and], by simp, by simp⟩
    (fun _ => Bool.and_comm) (by simp) (fun k => testBit_and _ _ _)

theorem absoluteOr_wp : wp (absoluteOr x y)
    (fun r _ => Denotes (x.magnitude ||| y.magnitude : Nat) (max x.length y.length) r) exc s :=
  absoluteBitwiseOp_wp (f := fun a b => a || b)
    ⟨fun a b i _ => by simp [toNat_or, testBit_or], by simp, by simp⟩
    (fun _ => Bool.or_comm) (by simp) (fun k => testBit_or _ _ _)

theorem absoluteXor_wp : wp (absoluteXor x y)
    (fun r _ => Denotes (x.magnitude ^^^ y.magnitude : Nat) (max x.length y.length) r) exc s :=
  absoluteBitwiseOp_wp (f := fun a b => a ^^ b)
    ⟨fun a b i _ => by simp [toNat_xor, testBit_xor], by simp, by simp⟩
    (fun _ => Bool.xor_comm) (by simp) (fun k => testBit_xor _ _ _)

theorem absoluteAndNot_wp : wp (absoluteAndNot x y)
    (fun r _ => Denotes (ldiff x.magnitude y.magnitude : Nat) (max x.length y.length) r)
    exc s :=
  absoluteBitwiseOp_wp (f := fun a b => a && !b)
    ⟨fun a b i hi => by
      change (a &&& ~~~b).getLsbD i = _
      simp only [getLsbD_and, getLsbD_not, hi, decide_true, Bool.true_and]
      rfl, by simp, by simp⟩
    (by simp) (by simp) (fun k => testBit_ldiff _ _ _)

end Digitwise

section PlusMinusOne

variable {s : Heap t} {x : JSBigInt t}

theorem addOneOverflows_wp {exc : Exception → Prop} :
    ∀ {count i : Nat}, i + count ≤ x.length →
      wp (addOneOverflows x count i) (fun b _ => b = true ↔
        ∀ k, i ≤ k → k < i + count → word x.digits k = 2 ^ t.digitBits - 1) exc s
  | 0, i, _ => by
    simp only [addOneOverflows, wp_pure]
    exact ⟨fun _ k hk hlt => by omega, fun _ => trivial⟩
  | count + 1, i, h => by
    simp only [addOneOverflows, wp_bind, wp_digit (show i < x.length by omega)]
    by_cases hd : allOnes t.digitBits = x.digits.getD i 0
    · have hw : word x.digits i = 2 ^ t.digitBits - 1 := by
        rw [word, ← hd, toNat_allOnes]
      simp only [hd, ne_eq, not_true_eq_false, if_false]
      refine wp_post (addOneOverflows_wp (by omega)) (fun b s' hb => ?_)
      rw [hb, forall_from_succ, and_iff_right hw]
    · simp only [hd, ne_eq, not_false_eq_true, if_true, wp_pure]
      refine ⟨fun h => by simp at h, fun h' => absurd ?_ hd⟩
      refine eq_of_toNat_eq ?_
      rw [toNat_allOnes]
      exact (h' i (le_refl _) (by omega)).symm

/-- There is no memory for more than so many digits. -/
def Exhausts (t : Target) (n : Nat) (e : Exception) : Prop :=
  e = .outOfMemoryError ∧ t.maxLength ≤ n

theorem absoluteAddOne_wp (signOption : SignOption) :
    wp (absoluteAddOne x signOption)
      (fun r _ => Denotes (JSBigInt.signed (signOption = .signed) (x.magnitude + 1)) t.maxLength r)
      (fun e => Exhausts t x.length e ∧ (t.maxLength < x.length ∨
        x.magnitude + 1 = (2 ^ t.digitBits) ^ x.length)) s := by
  have hone := toNat_one t
  unfold absoluteAddOne
  refine wp_seq (addOneOverflows_wp (by omega)) (fun b s' hb => ?_)
  rw [wp_bind]
  refine wp_tryCreateWithLength (fun hro r s' _ hl => ?_) (fun hlo => ⟨⟨rfl, ?_⟩, ?_⟩)
  rotate_left
  · have hle := Bool.toNat_le b
    omega
  · cases b with
    | false => exact .inl hlo
    | true =>
      right
      rw [magnitude_eq_window]
      exact window_max (fun k hk => hb.mp rfl _ (zero_le _) (by omega))
  refine wp_seq (carryDigits_wp (S := 1) (by omega) (zero_le _) (by omega) (by rw [hone]; simp)) ?_
  rintro ⟨carry, r₁⟩ s' ⟨hl₁, hsum⟩
  refine wp_seq (p := fun c _ => c.length = x.length + b.toNat ∧ 0 < c.length ∧
    c.magnitude = x.magnitude + 1) ?_ ?_
  · cases b with
    | true =>
      simp only [Bool.toNat_true, gt_iff_lt, Nat.lt_add_one, if_true] at hl ⊢
      rw [wp_setDigit (by omega)]
      refine ⟨by rw [length_set]; omega, by rw [length_set]; omega, ?_⟩
      rw [magnitude_eq_window, length_set, show r₁.length = x.length + 1 by omega,
        window_set_next (show x.length < r₁.length by omega), hsum]
    | false =>
      -- some digit is not at its maximum, so the sum fits the length of `x`
      obtain ⟨k, -, hk, hne⟩ : ∃ k, 0 ≤ k ∧ k < 0 + x.length ∧
          word x.digits k ≠ 2 ^ t.digitBits - 1 := by
        by_contra hall
        push Not at hall
        exact absurd (hb.mpr hall) (by decide)
      have hf : window x.digits 0 x.length + 1 < (2 ^ t.digitBits) ^ x.length :=
        window_lt_max (k := k) (by omega) (by rwa [zero_add])
      rw [← magnitude_eq_window] at hf
      rw [carry_eq_zero hsum hf, Nat.zero_mul, Nat.add_zero] at hsum
      simp only [Bool.toNat_false, add_zero, gt_iff_lt, lt_irrefl, if_false, wp_pure] at hl ⊢
      exact ⟨by omega, by omega,
        by rw [magnitude_eq_window, show r₁.length = x.length by omega, hsum]⟩
  · rintro c s' ⟨hlc, hpos, hmag⟩
    refine signAndTrim_wp (by omega) hmag ?_
    rw [← hmag]
    exact lt_of_lt_of_le c.magnitude_lt (Nat.pow_le_pow_right (radix_pos t) (by omega))

theorem absoluteSubOne_wp {rlen n : Nat} (hx : x.magnitude ≠ 0) (hlen : x.length ≤ rlen)
    (hn : rlen ≤ n + 1) :
    wp (absoluteSubOne x rlen) (fun r _ => Denotes (x.magnitude - 1 : Nat) x.length r)
      (Exhausts t n) s := by
  have hone := toNat_one t
  unfold absoluteSubOne
  rw [wp_bind]
  refine wp_tryCreateWithLength (fun hr r s' hsg hl => ?_) (fun _ => ⟨rfl, by omega⟩)
  refine wp_seq (borrowDigits_wp (S := 1) (by omega) (zero_le _) (by omega) (by omega)
    (by rw [hone]; simp)) ?_
  rintro ⟨borrow, r₁⟩ s' ⟨hs, hl₁, hb, hd⟩
  rw [wp_bind, hb, ← hl, ← hl₁]
  refine wp_post (zeroDigits_wp (by omega)) ?_
  rintro r₂ s' ⟨hsi, hl₂, hmag⟩
  have hpos : r₂.sign = false := by rw [hsi, hs, hsg]
  have hint : r₂.toInt = (x.magnitude - 1 : Nat) := by rw [toInt, hpos, hmag, hd, signed_false]
  refine wp_post (rightTrim_wp (fun _ => hpos)) (fun c s' hc => ⟨hc.canonical, ?_, ?_⟩)
  · rw [hc.toInt_eq, hint]
  · refine hc.canonical.length_le_of_magnitude_le ?_
    rw [← natAbs_toInt, hc.toInt_eq, hint, natAbs_natCast]
    exact lt_of_le_of_lt (sub_le _ _) x.magnitude_lt

end PlusMinusOne

section Results

variable {s : Heap t} {x y : JSBigInt t}

theorem toInt_of_positive (h : x.sign = false) : x.toInt = ofNat x.magnitude := by
  rw [toInt, h]
  rfl

/-- A negative operand in two's complement is the complement of one less. -/
theorem Canonical.toInt_of_negative (hx : x.Canonical) (h : x.sign = true) :
    x.magnitude ≠ 0 ∧ x.toInt = negSucc (x.magnitude - 1) := by
  have hlt := hx.toInt_lt_zero h
  rw [toInt, h, signed_true] at hlt
  refine ⟨by omega, ?_⟩
  rw [toInt, h, signed_true]
  omega

theorem Denotes.magnitude_eq {n bound : Nat} {r : JSBigInt t} (h : Denotes n bound r) :
    r.magnitude = n := Denotes.magnitude_signed (b := false) h

/-- The last step of the operations with a negative result. -/
theorem negativeResult_wp {r : JSBigInt t} {n bound len : Nat} (hr : r.magnitude = n)
    (hlen : r.length ≤ len) :
    wp (absoluteAddOne r .signed) (fun c _ => Denotes (negSucc n) (max bound t.maxLength) c)
      (Exhausts t len) s := by
  refine wp_mono (absoluteAddOne_wp .signed) (fun c s' hc => ⟨hc.canonical, ?_, ?_⟩)
    (fun e he => ⟨he.1.1, le_trans he.1.2 hlen⟩)
  · rw [hc.toInt_eq, hr]
    simp only [decide_true, signed_true]
    omega
  · exact le_trans hc.length_le (le_max_right _ _)

section Negated

variable {op : JSBigInt t → JSBigInt t → Run t (JSBigInt t)} {f : Nat → Nat → Nat}
  {rlen len bound : Nat} (hop : ∀ {x y : JSBigInt t} {s : Heap t}, wp (op x y) (fun r _ =>
    Denotes (f x.magnitude y.magnitude : Nat) (max x.length y.length) r) (Exhausts t len) s)
  (hx : x.magnitude ≠ 0) (hl : x.length ≤ rlen ∧ rlen ≤ len + 1)
  (hlen : max x.length y.length ≤ len)
include hop hx hl hlen

theorem negated_wp : wp (do absoluteAddOne (← op (← absoluteSubOne x rlen) y) .signed)
    (fun r _ => Denotes (negSucc (f (x.magnitude - 1) y.magnitude)) (max bound t.maxLength) r)
    (Exhausts t len) s := by
  refine wp_seq (absoluteSubOne_wp hx hl.1 hl.2) (fun x1 s' hx1 => ?_)
  refine wp_seq hop (fun r s' hr => ?_)
  have hlr := hr.length_le
  have hl1 := hx1.length_le
  exact negativeResult_wp (by rw [hr.magnitude_eq, hx1.magnitude_eq]) (by omega)

theorem negated_pair_wp (hy : y.magnitude ≠ 0) :
    wp (do
        let result ← absoluteSubOne x rlen
        let y1 ← absoluteSubOne y y.length
        let result ← op result y1
        absoluteAddOne result .signed)
      (fun r _ => Denotes (negSucc (f (x.magnitude - 1) (y.magnitude - 1)))
        (max bound t.maxLength) r)
      (Exhausts t len) s := by
  refine wp_seq (absoluteSubOne_wp hx hl.1 hl.2) (fun x1 s' hx1 => ?_)
  refine wp_seq (absoluteSubOne_wp hy (le_refl _) (by omega)) (fun y1 s' hy1 => ?_)
  refine wp_seq hop (fun r s' hr => ?_)
  have hlr := hr.length_le
  have hl1 := hx1.length_le
  have hl2 := hy1.length_le
  exact negativeResult_wp (by rw [hr.magnitude_eq, hx1.magnitude_eq, hy1.magnitude_eq]) (by omega)

end Negated

theorem bitwiseAnd_mixed_wp (hy : y.magnitude ≠ 0) :
    wp (do absoluteAndNot x (← absoluteSubOne y y.length))
      (fun r _ => Denotes (ldiff x.magnitude (y.magnitude - 1) : Nat)
        (max (max x.length y.length) t.maxLength) r) (Exhausts t (max x.length y.length)) s := by
  refine wp_seq (absoluteSubOne_wp hy (le_refl _) (by omega)) (fun y1 s' hy1 => ?_)
  rw [← hy1.magnitude_eq]
  exact wp_post absoluteAndNot_wp fun r s' h => h.mono (by have := hy1.length_le; omega)

variable (hx : x.Canonical)

include hx

theorem bitwiseAnd_wp (hy : y.Canonical) :
    wp (bitwiseAnd x y)
      (fun r _ => Denotes (x.toInt.land y.toInt) (max (max x.length y.length) t.maxLength) r)
      (Exhausts t (max x.length y.length)) s := by
  unfold bitwiseAnd
  cases hsx : x.sign <;> cases hsy : y.sign
  · rw [toInt_of_positive hsx, toInt_of_positive hsy]
    exact wp_post absoluteAnd_wp (fun r s' h => h.mono (le_max_left _ _))
  · obtain ⟨hmy, hiy⟩ := hy.toInt_of_negative hsy
    rw [toInt_of_positive hsx, hiy]
    exact bitwiseAnd_mixed_wp hmy
  · obtain ⟨hmx, hix⟩ := hx.toInt_of_negative hsx
    rw [toInt_of_positive hsy, hix, max_comm x.length]
    exact bitwiseAnd_mixed_wp hmx
  · obtain ⟨hmx, hix⟩ := hx.toInt_of_negative hsx
    obtain ⟨hmy, hiy⟩ := hy.toInt_of_negative hsy
    rw [hix, hiy]
    exact negated_pair_wp absoluteOr_wp hmx (by omega) (le_refl _) hmy

theorem bitwiseOr_wp (hy : y.Canonical) :
    wp (bitwiseOr x y)
      (fun r _ => Denotes (x.toInt.lor y.toInt) (max (max x.length y.length) t.maxLength) r)
      (Exhausts t (max x.length y.length)) s := by
  unfold bitwiseOr
  cases hsx : x.sign <;> cases hsy : y.sign
  · rw [toInt_of_positive hsx, toInt_of_positive hsy]
    exact wp_post absoluteOr_wp (fun r s' h => h.mono (le_max_left _ _))
  · obtain ⟨hmy, hiy⟩ := hy.toInt_of_negative hsy
    rw [toInt_of_positive hsx, hiy]
    exact negated_wp absoluteAndNot_wp hmy (by omega) (by omega)
  · obtain ⟨hmx, hix⟩ := hx.toInt_of_negative hsx
    rw [toInt_of_positive hsy, hix]
    exact negated_wp absoluteAndNot_wp hmx (by omega) (le_refl _)
  · obtain ⟨hmx, hix⟩ := hx.toInt_of_negative hsx
    obtain ⟨hmy, hiy⟩ := hy.toInt_of_negative hsy
    rw [hix, hiy]
    exact negated_pair_wp absoluteAnd_wp hmx (by omega) (le_refl _) hmy

theorem bitwiseXor_wp (hy : y.Canonical) :
    wp (bitwiseXor x y)
      (fun r _ => Denotes (x.toInt.xor y.toInt) (max (max x.length y.length) t.maxLength) r)
      (Exhausts t (max x.length y.length)) s := by
  unfold bitwiseXor
  cases hsx : x.sign <;> cases hsy : y.sign
  · rw [toInt_of_positive hsx, toInt_of_positive hsy]
    exact wp_post absoluteXor_wp (fun r s' h => h.mono (le_max_left _ _))
  · obtain ⟨hmy, hiy⟩ := hy.toInt_of_negative hsy
    rw [toInt_of_positive hsx, hiy, Int.xor, Nat.xor_comm]
    exact negated_wp absoluteXor_wp hmy (by omega) (by omega)
  · obtain ⟨hmx, hix⟩ := hx.toInt_of_negative hsx
    rw [toInt_of_positive hsy, hix]
    exact negated_wp absoluteXor_wp hmx (by omega) (le_refl _)
  · obtain ⟨hmx, hix⟩ := hx.toInt_of_negative hsx
    obtain ⟨hmy, hiy⟩ := hy.toInt_of_negative hsy
    rw [hix, hiy]
    simp only [Bool.not_true, Bool.and_self, Bool.false_eq_true, if_false, if_true, wp_bind]
    refine wp_post (absoluteSubOne_wp hmx (by omega) (by omega)) (fun x1 s' hx1 => ?_)
    refine wp_post (absoluteSubOne_wp hmy (le_refl _) (by omega)) (fun y1 s' hy1 => ?_)
    rw [Int.xor, ← hx1.magnitude_eq, ← hy1.magnitude_eq]
    refine wp_post absoluteXor_wp (fun r s' hr => hr.mono ?_)
    have := hx1.length_le
    have := hy1.length_le
    omega

theorem bitwiseNot_wp :
    wp (bitwiseNot x) (fun r _ => Denotes x.toInt.lnot (max x.length t.maxLength) r)
      (Exhausts t x.length) s := by
  unfold bitwiseNot
  cases hsx : x.sign
  · rw [toInt_of_positive hsx]
    exact negativeResult_wp rfl (le_refl _)
  · obtain ⟨hmx, hix⟩ := hx.toInt_of_negative hsx
    rw [hix]
    exact wp_post (absoluteSubOne_wp hmx (le_refl _) (by omega))
      (fun r s' h => h.mono (le_max_left _ _))

omit hx

/-- Every bit of the result is the operation on the two's complement bits of the
operands, and the result is canonical; an operand has the most digits if there is none. -/
theorem bitwise_twosComplement (hx : x.Canonical) (hy : y.Canonical) (heap : Heap t) :
    wp (bitwiseAnd x y) (fun r _ => r.Canonical ∧
        ∀ i, r.toInt.testBit i = (x.toInt.testBit i && y.toInt.testBit i))
        (Exhausts t (max x.length y.length)) heap ∧
      wp (bitwiseOr x y) (fun r _ => r.Canonical ∧
        ∀ i, r.toInt.testBit i = (x.toInt.testBit i || y.toInt.testBit i))
        (Exhausts t (max x.length y.length)) heap ∧
      wp (bitwiseXor x y) (fun r _ => r.Canonical ∧
        ∀ i, r.toInt.testBit i = (x.toInt.testBit i ^^ y.toInt.testBit i))
        (Exhausts t (max x.length y.length)) heap ∧
      wp (bitwiseNot x) (fun r _ => r.Canonical ∧ ∀ i, r.toInt.testBit i = !x.toInt.testBit i)
        (Exhausts t x.length) heap :=
  ⟨wp_post (bitwiseAnd_wp hx hy) (fun r _ h =>
      ⟨h.canonical, fun i => by rw [h.toInt_eq, Int.testBit_land]⟩),
    wp_post (bitwiseOr_wp hx hy) (fun r _ h =>
      ⟨h.canonical, fun i => by rw [h.toInt_eq, Int.testBit_lor]⟩),
    wp_post (bitwiseXor_wp hx hy) (fun r _ h =>
      ⟨h.canonical, fun i => by rw [h.toInt_eq, Int.testBit_lxor]⟩),
    wp_post (bitwiseNot_wp hx) (fun r _ h =>
      ⟨h.canonical, fun i => by rw [h.toInt_eq, Int.testBit_lnot]⟩)⟩

theorem bitwise_twosComplement_at :
    wp (bitwiseAnd (t := ⟨false, false, false⟩) ⟨true, [0, 1]⟩ ⟨true, [5]⟩)
      (fun r _ => r.Canonical ∧ ∀ i, r.toInt.testBit i =
        ((-4294967296 : Int).testBit i && (-5 : Int).testBit i))
      (fun _ => False) ⟨0, fun _ _ => 0⟩ :=
  wp_mono (bitwise_twosComplement (t := ⟨false, false, false⟩) (x := ⟨true, [0, 1]⟩)
    (y := ⟨true, [5]⟩) ⟨by decide, by decide⟩ ⟨by decide, by decide⟩ ⟨0, fun _ _ => 0⟩).1
    (fun _ _ h => h) fun _ h => absurd h.2 (by decide)

end Results

end JavaScriptCore.Runtime.JSBigInt
