import JavaScriptCore.Runtime.JSBigInt.Cell

/-!
# The integer a cell denotes

A cell denotes its magnitude with its sign. Canonical cells (no leading zero digit,
zero unsigned) denote different integers when they differ, which is what `equals`,
`compare` and `isZero` rely on; `rightTrim` is how producers restore the form.
-/

namespace JavaScriptCore.Runtime.JSBigInt

open JavaScriptCore.ProgramLogic JavaScriptCore.Numeral Nat

variable {t : Target}

def magnitude (x : JSBigInt t) : Nat := value x.digits

def signed (sign : Bool) (n : Nat) : Int := if sign then -(n : Int) else n

def toInt (x : JSBigInt t) : Int := signed x.sign x.magnitude

structure Canonical (x : JSBigInt t) : Prop where
  zero_positive : x.length = 0 → x.sign = false
  top_nonzero : x.length ≠ 0 → word x.digits (x.length - 1) ≠ 0

/-- What an operation promises about the cell it returns. -/
structure Denotes (n : Int) (bound : Nat) (r : JSBigInt t) : Prop where
  canonical : r.Canonical
  toInt_eq : r.toInt = n
  length_le : r.length ≤ bound

variable {r : JSBigInt t} {bound : Nat}

theorem Denotes.mono {n : Int} {bound' : Nat} (h : Denotes n bound r)
    (hb : bound ≤ bound') : Denotes n bound' r := ⟨h.1, h.2, h.3.trans hb⟩

theorem radix_gt (t : Target) : 4294967295 < 2 ^ t.digitBits := by
  rcases t.digitBits_cases with h | h <;> simp [h]

theorem toNat_one (t : Target) : (1 : t.Digit).toNat = 1 := by
  have := radix_gt t
  exact mod_eq_of_lt (show 1 < 2 ^ t.digitBits by omega)

theorem digitBits_pos (t : Target) : 0 < t.digitBits := by
  rcases t.digitBits_cases with h | h <;> omega

theorem radix_pos (t : Target) : 0 < 2 ^ t.digitBits := Nat.two_pow_pos _

variable (x : JSBigInt t)

@[simp] theorem length_setSign (b : Bool) : (x.setSign b).length = x.length := rfl

@[simp] theorem sign_setSign (b : Bool) : (x.setSign b).sign = b := rfl

@[simp] theorem digits_setSign (b : Bool) : (x.setSign b).digits = x.digits := rfl

@[simp] theorem magnitude_setSign (b : Bool) : (x.setSign b).magnitude = x.magnitude := rfl

@[simp] theorem signed_false (n : Nat) : signed false n = n := rfl

@[simp] theorem signed_true (n : Nat) : signed true n = -(n : Int) := rfl

@[simp] theorem signed_zero (b : Bool) : signed b 0 = 0 := by cases b <;> rfl

variable (b : Bool)

theorem signed_not (n : Nat) : signed (!b) n = -signed b n := by cases b <;> simp

theorem signed_add (m n : Nat) : signed b (m + n) = signed b m + signed b n := by
  cases b
  · rfl
  · simp only [signed_true]
    omega

variable {n : Nat}

theorem signed_sub {m : Nat} (h : n ≤ m) :
    signed b (m - n) = signed b m - signed b n := by
  cases b <;> simp <;> omega

@[simp] theorem natAbs_signed (b : Bool) (n : Nat) : (signed b n).natAbs = n := by cases b <;> simp

@[simp] theorem toInt_setSign (b : Bool) : (x.setSign b).toInt = signed b x.magnitude := rfl

theorem natAbs_toInt : x.toInt.natAbs = x.magnitude := natAbs_signed _ _

theorem Denotes.magnitude_signed {b : Bool}
    (h : Denotes (signed b n) bound r) : r.magnitude = n := by
  rw [← natAbs_toInt, h.toInt_eq, natAbs_signed]

theorem isZero_iff : x.isZero = true ↔ x.length = 0 := by simp [isZero]

theorem magnitude_eq_window : x.magnitude = window x.digits 0 x.length := value_eq_window x.digits

theorem magnitude_lt : x.magnitude < (2 ^ t.digitBits) ^ x.length := value_lt x.digits

variable {x : JSBigInt t}

theorem magnitude_of_length_zero (h : x.length = 0) : x.magnitude = 0 := by
  have : x.digits = [] := List.eq_nil_of_length_eq_zero h
  simp [magnitude, this]

variable {k : Nat}

theorem magnitude_split (hk : k ≤ x.length) :
    x.magnitude = window x.digits 0 k +
      (2 ^ t.digitBits) ^ k * window x.digits k (x.length - k) := by
  obtain ⟨m, hm⟩ := Nat.exists_eq_add_of_le hk
  rw [magnitude_eq_window, hm, window_add, Nat.zero_add, Nat.add_sub_cancel_left]

theorem magnitude_div_digits (hk : k ≤ x.length) :
    x.magnitude / (2 ^ t.digitBits) ^ k = window x.digits k (x.length - k) := by
  rw [magnitude_split hk, add_mul_div_left _ _ (Nat.pow_pos (radix_pos t)),
    div_eq_of_lt (window_lt _ _ _), zero_add]

theorem magnitude_mod_digits (hk : k ≤ x.length) :
    x.magnitude % (2 ^ t.digitBits) ^ k = window x.digits 0 k := by
  rw [magnitude_split hk, add_mul_mod_self_left, mod_eq_of_lt (window_lt _ _ _)]

theorem word_eq_magnitude_div_mod (hk : k < x.length) :
    word x.digits k = x.magnitude / (2 ^ t.digitBits) ^ k % 2 ^ t.digitBits := by
  obtain ⟨n, hn⟩ := Nat.exists_eq_add_of_lt hk
  rw [magnitude_div_digits (le_of_lt hk), show x.length - k = n + 1 by omega, window_bottom,
    add_mul_mod_self_left, mod_eq_of_lt (word_lt _ _)]

theorem top_eq_magnitude_div (hx : x.length ≠ 0) :
    word x.digits (x.length - 1) = x.magnitude / (2 ^ t.digitBits) ^ (x.length - 1) := by
  rw [magnitude_div_digits (sub_le _ _), show x.length - (x.length - 1) = 0 + 1 by omega,
    window_succ]
  simp

@[simp] theorem length_initializeWithZero :
    x.initializeWithZero.length = x.length := by simp [initializeWithZero, length]

@[simp] theorem magnitude_initializeWithZero : x.initializeWithZero.magnitude = 0 := by
  rw [magnitude_eq_window, window_eq_zero_iff]
  exact fun k _ => word_replicate_zero _ _

theorem toNat_digit_of_length_one (h : x.length = 1) :
    (x.digits.getD 0 0).toNat = x.magnitude := by
  rw [magnitude_eq_window, h, window_succ]
  simp [word]

namespace Canonical

variable {x y : JSBigInt t} (hx : x.Canonical)

include hx

theorem pow_le_magnitude (h : x.length ≠ 0) :
    (2 ^ t.digitBits) ^ (x.length - 1) ≤ x.magnitude :=
  pow_le_value (show x.digits.length = x.length - 1 + 1 by unfold length at *; omega)
    (hx.top_nonzero h)

theorem magnitude_eq_zero_iff : x.magnitude = 0 ↔ x.length = 0 := by
  refine ⟨fun h => ?_, magnitude_of_length_zero⟩
  by_contra hl
  have := hx.pow_le_magnitude hl
  have := pow_pos (n := x.length - 1) (radix_pos t)
  omega

theorem toInt_eq_zero_iff : x.toInt = 0 ↔ x.length = 0 := by
  rw [← hx.magnitude_eq_zero_iff, ← natAbs_toInt, Int.natAbs_eq_zero]

theorem length_le_of_magnitude_le (h : x.magnitude < (2 ^ t.digitBits) ^ n) :
    x.length ≤ n := by
  by_contra hl
  have hne : x.length ≠ 0 := by omega
  have h1 := hx.pow_le_magnitude hne
  have h2 : (2 ^ t.digitBits) ^ n ≤ (2 ^ t.digitBits) ^ (x.length - 1) :=
    Nat.pow_le_pow_right (radix_pos t) (by omega)
  omega

theorem length_eq_of_magnitude_eq (hy : y.Canonical)
    (h : x.magnitude = y.magnitude) : x.length = y.length :=
  le_antisymm (hx.length_le_of_magnitude_le (h ▸ y.magnitude_lt))
    (hy.length_le_of_magnitude_le (h ▸ x.magnitude_lt))

omit hx

theorem magnitude_lt_of_length_lt (hy : y.Canonical) (h : x.length < y.length) :
    x.magnitude < y.magnitude :=
  calc
    x.magnitude < (2 ^ t.digitBits) ^ x.length := x.magnitude_lt
    _ ≤ (2 ^ t.digitBits) ^ (y.length - 1) := Nat.pow_le_pow_right (radix_pos t) (by omega)
    _ ≤ y.magnitude := hy.pow_le_magnitude (by omega)

/-- Equal integers are denoted by one canonical cell. -/
theorem eq_of_toInt_eq (hx : x.Canonical) (hy : y.Canonical) (h : x.toInt = y.toInt) : x = y := by
  have hmag : x.magnitude = y.magnitude := by rw [← natAbs_toInt, ← natAbs_toInt, h]
  have hlen := hx.length_eq_of_magnitude_eq hy hmag
  have hd : x.digits = y.digits := eq_of_value_eq hlen hmag
  have hs : x.sign = y.sign := by
    by_cases hz : x.length = 0
    · rw [hx.zero_positive hz, hy.zero_positive (hlen ▸ hz)]
    · have hpos : x.magnitude ≠ 0 := fun h0 => hz (hx.magnitude_eq_zero_iff.mp h0)
      unfold toInt at h
      cases hsx : x.sign <;> cases hsy : y.sign <;> simp [hsx, hsy] at h ⊢ <;> omega
  cases x
  cases y
  simp_all

end Canonical

section Access

variable {post : t.Digit → Heap t → Prop} {exc : Exception → Prop} {s : Heap t}

theorem wp_digit (h : n < x.length) :
    wp (x.digit n) post exc s ↔ post (x.digits.getD n 0) s := by
  have hget : x.digits[n]? = some x.digits[n] := List.getElem?_eq_getElem h
  simp [digit, hget]

variable {post : JSBigInt t → Heap t → Prop}

theorem wp_setDigit {v : t.Digit} (h : n < x.length) :
    wp (x.setDigit n v) post exc s ↔ post { x with digits := x.digits.set n v } s := by
  simp [setDigit, h]

theorem wp_createWithLengthUnchecked (h : ∀ r s', r.sign = false → r.length = n → post r s') :
    wp (createWithLengthUnchecked n) post exc s :=
  h _ _ rfl (by simp [length])

theorem wp_tryCreateWithLength
    (h : n ≤ t.maxLength → ∀ r s', r.sign = false → r.length = n → post r s')
    (hexc : t.maxLength < n → exc .outOfMemoryError) :
    wp (tryCreateWithLength n) post exc s := by
  unfold tryCreateWithLength
  split_ifs with hn
  · simpa [hn] using hexc hn
  · exact wp_createWithLengthUnchecked (h (by omega))

theorem createZero_wp {n : Int} (hn : n = 0) :
    wp (createZero : Run t (JSBigInt t)) (fun r _ => Denotes n bound r) exc s := by
  refine wp_createWithLengthUnchecked (fun r s' hs hl => ?_)
  refine ⟨⟨fun _ => hs, fun h => absurd hl h⟩, ?_, by omega⟩
  simp [toInt, magnitude_of_length_zero hl, hn]

end Access

@[simp] theorem length_set (n : Nat) (v : t.Digit) :
    length { x with digits := x.digits.set n v } = x.length := by simp [length]

variable {res : JSBigInt t}

/-- A loop that may read the cell it writes still finds the digits it has not reached. -/
theorem getD_unwritten (source : Option (JSBigInt t)) {i : Nat}
    (hl : r.length = res.length) (hi : word r.digits i = word res.digits i) :
    (source.getD r).digits.getD i 0 = (source.getD res).digits.getD i 0 ∧
      (source.getD r).length = (source.getD res).length := by
  cases source with
  | none => exact ⟨BitVec.eq_of_toNat_eq hi, hl⟩
  | some x => exact ⟨rfl, rfl⟩

section Copying

variable {exc : Exception → Prop} {s : Heap t}

/-- A loop whose round `i` only stores the digit `g i` at `i`. -/
theorem fillDigits_wp {first last : Nat} {g : Nat → t.Digit}
    {body : Nat → JSBigInt t → Run t (JSBigInt t)} (hr : first ≤ last) (hl : last ≤ res.length)
    (hb : ∀ i r s, first ≤ i → i < last → r.length = res.length →
      wp (body i r) (fun r' _ => r' = { r with digits := r.digits.set i (g i) }) exc s) :
    wp (forUp first last res body) (fun r _ => r.sign = res.sign ∧
      r.length = res.length ∧ ∀ k, word r.digits k =
        if first ≤ k ∧ k < last then (g k).toNat else word res.digits k) exc s := by
  refine wp_forUp (fun i (r : JSBigInt t) _ => r.sign = res.sign ∧ r.length = res.length ∧
    ∀ k, word r.digits k = if first ≤ k ∧ k < i then (g k).toNat else word res.digits k)
    hr ⟨rfl, rfl, fun k => by rw [if_neg (by omega)]⟩ ?_
  rintro i r s' hf hi ⟨hs, hlen, hd⟩
  refine wp_post (hb i r s' hf hi hlen) ?_
  rintro r' s'' rfl
  refine ⟨hs, by simpa using hlen, fun k => ?_⟩
  rw [word_set (show i < r.length by omega), hd k]
  by_cases hk : k = i
  · rw [if_pos hk, if_pos (by omega), hk]
  · rw [if_neg hk]
    by_cases hlt : first ≤ k ∧ k < i
    · rw [if_pos hlt, if_pos (by omega)]
    · rw [if_neg hlt, if_neg (by omega)]

theorem copyDigits_wp (source res : JSBigInt t) {count : Nat} (hs : count ≤ source.length)
    (hr : count ≤ res.length) :
    wp (copyDigits source count res) (fun r _ => r.sign = res.sign ∧
      r.length = res.length ∧ ∀ k, k < count → word r.digits k = word source.digits k) exc s := by
  refine wp_post (fillDigits_wp (g := fun i => source.digits.getD i 0) (zero_le _) hr ?_) ?_
  · intro i r s' _ hi hlen
    simp only [wp_bind, wp_digit (show i < source.length by omega),
      wp_setDigit (show i < r.length by omega)]
  · rintro r s' ⟨hsg, hlen, hw⟩
    exact ⟨hsg, hlen, fun k hk => by rw [hw k, if_pos ⟨zero_le _, hk⟩]; rfl⟩

theorem zeroDigits_wp {first : Nat} (hf : first ≤ res.length) :
    wp (forUp first res.length res fun n res => res.setDigit n 0)
      (fun r _ => r.sign = res.sign ∧ r.length = res.length ∧
        r.magnitude = window res.digits 0 first) exc s := by
  refine wp_post (fillDigits_wp (g := fun _ => 0) hf (le_refl _)
    (fun i r s' _ hi hl => by rw [wp_setDigit (by omega)])) ?_
  rintro r s' ⟨hs, hl, hw⟩
  refine ⟨hs, hl, ?_⟩
  obtain ⟨k, hk⟩ := Nat.exists_eq_add_of_le hf
  have hlow : window r.digits 0 first = window res.digits 0 first :=
    window_congr (fun i _ hi => by rw [hw, if_neg (by omega)])
  have hh : window r.digits (0 + first) k = 0 :=
    (window_eq_zero_iff _ _ _).mpr (fun i hi => by rw [hw, if_pos (by omega)]; rfl)
  rw [magnitude_eq_window, hl, hk, window_add, hlow, hh, mul_zero, add_zero]

/-- A fresh cell filled from the first digits of another. -/
theorem copied_magnitude (hlen : r.length = n)
    (h : ∀ k, k < n → word r.digits k = word x.digits k) :
    r.magnitude = window x.digits 0 n := by
  rw [magnitude_eq_window, hlen]
  exact window_congr (fun k _ hk => h k (by omega))

theorem copy_wp (x : JSBigInt t) : wp (copy x) (fun r _ => r = x) exc s := by
  unfold copy
  rw [wp_bind]
  refine wp_createWithLengthUnchecked (fun r s' _ hl => ?_)
  refine wp_seq (copyDigits_wp x r (le_refl _) (by omega)) ?_
  rintro r' s'' ⟨-, hlen, hw⟩
  have hd : r'.digits = x.digits := by
    refine eq_of_value_eq (show r'.length = x.length by omega) ?_
    have := copied_magnitude (show r'.length = x.length by omega) hw
    rwa [← magnitude_eq_window] at this
  simp only [wp_pure, setSign, hd]

theorem unaryMinus_wp (hx : x.Canonical) :
    wp (unaryMinus x) (fun r _ => Denotes (-x.toInt) x.length r) exc s := by
  unfold unaryMinus
  by_cases hz : x.isZero = true
  · have h0 := hx.toInt_eq_zero_iff.mpr ((isZero_iff x).mp hz)
    simp only [hz, if_true, wp_pure]
    exact ⟨hx, by omega, le_refl _⟩
  · have hl : x.length ≠ 0 := fun h => hz ((isZero_iff x).mpr h)
    simp only [hz, Bool.false_eq_true, if_false]
    refine wp_seq (copy_wp x) ?_
    rintro r s' rfl
    exact ⟨⟨fun h => absurd h hl, hx.top_nonzero⟩, signed_not _ _, le_refl _⟩

theorem significantLength_wp (x : JSBigInt t) : ∀ {n : Nat}, n ≤ x.length →
    wp (significantLength x n) (fun m _ => m ≤ n ∧ (m ≠ 0 → word x.digits (m - 1) ≠ 0) ∧
      ∀ k, m ≤ k → k < n → word x.digits k = 0) exc s
  | 0, _ => by
    simp only [significantLength, wp_pure]
    exact ⟨le_refl _, fun h => absurd rfl h, by omega⟩
  | i + 1, hn => by
    simp only [significantLength, wp_bind, wp_digit (show i < x.length by omega)]
    split_ifs with hd
    · refine wp_post (significantLength_wp x (show i ≤ x.length by omega)) ?_
      rintro m s' ⟨hm, htop, hz⟩
      refine ⟨by omega, htop, fun k hk hlt => ?_⟩
      by_cases hki : k = i
      · subst hki
        simp only [word, hd]
        rfl
      · exact hz k hk (by omega)
    · rw [wp_pure]
      refine ⟨le_refl _, fun _ hw => hd ?_, by omega⟩
      exact BitVec.eq_of_toNat_eq (by simpa [word] using hw)

/-- `rightTrim` keeps the integer and leaves no leading zero. Its early return needs
the caller not to have signed an empty cell. -/
theorem rightTrim_wp (hx : x.length = 0 → x.sign = false) :
    wp x.rightTrim (fun r _ => Denotes x.toInt x.length r) exc s := by
  unfold rightTrim
  by_cases hz : x.isZero = true
  · have hl := (isZero_iff x).mp hz
    simp only [hz, if_true, wp_pure]
    exact ⟨⟨hx, fun h => absurd hl h⟩, rfl, le_refl _⟩
  simp only [hz, Bool.false_eq_true, if_false]
  refine wp_seq (significantLength_wp x (le_refl _)) ?_
  rintro m s' ⟨hm, htop, hzero⟩
  have hmag : x.magnitude = window x.digits 0 m := by
    obtain ⟨k, hk⟩ := Nat.exists_eq_add_of_le hm
    have hh : window x.digits (0 + m) k = 0 :=
      (window_eq_zero_iff _ _ _).mpr (fun j hj => hzero _ (by omega) (by omega))
    rw [magnitude_eq_window, hk, window_add, hh, mul_zero, add_zero]
  by_cases h0 : m = 0
  · rw [if_pos h0]
    exact createZero_wp (by simp [toInt, hmag, h0])
  rw [if_neg h0]
  split_ifs with hs
  · rw [wp_pure]
    exact ⟨⟨hx, fun _ => hs ▸ htop h0⟩, rfl, le_refl _⟩
  rw [wp_bind]
  refine wp_createWithLengthUnchecked (fun r s'' _ hl => ?_)
  refine wp_seq (copyDigits_wp x r hm (by omega)) ?_
  rintro r' s''' ⟨-, hlen, hw⟩
  have hl' : r'.length = m := by omega
  refine ⟨⟨fun h => absurd (hl'.symm.trans h) h0, fun _ => ?_⟩, ?_, hl' ▸ hm⟩
  · rw [digits_setSign, length_setSign, hl', hw (m - 1) (by omega)]
    exact htop h0
  · rw [toInt_setSign, copied_magnitude hl' hw, ← hmag, toInt]

/-- How most operations end: sign the magnitude found and trim. -/
theorem signAndTrim_wp {b : Bool}
    (hl : r.length ≠ 0) (hm : r.magnitude = n) (hb : n < (2 ^ t.digitBits) ^ bound) :
    wp (r.setSign b).rightTrim (fun c _ => Denotes (signed b n) bound c) exc s := by
  refine wp_post (rightTrim_wp (fun h => absurd h hl)) (fun c s' hc => ⟨hc.canonical, ?_, ?_⟩)
  · rw [hc.toInt_eq, toInt_setSign, hm]
  · refine hc.canonical.length_le_of_magnitude_le ?_
    rwa [← natAbs_toInt, hc.toInt_eq, toInt_setSign, natAbs_signed, hm]

end Copying

section Comparison

namespace ComparisonResult

variable {α : Type} [LinearOrder α] {a b : α}

/-- The order of two values, in the source's enumeration. -/
def of {α : Type} [LinearOrder α] (a b : α) : ComparisonResult :=
  if a < b then .lessThan else if b < a then .greaterThan else .equal

theorem of_lt (h : a < b) : of a b = .lessThan := if_pos h

theorem of_gt (h : b < a) : of a b = .greaterThan := by rw [of, if_neg (lt_asymm h), if_pos h]

@[simp] theorem of_self (a : α) : of a a = .equal := by simp [of]

theorem of_cases (a b : α) : (a < b ∧ of a b = .lessThan) ∨ (b < a ∧ of a b = .greaterThan) ∨
    (a = b ∧ of a b = .equal) := by
  rcases lt_trichotomy a b with h | rfl | h
  · exact .inl ⟨h, of_lt h⟩
  · exact .inr (.inr ⟨rfl, of_self a⟩)
  · exact .inr (.inl ⟨h, of_gt h⟩)

theorem of_ne_lessThan (h : ¬ a < b) : of a b ≠ .lessThan := by
  rw [of, if_neg h]
  split <;> decide

end ComparisonResult

variable {exc : Exception → Prop} {s : Heap t} {x y : JSBigInt t}

theorem absoluteCompareBelow_wp {L : Nat} (hx : L = x.length) (hy : L = y.length) :
    ∀ {n : Nat}, n ≤ L → (∀ k, n ≤ k → k < L → word x.digits k = word y.digits k) →
      wp (absoluteCompareBelow x y n) (fun r _ => r = .of x.magnitude y.magnitude) exc s
  | 0, _, hs => by
    simp only [absoluteCompareBelow, wp_pure]
    have : x.magnitude = y.magnitude := by
      rw [magnitude_eq_window, magnitude_eq_window, ← hx, ← hy]
      exact window_congr (fun k _ hk => hs k (by omega) (by omega))
    rw [this, ComparisonResult.of_self]
  | i + 1, hi, hs => by
    simp only [absoluteCompareBelow, wp_bind, wp_digit (show i < x.length by omega),
      wp_digit (show i < y.length by omega)]
    by_cases hd : x.digits.getD i 0 = y.digits.getD i 0
    · rw [if_pos hd]
      refine absoluteCompareBelow_wp hx hy (by omega) (fun k hk hlt => ?_)
      by_cases hki : k = i
      · rw [hki, word, word, hd]
      · exact hs k (by omega) hlt
    · have above : ∀ k, i < k → k < L → word x.digits k = word y.digits k := fun k hk => hs k hk
      have hne : word x.digits i ≠ word y.digits i := fun h => hd (BitVec.eq_of_toNat_eq h)
      rw [if_neg hd, wp_pure, magnitude_eq_window, magnitude_eq_window, ← hx, ← hy]
      split_ifs with hgt
      · rw [ComparisonResult.of_gt]
        exact window_lt_of_word_lt (by omega) (fun k hk hlt => (above k hk hlt).symm) hgt
      · rw [ComparisonResult.of_lt]
        have hle : word x.digits i ≤ word y.digits i := Nat.le_of_not_lt hgt
        exact window_lt_of_word_lt (by omega) above (by omega)

theorem absoluteCompare_wp (hx : x.Canonical) (hy : y.Canonical) :
    wp (absoluteCompare x y) (fun r _ => r = .of x.magnitude y.magnitude) exc s := by
  unfold absoluteCompare
  by_cases hd : (x.length : Int) - y.length = 0
  · simp only [hd, ne_eq, not_true_eq_false, if_false]
    exact absoluteCompareBelow_wp rfl (by omega) (le_refl _) (by omega)
  · simp only [hd, ne_eq, not_false_eq_true, if_true, wp_pure]
    by_cases hlt : x.length < y.length
    · rw [if_pos (by omega), ComparisonResult.of_lt (hy.magnitude_lt_of_length_lt hlt)]
    · rw [if_neg (by omega), ComparisonResult.of_gt (hx.magnitude_lt_of_length_lt (by omega))]

/-- A signed canonical cell is below zero, so the signs alone can decide. -/
theorem Canonical.toInt_lt_zero (hx : x.Canonical) (h : x.sign = true) : x.toInt < 0 := by
  have hl : x.length ≠ 0 := fun h0 => by simp [hx.zero_positive h0] at h
  have : x.magnitude ≠ 0 := fun h0 => hl (hx.magnitude_eq_zero_iff.mp h0)
  simp only [toInt, h, signed_true]
  omega

theorem toInt_nonneg (h : x.sign = false) : 0 ≤ x.toInt := by
  simp [toInt, h]

theorem compare_wp (hx : x.Canonical) (hy : y.Canonical) :
    wp (compare x y) (fun r _ => r = .of x.toInt y.toInt) exc s := by
  unfold compare
  by_cases hs : x.sign = y.sign
  · simp only [hs, ne_eq, not_true_eq_false, if_false]
    refine wp_seq (absoluteCompare_wp hx hy) ?_
    rintro r s' rfl
    -- two signed cells compare the other way round
    rw [toInt, toInt, hs]
    rcases lt_trichotomy x.magnitude y.magnitude with h | h | h
    · cases y.sign <;> simp [ComparisonResult.of, h, h.le]
    · simp [h]
    · cases y.sign <;> simp [ComparisonResult.of, h, h.le]
  · simp only [hs, ne_eq, not_false_eq_true, if_true, wp_pure]
    cases hb : x.sign
    · have h1 := toInt_nonneg hb
      have h2 := hy.toInt_lt_zero (by simpa [hb] using hs)
      exact (ComparisonResult.of_gt (by omega)).symm
    · have h1 := hx.toInt_lt_zero hb
      have h2 := toInt_nonneg (x := y) (by simpa [hb] using hs)
      exact (ComparisonResult.of_lt (by omega)).symm

/-- What a scan has still to look at. -/
theorem forall_from_succ {P : Nat → Prop} {i count : Nat} :
    (∀ k, i ≤ k → k < i + (count + 1) → P k) ↔ P i ∧ ∀ k, i + 1 ≤ k → k < i + 1 + count → P k := by
  refine ⟨fun h => ⟨h i (by omega) (by omega), fun k hk hlt => h k (by omega) (by omega)⟩, ?_⟩
  rintro ⟨h0, h⟩ k hk hlt
  by_cases hki : k = i
  · rwa [hki]
  · exact h k (by omega) (by omega)

theorem equalsFrom_wp : ∀ {count i : Nat}, i + count ≤ x.length → i + count ≤ y.length →
    wp (equalsFrom x y count i) (fun b _ => b = true ↔
      ∀ k, i ≤ k → k < i + count → word x.digits k = word y.digits k) exc s
  | 0, i, _, _ => by
    simp only [equalsFrom, wp_pure]
    exact ⟨fun _ k hk hlt => by omega, fun _ => trivial⟩
  | count + 1, i, hx, hy => by
    simp only [equalsFrom, wp_bind, wp_digit (show i < x.length by omega),
      wp_digit (show i < y.length by omega)]
    by_cases hd : x.digits.getD i 0 = y.digits.getD i 0
    · simp only [hd, ne_eq, not_true_eq_false, if_false]
      refine wp_post (equalsFrom_wp (i := i + 1) (by omega) (by omega)) ?_
      intro b s' hb
      rw [hb, forall_from_succ, and_iff_right (show word x.digits i = word y.digits i by
        rw [word, word, hd])]
    · simp only [hd, ne_eq, not_false_eq_true, if_true, wp_pure]
      refine ⟨fun h => by simp at h, fun h => ?_⟩
      exact absurd (BitVec.eq_of_toNat_eq (h i (le_refl _) (by omega))) hd

theorem equals_wp (hx : x.Canonical) (hy : y.Canonical) :
    wp (equals x y) (fun b _ => b = true ↔ x.toInt = y.toInt) exc s := by
  unfold equals
  by_cases hs : x.sign = y.sign
  · simp only [hs, ne_eq, not_true_eq_false, if_false]
    by_cases hl : x.length = y.length
    · simp only [hl, not_true_eq_false, if_false]
      refine wp_post (equalsFrom_wp (by omega) (by omega)) ?_
      intro b s' hb
      rw [hb]
      refine ⟨fun h => ?_, fun h k _ _ => by rw [hx.eq_of_toInt_eq hy h]⟩
      have hmag : x.magnitude = y.magnitude := by
        rw [magnitude_eq_window, magnitude_eq_window, hl]
        exact window_congr (fun k _ hk => h k (by omega) hk)
      simp [toInt, hs, hmag]
    · simp only [hl, not_false_eq_true, if_true, wp_pure]
      exact ⟨fun h => by simp at h, fun h => absurd (by rw [hx.eq_of_toInt_eq hy h]) hl⟩
  · simp only [hs, ne_eq, not_false_eq_true, if_true, wp_pure]
    exact ⟨fun h => by simp at h, fun h => absurd (by rw [hx.eq_of_toInt_eq hy h]) hs⟩

end Comparison

section Creation

variable {exc : Exception → Prop} {s : Heap t}

theorem digits_set_single (h : r.length = 1) (d : t.Digit) :
    r.digits.set 0 d = [d] := by
  obtain ⟨e, he⟩ := List.length_eq_one_iff.mp h
  rw [he]
  rfl

theorem canonical_single {sign : Bool} {d : t.Digit} (hd : d.toNat ≠ 0) :
    Canonical (⟨sign, [d]⟩ : JSBigInt t) :=
  ⟨fun h => by simp [length] at h, fun _ => by simpa [length] using hd⟩

/-- A fresh cell of one digit with its digit stored. -/
theorem denotes_single (h : r.length = 1) {sign : Bool} {d : t.Digit} {n : Int}
    (hn : n ≠ 0) (hd : signed sign d.toNat = n) : Denotes n 1 ⟨sign, r.digits.set 0 d⟩ := by
  rw [digits_set_single h]
  refine ⟨canonical_single fun h0 => hn ?_, by simpa [toInt, magnitude] using hd, le_refl _⟩
  rw [← hd, h0, signed_zero]

theorem createFromUInt32_wp (v : BitVec 32) :
    wp (createFromUInt32 v : Run t (JSBigInt t)) (fun r _ => Denotes v.toNat 1 r) exc s := by
  unfold createFromUInt32
  split_ifs with h0
  · exact createZero_wp (by simp [h0])
  have hd : (v.setWidth t.digitBits).toNat = v.toNat :=
    BitVec.toNat_setWidth_of_le (by have := t.digitBits_cases; omega)
  have hne : v.toNat ≠ 0 := fun h => h0 (BitVec.eq_of_toNat_eq h)
  rw [wp_bind]
  refine wp_createWithLengthUnchecked (fun r s' hs hl => ?_)
  rw [wp_setDigit (by omega), hs]
  exact denotes_single hl (by omega) (by rw [hd, signed_false])

theorem toNat_ofInt_of_natAbs_lt {w : Nat} {n : Int} (h0 : 0 ≤ n) (h : n < 2 ^ w) :
    ((BitVec.ofInt w n).toNat : Int) = n := by
  rw [BitVec.toNat_ofInt]
  have : n % ((2 ^ w : Nat) : Int) = n := Int.emod_eq_of_lt h0 (by exact_mod_cast h)
  rw [this]
  omega

theorem createFromInt32_wp (v : BitVec 32) :
    wp (createFromInt32 v : Run t (JSBigInt t)) (fun r _ => Denotes v.toInt 1 r) exc s := by
  unfold createFromInt32
  have hw : (2 : Int) ^ 32 ≤ 2 ^ t.digitBits := by
    rcases t.digitBits_cases with h | h <;> simp [h]
  have hmax := BitVec.toInt_lt (x := v)
  have hmin := BitVec.le_toInt (x := v)
  by_cases h0 : v = 0
  · rw [if_pos h0]
    exact createZero_wp (by simp [h0])
  have hne : v.toInt ≠ 0 := fun h => h0 (BitVec.eq_of_toInt_eq (by simpa using h))
  rw [if_neg h0, wp_bind]
  refine wp_createWithLengthUnchecked (fun r s' hs hl => ?_)
  split_ifs with hneg
  · rw [wp_bind, wp_setDigit (by omega), wp_pure]
    refine denotes_single hl hne ?_
    rw [signed_true, toNat_ofInt_of_natAbs_lt (by omega) (by omega)]
    omega
  · rw [wp_setDigit (by omega), hs]
    exact denotes_single hl hne (toNat_ofInt_of_natAbs_lt (by omega) (by omega))

theorem createFromBool_wp (v : Bool) :
    wp (createFromBool v : Run t (JSBigInt t))
      (fun r _ => Denotes (if v then 1 else 0) 1 r) exc s := by
  unfold createFromBool
  have hone := toNat_one t
  cases v
  · exact createZero_wp rfl
  · simp only [Bool.true_eq_false, if_false, if_true, wp_bind]
    refine wp_createWithLengthUnchecked (fun r s' hs hl => ?_)
    rw [wp_setDigit (by omega), hs]
    exact denotes_single hl (by decide) (hone ▸ rfl)

theorem toNat_neg_of_toInt_neg {w : Nat} {v : BitVec w} (h : v.toInt < 0) :
    ((-v).toNat : Int) = -v.toInt := by
  have hmsb : ¬ 2 * v.toNat < 2 ^ w := fun hn => by
    rw [BitVec.toInt_eq_toNat_of_lt hn] at h
    omega
  rw [BitVec.toInt_eq_toNat_cond, if_neg hmsb, BitVec.toNat_neg, mod_eq_of_lt (by omega)]
  omega

/-- The absolute value the 64-bit constructor stores. -/
theorem int64_magnitude (v : BitVec 64) :
    ((if v.toInt < 0 then -(v + 1) + 1 else v).toNat : Int) = v.toInt.natAbs := by
  split
  next h => rw [BitVec.neg_add, BitVec.sub_add_cancel, toNat_neg_of_toInt_neg h]; omega
  next h =>
    have hlt : 2 * v.toNat < 2 ^ 64 := by
      by_contra hge
      rw [BitVec.toInt_eq_toNat_cond, if_neg hge] at h
      omega
    rw [BitVec.toInt_eq_toNat_of_lt hlt]
    omega

theorem createFromInt64_wide_wp (hw : t.digitBits = 64) (val : BitVec 64) :
    wp (createFromInt64 val : Run t (JSBigInt t)) (fun r _ => Denotes val.toInt 1 r) exc s := by
  have hmag := int64_magnitude val
  unfold createFromInt64
  by_cases h0 : val = 0
  · rw [if_pos h0]
    exact createZero_wp (by simp [h0])
  have hne : val.toInt ≠ 0 := fun h => h0 (BitVec.eq_of_toInt_eq (by simpa using h))
  have hset (v : BitVec 64) : (v.setWidth t.digitBits).toNat = v.toNat :=
    BitVec.toNat_setWidth_of_le hw.ge
  rw [if_neg h0, if_pos hw, wp_bind]
  refine wp_createWithLengthUnchecked (fun r s' hs hl => ?_)
  by_cases hneg : val.toInt < 0
  · rw [if_pos hneg] at hmag
    rw [if_pos hneg, wp_bind, wp_setDigit (by omega), wp_pure]
    exact denotes_single hl hne (by rw [hset, signed_true, hmag]; omega)
  · rw [if_neg hneg] at hmag
    rw [if_neg hneg, wp_setDigit (by omega), hs]
    exact denotes_single hl hne (by rw [hset, signed_false, hmag]; omega)

theorem toNat_lowBits {w : Nat} (hw : w = 32) (v : BitVec 64) :
    ((v &&& 0xffffffff).setWidth w).toNat = v.toNat % 2 ^ 32 := by
  rw [BitVec.toNat_setWidth, hw, BitVec.toNat_and,
    show (0xffffffff : BitVec 64).toNat = 2 ^ 32 - 1 from rfl, and_two_pow_sub_one_eq_mod, mod_mod]

/-- With 32-bit digits the two halves are stored as they are: the result is canonical
exactly when the upper half is not zero. -/
theorem createFromInt64_narrow_wp (hw : t.digitBits = 32) {v : BitVec 64} (h0 : v ≠ 0) :
    wp (createFromInt64 v : Run t (JSBigInt t)) (fun r _ => r.toInt = v.toInt ∧
      r.length = 2 ∧ (r.Canonical ↔ 2 ^ 32 ≤ v.toInt.natAbs)) exc s := by
  have hmag := int64_magnitude v
  unfold createFromInt64
  rw [if_neg h0, if_neg (by omega), wp_bind]
  refine wp_createWithLengthUnchecked (fun r s' hs hl => ?_)
  generalize ht : (if v.toInt < 0 then -(v + 1) + 1 else v) = temp at hmag
  have hp : (if v.toInt < 0 then (-(v + 1) + 1, true) else (v, false)) =
      (temp, decide (v.toInt < 0)) := by
    rw [← ht]
    split <;> simp_all
  have hlow := toNat_lowBits hw temp
  have hh : (((temp >>> 32) &&& 0xffffffff).setWidth t.digitBits).toNat = temp.toNat / 2 ^ 32 := by
    rw [toNat_lowBits hw, BitVec.toNat_ushiftRight, shiftRight_eq_div_pow]
    omega
  obtain ⟨a, b, hab⟩ := List.length_eq_two.mp hl
  simp only [hp, wp_bind]
  rw [wp_setDigit (by omega), wp_setDigit (by rw [length_set]; omega), wp_pure, hab]
  simp only [List.set_cons_zero, List.set_cons_succ, setSign]
  refine ⟨?_, rfl, ?_⟩
  · simp only [toInt, signed, magnitude, value_cons, value_nil, hlow, hh, hw, decide_eq_true_eq]
    split <;> omega
  · have htop (b : Bool) (d e : t.Digit) : Canonical ⟨b, [d, e]⟩ ↔ e.toNat ≠ 0 :=
      ⟨fun h => h.top_nonzero (by simp [length]), fun h => ⟨by simp [length], fun _ => h⟩⟩
    rw [htop, hh]
    omega

end Creation

end JavaScriptCore.Runtime.JSBigInt
