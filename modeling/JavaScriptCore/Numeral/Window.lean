import Mathlib.Data.Nat.Digits.Lemmas

/-!
# Positional numerals over machine words

A numeral is a list of `w`-bit words, least significant first, and denotes
`Nat.ofDigits (2 ^ w)` of its words. Loops that rewrite a numeral in place see it
one word at a time, so the working notion is the window: the value of the `n`
words from index `j`, where words past the end read as zero. A window grows by one
word at its top, ignores writes outside it, and splits at any point; the whole
numeral is the window of its full length.
-/

namespace JavaScriptCore.Numeral

variable {w : Nat}

def word (ds : List (BitVec w)) (i : Nat) : Nat := (ds.getD i 0).toNat

def value (ds : List (BitVec w)) : Nat := Nat.ofDigits (2 ^ w) (ds.map BitVec.toNat)

def window (ds : List (BitVec w)) (j : Nat) : Nat → Nat
  | 0 => 0
  | n + 1 => window ds j n + word ds (j + n) * (2 ^ w) ^ n

theorem word_lt (ds : List (BitVec w)) (i : Nat) : word ds i < 2 ^ w := BitVec.isLt _

variable {ds es : List (BitVec w)} {i k j n : Nat} {d : BitVec w}

theorem word_of_le (h : ds.length ≤ i) : word ds i = 0 := by
  simp [word, List.getElem?_eq_none h]

@[simp] theorem word_cons_zero (d : BitVec w) (ds : List (BitVec w)) :
    word (d :: ds) 0 = d.toNat := rfl

@[simp] theorem word_cons_succ (d : BitVec w) (ds : List (BitVec w)) (i : Nat) :
    word (d :: ds) (i + 1) = word ds i := by simp [word]

theorem word_set (hi : i < ds.length) :
    word (ds.set i d) k = if k = i then d.toNat else word ds k := by
  by_cases h : k = i
  · subst h
    simp [word, hi]
  · have hne : i ≠ k := fun e => h e.symm
    simp [word, h, List.getElem?_set_ne hne]

theorem word_set_ne (h : k ≠ i) : word (ds.set i d) k = word ds k := by
  have hne : i ≠ k := fun e => h e.symm
  simp [word, List.getElem?_set_ne hne]

@[simp] theorem word_replicate_zero (n i : Nat) :
    word (List.replicate n (0 : BitVec w)) i = 0 := by
  simp only [word, List.getD_eq_getElem?_getD, List.getElem?_replicate]
  split <;> simp

@[simp] theorem window_zero (ds : List (BitVec w)) (j : Nat) : window ds j 0 = 0 := rfl

theorem window_succ (ds : List (BitVec w)) (j n : Nat) :
    window ds j (n + 1) = window ds j n + word ds (j + n) * (2 ^ w) ^ n := rfl

theorem window_shift
    (h : ∀ k, k < n → word ds (i + k) = word es (j + k)) : window ds i n = window es j n := by
  induction n with
  | zero => rfl
  | succ n ih => rw [window_succ, window_succ, ih (fun k hk => h k (by omega)), h n (by omega)]

theorem window_congr
    (h : ∀ k, j ≤ k → k < j + n → word ds k = word es k) : window ds j n = window es j n :=
  window_shift (fun k hk => h (j + k) (by omega) (by omega))

theorem window_lt (ds : List (BitVec w)) (j n : Nat) : window ds j n < (2 ^ w) ^ n := by
  induction n with
  | zero => simp
  | succ n ih =>
    have hd : word ds (j + n) + 1 ≤ 2 ^ w := word_lt ds (j + n)
    calc
      window ds j (n + 1) < (2 ^ w) ^ n + word ds (j + n) * (2 ^ w) ^ n := Nat.add_lt_add_right ih _
      _ = (word ds (j + n) + 1) * (2 ^ w) ^ n := by ring
      _ ≤ 2 ^ w * (2 ^ w) ^ n := Nat.mul_le_mul_right _ hd
      _ = (2 ^ w) ^ (n + 1) := by ring

/-- The write that extends a window by its next word. -/
theorem window_set_top (h : j + n < ds.length) :
    window (ds.set (j + n) d) j (n + 1) = window ds j n + d.toNat * (2 ^ w) ^ n := by
  rw [window_succ, word_set h, if_pos rfl]
  congr 1
  exact window_congr (fun k _ hk => word_set_ne (by omega))

theorem window_set_next (h : i < ds.length) :
    window (ds.set i d) 0 (i + 1) = window ds 0 i + d.toNat * (2 ^ w) ^ i := by
  have := window_set_top (j := 0) (n := i) (d := d) (by omega : 0 + i < ds.length)
  rwa [zero_add] at this

theorem window_set_outside (h : i < j ∨ j + n ≤ i) : window (ds.set i d) j n = window ds j n :=
  window_congr (fun k _ _ => word_set_ne (by omega))

theorem window_add (ds : List (BitVec w)) (j m n : Nat) :
    window ds j (m + n) = window ds j m + (2 ^ w) ^ m * window ds (j + m) n := by
  induction n with
  | zero => simp
  | succ n ih =>
    rw [← add_assoc, window_succ, ih, window_succ, pow_add, add_assoc j m n]
    ring

/-- The highest `m` words give a window up to a multiple of their weight. -/
theorem window_between (ds : List (BitVec w)) (j n m : Nat) :
    window ds (j + n) m * (2 ^ w) ^ n ≤ window ds j (n + m) ∧
      window ds j (n + m) < (window ds (j + n) m + 1) * (2 ^ w) ^ n := by
  have := window_lt ds j n
  rw [window_add, add_mul, mul_comm _ ((2 ^ w) ^ n)]
  omega

theorem top_mul_le_window (ds : List (BitVec w)) (j n : Nat) :
    word ds (j + n) * (2 ^ w) ^ n ≤ window ds j (n + 1) := Nat.le_add_left _ _

theorem window_lt_top_mul (ds : List (BitVec w)) (j n : Nat) :
    window ds j (n + 1) < (word ds (j + n) + 1) * (2 ^ w) ^ n := by
  simpa [window_succ] using (window_between ds j n 1).2

theorem window_two (ds : List (BitVec w)) (j : Nat) :
    window ds j 2 = word ds (j + 1) * 2 ^ w + word ds j := by
  simp [window_succ, add_comm]

/-- The word at the bottom of a window. -/
theorem window_bottom (ds : List (BitVec w)) (j n : Nat) :
    window ds j (n + 1) = word ds j + 2 ^ w * window ds (j + 1) n := by
  rw [add_comm n 1, window_add]
  simp [window_succ]

theorem window_cons (d : BitVec w) (ds : List (BitVec w)) (j n : Nat) :
    window (d :: ds) (j + 1) n = window ds j n := by
  induction n with
  | zero => rfl
  | succ n ih =>
    rw [window_succ, window_succ, ih, show j + 1 + n = (j + n) + 1 by omega, word_cons_succ]

/-- A sum that fits the whole numeral fits the window it is added into. -/
theorem window_fits {a S : Nat} (ha : a ≤ n) (h : window ds 0 n + S * (2 ^ w) ^ a < (2 ^ w) ^ n) :
    window ds a (n - a) + S < (2 ^ w) ^ (n - a) := by
  obtain ⟨k, rfl⟩ := Nat.exists_eq_add_of_le ha
  rw [window_add, pow_add, zero_add] at h
  rw [Nat.add_sub_cancel_left]
  apply Nat.lt_of_mul_lt_mul_left (a := (2 ^ w) ^ a)
  rw [mul_add, mul_comm _ S]
  omega

@[simp] theorem value_nil : value ([] : List (BitVec w)) = 0 := rfl

@[simp] theorem value_cons (d : BitVec w) (ds : List (BitVec w)) :
    value (d :: ds) = d.toNat + 2 ^ w * value ds := by simp [value, Nat.ofDigits_cons]

theorem value_eq_window (ds : List (BitVec w)) : value ds = window ds 0 ds.length := by
  induction ds with
  | nil => rfl
  | cons d ds ih =>
    rw [value_cons, List.length_cons, window_bottom, window_cons, ← ih, word_cons_zero]

theorem value_lt (ds : List (BitVec w)) : value ds < (2 ^ w) ^ ds.length := by
  rw [value_eq_window]
  exact window_lt ds 0 ds.length

/-- Two numerals of one length with one value are the same words. -/
theorem eq_of_value_eq (hl : ds.length = es.length) (hv : value ds = value es) : ds = es := by
  induction ds generalizing es with
  | nil =>
    have hn : es = [] := List.eq_nil_of_length_eq_zero (by simpa using hl.symm)
    exact hn.symm
  | cons d ds ih =>
    cases es with
    | nil => simp at hl
    | cons e es =>
      simp only [value_cons] at hv
      have hd := d.isLt
      have he := e.isLt
      have hmod : d.toNat = e.toNat := by
        have := congrArg (· % 2 ^ w) hv
        simpa [Nat.add_mul_mod_self_left, Nat.mod_eq_of_lt hd, Nat.mod_eq_of_lt he] using this
      have hr : value ds = value es := by
        rw [hmod] at hv
        exact Nat.eq_of_mul_eq_mul_left (Nat.two_pow_pos w) (add_left_cancel hv)
      rw [BitVec.eq_of_toNat_eq hmod, ih (by simpa using hl) hr]

/-- A nonzero top word puts the value in the highest power of its length. -/
theorem pow_le_value (hl : ds.length = n + 1) (top : word ds n ≠ 0) : (2 ^ w) ^ n ≤ value ds := by
  rw [value_eq_window, hl, window_succ, zero_add]
  calc
    (2 ^ w) ^ n = 1 * (2 ^ w) ^ n := (one_mul _).symm
    _ ≤ word ds n * (2 ^ w) ^ n := Nat.mul_le_mul_right _ (pos_of_ne_zero top)
    _ ≤ _ := Nat.le_add_left _ _

theorem window_eq_zero_iff (ds : List (BitVec w)) (j n : Nat) :
    window ds j n = 0 ↔ ∀ k, k < n → word ds (j + k) = 0 := by
  induction n with
  | zero => simp
  | succ n ih =>
    have hp : (2 ^ w) ^ n ≠ 0 := by positivity
    rw [window_succ, Nat.add_eq_zero_iff, ih, Nat.mul_eq_zero, or_iff_left hp]
    constructor
    · rintro ⟨low, top⟩ k hk
      rcases Nat.lt_succ_iff_lt_or_eq.mp hk with h | rfl
      · exact low k h
      · exact top
    · intro h
      exact ⟨fun k hk => h k (by omega), h n (by omega)⟩

/-- The highest word in which two numerals differ decides their order. -/
theorem window_lt_of_word_lt (hi : i < n)
    (above : ∀ k, i < k → k < n → word ds k = word es k) (hlt : word ds i < word es i) :
    window ds 0 n < window es 0 n := by
  obtain ⟨k, rfl⟩ := Nat.exists_eq_add_of_lt hi
  rw [show i + k + 1 = (i + 1) + k by omega, window_add ds, window_add es]
  have same : window ds (0 + (i + 1)) k = window es (0 + (i + 1)) k :=
    window_congr (fun l h1 h2 => above l (by omega) (by omega))
  rw [same]
  apply Nat.add_lt_add_right
  rw [window_succ, window_succ, Nat.zero_add]
  calc
    window ds 0 i + word ds i * (2 ^ w) ^ i < (2 ^ w) ^ i + word ds i * (2 ^ w) ^ i :=
      Nat.add_lt_add_right (window_lt ds 0 i) _
    _ = (word ds i + 1) * (2 ^ w) ^ i := by ring
    _ ≤ word es i * (2 ^ w) ^ i := Nat.mul_le_mul_right _ hlt
    _ ≤ _ := Nat.le_add_left _ _

/-- Bits are found in the word of their position. -/
theorem testBit_value (hw : 0 < w) (ds : List (BitVec w)) (k : Nat) :
    (value ds).testBit k = (word ds (k / w)).testBit (k % w) := by
  induction ds generalizing k with
  | nil => simp [word]
  | cons d ds ih =>
    rw [value_cons, Nat.add_comm, Nat.testBit_two_pow_mul_add _ d.isLt]
    split_ifs with hk
    · rw [Nat.div_eq_of_lt hk, Nat.mod_eq_of_lt hk, word_cons_zero]
    · obtain ⟨i, rfl⟩ := Nat.exists_eq_add_of_le (Nat.le_of_not_lt hk)
      rw [Nat.add_sub_cancel_left, ih, Nat.add_div_left _ hw, Nat.add_mod_left, word_cons_succ]

theorem window_max
    (h : ∀ k, k < n → word ds (j + k) = 2 ^ w - 1) : window ds j n + 1 = (2 ^ w) ^ n := by
  induction n with
  | zero => rfl
  | succ n ih =>
    have hpos := Nat.two_pow_pos w
    have hlow := ih (fun k hk => h k (by omega))
    obtain ⟨b, hb⟩ : ∃ b, 2 ^ w = b + 1 := ⟨2 ^ w - 1, by omega⟩
    rw [window_succ, h n (by omega), pow_succ, ← hlow, hb, Nat.add_sub_cancel]
    ring

theorem window_lt_max (hk : k < n)
    (h : word ds (j + k) ≠ 2 ^ w - 1) : window ds j n + 1 < (2 ^ w) ^ n := by
  induction n with
  | zero => omega
  | succ n ih =>
    have hd := word_lt ds (j + n)
    have hpos : 0 < (2 ^ w) ^ n := Nat.pow_pos (Nat.two_pow_pos w)
    by_cases hkn : k = n
    · subst hkn
      have hlow := window_lt ds j k
      calc
        window ds j (k + 1) + 1 ≤ (2 ^ w) ^ k + word ds (j + k) * (2 ^ w) ^ k := by
          rw [window_succ]; omega
        _ = (word ds (j + k) + 1) * (2 ^ w) ^ k := by ring
        _ < 2 ^ w * (2 ^ w) ^ k := Nat.mul_lt_mul_of_pos_right (by omega) hpos
        _ = (2 ^ w) ^ (k + 1) := by ring
    · calc
        window ds j (n + 1) + 1 < (2 ^ w) ^ n + word ds (j + n) * (2 ^ w) ^ n := by
          rw [window_succ]; omega
        _ = (word ds (j + n) + 1) * (2 ^ w) ^ n := by ring
        _ ≤ 2 ^ w * (2 ^ w) ^ n := Nat.mul_le_mul_right _ hd
        _ = (2 ^ w) ^ (n + 1) := by ring

section Columns

variable {V S X P B v s a c c' : Nat}

/-- One column of an addition: the carry into weight `P` becomes the carry out of it. -/
theorem carry_step (done : V + c * P = S) (column : v + c' * B = s + c) :
    V + v * P + c' * (P * B) = S + s * P := by
  calc
    V + v * P + c' * (P * B) = V + (v + c' * B) * P := by ring
    _ = V + c * P + s * P := by rw [column]; ring
    _ = S + s * P := by rw [done]

/-- A sum below the weight of the carry leaves none. -/
theorem carry_eq_zero (sum : V + c * P = S) (fits : S < P) : c = 0 := by
  by_contra hc
  have := Nat.mul_le_mul_right P (pos_of_ne_zero hc)
  omega

/-- One column of a subtraction. -/
theorem borrow_step (done : V + S = X + c * P) (column : v + s + c = a + c' * B) :
    V + v * P + (S + s * P) = X + a * P + c' * (P * B) := by
  calc
    V + v * P + (S + s * P) = V + S + (v + s) * P := by ring
    _ = X + (v + s + c) * P := by rw [done]; ring
    _ = X + a * P + c' * (P * B) := by rw [column]; ring

/-- One digit of a long division: the remainder is brought down in front of the next digit. -/
theorem division_step {Q d r q r' : Nat} (done : Q * d + r = X) (column : q * d + r' = r * B + a) :
    (q + B * Q) * d + r' = a + B * X := by
  calc
    (q + B * Q) * d + r' = q * d + r' + B * (Q * d) := by ring
    _ = a + B * (Q * d + r) := by rw [column]; ring
    _ = a + B * X := by rw [done]

/-- A product of two digits, a digit and an incoming carry that is a digit: what the
column passes on is a digit again. -/
theorem column_out_lt {m n d : Nat} (hd : d < B) (hm : m < B) (hn : n < B)
    (column : v + c' * B ≤ m * n + d + (B - 1)) : c' < B := by
  obtain ⟨b, rfl⟩ : ∃ b, B = b + 1 := ⟨B - 1, by omega⟩
  by_contra h
  have hlow : (b + 1) * (b + 1) ≤ c' * (b + 1) := Nat.mul_le_mul_right _ (by omega)
  have hh : m * n ≤ b * b := Nat.mul_le_mul (by omega) (by omega)
  have hsq : (b + 1) * (b + 1) = b * b + 2 * b + 1 := by ring
  omega

end Columns

end JavaScriptCore.Numeral
