import JavaScriptCore.Collections.WordSet

/-!
# Counting and finding bits

`wtf/StdLibExtras.h:159-170, 328-344`. The count adds up neighbouring bits, pairs and nibbles in
place, and then the bytes by one multiplication. Each of the three steps acts on every byte by
itself, so that a check of all bytes is a check of all words.
-/

namespace JavaScriptCore.Wtf

open BitVec Nat

open Collections.WordSet (ones ones_add)

/-- `bitCount(unsigned)`. -/
def bitCount32 (bits : BitVec 32) : Nat :=
  let bits := bits - ((bits >>> 1) &&& 0x55555555#32)
  let bits := (bits &&& 0x33333333#32) + ((bits >>> 2) &&& 0x33333333#32)
  ((((bits + (bits >>> 4)) &&& 0xF0F0F0F#32) * 0x1010101#32) >>> 24).toNat

/-- `bitCount(uint64_t)`. -/
def bitCount64 (bits : BitVec 64) : Nat :=
  bitCount32 (bits.setWidth 32) + bitCount32 ((bits >>> 32).setWidth 32)

/-- The loop of `findBitInWord`, for so many bits in front of `endIndex`. -/
def findBitLoop {w : Nat} (endIndex : Nat) (value : Bool) : Nat → BitVec w → Nat → Nat × Bool
  | 0, _, _ => (endIndex, false)
  | left + 1, word, index =>
    if word &&& 1#w = if value then 1#w else 0#w then (index, true)
    else findBitLoop endIndex value left (word >>> 1) (index + 1)

/-- `index` afterwards, and whether there is such a bit. -/
def findBitInWord {w : Nat} (word : BitVec w) (index endIndex : Nat) (value : Bool) : Nat × Bool :=
  findBitLoop endIndex value (endIndex - index) (word >>> index) index

/-! ## Counting -/

/-- A word of so many equal bytes. -/
def bytes (byte : Nat) : Nat → Nat
  | 0 => 0
  | k + 1 => byte + 256 * bytes byte k

def pairs (k n : Nat) : Nat := n - (n / 2 &&& bytes 0x55 k)

def nibbles (k n : Nat) : Nat := (n &&& bytes 0x33 k) + (n / 4 &&& bytes 0x33 k)

def wholes (k n : Nat) : Nat := (n + n / 16) &&& bytes 0xF k

theorem and_add_mul {a b : Nat} (ha : a < 256) (hb : b < 256) (m k : Nat) :
    (a + 256 * m) &&& (b + 256 * k) = (a &&& b) + 256 * (m &&& k) := by
  have hmod := and_mod_two_pow (a := a + 256 * m) (b := b + 256 * k) (n := 8)
  have hdiv := and_div_two_pow (a := a + 256 * m) (b := b + 256 * k) (n := 8)
  rw [show (a + 256 * m) % 2 ^ 8 = a by omega, show (b + 256 * k) % 2 ^ 8 = b by omega] at hmod
  rw [show (a + 256 * m) / 2 ^ 8 = m by omega, show (b + 256 * k) / 2 ^ 8 = k by omega] at hdiv
  omega

section

variable {a : Nat} (ha : a < 256) (k m : Nat)

theorem pairs_byte : ∀ a < 256, ∀ c < 2,
    (a / 2 + 128 * c) &&& 0x55 = a / 2 &&& 0x55 ∧ pairs 1 a < 256 := by
  decide +kernel

theorem nibbles_byte : ∀ a < 256, ∀ c < 4,
    (a / 4 + 64 * c) &&& 0x33 = a / 4 &&& 0x33 ∧ nibbles 1 a < 256 := by
  decide +kernel

theorem wholes_byte : ∀ a < 256, ∀ c ≤ 4, nibbles 1 (pairs 1 a) % 16 ≤ 4 ∧
    nibbles 1 (pairs 1 a) + nibbles 1 (pairs 1 a) / 16 + 16 * c < 256 ∧
    (nibbles 1 (pairs 1 a) + nibbles 1 (pairs 1 a) / 16 + 16 * c) &&& 0xF = ones 8 a := by
  decide +kernel

include ha

theorem pairs_succ : pairs (k + 1) (a + 256 * m) = pairs 1 a + 256 * pairs k m := by
  have hb := (pairs_byte a ha (m % 2) (by omega)).1
  have hone : pairs 1 a = a - (a / 2 &&& 0x55) := rfl
  have hlow : (a / 2 &&& 0x55) ≤ a := Nat.le_trans and_le_left (Nat.div_le_self a 2)
  have hh : (m / 2 &&& bytes 0x55 k) ≤ m := Nat.le_trans and_le_left (Nat.div_le_self m 2)
  rw [hone, pairs, pairs, bytes,
    show (a + 256 * m) / 2 = (a / 2 + 128 * (m % 2)) + 256 * (m / 2) by omega,
    and_add_mul (by omega) (by decide), hb]
  omega

theorem nibbles_succ : nibbles (k + 1) (a + 256 * m) = nibbles 1 a + 256 * nibbles k m := by
  have hb := (nibbles_byte a ha (m % 4) (by omega)).1
  have hone : nibbles 1 a = (a &&& 0x33) + (a / 4 &&& 0x33) := rfl
  rw [hone, nibbles, nibbles, bytes,
    show (a + 256 * m) / 4 = (a / 4 + 64 * (m % 4)) + 256 * (m / 4) by omega,
    and_add_mul (by omega) (by decide), and_add_mul (by omega) (by decide), hb]
  omega

end

/-- The lowest nibble is the count of four bits. -/
theorem nibbles_mod_le (k n : Nat) : nibbles k (pairs k n) % 16 ≤ 4 := by
  cases k with
  | zero => simp [nibbles, bytes]
  | succ k =>
    have hlt : n % 256 < 256 := mod_lt _ (by decide)
    have hb := (wholes_byte (n % 256) hlt 0 (by decide)).1
    have hp := (pairs_byte (n % 256) hlt 0 (by decide)).2
    conv_lhs => rw [← mod_add_div n 256]
    rw [pairs_succ hlt, nibbles_succ hp]
    omega

/-- Every byte becomes the count of its bits. -/
theorem wholes_succ {a : Nat} (ha : a < 256) (k m : Nat) :
    wholes (k + 1) (nibbles (k + 1) (pairs (k + 1) (a + 256 * m))) =
      ones 8 a + 256 * wholes k (nibbles k (pairs k m)) := by
  have hn := nibbles_mod_le k m
  obtain ⟨_, hlt, ho⟩ := wholes_byte a ha _ hn
  have hp := (pairs_byte a ha 0 (by decide)).2
  rw [pairs_succ ha, nibbles_succ hp, wholes, wholes, bytes]
  generalize nibbles k (pairs k m) = q at *
  generalize nibbles 1 (pairs 1 a) = p at *
  rw [show p + 256 * q + (p + 256 * q) / 16 = (p + p / 16 + 16 * (q % 16)) + 256 * (q + q / 16) by
    omega, and_add_mul hlt (by decide), ho]

theorem ones_byte_le {a : Nat} (ha : a < 256) : ones 8 a ≤ 8 := by
  have ho : ∀ a < 256, ones 8 a ≤ 8 := by decide +kernel
  exact ho a ha

/-- The bytes of a word, lowest first. -/
theorem exists_bytes {n : Nat} (h : n < 2 ^ 32) : ∃ a b c d, a < 256 ∧ b < 256 ∧ c < 256 ∧
    d < 256 ∧ n = a + 256 * (b + 256 * (c + 256 * (d + 256 * 0))) :=
  ⟨n % 256, n / 256 % 256, n / 65536 % 256, n / 16777216, by omega, by omega, by omega, by omega,
    by omega⟩

theorem ones_bytes {a b c d : Nat} (ha : a < 256) (hb : b < 256) (hc : c < 256) (hd : d < 256) :
    ones 32 (a + 256 * (b + 256 * (c + 256 * (d + 256 * 0)))) =
      ones 8 a + ones 8 b + ones 8 c + ones 8 d := by
  have hby : ∀ {a : Nat} (k m : Nat), a < 256 →
      ones (8 + k) (a + 256 * m) = ones 8 a + ones k m := by
    intro a k m ha
    rw [ones_add, show (a + 256 * m) % 2 ^ 8 = a by omega, show (a + 256 * m) / 2 ^ 8 = m by omega]
  rw [hby 24 _ ha, hby 16 _ hb, hby 8 _ hc, hby 0 _ hd, ones]
  omega

theorem wholes_bytes {a b c d : Nat} (ha : a < 256) (hb : b < 256) (hc : c < 256) (hd : d < 256) :
    wholes 4 (nibbles 4 (pairs 4 (a + 256 * (b + 256 * (c + 256 * (d + 256 * 0)))))) =
      ones 8 a + 256 * (ones 8 b + 256 * (ones 8 c + 256 * ones 8 d)) := by
  rw [wholes_succ ha, wholes_succ hb, wholes_succ hc, wholes_succ hd]
  rfl

variable (bits : BitVec 32)

theorem toNat_pairs :
    (bits - ((bits >>> 1) &&& 0x55555555#32)).toNat = pairs 4 bits.toNat := by
  have hand : ((bits >>> 1) &&& 0x55555555#32).toNat = bits.toNat / 2 &&& bytes 0x55 4 := by
    rw [toNat_and, toNat_ushiftRight, shiftRight_eq_div_pow]
    rfl
  have hle : (bits.toNat / 2 &&& bytes 0x55 4) ≤ bits.toNat :=
    Nat.le_trans and_le_left (Nat.div_le_self _ 2)
  rw [toNat_sub_of_le (by rw [le_def, hand]; exact hle), hand, pairs]

theorem toNat_nibbles :
    ((bits &&& 0x33333333#32) + ((bits >>> 2) &&& 0x33333333#32)).toNat = nibbles 4 bits.toNat ∧
      nibbles 4 bits.toNat ≤ 2 * 0x33333333 := by
  have hm : bytes 0x33 4 = 0x33333333 := rfl
  have hlow := @and_le_right bits.toNat (bytes 0x33 4)
  have hh := @and_le_right (bits.toNat / 4) (bytes 0x33 4)
  refine ⟨?_, by rw [nibbles]; omega⟩
  rw [toNat_add, toNat_and, toNat_and, toNat_ushiftRight, shiftRight_eq_div_pow]
  exact mod_eq_of_lt (by show (_ &&& bytes 0x33 4) + (_ / 4 &&& bytes 0x33 4) < _; omega)

theorem toNat_wholes {bits : BitVec 32} (h : bits.toNat ≤ 2 * 0x33333333) :
    ((bits + (bits >>> 4)) &&& 0xF0F0F0F#32).toNat = wholes 4 bits.toNat := by
  rw [toNat_and, toNat_add, toNat_ushiftRight, shiftRight_eq_div_pow, mod_eq_of_lt (by omega)]
  rfl

/-- The product has the sum of the bytes as its highest byte. -/
theorem sum_bytes {a b c d : Nat} (ha : a ≤ 8) (hb : b ≤ 8) (hc : c ≤ 8) (hd : d ≤ 8) :
    (a + 256 * (b + 256 * (c + 256 * d))) * 0x1010101 % 2 ^ 32 / 2 ^ 24 = a + b + c + d := by
  have hp : (a + 256 * (b + 256 * (c + 256 * d))) * 0x1010101 =
      (a + 256 * (a + b) + 65536 * (a + b + c) + 2 ^ 24 * (a + b + c + d)) +
        2 ^ 32 * (b + c + d + 256 * (c + d) + 65536 * d) := by
    omega
  rw [hp, add_mul_mod_self_left, mod_eq_of_lt (by omega),
    add_mul_div_left _ _ (by decide), div_eq_of_lt (by omega), Nat.zero_add]

theorem bitCount32_eq : bitCount32 bits = ones 32 bits.toNat := by
  obtain ⟨a, b, c, d, ha, hb, hc, hd, hby⟩ := exists_bytes bits.isLt
  have ha' := ones_byte_le ha
  have hb' := ones_byte_le hb
  have hc' := ones_byte_le hc
  have hd' := ones_byte_le hd
  obtain ⟨hn, hle⟩ := toNat_nibbles (bits - ((bits >>> 1) &&& 0x55555555#32))
  have hw := toNat_wholes (hn ▸ hle)
  rw [hn, toNat_pairs, hby, wholes_bytes ha hb hc hd] at hw
  simp only [bitCount32]
  rw [toNat_ushiftRight, toNat_mul, hw, shiftRight_eq_div_pow, hby, ones_bytes ha hb hc hd]
  exact sum_bytes ha' hb' hc' hd'

theorem bitCount64_eq (bits : BitVec 64) : bitCount64 bits = ones 64 bits.toNat := by
  have hh : bits.toNat / 2 ^ 32 % 2 ^ 32 = bits.toNat / 2 ^ 32 := by omega
  rw [bitCount64, bitCount32_eq, bitCount32_eq, toNat_setWidth, toNat_setWidth,
    toNat_ushiftRight, shiftRight_eq_div_pow, hh]
  exact (ones_add 32 32 bits.toNat).symm

/-! ## Finding -/

theorem findBitLoop_eq {w : Nat} (hw : w ≠ 0) (word : BitVec w) (ei : Nat) (v : Bool)
    {left idx : Nat} (h : idx + left = ei) :
    findBitLoop ei v left (word >>> idx) idx =
      match (List.range' idx left).find? (fun i => word.getLsbD i == v) with
      | some i => (i, true)
      | none => (ei, false) := by
  induction left generalizing idx with
  | zero => rfl
  | succ left ih =>
    have hf : (word >>> idx &&& 1#w = if v then 1#w else 0#w) ↔
        (word.getLsbD idx == v) = true := by
      have hbit : word >>> idx &&& 1#w = if word.getLsbD idx then 1#w else 0#w := by
        apply BitVec.eq_of_getLsbD_eq
        intro i hi
        cases i with
        | zero => cases hwo : word.getLsbD idx <;> simp [hwo, hi]
        | succ i => cases word.getLsbD idx <;> simp
      rw [hbit]
      cases word.getLsbD idx <;> cases v <;> simp [hw]
    rw [findBitLoop, List.range'_succ, List.find?_cons]
    by_cases hbit : (word.getLsbD idx == v) = true
    · rw [if_pos (hf.mpr hbit), hbit]
    · rw [if_neg (hf.not.mpr hbit), Bool.eq_false_iff.mpr hbit, ← BitVec.shiftRight_add,
        ih (by omega)]

/-- The first such bit in front of `endIndex`. -/
theorem findBitInWord_eq {w : Nat} (hw : w ≠ 0) (word : BitVec w) (idx ei : Nat)
    (v : Bool) : findBitInWord word idx ei v =
      match (List.range' idx (ei - idx)).find? (fun i => word.getLsbD i == v) with
      | some i => (i, true)
      | none => (ei, false) := by
  rw [findBitInWord]
  by_cases hle : idx ≤ ei
  · exact findBitLoop_eq hw word ei v (by omega)
  · rw [Nat.sub_eq_zero_of_le (by omega)]
    rfl

end JavaScriptCore.Wtf
