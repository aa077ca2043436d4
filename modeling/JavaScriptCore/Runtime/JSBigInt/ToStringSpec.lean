import Mathlib.Data.Nat.Size
import JavaScriptCore.Numeral.Positional
import JavaScriptCore.Runtime.JSBigInt.DivideSpec
import JavaScriptCore.Runtime.JSBigInt.ParseSpec
import JavaScriptCore.Runtime.JSBigInt.ToString

/-!
# What writing produces

Both writers are shown to produce the same thing, the numeral of the integer. The writer
for a power of two moves a window of bits over the number: with `k` characters written,
the unprocessed bits are those from `bitsPerChar * k` on, as far as the digits read so
far reach. The generic writer keeps the number divided by a power of the radix.
-/

namespace JavaScriptCore.Runtime.JSBigInt

open JavaScriptCore.ProgramLogic JavaScriptCore.Numeral Nat List BitVec

variable {t : Target}

/-- The digits of a number, highest first, without leading zeros. -/
def unsignedNumeral (radix n : Nat) : List UChar :=
  if n = 0 then [0x30] else ((Nat.digits radix n).map radixDigit).reverse

/-- The numeral of an integer has a minus sign if it is negative. -/
def numeralOf (radix : Nat) (n : Int) : List UChar :=
  (if n < 0 then [0x2D] else []) ++ unsignedNumeral radix n.natAbs

section PowerOfTwo

theorem toNat_and_charMask {w b : Nat} (hb : b < w) (d : BitVec w) :
    (d &&& BitVec.ofNat w (2 ^ b - 1)).toNat = d.toNat % 2 ^ b := by
  have hlt : (2 : Nat) ^ b < 2 ^ w := Nat.pow_lt_pow_right (by decide) hb
  have hpos := Nat.two_pow_pos b
  rw [toNat_and, toNat_ofNat, mod_eq_of_lt (by omega), and_two_pow_sub_one_eq_mod]

/-- `k` characters stand at the end of the buffer of size `N`. -/
structure Written (b V N k : Nat) (resultString : List UChar) (pos : Int) : Prop where
  length_eq : resultString.length = N
  pos_eq : pos = (N : Int) - k - 1
  filled : resultString.drop (N - k) = ((lowDigits (2 ^ b) k V).map radixDigit).reverse

variable {exc : Exception → Prop} {s : Heap t} {b V N k : Nat}

variable {writer : Writer t} {a X n : Nat}

theorem put_wp {d : t.Digit} (h : Written b V N k writer.resultString writer.pos) (hk : k < N)
    (hd : d.toNat = V / (2 ^ b) ^ k % 2 ^ b) :
    wp (writer.put d) (fun w _ => Written b V N (k + 1) w.resultString w.pos ∧
      w.digit = writer.digit ∧ w.availableBits = writer.availableBits) exc s := by
  have hpos : writer.pos.toNat = N - k - 1 := by
    rw [h.pos_eq]
    omega
  have hlen := h.length_eq
  have hput : 0 ≤ writer.pos ∧ writer.pos.toNat < writer.resultString.length := by
    rw [hpos, h.pos_eq]
    omega
  unfold Writer.put putChar
  simp only [if_pos hput, wp_bind, wp_pure, and_true]
  refine ⟨by simpa using hlen, by rw [h.pos_eq]; push_cast; omega, ?_⟩
  rw [hpos, show N - (k + 1) = N - k - 1 by omega, lowDigits_succ, List.map_append,
    List.reverse_append, ← h.filled, ← hd]
  rw [List.drop_eq_getElem_cons (by rw [List.length_set]; omega), List.getElem_set_self,
    List.drop_set_of_lt (by omega), show N - k - 1 + 1 = N - k by omega]
  rfl

/-- Leftover bits and the next digit, put together. -/
theorem toNat_joined {w : Nat} {d e : BitVec w} (ha : a ≤ w) (hd : d.toNat = X % 2 ^ a)
    (he : e.toNat = X / 2 ^ a % 2 ^ w) : (d ||| (e <<< a)).toNat = X % 2 ^ w := by
  have hlt : d.toNat < 2 ^ a := hd ▸ mod_lt _ (Nat.two_pow_pos a)
  have hdvd : (2 : Nat) ^ (w - a) ∣ 2 ^ w := pow_dvd_pow 2 (sub_le _ _)
  rw [BitVec.or_comm, toNat_shiftLeft_or ha hlt, hd, he, mod_mod_of_dvd _ hdvd]
  rw [← pow_mul_pow_sub 2 ha, mod_mul, mul_comm (2 ^ a), add_comm]

theorem mod_two_pow_div {b : Nat} (h : b ≤ a) : X % 2 ^ a / 2 ^ b = X / 2 ^ b % 2 ^ (a - b) := by
  rw [← pow_mul_pow_sub 2 h, mod_mul_right_div_self]

theorem mod_two_pow_mod {b : Nat} (h : b ≤ a) : X % 2 ^ a % 2 ^ b = X % 2 ^ b :=
  mod_mod_of_dvd _ (pow_dvd_pow 2 h)

theorem div_pow_succ (V r k : Nat) : V / r ^ (k + 1) = V / r ^ k / r := by
  rw [pow_succ, Nat.div_div_eq_div_mul]

theorem size_div_two_pow_lt {k : Nat} (hn : n ≠ 0) (hk : 0 < k) : (n / 2 ^ k).size < n.size := by
  obtain ⟨m, hm⟩ := exists_eq_succ_of_ne_zero (size_pos.mpr (pos_of_ne_zero hn)).ne'
  rw [hm, Nat.lt_succ_iff, size_le]
  refine Nat.div_lt_of_lt_mul ?_
  calc
    n < 2 ^ n.size := lt_size_self n
    _ = 2 ^ (m + 1) := by rw [hm]
    _ ≤ 2 ^ (k + m) := Nat.pow_le_pow_right (by decide) (by omega)
    _ = 2 ^ k * 2 ^ m := pow_add _ _ _

/-- The characters so far and the unprocessed bits cover the digits below bit `n`. -/
def Covers (b V N n : Nat) (writer : Writer t) : Prop :=
  ∃ k, b * k + writer.availableBits = n ∧ Written b V N k writer.resultString writer.pos ∧
    writer.digit.toNat = V / (2 ^ b) ^ k % 2 ^ writer.availableBits

variable (hb : 0 < b ∧ b < t.digitBits) (hroom : ∀ j, V / (2 ^ b) ^ j ≠ 0 → j < N)

include hb hroom

theorem writeDigit_wp {i : Nat} {newDigit : t.Digit}
    (hnew : newDigit.toNat = V / 2 ^ (t.digitBits * i) % 2 ^ t.digitBits)
    (hbe : 2 ^ (t.digitBits * (i + 1)) ≤ V)
    (h : Covers b V N (t.digitBits * i) writer) (ha : writer.availableBits < b) :
    wp (writeDigit b (BitVec.ofNat _ (2 ^ b - 1)) newDigit writer)
      (fun w _ => Covers b V N (t.digitBits * (i + 1)) w ∧ w.availableBits < b) exc s := by
  have hi : ∀ j, b * j < t.digitBits * (i + 1) → j < N := by
    intro j hj
    refine hroom j (Nat.ne_of_gt (Nat.div_pos ?_ (Nat.pow_pos (Nat.two_pow_pos b))))
    rw [← pow_mul]
    exact le_trans (Nat.pow_le_pow_right (by decide) (Nat.le_of_lt hj)) hbe
  obtain ⟨k, hk, hwt, hdg⟩ := h
  rw [Nat.mul_add, Nat.mul_one] at hi ⊢
  have hX : newDigit.toNat = V / (2 ^ b) ^ k / 2 ^ writer.availableBits % 2 ^ t.digitBits := by
    rw [hnew, Nat.div_div_eq_div_mul, ← pow_mul, ← pow_add, hk]
  unfold writeDigit
  refine wp_seq (put_wp hwt (hi k (by omega)) ?_) ?_
  · rw [toNat_and_charMask hb.2, toNat_joined (by omega) hdg hX, mod_two_pow_mod (by omega)]
  rintro w s' ⟨hw, -, -⟩
  refine wp_post (wp_whileLoop (fun w _ => Covers b V N (t.digitBits * i + t.digitBits) w)
    (fun w => w.availableBits) t.digitBits (sub_le _ _) ?_ ?_) ?_
  · refine ⟨k + 1, ?_, hw, ?_⟩
    · dsimp only
      rw [Nat.mul_add]
      omega
    · rw [toNat_shiftRight, hX, mod_two_pow_div (by omega), Nat.div_div_eq_div_mul, ← pow_add,
        show writer.availableBits + (b - writer.availableBits) = b by omega, div_pow_succ]
  · rintro w s' ht ⟨j, hj, hwt, hdg⟩
    rw [decide_eq_true_eq] at ht
    refine ⟨by omega, ?_⟩
    refine wp_seq (put_wp hwt (hi j (by omega)) ?_) ?_
    · rw [toNat_and_charMask hb.2, hdg, mod_two_pow_mod ht]
    rintro w' s'' ⟨hw', hd, ha'⟩
    rw [wp_pure]
    refine ⟨⟨j + 1, ?_, hw', ?_⟩, by dsimp only; omega⟩
    · dsimp only
      rw [Nat.mul_add]
      omega
    · rw [toNat_shiftRight, hd, ha', hdg, mod_two_pow_div ht, div_pow_succ]
  · rintro w s' ⟨hc, ht⟩
    rw [decide_eq_false_iff_not] at ht
    exact ⟨hc, by omega⟩

theorem writeTopDigit_wp {msd : t.Digit} (htop : msd.toNat ≠ 0)
    (hmsd : msd.toNat = V / 2 ^ n) (h : Covers b V N n writer) (ha : writer.availableBits < b) :
    wp (writeTopDigit b (BitVec.ofNat _ (2 ^ b - 1)) msd writer)
      (fun w _ => ∃ k, Written b V N (k + 1) w.resultString w.pos ∧ V / (2 ^ b) ^ k ≠ 0 ∧
        V < (2 ^ b) ^ (k + 1)) exc s := by
  obtain ⟨k, hk, hwt, hdg⟩ := h
  have hX : msd.toNat = V / (2 ^ b) ^ k / 2 ^ writer.availableBits := by
    rw [hmsd, Nat.div_div_eq_div_mul, ← pow_mul, ← pow_add, hk]
  have hne : V / (2 ^ b) ^ k ≠ 0 := by
    intro h0
    rw [h0, Nat.zero_div] at hX
    exact htop hX
  unfold writeTopDigit
  refine wp_seq (put_wp hwt (hroom k hne) ?_) ?_
  · rw [toNat_and_charMask hb.2, toNat_joined (by omega) hdg
      (hX.trans (mod_eq_of_lt (hX ▸ msd.isLt)).symm), mod_two_pow_mod (by omega)]
  rintro w s' ⟨hw, -, -⟩
  refine wp_post (wp_whileLoop (fun w _ => ∃ k, Written b V N (k + 1) w.resultString w.pos ∧
    V / (2 ^ b) ^ k ≠ 0 ∧ w.digit.toNat = V / (2 ^ b) ^ (k + 1)) (fun w => w.digit.toNat.size)
    t.digitBits (size_le.mpr (isLt _)) ⟨k, hw, hne, ?_⟩ ?_) ?_
  · rw [toNat_shiftRight, hX, Nat.div_div_eq_div_mul, ← pow_add,
      show writer.availableBits + (b - writer.availableBits) = b by omega, div_pow_succ]
  · rintro w s' ht ⟨j, hwt, -, hdg⟩
    rw [decide_eq_true_eq] at ht
    have hnz : w.digit.toNat ≠ 0 := fun h0 => ht (eq_of_toNat_eq (by simpa using h0))
    refine ⟨size_pos.mpr (pos_of_ne_zero hnz), ?_⟩
    refine wp_seq (put_wp hwt (hroom _ (hdg ▸ hnz)) ?_) ?_
    · rw [toNat_and_charMask hb.2, hdg]
    rintro w' s'' ⟨hw', hd, -⟩
    rw [wp_pure]
    refine ⟨⟨j + 1, hw', hdg ▸ hnz, ?_⟩, ?_⟩
    · rw [toNat_shiftRight, hd, hdg, div_pow_succ V _ (j + 1)]
    · -- a shift by at least one bit loses a bit of a nonzero digit
      rw [toNat_shiftRight, hd]
      exact size_div_two_pow_lt hnz hb.1
  · rintro w s' ⟨⟨j, hwt, hj, hdg⟩, ht⟩
    refine ⟨j, hwt, hj, ?_⟩
    have h0 : w.digit = 0 := by simpa using ht
    rw [h0] at hdg
    exact (div_eq_zero_iff_lt (Nat.pow_pos (Nat.two_pow_pos b))).mp (by simpa using hdg.symm)

omit hb hroom

theorem ctz_two_pow {b : Nat} (hb : b < 32) : ctz (2 ^ b) = b := by
  interval_cases b <;> decide

theorem wp_createBuffer {post : List UChar → Heap t → Prop} {size : Nat}
    (h : ∀ r s', r.length = size → post r s') : wp (createBuffer size : Run t _) post exc s :=
  h _ _ (by simp)

theorem numeralOf_toInt {x : JSBigInt t} (hx : x.Canonical) (hl : x.length ≠ 0) (radix : Nat) :
    numeralOf radix x.toInt =
      (if x.sign then [0x2D] else []) ++
        ((Nat.digits radix x.magnitude).map radixDigit).reverse := by
  have h0 : x.magnitude ≠ 0 := fun h => hl (hx.magnitude_eq_zero_iff.mp h)
  have hneg : x.toInt < 0 ↔ x.sign = true :=
    ⟨fun h => by_contra fun hs => absurd (toInt_nonneg (Bool.eq_false_iff.mpr hs)) (not_le.mpr h),
      hx.toInt_lt_zero⟩
  rw [numeralOf, natAbs_toInt, unsignedNumeral, if_neg h0]
  simp only [hneg]

/-- The size computed for the buffer, without the sign. -/
def charsOfBits (bitLength b : Nat) : Nat := (bitLength + b - 1) / b

theorem charsOfBits_eq {b V : Nat} (hb : 0 < b) (hlo : 2 ^ (n - 1) ≤ V) (hhi : V < 2 ^ n) :
    charsOfBits n b = (Nat.digits (2 ^ b) V).length := by
  have hr : 1 < 2 ^ b := Nat.one_lt_two_pow (by omega)
  refine le_antisymm ?_ ?_
  · have h := lt_of_le_of_lt hlo (Nat.lt_base_pow_length_digits hr)
    rw [← pow_mul] at h
    have := (Nat.pow_lt_pow_iff_right (by decide)).mp h
    refine Nat.le_of_lt_succ ((Nat.div_lt_iff_lt_mul hb).mpr ?_)
    rw [Nat.succ_mul, mul_comm]
    omega
  · rw [Nat.digits_length_le_iff hr, ← pow_mul]
    refine lt_of_lt_of_le hhi (Nat.pow_le_pow_right (by decide) ?_)
    have := Nat.div_add_mod (n + b - 1) b
    have := Nat.mod_lt (n + b - 1) hb
    unfold charsOfBits
    omega

/-- A number of more than `2 ^ 20` bits is too long for a BigInt. -/
theorem maxLength_lt {length : Nat} (h : 2 ^ 20 < length * t.digitBits) : t.maxLength < length :=
  (Nat.div_lt_iff_lt_mul (by rcases t.digitBits_cases with hw | hw <;> omega)).mpr h

/-- Exactly the characters allocated are written, and they are the numeral. -/
theorem writeBasePowerOfTwo_wp {x : JSBigInt t} (hx : x.Canonical) (hl : x.length ≠ 0)
    (hb : 0 < b ∧ b < 32) :
    wp (writeBasePowerOfTwo x (2 ^ b))
      (fun (str, pos) _ => str = numeralOf (2 ^ b) x.toInt ∧ pos = -1)
      (fun e => e = .outOfMemoryError ∧ t.maxLength < x.length) s := by
  have hbi : b < t.digitBits := by rcases t.digitBits_cases with h | h <;> omega
  obtain ⟨hlo, hhi⟩ := magnitude_bounds hx hl
  unfold writeBasePowerOfTwo
  rw [ctz_two_pow hb.2]
  simp only [wp_bind, wp_digit (show x.length - 1 < x.length by omega)]
  generalize hn : x.length * t.digitBits - clz (x.digits.getD (x.length - 1) 0) = n at *
  have hch := charsOfBits_eq hb.1 hlo hhi
  change wp (if charsOfBits n b + x.sign.toNat > maxStringLength then _ else _) _ _ _
  have hroom : ∀ j, x.magnitude / (2 ^ b) ^ j ≠ 0 → j < charsOfBits n b + x.sign.toNat := by
    intro j hj
    have : j < (Nat.digits (2 ^ b) x.magnitude).length := by
      rw [Nat.lt_digits_length_iff (Nat.one_lt_two_pow (by omega))]
      by_contra hlt
      exact hj (Nat.div_eq_of_lt (by omega))
    omega
  by_cases hmax : charsOfBits n b + x.sign.toNat > maxStringLength
  · simp only [if_pos hmax, wp_bind, wp_throw]
    have hle : charsOfBits n b ≤ n + b - 1 := Nat.div_le_self _ _
    have hsign := Bool.toNat_le x.sign
    exact ⟨trivial, maxLength_lt (by unfold maxStringLength at hmax; omega)⟩
  rw [if_neg hmax]
  simp only [wp_bind]
  refine wp_createBuffer (fun buffer s' hbu => ?_)
  change buffer.length = charsOfBits n b + x.sign.toNat at hbu
  have hpow := hx.pow_le_magnitude hl
  rw [← pow_mul] at hpow
  refine wp_post (wp_forUp (fun i (w : Writer t) _ => Covers b x.magnitude
    (charsOfBits n b + x.sign.toNat) (t.digitBits * i) w ∧ w.availableBits < b)
    (Nat.zero_le _) ⟨⟨0, rfl, ⟨hbu, by simp [charsOfBits], ?_⟩, ?_⟩, hb.1⟩ ?_) ?_
  · rw [Nat.sub_zero, ← hbu, List.drop_length]
    rfl
  · simp [Nat.mod_one]
  · rintro i w s'' - hi ⟨hc, ha⟩
    rw [wp_bind, wp_digit (by omega)]
    refine writeDigit_wp ⟨hb.1, hbi⟩ hroom ?_ ?_ hc ha
    · rw [pow_mul]
      exact word_eq_magnitude_div_mod (by omega)
    · exact le_trans (Nat.pow_le_pow_right (by decide) (Nat.mul_le_mul_left _ (by omega))) hpow
  rintro w s'' ⟨hc, ha⟩
  refine wp_post (writeTopDigit_wp ⟨hb.1, hbi⟩ hroom (hx.top_nonzero hl) ?_ hc ha) ?_
  · rw [pow_mul]
    exact top_eq_magnitude_div hl
  rintro w' s''' ⟨k, hw, hk, hk'⟩
  have hd := digits_eq_lowDigits (Nat.one_lt_two_pow (show b ≠ 0 by omega)) hk hk'
  have hct : charsOfBits n b = k + 1 := by rw [hch, hd, length_lowDigits]
  have hf := hw.filled
  have hpos := hw.pos_eq
  have hlen := hw.length_eq
  rw [← hd, hct] at hf
  rw [hct] at hpos hlen
  rw [numeralOf_toInt hx hl]
  cases hs : x.sign
  · rw [hs, Bool.toNat_false, Nat.add_zero] at hf hpos
    rw [Nat.sub_self, List.drop_zero] at hf
    exact ⟨hf, by omega⟩
  · rw [hs, Bool.toNat_true] at hf hpos hlen
    rw [Nat.add_sub_cancel_left] at hf
    have hz : w'.pos = 0 := by omega
    simp only [if_true, putChar, hz]
    rw [if_pos (by simp; omega), wp_pure]
    refine ⟨?_, rfl⟩
    rw [← hf]
    cases hstr : w'.resultString with
    | nil => simp [hstr] at hlen
    | cons c cs => rfl

end PowerOfTwo

section Generic

variable {exc : Exception → Prop} {s : Heap t} {radix : Nat}

variable (hr : 2 ≤ radix ∧ radix ≤ 36)
include hr

theorem toNat_radix : (BitVec.ofNat t.digitBits radix).toNat = radix := by
  have := radix_gt t
  exact mod_eq_of_lt (by omega)

theorem appendChunk_eq (count : Nat) :
    ∀ (chunk : t.Digit) (str : List UChar), appendChunk (BitVec.ofNat _ radix) count chunk str =
      str ++ (lowDigits radix count chunk.toNat).map radixDigit := by
  induction count with
  | zero => simp [appendChunk, lowDigits]
  | succ count ih =>
    intro chunk str
    rw [appendChunk, ih, lowDigits, BitVec.toNat_umod, BitVec.toNat_udiv, toNat_radix hr,
      List.map_cons, List.append_assoc]
    rfl

theorem appendLastDigit_eq (fuel : Nat) :
    ∀ (d : t.Digit) (str : List UChar), d.toNat ≠ 0 → d.toNat < 2 ^ fuel →
      appendLastDigit (BitVec.ofNat _ radix) fuel d str =
        str ++ (Nat.digits radix d.toNat).map radixDigit := by
  induction fuel with
  | zero => intro d str h0 hlt; omega
  | succ fuel ih =>
    intro d str h0 hlt
    rw [appendLastDigit, Nat.digits_def' (by omega) (Nat.pos_of_ne_zero h0), BitVec.toNat_umod,
      toNat_radix hr, List.map_cons]
    have hdiv : (d / BitVec.ofNat _ radix).toNat = d.toNat / radix := by
      rw [BitVec.toNat_udiv, toNat_radix hr]
    by_cases hpos : d / BitVec.ofNat _ radix > 0
    · have hne : d.toNat / radix ≠ 0 := by
        rw [gt_iff_lt, BitVec.lt_def, hdiv] at hpos
        exact Nat.ne_of_gt (Nat.lt_of_le_of_lt (Nat.zero_le _) hpos)
      have hsm : d.toNat / radix < 2 ^ fuel := by
        refine Nat.div_lt_of_lt_mul (lt_of_lt_of_le hlt ?_)
        rw [pow_succ']
        exact Nat.mul_le_mul_right _ hr.1
      simp only [if_pos hpos]
      rw [ih _ _ (hdiv ▸ hne) (hdiv ▸ hsm), hdiv, List.append_assoc]
      rfl
    · have hz : d.toNat / radix = 0 := by
        rw [gt_iff_lt, BitVec.lt_def, hdiv] at hpos
        exact Nat.eq_zero_of_le_zero (le_of_le_of_eq (Nat.le_of_not_lt hpos) (Nat.zero_mod _))
      simp only [if_neg hpos]
      rw [hz, Nat.digits_zero]
      rfl

variable {c : Nat} {str : List UChar}

/-- The chunk's divisor is the power meant, unless it wraps to zero. -/
theorem toNat_chunkDivisor (hc : c < 2 ^ 32) (hf : radix ^ c < 2 ^ t.digitBits) :
    (digitPow (BitVec.ofNat t.digitBits radix) (BitVec.ofNat _ c)).toNat = radix ^ c := by
  have hrad := radix_gt t
  have hexp : (BitVec.ofNat t.digitBits c).toNat = c := mod_eq_of_lt (by omega)
  rw [digitPow_spec _ _ (Nat.ne_of_gt (digitBits_pos t)), toNat_radix hr, hexp, mod_eq_of_lt hf]

omit hr

/-- `z` is the index of the highest nonzero digit. -/
def TopAt (z : Nat) (r : JSBigInt t) : Prop :=
  z < r.length ∧ (2 ^ t.digitBits) ^ z ≤ r.magnitude ∧ r.magnitude < (2 ^ t.digitBits) ^ (z + 1)

include hr in
/-- Dividing by less than a digit moves the top down by one at most. -/
theorem divideChunk_wp {z : Nat} {cd : t.Digit}
    (hdiv : cd.toNat = radix ^ c) {slot : QuotientSlot} (hs : slot ≠ .unwanted)
    {dividend : JSBigInt t} (hz : 0 < z) (htop : TopAt z dividend) :
    wp (divideChunk (BitVec.ofNat _ radix) cd c slot dividend str z)
      (fun (rest, str', z') _ => rest.magnitude = dividend.magnitude / radix ^ c ∧
        str' = str ++ (lowDigits radix c dividend.magnitude).map radixDigit ∧ TopAt z' rest)
      exc s := by
  obtain ⟨hlen, hlo, hhi⟩ := htop
  have hpos : 0 < radix ^ c := Nat.pow_pos (by omega)
  have hlt : radix ^ c < 2 ^ t.digitBits := hdiv ▸ cd.isLt
  unfold divideChunk
  refine wp_seq (absoluteDivWithDigitDivisor_wp (by omega) slot hs) ?_
  rintro ⟨q, chunk⟩ s' ⟨rest, rfl, hl, hm, hrem⟩
  rw [hdiv] at hm hrem
  simp only [wp_bind, wp_digit (show z < rest.length by omega), wp_pure]
  refine ⟨hm, ?_, ?_⟩
  · rw [appendChunk_eq hr, hrem, lowDigits_mod]
  have hBpos : 0 < (2 ^ t.digitBits) ^ z := Nat.pow_pos (radix_pos t)
  have hup : rest.magnitude < (2 ^ t.digitBits) ^ (z + 1) :=
    hm ▸ lt_of_le_of_lt (Nat.div_le_self _ _) hhi
  have hw : (rest.digits.getD z 0).toNat = rest.magnitude / (2 ^ t.digitBits) ^ z := by
    refine (word_eq_magnitude_div_mod (by omega)).trans (mod_eq_of_lt ?_)
    exact Nat.div_lt_of_lt_mul (pow_succ (2 ^ t.digitBits) z ▸ hup)
  split_ifs with h0
  · rw [h0] at hw
    obtain ⟨y, rfl⟩ := exists_eq_succ_of_ne_zero (Nat.ne_of_gt hz)
    refine ⟨by dsimp only [succ_sub_one]; omega, ?_, ?_⟩
    · rw [succ_sub_one, hm, Nat.le_div_iff_mul_le hpos]
      refine le_trans (Nat.mul_le_mul_left _ (Nat.le_of_lt hlt)) ?_
      rwa [← pow_succ]
    · exact (div_eq_zero_iff_lt hBpos).mp (hw.symm.trans (zero_mod _))
  · refine ⟨by omega, ?_, hup⟩
    by_contra hlow
    rw [div_eq_of_lt (Nat.lt_of_not_le hlow)] at hw
    exact h0 (eq_of_toNat_eq (hw.trans (zero_mod _).symm))

theorem sizeNoLeadingZeroes_eq (hne : str ≠ [])
    (hl : str.getLast hne ≠ 0x30) : sizeNoLeadingZeroes str str.length = str.length := by
  obtain ⟨n, hn⟩ := exists_eq_succ_of_ne_zero (fun h => hne (eq_nil_of_length_eq_zero h))
  have hget : str.getD n 0 = str.getLast hne := by
    rw [getLast_eq_getElem, getD_eq_getElem?_getD, List.getElem?_eq_getElem (by omega)]
    simp [hn]
  rw [hn, sizeNoLeadingZeroes, if_neg (fun h => hl (hget ▸ h.2))]

theorem radixDigit_eq_zero_iff {d : Nat} (hd : d < 36) : radixDigit d = 0x30 ↔ d = 0 := by
  interval_cases d <;> decide

include hr in
/-- Everything after the divisions: the characters of a nonzero number stay as they are. -/
theorem finish_eq {V : Nat} (hV : V ≠ 0) :
    let str := (Nat.digits radix V).map radixDigit
    str.take (sizeNoLeadingZeroes str str.length) = str := by
  dsimp only
  have hne : Nat.digits radix V ≠ [] := Nat.digits_ne_nil_iff_ne_zero.mpr hV
  have hne' : (Nat.digits radix V).map radixDigit ≠ [] := by simpa using hne
  rw [sizeNoLeadingZeroes_eq hne', List.take_length]
  rw [List.getLast_map, ne_eq, radixDigit_eq_zero_iff]
  · exact Nat.getLast_digit_ne_zero radix hV
  · exact lt_of_lt_of_le (Nat.digits_lt_base (by omega) (List.getLast_mem hne)) hr.2

/-- After any number of chunks the rest is the number divided by a power of the radix. -/
def ChunksDone (radix V : Nat) (r : JSBigInt t) (str : List UChar) : Prop :=
  ∃ k, r.magnitude = V / radix ^ k ∧ str = (lowDigits radix k V).map radixDigit

theorem ChunksDone.next {V : Nat} {r r' : JSBigInt t}
    (h : ChunksDone radix V r str) (hr' : r'.magnitude = r.magnitude / radix ^ c) :
    ChunksDone radix V r' (str ++ (lowDigits radix c r.magnitude).map radixDigit) := by
  obtain ⟨k, hm, hstr⟩ := h
  refine ⟨k + c, ?_, ?_⟩
  · rw [hr', hm, Nat.div_div_eq_div_mul, pow_add]
  · rw [hstr, hm, lowDigits_add, map_append]

theorem size_div_lt {n d : Nat} (hn : n ≠ 0) (hd : 2 ≤ d) : (n / d).size < n.size :=
  lt_of_le_of_lt (size_le_size (div_le_div_left hd (by decide)))
    (size_div_two_pow_lt hn (show 0 < 1 by decide))

theorem TopAt.magnitude_ne_zero {z : Nat} {r : JSBigInt t} (h : TopAt z r) : r.magnitude ≠ 0 := by
  have := h.2.1
  have : 0 < (2 ^ t.digitBits) ^ z := Nat.pow_pos (radix_pos t)
  omega

include hr in
theorem divideChunks_wp {cd : t.Digit} (hdiv : cd.toNat = radix ^ c) (hc : 0 < c) {x : JSBigInt t}
    (htop : TopAt (x.length - 1) x) (hl : 1 < x.length) :
    wp (divideChunks x (BitVec.ofNat _ radix) cd c)
      (fun (lastDigit, str) _ => ∃ r : JSBigInt t, ChunksDone radix x.magnitude r str ∧
        r.magnitude ≠ 0 ∧ lastDigit.toNat = r.magnitude) exc s := by
  have hs : ChunksDone radix x.magnitude x [] := ⟨0, by simp, rfl⟩
  have hpow : 2 ≤ radix ^ c := le_trans hr.1 (Nat.le_self_pow (by omega) _)
  unfold divideChunks
  refine wp_seq (divideChunk_wp hr hdiv (by decide) (by omega) htop) ?_
  rintro ⟨rest, str, z⟩ s' ⟨hm, hstr, ht'⟩
  refine wp_seq (wp_whileLoop (fun (r, str, z) _ => ChunksDone radix x.magnitude r str ∧ TopAt z r)
    (fun (r, _, _) => r.magnitude.size) _ ?_ ⟨hstr ▸ hs.next hm, ht'⟩ ?_) ?_
  · rw [size_le, mul_comm, pow_mul, hm]
    exact lt_of_le_of_lt (Nat.div_le_self _ _) x.magnitude_lt
  · rintro ⟨r, str, z⟩ s'' hz ⟨hd, ht⟩
    rw [decide_eq_true_eq] at hz
    have hne := ht.magnitude_ne_zero
    refine ⟨size_pos.mpr (pos_of_ne_zero hne), ?_⟩
    refine wp_post (divideChunk_wp hr hdiv (by decide) hz ht) ?_
    rintro ⟨r', str', z'⟩ s''' ⟨hm', hs', htop''⟩
    dsimp only at hm' hs' htop'' ⊢
    exact ⟨⟨hs' ▸ hd.next hm', htop''⟩, hm' ▸ size_div_lt hne hpow⟩
  · rintro ⟨r, str, z⟩ s'' ⟨⟨hd, ht⟩, hz⟩
    have hz0 : z = 0 := by simpa using hz
    rw [hz0] at ht
    obtain ⟨hlen, -, hhi⟩ := id ht
    rw [wp_bind, wp_digit hlen, wp_pure]
    refine ⟨r, hd, ht.magnitude_ne_zero, ?_⟩
    refine (word_eq_magnitude_div_mod hlen).trans ?_
    rw [pow_zero, Nat.div_one, mod_eq_of_lt (by simpa using hhi)]

include hr in
theorem toStringGeneric_wp {x : JSBigInt t} (hx : x.Canonical) (hl : x.length ≠ 0)
    (hf : x.length = 1 ∨ radix ^ (t.digitBits * 32 / maxBitsPerCharTable.getD radix 0) <
      2 ^ t.digitBits) :
    wp (toStringGeneric x radix) (fun str _ => str = numeralOf radix x.toInt)
      (fun e => e = .outOfMemoryError ∧ t.maxLength < x.length) s := by
  have hV : x.magnitude ≠ 0 := fun h => hl (hx.magnitude_eq_zero_iff.mp h)
  obtain ⟨-, ht, ht'⟩ := radix_pow_le_table hr
  unfold toStringGeneric
  simp only [wp_bind, wp_digit (show x.length - 1 < x.length by omega)]
  by_cases hmax : calculateMaximumCharactersRequired x.length radix
      (x.digits.getD (x.length - 1) 0) x.sign > maxStringLength
  · simp only [if_pos hmax, wp_bind, wp_throw]
    have hsign := Bool.toNat_le x.sign
    have hmul : bitsPerCharTableMultiplier = 32 := rfl
    simp only [calculateMaximumCharactersRequired, maxStringLength, hmul] at hmax
    refine ⟨trivial, maxLength_lt ?_⟩
    by_contra hle
    have hdiv := Nat.div_le_self ((x.length * t.digitBits - clz (x.digits.getD (x.length - 1) 0)) *
      32 + (maxBitsPerCharTable.getD radix 0 - 1 - 1)) (maxBitsPerCharTable.getD radix 0 - 1)
    omega
  simp only [if_neg hmax]
  refine wp_seq (p := fun d _ => appendLastDigit (BitVec.ofNat _ radix) t.digitBits d.1 d.2 =
    (Nat.digits radix x.magnitude).map radixDigit) ?_ ?_
  · split_ifs with hone
    · rw [wp_bind, wp_digit (by omega), wp_pure]
      have hd := toNat_digit_of_length_one hone
      rw [appendLastDigit_eq hr _ _ _ (hd ▸ hV) (BitVec.isLt _), hd, List.nil_append]
    have hpow := hf.resolve_left hone
    have hc : 0 < t.digitBits * 32 / maxBitsPerCharTable.getD radix 0 := by
      refine Nat.div_pos ?_ (by omega)
      rcases t.digitBits_cases with hw | hw <;> omega
    have hc' : t.digitBits * 32 / maxBitsPerCharTable.getD radix 0 < 2 ^ 32 := by
      refine lt_of_le_of_lt (Nat.div_le_self _ _) ?_
      rcases t.digitBits_cases with hw | hw <;> rw [hw] <;> decide
    have htop : TopAt (x.length - 1) x := by
      refine ⟨by omega, hx.pow_le_magnitude hl, ?_⟩
      rw [show x.length - 1 + 1 = x.length by omega]
      exact x.magnitude_lt
    refine wp_post (divideChunks_wp hr (toNat_chunkDivisor hr hc' hpow) hc htop (by omega)) ?_
    rintro ⟨d, str⟩ s' ⟨r, ⟨k, hm, hstr⟩, hne, hd⟩
    rw [appendLastDigit_eq hr _ _ _ (hd ▸ hne) (BitVec.isLt _), hd, hm, hstr, ← List.map_append,
      ← digits_eq_lowDigits_append (by omega) (hm ▸ hne)]
  · rintro ⟨d, str⟩ s' hdo
    rw [wp_pure, hdo, finish_eq hr hV, numeralOf_toInt hx hl]
    cases x.sign <;> simp

end Generic

section Results

variable {s : Heap t} {radix : Nat} {x : JSBigInt t}

/-- A radix with one bit set is one of the five powers of two. -/
theorem exists_two_pow_of_hasOneBitSet (hr : 2 ≤ radix ∧ radix ≤ 36)
    (h : hasOneBitSet radix = true) : ∃ b, radix = 2 ^ b ∧ 0 < b ∧ b < 32 := by
  obtain ⟨h2, h36⟩ := hr
  interval_cases radix
  all_goals first
    | exact absurd h (by decide)
    | exact ⟨1, rfl, by decide, by decide⟩
    | exact ⟨2, rfl, by decide, by decide⟩
    | exact ⟨3, rfl, by decide, by decide⟩
    | exact ⟨4, rfl, by decide, by decide⟩
    | exact ⟨5, rfl, by decide, by decide⟩

/-- The chunk divisor fits a digit for every radix that is not 2, 4 or 16. -/
theorem chunkDivisor_fits (t : Target) (hr : 2 ≤ radix ∧ radix ≤ 36)
    (h : radix ≠ 2 ∧ radix ≠ 4 ∧ radix ≠ 16) :
    radix ^ (t.digitBits * 32 / maxBitsPerCharTable.getD radix 0) < 2 ^ t.digitBits := by
  obtain ⟨h2, h36⟩ := hr
  rcases t.digitBits_cases with hw | hw <;> rw [hw] <;> interval_cases radix
  all_goals first
    | decide
    | omega

theorem toString_wp (hx : x.Canonical) (hr : 2 ≤ radix ∧ radix ≤ 36) :
    wp (toString x radix) (fun str _ => str = numeralOf radix x.toInt)
      (fun e => e = .outOfMemoryError ∧ t.maxLength < x.length) s := by
  unfold toString
  by_cases hz : x.isZero = true
  · have hl := (isZero_iff x).mp hz
    simp only [hz, if_true, wp_pure]
    rw [hx.toInt_eq_zero_iff.mpr hl]
    rfl
  · have hl : x.length ≠ 0 := fun h => hz ((isZero_iff x).mpr h)
    simp only [hz, Bool.false_eq_true, if_false]
    split_ifs with hbit
    · obtain ⟨b, rfl, hb⟩ := exists_two_pow_of_hasOneBitSet hr hbit
      rw [toStringBasePowerOfTwo, wp_map]
      exact wp_post (writeBasePowerOfTwo_wp hx hl hb) (fun _ _ h => h.1)
    · refine toStringGeneric_wp hr hx hl (.inr (chunkDivisor_fits t hr ⟨?_, ?_, ?_⟩))
      all_goals
        rintro rfl
        exact hbit (by decide)

theorem radixDigit_reads {d : Nat} (hd : d < 36) :
    charValue (radixDigit d) = some d ∧ isStrWhiteSpace (radixDigit d) = false := by
  interval_cases d <;> decide

theorem numeralFrom_append (n : Nat) (cs ds : List UChar) :
    numeralFrom radix n (cs ++ ds) = (numeralFrom radix n cs).bind fun m =>
      numeralFrom radix m ds := by
  induction cs generalizing n with
  | nil => rfl
  | cons c cs ih =>
    simp only [List.cons_append, numeralFrom]
    split
    · split_ifs
      · exact ih _
      · rfl
    · rfl

theorem numeralFrom_digits (hr : radix ≤ 36) (n : Nat) :
    ∀ ds : List Nat, (∀ d ∈ ds, d < radix) → numeralFrom radix n (ds.map radixDigit).reverse =
      some (n * radix ^ ds.length + ofDigits radix ds)
  | [], _ => by simp [numeralFrom]
  | d :: ds, h => by
    have hd : d < radix := h d (by simp)
    rw [map_cons, reverse_cons, numeralFrom_append,
      numeralFrom_digits hr n ds (fun e he => h e (by simp [he])), Option.bind_some, numeralFrom,
      (radixDigit_reads (by omega)).1]
    simp only [if_pos hd, numeralFrom, length_cons, ofDigits_cons, Option.some.injEq]
    rw [pow_succ, Nat.add_mul, Nat.mul_comm radix (ofDigits radix ds)]
    ring

theorem numeral_unsignedNumeral (hr : 2 ≤ radix ∧ radix ≤ 36) (n : Nat) :
    numeral radix (unsignedNumeral radix n) = some n := by
  unfold unsignedNumeral numeral
  split_ifs with h0
  · have hv : charValue 0x30 = some 0 := rfl
    simp only [numeralFrom, hv, if_pos (show 0 < radix by omega), h0, Nat.zero_mul, Nat.add_zero]
  · rw [numeralFrom_digits hr.2 0 _ (fun d hd => digits_lt_base (by omega) hd), Nat.zero_mul,
      Nat.zero_add, ofDigits_digits]

theorem not_space_of_mem (hr : 2 ≤ radix ∧ radix ≤ 36) {n : Nat} {c : UChar}
    (h : c ∈ unsignedNumeral radix n) : isStrWhiteSpace c = false := by
  unfold unsignedNumeral at h
  split_ifs at h with h0
  · rw [mem_singleton.mp h]
    decide
  · rw [mem_reverse, mem_map] at h
    obtain ⟨d, hd, rfl⟩ := h
    exact (radixDigit_reads (lt_of_lt_of_le (digits_lt_base (by omega) hd) hr.2)).2

theorem unsignedNumeral_ne_nil (radix n : Nat) : unsignedNumeral radix n ≠ [] := by
  unfold unsignedNumeral
  split_ifs with h0
  · simp
  · simpa using digits_ne_nil_iff_ne_zero.mpr h0

/-- The parser reads a numeral as the number written. -/
theorem readRest_unsignedNumeral (hr : 2 ≤ radix ∧ radix ≤ 36) (n : Nat) (sign : ParseIntSign)
    (parseMode : ParseIntMode) :
    readRest radix sign parseMode (unsignedNumeral radix n) = some (signed (sign = .signed) n) := by
  have hs : (unsignedNumeral radix n).rdropWhile isStrWhiteSpace = unsignedNumeral radix n :=
    rdropWhile_eq_self_iff.mpr fun hne => by simp [not_space_of_mem hr (getLast_mem hne)]
  rw [readRest, if_neg (fun h => unsignedNumeral_ne_nil radix n h.2),
    numeral_significant (by omega), hs, numeral_unsignedNumeral hr]
  rfl

theorem length_significant_le (rest : List UChar) : (significant rest).length ≤ rest.length :=
  le_trans ( rdropWhile_prefix _ _).length_le (dropWhile_sublist _).length_le

theorem parse_unsignedNumeral_wp (hx : x.Canonical) (hr : 2 ≤ radix ∧ radix ≤ 36) (exec : Bool)
    (mode : ErrorParseMode) :
    wp (parseIntWithRadix exec (unsignedNumeral radix x.magnitude) radix mode
        (if x.sign then .signed else .unsigned))
      (fun o _ => o = some x) (fun e => e = (if exec then .outOfMemoryError else .nullDereference) ∧
        TooLong t radix (unsignedNumeral radix x.magnitude).length) s := by
  have hrd := readRest_unsignedNumeral hr x.magnitude
    (if x.sign then .signed else .unsigned) .disallowEmptyString
  have hs : decide ((if x.sign then ParseIntSign.signed else .unsigned) = .signed) = x.sign := by
    cases x.sign <;> rfl
  rw [hs] at hrd
  refine wp_mono (parseIntFrom_wp (zero_le _) hr) ?_ ?_ <;> rw [drop_zero, hrd]
  · rintro (_ | r) _ h
    · cases h.2
    · obtain ⟨v, hv, hd⟩ := h
      rw [Option.some.injEq] at hv ⊢
      exact hd.canonical.eq_of_toInt_eq hx (hd.toInt_eq.trans hv.symm)
  · intro e he
    have hl : TooLong t radix (significant (unsignedNumeral radix x.magnitude)).length →
        TooLong t radix (unsignedNumeral radix x.magnitude).length := fun h =>
      lt_of_lt_of_le h (Nat.mul_le_mul_left _ (length_significant_le _))
    cases exec with
    | true =>
      rcases he with ⟨-, -, hn⟩ | ⟨rfl, h⟩
      · cases hn
      · exact ⟨rfl, hl h⟩
    | false =>
      obtain ⟨rfl, hn | h⟩ := he
      · cases hn
      · exact ⟨rfl, hl h⟩

/-- Writing gives the numeral, parsing its digits gives the number back unless the table's
estimate does not fit the longest BigInt, and both writers for a power of two agree where
the chunk divisor is not zero; no writer fails on a number that a BigInt can have. The buffer is
filled exactly, and a cell allocated for `count` characters holds every step of reading that many
digits. -/
theorem toString_exact (hx : x.Canonical) (hr : 2 ≤ radix ∧ radix ≤ 36) (heap : Heap t) :
    wp (toString x radix) (fun str _ => str = numeralOf radix x.toInt)
      (fun e => e = .outOfMemoryError ∧ t.maxLength < x.length) heap ∧
    (∀ exec mode, wp (parseIntWithRadix exec (unsignedNumeral radix x.magnitude) radix mode
        (if x.sign then .signed else .unsigned))
      (fun o _ => o = some x) (fun e => e = (if exec then .outOfMemoryError else .nullDereference) ∧
        TooLong t radix (unsignedNumeral radix x.magnitude).length) heap) ∧
    (hasOneBitSet radix = true → x.length ≠ 0 →
      wp (writeBasePowerOfTwo x radix)
        (fun (str, pos) _ => str = numeralOf radix x.toInt ∧ pos = -1)
        (fun e => e = .outOfMemoryError ∧ t.maxLength < x.length) heap ∧
      (x.length = 1 ∨ (radix ≠ 2 ∧ radix ≠ 4 ∧ radix ≠ 16) →
        wp (toStringGeneric x radix) (fun str _ => str = numeralOf radix x.toInt)
          (fun e => e = .outOfMemoryError ∧ t.maxLength < x.length) heap)) ∧
    ∀ exec count, wp (allocateFor exec radix count)
      (fun o _ => match o with
        | some r => ∀ j n d, j < count → n < radix ^ j → d < radix →
          n * radix + d < (2 ^ t.digitBits) ^ r.length
        | none => exec = false ∧ TooLong t radix count)
      (fun e => e = .outOfMemoryError ∧ exec = true ∧ TooLong t radix count) heap := by
  refine ⟨toString_wp hx hr, parse_unsignedNumeral_wp hx hr, fun hbit hl => ⟨?_, fun h => ?_⟩, ?_⟩
  · obtain ⟨b, rfl, hb⟩ := exists_two_pow_of_hasOneBitSet hr hbit
    exact writeBasePowerOfTwo_wp hx hl hb
  · exact toStringGeneric_wp hr hx hl (h.imp_right (chunkDivisor_fits t hr))
  · intro exec count
    refine wp_post (allocateFor_wp hr) ?_
    rintro (_ | r) s' ho
    · exact ho
    intro j n d hj hn hd
    calc
      n * radix + d < (n + 1) * radix := by rw [Nat.add_mul]; omega
      _ ≤ radix ^ j * radix := Nat.mul_le_mul_right _ hn
      _ = radix ^ (j + 1) := (pow_succ _ _).symm
      _ ≤ radix ^ count := Nat.pow_le_pow_right (by omega) hj
      _ ≤ (2 ^ t.digitBits) ^ r.length := ho.2.2.2

theorem toString_exact_at :
    wp (toString (⟨true, [255]⟩ : JSBigInt ⟨true, true, true⟩) 16)
      (fun str _ => str = numeralOf 16 (toInt (⟨true, [255]⟩ : JSBigInt ⟨true, true, true⟩)))
      (fun _ => False) ⟨0, fun _ _ => 7⟩ :=
  wp_mono (toString_exact (t := ⟨true, true, true⟩) (x := ⟨true, [255]⟩) ⟨by decide, by decide⟩
    ⟨by decide, by decide⟩ ⟨0, fun _ _ => 7⟩).1 (fun _ _ h => h)
    fun _ h => absurd h.2 (by decide)

/-- At radix 16 the chunk divisor wraps to zero as soon as there are two digits. -/
theorem toStringGeneric_divides_by_zero :
    (toStringGeneric (⟨false, [0, 1]⟩ : JSBigInt ⟨true, true, true⟩) 16
        ⟨0, fun _ _ => 0⟩).map Prod.fst = .error .divisionByZero ∧
      (toStringBasePowerOfTwo (⟨false, [0, 1]⟩ : JSBigInt ⟨true, true, true⟩) 16
        ⟨0, fun _ _ => 0⟩).map Prod.fst = .ok (0x31 :: replicate 16 0x30) := by
  decide +kernel

end Results

end JavaScriptCore.Runtime.JSBigInt
