import JavaScriptCore.Runtime.JSBigInt.CellSpec
import JavaScriptCore.Runtime.JSBigInt.DigitSpec

/-!
# Shifting across digit boundaries

The loops that move bits between neighbouring digits: upwards in
`absoluteLeftShiftAlwaysCopy` and `leftShiftByAbsolute` (`runtime/JSBigInt.cpp:1142-1147,
1324-1328`), downwards in `inplaceRightShift` and `rightShiftByAbsolute`
(`runtime/JSBigInt.cpp:1108-1115, 1391-1398`). Each pair differs only in where it reads
and writes. The shift is nonzero and smaller than a digit: the callers treat zero
apart, since a shift by the full width is undefined.
-/

namespace JavaScriptCore.Runtime.JSBigInt

open JavaScriptCore.ProgramLogic JavaScriptCore.Numeral

variable {t : Target}

/-- Writes from `offset` on and returns the bits that leave the top. -/
def leftShiftDigits (x : JSBigInt t) (shift offset : Nat) (result : JSBigInt t) :
    Run t (t.Digit × JSBigInt t) :=
  forUp 0 x.length ((0 : t.Digit), result) fun i (carry, result) => do
    let d ← x.digit i
    let result ← result.setDigit (i + offset) ((d <<< shift) ||| carry)
    return (d >>> (t.digitBits - shift), result)

/-- Reads from `first` on, in the result itself when there is no source. -/
def rightShiftDigits (source : Option (JSBigInt t)) (first last shift : Nat)
    (result : JSBigInt t) : Run t (JSBigInt t) := do
  let lowest ← (source.getD result).digit first
  let (carry, result) ← forUp 0 last (lowest >>> shift, result) fun i (carry, result) => do
    let d ← (source.getD result).digit (i + first + 1)
    let result ← result.setDigit i ((d <<< (t.digitBits - shift)) ||| carry)
    return (d >>> shift, result)
  result.setDigit last carry

section Words

variable {w : Nat}

theorem toNat_shiftLeft_or {d c : BitVec w} {k : Nat} (hk : k ≤ w) (hc : c.toNat < 2 ^ k) :
    ((d <<< k) ||| c).toNat = d.toNat % 2 ^ (w - k) * 2 ^ k + c.toNat := by
  have hs : (d <<< k).toNat = d.toNat % 2 ^ (w - k) * 2 ^ k := by
    rw [BitVec.toNat_shiftLeft, Nat.shiftLeft_eq, ← pow_sub_mul_pow 2 hk, Nat.mul_mod_mul_right]
  rw [BitVec.toNat_or, hs, ← Nat.shiftLeft_eq, Nat.shiftLeft_add_eq_or_of_lt hc]

theorem toNat_shiftRight (d : BitVec w) (k : Nat) : (d >>> k).toNat = d.toNat / 2 ^ k := by
  rw [BitVec.toNat_ushiftRight, Nat.shiftRight_eq_div_pow]

/-- The column of a shift to the left: the digit keeps its low bits and passes on the rest. -/
theorem shiftLeft_column {d c : BitVec w} {k : Nat} (hk : k ≤ w) (hc : c.toNat < 2 ^ k) :
    ((d <<< k) ||| c).toNat + (d >>> (w - k)).toNat * 2 ^ w = d.toNat * 2 ^ k + c.toNat := by
  rw [toNat_shiftLeft_or hk hc, toNat_shiftRight, ← pow_sub_mul_pow 2 hk]
  calc
    d.toNat % 2 ^ (w - k) * 2 ^ k + c.toNat + d.toNat / 2 ^ (w - k) * (2 ^ (w - k) * 2 ^ k) =
        (2 ^ (w - k) * (d.toNat / 2 ^ (w - k)) + d.toNat % 2 ^ (w - k)) * 2 ^ k + c.toNat := by ring
    _ = d.toNat * 2 ^ k + c.toNat := by rw [Nat.div_add_mod]

theorem shiftRight_lt {d : BitVec w} {k : Nat} (hk : k ≤ w) : (d >>> (w - k)).toNat < 2 ^ k := by
  rw [toNat_shiftRight]
  exact Nat.div_lt_of_lt_mul (pow_sub_mul_pow 2 hk ▸ d.isLt)

theorem toNat_and_lowMask {b : Nat} (hb : b < w) (d : BitVec w) :
    (d &&& (((1 : BitVec w) <<< b) - 1)).toNat = d.toNat % 2 ^ b := by
  have hlt : (2 : Nat) ^ b < 2 ^ w := Nat.pow_lt_pow_right (by decide) hb
  have hpos := Nat.two_pow_pos b
  have h1 : (1 : BitVec w).toNat = 1 := BitVec.toNat_one (by omega)
  have hba : ((1 : BitVec w) <<< b).toNat = 2 ^ b := by
    rw [BitVec.toNat_shiftLeft, h1, Nat.shiftLeft_eq, Nat.one_mul, Nat.mod_eq_of_lt hlt]
  rw [BitVec.toNat_and, BitVec.toNat_sub_of_le (by rw [BitVec.le_def, hba, h1]; omega), hba, h1,
    Nat.and_two_pow_sub_one_eq_mod]

end Words

section Loops

variable {exc : Exception → Prop} {s : Heap t}

theorem leftShiftDigits_wp {x res : JSBigInt t} {shift offset : Nat}
    (hs : shift ≤ t.digitBits) (hlen : offset + x.length ≤ res.length) :
    wp (leftShiftDigits x shift offset res)
      (fun (carry, r) _ => r.sign = res.sign ∧ r.length = res.length ∧
        (∀ k, k < offset → word r.digits k = word res.digits k) ∧
        window r.digits offset x.length + carry.toNat * (2 ^ t.digitBits) ^ x.length =
          x.magnitude * 2 ^ shift) exc s := by
  unfold leftShiftDigits
  rw [magnitude_eq_window x]
  refine wp_post (wp_forUp (fun i (c : t.Digit × JSBigInt t) _ => c.2.sign = res.sign ∧
    c.2.length = res.length ∧ (∀ k, k < offset → word c.2.digits k = word res.digits k) ∧
    c.1.toNat < 2 ^ shift ∧ window c.2.digits offset i + c.1.toNat * (2 ^ t.digitBits) ^ i =
      window x.digits 0 i * 2 ^ shift) (Nat.zero_le _)
    ⟨rfl, rfl, fun _ _ => rfl, by simp, by simp⟩ ?_)
    (fun c s' h => ⟨h.1, h.2.1, h.2.2.1, h.2.2.2.2⟩)
  rintro i ⟨carry, r⟩ s' - hi ⟨hsg, hl, hlow, hc, hsum⟩
  dsimp only at hsg hl hlow hc hsum
  simp only [wp_bind, wp_digit hi, wp_setDigit (show i + offset < r.length by omega), wp_pure]
  refine ⟨hsg, by simpa using hl, fun k hk => ?_, shiftRight_lt hs, ?_⟩
  · rw [word_set_ne (by omega), hlow k hk]
  · have column := shiftLeft_column (d := x.digits.getD i 0) hs hc
    rw [add_comm i offset, window_set_top (show offset + i < r.length by omega), pow_succ,
      carry_step hsum column, window_succ, zero_add, word]
    ring

theorem rightShiftDigits_wp (source : Option (JSBigInt t)) {first last shift : Nat}
    {res : JSBigInt t} (hsh : shift ≤ t.digitBits)
    (hs : first + last < (source.getD res).length) (hr : last < res.length) :
    wp (rightShiftDigits source first last shift res)
      (fun r _ => r.sign = res.sign ∧ r.length = res.length ∧
        window r.digits 0 (last + 1) =
          window (source.getD res).digits first (last + 1) / 2 ^ shift) exc s := by
  have hw := pow_sub_mul_pow 2 hsh
  have hsub := Nat.sub_sub_self hsh
  have hout (d : t.Digit) : (d >>> shift).toNat < 2 ^ (t.digitBits - shift) := by
    have := shiftRight_lt (d := d) (Nat.sub_le t.digitBits shift)
    rwa [hsub] at this
  unfold rightShiftDigits
  generalize hsrc : source.getD res = src at hs ⊢
  rw [wp_bind, wp_digit (show first < src.length by omega)]
  refine wp_seq (wp_forUp (fun i (c : t.Digit × JSBigInt t) _ => c.2.sign = res.sign ∧
    c.2.length = res.length ∧ (∀ k, i ≤ k → word c.2.digits k = word res.digits k) ∧
    c.1.toNat < 2 ^ (t.digitBits - shift) ∧
    window c.2.digits 0 i + c.1.toNat * (2 ^ t.digitBits) ^ i =
      window src.digits first (i + 1) / 2 ^ shift) (Nat.zero_le _)
    ⟨rfl, rfl, fun _ _ => rfl, hout _,
     by simp [window_succ, word, Nat.shiftRight_eq_div_pow]⟩ ?_) ?_
  · rintro i ⟨carry, r⟩ s' - hi ⟨hsg, hl, hre, hc, hsum⟩
    dsimp only at hsg hl hre hc hsum
    -- in place, the loop reads one digit ahead of the one it writes
    obtain ⟨hrd, hsl⟩ := getD_unwritten source hl (hre (first + (i + 1)) (by omega))
    rw [hsrc] at hrd hsl
    rw [add_comm i first, add_assoc]
    simp only [wp_bind, wp_digit (show first + (i + 1) < (source.getD r).length by omega),
      wp_setDigit (show i < r.length by omega), wp_pure, hrd]
    refine ⟨hsg, by simpa using hl, fun k hk => ?_, hout _, ?_⟩
    · rw [word_set_ne (by omega), hre k (by omega)]
    have column := shiftLeft_column (d := src.digits.getD (first + (i + 1)) 0)
      (Nat.sub_le t.digitBits shift) hc
    rw [hsub] at column
    have hpow (d : Nat) : d * (2 ^ t.digitBits) ^ (i + 1) =
        d * 2 ^ (t.digitBits - shift) * (2 ^ t.digitBits) ^ i * 2 ^ shift := by
      rw [pow_succ]
      nth_rewrite 2 [← hw]
      ring
    rw [window_set_next (show i < r.length by omega), pow_succ, carry_step hsum column,
      window_succ src.digits first (i + 1), word, hpow,
      Nat.add_mul_div_right _ _ (Nat.two_pow_pos shift)]
  · rintro ⟨carry, r⟩ s' ⟨hsg, hl, -, -, hsum⟩
    dsimp only at hsg hl hsum ⊢
    rw [wp_setDigit (by omega)]
    refine ⟨hsg, by simpa using hl, ?_⟩
    rw [window_set_next (show last < r.length by omega), hsum]

end Loops

theorem Canonical.top_ne_zero {x : JSBigInt t} (hx : x.Canonical) (hl : x.length ≠ 0) :
    x.digits.getD (x.length - 1) 0 ≠ 0 := by
  intro h
  refine hx.top_nonzero hl ?_
  rw [word, h]
  exact BitVec.toNat_zero

/-- The bit length read off the top digit. -/
theorem magnitude_bounds {x : JSBigInt t} (hx : x.Canonical) (hl : x.length ≠ 0) :
    2 ^ (x.length * t.digitBits - clz (x.digits.getD (x.length - 1) 0) - 1) ≤ x.magnitude ∧
      x.magnitude < 2 ^ (x.length * t.digitBits - clz (x.digits.getD (x.length - 1) 0)) := by
  have hne := hx.top_ne_zero hl
  generalize hd : x.digits.getD (x.length - 1) 0 = d at hne ⊢
  have hwo : word x.digits (x.length - 1) = d.toNat := by rw [word, hd]
  obtain ⟨hs, hn, hclz⟩ := toNat_shiftLeft_clz d hne
  have hlt := (d <<< clz d).isLt
  rw [hs] at hlt
  obtain ⟨c, hc⟩ := Nat.exists_eq_add_of_lt hclz
  obtain ⟨m, hm⟩ := Nat.exists_eq_succ_of_ne_zero hl
  -- the top digit has `c + 1` significant bits
  have hw : (2 : Nat) ^ t.digitBits = 2 ^ (c + 1) * 2 ^ clz d := by
    rw [← pow_add]
    congr 1
    omega
  have hpos := Nat.two_pow_pos (clz d)
  rw [hw] at hlt hn
  have hd_ : d.toNat < 2 ^ (c + 1) := Nat.lt_of_mul_lt_mul_right hlt
  have hd_g : 2 ^ c ≤ d.toNat := by
    have : 2 ^ (c + 1) ≤ 2 * d.toNat := by
      refine le_of_mul_le_mul_right ?_ hpos
      rw [mul_assoc]
      exact hn
    rw [pow_succ] at this
    omega
  have hlow := top_mul_le_window x.digits 0 m
  have hh := window_lt_top_mul x.digits 0 m
  rw [zero_add, show m = x.length - 1 by omega, hwo, show x.length - 1 + 1 = x.length by omega,
    ← magnitude_eq_window, ← pow_mul] at hlow hh
  rw [show x.length * t.digitBits - clz d - 1 = c + t.digitBits * (x.length - 1) by
      rw [hm, Nat.succ_mul, Nat.succ_sub_one, Nat.mul_comm]; omega,
    show x.length * t.digitBits - clz d = c + 1 + t.digitBits * (x.length - 1) by
      rw [hm, Nat.succ_mul, Nat.succ_sub_one, Nat.mul_comm]; omega, pow_add, pow_add _ (c + 1)]
  exact ⟨le_trans (Nat.mul_le_mul_right _ hd_g) hlow,
    lt_of_lt_of_le hh (Nat.mul_le_mul_right _ hd_)⟩

end JavaScriptCore.Runtime.JSBigInt
