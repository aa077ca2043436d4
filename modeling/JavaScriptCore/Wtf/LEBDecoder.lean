import Mathlib.Data.BitVec

/-!
# Decoding LEB128 numbers

`wtf/LEBDecoder.h`. A left shift of a signed number is that of its bits.
-/

namespace JavaScriptCore.Wtf.LEBDecoder

open BitVec List

variable {w : Nat}

def maxByteLength (numBits : Nat) : Nat := (numBits - 1) / 7 + 1

/-- The variables of the loop when it is left. -/
structure Loop (w : Nat) where
  offset : Nat
  result : BitVec w
  shift : Nat
  byte : BitVec 8
  deriving DecidableEq

/-- The loop of both decoders, with so many more rounds after this one. Whether the last byte that
was read ends a number comes with the variables. -/
def loop (bytes : List (BitVec 8)) (offset : Nat) (result : BitVec w) (shift rounds : Nat) :
    Bool × Loop w :=
  let byte := bytes.getD offset 0
  let next := ⟨offset + 1, result ||| (byte &&& 0x7f).setWidth w <<< shift, shift + 7, byte⟩
  if byte &&& 0x80 = 0 then (true, next)
  else match rounds with
    | 0 => (false, next)
    | rounds + 1 => loop bytes next.offset next.result next.shift rounds

/-- Whether a number was decoded, and what is then in the two variables of the caller. -/
structure Outcome (w : Nat) where
  decoded : Bool
  offset : Nat
  result : BitVec w
  deriving DecidableEq

def decodeUInt (bytes : List (BitVec 8)) (offset : Nat) (result : BitVec w) : Outcome w :=
  if bytes.length ≤ offset then ⟨false, offset, result⟩
  else
    let last := min (maxByteLength w) (bytes.length - offset) - 1
    let (decoded, x) := loop bytes offset 0 0 last
    ⟨decoded, x.offset, x.result⟩

def decodeInt (bytes : List (BitVec 8)) (offset : Nat) (result : BitVec w) : Outcome w :=
  if bytes.length ≤ offset then ⟨false, offset, result⟩
  else
    let last := min (maxByteLength w) (bytes.length - offset) - 1
    let (decoded, x) := loop bytes offset 0 0 last
    if decoded && x.shift < w && x.byte &&& 0x40 ≠ 0 then
      ⟨true, x.offset, x.result ||| (-1 : BitVec w) <<< x.shift⟩
    else ⟨decoded, x.offset, x.result⟩

def decodeUInt32 : List (BitVec 8) → Nat → BitVec 32 → Outcome 32 := decodeUInt
def decodeUInt64 : List (BitVec 8) → Nat → BitVec 64 → Outcome 64 := decodeUInt
def decodeInt32 : List (BitVec 8) → Nat → BitVec 32 → Outcome 32 := decodeInt
def decodeInt64 : List (BitVec 8) → Nat → BitVec 64 → Outcome 64 := decodeInt

/-! ## What the bytes stand for -/

/-- The number of a last byte, whose seventh bit is the sign of a signed number. -/
def lastValue (signed : Bool) (byte : Nat) : Int := if signed ∧ 64 ≤ byte then byte - 128 else byte

/-- The encodings of a number: all bytes but the last one have their high bit set. -/
inductive Encodes (signed : Bool) : List (BitVec 8) → Int → Prop where
  | last {b : BitVec 8} : b.toNat < 128 → Encodes signed [b] (lastValue signed b.toNat)
  | more {b : BitVec 8} {e : List (BitVec 8)} {v : Int} : 128 ≤ b.toNat → Encodes signed e v →
      Encodes signed (b :: e) (b.toNat - 128 + 128 * v)

/-- The values of a type of integers. -/
def Fits (signed : Bool) (w : Nat) (v : Int) : Prop :=
  if signed then -2 ^ w ≤ 2 * v ∧ 2 * v < 2 ^ w else 0 ≤ v ∧ v < 2 ^ w

def decode (signed : Bool) (bytes : List (BitVec 8)) (offset : Nat) (result : BitVec w) :
    Outcome w :=
  if signed then decodeInt bytes offset result else decodeUInt bytes offset result

def number (signed : Bool) (result : BitVec w) : Int :=
  if signed then result.toInt else result.toNat

/-- What the decoders read at an offset, if it is a number. -/
def EncodedAt (signed : Bool) (w : Nat) (bytes : List (BitVec 8)) (offset : Nat)
    (e : List (BitVec 8)) (v : Int) : Prop :=
  Encodes signed e v ∧ e <+: bytes.drop offset ∧ e.length ≤ maxByteLength w

/-! ## The bits of a group -/

theorem and_low (b : BitVec 8) : (b &&& 0x7f).toNat = b.toNat % 128 := by
  revert b
  decide

theorem and_high (b : BitVec 8) : b &&& 0x80 = 0 ↔ b.toNat < 128 := by
  revert b
  decide

variable {b : BitVec 8}

theorem and_sign (h : b.toNat < 128) : b &&& 0x40 ≠ 0 ↔ 64 ≤ b.toNat := by
  revert b
  decide

/-- A group is added above the groups before it. -/
theorem or_group {acc shift : Nat} (h : acc < 2 ^ shift) (b : BitVec 8) :
    BitVec.ofNat w acc ||| (b &&& 0x7f).setWidth w <<< shift =
      BitVec.ofNat w (acc + b.toNat % 128 * 2 ^ shift) := by
  have hb : (b &&& 0x7f).setWidth w = BitVec.ofNat w (b.toNat % 128) := by
    apply eq_of_toNat_eq
    rw [toNat_setWidth, and_low, toNat_ofNat]
  rw [hb, Nat.add_comm, ← Nat.shiftLeft_eq, Nat.shiftLeft_add_eq_or_of_lt h, Nat.or_comm, ofNat_or]
  congr 1
  apply eq_of_toNat_eq
  simp [Nat.shiftLeft_eq]

theorem group_lt {acc shift : Nat} (h : acc < 2 ^ shift) (b : BitVec 8) :
    acc + b.toNat % 128 * 2 ^ shift < 2 ^ (shift + 7) := by
  have hb := Nat.mul_le_mul_right (2 ^ shift) (show b.toNat % 128 + 1 ≤ 128 by omega)
  rw [Nat.succ_mul] at hb
  rw [Nat.pow_add]
  omega

theorem or_sign {n shift : Nat} (h : n < 2 ^ shift) :
    BitVec.ofNat w n ||| (-1 : BitVec w) <<< shift = BitVec.ofInt w (n - 2 ^ shift) := by
  have hand : BitVec.ofNat w n &&& (-1 : BitVec w) <<< shift = 0 := by
    ext i hi
    have hn (hs : shift ≤ i) : n.testBit i = false :=
      Nat.testBit_lt_two_pow (h.trans_le (Nat.pow_le_pow_right Nat.two_pos hs))
    by_cases hs : shift ≤ i
    · simp [← getLsbD_eq_getElem, getLsbD_ofNat, hn hs]
    · simp [← getLsbD_eq_getElem, Nat.lt_of_not_le hs]
  have hone : (-1 : BitVec w) <<< shift = BitVec.ofInt w (-2 ^ shift) := by
    rw [shiftLeft_eq_mul_twoPow, ofInt_neg]
    refine (BitVec.neg_eq_neg_one_mul _).symm.trans (congrArg _ ?_)
    apply eq_of_toNat_eq
    rw [toNat_twoPow, toNat_ofInt]
    norm_cast
  rw [← add_eq_or_of_and_eq_zero _ _ hand, hone, ← ofInt_natCast, ← ofInt_add]
  rfl

/-- The result of a decoder after a last byte. -/
def finish (signed : Bool) (x : Loop w) : BitVec w :=
  if signed && x.shift < w && x.byte &&& 0x40 ≠ 0 then x.result ||| (-1 : BitVec w) <<< x.shift
  else x.result

theorem finish_last (signed : Bool) {acc shift offset : Nat} (h : acc < 2 ^ shift)
    (hb : b.toNat < 128) :
    finish signed (⟨offset, BitVec.ofNat w (acc + b.toNat % 128 * 2 ^ shift), shift + 7, b⟩) =
      BitVec.ofInt w (acc + 2 ^ shift * lastValue signed b.toNat) := by
  have hlt := group_lt h b
  rw [Nat.mod_eq_of_lt hb] at hlt ⊢
  by_cases hs : signed ∧ 64 ≤ b.toNat
  · have hor : finish signed ⟨offset, BitVec.ofNat w (acc + b.toNat * 2 ^ shift), shift + 7, b⟩ =
        BitVec.ofNat w (acc + b.toNat * 2 ^ shift) ||| (-1 : BitVec w) <<< (shift + 7) := by
      by_cases hw : shift + 7 < w
      · exact if_pos (by simpa [hs.1, hw] using (and_sign hb).mpr hs.2)
      · rw [shiftLeft_eq_zero (by omega)]
        simp [finish, hw]
    rw [hor, or_sign hlt, lastValue, if_pos hs]
    grind
  · have hbyte : ¬ (signed ∧ b &&& 0x40 ≠ 0) := by rwa [and_sign hb]
    rw [finish, if_neg (by simp; grind), lastValue, if_neg hs, ← ofInt_natCast]
    grind

/-! ## The loop -/

section Loop

variable {signed : Bool} {bytes e : List (BitVec 8)} {offset shift rounds : Nat} {v : Int}

theorem drop_eq (h : offset < bytes.length) :
    bytes.drop offset = bytes.getD offset 0 :: bytes.drop (offset + 1) := by
  rw [drop_eq_getElem_cons h, getD_eq_getElem?_getD, List.getElem?_eq_getElem h, Option.getD_some]

theorem of_prefix_drop (h : b :: e <+: bytes.drop offset) :
    b = bytes.getD offset 0 ∧ e <+: bytes.drop (offset + 1) := by
  have hlt : offset < bytes.length := by
    have hl := h.length_le
    simp at hl
    omega
  rwa [drop_eq hlt, cons_prefix_cons] at h

theorem Encodes.length_pos (he : Encodes signed e v) : 0 < e.length := by
  cases he <;> exact Nat.succ_pos _

theorem Encodes.unique {v' : Int} (he : Encodes signed e v) (he' : Encodes signed e v') :
    v = v' := by
  induction he generalizing v' with
  | last =>
    cases he' with
    | last => rfl
    | more _ he' => cases he'
  | more _ he ih =>
    cases he' with
    | last => cases he
    | more _ he' => rw [ih he']

variable {result : BitVec w}

theorem loop_last (h : (bytes.getD offset 0).toNat < 128) :
    loop bytes offset result shift rounds = (true, ⟨offset + 1,
      result ||| (bytes.getD offset 0 &&& 0x7f).setWidth w <<< shift, shift + 7,
      bytes.getD offset 0⟩) := by
  rw [loop.eq_def]
  exact if_pos ((and_high _).mpr h)

theorem loop_more (h : 128 ≤ (bytes.getD offset 0).toNat) :
    loop bytes offset result shift (rounds + 1) = loop bytes (offset + 1)
      (result ||| (bytes.getD offset 0 &&& 0x7f).setWidth w <<< shift) (shift + 7) rounds := by
  rw [loop.eq_def]
  exact if_neg (by rw [and_high]; omega)

/-- An encoding is read to its end, and its value is added above what was read before. -/
theorem Encodes.loop_eq (he : Encodes signed e v) {acc : Nat} (hp : e <+: bytes.drop offset)
    (hl : e.length ≤ rounds + 1) (h : acc < 2 ^ shift) :
    ∃ x : Loop w, loop bytes offset (BitVec.ofNat w acc) shift rounds = (true, x) ∧
      x.offset = offset + e.length ∧ finish signed x = BitVec.ofInt w (acc + 2 ^ shift * v) := by
  induction he generalizing offset acc shift rounds with
  | last hb =>
    obtain ⟨rfl, -⟩ := of_prefix_drop hp
    rw [loop_last hb, or_group h]
    exact ⟨_, rfl, rfl, finish_last signed h hb⟩
  | @more b e v hb he ih =>
    obtain ⟨rfl, hrest⟩ := of_prefix_drop hp
    have hpos := he.length_pos
    rw [length_cons] at hl ⊢
    obtain _ | rounds := rounds
    · omega
    obtain ⟨x, hx, ho, hf⟩ := @ih _ _ rounds _ hrest (by omega) (group_lt h _)
    rw [loop_more hb, or_group h]
    refine ⟨x, hx, by omega, hf.trans (congrArg _ ?_)⟩
    rw [show (bytes.getD offset 0).toNat % 128 = (bytes.getD offset 0).toNat - 128 by omega]
    grind

theorem exists_encodes_of_loop (hr : offset + rounds < bytes.length)
    (h : (loop bytes offset result shift rounds).1 = true) :
    ∃ e v, Encodes signed e v ∧ e <+: bytes.drop offset ∧ e.length ≤ rounds + 1 := by
  rw [drop_eq (by omega)]
  fun_induction loop bytes offset result shift rounds with
  | case1 _ _ _ _ _ _ hb =>
    rw [and_high] at hb
    exact ⟨_, _, .last hb, cons_prefix_cons.mpr ⟨rfl, nil_prefix⟩, by simp⟩
  | case2 => cases h
  | case3 offset _ _ byte _ hb _ ih =>
    rw [and_high] at hb
    have hr' : offset + 1 < bytes.length := by omega
    obtain ⟨e, v, he, hp, hl⟩ := ih (by change offset + 1 + _ < _; omega) h
    refine ⟨_, _, .more (b := byte) (by omega) he, ?_, Nat.succ_le_succ hl⟩
    rw [drop_eq hr']
    exact cons_prefix_cons.mpr ⟨rfl, hp⟩

end Loop

/-! ## The decoders -/

theorem fits_iff {signed : Bool} {v : Int} :
    Fits signed w v ↔ number signed (BitVec.ofInt w v) = v := by
  cases signed
  · have hpos : (0 : Int) < (2 ^ w : Nat) := mod_cast Nat.two_pow_pos w
    have hn : number false (BitVec.ofInt w v) = v % (2 ^ w : Nat) := by
      rw [number, if_neg Bool.false_ne_true, toNat_ofInt,
        Int.toNat_of_nonneg (Int.emod_nonneg _ hpos.ne')]
    rw [Fits, if_neg Bool.false_ne_true, hn, Int.emod_eq_iff hpos.ne']
    simp
  · rw [Fits, if_pos rfl, number, if_pos rfl, toInt_ofInt]
    constructor
    · rintro ⟨hl, hu⟩
      exact Int.bmod_eq_of_le_mul_two (by push_cast; omega) (by push_cast; omega)
    · intro h
      have hl := (BitVec.ofInt w v).le_two_mul_toInt
      have hu := (BitVec.ofInt w v).two_mul_toInt_lt
      rw [toInt_ofInt, h] at hl hu
      exact ⟨hl, hu⟩

section Decoders

variable {signed : Bool} {bytes : List (BitVec 8)} {offset : Nat} {old : BitVec w}

theorem decode_eq (h : offset < bytes.length) : decode signed bytes offset old =
    let p := loop bytes offset 0 0 (min (maxByteLength w) (bytes.length - offset) - 1)
    ⟨p.1, p.2.offset, if p.1 then finish signed p.2 else p.2.result⟩ := by
  cases signed
  · simp [decode, decodeUInt, finish, Nat.not_le.mpr h]
  · simp only [decode, if_true, decodeInt, finish, Nat.not_le.mpr h, if_false, Bool.true_and]
    split <;> simp_all

/-- A decoder succeeds where an encoding is, moves the offset behind it and returns the bits of its
value that the type has. -/
theorem decode_iff_encodedAt {offset' : Nat} {result : BitVec w} :
    decode signed bytes offset old = ⟨true, offset', result⟩ ↔
      ∃ e v, EncodedAt signed w bytes offset e v ∧ offset' = offset + e.length ∧
        result = BitVec.ofInt w v := by
  by_cases hlt : offset < bytes.length
  · have hread {e : List (BitVec 8)} {v : Int} (he : Encodes signed e v)
        (hp : e <+: bytes.drop offset)
        (hl : e.length ≤ min (maxByteLength w) (bytes.length - offset) - 1 + 1) :
        decode signed bytes offset old = ⟨true, offset + e.length, BitVec.ofInt w v⟩ := by
      obtain ⟨x, hx, ho, hf⟩ := @Encodes.loop_eq w _ _ _ _ 0 _ _ he 0 hp hl Nat.one_pos
      rw [decode_eq hlt]
      simpa [hx, ho] using hf
    constructor
    · intro h
      have hd : (decode signed bytes offset old).decoded = true := by rw [h]
      rw [decode_eq hlt] at hd
      obtain ⟨e, v, he, hp, hl⟩ := exists_encodes_of_loop (by omega) hd
      have heq := h.symm.trans (hread he hp hl)
      simp only [Outcome.mk.injEq, true_and] at heq
      exact ⟨e, v, ⟨he, hp, by rw [maxByteLength] at hl ⊢; omega⟩, heq⟩
    · rintro ⟨e, v, ⟨he, hp, hl⟩, rfl, rfl⟩
      have hle := hp.length_le
      rw [length_drop] at hle
      exact hread he hp (by omega)
  · constructor
    · intro h
      cases signed <;> simp [decode, decodeUInt, decodeInt, Nat.not_lt.mp hlt] at h
    · rintro ⟨e, v, ⟨he, hp, -⟩, -⟩
      have hle := hp.length_le
      have hpos := he.length_pos
      rw [length_drop] at hle
      omega

/-- A decoder is right at an offset, with success, value and new offset, exactly if no encoding
there has a value outside of the type. -/
theorem decode_correct_iff :
    (∀ offset' v, (∃ result, decode signed bytes offset old = ⟨true, offset', result⟩ ∧
        number signed result = v) ↔
      ∃ e, EncodedAt signed w bytes offset e v ∧ Fits signed w v ∧ offset' = offset + e.length) ↔
      ∀ e v, EncodedAt signed w bytes offset e v → Fits signed w v := by
  constructor
  · intro h e v he
    obtain ⟨e', he', hf, hlen⟩ := (h _ _).mp ⟨_, decode_iff_encodedAt.mpr ⟨e, v, he, rfl, rfl⟩, rfl⟩
    have heq : e' = e :=
      (prefix_of_prefix_length_le he'.2.1 he.2.1 (by omega)).eq_of_length (by omega)
    rw [heq] at he'
    rwa [he'.1.unique he.1] at hf
  · intro hfits offset' v
    constructor
    · rintro ⟨result, h, hv⟩
      obtain ⟨e, v', he, ho, rfl⟩ := decode_iff_encodedAt.mp h
      have hf := hfits e v' he
      rw [fits_iff.mp hf] at hv
      subst hv
      exact ⟨e, he, hf, ho⟩
    · rintro ⟨e, he, hf, ho⟩
      exact ⟨_, decode_iff_encodedAt.mpr ⟨e, v, he, ho, rfl⟩, fits_iff.mp hf⟩

/-- Five bytes whose value needs 35 bits are decoded to 32 of them. -/
theorem decodeUInt_overlong :
    let bytes : List (BitVec 8) := [0xff, 0xff, 0xff, 0xff, 0x7f]
    decodeUInt32 bytes 0 0 = ⟨true, 5, 0xffffffff⟩ ∧
      ∃ v, EncodedAt false 32 bytes 0 bytes v ∧ ¬ Fits false 32 v := by
  refine ⟨by decide, _, ⟨.more (by decide) (.more (by decide) (.more (by decide)
    (.more (by decide) (.last (by decide))))), prefix_rfl, by decide⟩, ?_⟩
  simp [Fits, lastValue]

end Decoders

end JavaScriptCore.Wtf.LEBDecoder
