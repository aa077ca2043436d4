import JavaScriptCore.Wtf.BitVector
import Mathlib.Data.Finset.Sort

/-!
# Bit vectors as sets of numbers

`own` gives the words of the set a vector stands for, without the flag of an inline vector and with
zero behind the words of one that is not. Every operation is described by what it does to them.
-/

namespace JavaScriptCore.Wtf.BitVector

open Collections BitVec Function Nat WordSet
open ProgramLogic Budgeted

variable {p : Platform}

/-! ## Words -/

theorem numBits_eq (b : OutOfLineBits p) : b.numBits = b.numWords * bitsInPointer p := by
  have hpos := bitsInPointer_pos p
  obtain ⟨k, hk⟩ := dvd_of_mod_eq_zero b.rounded
  have hdiv : (bitsInPointer p * k + bitsInPointer p - 1) / bitsInPointer p = k := by
    rw [Nat.add_sub_assoc (by omega), mul_add_div hpos, div_eq_of_lt (by omega), add_zero]
  rw [OutOfLineBits.numWords, hk, hdiv, mul_comm]

theorem div_lt_numWords (b : OutOfLineBits p) (n : Nat) :
    n / bitsInPointer p < b.numWords ↔ n < b.numBits := by
  rw [numBits_eq, Nat.div_lt_iff_lt_mul (bitsInPointer_pos p)]

theorem numWords_pos (b : OutOfLineBits p) : 0 < b.numWords := by
  have hpos := b.positive
  rw [numBits_eq] at hpos
  exact Nat.pos_of_mul_pos_right hpos

variable {nb i bit : Nat} {b : OutOfLineBits p} {v oth : BitVector p}

theorem numWords_create (mem : Memory p) (h : 0 < nb) : (OutOfLineBits.create mem nb h).numWords =
      (nb + bitsInPointer p - 1) / bitsInPointer p := by
  have hmul := numBits_eq (OutOfLineBits.create mem nb h)
  exact eq_of_mul_eq_mul_right (bitsInPointer_pos p) hmul.symm

theorem sizeofPointer_pos (p : Platform) : 0 < sizeofPointer p := by cases p <;> decide

theorem memcpy_words (dst source : Memory p) (count i : Nat) :
    memcpy dst source (count * sizeofPointer p) i = if i < count then source i else dst i := by
  simp only [memcpy, Nat.mul_le_mul_right_iff (sizeofPointer_pos p), succ_le_iff]

theorem memset_words (dst : Memory p) (first count i : Nat) :
    memset dst first (count * sizeofPointer p) i =
      if first ≤ i ∧ i < first + count then 0#_ else dst i := by
  have hiff : (first ≤ i ∧ i + 1 - first ≤ count) ↔ (first ≤ i ∧ i < first + count) := by omega
  simp only [memset, Nat.mul_le_mul_right_iff (sizeofPointer_pos p), hiff]

theorem byteCount_numBits (b : OutOfLineBits p) :
    byteCount b.numBits = b.numWords * sizeofPointer p := by
  rw [byteCount, numBits_eq, bitsInPointer, Nat.shiftRight_eq_div_pow, Nat.shiftLeft_eq,
    ← mul_assoc]
  omega

/-- A loop over the words replaces each of them. -/
theorem replaceWords_apply (f : Nat → Word p → Word p) (count : Nat) (bits : Memory p) (i : Nat) :
    replaceWords f count bits i = if i < count then f i (bits i) else bits i := by
  rw [replaceWords]
  induction count generalizing bits with
  | zero => simp [countdown]
  | succ count ih =>
    rw [countdown, ih]
    by_cases hl : i = count
    · subst hl
      simp
    · rw [update_of_ne hl]
      have hiff : i < count + 1 ↔ i < count := by omega
      simp only [hiff]

theorem zeroWords_apply (first count : Nat) (bits : Memory p) (i : Nat) :
    zeroWords first count bits i = if first ≤ i ∧ i < first + count then 0#_ else bits i := by
  rw [zeroWords]
  induction count generalizing first bits with
  | zero =>
    rw [List.range'_zero, List.foldl_nil, if_neg (by omega)]
  | succ count ih =>
    rw [List.range'_succ, List.foldl_cons, ih]
    by_cases hf : i = first
    · subst hf
      rw [if_neg (by omega), if_pos (by omega), update_self]
    · rw [update_of_ne hf]
      have hiff : (first + 1 ≤ i ∧ i < first + 1 + count) ↔
          (first ≤ i ∧ i < first + (count + 1)) := by
        omega
      simp only [hiff]

/-- The words of the set. -/
def own : BitVector p → Nat → Word p
  | inline bits _, i => if i = 0 then cleanseInlineBits bits else 0#_
  | outOfLine b, i => if i < b.numWords then b.bits i else 0#_

theorem own_zero (b : OutOfLineBits p) : (outOfLine b).own 0 = b.bits 0 := if_pos (numWords_pos b)

theorem own_with (b : OutOfLineBits p) (bits : Memory p) (i : Nat) :
    (outOfLine { b with bits }).own i = if i < b.numWords then bits i else 0#_ := rfl

theorem getLsbD_inlineFlag (p : Platform) (i : Nat) :
    (inlineFlag p).getLsbD i = decide (i = maxInlineBits p) := by
  have hm : inlineFlag p = mask p (maxInlineBits p) := by cases p <;> rfl
  have hlt : maxInlineBits p < bitsInPointer p := sub_one_lt_of_lt (bitsInPointer_pos p)
  rw [hm, getLsbD_mask, mod_eq_of_lt hlt]

variable (bits : Word p)

theorem getLsbD_cleanseInlineBits (h : i < bitsInPointer p) :
    (cleanseInlineBits bits).getLsbD i = (bits.getLsbD i && decide (i ≠ maxInlineBits p)) := by
  rw [cleanseInlineBits, getLsbD_and, getLsbD_not, getLsbD_inlineFlag,
    decide_eq_true h, Bool.true_and]
  simp

theorem and_mask (word : Word p) (bit : Nat) :
    (word &&& mask p bit ≠ 0#_) ↔ word.getLsbD (bit % bitsInPointer p) = true := by
  constructor
  · intro hne
    by_contra hbit
    apply hne
    apply eq_of_getLsbD_eq
    intro i _
    rw [getLsbD_and, getLsbD_mask, getLsbD_zero]
    by_cases hi : i = bit % bitsInPointer p
    · rw [hi, Bool.eq_false_iff.mpr hbit, Bool.false_and]
    · rw [decide_eq_false hi, Bool.and_false]
  · intro hbit hz
    have hget := congrArg (fun word => word.getLsbD (bit % bitsInPointer p)) hz
    simp only [getLsbD_and, getLsbD_mask, hbit] at hget
    simp at hget

theorem quickGet_eq (v : BitVector p) (bit : Nat) :
    v.quickGet bit = (v.word (bit / bitsInPointer p)).getLsbD (bit % bitsInPointer p) := by
  rw [Bool.eq_iff_iff, ← and_mask, quickGet, decide_eq_true_iff]

/-- `get` asks for a member of the set. -/
theorem get_eq (v : BitVector p) (bit : Nat) : v.get bit = mem v.own bit := by
  have hpos := bitsInPointer_pos p
  rw [get, quickGet_eq]
  cases v with
  | inline bits flag =>
    simp only [size, word, ge_iff_le]
    by_cases hlt : bit < bitsInPointer p
    · rw [mem, own, div_eq_of_lt hlt, if_pos rfl, mod_eq_of_lt hlt,
        getLsbD_cleanseInlineBits bits hlt]
      by_cases hl : maxInlineBits p ≤ bit
      · have heq : bit = maxInlineBits p := by
          rw [maxInlineBits] at hl ⊢
          omega
        simp [heq]
      · simp [hl, show bit ≠ maxInlineBits p by omega]
    · have hdiv : bit / bitsInPointer p ≠ 0 := by
        rw [Ne, Nat.div_eq_zero_iff]
        omega
      have hle : maxInlineBits p ≤ bit := by
        rw [maxInlineBits]
        omega
      rw [if_pos hle, mem, own, if_neg hdiv, getLsbD_zero]
  | outOfLine b =>
    simp only [size, word, ge_iff_le]
    by_cases hlt : bit < b.numBits
    · rw [if_neg (by omega), mem, own, if_pos ((div_lt_numWords b bit).mpr hlt)]
    · rw [if_pos (by omega), mem, own, if_neg ((div_lt_numWords b bit).not.mpr hlt), getLsbD_zero]

/-! ## Sizes -/

theorem own_beyond (v : BitVector p) (h : v.size ≤ i * bitsInPointer p) : v.own i = 0#_ := by
  cases v with
  | inline bits flag =>
    have hi : i ≠ 0 := by
      rintro rfl
      have hpos : 0 < maxInlineBits p := by cases p <;> decide
      rw [size, Nat.zero_mul] at h
      omega
    rw [own, if_neg hi]
  | outOfLine b =>
    rw [size, numBits_eq, Nat.mul_le_mul_right_iff (bitsInPointer_pos p)] at h
    rw [own, if_neg (by omega)]

theorem cleanse_makeInlineBits :
    cleanseInlineBits (makeInlineBits bits) = cleanseInlineBits bits := by
  rw [cleanseInlineBits, makeInlineBits, BitVec.and_or_distrib_right, BitVec.and_not_self]
  exact BitVec.or_zero

theorem own_resizeOutOfLine (v : BitVector p) (mem : Memory p)
    (h : maxInlineBits p < nb) (i : Nat) :
    (v.resizeOutOfLine mem nb h).own i =
      if i < (nb + bitsInPointer p - 1) / bitsInPointer p then v.own i else 0#_ := by
  have hw := numWords_create mem (zero_lt_of_lt h)
  rw [resizeOutOfLine.eq_def, own_with, hw]
  by_cases hi : i < (nb + bitsInPointer p - 1) / bitsInPointer p
  swap
  · rw [if_neg hi, if_neg hi]
  rw [if_pos hi, if_pos hi]
  cases v with
  | inline bits flag =>
    simp only [memset_words, own]
    by_cases hz : i = 0
    · subst hz
      simp
    · rw [if_pos (by omega), if_neg hz]
  | outOfLine old =>
    simp only [own]
    split
    · rw [memset_words, memcpy_words]
      by_cases hold : i < old.numWords
      · rw [if_neg (by omega), if_pos hold, if_pos hold]
      · rw [if_pos (by omega), if_neg hold]
    · rename_i hle
      have hold : i < old.numWords := by
        have hdiv : (nb + bitsInPointer p - 1) / bitsInPointer p ≤ old.numWords :=
          Nat.div_le_div_right (by omega)
        omega
      rw [memcpy_words, if_pos hi, if_pos hold]

/-- A number is rounded up to whole words. -/
theorem le_roundUp (p : Platform) (nb : Nat) :
    nb ≤ (nb + bitsInPointer p - 1) / bitsInPointer p * bitsInPointer p := by
  have hpos := bitsInPointer_pos p
  have hdiv := div_add_mod (nb + bitsInPointer p - 1) (bitsInPointer p)
  have hmod := mod_lt (nb + bitsInPointer p - 1) hpos
  rw [mul_comm] at hdiv
  omega

theorem le_size_ensureSize (v : BitVector p) (mem : Memory p) (nb : Nat) :
    nb ≤ (v.ensureSize mem nb).size := by
  rw [ensureSize]
  split
  · assumption
  · exact le_roundUp p nb

theorem own_ensureSize (v : BitVector p) (mem : Memory p) (nb : Nat) :
    (v.ensureSize mem nb).own = v.own := by
  rw [ensureSize]
  split
  · rfl
  rename_i hlt
  funext i
  rw [own_resizeOutOfLine]
  split_ifs with hi
  · rfl
  · refine (own_beyond v ?_).symm
    have hle := le_roundUp p nb
    have hmul := Nat.mul_le_mul_right (bitsInPointer p) (Nat.le_of_not_lt hi)
    omega

/-- Resizing keeps whole words. -/
theorem own_resize (v : BitVector p) (mem : Memory p) (nb i : Nat) :
    (v.resize mem nb).own i = v.own i ∨ (v.resize mem nb).own i = 0#_ ∧ nb ≤ i * bitsInPointer p ∨
      (v.resize mem nb).own i = cleanseInlineBits (v.own i) ∧ nb ≤ maxInlineBits p ∧ i = 0 := by
  rw [resize.eq_def]
  split_ifs with hle
  · cases v with
    | inline bits flag => exact .inl rfl
    | outOfLine b =>
      by_cases hi : i = 0
      · subst hi
        refine .inr (.inr ⟨?_, hle, rfl⟩)
        simp [own, cleanse_makeInlineBits, numWords_pos]
      · refine .inr (.inl ⟨by rw [own, if_neg hi], ?_⟩)
        have hone : bitsInPointer p ≤ i * bitsInPointer p :=
          Nat.le_mul_of_pos_left _ (pos_of_ne_zero hi)
        rw [maxInlineBits] at hle
        omega
  · rw [own_resizeOutOfLine]
    split_ifs with hi
    · exact .inl rfl
    · refine .inr (.inl ⟨rfl, ?_⟩)
      have hr := le_roundUp p nb
      have hmul := Nat.mul_le_mul_right (bitsInPointer p) (Nat.le_of_not_lt hi)
      omega

theorem own_clearAll (v : BitVector p) : v.clearAll.own = fun _ => 0#_ := by
  funext i
  cases v with
  | inline bits flag =>
    simp only [clearAll, own, cleanse_makeInlineBits]
    rw [cleanseInlineBits, BitVec.zero_and, ite_self]
  | outOfLine b =>
    simp only [clearAll, own_with, byteCount_numBits, memset_words]
    split
    · rw [if_pos (by omega)]
    · rfl

/-! ## Single bits -/

theorem cleanse_or (a b : Word p) :
    cleanseInlineBits (a ||| b) = cleanseInlineBits a ||| cleanseInlineBits b :=
  and_or_distrib_right

theorem cleanse_and (a b : Word p) : cleanseInlineBits (a &&& b) = cleanseInlineBits a &&& b := by
  rw [cleanseInlineBits, BitVec.and_assoc, BitVec.and_comm b, ← BitVec.and_assoc, cleanseInlineBits]

theorem cleanse_mask (h : bit < maxInlineBits p) : cleanseInlineBits (mask p bit) = mask p bit := by
  have hlt : bit < bitsInPointer p := lt_of_lt_of_le h (sub_le _ _)
  apply eq_of_getLsbD_eq
  intro i hi
  rw [getLsbD_cleanseInlineBits _ hi, getLsbD_mask, mod_eq_of_lt hlt]
  by_cases hbit : i = bit
  · simp [hbit, Nat.ne_of_lt h]
  · simp [hbit]

theorem inline_div (h : bit < maxInlineBits p) : bit / bitsInPointer p = 0 :=
  div_eq_of_lt (Nat.lt_of_lt_of_le h (sub_le _ _))

/-- A change of one word of a vector that is not inline. -/
theorem own_update (b : OutOfLineBits p) {k : Nat} (h : k < b.numWords) (word : Word p) :
    (outOfLine { b with bits := update b.bits k word }).own =
      update (outOfLine b).own k word := by
  funext i
  by_cases hi : i = k
  · subst hi
    rw [own_with, if_pos h, update_self, update_self]
  · rw [own_with, update_of_ne hi, update_of_ne hi, own]

theorem own_inline (flag : bits.msb = true) : (inline bits flag).own =
      update (fun _ : Nat => 0#(bitsInPointer p)) 0 (cleanseInlineBits bits) := by
  funext i
  cases i <;> rfl

theorem own_quickSet (v : BitVector p) (h : bit < v.size) :
    (v.quickSet bit).2.own = update v.own (bit / bitsInPointer p)
      (v.own (bit / bitsInPointer p) ||| mask p bit) := by
  cases v with
  | inline bits flag =>
    simp only [quickSet]
    rw [inline_div h, own_inline, own_inline, update_self, cleanse_or, cleanse_mask h, update_idem]
  | outOfLine b =>
    have hw := (div_lt_numWords b bit).mpr h
    simp only [quickSet]
    rw [own_update b hw, own, if_pos hw]

theorem own_quickClear (v : BitVector p) (h : bit < v.size) :
    (v.quickClear bit h).2.own = update v.own (bit / bitsInPointer p)
      (v.own (bit / bitsInPointer p) &&& ~~~mask p bit) := by
  cases v with
  | inline bits flag =>
    simp only [quickClear]
    rw [inline_div h, own_inline, own_inline, update_self, cleanse_and, update_idem]
  | outOfLine b =>
    have hw := (div_lt_numWords b bit).mpr h
    simp only [quickClear]
    rw [own_update b hw, own, if_pos hw]

theorem get_set (v : BitVector p) (mem : Memory p) (bit m : Nat) :
    (v.set mem bit).2.get m = (decide (m = bit) || v.get m) := by
  have hlt : bit < (v.ensureSize mem (bit + 1)).size := le_size_ensureSize v mem (bit + 1)
  rw [get_eq, get_eq, set, own_quickSet _ hlt, own_ensureSize, mem_insert (getLsbD_mask p bit)]

theorem get_clear (v : BitVector p) (bit m : Nat) :
    (v.clear bit).2.get m = (!decide (m = bit) && v.get m) := by
  rw [clear]
  split_ifs with hle
  · by_cases hm : m = bit
    · subst hm
      rw [get, if_pos hle, Bool.and_false]
    · rw [decide_eq_false hm, Bool.not_false, Bool.true_and]
  · rw [get_eq, get_eq, own_quickClear, mem_erase (getLsbD_mask p bit) (bitsInPointer_pos p)]

/-! ## Copies -/

theorem own_setSlow (v : BitVector p) (mem : Memory p) : (v.setSlow mem).own = v.own := by
  funext i
  cases v with
  | inline bits flag => rfl
  | outOfLine b =>
    have hw : (OutOfLineBits.create mem b.numBits b.positive).numWords = b.numWords :=
      numWords_create mem b.positive
    rw [setSlow, own_with, hw, byteCount_numBits, memcpy_words, own]
    by_cases hi : i < b.numWords <;> simp [hi]

theorem own_assign (v oth : BitVector p) (mem : Memory p) : (v.assign oth mem).own = oth.own := by
  cases oth with
  | inline bits flag => cases v <;> rfl
  | outOfLine b => cases v <;> exact own_setSlow (outOfLine b) mem

/-! ## Two vectors -/

/-- Vectors whose words can be counted by an `unsigned`, as their bits can. -/
def Counted (v : BitVector p) : Prop := v.size < 2 ^ 32

instance (v : BitVector p) : Decidable v.Counted := inferInstanceAs (Decidable (_ < _))

theorem toUnsigned_numWords (h : Counted (outOfLine b)) : toUnsigned b.numWords = b.numWords := by
  have hle : b.numWords ≤ b.numBits := by
    rw [numBits_eq]
    exact Nat.le_mul_of_pos_right _ (bitsInPointer_pos p)
  exact mod_eq_of_lt (lt_of_le_of_lt hle h)

theorem toUnsigned_min {a : OutOfLineBits p} (ha : Counted (outOfLine a))
    (hb : Counted (outOfLine b)) :
    toUnsigned (min a.numWords b.numWords) = min a.numWords b.numWords := by
  rcases le_total a.numWords b.numWords with hle | hle
  · rw [min_eq_left hle, toUnsigned_numWords ha]
  · rw [min_eq_right hle, toUnsigned_numWords hb]

theorem own_replaceWords (a : OutOfLineBits p) (f : Nat → Word p → Word p) {count : Nat}
    (h : count ≤ a.numWords) (i : Nat) :
    (outOfLine { a with bits := replaceWords f count a.bits }).own i =
      if i < count then f i (a.bits i) else (outOfLine a).own i := by
  rw [own_with, replaceWords_apply, own]
  by_cases hi : i < count
  · rw [if_pos hi, if_pos hi, if_pos (by omega)]
  · rw [if_neg hi, if_neg hi]

/-- Where a merge reads no word behind those of the other vector. -/
def Mergeable (v other : BitVector p) : Prop := other.isInline = true ∨ v.size ≤ other.size

theorem maxInlineBits_lt_numBits (b : OutOfLineBits p) : maxInlineBits p < b.numBits := by
  have hle := le_of_dvd b.positive (dvd_of_mod_eq_zero b.rounded)
  have hpos := bitsInPointer_pos p
  rw [maxInlineBits]
  omega

/-- A vector that is no longer than another one gets as many words. -/
theorem ensureSize_numBits (h : v.size ≤ b.numBits) (mem : Memory p) :
    ∃ a, v.ensureSize mem b.numBits = outOfLine a ∧ a.numWords = b.numWords := by
  rw [ensureSize]
  split_ifs with hle
  · have heq : v.size = b.numBits := Nat.le_antisymm h hle
    cases v with
    | inline bits flag => exact absurd heq (Nat.ne_of_lt (maxInlineBits_lt_numBits b))
    | outOfLine a =>
      have heq : a.numBits = b.numBits := heq
      exact ⟨a, rfl, by rw [OutOfLineBits.numWords, heq, OutOfLineBits.numWords]⟩
  · exact ⟨_, rfl, numWords_create mem b.positive⟩

theorem own_merge (mem : Memory p) (h : Mergeable v oth)
    (hc : Counted oth) : (v.merge mem oth).own = fun i => v.own i ||| oth.own i := by
  cases oth with
  | inline ob otherFlag =>
    cases v with
    | inline bits flag =>
      funext i
      cases i with
      | zero => exact cleanse_or bits ob
      | succ i => exact or_zero.symm
    | outOfLine a =>
      simp only [merge, mergeSlow]
      rw [own_update a (numWords_pos a), own_inline]
      funext i
      cases i <;> simp [own_zero]
  | outOfLine b =>
    have hle : v.size ≤ b.numBits := h.resolve_left Bool.false_ne_true
    obtain ⟨a, ha, hw⟩ := ensureSize_numBits hle mem
    have hown : (outOfLine a).own = v.own := by rw [← ha, own_ensureSize]
    have hs : v.merge mem (outOfLine b) = v.mergeSlow mem (outOfLine b) := by
      cases v <;> rfl
    have hct : toUnsigned a.numWords = a.numWords := hw ▸ toUnsigned_numWords hc
    funext i
    rw [hs, mergeSlow, ha]
    simp only [hct]
    rw [own_replaceWords a _ (le_refl _), ← hown, own, own, ← hw]
    by_cases hi : i < a.numWords <;> simp [hi]

/-- Where a filter by an inline vector leaves no word as it is. -/
def Filterable (v other : BitVector p) : Prop :=
  other.isInline = true → ∀ n, v.get n = true → n < bitsInPointer p

theorem own_eq_zero (h : ∀ n, v.get n = true → n < bitsInPointer p)
    (hi : i ≠ 0) : v.own i = 0#_ := by
  apply eq_of_getLsbD_eq
  intro j hj
  rw [getLsbD_zero]
  by_contra hbit
  have hget := h (i * bitsInPointer p + j) (by
    rw [get_eq, mem_add v.own i hj]
    exact Bool.not_eq_false _ ▸ hbit)
  have hle : bitsInPointer p ≤ i * bitsInPointer p :=
    Nat.le_mul_of_pos_left _ (pos_of_ne_zero hi)
  omega

theorem cleanse_and_cleanse (a b : Word p) :
    cleanseInlineBits a &&& cleanseInlineBits b = cleanseInlineBits (a &&& b) := by
  apply eq_of_getLsbD_eq
  intro i hi
  simp only [getLsbD_and, getLsbD_cleanseInlineBits _ hi]
  cases decide (i ≠ maxInlineBits p) <;> simp

theorem own_filter (h : Filterable v oth) (hv : Counted v)
    (ho : Counted oth) : (v.filter oth).own = fun i => v.own i &&& oth.own i := by
  funext i
  cases oth with
  | inline ob otherFlag =>
    cases v with
    | inline bits flag =>
      cases i with
      | zero => exact (cleanse_and_cleanse bits ob).symm
      | succ i => exact and_zero.symm
    | outOfLine a =>
      simp only [filter, filterSlow]
      rw [own_update a (numWords_pos a), own_inline]
      cases i with
      | zero => simp [own_zero]
      | succ i => simp [own_eq_zero (h rfl)]
  | outOfLine b =>
    cases v with
    | inline bits flag =>
      simp only [filter, filterSlow, own_inline, cleanse_makeInlineBits]
      cases i <;> simp [own_zero, cleanse_and]
    | outOfLine a =>
      simp only [filter, filterSlow, toUnsigned_min hv ho, toUnsigned_numWords ho]
      rw [own_with, zeroWords_apply, replaceWords_apply, own, own]
      by_cases hia : i < a.numWords
      · by_cases hib : i < b.numWords
        · rw [if_neg (show ¬(b.numWords ≤ i ∧ _) by omega)]
          simp [hia, hib]
        · rw [if_pos (show b.numWords ≤ i ∧ i < b.numWords + (a.numWords - b.numWords) by omega)]
          simp [hib]
      · simp [hia]

theorem own_exclude (hv : Counted v) (ho : Counted oth) :
    (v.exclude oth).own = fun i => v.own i &&& ~~~oth.own i := by
  funext i
  cases oth with
  | inline ob otherFlag =>
    have hc : ∀ bits : Word p, cleanseInlineBits (bits &&& ~~~ob) =
        cleanseInlineBits bits &&& ~~~cleanseInlineBits ob := by
      intro bits
      apply eq_of_getLsbD_eq
      intro i hi
      simp only [getLsbD_and, getLsbD_not, getLsbD_cleanseInlineBits _ hi]
      cases decide (i ≠ maxInlineBits p) <;> simp
    cases v with
    | inline bits flag =>
      simp only [exclude, own_inline, cleanse_makeInlineBits]
      cases i <;> simp [hc]
    | outOfLine a =>
      simp only [exclude, excludeSlow]
      rw [own_update a (numWords_pos a), own_inline]
      cases i <;> simp [own_zero]
  | outOfLine b =>
    cases v with
    | inline bits flag =>
      simp only [exclude, excludeSlow, own_inline, cleanse_makeInlineBits]
      cases i <;> simp [own_zero, cleanse_and]
    | outOfLine a =>
      simp only [exclude, excludeSlow, toUnsigned_min hv ho]
      rw [own_replaceWords a _ (Nat.min_le_left _ _), own, own]
      by_cases hia : i < a.numWords <;> by_cases hib : i < b.numWords <;> simp [hia, hib]

end JavaScriptCore.Wtf.BitVector
