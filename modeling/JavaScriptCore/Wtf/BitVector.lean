import JavaScriptCore.ProgramLogic.Computation
import JavaScriptCore.Wtf.StdLibExtras

/-!
# Bit vectors

`wtf/BitVector.h` and `wtf/BitVector.cpp`. A vector is one word whose highest bit is set, or the
address of words elsewhere. `OutOfLineBits.bits` gives every word from that address on: those behind
the vector's own hold whatever memory holds there, as new storage does until it is written.
Assertions are not checked, and addresses and their arithmetic are left out.
-/

namespace JavaScriptCore.Wtf

open Function BitVec Nat

inductive Platform where
  | bits32
  | bits64
  deriving DecidableEq, Repr

/-- `sizeof(void*)`. -/
def sizeofPointer : Platform → Nat
  | .bits32 => 4
  | .bits64 => 8

def bitsInPointer (p : Platform) : Nat := sizeofPointer p <<< 3

/-- `uintptr_t`. -/
abbrev Word (p : Platform) := BitVec (bitsInPointer p)

def maxInlineBits (p : Platform) : Nat := bitsInPointer p - 1

variable {p : Platform}

theorem bitsInPointer_pos (p : Platform) : 0 < bitsInPointer p := by cases p <;> decide

/-- `static_cast<unsigned>`. -/
def toUnsigned (n : Nat) : Nat := n % 2 ^ 32

def byteCount (bitCount : Nat) : Nat := (bitCount + 7) >>> 3

/-- `static_cast<uintptr_t>(1) << maxInlineBits()`. -/
def inlineFlag (p : Platform) : Word p := 1#_ <<< maxInlineBits p

def makeInlineBits (bits : Word p) : Word p := bits ||| inlineFlag p

def cleanseInlineBits (bits : Word p) : Word p := bits &&& ~~~inlineFlag p

/-- The mask of a bit in its word. -/
def mask (p : Platform) (bit : Nat) : Word p := 1#_ <<< (bit &&& (bitsInPointer p - 1))

theorem mask_eq (p : Platform) (bit : Nat) : mask p bit = 1#_ <<< (bit % bitsInPointer p) := by
  rw [mask]
  congr 1
  cases p with
  | bits32 => exact and_two_pow_sub_one_eq_mod bit 5
  | bits64 => exact and_two_pow_sub_one_eq_mod bit 6

theorem getLsbD_mask (p : Platform) (bit i : Nat) :
    (mask p bit).getLsbD i = decide (i = bit % bitsInPointer p) := by
  have hlt := mod_lt bit (bitsInPointer_pos p)
  rw [mask_eq, getLsbD_shiftLeft, getLsbD_one, Bool.eq_iff_iff]
  simp only [Bool.and_eq_true, decide_eq_true_eq, Bool.not_eq_true', decide_eq_false_iff_not]
  omega

theorem msb_mask {bit : Nat} (h : bit < maxInlineBits p) : (mask p bit).msb = false := by
  have hlt : bit < bitsInPointer p := Nat.lt_of_lt_of_le h (sub_le _ _)
  rw [msb_eq_getLsbD_last, getLsbD_mask, mod_eq_of_lt hlt, decide_eq_false]
  exact Nat.ne_of_gt h

theorem msb_inlineFlag (p : Platform) : (inlineFlag p).msb = true := by cases p <;> decide

theorem msb_makeInlineBits (bits : Word p) : (makeInlineBits bits).msb = true := by
  rw [makeInlineBits, msb_or, msb_inlineFlag, Bool.or_true]

/-! ## Words in memory -/

/-- The words from an address on. -/
abbrev Memory (p : Platform) := Nat → Word p

/-- `memcpy`, of whole words. -/
def memcpy (destination source : Memory p) (bytes : Nat) : Memory p := fun i =>
  if (i + 1) * sizeofPointer p ≤ bytes then source i else destination i

/-- `memset` to zero, of whole words, from a word on. -/
def memset (destination : Memory p) (first bytes : Nat) : Memory p := fun i =>
  if first ≤ i ∧ (i + 1 - first) * sizeofPointer p ≤ bytes then 0#_ else destination i

/-- `for (unsigned i = count; i--;)`. -/
def countdown {σ : Type} (body : Nat → σ → σ) : Nat → σ → σ
  | 0, s => s
  | i + 1, s => countdown body i (body i s)

/-- A loop over so many words, each of which it replaces. -/
def replaceWords (f : Nat → Word p → Word p) (count : Nat) (bits : Memory p) : Memory p :=
  countdown (fun i bits => update bits i (f i (bits i))) count bits

structure OutOfLineBits (p : Platform) where
  numBits : Nat
  bits : Memory p
  rounded : numBits % bitsInPointer p = 0
  positive : 0 < numBits

namespace OutOfLineBits

def numWords (b : OutOfLineBits p) : Nat := (b.numBits + bitsInPointer p - 1) / bitsInPointer p

/-- The number of bits is rounded up to whole words. What is there is left as it is. -/
def create (memory : Memory p) (numBits : Nat) (h : 0 < numBits) : OutOfLineBits p where
  numBits := (numBits + bitsInPointer p - 1) / bitsInPointer p * bitsInPointer p
  bits := memory
  rounded := mul_mod_left _ _
  positive := Nat.mul_pos (Nat.div_pos (by omega) (bitsInPointer_pos p)) (bitsInPointer_pos p)

end OutOfLineBits

/-- `m_bitsOrPointer`. -/
inductive BitVector (p : Platform) where
  | inline (bits : Word p) (flag : bits.msb = true)
  | outOfLine (bits : OutOfLineBits p)

namespace BitVector

def isInline : BitVector p → Bool
  | inline _ _ => true
  | outOfLine _ => false

/-- `BitVector()`. -/
def empty : BitVector p := inline (makeInlineBits 0#_) (msb_makeInlineBits _)

def size : BitVector p → Nat
  | inline _ _ => maxInlineBits p
  | outOfLine b => b.numBits

theorem maxInlineBits_le_size (v : BitVector p) : maxInlineBits p ≤ v.size := by
  cases v with
  | inline bits flag => exact Nat.le_refl _
  | outOfLine b =>
    have hdvd := dvd_of_mod_eq_zero b.rounded
    have hle := le_of_dvd b.positive hdvd
    exact Nat.le_trans (sub_le _ _) hle

/-! ## Sizes -/

def resizeOutOfLine (v : BitVector p) (memory : Memory p) (numBits : Nat)
    (h : maxInlineBits p < numBits) : BitVector p :=
  let newOutOfLineBits := OutOfLineBits.create memory numBits (zero_lt_of_lt h)
  let newNumWords := newOutOfLineBits.numWords
  let bits := match v with
    | inline bitsOrPointer _ =>
      let bits := update newOutOfLineBits.bits 0 (cleanseInlineBits bitsOrPointer)
      memset bits 1 ((newNumWords - 1) * sizeofPointer p)
    | outOfLine old =>
      if numBits > old.numBits then
        let oldNumWords := old.numWords
        let bits := memcpy newOutOfLineBits.bits old.bits (oldNumWords * sizeofPointer p)
        memset bits oldNumWords ((newNumWords - oldNumWords) * sizeofPointer p)
      else memcpy newOutOfLineBits.bits old.bits (newNumWords * sizeofPointer p)
  outOfLine { newOutOfLineBits with bits }

def ensureSize (v : BitVector p) (memory : Memory p) (numBits : Nat) : BitVector p :=
  if h : numBits ≤ v.size then v
  else v.resizeOutOfLine memory numBits
    (Nat.lt_of_le_of_lt v.maxInlineBits_le_size (Nat.lt_of_not_le h))

def resize (v : BitVector p) (memory : Memory p) (numBits : Nat) : BitVector p :=
  if h : numBits ≤ maxInlineBits p then
    match v with
    | inline bits flag => inline bits flag
    | outOfLine b => inline (makeInlineBits (b.bits 0)) (msb_makeInlineBits _)
  else v.resizeOutOfLine memory numBits (Nat.lt_of_not_le h)

def clearAll : BitVector p → BitVector p
  | inline _ _ => inline (makeInlineBits 0#_) (msb_makeInlineBits _)
  | outOfLine b => outOfLine { b with bits := memset b.bits 0 (byteCount b.numBits) }

/-! ## Single bits -/

/-- A word of `bits()`. -/
def word : BitVector p → Nat → Word p
  | inline bits _, _ => bits
  | outOfLine b, i => b.bits i

def quickGet (v : BitVector p) (bit : Nat) : Bool :=
  v.word (bit / bitsInPointer p) &&& mask p bit ≠ 0#_

def get (v : BitVector p) (bit : Nat) : Bool := if bit ≥ v.size then false else v.quickGet bit

/-- The value before, and the vector after. -/
def quickSet (v : BitVector p) (bit : Nat) : Bool × BitVector p :=
  (v.quickGet bit, match v with
    | inline bits flag => inline (bits ||| mask p bit) (by rw [msb_or, flag, Bool.true_or])
    | outOfLine b => outOfLine { b with
        bits := update b.bits (bit / bitsInPointer p)
          (b.bits (bit / bitsInPointer p) ||| mask p bit) })

def quickClear (v : BitVector p) (bit : Nat) (h : bit < v.size) : Bool × BitVector p :=
  (v.quickGet bit, match v, h with
    | inline bits flag, h => inline (bits &&& ~~~mask p bit) (by
        rw [msb_and, flag, Bool.true_and, msb_not, msb_mask h]
        cases p <;> rfl)
    | outOfLine b, _ => outOfLine { b with
        bits := update b.bits (bit / bitsInPointer p)
          (b.bits (bit / bitsInPointer p) &&& ~~~mask p bit) })

def set (v : BitVector p) (memory : Memory p) (bit : Nat) : Bool × BitVector p :=
  (v.ensureSize memory (bit + 1)).quickSet bit

def clear (v : BitVector p) (bit : Nat) : Bool × BitVector p :=
  if h : bit ≥ v.size then (false, v) else v.quickClear bit (Nat.lt_of_not_le h)

/-! ## Copies -/

/-- The vector that is assigned to is only freed. -/
def setSlow (other : BitVector p) (memory : Memory p) : BitVector p :=
  match other with
  | inline bits flag => inline bits flag
  | outOfLine b =>
    let newOutOfLineBits := OutOfLineBits.create memory b.numBits b.positive
    outOfLine { newOutOfLineBits with
      bits := memcpy newOutOfLineBits.bits b.bits (byteCount b.numBits) }

/-- `operator=`. -/
def assign (v other : BitVector p) (memory : Memory p) : BitVector p :=
  match v, other with
  | inline _ _, inline bits flag => inline bits flag
  | _, other => other.setSlow memory

/-- `BitVector(const BitVector&)`. -/
def copy (other : BitVector p) (memory : Memory p) : BitVector p := empty.assign other memory

/-! ## Two vectors -/

def mergeSlow (v : BitVector p) (memory : Memory p) (other : BitVector p) : BitVector p :=
  match other with
  | inline otherBits _ =>
    match v with
    | inline bits flag => inline bits flag
    | outOfLine a => outOfLine { a with
        bits := update a.bits 0 (a.bits 0 ||| cleanseInlineBits otherBits) }
  | outOfLine b =>
    match v.ensureSize memory b.numBits with
    | inline bits flag => inline bits flag
    | outOfLine a => outOfLine { a with
        bits := replaceWords (fun i word => word ||| b.bits i) (toUnsigned a.numWords) a.bits }

def merge (v : BitVector p) (memory : Memory p) (other : BitVector p) : BitVector p :=
  match v, other with
  | inline bits flag, inline otherBits _ =>
    inline (bits ||| otherBits) (by rw [msb_or, flag, Bool.true_or])
  | v, other => v.mergeSlow memory other

/-- `for (unsigned i = first; i < end; ++i)`, with zero written to each word. -/
def zeroWords (first count : Nat) (bits : Memory p) : Memory p :=
  (List.range' first count).foldl (fun bits i => update bits i 0#_) bits

def filterSlow (v other : BitVector p) : BitVector p :=
  match other with
  | inline otherBits _ =>
    match v with
    | inline bits flag => inline bits flag
    | outOfLine a => outOfLine { a with
        bits := update a.bits 0 (a.bits 0 &&& cleanseInlineBits otherBits) }
  | outOfLine b =>
    match v with
    | inline bits _ => inline (makeInlineBits (bits &&& b.bits 0)) (msb_makeInlineBits _)
    | outOfLine a =>
      let bits := replaceWords (fun i word => word &&& b.bits i)
        (toUnsigned (min a.numWords b.numWords)) a.bits
      outOfLine { a with
        bits := zeroWords (toUnsigned b.numWords) (a.numWords - toUnsigned b.numWords) bits }

def filter (v other : BitVector p) : BitVector p :=
  match v, other with
  | inline bits flag, inline otherBits otherFlag =>
    inline (bits &&& otherBits) (by rw [msb_and, flag, otherFlag]; rfl)
  | v, other => v.filterSlow other

def excludeSlow (v other : BitVector p) : BitVector p :=
  match other with
  | inline otherBits _ =>
    match v with
    | inline bits flag => inline bits flag
    | outOfLine a => outOfLine { a with
        bits := update a.bits 0 (a.bits 0 &&& ~~~cleanseInlineBits otherBits) }
  | outOfLine b =>
    match v with
    | inline bits _ => inline (makeInlineBits (bits &&& ~~~b.bits 0)) (msb_makeInlineBits _)
    | outOfLine a => outOfLine { a with
        bits := replaceWords (fun i word => word &&& ~~~b.bits i)
          (toUnsigned (min a.numWords b.numWords)) a.bits }

def exclude (v other : BitVector p) : BitVector p :=
  match v, other with
  | inline bits _, inline otherBits _ =>
    inline (makeInlineBits (bits &&& ~~~otherBits)) (msb_makeInlineBits _)
  | v, other => v.excludeSlow other

/-! ## Questions -/

/-- `bitCount(uintptr_t)`. -/
def bitCountOfWord : {p : Platform} → Word p → Nat
  | .bits32, bits => bitCount32 bits
  | .bits64, bits => bitCount64 bits

def bitCount : BitVector p → Nat
  | inline bits _ => bitCountOfWord (cleanseInlineBits bits)
  | outOfLine b =>
    countdown (fun i result => result + bitCountOfWord (b.bits i)) (toUnsigned b.numWords) 0

/-- The loop of `findBitFast` over the words that are left. -/
def findBitInWords (b : OutOfLineBits p) (value : Bool) : Nat → Nat → Nat → Nat
  | 0, _, _ => b.numBits
  | left + 1, wordIndex, startIndexInWord =>
    let skipValue : Word p := if value then 0#_ else allOnes _
    let word := b.bits wordIndex
    let found := findBitInWord word startIndexInWord (bitsInPointer p) value
    if word ≠ skipValue ∧ found.2 then wordIndex * bitsInPointer p + found.1
    else findBitInWords b value left (wordIndex + 1) 0

/-- `findBitFast`. -/
def findBit (v : BitVector p) (startIndex : Nat) (value : Bool) : Nat :=
  match v with
  | inline bits _ => (findBitInWord bits startIndex (maxInlineBits p) value).1
  | outOfLine b =>
    let wordIndex := startIndex / bitsInPointer p
    findBitInWords b value (b.numWords - wordIndex) wordIndex
      (startIndex - wordIndex * bitsInPointer p)

open ProgramLogic in
/-- What a loop from `begin()` to `end()` comes across. -/
def iterate (v : BitVector p) : Budgeted (List Nat) :=
  Budgeted.loop (fun s : Nat × List Nat => pure (
    if s.1 = v.size then .inr s.2
    else .inl (v.findBit (s.1 + 1) true, s.2 ++ [s.1]))) (v.findBit 0 true, [])

def equalsSlowCaseSimple (v other : BitVector p) : Bool :=
  (List.range (toUnsigned (max v.size other.size))).all fun i => v.get i == other.get i

def equalsSlowCaseFast (v other : BitVector p) : Bool :=
  match v, other with
  | outOfLine myBits, outOfLine otherBits =>
    let minNumWords := min myBits.numWords otherBits.numWords
    let maxNumWords := max myBits.numWords otherBits.numWords
    let longerBits := if myBits.numWords < otherBits.numWords then otherBits else myBits
    (List.range' minNumWords (maxNumWords - minNumWords)).all (longerBits.bits · = 0#_) &&
      (List.range minNumWords).all fun i => myBits.bits i = otherBits.bits i
  | v, other => v.equalsSlowCaseSimple other

/-- `operator==`. -/
def equals (v other : BitVector p) : Bool :=
  match v, other with
  | inline bits _, inline otherBits _ => bits = otherBits
  | v, other => v.equalsSlowCaseFast other

/-- `IntHash<uintptr_t>::hash`. -/
def intHash : {p : Platform} → Word p → BitVec 32
  | .bits32, key =>
    let key := key + ~~~(key <<< 15)
    let key := key ^^^ (key >>> 10)
    let key := key + (key <<< 3)
    let key := key ^^^ (key >>> 6)
    let key := key + ~~~(key <<< 11)
    key ^^^ (key >>> 16)
  | .bits64, key =>
    let key := key + ~~~(key <<< 32)
    let key := key ^^^ (key >>> 22)
    let key := key + ~~~(key <<< 13)
    let key := key ^^^ (key >>> 8)
    let key := key + (key <<< 3)
    let key := key ^^^ (key >>> 15)
    let key := key + ~~~(key <<< 27)
    let key := key ^^^ (key >>> 31)
    key.setWidth 32

def hashSlowCase (b : OutOfLineBits p) : Word p :=
  countdown (fun i result => result ^^^ b.bits i) (toUnsigned b.numWords) 0#_

def hash : BitVector p → BitVec 32
  | inline bits _ => intHash (cleanseInlineBits bits)
  | outOfLine b => intHash (hashSlowCase b)

end BitVector

end JavaScriptCore.Wtf
