import JavaScriptCore.Wtf.BitVectorSpec
import Mathlib.Data.List.Find

/-!
# What bit vectors report

`members` is the set a vector stands for. Counting, finding, iterating, comparing and hashing depend
on nothing else, as long as an `unsigned` can count the bits; and the operations on vectors are
those on sets, as long as no merge reads behind the words of a shorter vector and no filter by an
inline vector leaves members in further words.
-/

namespace JavaScriptCore.Wtf.BitVector

open Collections List Function Nat WordSet
open ProgramLogic Budgeted

variable {p : Platform}

/-- The set that a vector stands for. -/
def members (v : BitVector p) : Finset Nat := (Finset.range v.size).filter (v.get · = true)

variable {v oth : BitVector p} {k i : Nat} {vectors : Nat → BitVector p}

theorem lt_size_of_get {n : Nat} (h : v.get n = true) : n < v.size := by
  by_contra hle
  rw [get, if_pos (by omega)] at h
  cases h

@[simp] theorem mem_members {n : Nat} : n ∈ v.members ↔ v.get n = true := by
  rw [members, Finset.mem_filter, Finset.mem_range]
  exact ⟨And.right, fun h => ⟨lt_size_of_get h, h⟩⟩

theorem members_eq_iff : v.members = oth.members ↔ v.own = oth.own := by
  rw [Finset.ext_iff]
  constructor
  · intro h
    apply ext
    intro n
    have hiff := h n
    rw [mem_members, mem_members, ← Bool.eq_iff_iff, get_eq, get_eq] at hiff
    exact hiff
  · intro h n
    rw [mem_members, mem_members, get_eq, get_eq, h]

/-! ## Counting -/

/-- The number of words, one for an inline vector. -/
def numWords : BitVector p → Nat
  | inline _ _ => 1
  | outOfLine b => b.numWords

theorem size_le_numWords (v : BitVector p) : v.size ≤ v.numWords * bitsInPointer p := by
  cases v with
  | inline bits flag =>
    rw [numWords, one_mul]
    exact sub_le _ _
  | outOfLine b => exact le_of_eq (numBits_eq b)

theorem bitCountOfWord_eq (bits : Word p) :
    bitCountOfWord bits = ones (bitsInPointer p) bits.toNat := by
  cases p with
  | bits32 => exact bitCount32_eq bits
  | bits64 => exact bitCount64_eq bits

theorem countdown_sum (f : Nat → Nat) (k r : Nat) :
    countdown (fun i r => r + f i) k r = r + ∑ i ∈ Finset.range k, f i := by
  induction k generalizing r with
  | zero => rfl
  | succ k ih =>
    rw [countdown, ih, Finset.sum_range_succ]
    omega

theorem bitCount_eq (h : Counted v) : v.bitCount = v.members.card := by
  have hms : v.members = (Finset.range (v.numWords * bitsInPointer p)).filter (mem v.own ·) := by
    ext n
    rw [mem_members, Finset.mem_filter, Finset.mem_range, ← get_eq]
    exact ⟨fun hn => ⟨lt_of_lt_of_le (lt_size_of_get hn) v.size_le_numWords, hn⟩, And.right⟩
  rw [hms, card_filter_mem]
  cases v with
  | inline bits flag => simp [bitCount, numWords, own, bitCountOfWord_eq]
  | outOfLine b =>
    rw [bitCount, toUnsigned_numWords h, countdown_sum, zero_add]
    apply Finset.sum_congr rfl
    intro i hi
    rw [bitCountOfWord_eq, own, if_pos (Finset.mem_range.mp hi)]

/-! ## Finding -/

/-- The first bit of a value from an index on, or the size. -/
def firstBit (v : BitVector p) (index : Nat) (value : Bool) : Nat :=
  ((range' index (v.size - index)).find? (fun n => v.get n == value)).getD v.size

theorem get_of_word {b : OutOfLineBits p} (hk : k < b.numWords) (hi : i < bitsInPointer p) :
    (outOfLine b).get (k * bitsInPointer p + i) = (b.bits k).getLsbD i := by
  rw [get_eq, mem_add _ k hi, own, if_pos hk]

/-- A word that is skipped has no bit of the value. -/
theorem getLsbD_skipValue {val : Bool} {word : Word p} (hi : i < bitsInPointer p)
    (h : (word.getLsbD i == val) = true) :
    word ≠ if val then 0#_ else BitVec.allOnes _ := by
  rintro rfl
  cases val <;> simp [hi] at h

variable (b : OutOfLineBits p)

/-- The bits that are left are those of this word and then the others. -/
theorem find?_range' (val : Bool) {st : Nat} (hk : k < b.numWords) (hs : st ≤ bitsInPointer p) :
    (range' (k * bitsInPointer p + st) (b.numBits - (k * bitsInPointer p + st))).find?
        (fun n => (outOfLine b).get n == val) =
      (((range' st (bitsInPointer p - st)).find?
          (fun i => (b.bits k).getLsbD i == val)).map (k * bitsInPointer p + ·)).or
        ((range' ((k + 1) * bitsInPointer p) (b.numBits - (k + 1) * bitsInPointer p)).find?
          (fun n => (outOfLine b).get n == val)) := by
  have hmul : (k + 1) * bitsInPointer p ≤ b.numBits := by
    rw [numBits_eq]
    exact Nat.mul_le_mul_right _ hk
  have hsu : (k + 1) * bitsInPointer p = k * bitsInPointer p + bitsInPointer p := succ_mul k _
  have hsp : range' (k * bitsInPointer p + st)
      (b.numBits - (k * bitsInPointer p + st)) =
      (range' st (bitsInPointer p - st)).map (k * bitsInPointer p + ·) ++
        range' ((k + 1) * bitsInPointer p) (b.numBits - (k + 1) * bitsInPointer p) := by
    have hn : (k + 1) * bitsInPointer p =
        k * bitsInPointer p + st + 1 * (bitsInPointer p - st) := by omega
    rw [map_add_range', hn, range'_append]
    congr 1
    omega
  rw [hsp, List.find?_append, List.find?_map]
  congr 2
  apply List.find?_congr
  intro i hi
  rw [mem_range'_1] at hi
  rw [comp_apply, get_of_word hk (by omega)]

theorem findBitInWords_eq (val : Bool) {left st : Nat}
    (hl : left = b.numWords - k) (hs : st ≤ bitsInPointer p) :
    findBitInWords b val left k st = firstBit (outOfLine b) (k * bitsInPointer p + st) val := by
  induction left generalizing k st with
  | zero =>
    have hle : b.numBits ≤ k * bitsInPointer p + st := by
      rw [numBits_eq]
      exact le_trans (Nat.mul_le_mul_right _ (by omega)) (Nat.le_add_right _ _)
    rw [findBitInWords, firstBit, size, Nat.sub_eq_zero_of_le hle]
    rfl
  | succ left ih =>
    rw [findBitInWords, firstBit, size, find?_range' b val (by omega) hs,
      findBitInWord_eq (Nat.ne_of_gt (bitsInPointer_pos p))]
    cases hf : (range' st (bitsInPointer p - st)).find?
        (fun i => (b.bits k).getLsbD i == val) with
    | none =>
      simp only [Bool.false_eq_true, and_false, if_false, Option.map_none, Option.none_or]
      rw [ih (by omega) (zero_le _), add_zero]
      rfl
    | some i =>
      have hi : i < bitsInPointer p := by
        have hmem := List.mem_of_find?_eq_some hf
        rw [mem_range'_1] at hmem
        omega
      have hv := List.find?_some (p := fun i => (b.bits k).getLsbD i == val) hf
      have hsk := getLsbD_skipValue hi hv
      rw [if_pos ⟨hsk, rfl⟩]
      rfl

/-- The fast search finds what the simple one does. -/
theorem findBit_eq (v : BitVector p) (idx : Nat) (val : Bool) :
    v.findBit idx val = v.firstBit idx val := by
  cases v with
  | inline bits flag =>
    rw [findBit, findBitInWord_eq (Nat.ne_of_gt (bitsInPointer_pos p)), firstBit, size]
    have hc : ∀ n ∈ range' idx (maxInlineBits p - idx),
        (bits.getLsbD n == val) = ((inline bits flag).get n == val) := by
      intro n hn
      rw [mem_range'_1] at hn
      have hlt : n < maxInlineBits p := by omega
      have hs : ¬n ≥ (inline bits flag).size := Nat.not_le_of_lt hlt
      rw [get, if_neg hs, quickGet_eq, word, mod_eq_of_lt (lt_of_lt_of_le hlt (sub_le _ _))]
    rw [List.find?_congr hc]
    cases List.find? _ _ <;> rfl
  | outOfLine b =>
    have hdiv := div_add_mod idx (bitsInPointer p)
    have hmod := mod_lt idx (bitsInPointer_pos p)
    rw [mul_comm] at hdiv
    simp only [findBit]
    rw [findBitInWords_eq b val rfl (by omega)]
    congr 1
    omega

/-- A search for a member ends at the least one, or at the size. -/
theorem findBit_true (v : BitVector p) (idx : Nat) :
    (v.findBit idx true ∈ v.members ∧ idx ≤ v.findBit idx true ∧
        ∀ n ∈ v.members, idx ≤ n → v.findBit idx true ≤ n) ∨
      v.findBit idx true = v.size ∧ ∀ n ∈ v.members, n < idx := by
  rw [findBit_eq, firstBit]
  cases hf : (range' idx (v.size - idx)).find? (fun n => v.get n == true) with
  | none =>
    refine .inr ⟨rfl, fun n hn => ?_⟩
    rw [mem_members] at hn
    have hlt := lt_size_of_get hn
    by_contra hle
    rw [List.find?_eq_none] at hf
    exact hf n (mem_range'_1.mpr (by omega)) (by simp [hn])
  | some i =>
    obtain ⟨hget, front, back, hsp, hfr⟩ := List.find?_eq_some_iff_append.mp hf
    have hmem := List.mem_of_find?_eq_some hf
    rw [mem_range'_1] at hmem
    refine .inl ⟨by simpa using hget, hmem.1, fun n hn hle => ?_⟩
    rw [mem_members] at hn
    have hlt := lt_size_of_get hn
    have hn' : n ∈ front ++ i :: back := hsp ▸ mem_range'_1.mpr (by omega)
    rcases mem_append.mp hn' with hfi | hr
    · exact absurd hn (by simpa using hfr n hfi)
    · rcases mem_cons.mp hr with rfl | hb
      · exact le_refl _
      · have hs : (front ++ i :: back).Pairwise (· < ·) := hsp ▸ pairwise_lt_range'
        exact le_of_lt ((pairwise_cons.mp (pairwise_append.mp hs).2.1).1 n hb)

/-! ## Iterating -/

theorem yields_iterate_from (v : BitVector p) (idx : Nat) (visited : List Nat) :
    Yields (Budgeted.loop (fun s : Nat × List Nat => pure (
      if s.1 = v.size then .inr s.2
      else .inl (v.findBit (s.1 + 1) true, s.2 ++ [s.1]))) (v.findBit idx true, visited))
      (fun result => ∃ rest, result = visited ++ rest ∧ rest.Pairwise (· < ·) ∧
        ∀ n, n ∈ rest ↔ n ∈ v.members ∧ idx ≤ n) := by
  generalize hlef : v.size - idx = left
  induction left using Nat.strongRecOn generalizing idx visited with
  | ind left ih =>
    rcases findBit_true v idx with ⟨hmem, hle, hl⟩ | ⟨hsz, hno⟩
    · have hlt := lt_size_of_get (mem_members.mp hmem)
      refine yields_loop_inl (if_neg (Nat.ne_of_lt hlt)) ?_
      refine (ih _ (by omega) (v.findBit idx true + 1) (visited ++ [v.findBit idx true])
        rfl).mono ?_
      rintro result ⟨rest, rfl, hs, hr⟩
      refine ⟨v.findBit idx true :: rest, by simp, ?_, fun n => ?_⟩
      · exact pairwise_cons.mpr ⟨fun n hn => ((hr n).mp hn).2, hs⟩
      rw [mem_cons, hr]
      constructor
      · rintro (rfl | ⟨hn, hla⟩)
        · exact ⟨hmem, hle⟩
        · exact ⟨hn, by omega⟩
      · rintro ⟨hn, hi⟩
        have := hl n hn hi
        by_cases heq : n = v.findBit idx true
        · exact .inl heq
        · exact .inr ⟨hn, by omega⟩
    · refine yields_loop_inr (if_pos hsz) ⟨[], by simp, .nil, fun n => ?_⟩
      refine iff_of_false (fun h => nomatch h) fun ⟨hn, hi⟩ => ?_
      have := hno n hn
      omega

theorem yields_iterate (v : BitVector p) : Yields v.iterate (fun result =>
    result.Pairwise (· < ·) ∧ ∀ n, n ∈ result ↔ n ∈ v.members) := by
  refine (yields_iterate_from v 0 []).mono ?_
  rintro result ⟨rest, rfl, hs, hr⟩
  exact ⟨hs, fun n => by simp [hr n]⟩

/-! ## Comparing and hashing -/

theorem makeInlineBits_cleanse {bits : Word p} (flag : bits.msb = true) :
    makeInlineBits (cleanseInlineBits bits) = bits := by
  apply BitVec.eq_of_getLsbD_eq
  intro i hi
  rw [makeInlineBits, BitVec.getLsbD_or, getLsbD_cleanseInlineBits bits hi, getLsbD_inlineFlag]
  by_cases hl : i = maxInlineBits p
  · have hbit : bits.getLsbD i = true := by
      rw [hl, maxInlineBits, ← BitVec.msb_eq_getLsbD_last]
      exact flag
    simp [hl, hl ▸ hbit]
  · simp [hl]

theorem equalsSlowCaseSimple_iff (hv : Counted v) (ho : Counted oth) :
    v.equalsSlowCaseSimple oth = true ↔ v.own = oth.own := by
  have hmax : toUnsigned (max v.size oth.size) = max v.size oth.size :=
    mod_eq_of_lt (Nat.max_lt.mpr ⟨hv, ho⟩)
  rw [← members_eq_iff, Finset.ext_iff, equalsSlowCaseSimple, hmax, all_eq_true]
  simp only [mem_range, mem_members, beq_iff_eq]
  constructor
  · intro h n
    by_cases hn : n < max v.size oth.size
    · rw [h n hn]
    · rw [get, get, if_pos (by omega), if_pos (by omega)]
  · intro h n _
    rw [Bool.eq_iff_iff]
    exact h n

theorem own_eq_iff {a b : OutOfLineBits p} : (outOfLine a).own = (outOfLine b).own ↔
    (∀ i < min a.numWords b.numWords, a.bits i = b.bits i) ∧
      ∀ i, min a.numWords b.numWords ≤ i → i < max a.numWords b.numWords →
        (if a.numWords < b.numWords then b else a).bits i = 0#_ := by
  rw [funext_iff, ← forall_and]
  refine forall_congr' fun i => ?_
  rw [own, own]
  by_cases hmin : i < min a.numWords b.numWords
  · rw [if_pos (by omega), if_pos (by omega)]
    exact ⟨fun h => ⟨fun _ => h, fun hle => absurd hmin (Nat.not_lt.mpr hle)⟩, fun h => h.1 hmin⟩
  by_cases hmax : i < max a.numWords b.numWords
  · by_cases hlt : a.numWords < b.numWords
    · rw [if_pos hlt, if_neg (by omega), if_pos (by omega)]
      exact ⟨fun h => ⟨fun hi => absurd hi hmin, fun _ _ => h.symm⟩,
        fun h => (h.2 (Nat.not_lt.mp hmin) hmax).symm⟩
    · rw [if_neg hlt, if_pos (by omega), if_neg (by omega)]
      exact ⟨fun h => ⟨fun hi => absurd hi hmin, fun _ _ => h⟩,
        fun h => h.2 (Nat.not_lt.mp hmin) hmax⟩
  · rw [if_neg (by omega), if_neg (by omega)]
    exact ⟨fun _ => ⟨fun hi => absurd hi hmin, fun _ hi => absurd hi hmax⟩, fun _ => rfl⟩

/-- Vectors are equal if the sets are, whatever their sizes. -/
theorem equals_iff (hv : Counted v) (ho : Counted oth) :
    v.equals oth = true ↔ v.members = oth.members := by
  rw [members_eq_iff]
  cases v with
  | inline bits flag =>
    cases oth with
    | inline otherBits otherFlag =>
      rw [equals, decide_eq_true_iff]
      constructor
      · rintro rfl
        rfl
      · intro h
        have hz : cleanseInlineBits bits = cleanseInlineBits otherBits := congrFun h 0
        rw [← makeInlineBits_cleanse flag, hz, makeInlineBits_cleanse otherFlag]
    | outOfLine b => exact equalsSlowCaseSimple_iff hv ho
  | outOfLine a =>
    cases oth with
    | inline otherBits otherFlag => exact equalsSlowCaseSimple_iff hv ho
    | outOfLine b =>
      have hf : (outOfLine a).equals (outOfLine b) =
          (outOfLine a).equalsSlowCaseFast (outOfLine b) := rfl
      rw [own_eq_iff, hf, equalsSlowCaseFast, Bool.and_eq_true, all_eq_true, all_eq_true, and_comm]
      simp

/-- The words that a hash combines. -/
def combined (words : Nat → Word p) (count : Nat) : Word p :=
  countdown (fun i result => result ^^^ words i) count 0#_

theorem countdown_xor_congr {words words' : Nat → Word p} {count : Nat}
    (h : ∀ i < count, words i = words' i) (r : Word p) :
    countdown (fun i result => result ^^^ words i) count r =
      countdown (fun i result => result ^^^ words' i) count r := by
  induction count generalizing r with
  | zero => rfl
  | succ count ih =>
    rw [countdown, countdown, h count (lt_succ_self _)]
    exact ih (fun i hi => h i (lt_succ_of_lt hi)) _

/-- Words of zero change nothing. -/
theorem combined_add {words : Nat → Word p} {count : Nat} (h : ∀ i, count ≤ i → words i = 0#_)
    (more : Nat) : combined words (count + more) = combined words count := by
  induction more with
  | zero => rfl
  | succ more ih =>
    rw [combined, ← add_assoc, countdown, h _ (Nat.le_add_right _ _), BitVec.xor_zero]
    exact ih

theorem hash_eq (h : Counted v) : v.hash = intHash (combined v.own v.numWords) := by
  cases v with
  | inline bits flag =>
    rw [hash, combined, numWords, countdown, countdown, BitVec.zero_xor]
    rfl
  | outOfLine b =>
    rw [hash, hashSlowCase, toUnsigned_numWords h, combined, numWords]
    congr 1
    apply countdown_xor_congr
    intro i hi
    rw [own, if_pos hi]

theorem own_numWords (v : BitVector p) (h : v.numWords ≤ i) : v.own i = 0#_ :=
  own_beyond v (le_trans v.size_le_numWords (Nat.mul_le_mul_right _ h))

theorem hash_eq_of_members_eq (hv : Counted v) (ho : Counted oth)
    (h : v.members = oth.members) : v.hash = oth.hash := by
  have hown := members_eq_iff.mp h
  have hm := combined_add (fun i hi => own_numWords v hi) oth.numWords
  have hos := combined_add (fun i hi => own_numWords oth hi) v.numWords
  rw [hash_eq hv, hash_eq ho, ← hm, ← hos, hown, add_comm]

/-- What a vector reports of the set it stands for. -/
structure Reports (v : BitVector p) (s : Finset Nat) : Prop where
  below : ∀ n ∈ s, n < v.size
  get : ∀ n, v.get n = true ↔ n ∈ s
  bitCount : v.bitCount = s.card
  findBit : ∀ index,
    (v.findBit index true ∈ s ∧ index ≤ v.findBit index true ∧
        ∀ n ∈ s, index ≤ n → v.findBit index true ≤ n) ∨
      v.findBit index true = v.size ∧ ∀ n ∈ s, n < index
  iterate : Yields v.iterate fun result => result.Pairwise (· < ·) ∧ ∀ n, n ∈ result ↔ n ∈ s

theorem reports_members (h : Counted v) : Reports v v.members where
  below _ hn := lt_size_of_get (mem_members.mp hn)
  get _ := mem_members.symm
  bitCount := bitCount_eq h
  findBit := findBit_true v
  iterate := yields_iterate v

/-! ## Runs -/

/-- What happens to vectors, which have numbers: the operations, with what the memory holds that
they get, and writes by others to the memory behind the words of a vector. -/
inductive Operation (p : Platform) where
  | set (this bit : Nat) (memory : Memory p)
  | clear (this bit : Nat)
  | copy (this other : Nat) (memory : Memory p)
  | assign (this other : Nat) (memory : Memory p)
  | ensureSize (this numBits : Nat) (memory : Memory p)
  | resize (this numBits : Nat) (memory : Memory p)
  | clearAll (this : Nat)
  | merge (this other : Nat) (memory : Memory p)
  | filter (this other : Nat)
  | exclude (this other : Nat)
  | elsewhere (this : Nat) (memory : Memory p)

/-- The memory behind the words of a vector is written. -/
def writeBehind (memory : Memory p) : BitVector p → BitVector p
  | inline bits flag => inline bits flag
  | outOfLine b =>
    outOfLine { b with bits := fun i => if i < b.numWords then b.bits i else memory i }

/-- The vector that an operation changes, and what it becomes. -/
def Operation.result (vectors : Nat → BitVector p) : Operation p → Nat × BitVector p
  | set this bit memory => (this, ((vectors this).set memory bit).2)
  | clear this bit => (this, ((vectors this).clear bit).2)
  | copy this other memory => (this, (vectors other).copy memory)
  | assign this other memory => (this, (vectors this).assign (vectors other) memory)
  | ensureSize this numBits memory => (this, (vectors this).ensureSize memory numBits)
  | resize this numBits memory => (this, (vectors this).resize memory numBits)
  | clearAll this => (this, (vectors this).clearAll)
  | merge this other memory => (this, (vectors this).merge memory (vectors other))
  | filter this other => (this, (vectors this).filter (vectors other))
  | exclude this other => (this, (vectors this).exclude (vectors other))
  | elsewhere this memory => (this, (vectors this).writeBehind memory)

def Operation.apply (vectors : Nat → BitVector p) (operation : Operation p) : Nat → BitVector p :=
  update vectors (operation.result vectors).1 (operation.result vectors).2

open Operation

def run (vectors : Nat → BitVector p) (operations : List (Operation p)) : Nat → BitVector p :=
  operations.foldl apply vectors

/-- What an operation may make of the set of the vector it changes. -/
def Operation.Changes (sets : Nat → Finset Nat) : Operation p → Finset Nat → Prop
  | set this bit _, s => s = insert bit (sets this)
  | clear this bit, s => s = (sets this).erase bit
  | copy _ other _, s => s = sets other
  | assign _ other _, s => s = sets other
  | ensureSize this _ _, s => s = sets this
  | resize this numBits _, s => (sets this).filter (· < numBits) ⊆ s ∧ s ⊆ sets this
  | clearAll _, s => s = ∅
  | merge this other _, s => s = sets this ∪ sets other
  | filter this other, s => s = sets this ∩ sets other
  | exclude this other, s => s = sets this \ sets other
  | elsewhere this _, s => s = sets this

def Operation.target : Operation p → Nat
  | set this _ _ | clear this _ | copy this _ _ | assign this _ _ | ensureSize this _ _
  | resize this _ _ | clearAll this | merge this _ _ | filter this _ | exclude this _
  | elsewhere this _ => this

/-- The sets before and after a run of operations. -/
inductive SetRun : List (Operation p) → (Nat → Finset Nat) → (Nat → Finset Nat) → Prop where
  | nil {sets : Nat → Finset Nat} : SetRun [] sets sets
  | cons {operation : Operation p} {operations : List (Operation p)}
    {sets after : Nat → Finset Nat} {s : Finset Nat} : operation.Changes sets s →
    SetRun operations (update sets operation.target s) after →
    SetRun (operation :: operations) sets after

/-- Where an operation is that on sets. -/
def Operation.Sound (vectors : Nat → BitVector p) : Operation p → Prop
  | merge this other _ => Mergeable (vectors this) (vectors other)
  | filter this other => Filterable (vectors this) (vectors other)
  | _ => True

def SoundRun : (Nat → BitVector p) → List (Operation p) → Prop
  | vectors, [] => ∀ i, Counted (vectors i)
  | vectors, operation :: operations => (∀ i, Counted (vectors i)) ∧ operation.Sound vectors ∧
    SoundRun (operation.apply vectors) operations

def sets (vectors : Nat → BitVector p) (i : Nat) : Finset Nat := (vectors i).members

theorem own_writeBehind (mem : Memory p) (v : BitVector p) : (v.writeBehind mem).own = v.own := by
  cases v with
  | inline bits flag => rfl
  | outOfLine b =>
    funext i
    rw [writeBehind, own_with, own]
    by_cases hi : i < b.numWords <;> simp [hi]

theorem get_resize (v : BitVector p) (mem : Memory p) (nb n : Nat) :
    (n < nb → (v.resize mem nb).get n = v.get n) ∧
      ((v.resize mem nb).get n = true → v.get n = true) := by
  have hpos := bitsInPointer_pos p
  have hmod := mod_lt n hpos
  rw [get_eq, get_eq, WordSet.mem, WordSet.mem]
  rcases own_resize v mem nb (n / bitsInPointer p) with hs | ⟨hz, hle⟩ | ⟨hf, hle, hw⟩
  · rw [hs]
    exact ⟨fun _ => rfl, id⟩
  · have hn : n / bitsInPointer p * bitsInPointer p ≤ n := div_mul_le_self _ _
    rw [hz, BitVec.getLsbD_zero]
    exact ⟨fun hlt => by omega, fun h => absurd h Bool.false_ne_true⟩
  · rw [hf, getLsbD_cleanseInlineBits _ hmod]
    refine ⟨fun hlt => ?_, fun h => (Bool.and_eq_true_iff.mp h).1⟩
    have hm : n % bitsInPointer p ≤ n := mod_le _ _
    rw [decide_eq_true (by omega), Bool.and_true]

/-- Resizing keeps the members below the new size and adds none. -/
theorem members_resize (v : BitVector p) (mem : Memory p) (nb : Nat) :
    v.members.filter (· < nb) ⊆ (v.resize mem nb).members ∧
      (v.resize mem nb).members ⊆ v.members := by
  constructor
  · intro n hn
    rw [Finset.mem_filter, mem_members] at hn
    rw [mem_members, (get_resize v mem nb n).1 hn.2, hn.1]
  · intro n hn
    rw [mem_members] at hn ⊢
    exact (get_resize v mem nb n).2 hn

variable {op : Operation p}

/-- An operation changes the set as it does the vector. -/
theorem Operation.changes (hs : op.Sound vectors) (hc : ∀ i, Counted (vectors i)) :
    op.Changes (BitVector.sets vectors) (op.result vectors).2.members := by
  cases op with
  | set this bit mem =>
    ext n
    simp [result, mem_members, get_set, BitVector.sets]
  | clear this bit =>
    ext n
    simp [result, mem_members, get_clear, BitVector.sets]
  | copy this oth mem => exact members_eq_iff.mpr (own_assign empty _ mem)
  | assign this oth mem => exact members_eq_iff.mpr (own_assign _ _ mem)
  | ensureSize this nb mem => exact members_eq_iff.mpr (own_ensureSize _ mem nb)
  | resize this nb mem => exact members_resize _ mem nb
  | clearAll this =>
    ext n
    simp [result, get_eq, own_clearAll]
  | merge this oth mem =>
    ext n
    simp [result, mem_members, get_eq, own_merge mem hs (hc oth), mem_or, BitVector.sets]
  | filter this oth =>
    ext n
    simp [result, mem_members, get_eq, own_filter hs (hc this) (hc oth), mem_and, BitVector.sets]
  | exclude this oth =>
    ext n
    simp [result, mem_members, get_eq, own_exclude (hc this) (hc oth),
      mem_andNot (bitsInPointer_pos p), BitVector.sets]
  | elsewhere this mem => exact members_eq_iff.mpr (own_writeBehind mem _)

theorem Operation.sets_apply (vectors : Nat → BitVector p) (op : Operation p) :
    BitVector.sets (op.apply vectors) =
      update (BitVector.sets vectors) op.target (op.result vectors).2.members := by
  have ht : (op.result vectors).1 = op.target := by cases op <;> rfl
  funext i
  rw [BitVector.sets, apply, ht]
  by_cases hi : i = op.target
  · subst hi
    rw [update_self, update_self]
  · rw [update_of_ne hi, update_of_ne hi, BitVector.sets]

theorem Operation.counted_apply
    (h : ∀ i, Counted (vectors i)) (hr : Counted (op.result vectors).2) :
    ∀ i, Counted (op.apply vectors i) := by
  intro i
  rw [apply]
  by_cases hi : i = (op.result vectors).1
  · rw [hi, update_self]
    exact hr
  · rw [update_of_ne hi]
    exact h i

theorem setRun_of_soundRun {ops : List (Operation p)} (h : SoundRun vectors ops) :
    SetRun ops (sets vectors) (sets (run vectors ops)) ∧ ∀ i, Counted (run vectors ops i) := by
  induction ops generalizing vectors with
  | nil => exact ⟨.nil, h⟩
  | cons op ops ih =>
    obtain ⟨hc, hso, hr⟩ := h
    obtain ⟨hs, hf⟩ := ih hr
    rw [op.sets_apply] at hs
    exact ⟨.cons (changes hso hc) hs, hf⟩

/-- Along a sound run the vectors are sets: each operation does to the sets what it says, every
vector reports its set, and vectors are equal, and then have equal hashes, if their sets are. -/
theorem bitVectors_denote_sets (vectors : Nat → BitVector p) (operations : List (Operation p))
    (h : SoundRun vectors operations) :
    SetRun operations (sets vectors) (sets (run vectors operations)) ∧
      (∀ i, Reports (run vectors operations i) (sets (run vectors operations) i)) ∧
      ∀ i j, ((run vectors operations i).equals (run vectors operations j) = true ↔
          sets (run vectors operations) i = sets (run vectors operations) j) ∧
        (sets (run vectors operations) i = sets (run vectors operations) j →
          (run vectors operations i).hash = (run vectors operations j).hash) := by
  obtain ⟨hsets, hcounted⟩ := setRun_of_soundRun h
  exact ⟨hsets, fun i => reports_members (hcounted i), fun i j =>
    ⟨equals_iff (hcounted i) (hcounted j),
      hash_eq_of_members_eq (hcounted i) (hcounted j)⟩⟩

/-- Two vectors of different sizes, one of which takes in the other. -/
theorem bitVectors_denote_union :
    let vectors : Nat → BitVector .bits64 := fun _ => empty
    let operations : List (Operation .bits64) :=
      [.set 0 64 fun _ => 0#_, .set 1 3 fun _ => 0#_, .merge 1 0 fun _ => 0#_]
    SetRun operations (sets vectors) (sets (run vectors operations)) := by
  intro vectors operations
  have hsound : SoundRun vectors operations := by
    have hempty : ∀ i, Counted (vectors i) := fun _ => of_decide_eq_true rfl
    have hfirst := @counted_apply _ _ (.set 0 64 fun _ => 0#_) hempty (by decide)
    have hsecond := @counted_apply _ _ (.set 1 3 fun _ => 0#_) hfirst (by decide)
    exact ⟨hempty, trivial, hfirst, trivial, hsecond, .inr (by decide),
      counted_apply hsecond (by decide)⟩
  exact (bitVectors_denote_sets vectors operations hsound).1

/-- A merge with a shorter vector reads the memory behind it, and a filter by an inline one leaves
the members of the second word. -/
theorem bitVectors_lose_sets :
    let vectors : Nat → BitVector .bits64 := fun _ => empty
    let resized := run vectors [.ensureSize 0 128 fun _ => 0#_, .ensureSize 1 64 fun _ => 1#_]
    let filled := run vectors [.set 0 64 fun _ => 0#_]
    ((resized 0).members = ∅ ∧ (resized 1).members = ∅ ∧
        64 ∈ (run resized [.merge 0 1 fun _ => 0#_] 0).members) ∧
      (filled 1).members = ∅ ∧ 64 ∈ (run filled [.filter 0 1] 0).members := by
  decide +kernel

end JavaScriptCore.Wtf.BitVector
