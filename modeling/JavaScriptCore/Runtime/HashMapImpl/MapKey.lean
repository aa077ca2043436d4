import JavaScriptCore.Runtime.JSCJSValue
import JavaScriptCore.Runtime.HashMapImpl.TableSpec

/-!
# The keys of maps and sets

A key is normalised before it is compared or hashed: a double whose value is an `int32_t` becomes
that integer, so that the two zeros are one key. Strings are hashed by their characters and all else
by the encoding. A BigInt is compared by its value and hashed by its address, and NaNs of different
bits are equal and have hashes of their own; every other key has the hash of the keys it is equal
to, and a table finds its entry.
-/

namespace JavaScriptCore

namespace Wtf.StringHasher

/-- `stringHashingStartValue`. -/
def stringHashingStartValue : BitVec 32 := 0x9E3779B9

def calculateWithTwoCharacters (hash firstCharacter secondCharacter : BitVec 32) : BitVec 32 :=
  let result := hash + firstCharacter
  let result := (result <<< 16) ^^^ ((secondCharacter <<< 11) ^^^ result)
  result + (result >>> 11)

def calculateWithRemainingLastCharacter (hash character : BitVec 32) : BitVec 32 :=
  let result := hash + character
  let result := result ^^^ (result <<< 11)
  result + (result >>> 17)

def avalancheBits (hash : BitVec 32) : BitVec 32 :=
  let result := hash ^^^ (hash <<< 3)
  let result := result + (result >>> 5)
  let result := result ^^^ (result <<< 2)
  let result := result + (result >>> 15)
  result ^^^ (result <<< 10)

/-- A hash of zero stands for one that is not computed yet. -/
def avoidZero (hash : BitVec 32) : BitVec 32 := if hash ≠ 0 then hash else 0x80000000 >>> 8

/-- The characters by twos; `result` is the hash so far. -/
def computeHashImpl (result : BitVec 32) : List (BitVec 16) → BitVec 32
  | a :: b :: characters =>
    computeHashImpl (calculateWithTwoCharacters result (a.setWidth 32) (b.setWidth 32)) characters
  | [a] => calculateWithRemainingLastCharacter result (a.setWidth 32)
  | [] => result

def computeHashAndMaskTop8Bits (characters : List (BitVec 16)) : BitVec 32 :=
  avoidZero (avalancheBits (computeHashImpl stringHashingStartValue characters) &&& 0xFFFFFF)

end Wtf.StringHasher

namespace Runtime

open JSBigInt (Target DoubleValue)

namespace JSValue

variable {t : Target}

open DoubleBits

def normalizeMapKey (key : JSValue t) : JSValue t :=
  match key with
  | .double d =>
    if d.bits.isNaN then key
    else
      let i := d.bits.toInt32
      if (ofInt32 i).equal d.bits then .int32 i else key
  | _ => key

def wangsInt64Hash (key : BitVec 64) : BitVec 32 :=
  let key := key + ~~~(key <<< 32)
  let key := key ^^^ (key >>> 22)
  let key := key + ~~~(key <<< 13)
  let key := key ^^^ (key >>> 8)
  let key := key + (key <<< 3)
  let key := key ^^^ (key >>> 15)
  let key := key + ~~~(key <<< 27)
  let key := key ^^^ (key >>> 31)
  key.setWidth 32

variable (heap : CellPointer t → JSCell t)

def areKeysEqual (a b : JSValue t) : Bool := sameValue heap a b

/-- `value.isString()`, and the characters. -/
def asString? : JSValue t → Option (List (BitVec 16))
  | .cell pointer =>
    match heap pointer with
    | .string characters => some characters
    | _ => none
  | _ => none

def jsMapHash (value : JSValue t) : BitVec 32 :=
  match asString? heap value with
  | some characters => Wtf.StringHasher.computeHashAndMaskTop8Bits characters
  | none => wangsInt64Hash value.encode

def isBigInt : JSValue t → Bool
  | .cell pointer =>
    match heap pointer with
    | .bigInt _ _ => true
    | _ => false
  | _ => false

/-- A NaN. -/
def isNaN (value : JSValue t) : Bool := value.asNumber?.any DoubleBits.isNaN

variable {heap}

theorem isBigInt_iff (v : JSValue t) :
    isBigInt heap v = true ↔ ∃ n, denote heap v = .bigInt n := by
  cases v with
  | cell p =>
    rw [isBigInt, denote, denoteCell]
    cases heap p <;> simp
  | _ => simp [isBigInt, denote]

variable (heap) in
theorem isNaN_iff (v : JSValue t) : v.isNaN = true ↔ denote heap v = .number .nan := by
  cases h : v.asNumber? with
  | none => simp [isNaN, h, denote_ne_number h]
  | some x =>
    rw [denote_of_asNumber h, LanguageValue.number.injEq, DoubleBits.value_eq_nan_iff]
    simp [isNaN, h]

variable {v w : JSValue t}

/-- Whether a value is a BigInt or a NaN does not depend on its representation. -/
theorem kind_congr (h : denote heap v = denote heap w) :
    isBigInt heap v = isBigInt heap w ∧ v.isNaN = w.isNaN := by
  refine ⟨Bool.eq_iff_iff.mpr ?_, Bool.eq_iff_iff.mpr ?_⟩
  · rw [isBigInt_iff, isBigInt_iff, h]
  · rw [isNaN_iff heap, isNaN_iff heap, h]

/-! ## Normalised keys -/

theorem normalizeMapKey_double (d : PureDouble) :
    (normalizeMapKey (.double d : JSValue t) = .double d ∧
      ∀ i : BitVec 32, JSBigInt.DoubleBits.value d.bits ≠ .finite (i.toInt : ℚ)) ∨
    ∃ i : BitVec 32, JSBigInt.DoubleBits.value d.bits = .finite (i.toInt : ℚ) ∧
      normalizeMapKey (.double d : JSValue t) = .int32 i := by
  rw [normalizeMapKey]
  cases hnan : d.bits.isNaN with
  | true =>
    refine .inl ⟨rfl, fun i => ?_⟩
    rw [(value_eq_nan_iff d.bits).mpr hnan]
    simp
  | false =>
    have heq := equal_iff (y := d.bits) (isNaN_ofInt32 d.bits.toInt32)
    rw [value_ofInt32] at heq
    by_cases h : (ofInt32 d.bits.toInt32).equal d.bits = true
    · exact .inr ⟨d.bits.toInt32, (heq.mp h).symm, by simp [h]⟩
    · refine .inl ⟨by simp [h], fun i hi => h ?_⟩
      rw [heq, toInt32_of_value hi, hi]

theorem normalizeMapKey_normal (v : JSValue t) :
    normalizeMapKey (normalizeMapKey v) = normalizeMapKey v := by
  cases v with
  | double d =>
    obtain ⟨h, _⟩ | ⟨i, _, h⟩ := normalizeMapKey_double (t := t) d
    · rw [h, h]
    · rw [h]
      rfl
  | _ => rfl

variable (heap) in
theorem denote_normalizeMapKey (v : JSValue t) :
    denote heap (normalizeMapKey v) = denote heap v := by
  cases v with
  | double d =>
    obtain ⟨h, _⟩ | ⟨i, hi, h⟩ := normalizeMapKey_double (t := t) d
    · rw [h]
    · rw [h, denote, denote, hi]
  | _ => rfl

theorem not_integer_of_normal {d : PureDouble}
    (h : normalizeMapKey (.double d : JSValue t) = .double d) (i : BitVec 32) :
    JSBigInt.DoubleBits.value d.bits ≠ .finite (i.toInt : ℚ) := by
  obtain ⟨_, hi⟩ | ⟨_, _, hi⟩ := normalizeMapKey_double (t := t) d
  · exact hi i
  · rw [h] at hi
    cases hi

variable (hv : normalizeMapKey v = v)

include hv

/-- A normalised number is known by its value, unless it is a NaN. -/
theorem eq_of_number_eq {x y : DoubleBits}
    (hw : normalizeMapKey w = w) (hx : v.asNumber? = some x) (hy : w.asNumber? = some y)
    (hnan : x.isNaN = false)
    (h : JSBigInt.DoubleBits.value x = JSBigInt.DoubleBits.value y) : v = w := by
  cases v with
  | int32 i =>
    cases hx
    rw [value_ofInt32] at h
    cases w with
    | int32 j =>
      cases hy
      rw [value_ofInt32, DoubleValue.finite.injEq, Int.cast_inj] at h
      rw [BitVec.eq_of_toInt_eq h]
    | double e =>
      cases hy
      exact absurd h.symm (not_integer_of_normal hw i)
    | _ => cases hy
  | double d =>
    cases hx
    cases w with
    | int32 j =>
      cases hy
      rw [value_ofInt32] at h
      exact absurd h (not_integer_of_normal hv j)
    | double e =>
      cases hy
      have hz : d.bits.isZero = false := by
        rw [← Bool.not_eq_true, isZero_iff_value]
        simpa using not_integer_of_normal hv 0
      rw [PureDouble.bits_injective (congrArg BitVec.toNat (eq_of_value_eq h hnan hz))]
    | _ => cases hy
  | _ => cases hx

theorem areKeysEqual_iff (hw : normalizeMapKey w = w) :
    areKeysEqual heap v w = true ↔ denote heap v = denote heap w := by
  refine sameValue_iff fun x y hx hy hz hz' => ?_
  have hva := (isZero_iff_value x).mp hz
  have hnan : x.isNaN = false := by
    rw [← Bool.not_eq_true, ← value_eq_nan_iff, hva]
    simp
  have h := eq_of_number_eq hv hw hx hy hnan (hva.trans ((isZero_iff_value y).mp hz').symm)
  subst h
  exact Option.some.inj (hx.symm.trans hy)

/-- Keys that are equal have one hash, if they are neither BigInts nor NaNs. -/
theorem jsMapHash_eq (hw : normalizeMapKey w = w)
    (hbig : isBigInt heap v = false) (hnan : v.isNaN = false)
    (h : denote heap v = denote heap w) : jsMapHash heap v = jsMapHash heap w := by
  cases hx : v.asNumber? with
  | some x =>
    rw [denote_of_asNumber hx] at h
    cases hy : w.asNumber? with
    | none => exact absurd h.symm (denote_ne_number hy _)
    | some y =>
      rw [denote_of_asNumber hy, LanguageValue.number.injEq] at h
      rw [eq_of_number_eq hv hw hx hy (by simpa [isNaN, hx] using hnan) h]
  | none =>
    cases himm : v.isImmediate with
    | true => rw [(denote_immediate_iff himm).mp h]
    | false =>
      cases v with
      | cell p =>
        cases w with
        | cell q =>
          rw [denote, denote, denoteCell, denoteCell] at h
          rw [jsMapHash, jsMapHash, asString?, asString?]
          rw [isBigInt] at hbig
          cases hp : heap p <;> cases hq : heap q <;>
            simp only [hp, hq, reduceCtorEq] at h hbig ⊢
          case string.string => rw [LanguageValue.string.inj h]
          case other.other =>
            have ha := congrArg BitVec.toNat (LanguageValue.reference.inj h)
            rw [CellPointer.address_injective ha]
        | _ => exact absurd h (denote_cell_ne (by simp))
      | _ => cases himm <;> cases hx

end JSValue

/-- The keys that a table holds. -/
abbrev MapKey (t : Target) := { key : JSValue t // key.normalizeMapKey = key }

namespace MapKey

open HashMapImpl

variable {t : Target}

def ofValue (v : JSValue t) : MapKey t := ⟨v.normalizeMapKey, v.normalizeMapKey_normal⟩

variable (heap : CellPointer t → JSCell t)

open JSValue

def traits : MapKeyTraits (MapKey t) where
  areKeysEqual a b := areKeysEqual heap a.1 b.1
  jsMapHash a := jsMapHash heap a.1

variable {heap}

theorem equivalence : Equivalence fun a b => (traits heap).areKeysEqual a b = true where
  refl a := (areKeysEqual_iff a.2 a.2).mpr rfl
  symm {a b} h := (areKeysEqual_iff b.2 a.2).mpr ((areKeysEqual_iff a.2 b.2).mp h).symm
  trans {a b c} h h' := (areKeysEqual_iff a.2 c.2).mpr
    (((areKeysEqual_iff a.2 b.2).mp h).trans ((areKeysEqual_iff b.2 c.2).mp h'))

theorem areKeysEqual_ofValue (a b : JSValue t) :
    (traits heap).areKeysEqual (ofValue a) (ofValue b) = true ↔ a.SameValueZero heap b := by
  rw [JSValue.SameValueZero, ← denote_normalizeMapKey heap a, ← denote_normalizeMapKey heap b]
  exact areKeysEqual_iff (ofValue a).2 (ofValue b).2

/-- A BigInt or a NaN is hashed by its encoding. -/
theorem jsMapHash_of_address {a : JSValue t} (h : isBigInt heap a = true ∨ a.isNaN = true) :
    (traits heap).jsMapHash (ofValue a) = wangsInt64Hash a.encode := by
  cases a with
  | cell p =>
    obtain h | h := h
    · rw [isBigInt] at h
      split at h
      · rename_i hp
        simp [traits, ofValue, normalizeMapKey, jsMapHash, asString?, hp]
      · cases h
    · cases h
  | double d =>
    have hnan : d.bits.isNaN = true := by
      simpa [isBigInt, isNaN, asNumber?] using h
    simp [traits, ofValue, normalizeMapKey, jsMapHash, asString?, hnan]
  | int32 i =>
    simp [isBigInt, isNaN, asNumber?, DoubleBits.isNaN_ofInt32] at h
  | _ => simp [isBigInt, isNaN, asNumber?] at h

theorem jsMapHash_of_equal {a : JSValue t} (hbig : isBigInt heap a = false)
    (hnan : a.isNaN = false) (k : MapKey t) (h : (traits heap).areKeysEqual (ofValue a) k = true) :
    (traits heap).jsMapHash k = (traits heap).jsMapHash (ofValue a) := by
  obtain ⟨hb', hn'⟩ := kind_congr (denote_normalizeMapKey heap a)
  exact (jsMapHash_eq (ofValue a).2 k.2 (hb'.trans hbig) (hn'.trans hnan)
    ((areKeysEqual_iff (ofValue a).2 k.2).mp h)).symm

/-- Equal keys are found by the table, and hashed alike, unless they are BigInts or NaNs. -/
theorem sameValueZero_keys {V : Type} [Inhabited V] {a b : JSValue t} (h : a.SameValueZero heap b) :
    (traits heap).areKeysEqual (ofValue a) (ofValue b) = true ∧
      ((traits heap).jsMapHash (ofValue a) = (traits heap).jsMapHash (ofValue b) ↔
        (isBigInt heap a = false ∧ a.isNaN = false) ∨
          wangsInt64Hash a.encode = wangsInt64Hash b.encode) ∧
      (isBigInt heap a = false → a.isNaN = false →
        ∀ (before after : List (Operation (MapKey t) V)) (v w : V),
          (∀ operation ∈ after, operation.concerns (traits heap) (ofValue a) = false) →
          (∀ k m, run (traits heap) ((before ++ .add (ofValue a) v :: after).take k) create =
            some m → m.size < 2 ^ 28) →
          ∃ m m', run (traits heap) (before ++ .add (ofValue a) v :: after) create = some m ∧
            m.get (traits heap) (ofValue b) = some v ∧
            m.has (traits heap) (ofValue b) = some true ∧
            m.add (traits heap) (ofValue b) w = some m' ∧
            m'.get (traits heap) (ofValue b) = some w ∧ m'.size = m.size) := by
  have hequal := (areKeysEqual_ofValue a b).mpr h
  refine ⟨hequal, ?_, fun hbig hnan before after v w hother hsmall => ?_⟩
  · by_cases hcontents : isBigInt heap a = false ∧ a.isNaN = false
    · exact iff_of_true (jsMapHash_of_equal hcontents.1 hcontents.2 _ hequal).symm (.inl hcontents)
    have haddress : isBigInt heap a = true ∨ a.isNaN = true := by
      rw [← Bool.not_eq_false, ← Bool.not_eq_false]
      exact not_and_or.mp hcontents
    obtain ⟨hbig, hnan⟩ := kind_congr h
    rw [jsMapHash_of_address haddress, jsMapHash_of_address (hbig ▸ hnan ▸ haddress)]
    simp [hcontents]
  · exact run_add_found equivalence (jsMapHash_of_equal hbig hnan) hother hsmall hequal

/-- The integer zero is found under the negative zero. -/
theorem sameValueZero_keys_zero :
    let heap : CellPointer ⟨true, true, true⟩ → JSCell ⟨true, true, true⟩ := fun _ => .other
    let zero := int32 0
    let negativeZero := double ⟨0x8000000000000000, by decide⟩
    ∃ m m', run (traits heap) [.add (ofValue zero) 5] create = some m ∧
      m.get (traits heap) (ofValue negativeZero) = some 5 ∧
      m.has (traits heap) (ofValue negativeZero) = some true ∧
      m.add (traits heap) (ofValue negativeZero) 6 = some m' ∧
      m'.get (traits heap) (ofValue negativeZero) = some 6 ∧ m'.size = m.size := by
  intro heap zero negativeZero
  have hsame : zero.SameValueZero heap negativeZero := by
    rw [JSValue.SameValueZero, denote, denote, (DoubleBits.isZero_iff_value _).mp (by decide)]
    simp
  have hsize : (run (traits heap) [.add (ofValue zero) 5] create).map size = some 1 := by
    decide +kernel
  refine (sameValueZero_keys hsame).2.2 rfl (by decide +kernel) [] [] 5 6 (by simp) ?_
  intro k m hrun
  cases k with
  | zero =>
    cases hrun
    decide
  | succ k =>
    rw [List.nil_append, List.take_succ_cons, List.take_nil] at hrun
    rw [hrun, Option.map_some, Option.some.injEq] at hsize
    omega

/-- A heap of equal BigInts. -/
def onesHeap : CellPointer ⟨true, true, true⟩ → JSCell ⟨true, true, true⟩ :=
  fun _ => .bigInt ⟨false, [1]⟩ ⟨by simp [JSBigInt.length], fun _ => by decide⟩

/-- A BigInt is not found under an equal BigInt at another address, nor a NaN under one with the
other sign. -/
theorem add_hides_key :
    let stored := cell ⟨0x10000, by decide, by decide⟩
    let sought := cell ⟨0x10020, by decide, by decide⟩
    let nan := double ⟨0x7FF8000000000000, by decide⟩
    let negativeNaN := double ⟨0xFFF8000000000000, by decide⟩
    (stored.SameValueZero onesHeap sought ∧
      (run (traits onesHeap) [.add (ofValue stored) 5] create).bind
        (·.has (traits onesHeap) (ofValue sought)) = some false) ∧
    (nan.SameValueZero onesHeap negativeNaN ∧
      (run (traits onesHeap) [.add (ofValue nan) 5] create).bind
        (·.has (traits onesHeap) (ofValue negativeNaN)) = some false) := by
  refine ⟨⟨rfl, by decide +kernel⟩, ⟨?_, by decide +kernel⟩⟩
  rw [JSValue.SameValueZero, denote, denote,
    (DoubleBits.value_eq_nan_iff _).mpr (by decide),
    (DoubleBits.value_eq_nan_iff _).mpr (by decide)]

end MapKey

end Runtime

end JavaScriptCore
