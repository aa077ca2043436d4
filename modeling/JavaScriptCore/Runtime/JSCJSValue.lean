import JavaScriptCore.Runtime.Double

/-!
# Values and their encodings

A `JSValue` is 64 bits. With `JSVALUE64` a double is its pattern plus `2 ^ 48`, an integer is tagged
in the upper half and a pointer is itself; with `JSVALUE32_64` the upper half is the tag of whatever
is no double. `==` compares the bits, so that two cells are the same when they are at one address.
`strictEqual` and `sameValue` look into strings and BigInts.
-/

namespace JavaScriptCore.Runtime

open JSBigInt (Target DoubleValue)
open JavaScriptCore.ProgramLogic BitVec DoubleBits

/-- A double that is no `isImpureNaN`, which is what a `JSValue` is made of. -/
structure PureDouble where
  bits : DoubleBits
  notImpure : bits.toNat < 0xFFFE000000000000
  deriving DecidableEq

/-- The address of a cell, which is aligned and leaves room for the tags. -/
structure CellPointer (t : Target) where
  address : BitVec 64
  aligned : address.toNat % 8 = 0
  untagged : address.toNat < if t.jsValue64 then 2 ^ 48 else 2 ^ 32
  deriving DecidableEq

/-- What a cell holds, as far as equality looks into it. -/
inductive JSCell (t : Target) where
  | string (characters : List (BitVec 16))
  | bigInt (value : JSBigInt t) (canonical : value.Canonical)
  /-- A symbol or an object. -/
  | other

inductive JSValue (t : Target) where
  | undefined
  | null
  | boolean (value : Bool)
  | int32 (value : BitVec 32)
  | double (value : PureDouble)
  | cell (pointer : CellPointer t)
  deriving DecidableEq

namespace JSValue

variable {t : Target}

/-- `JSValue::encode`; `TagTypeNumber` is `0xFFFF000000000000`, `DoubleEncodeOffset` is `2 ^ 48`. -/
def encode : JSValue t → BitVec 64
  | .undefined => if t.jsValue64 then 0xA else 0xFFFFFFFC#32 ++ 0#32
  | .null => if t.jsValue64 then 0x2 else 0xFFFFFFFD#32 ++ 0#32
  | .boolean value =>
    if t.jsValue64 then if value then 0x7 else 0x6
    else 0xFFFFFFFE#32 ++ (if value then 1#32 else 0#32)
  | .int32 value => if t.jsValue64 then 0xFFFF0000#32 ++ value else 0xFFFFFFFF#32 ++ value
  | .double value => if t.jsValue64 then value.bits + 0x1000000000000#64 else value.bits
  | .cell pointer =>
    if t.jsValue64 then pointer.address else 0xFFFFFFFB#32 ++ pointer.address.setWidth 32

def isInt32 : JSValue t → Bool
  | .int32 _ => true
  | _ => false

/-- `asNumber()`, of a value that `isNumber()`. -/
def asNumber? : JSValue t → Option DoubleBits
  | .int32 value => some (.ofInt32 value)
  | .double value => some value.bits
  | _ => none

variable (heap : CellPointer t → JSCell t)

/-- `JSBigInt::equals`, which neither allocates nor throws. -/
def bigIntEquals (x y : JSBigInt t) : Bool :=
  match JSBigInt.equals x y ⟨0, fun _ _ => 0⟩ with
  | .ok (result, _) => result
  | .error _ => false

def strictEqualSlowCaseInline (p q : CellPointer t) : Bool :=
  match heap p, heap q with
  | .string characters, .string characters' => characters = characters'
  | .bigInt x _, .bigInt y _ => bigIntEquals x y
  | _, _ => (cell p).encode = (cell q).encode

def strictEqual (v₁ v₂ : JSValue t) : Bool :=
  if v₁.isInt32 && v₂.isInt32 then v₁.encode = v₂.encode
  else
    match v₁.asNumber?, v₂.asNumber? with
    | some x, some y => x.equal y
    | _, _ =>
      match v₁, v₂ with
      | .cell p, .cell q => strictEqualSlowCaseInline heap p q
      | _, _ => v₁.encode = v₂.encode

def sameValue (a b : JSValue t) : Bool :=
  match a.asNumber?, b.asNumber? with
  | none, _ => strictEqual heap a b
  | some _, none => false
  | some x, some y => if x.isNaN || y.isNaN then x.isNaN && y.isNaN else x = y

/-! ## Encodings are unique -/

theorem toNat_tagged (tag payload : BitVec 32) :
    (tag ++ payload).toNat = 0x100000000 * tag.toNat + payload.toNat := by
  rw [toNat_append, ← Nat.shiftLeft_add_eq_or_of_lt payload.isLt, Nat.shiftLeft_eq, Nat.mul_comm]

/-- What the encodings with `JSVALUE64` are, as numbers. -/
theorem toNat_encode_jsValue64 (h : t.jsValue64 = true) (v : JSValue t) :
    v.encode.toNat = match v with
      | .undefined => 10
      | .null => 2
      | .boolean val => 6 + val.toNat
      | .int32 val => 0xFFFF000000000000 + val.toNat
      | .double val => val.bits.toNat + 0x1000000000000
      | .cell ptr => ptr.address.toNat := by
  cases v with
  | undefined | null | cell => simp [encode, h]
  | boolean val => cases val <;> simp [encode, h]
  | int32 val => simp [encode, h, toNat_tagged]
  | double val =>
    have ho : (0x1000000000000#64).toNat = 0x1000000000000 := rfl
    simp only [encode, h, if_true]
    rw [toNat_add_of_lt, ho]
    rw [ho]
    exact Nat.lt_trans (Nat.add_lt_add_right val.notImpure _) (by decide)

/-- What the encodings with `JSVALUE32_64` are, as numbers. -/
theorem toNat_encode_jsValue32 (h : t.jsValue64 = false) (v : JSValue t) :
    v.encode.toNat = match v with
      | .undefined => 0xFFFFFFFC00000000
      | .null => 0xFFFFFFFD00000000
      | .boolean val => 0xFFFFFFFE00000000 + val.toNat
      | .int32 val => 0xFFFFFFFF00000000 + val.toNat
      | .double val => val.bits.toNat
      | .cell ptr => 0xFFFFFFFB00000000 + ptr.address.toNat := by
  cases v with
  | undefined | null | double => simp [encode, h]
  | boolean val => cases val <;> simp [encode, h]
  | int32 val => simp [encode, h, toNat_tagged]
  | cell ptr =>
    have hlt := ptr.untagged
    simp only [h, Bool.false_eq_true, if_false] at hlt
    simpa [encode, h, toNat_tagged] using hlt

theorem PureDouble.bits_injective {d d' : PureDouble} (h : d.bits.toNat = d'.bits.toNat) :
    d = d' := by
  cases d
  cases d'
  simpa using eq_of_toNat_eq h

theorem CellPointer.address_injective {p q : CellPointer t}
    (h : p.address.toNat = q.address.toNat) : p = q := by
  cases p
  cases q
  simpa using eq_of_toNat_eq h

theorem toNat_bool_injective {b b' : Bool} (h : b.toNat = b'.toNat) : b = b' := by
  cases b <;> cases b' <;> simp_all

theorem encode_injective : Function.Injective (encode (t := t)) := by
  intro v w h
  have hc := congrArg BitVec.toNat h
  have hb : ∀ b : Bool, b.toNat ≤ 1 := Bool.toNat_le

  have hd := PureDouble.notImpure
  cases hw : t.jsValue64
  · have hce : ∀ p : CellPointer t, p.address.toNat < 0x100000000 := fun p => by
      simpa [hw] using p.untagged
    rw [toNat_encode_jsValue32 hw, toNat_encode_jsValue32 hw] at hc
    cases v <;> cases w <;> grind [PureDouble.bits_injective, CellPointer.address_injective,
      eq_of_toNat_eq, toNat_bool_injective]
  · have hce : ∀ p : CellPointer t, p.address.toNat < 0x1000000000000 := fun p => by
      simpa [hw] using p.untagged
    have ha := CellPointer.aligned (t := t)
    rw [toNat_encode_jsValue64 hw, toNat_encode_jsValue64 hw] at hc
    cases v <;> cases w <;> grind [PureDouble.bits_injective, CellPointer.address_injective,
      eq_of_toNat_eq, toNat_bool_injective]

end JSValue

/-! ## What the language compares -/

/-- A value of the language, the two zeros and the many NaNs taken as one number each. Symbols and
objects are known by their address only. -/
inductive LanguageValue where
  | undefined
  | null
  | boolean (value : Bool)
  | number (value : DoubleValue)
  | string (characters : List (BitVec 16))
  | bigInt (value : Int)
  | reference (address : BitVec 64)

namespace JSValue

variable {t : Target} (heap : CellPointer t → JSCell t)

def denoteCell (pointer : CellPointer t) : LanguageValue :=
  match heap pointer with
  | .string characters => .string characters
  | .bigInt value _ => .bigInt value.toInt
  | .other => .reference pointer.address

def denote : JSValue t → LanguageValue
  | .undefined => .undefined
  | .null => .null
  | .boolean value => .boolean value
  | .int32 value => .number (.finite value.toInt)
  | .double value => .number (JSBigInt.DoubleBits.value value.bits)
  | .cell pointer => denoteCell heap pointer

/-- SameValueZero of the language. -/
def SameValueZero (a b : JSValue t) : Prop := denote heap a = denote heap b

variable {heap}

theorem bigIntEquals_iff {x y : JSBigInt t} (hx : x.Canonical) (hy : y.Canonical) :
    bigIntEquals x y = true ↔ x.toInt = y.toInt := by
  have h : wp (JSBigInt.equals x y) (fun b _ => b = true ↔ x.toInt = y.toInt) (fun _ => False)
      ⟨0, fun _ _ => 0⟩ := JSBigInt.equals_wp hx hy
  unfold wp at h
  unfold bigIntEquals
  cases hrun : JSBigInt.equals x y ⟨0, fun _ _ => 0⟩ with
  | ok result =>
    simp only [hrun] at h ⊢
    exact h
  | error e =>
    simp only [hrun] at h

theorem strictEqualSlowCaseInline_iff (p q : CellPointer t) :
    strictEqualSlowCaseInline heap p q = true ↔ denoteCell heap p = denoteCell heap q := by
  have ha : (cell p).encode = (cell q).encode ↔ p = q :=
    ⟨fun h => cell.inj (encode_injective h), fun h => by rw [h]⟩
  have hs : ∀ {c c'}, heap p = c → heap q = c' → p = q → c = c' := by
    rintro c c' rfl rfl rfl
    rfl
  rw [strictEqualSlowCaseInline, denoteCell, denoteCell]
  cases hp : heap p <;> cases hq : heap q
  all_goals
    simp only [decide_eq_true_eq, ha, LanguageValue.string.injEq, LanguageValue.bigInt.injEq,
      reduceCtorEq, iff_false]
  case bigInt.bigInt x hx y hy => exact bigIntEquals_iff hx hy
  case other.other =>
    rw [LanguageValue.reference.injEq]
    exact ⟨fun h => by rw [h], fun h => CellPointer.address_injective (by rw [h])⟩
  all_goals
    intro h
    have := hs hp hq h
    contradiction

variable {v w : JSValue t}

theorem denote_of_asNumber {x : DoubleBits} (h : v.asNumber? = some x) :
    denote heap v = .number (JSBigInt.DoubleBits.value x) := by
  cases v with
  | int32 val =>
    cases h
    rw [denote, value_ofInt32]
  | double val =>
    cases h
    rfl
  | _ => cases h

theorem denote_ne_number (h : v.asNumber? = none) (x : DoubleValue) :
    denote heap v ≠ .number x := by
  cases v with
  | int32 | double => cases h
  | cell ptr =>
    rw [denote, denoteCell]
    cases heap ptr <;> simp
  | _ => simp [denote]

def isImmediate : JSValue t → Bool
  | .undefined | .null | .boolean _ => true
  | _ => false

theorem denote_immediate_iff (h : v.isImmediate = true) :
    denote heap v = denote heap w ↔ v = w := by
  cases w with
  | cell ptr =>
    have hc : denote heap v ≠ denoteCell heap ptr := by
      rw [denoteCell]
      cases v <;> cases heap ptr <;> simp [isImmediate, denote] at h ⊢
    refine ⟨fun heq => absurd heq hc, fun heq => ?_⟩
    rw [heq] at h
    cases h
  | _ => cases v <;> simp [isImmediate, denote] at h ⊢

theorem denote_cell_ne {ptr : CellPointer t} (h : ∀ q, w ≠ cell q) :
    denote heap (cell ptr) ≠ denote heap w := by
  rw [denote, denoteCell]
  cases w with
  | cell q => exact absurd rfl (h q)
  | _ => cases heap ptr <;> simp [denote]

/-- Where the first is no number, `===` decides. -/
theorem strictEqual_iff (h : v.asNumber? = none) :
    strictEqual heap v w = true ↔ denote heap v = denote heap w := by
  have he : v.encode = w.encode ↔ v = w := encode_injective.eq_iff
  cases hv : v.isImmediate with
  | true =>
    rw [denote_immediate_iff hv, ← he]
    cases v <;> cases w <;> simp [strictEqual, isInt32, asNumber?, isImmediate] at hv ⊢
  | false =>
    cases v with
    | cell p =>
      cases w with
      | cell q => exact strictEqualSlowCaseInline_iff p q
      | _ => simpa [strictEqual, isInt32, asNumber?, he] using denote_cell_ne (by simp)
    | _ => cases hv <;> cases h

/-- `sameValue` is the equality of the language between values that are not different zeros. -/
theorem sameValue_iff (h0 : ∀ x y, v.asNumber? = some x → w.asNumber? = some y →
      x.isZero = true → y.isZero = true → x = y) :
    sameValue heap v w = true ↔ denote heap v = denote heap w := by
  rw [sameValue]
  cases hv : v.asNumber? with
  | none => exact strictEqual_iff hv
  | some x =>
    rw [denote_of_asNumber hv]
    cases hw : w.asNumber? with
    | none => simpa using (denote_ne_number hw _).symm
    | some y =>
      rw [denote_of_asNumber hw, LanguageValue.number.injEq]
      cases hx : x.isNaN with
      | true =>
        rw [(value_eq_nan_iff x).mpr hx, eq_comm (a := DoubleValue.nan), value_eq_nan_iff]
        simp [hx]
      | false =>
        cases hy : y.isNaN with
        | true =>
          rw [(value_eq_nan_iff y).mpr hy, value_eq_nan_iff]
          simp [hx, hy]
        | false =>
          simp only [hx, hy, Bool.or_self, Bool.false_eq_true, if_false, decide_eq_true_eq]
          refine ⟨fun h => by rw [h], fun h => ?_⟩
          cases hz : x.isZero with
          | false => exact eq_of_value_eq h hx hz
          | true =>
            have hz' := (isZero_iff_value y).mpr (h ▸ (isZero_iff_value x).mp hz)
            exact h0 x y hv hw hz hz'

end JSValue

end JavaScriptCore.Runtime
