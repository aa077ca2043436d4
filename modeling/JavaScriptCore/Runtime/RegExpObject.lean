import Mathlib.Data.Rat.Floor
import JavaScriptCore.Runtime.Double
import JavaScriptCore.Runtime.PropertyDescriptor
import JavaScriptCore.Runtime.RegExp

/-!
# `exec` and `test`

`runtime/RegExpObjectInlines.h:36-127` and `runtime/RegExpObject.h:63-89`: where a match attempt
starts, and what it leaves in `lastIndex`, for a `lastIndex` that is a number
(`runtime/JSCJSValue.cpp:42-48`). The source returns `UINT_MAX` for an attempt that is not made,
which is no index, as no string is that long. `RegExp.lastMatch` and its kin are left out.

A negative `lastIndex` counts as zero in the language; here it ends the attempt.
-/

namespace JavaScriptCore.Runtime

open DoubleBits

open JSBigInt (NumberValue DoubleValue)
open Json (Text)
open StringPrototype (Match)

/-! ## Numbers -/

/-- An integer or one of the infinities. -/
inductive IntegerOrInfinity where
  | finite (value : Int)
  | infinity (sign : Bool)
  deriving DecidableEq, Repr

/-- `JSValue::toInteger`. -/
def toInteger : NumberValue → IntegerOrInfinity
  | .int32 value => .finite value.toInt
  | .double d =>
    if d.isNaN then .finite 0
    else if d.rawExponent = 0x7FF then .infinity d.msb
    else .finite (if d.msb then -integralPart d else integralPart d)

/-- The number of the language that a value stands for. -/
def number : NumberValue → DoubleValue
  | .int32 value => .finite value.toInt
  | .double d => JSBigInt.DoubleBits.value d

/-- `ToInteger` of the language. -/
def integer : DoubleValue → IntegerOrInfinity
  | .nan => .finite 0
  | .infinity sign => .infinity sign
  | .finite q => .finite (if 0 ≤ q then ⌊q⌋ else -⌊-q⌋)

/-- `ToLength` of the language. -/
def toLength (value : DoubleValue) : Nat :=
  match integer value with
  | .finite n => min n.toNat (2 ^ 53 - 1)
  | .infinity sign => if sign then 0 else 2 ^ 53 - 1

def isNegative (value : DoubleValue) : Bool :=
  match integer value with
  | .finite n => n < 0
  | .infinity sign => sign

variable (d : DoubleBits)

theorem integralPart_eq_scaled :
    integralPart d = scaled d / 2 ^ 1074 := by
  have hm := JSBigInt.mantissa_lt d
  rw [integralPart, scaled]
  by_cases hz : d.rawExponent = 0
  · rw [if_pos (by omega), if_pos hz, if_pos hz, Nat.zero_div]
    have hpow : 2 ^ 52 ≤ 2 ^ 1074 := Nat.pow_le_pow_right (by omega) (by omega)
    exact (Nat.div_eq_of_lt (Nat.lt_of_lt_of_le hm hpow)).symm
  rw [if_neg hz, if_neg hz]
  split
  · have hpow : 2 ^ 1074 = 2 ^ (1075 - d.rawExponent) * 2 ^ (d.rawExponent - 1) := by
      rw [← Nat.pow_add]
      congr 1
      omega
    rw [hpow, Nat.mul_div_mul_right _ _ (Nat.two_pow_pos _)]
  · have hpow : 2 ^ (d.rawExponent - 1) = 2 ^ (d.rawExponent - 1075) * 2 ^ 1074 := by
      rw [← Nat.pow_add]
      congr 1
      omega
    rw [hpow, ← Nat.mul_assoc, Nat.mul_div_cancel _ (Nat.two_pow_pos _)]

theorem integralPart_eq_floor :
    (integralPart d : Int) = ⌊JSBigInt.DoubleBits.magnitude d⌋ := by
  rw [magnitude_eq_scaled, integralPart_eq_scaled]
  have hf := Rat.floor_natCast_div_natCast (scaled d) (2 ^ 1074)
  push_cast at hf ⊢
  exact hf.symm

/-- The source converts as the language does. -/
theorem toInteger_eq_integer (v : NumberValue) : toInteger v = integer (number v) := by
  cases v with
  | int32 v =>
    rw [toInteger, number, integer]
    split
    · rw [Int.floor_intCast]
    · rw [← Int.cast_neg, Int.floor_intCast, Int.neg_neg]
  | double d =>
    rw [toInteger, number]
    by_cases hnan : d.isNaN = true
    · rw [if_pos hnan, (value_eq_nan_iff d).mpr hnan, integer]
    rw [if_neg hnan]
    by_cases hexp : d.rawExponent = 0x7FF
    · have hm : d.mantissa = 0 := by simpa [isNaN, hexp] using hnan
      rw [if_pos hexp, value_infinity hexp hm, integer]
    rw [if_neg hexp, value_finite hexp, integer, JSBigInt.rational, integralPart_eq_floor]
    have hn := JSBigInt.magnitude_nonneg d
    cases d.msb with
    | false => simp [hn]
    | true =>
      simp only [if_true, neg_neg]
      split_ifs with hneg
      · rw [show JSBigInt.DoubleBits.magnitude d = 0 by linarith]
        simp
      · rfl

variable {v : NumberValue}

theorem toLength_finite {n : Int} (h : toInteger v = .finite n) :
    toLength (number v) = min n.toNat (2 ^ 53 - 1) ∧ isNegative (number v) = decide (n < 0) := by
  rw [toInteger_eq_integer] at h
  rw [toLength, isNegative, h]
  exact ⟨rfl, rfl⟩

theorem toLength_infinity {sign : Bool} (h : toInteger v = .infinity sign) :
    toLength (number v) = (if sign then 0 else 2 ^ 53 - 1) ∧ isNegative (number v) = sign := by
  rw [toInteger_eq_integer] at h
  rw [toLength, isNegative, h]
  exact ⟨rfl, rfl⟩

/-! ## The object -/

/-- A string of the run time, no longer than `String::MaxLength`. -/
structure Input where
  characters : Text
  bounded : characters.length ≤ 0x7FFFFFFF

def Input.length (input : Input) : Nat := input.characters.length

structure RegExpObject where
  regExp : RegExp
  lastIndex : NumberValue
  lastIndexIsWritable : Bool

inductive Exception where
  | typeError (message : String)
  deriving DecidableEq, Repr

def unsignedMax : Nat := 0xFFFFFFFF

/-- `jsNumber`, for numbers below `2 ^ 53`, which are exact as doubles. -/
def jsNumber (n : Nat) : NumberValue :=
  if n ≤ 0x7FFFFFFF then .int32 (.ofNat 32 n)
  else .double (.ofFields false (1023 + n.log2) ((n - 2 ^ n.log2) * 2 ^ (52 - n.log2)))

namespace RegExpObject

def setLastIndex (object : RegExpObject) (lastIndex : Nat) : Except Exception RegExpObject :=
  if object.lastIndexIsWritable then .ok { object with lastIndex := jsNumber lastIndex }
  else .error (.typeError readonlyPropertyWriteError)

/-- An attempt that is not made. -/
def noAttempt (object : RegExpObject) : Except Exception (Nat × RegExpObject) := do
  let object ← object.setLastIndex 0
  return (unsignedMax, object)

def getRegExpObjectLastIndexAsUnsigned (object : RegExpObject) (input : Input) :
    Except Exception (Nat × RegExpObject) :=
  -- `isUInt32`
  let unsigned : Option Nat := match object.lastIndex with
    | .int32 value => if value.toInt ≥ 0 then some value.toNat else none
    | .double _ => none
  match unsigned with
  | some lastIndex => if lastIndex > input.length then object.noAttempt else .ok (lastIndex, object)
  | none =>
    match toInteger object.lastIndex with
    | .finite doubleLastIndex =>
      if doubleLastIndex < 0 ∨ doubleLastIndex > input.length then object.noAttempt
      else .ok (doubleLastIndex.toNat, object)
    | .infinity _ => object.noAttempt

def execInline (object : RegExpObject) (input : Input) :
    Except Exception (Option MatchesArray × RegExpObject) := do
  let globalOrSticky := object.regExp.globalOrSticky
  let (lastIndex, object) ←
    if globalOrSticky then object.getRegExpObjectLastIndexAsUnsigned input else .ok (0, object)
  if globalOrSticky ∧ lastIndex = unsignedMax then return (none, object)
  match object.regExp.matchFrom input.characters lastIndex with
  | none =>
    let object ← if globalOrSticky then object.setLastIndex 0 else .ok object
    return (none, object)
  | some m =>
    let object ← if globalOrSticky then object.setLastIndex m.stop else .ok object
    return (some (createRegExpMatchesArray object.regExp.numSubpatterns m), object)

/-- The start and the end of the match, `none` for `MatchResult::failed()`. -/
def matchInline (object : RegExpObject) (input : Input) :
    Except Exception (Option (Nat × Nat) × RegExpObject) := do
  if !object.regExp.global && !object.regExp.sticky then
    return ((object.regExp.matchFrom input.characters 0).map fun m => (m.start, m.stop), object)
  let (lastIndex, object) ← object.getRegExpObjectLastIndexAsUnsigned input
  if lastIndex = unsignedMax then return (none, object)
  let result := (object.regExp.matchFrom input.characters lastIndex).map fun m => (m.start, m.stop)
  -- the `end` of a result that failed is zero
  let object ← object.setLastIndex (result.elim 0 Prod.snd)
  return (result, object)

/-! ## The language -/

/-- `RegExpBuiltinExec`: what it finds, and the object after it. -/
def regExpBuiltinExec (object : RegExpObject) (input : Input) :
    Except Exception (Option Match × RegExpObject) := do
  let globalOrSticky := object.regExp.globalOrSticky
  let lastIndex := if globalOrSticky then toLength (number object.lastIndex) else 0
  let found :=
    if lastIndex > input.length then none else object.regExp.matchFrom input.characters lastIndex
  let object ←
    if globalOrSticky then object.setLastIndex (found.elim 0 Match.stop) else .ok object
  return (found, object)

/-- Both functions return what `RegExpBuiltinExec` finds and leave what it leaves. -/
def FollowsBuiltinExec (object : RegExpObject) (input : Input) : Prop :=
  object.execInline input = (object.regExpBuiltinExec input).map (fun (found, after) =>
      (found.map (createRegExpMatchesArray object.regExp.numSubpatterns), after)) ∧
    object.matchInline input = (object.regExpBuiltinExec input).map (fun (found, after) =>
      (found.map fun m => (m.start, m.stop), after))

/-! ## One call -/

/-- The attempt that the code makes. -/
def attempt (object : RegExpObject) (input : Input) :
    Except Exception (Option Match × RegExpObject) :=
  do
  let globalOrSticky := object.regExp.globalOrSticky
  let lastIndex := if globalOrSticky then toLength (number object.lastIndex) else 0
  let found :=
    if globalOrSticky ∧ (isNegative (number object.lastIndex) ∨ lastIndex > input.length) then none
    else object.regExp.matchFrom input.characters lastIndex
  let object ←
    if globalOrSticky then object.setLastIndex (found.elim 0 Match.stop) else .ok object
  return (found, object)

variable {obj : RegExpObject} {inp : Input}

theorem getRegExpObjectLastIndexAsUnsigned_eq (obj : RegExpObject) (inp : Input) :
    obj.getRegExpObjectLastIndexAsUnsigned inp =
      if isNegative (number obj.lastIndex) ∨ toLength (number obj.lastIndex) > inp.length
      then obj.noAttempt
      else .ok (toLength (number obj.lastIndex), obj) := by
  have hb : inp.length ≤ 0x7FFFFFFF := inp.bounded
  rw [getRegExpObjectLastIndexAsUnsigned]
  cases hl : obj.lastIndex with
  | int32 v =>
    obtain ⟨hlen, hnegative⟩ := toLength_finite (show toInteger (.int32 v) = _ from rfl)
    by_cases hn : v.toInt ≥ 0
    · have hv : (v.toNat : Int) = v.toInt := by
        rw [BitVec.toInt_eq_toNat_cond] at hn ⊢
        split at hn <;> omega
      rw [show min v.toInt.toNat (2 ^ 53 - 1) = v.toNat by omega] at hlen
      simp [hlen, hnegative, hn, show ¬v.toInt < 0 by omega]
    · simp [hnegative, toInteger, hn, show v.toInt < 0 by omega]
  | double d =>
    cases ht : toInteger (.double d) with
    | finite n =>
      obtain ⟨hlen, hnegative⟩ := toLength_finite ht
      by_cases hneg : n < 0
      · simp [hnegative, hneg]
      by_cases hgt : n > inp.length
      · have hmin : min n.toNat (2 ^ 53 - 1) > inp.length := by omega
        simp only [hlen, hgt, hmin, or_true, if_true]
      · have hmin : min n.toNat (2 ^ 53 - 1) = n.toNat := by omega
        simp only [hlen, hnegative, hneg, hgt, hmin, or_false, if_false, decide_false,
          Bool.false_eq_true, show ¬n.toNat > inp.length by omega]
    | infinity sign =>
      obtain ⟨hlen, hnegative⟩ := toLength_infinity ht
      cases sign with
      | true => simp [hnegative]
      | false =>
        have hgt : 2 ^ 53 - 1 > inp.length := by omega
        simp only [hlen, Bool.false_eq_true, if_false, hgt, or_true, if_true]

/-- Both functions make the attempt, and differ in what they take of the match. -/
theorem inline_eq (obj : RegExpObject) (inp : Input) :
    obj.execInline inp = (obj.attempt inp).map (fun (found, after) =>
      (found.map (createRegExpMatchesArray obj.regExp.numSubpatterns), after)) ∧
    obj.matchInline inp = (obj.attempt inp).map (fun (found, after) =>
      (found.map fun m => (m.start, m.stop), after)) := by
  have hb : inp.length ≤ 0x7FFFFFFF := inp.bounded
  rw [execInline, matchInline, attempt, getRegExpObjectLastIndexAsUnsigned_eq]
  have hf : (!obj.regExp.global && !obj.regExp.sticky) = !obj.regExp.globalOrSticky := by
    rw [RegExp.globalOrSticky, Bool.not_or]
  rw [hf]
  by_cases hg : obj.regExp.globalOrSticky = true
  · by_cases hno : isNegative (number obj.lastIndex) = true ∨
        toLength (number obj.lastIndex) > inp.length
    · cases hw : obj.lastIndexIsWritable <;>
        simp [hg, hno, noAttempt, setLastIndex, hw, bind, Except.bind, pure,
          Except.pure, Except.map]
    have hi : toLength (number obj.lastIndex) ≠ unsignedMax := by
      rw [not_or] at hno
      rw [unsignedMax]
      omega
    cases hm : obj.regExp.matchFrom inp.characters (toLength (number obj.lastIndex))
      <;> cases hw : obj.lastIndexIsWritable <;>
      simp [hg, hno, hi, hm, setLastIndex, hw, bind, Except.bind, pure, Except.pure, Except.map]
  · cases hm : obj.regExp.matchFrom inp.characters 0 <;>
      simp [hg, hm, bind, Except.bind, pure, Except.pure, Except.map]

/-- A negative `lastIndex` that is to be set, where the language finds a match from zero on. -/
def Deviates (object : RegExpObject) (input : Input) : Prop :=
  object.regExp.globalOrSticky = true ∧ isNegative (number object.lastIndex) = true ∧
    object.lastIndexIsWritable = true ∧
    (object.regExp.matchFrom input.characters 0).isSome = true

theorem toLength_of_isNegative {v : DoubleValue} (h : isNegative v = true) :
    toLength v = 0 := by
  rw [isNegative] at h
  rw [toLength]
  cases hin : integer v with
  | finite n =>
    rw [hin] at h
    have : n < 0 := of_decide_eq_true h
    show min n.toNat _ = 0
    omega
  | infinity sign =>
    rw [hin] at h
    exact if_pos h

theorem attempt_eq_regExpBuiltinExec (h : ¬obj.Deviates inp) :
    obj.attempt inp = obj.regExpBuiltinExec inp := by
  rw [attempt, regExpBuiltinExec]
  by_cases hg : obj.regExp.globalOrSticky = true
  · by_cases hneg : isNegative (number obj.lastIndex) = true
    · have hlen := toLength_of_isNegative hneg
      cases hw : obj.lastIndexIsWritable with
      | false => simp [hg, setLastIndex, hw, bind, Except.bind]
      | true =>
        have hn : obj.regExp.matchFrom inp.characters 0 = none := by
          rw [← Option.not_isSome_iff_eq_none]
          exact fun hs => h ⟨hg, hneg, hw, hs⟩
        simp [hg, hneg, hlen, hn]
    · simp [hg, hneg]
  · simp [hg]

theorem followsBuiltinExec_iff (obj : RegExpObject) (inp : Input) :
    obj.FollowsBuiltinExec inp ↔ ¬obj.Deviates inp := by
  constructor
  · rintro ⟨he, _⟩ ⟨hg, hneg, hw, hs⟩
    obtain ⟨m, hm⟩ := Option.isSome_iff_exists.mp hs
    rw [(inline_eq _ _).1, attempt, regExpBuiltinExec, toLength_of_isNegative hneg] at he
    simp [hg, hneg, hm, setLastIndex, hw, bind, Except.bind, pure, Except.pure, Except.map] at he
  · intro h
    rw [FollowsBuiltinExec, (inline_eq _ _).1, (inline_eq _ _).2, attempt_eq_regExpBuiltinExec h]
    exact ⟨rfl, rfl⟩

/-! ## Repeated calls -/

/-- So many calls of `exec` in a row. -/
def execs (input : Input) :
    Nat → RegExpObject → Except Exception (List (Option MatchesArray) × RegExpObject)
  | 0, object => .ok ([], object)
  | n + 1, object => do
    let (result, object) ← object.execInline input
    let (results, object) ← execs input n object
    return (result :: results, object)

/-- An index up to the one behind the longest string. -/
theorem toLength_jsNumber {n : Nat} (h : n ≤ 0x80000000) :
    toLength (number (jsNumber n)) = n ∧ isNegative (number (jsNumber n)) = false := by
  have hin : toInteger (jsNumber n) = .finite n := by
    by_cases hl : n = 0x80000000
    · subst hl
      decide +kernel
    · rw [jsNumber, if_pos (by omega), toInteger, BitVec.toInt_eq_toNat_cond, BitVec.toNat_ofNat]
      congr 1
      omega
  obtain ⟨hlen, hneg⟩ := toLength_finite hin
  rw [hlen, hneg]
  exact ⟨by omega, by simp⟩

/-- A call starts from `lastIndex`, which is not negative and can be set. -/
structure StartsAt (object : RegExpObject) (start : Nat) : Prop where
  global : object.regExp.globalOrSticky = true
  writable : object.lastIndexIsWritable = true
  index : toLength (number object.lastIndex) = start ∧ isNegative (number object.lastIndex) = false

variable {start : Nat} (h : obj.StartsAt start)

include h

theorem StartsAt.goOn {n : Nat} (hn : n ≤ 0x80000000) :
    StartsAt { obj with lastIndex := jsNumber n } n :=
  ⟨h.global, h.writable, toLength_jsNumber hn⟩

theorem StartsAt.setLastIndex (v : NumberValue) (n : Nat) :
    RegExpObject.setLastIndex { obj with lastIndex := v } n =
      .ok { obj with lastIndex := jsNumber n } := if_pos h.writable

theorem StartsAt.attempt :
    obj.attempt inp =
      .ok (obj.regExp.matchFrom inp.characters start, { obj with
          lastIndex :=
            jsNumber ((obj.regExp.matchFrom inp.characters start).elim 0 Match.stop) }) := by
  have hb : start > inp.length → obj.regExp.matchFrom inp.characters start = none :=
    fun h => obj.regExp.matchFrom_beyond h
  have hset := h.setLastIndex obj.lastIndex
  rw [RegExpObject.attempt]
  by_cases hgt : start > inp.length
  · simp [h.global, h.index, hgt, hb hgt, hset, bind, Except.bind, pure, Except.pure]
  · simp [h.global, h.index, hgt, hset, bind, Except.bind, pure, Except.pure]

theorem StartsAt.execInline :
    obj.execInline inp =
      .ok ((obj.regExp.matchFrom inp.characters start).map
          (createRegExpMatchesArray obj.regExp.numSubpatterns),
        { obj with
          lastIndex :=
            jsNumber ((obj.regExp.matchFrom inp.characters start).elim 0 Match.stop) }) := by
  rw [(inline_eq _ _).1, h.attempt]
  rfl

omit h

theorem execs_of_sequence {ms : List Match} (hs : obj.StartsAt start)
    (h : obj.regExp.Sequence inp.characters Match.stop start ms) :
    execs inp (ms.length + 1) obj =
      .ok (ms.map (fun m => some (createRegExpMatchesArray obj.regExp.numSubpatterns m)) ++ [none],
        { obj with lastIndex := jsNumber 0 }) := by
  induction ms generalizing start obj with
  | nil =>
    obtain ⟨hn⟩ := h
    simp [execs, hs.execInline, hn, bind, Except.bind, pure, Except.pure]
  | cons m ms ih =>
    obtain _ | ⟨hm, hr⟩ := h
    have hsp : m.stop ≤ 0x7FFFFFFF := (RegExp.stop_le hm).trans inp.bounded
    have hc := ih (hs.goOn (show m.stop ≤ 0x80000000 by omega)) hr
    rw [List.length_cons, execs, hs.execInline]
    simp [hm, bind, Except.bind, pure, Except.pure, hc]

/-- `exec` and `test` follow the language unless `lastIndex` is negative and there is a match from
zero on; they agree in any case. From any `lastIndex`, calls of `exec` for a global expression
without empty matches return matches in order, none of which overlaps another, and then null, after
which they start from zero. -/
theorem exec_follows_builtinExec_iff (object : RegExpObject) (input : Input) :
    (object.FollowsBuiltinExec input ↔ ¬object.Deviates input) ∧
      (object.execInline input).map (fun (result, after) => (result.isSome, after)) =
        (object.matchInline input).map (fun (result, after) => (result.isSome, after)) ∧
      (object.regExp.global = true → object.lastIndexIsWritable = true →
        (∀ i m, object.regExp.matchFrom input.characters i = some m → m.start < m.stop) →
        ∃ ms, (isNegative (number object.lastIndex) = false →
            object.regExp.Sequence input.characters Match.stop
              (toLength (number object.lastIndex)) ms) ∧
          ms.Pairwise (fun m m' => m.stop ≤ m'.start) ∧
          execs input (ms.length + 1) object =
            .ok (ms.map (fun m =>
                some (createRegExpMatchesArray object.regExp.numSubpatterns m)) ++ [none],
              { object with lastIndex := jsNumber 0 })) := by
  refine ⟨followsBuiltinExec_iff object input, ?_, ?_⟩
  · rw [(inline_eq _ _).1, (inline_eq _ _).2]
    cases object.attempt input with
    | error e => rfl
    | ok result => simp [Except.map]
  · intro hglobal hwritable hnonempty
    have hflags : object.regExp.globalOrSticky = true := by simp [RegExp.globalOrSticky, hglobal]
    cases hnegative : isNegative (number object.lastIndex) with
    | true =>
      refine ⟨[], fun h => (nomatch h), .nil, ?_⟩
      simp [execs, (inline_eq _ _).1, attempt, hflags, hnegative, setLastIndex, hwritable, bind,
        Except.bind, pure, Except.pure, Except.map]
    | false =>
      have hnext : ∀ start m, object.regExp.matchFrom input.characters start = some m →
          start < m.stop := fun start m hm =>
        Nat.lt_of_le_of_lt (RegExp.le_start hm) (hnonempty start m hm)
      obtain ⟨ms, hms⟩ := RegExp.exists_sequence hnext (toLength (number object.lastIndex))
      exact ⟨ms, fun _ => hms, (hms.ordered fun _ => Nat.le_refl _).2,
        execs_of_sequence ⟨hflags, hwritable, rfl, hnegative⟩ hms⟩

/-- `a` -/
def letterA : Input := ⟨[0x61], by decide⟩

/-- `/a/g` -/
def globalA (lastIndex : Int) : RegExpObject :=
  ⟨(Pattern.character 0x61).regExp true false, .int32 (.ofInt 32 lastIndex), true⟩

theorem exec_follows_from_zero : (globalA 0).FollowsBuiltinExec letterA :=
  (exec_follows_builtinExec_iff (globalA 0) letterA).1.mpr fun h =>
    absurd h.2.1 (by decide +kernel)

/-- There is a match at zero, and `exec` and `test` say that there is none. -/
theorem exec_ignores_match : ((globalA (-1)).execInline letterA).map (·.1) = .ok none ∧
      ((globalA (-1)).matchInline letterA).map (·.1) = .ok none ∧
      ((globalA (-1)).regExpBuiltinExec letterA).map
        (fun r => r.1.map (fun m => (m.start, m.stop))) = .ok (some (0, 1)) := by
  decide +kernel

end RegExpObject

end JavaScriptCore.Runtime
