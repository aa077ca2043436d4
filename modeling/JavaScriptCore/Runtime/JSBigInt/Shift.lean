import JavaScriptCore.Runtime.JSBigInt.DigitShift
import JavaScriptCore.Runtime.JSBigInt.Bitwise

/-!
# Shifts

`runtime/JSBigInt.cpp:506-526, 1292-1423, 1952-1964`. A shift amount is split into
whole digits and bits. A right shift of a negative number rounds towards minus
infinity, so its magnitude may grow by one when a bit was lost, and the source
reserves a digit for the carry when the shift is by whole digits and the top digit is
full. Nothing ever stores that digit.
-/

namespace JavaScriptCore.Runtime.JSBigInt

open JavaScriptCore.ProgramLogic JavaScriptCore.Numeral

variable {t : Target}

def tooBig : Exception := .rangeError "BigInt generated from this operation is too big"

def toShiftAmount (x : JSBigInt t) : Run t (Option t.Digit) := do
  if x.length > 1 then return none
  let value ← x.digit 0
  if value.toNat > t.maxLengthBits then return none else return some value

def leftShiftByAbsolute (x y : JSBigInt t) : Run t (JSBigInt t) := do
  match ← toShiftAmount y with
  | none => throw tooBig
  | some shift =>
    let digitShift := shift.toNat / t.digitBits
    let bitsShift := shift.toNat % t.digitBits
    let length := x.length
    let grow ← (if bitsShift ≠ 0 then do
        return decide ((← x.digit (length - 1)) >>> (t.digitBits - bitsShift) ≠ 0)
      else pure false)
    let resultLength := length + digitShift + grow.toNat
    if resultLength > t.maxLength then throw tooBig
    else
      let result ← tryCreateWithLength resultLength
      let result ← forUp 0 digitShift result fun i result => result.setDigit i 0
      let result ← (if bitsShift = 0 then
          forUp digitShift resultLength result fun i result => do
            result.setDigit i (← x.digit (i - digitShift))
        else do
          let (carry, result) ← leftShiftDigits x bitsShift digitShift result
          if grow then result.setDigit (length + digitShift) carry else return result)
      (result.setSign x.sign).rightTrim

def rightShiftByMaximum (sign : Bool) : Run t (JSBigInt t) :=
  if sign then createFromInt32 (-1) else createZero

/-- The scan for a nonzero digit among those shifted out. -/
def anyDigitBelow (x : JSBigInt t) : Nat → Nat → Run t Bool
  | 0, _ => pure false
  | count + 1, i => do
    if (← x.digit i) ≠ 0 then return true else anyDigitBelow x count (i + 1)

def mustRoundDown (x : JSBigInt t) (digitalShift bitsShift : Nat) : Run t Bool := do
  if x.sign then do
    let mask : t.Digit := ((1 : t.Digit) <<< bitsShift) - 1
    if (← x.digit digitalShift) &&& mask ≠ 0 then return true
    else anyDigitBelow x digitalShift 0
  else return false

/-- The digits of the result before it is signed, and whether it must still be rounded. -/
def rightShiftMagnitude (x : JSBigInt t) (digitalShift bitsShift : Nat) :
    Run t (Bool × JSBigInt t) := do
  let length := x.length
  let roundDown ← mustRoundDown x digitalShift bitsShift
  let roundingCanOverflow ← (if roundDown && decide (bitsShift = 0) then do
      let msd ← x.digit (length - 1)
      return decide (~~~msd = 0)
    else pure false)
  let resultLength := length - digitalShift + roundingCanOverflow.toNat
  let result ← createWithLengthUnchecked resultLength
  let result ← (if bitsShift = 0 then
      forUp digitalShift length result fun i result => do
        result.setDigit (i - digitalShift) (← x.digit i)
    else rightShiftDigits (some x) digitalShift (length - digitalShift - 1) bitsShift result)
  return (roundDown, result)

def rightShiftByAbsolute (x y : JSBigInt t) : Run t (JSBigInt t) := do
  let sign := x.sign
  match ← toShiftAmount y with
  | none => rightShiftByMaximum sign
  | some shift =>
    let digitalShift := shift.toNat / t.digitBits
    let bitsShift := shift.toNat % t.digitBits
    if x.length ≤ digitalShift then rightShiftByMaximum sign
    else
      let (roundDown, result) ← rightShiftMagnitude x digitalShift bitsShift
      if sign then
        let result := result.setSign true
        if roundDown then do
          let result ← result.rightTrim
          absoluteAddOne result .signed
        else result.rightTrim
      else result.rightTrim

def leftShift (x y : JSBigInt t) : Run t (JSBigInt t) :=
  if y.isZero || x.isZero then pure x
  else if y.sign then rightShiftByAbsolute x y
  else leftShiftByAbsolute x y

def signedRightShift (x y : JSBigInt t) : Run t (JSBigInt t) :=
  if y.isZero || x.isZero then pure x
  else if y.sign then leftShiftByAbsolute x y
  else rightShiftByAbsolute x y

end JavaScriptCore.Runtime.JSBigInt
