import JavaScriptCore.Runtime.JSBigInt.Multiply
import JavaScriptCore.Runtime.JSBigInt.DigitShift

/-!
# Division and remainder

`runtime/JSBigInt.cpp:262-284, 313-353, 913-1161`. A one-digit divisor is divided out
digit by digit; a longer one goes through Knuth's algorithm D. Algorithm D keeps the
still undivided part of the dividend in `u`: the digits from `j` up are less than the
divisor, one more digit of quotient is estimated from the leading digits, corrected by
looking at the next one, and corrected once more after the subtraction borrowed.
-/

namespace JavaScriptCore.Runtime.JSBigInt

open JavaScriptCore.ProgramLogic JavaScriptCore.Numeral

variable {t : Target}

/-- What the caller passes as `quotient`: no pointer, a pointer to no cell yet, or a
pointer to the dividend's own cell. -/
inductive QuotientSlot where
  | unwanted | unallocated | inPlace
  deriving DecidableEq, Repr

def absoluteDivWithDigitDivisor (x : JSBigInt t) (divisor : t.Digit) (quotient : QuotientSlot) :
    Run t (Option (JSBigInt t) × t.Digit) := do
  -- `ASSERT(divisor)` and `ASSERT(!x->isZero())`: the first digit would be divided by it
  if divisor = 0 then throw .divisionByZero
  if divisor = 1 then return (if quotient = .unwanted then none else some x, 0)
  match quotient with
  | .unwanted => do
    let remainder ← forDown x.length (0 : t.Digit) fun i remainder => do
      return (digitDiv t remainder (← x.digit i) divisor).2
    return (none, remainder)
  | .unallocated => do
    let result ← createWithLengthUnchecked x.length
    let (remainder, result) ← forDown x.length ((0 : t.Digit), result)
      fun i (remainder, result) => do
        let (q, remainder) := digitDiv t remainder (← x.digit i) divisor
        return (remainder, ← result.setDigit i q)
    return (some result, remainder)
  | .inPlace => do
    let (remainder, result) ← forDown x.length ((0 : t.Digit), x)
      fun i (remainder, result) => do
        let (q, remainder) := digitDiv t remainder (← result.digit i) divisor
        return (remainder, ← result.setDigit i q)
    return (some result, remainder)

/-- The cell and the carry out of it. -/
def absoluteInplaceAdd (x summand : JSBigInt t) (startIndex : Nat) :
    Run t (JSBigInt t × t.Digit) := do
  let (carry, x) ← forUp 0 summand.length ((0 : t.Digit), x) fun i (carry, x) => do
    let (sum, newCarry) := digitAddCarry (← x.digit (startIndex + i)) (← summand.digit i) carry
    return (newCarry, ← x.setDigit (startIndex + i) sum)
  return (x, carry)

/-- The cell and the borrow out of it. -/
def absoluteInplaceSub (x subtrahend : JSBigInt t) (startIndex : Nat) :
    Run t (JSBigInt t × t.Digit) := do
  let (borrow, x) ← forUp 0 subtrahend.length ((0 : t.Digit), x) fun i (borrow, x) => do
    let (difference, newBorrow) :=
      digitSubBorrow (← x.digit (startIndex + i)) (← subtrahend.digit i) borrow
    return (newBorrow, ← x.setDigit (startIndex + i) difference)
  return (x, borrow)

def inplaceRightShift (x : JSBigInt t) (shift : Nat) : Run t (JSBigInt t) :=
  if shift = 0 then return x else rightShiftDigits none 0 (x.length - 1) shift x

inductive LeftShiftMode where
  | sameSizeResult | alwaysAddOneDigit
  deriving DecidableEq, Repr

def absoluteLeftShiftAlwaysCopy (x : JSBigInt t) (shift : Nat) (mode : LeftShiftMode) :
    Run t (JSBigInt t) := do
  let n := x.length
  let result ← tryCreateWithLength (if mode = .alwaysAddOneDigit then n + 1 else n)
  if shift = 0 then do
    let result ← copyDigits x n result
    if mode = .alwaysAddOneDigit then result.setDigit n 0 else return result
  else do
    let (carry, result) ← leftShiftDigits x shift 0 result
    if mode = .alwaysAddOneDigit then result.setDigit n carry else return result

/-- The loop that lowers `qhat`. A zero estimate fails its test, so the recursion is on
the estimate. -/
def lowerQuotientEstimate (vn1 vn2 ujn2 : t.Digit) : Nat → t.Digit → t.Digit
  | 0, _ => 0
  | n + 1, rhat =>
    let qhat := BitVec.ofNat t.digitBits (n + 1)
    if productGreaterThan t qhat vn2 rhat ujn2 then
      let prevRhat := rhat
      let rhat := rhat + vn1
      if rhat < prevRhat then BitVec.ofNat _ n else lowerQuotientEstimate vn1 vn2 ujn2 n rhat
    else qhat

/-- D3. -/
def estimateQuotientDigit (u divisor : JSBigInt t) (vn1 : t.Digit) (n j : Nat) :
    Run t t.Digit := do
  let ujn ← u.digit (j + n)
  if ujn ≠ vn1 then do
    let (qhat, rhat) := digitDiv t ujn (← u.digit (j + n - 1)) vn1
    let vn2 ← divisor.digit (n - 2)
    let ujn2 ← u.digit (j + n - 2)
    return lowerQuotientEstimate vn1 vn2 ujn2 qhat.toNat rhat
  else return BitVec.allOnes _

/-- D4, on the dividend and the quotient digit. -/
def subtractProduct (u divisor qhatv : JSBigInt t) (qhat : t.Digit) (n j : Nat) :
    Run t (JSBigInt t × JSBigInt t × t.Digit) := do
  let qhatv ← internalMultiplyAdd (some divisor) qhat 0 n qhatv
  let (u, c) ← absoluteInplaceSub u qhatv j
  if c ≠ 0 then do
    let (u, c) ← absoluteInplaceAdd u divisor j
    let u ← u.setDigit (j + n) ((← u.digit (j + n)) + c)
    return (u, qhatv, qhat - 1)
  else return (u, qhatv, qhat)

/-- The quotient, when asked for, and the remainder still scaled by `shift`. -/
def absoluteDivWithBigIntDivisor (dividend divisor : JSBigInt t)
    (wantQuotient wantRemainder : Bool) :
    Run t (Option (JSBigInt t) × Option (JSBigInt t)) := do
  let n := divisor.length
  let m := dividend.length - n
  let q ← (if wantQuotient then some <$> createWithLengthUnchecked (m + 1) else pure none)
  let qhatv ← tryCreateWithLength (n + 1)
  let lastDigit ← divisor.digit (n - 1)
  let shift := clz lastDigit
  let divisor ← (if shift > 0 then absoluteLeftShiftAlwaysCopy divisor shift .sameSizeResult
    else pure divisor)
  let u ← absoluteLeftShiftAlwaysCopy dividend shift .alwaysAddOneDigit
  let vn1 ← divisor.digit (n - 1)
  let (q, u, _) ← forDown (m + 1) (q, u, qhatv) fun j (q, u, qhatv) => do
    let qhat ← estimateQuotientDigit u divisor vn1 n j
    let (u, qhatv, qhat) ← subtractProduct u divisor qhatv qhat n j
    let q ← (match q with
      | none => pure none
      | some q => some <$> q.setDigit j qhat)
    return (q, u, qhatv)
  if wantRemainder then return (q, some (← inplaceRightShift u shift)) else return (q, none)

def divide (x y : JSBigInt t) : Run t (JSBigInt t) := do
  if y.isZero then throw (.rangeError "0 is an invalid divisor value.")
  if (← absoluteCompare x y) = .lessThan then createZero
  else do
    let resultSign : Bool := x.sign ≠ y.sign
    if y.length = 1 then do
      let divisor ← y.digit 0
      if divisor = 1 then
        if resultSign = x.sign then return x else unaryMinus x
      else do
        let (quotient, _) ← absoluteDivWithDigitDivisor x divisor .unallocated
        ((quotient.getD x).setSign resultSign).rightTrim
    else do
      let (quotient, _) ← absoluteDivWithBigIntDivisor x y true false
      ((quotient.getD x).setSign resultSign).rightTrim

def remainder (x y : JSBigInt t) : Run t (JSBigInt t) := do
  if y.isZero then throw (.rangeError "0 is an invalid divisor value.")
  if (← absoluteCompare x y) = .lessThan then return x
  else if y.length = 1 then do
    let divisor ← y.digit 0
    if divisor = 1 then createZero
    else do
      let (_, remainderDigit) ← absoluteDivWithDigitDivisor x divisor .unwanted
      if remainderDigit = 0 then createZero
      else do
        let remainder ← createWithLengthUnchecked 1
        let remainder ← remainder.setDigit 0 remainderDigit
        (remainder.setSign x.sign).rightTrim
  else do
    let (_, remainder) ← absoluteDivWithBigIntDivisor x y false true
    ((remainder.getD x).setSign x.sign).rightTrim

end JavaScriptCore.Runtime.JSBigInt
