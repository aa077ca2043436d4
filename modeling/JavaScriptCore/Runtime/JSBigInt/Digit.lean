import Mathlib.Tactic.Linarith

/-!
# Digit arithmetic

`runtime/JSBigInt.cpp:538-698` and the constants of `runtime/JSBigInt.h:134-149`.
A digit is a register-wide word (`UCPURegister`), so the arithmetic wraps. The
preprocessor picks one of two multiplications and one of two divisions; both of
each are embedded, and `Target` records which the build selected. The division
instruction is read by its documented result.
-/

namespace JavaScriptCore.Runtime.JSBigInt

/-- What the preprocessor knows about the build. -/
structure Target where
  /-- `USE(JSVALUE64)`; otherwise `USE(JSVALUE32_64)`. -/
  jsValue64 : Bool
  /-- `HAVE(INT128_T)`. -/
  haveInt128 : Bool
  /-- `CPU(X86_64)` or `CPU(X86)` with a compiler that takes the inline assembly. -/
  haveDivInstruction : Bool
  deriving DecidableEq, Repr

namespace Target

variable (t : Target)

def digitBits : Nat := if t.jsValue64 then 64 else 32

def haveTwoDigit : Bool := !t.jsValue64 || t.haveInt128

abbrev Digit := BitVec t.digitBits

/-- `sizeof(void*) * bitsPerByte` is the register width on both builds. -/
def maxLength : Nat := 1024 * 1024 / t.digitBits

def maxInt : Nat := 0x7FFFFFFF

def maxLengthBits : Nat := maxInt - t.digitBits - 1

theorem digitBits_cases : t.digitBits = 32 ∨ t.digitBits = 64 := by
  unfold digitBits
  split <;> simp

end Target

section Portable

variable {w : Nat}

def halfDigitBits (w : Nat) : Nat := w / 2

def halfDigitMask (w : Nat) : BitVec w := ((1 : BitVec w) <<< halfDigitBits w) - 1

def halfDigitBase (w : Nat) : BitVec w := (1 : BitVec w) <<< halfDigitBits w

/-- `WTF::clz`: the number of leading zero bits, the full width for zero. -/
def clz (d : BitVec w) : Nat := if d = 0 then w else w - 1 - d.toNat.log2

/-- The second component is the caller's carry, incremented on overflow. -/
def digitAdd (a b carry : BitVec w) : BitVec w × BitVec w :=
  let result := a + b
  (result, carry + if result < a then 1 else 0)

def digitSub (a b borrow : BitVec w) : BitVec w × BitVec w :=
  let result := a - b
  (result, borrow + if result > a then 1 else 0)

/-- Low half first, then `high`. -/
def digitMulTwoDigit (a b : BitVec w) : BitVec w × BitVec w :=
  let result : BitVec (2 * w) := a.setWidth (2 * w) * b.setWidth (2 * w)
  (result.setWidth w, (result >>> w).setWidth w)

def digitMulHalves (a b : BitVec w) : BitVec w × BitVec w :=
  let aLow := a &&& halfDigitMask w
  let aHigh := a >>> halfDigitBits w
  let bLow := b &&& halfDigitMask w
  let bHigh := b >>> halfDigitBits w
  let rLow := aLow * bLow
  let rMid1 := aLow * bHigh
  let rMid2 := aHigh * bLow
  let rHigh := aHigh * bHigh
  let (low, carry) := digitAdd rLow (rMid1 <<< halfDigitBits w) 0
  let (low, carry) := digitAdd low (rMid2 <<< halfDigitBits w) carry
  (low, (rMid1 >>> halfDigitBits w) + (rMid2 >>> halfDigitBits w) + rHigh + carry)

def digitPowLoop : Nat → BitVec w → BitVec w → BitVec w → BitVec w
  | 0, _, _, result => result
  | fuel + 1, base, exponent, result =>
    if exponent > 0 then
      digitPowLoop fuel (base * base) (exponent >>> 1)
        (if exponent &&& 1 ≠ 0 then result * base else result)
    else result

/-- An exponent of `w` bits is shifted out after `w` rounds. -/
def digitPow (base exponent : BitVec w) : BitVec w := digitPowLoop w base exponent 1

/-- The loop that lowers a half-digit quotient estimate. The estimate decreases in
every round and zero fails the test, so the recursion is on the estimate itself. -/
def digitDivAdjust (vn0 vn1 un : BitVec w) : Nat → BitVec w → BitVec w × BitVec w
  | 0, rhat => (0, rhat)
  | n + 1, rhat =>
    let q := BitVec.ofNat w (n + 1)
    if q ≥ halfDigitBase w ∨ q * vn0 > rhat * halfDigitBase w + un then
      let rhat := rhat + vn1
      if rhat ≥ halfDigitBase w then (BitVec.ofNat w n, rhat)
      else digitDivAdjust vn0 vn1 un n rhat
    else (q, rhat)

/-- Quotient first, then `remainder`. -/
def digitDivHalves (high low divisor : BitVec w) : BitVec w × BitVec w :=
  let s := clz divisor
  let divisor := divisor <<< s
  let vn1 := divisor >>> halfDigitBits w
  let vn0 := divisor &&& halfDigitMask w
  let sZeroMask := (-(BitVec.ofNat w s)).sshiftRight (w - 1)
  let shiftMask := w - 1
  let un32 := (high <<< s) ||| ((low >>> ((w - s) &&& shiftMask)) &&& sZeroMask)
  let un10 := low <<< s
  let un1 := un10 >>> halfDigitBits w
  let un0 := un10 &&& halfDigitMask w
  let q1 := un32 / vn1
  let rhat := un32 - q1 * vn1
  let q1 := (digitDivAdjust vn0 vn1 un1 q1.toNat rhat).1
  let un21 := un32 * halfDigitBase w + un1 - q1 * divisor
  let q0 := un21 / vn1
  let rhat := un21 - q0 * vn1
  let q0 := (digitDivAdjust vn0 vn1 un0 q0.toNat rhat).1
  (q1 * halfDigitBase w + q0, (un21 * halfDigitBase w + un0 - q0 * divisor) >>> s)

/-- `div` leaves the truncated quotient and the remainder of the double-width
dividend; it does not fault when `high < divisor`. -/
def digitDivInstruction (high low divisor : BitVec w) : BitVec w × BitVec w :=
  let dividend := high.toNat * 2 ^ w + low.toNat
  (BitVec.ofNat w (dividend / divisor.toNat), BitVec.ofNat w (dividend % divisor.toNat))

end Portable

section Selected

variable (t : Target)

def digitMul (a b : t.Digit) : t.Digit × t.Digit :=
  if t.haveTwoDigit then digitMulTwoDigit a b else digitMulHalves a b

def digitDiv (high low divisor : t.Digit) : t.Digit × t.Digit :=
  if t.haveDivInstruction then digitDivInstruction high low divisor
  else digitDivHalves high low divisor

/-- Whether `factor1 * factor2 > (high << digitBits) + low`. -/
def productGreaterThan (factor1 factor2 high low : t.Digit) : Bool :=
  let (resultLow, resultHigh) := digitMul t factor1 factor2
  resultHigh > high ∨ (resultHigh = high ∧ resultLow > low)

end Selected

end JavaScriptCore.Runtime.JSBigInt
