import JavaScriptCore.ProgramLogic.Weakest
import JavaScriptCore.Numeral.Window
import JavaScriptCore.Runtime.JSBigInt.Digit

/-!
# The JSBigInt cell: storage, creation, comparison

`runtime/JSBigInt.cpp:63-184, 286-306, 780-829, 1614-1638, 1791-1801`.
A cell is a sign and `m_length` digits of storage behind it, least significant
first. Allocation does not clear the storage: the heap supplies arbitrary initial
digits for every cell it hands out, so nothing proved below can rest on their
value. An index outside the storage is undefined behaviour in the source and is an
exception of its own here.
-/

namespace JavaScriptCore.Runtime

open JavaScriptCore.ProgramLogic JavaScriptCore.Numeral

structure JSBigInt (t : JSBigInt.Target) where
  sign : Bool
  digits : List t.Digit
  deriving DecidableEq, Repr

namespace JSBigInt

inductive Exception where
  | outOfMemoryError
  | rangeError (message : String)
  | syntaxError (message : String)
  /-- `dataStorage()` indexed outside `m_length`. -/
  | outOfBounds
  /-- A member access through a null cell. -/
  | nullDereference
  /-- `digitDiv` by a zero digit, which traps. -/
  | divisionByZero
  /-- A loop's step budget is used up; no source behaviour corresponds to it. -/
  | budgetExhausted
  deriving DecidableEq, Repr

/-- Cells handed out so far, and what their storage holds before it is written. -/
structure Heap (t : Target) where
  allocated : Nat
  contents : Nat → Nat → t.Digit

variable {t : Target}

abbrev Run (t : Target) := Program (Heap t) Exception

def length (x : JSBigInt t) : Nat := x.digits.length

def isZero (x : JSBigInt t) : Bool := x.length == 0

def setSign (x : JSBigInt t) (sign : Bool) : JSBigInt t := { x with sign }

def digit (x : JSBigInt t) (n : Nat) : Run t t.Digit :=
  match x.digits[n]? with
  | some d => pure d
  | none => throw .outOfBounds

def setDigit (x : JSBigInt t) (n : Nat) (value : t.Digit) : Run t (JSBigInt t) :=
  if n < x.length then pure { x with digits := x.digits.set n value } else throw .outOfBounds

def createWithLengthUnchecked (length : Nat) : Run t (JSBigInt t) := do
  let heap ← get
  set { heap with allocated := heap.allocated + 1 }
  return ⟨false, (List.range length).map (heap.contents heap.allocated)⟩

def tryCreateWithLength (length : Nat) : Run t (JSBigInt t) :=
  if length > t.maxLength then throw .outOfMemoryError else createWithLengthUnchecked length

def createZero : Run t (JSBigInt t) := createWithLengthUnchecked 0

/-- `initialize(InitializationType::WithZero)`. -/
def initializeWithZero (x : JSBigInt t) : JSBigInt t :=
  { x with digits := List.replicate x.length 0 }

/-- `std::copy` of the first `count` digits. -/
def copyDigits (source : JSBigInt t) (count : Nat) (result : JSBigInt t) : Run t (JSBigInt t) :=
  forUp 0 count result fun i result => do result.setDigit i (← source.digit i)

def copy (x : JSBigInt t) : Run t (JSBigInt t) := do
  let result ← createWithLengthUnchecked x.length
  let result ← copyDigits x x.length result
  return result.setSign x.sign

def unaryMinus (x : JSBigInt t) : Run t (JSBigInt t) := do
  if x.isZero then return x
  let result ← copy x
  return result.setSign (!x.sign)

/-- `nonZeroIndex + 1` when the scan starts below `count`. -/
def significantLength (x : JSBigInt t) : Nat → Run t Nat
  | 0 => pure 0
  | i + 1 => do if (← x.digit i) = 0 then significantLength x i else return i + 1

def rightTrim (x : JSBigInt t) : Run t (JSBigInt t) := do
  if x.isZero then return x
  let newLength ← significantLength x x.length
  if newLength = 0 then createZero
  else if newLength = x.length then return x
  else do
    let trimmedBigInt ← createWithLengthUnchecked newLength
    let trimmedBigInt ← copyDigits x newLength trimmedBigInt
    return trimmedBigInt.setSign x.sign

/-- `createFrom(VM&, int32_t)`. -/
def createFromInt32 (value : BitVec 32) : Run t (JSBigInt t) := do
  if value = 0 then createZero
  else do
    let bigInt ← createWithLengthUnchecked 1
    if value.toInt < 0 then do
      let bigInt ← bigInt.setDigit 0 (BitVec.ofInt _ (-1 * value.toInt))
      return bigInt.setSign true
    else bigInt.setDigit 0 (BitVec.ofInt _ value.toInt)

/-- `createFrom(VM&, uint32_t)`. -/
def createFromUInt32 (value : BitVec 32) : Run t (JSBigInt t) := do
  if value = 0 then createZero
  else do
    let bigInt ← createWithLengthUnchecked 1
    bigInt.setDigit 0 (value.setWidth _)

/-- `createFrom(VM&, int64_t)`. The two-digit branch does not trim. -/
def createFromInt64 (value : BitVec 64) : Run t (JSBigInt t) := do
  if value = 0 then createZero
  else if t.digitBits = 64 then do
    let bigInt ← createWithLengthUnchecked 1
    if value.toInt < 0 then do
      let bigInt ← bigInt.setDigit 0 ((-(value + 1) + 1).setWidth _)
      return bigInt.setSign true
    else bigInt.setDigit 0 (value.setWidth _)
  else do
    let bigInt ← createWithLengthUnchecked 2
    let (tempValue, sign) := if value.toInt < 0 then (-(value + 1) + 1, true) else (value, false)
    let lowBits := (tempValue &&& 0xffffffff).setWidth t.digitBits
    let highBits := ((tempValue >>> 32) &&& 0xffffffff).setWidth t.digitBits
    let bigInt ← bigInt.setDigit 0 lowBits
    let bigInt ← bigInt.setDigit 1 highBits
    return bigInt.setSign sign

/-- `createFrom(VM&, bool)`. -/
def createFromBool (value : Bool) : Run t (JSBigInt t) := do
  if value = false then createZero
  else do
    let bigInt ← createWithLengthUnchecked 1
    bigInt.setDigit 0 (if value then 1 else 0)

inductive ComparisonResult where
  | equal | undefined | greaterThan | lessThan
  deriving DecidableEq, Repr

def equalsFrom (x y : JSBigInt t) : Nat → Nat → Run t Bool
  | 0, _ => pure true
  | count + 1, i => do
    if (← x.digit i) ≠ (← y.digit i) then return false else equalsFrom x y count (i + 1)

def equals (x y : JSBigInt t) : Run t Bool := do
  if x.sign ≠ y.sign then return false
  if x.length ≠ y.length then return false
  equalsFrom x y x.length 0

/-- The scan from the top; the argument is `i + 1`. -/
def absoluteCompareBelow (x y : JSBigInt t) : Nat → Run t ComparisonResult
  | 0 => pure .equal
  | i + 1 => do
    let dx ← x.digit i
    let dy ← y.digit i
    if dx = dy then absoluteCompareBelow x y i
    else return if dx > dy then .greaterThan else .lessThan

def absoluteCompare (x y : JSBigInt t) : Run t ComparisonResult := do
  let diff : Int := x.length - y.length
  if diff ≠ 0 then return if diff < 0 then .lessThan else .greaterThan
  absoluteCompareBelow x y x.length

def compare (x y : JSBigInt t) : Run t ComparisonResult := do
  let xSign := x.sign
  if xSign ≠ y.sign then return if xSign then .lessThan else .greaterThan
  let result ← absoluteCompare x y
  if result = .greaterThan then return if xSign then .lessThan else .greaterThan
  if result = .lessThan then return if xSign then .greaterThan else .lessThan
  return .equal

end JSBigInt

end JavaScriptCore.Runtime
