import JavaScriptCore.Runtime.JSBigInt.Divide
import JavaScriptCore.Runtime.JSBigInt.Parse

/-!
# Writing a BigInt in a radix

`runtime/JSBigInt.cpp:223-232, 1439-1612`, `radixDigits` of `runtime/ParseInt.h:215`. A
power-of-two radix is written by shifting bits out into a buffer of the computed size,
from its end; any other radix is written by dividing out chunks of digits and reversing.
The buffer of the first is allocated without being cleared.
-/

namespace JavaScriptCore.Runtime.JSBigInt

open JavaScriptCore.ProgramLogic

variable {t : Target}

/-- `JSString::MaxLength`. -/
def maxStringLength : Nat := 0x7FFFFFFF

def radixDigits : List Char :=
  ['0', '1', '2', '3', '4', '5', '6', '7', '8', '9', 'a', 'b', 'c', 'd', 'e', 'f', 'g', 'h',
    'i', 'j', 'k', 'l', 'm', 'n', 'o', 'p', 'q', 'r', 's', 't', 'u', 'v', 'w', 'x', 'y', 'z']

def radixDigit (d : Nat) : UChar := BitVec.ofNat 16 (radixDigits.getD d '0').toNat

/-- `WTF::hasOneBitSet`. -/
def hasOneBitSet (n : Nat) : Bool := n ≠ 0 && n &&& (n - 1) = 0

/-- `WTF::ctz`, below the width of `unsigned`. -/
def ctz (n : Nat) : Nat := ((List.range 32).takeWhile fun i => !n.testBit i).length

def calculateMaximumCharactersRequired (length radix : Nat) (lastDigit : t.Digit) (sign : Bool) :
    Nat :=
  let leadingZeros := clz lastDigit
  let bitLength := length * t.digitBits - leadingZeros
  let maxBitsPerChar := maxBitsPerCharTable.getD radix 0
  let minBitsPerChar := maxBitsPerChar - 1
  (bitLength * bitsPerCharTableMultiplier + (minBitsPerChar - 1)) / minBitsPerChar + sign.toNat

/-- `Vector<LChar> resultString(size)`: the characters are whatever the memory holds. -/
def createBuffer (size : Nat) : Run t (List UChar) := do
  let heap ← get
  set { heap with allocated := heap.allocated + 1 }
  return (List.range size).map fun i =>
    ((heap.contents heap.allocated i).setWidth 8).setWidth 16

/-- `resultString[pos--] = c`. -/
def putChar (resultString : List UChar) (pos : Int) (c : UChar) : Run t (List UChar × Int) :=
  if 0 ≤ pos ∧ pos.toNat < resultString.length then
    pure (resultString.set pos.toNat c, pos - 1)
  else throw .outOfBounds

/-- The loop variables of `toStringBasePowerOfTwo`. -/
structure Writer (t : Target) where
  /-- Unprocessed bits. -/
  digit : t.Digit
  /-- How many of them there are. -/
  availableBits : Nat
  resultString : List UChar
  pos : Int

def Writer.put (writer : Writer t) (d : t.Digit) : Run t (Writer t) := do
  let (resultString, pos) ← putChar writer.resultString writer.pos (radixDigit d.toNat)
  return { writer with resultString, pos }

/-- One round of the loop over the digits below the top one. -/
def writeDigit (bitsPerChar : Nat) (charMask newDigit : t.Digit) (writer : Writer t) :
    Run t (Writer t) := do
  let current := (writer.digit ||| (newDigit <<< writer.availableBits)) &&& charMask
  let consumedBits := bitsPerChar - writer.availableBits
  let writer ← writer.put current
  let writer := { writer with
    digit := newDigit >>> consumedBits
    availableBits := t.digitBits - consumedBits }
  whileLoop t.digitBits .budgetExhausted writer (fun writer => writer.availableBits ≥ bitsPerChar)
    fun writer => do
      let writer ← writer.put (writer.digit &&& charMask)
      return { writer with
        digit := writer.digit >>> bitsPerChar
        availableBits := writer.availableBits - bitsPerChar }

/-- The top digit, written until nothing is left of it. -/
def writeTopDigit (bitsPerChar : Nat) (charMask msd : t.Digit) (writer : Writer t) :
    Run t (Writer t) := do
  let current := (writer.digit ||| (msd <<< writer.availableBits)) &&& charMask
  let digit := msd >>> (bitsPerChar - writer.availableBits)
  let writer ← writer.put current
  whileLoop t.digitBits .budgetExhausted { writer with digit } (fun writer => writer.digit ≠ 0)
    fun writer => do
      let writer ← writer.put (writer.digit &&& charMask)
      return { writer with digit := writer.digit >>> bitsPerChar }

/-- `toStringBasePowerOfTwo` with the final `pos`, of which the source asserts that it is -1. -/
def writeBasePowerOfTwo (x : JSBigInt t) (radix : Nat) : Run t (List UChar × Int) := do
  let length := x.length
  let bitsPerChar := ctz radix
  let charMask : t.Digit := BitVec.ofNat _ (radix - 1)
  let msd ← x.digit (length - 1)
  let bitLength := length * t.digitBits - clz msd
  let charsRequired := (bitLength + bitsPerChar - 1) / bitsPerChar + x.sign.toNat
  if charsRequired > maxStringLength then throw .outOfMemoryError
  let resultString ← createBuffer charsRequired
  let writer ← forUp 0 (length - 1) ⟨0, 0, resultString, (charsRequired : Int) - 1⟩
    fun i writer => do writeDigit bitsPerChar charMask (← x.digit i) writer
  let writer ← writeTopDigit bitsPerChar charMask msd writer
  if x.sign then putChar writer.resultString writer.pos 0x2D
  else return (writer.resultString, writer.pos)

def toStringBasePowerOfTwo (x : JSBigInt t) (radix : Nat) : Run t (List UChar) :=
  Prod.fst <$> writeBasePowerOfTwo x radix

/-- A chunk's characters, zero padded. -/
def appendChunk (radix : t.Digit) : Nat → t.Digit → List UChar → List UChar
  | 0, _, resultString => resultString
  | count + 1, chunk, resultString =>
    appendChunk radix count (chunk / radix) (resultString ++ [radixDigit (chunk % radix).toNat])

/-- `do … while (lastDigit > 0)`; a digit has at most as many characters as bits. -/
def appendLastDigit (radix : t.Digit) : Nat → t.Digit → List UChar → List UChar
  | 0, _, resultString => resultString
  | fuel + 1, lastDigit, resultString =>
    let resultString := resultString ++ [radixDigit (lastDigit % radix).toNat]
    let lastDigit := lastDigit / radix
    if lastDigit > 0 then appendLastDigit radix fuel lastDigit resultString else resultString

/-- One division of `toStringGeneric` with the characters it yields and the new
`nonZeroDigit`. -/
def divideChunk (radix chunkDivisor : t.Digit) (chunkChars : Nat) (slot : QuotientSlot)
    (dividend : JSBigInt t) (resultString : List UChar) (nonZeroDigit : Nat) :
    Run t (JSBigInt t × List UChar × Nat) := do
  let (rest, chunk) ← absoluteDivWithDigitDivisor dividend chunkDivisor slot
  match rest with
  | none => throw .nullDereference
  | some rest => do
    let resultString := appendChunk radix chunkChars chunk resultString
    let top ← rest.digit nonZeroDigit
    return (rest, resultString, if top = 0 then nonZeroDigit - 1 else nonZeroDigit)

/-- The loop over the chunks of a number of several digits: the digit left over and the
characters so far. -/
def divideChunks (x : JSBigInt t) (radix chunkDivisor : t.Digit) (chunkChars : Nat) :
    Run t (t.Digit × List UChar) := do
  let first ← divideChunk radix chunkDivisor chunkChars .unallocated x [] (x.length - 1)
  let (rest, resultString, _) ← whileLoop (x.length * t.digitBits) .budgetExhausted first
    (fun (_, _, nonZeroDigit) => nonZeroDigit > 0)
    fun (rest, resultString, nonZeroDigit) =>
      divideChunk radix chunkDivisor chunkChars .inPlace rest resultString nonZeroDigit
  return (← rest.digit 0, resultString)

/-- `newSizeNoLeadingZeroes`, scanning down from `size`. -/
def sizeNoLeadingZeroes (resultString : List UChar) : Nat → Nat
  | 0 => 0
  | size + 1 =>
    if size + 1 > 1 ∧ resultString.getD size 0 = 0x30 then sizeNoLeadingZeroes resultString size
    else size + 1

def toStringGeneric (x : JSBigInt t) (radix : Nat) : Run t (List UChar) := do
  let length := x.length
  let maxBitsPerChar := maxBitsPerCharTable.getD radix 0
  let msd ← x.digit (length - 1)
  let maximumCharactersRequired := calculateMaximumCharactersRequired length radix msd x.sign
  if maximumCharactersRequired > maxStringLength then throw .outOfMemoryError
  let (lastDigit, resultString) ← (
    if length = 1 then do return (← x.digit 0, [])
    else
      let chunkChars := t.digitBits * bitsPerCharTableMultiplier / maxBitsPerChar
      let chunkDivisor := digitPow (BitVec.ofNat _ radix) (BitVec.ofNat _ chunkChars)
      divideChunks x (BitVec.ofNat _ radix) chunkDivisor chunkChars)
  let resultString := appendLastDigit (BitVec.ofNat _ radix) t.digitBits lastDigit resultString
  let newSizeNoLeadingZeroes := sizeNoLeadingZeroes resultString resultString.length
  let resultString := resultString.take newSizeNoLeadingZeroes
  let resultString := if x.sign then resultString ++ [0x2D] else resultString
  return resultString.reverse

def toString (x : JSBigInt t) (radix : Nat) : Run t (List UChar) :=
  if x.isZero then return [0x30]
  else if hasOneBitSet radix then toStringBasePowerOfTwo x radix
  else toStringGeneric x radix

end JavaScriptCore.Runtime.JSBigInt
