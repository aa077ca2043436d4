import Mathlib.Data.List.DropRight
import JavaScriptCore.Runtime.JSBigInt.Multiply

/-!
# Parsing a string to a BigInt

`runtime/JSBigInt.cpp:204-221, 1425-1438, 1640-1667, 1689-1789`, with the character
classes of `runtime/ParseInt.h:103-107`, `parser/Lexer.h:236-257` and the space
separators of the vendored `icu/uchar_props_data.h` (Unicode 8). A string is its UTF-16
code units. The source instantiates the parser for 8-bit and 16-bit strings; it only ever
compares and subtracts character values, so an 8-bit string is the zero-extended one.
`unsigned` positions are `Nat`: a string holds fewer than `2 ^ 31` units.
-/

namespace JavaScriptCore

abbrev UChar := BitVec 16

namespace Parser.Lexer

/-- `u_charType(ch) == U_SPACE_SEPARATOR` for units from 256 on. -/
def isSpaceSeparator (ch : UChar) : Bool :=
  ch = 0x1680 || (0x2000 ≤ ch && ch ≤ 0x200a) || ch = 0x202f || ch = 0x205f || ch = 0x3000

def isWhiteSpace (ch : UChar) : Bool :=
  if ch < 256 then ch = 0x20 || ch = 0x09 || ch = 0xB || ch = 0xC || ch = 0xA0
  else isSpaceSeparator ch || ch = 0xFEFF

def isLineTerminator (ch : UChar) : Bool := ch = 0x0D || ch = 0x0A || ch &&& ~~~1 = 0x2028

end Parser.Lexer

namespace Runtime

open ProgramLogic

def isStrWhiteSpace (c : UChar) : Bool :=
  Parser.Lexer.isWhiteSpace c || Parser.Lexer.isLineTerminator c

/-- `WTF::isASCIIAlphaCaselessEqual`. -/
def isASCIIAlphaCaselessEqual (inputCharacter : UChar) (expectedASCIILowercaseLetter : Char) :
    Bool :=
  (inputCharacter ||| 0x20).toNat = expectedASCIILowercaseLetter.toNat

namespace JSBigInt

variable {t : Target}

inductive ErrorParseMode where
  | throwExceptions | ignoreExceptions
  deriving DecidableEq, Repr

inductive ParseIntMode where
  | disallowEmptyString | allowEmptyString
  deriving DecidableEq, Repr

inductive ParseIntSign where
  | unsigned | signed
  deriving DecidableEq, Repr

/-- Bits per character of a base-N numeral, times 32, rounded up. -/
def maxBitsPerCharTable : List Nat :=
  [0, 0, 32, 51, 64, 75, 83, 90, 96,
    102, 107, 111, 115, 119, 122, 126, 128,
    131, 134, 136, 139, 141, 143, 145, 147,
    149, 151, 153, 154, 156, 158, 159, 160,
    162, 163, 165, 166]

def bitsPerCharTableShift : Nat := 5

def bitsPerCharTableMultiplier : Nat := 1 <<< bitsPerCharTableShift

/-- `allocateFor`; `exec` says whether an `ExecState` is there to throw through, and a null
result is `none`. -/
def allocateFor (exec : Bool) (radix charcount : Nat) : Run t (Option (JSBigInt t)) :=
  let bitsPerChar := maxBitsPerCharTable.getD radix 0
  let roundup := bitsPerCharTableMultiplier - 1
  let bitsMin := (bitsPerChar * charcount + roundup) >>> bitsPerCharTableShift
  let length := (bitsMin + t.digitBits - 1) / t.digitBits
  if charcount ≤ (2 ^ t.digitBits - 1 - roundup) / bitsPerChar ∧ bitsMin ≤ Target.maxInt ∧
      length ≤ t.maxLength then
    some <$> createWithLengthUnchecked length
  else if exec then throw .outOfMemoryError
  else pure none

/-- The value of a character in the radix, by the three ranges of the source. -/
def parseDigit (radix : Nat) (c : UChar) : Option Nat :=
  let limit0 := '0'.toNat + (if radix < 10 then radix else 10)
  let limita := 'a'.toNat + radix - 10
  let limitA := 'A'.toNat + radix - 10
  if '0'.toNat ≤ c.toNat ∧ c.toNat < limit0 then some (c.toNat - '0'.toNat)
  else if 'a'.toNat ≤ c.toNat ∧ c.toNat < limita then some (c.toNat - 'a'.toNat + 10)
  else if 'A'.toNat ≤ c.toNat ∧ c.toNat < limitA then some (c.toNat - 'A'.toNat + 10)
  else none

/-- The loop over the significant characters; the `Nat` is `p`, which stops where a
character is no digit. -/
def parseDigits (radix : Nat) : List UChar → Nat → JSBigInt t → Run t (Nat × JSBigInt t)
  | [], p, result => pure (p, result)
  | c :: cs, p, result =>
    match parseDigit radix c with
    | none => pure (p, result)
    | some digit => do
      let result ← result.inplaceMultiplyAdd (BitVec.ofNat _ radix) (BitVec.ofNat _ digit)
      parseDigits radix cs (p + 1) result

/-- Both failure exits of the radix-taking `parseInt`. -/
def parseFailure (exec : Bool) (errorParseMode : ErrorParseMode) : Run t (Option (JSBigInt t)) :=
  match errorParseMode with
  | .throwExceptions =>
    if exec then throw (.syntaxError "Failed to parse String to BigInt") else throw .nullDereference
  | .ignoreExceptions => pure none

/-- `while (p < length && test(data[p])) ++p`. -/
def skipWhile (test : UChar → Bool) (data : List UChar) (p : Nat) : Nat :=
  p + ((data.drop p).takeWhile test).length

/-- `parseInt(exec, vm, data, length, startIndex, radix, …)`. -/
def parseIntFrom (exec : Bool) (data : List UChar) (startIndex radix : Nat)
    (errorParseMode : ErrorParseMode) (sign : ParseIntSign) (parseMode : ParseIntMode) :
    Run t (Option (JSBigInt t)) := do
  if parseMode ≠ .allowEmptyString ∧ startIndex = data.length then
    return ← parseFailure exec errorParseMode
  let p := skipWhile (· = 0x30) data startIndex
  -- `endIndex + 1`: trailing spaces are dropped down to `p`
  let length := p + ((data.drop p).rdropWhile isStrWhiteSpace).length
  if p = length then return some (← createZero)
  let result ← allocateFor exec radix (length - p)
  match result with
  | none => throw .nullDereference
  | some result => do
    let (p, result) ← parseDigits radix ((data.take length).drop p) p result.initializeWithZero
    let result := result.setSign (sign = .signed)
    if p = length then return some (← result.rightTrim)
    parseFailure exec errorParseMode

/-- `parseInt(exec, data, length, errorParseMode)`, which finds the sign or the radix. -/
def parseInt (data : List UChar) (errorParseMode : ErrorParseMode) :
    Run t (Option (JSBigInt t)) := do
  let p := skipWhile isStrWhiteSpace data 0
  if p + 1 < data.length ∧ data[p]? = some 0x30 then
    let c := data.getD (p + 1) 0
    if isASCIIAlphaCaselessEqual c 'b' then
      return ← parseIntFrom true data (p + 2) 2 errorParseMode .unsigned .disallowEmptyString
    if isASCIIAlphaCaselessEqual c 'x' then
      return ← parseIntFrom true data (p + 2) 16 errorParseMode .unsigned .disallowEmptyString
    if isASCIIAlphaCaselessEqual c 'o' then
      return ← parseIntFrom true data (p + 2) 8 errorParseMode .unsigned .disallowEmptyString
  let (p, sign) :=
    if data[p]? = some 0x2B then (p + 1, ParseIntSign.unsigned)
    else if data[p]? = some 0x2D then (p + 1, ParseIntSign.signed)
    else (p, ParseIntSign.unsigned)
  let result ← parseIntFrom true data p 10 errorParseMode sign .allowEmptyString
  return result.map fun result =>
    if result.isZero then result else result.setSign (sign = .signed)

/-- `parseInt(exec, vm, s, radix, …)`, the one that takes the radix. -/
def parseIntWithRadix (exec : Bool) (s : List UChar) (radix : Nat)
    (parserMode : ErrorParseMode) (sign : ParseIntSign) : Run t (Option (JSBigInt t)) :=
  parseIntFrom exec s 0 radix parserMode sign .disallowEmptyString

def stringToBigInt (s : List UChar) : Run t (Option (JSBigInt t)) := parseInt s .ignoreExceptions

end JSBigInt

end Runtime

end JavaScriptCore
