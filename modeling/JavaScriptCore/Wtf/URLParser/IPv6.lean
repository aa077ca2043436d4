import JavaScriptCore.Wtf.URLParser.IPv4

/-!
# IPv6 hosts

`wtf/URLParser.cpp:2116-2182, 2337-2483`. The iterator passes over tabs and newlines wherever it is
advanced and reports them; here they are taken out of the text before it is read.
-/

namespace JavaScriptCore.Wtf.URLParser

open Json (Text)

structure IPv6Address where
  pieces : List Nat
  length_eq : pieces.length = 8
  lt : ∀ piece ∈ pieces, piece < 2 ^ 16

def zeroSequenceLength (address : List Nat) (begin : Nat) : Nat :=
  ((address.drop begin).takeWhile (· = 0)).length

/-- The loop of `findLongestZeroSequence`, with where the longest sequence so far begins and how
long it is. -/
def findLongestFrom (address : List Nat) (i : Nat) (longest : Option (Nat × Nat)) :
    Option (Nat × Nat) :=
  if i < 8 then
    let length := zeroSequenceLength address i
    findLongestFrom address (i + length + 1)
      (if 1 < length ∧ longest.all (·.2 < length) then some (i, length) else longest)
  else longest
termination_by 8 - i

def findLongestZeroSequence (address : List Nat) : Option Nat :=
  (findLongestFrom address 0 none).map Prod.fst

def lowerNibbleToLowercaseASCIIHexDigit (nibble : Nat) : Nat :=
  if nibble < 10 then nibble + 0x30 else nibble - 10 + 0x61

def serializeIPv6Piece (piece : Nat) : Text :=
  let nibble0 := piece / 2 ^ 12
  let nibble1 := piece / 2 ^ 8 % 16
  let nibble2 := piece / 2 ^ 4 % 16
  (if nibble0 ≠ 0 then [lowerNibbleToLowercaseASCIIHexDigit nibble0] else []) ++
    (if nibble0 ≠ 0 ∨ nibble1 ≠ 0 then [lowerNibbleToLowercaseASCIIHexDigit nibble1] else []) ++
    (if nibble0 ≠ 0 ∨ nibble1 ≠ 0 ∨ nibble2 ≠ 0 then
      [lowerNibbleToLowercaseASCIIHexDigit nibble2] else []) ++
    [lowerNibbleToLowercaseASCIIHexDigit (piece % 16)]

/-- The loop of `serializeIPv6`. -/
def serializeFrom (address : List Nat) (compressPointer : Option Nat) (piece : Nat) : Text :=
  if piece < 8 then
    let compresses := compressPointer = some piece
    let next := if compresses then piece + zeroSequenceLength address piece else piece
    (if compresses then if piece = 0 then [0x3a, 0x3a] else [0x3a] else []) ++
      if next = 8 then []
      else serializeIPv6Piece (address.getD next 0) ++ (if next < 7 then [0x3a] else []) ++
        serializeFrom address compressPointer (next + 1)
  else []
termination_by 8 - piece
decreasing_by split <;> omega

def serializeIPv6 (address : IPv6Address) : Text :=
  0x5b :: serializeFrom address.pieces (findLongestZeroSequence address.pieces) 0 ++ [0x5d]

/-- The loop of `parseIPv4PieceInsideIPv6`, with the text that is left at the end. -/
def parseIPv4PieceFrom (piece : Nat) (leadingZeros : Bool) : Text → Option (Nat × Text)
  | [] => none
  | c :: text =>
    match digit 10 c with
    | none => none
    | some d =>
      if piece = 0 ∧ d = 0 ∧ leadingZeros then none
      else if piece * 10 + d > 255 then none
      else if text = [] ∨ text.head? = some 0x2e then
        if piece * 10 + d ≠ 0 ∧ (leadingZeros || (piece = 0 && d = 0)) then none
        else some (piece * 10 + d, text)
      else parseIPv4PieceFrom (piece * 10 + d) (leadingZeros || (piece = 0 && d = 0)) text

/-- The loop of `parseIPv4AddressInsideIPv6`, with so many pieces after the next one. -/
def parseIPv4AddressFrom : Nat → Nat → Text → Option Nat
  | 0, address, text => do
    let (piece, rest) ← parseIPv4PieceFrom 0 false text
    if rest = [] then some (address * 256 + piece) else none
  | more + 1, address, text => do
    let (piece, rest) ← parseIPv4PieceFrom 0 false text
    if rest.head? = some 0x2e then parseIPv4AddressFrom more (address * 256 + piece) rest.tail
    else none

def parseIPv4AddressInsideIPv6 (text : Text) : Option Nat := parseIPv4AddressFrom 3 0 text

/-- What is known of a piece while its digits are read. -/
structure Digits where
  value : Nat := 0
  length : Nat := 0
  leadingZeros : Bool := false
  violation : Bool := false
  deriving DecidableEq

/-- The loop over the digits of a piece, with room for so many more of them. -/
def readDigits : Nat → Digits → Text → Digits × Text
  | 0, digits, text => (digits, text)
  | _ + 1, digits, [] => (digits, [])
  | room + 1, digits, c :: text =>
    match digit 16 c with
    | none => (digits, c :: text)
    | some d => readDigits room {
        value := digits.value * 16 + d
        length := digits.length + 1
        leadingZeros := digits.leadingZeros || (c = 0x30 && digits.length = 0)
        violation := digits.violation || (0x41 ≤ c && c ≤ 0x5a) } text

/-- The pieces before `piecePointer`; those after it are zero. -/
structure Reading where
  pieces : List Nat := []
  compressPointer : Option Nat := none
  violation : Bool := false

def Reading.addPiece (reading : Reading) (digits : Digits) : Reading :=
  { reading with
    pieces := reading.pieces ++ [digits.value]
    violation := reading.violation || digits.violation ||
      (digits.value ≠ 0 && digits.leadingZeros || digits.value = 0 && 1 < digits.length) }

/-- The address of an IPv4 host where the reading may end in one. -/
def Reading.ipv4Tail (reading : Reading) (text : Text) : Option Nat :=
  if reading.pieces.length = 6 ∨ reading.compressPointer.isSome ∧ reading.pieces.length < 6 then
    parseIPv4AddressInsideIPv6 text
  else none

/-- The loop of `parseIPv6Host`, with room for so many more pieces. -/
def parsePieces : Nat → Reading → Text → Option Reading
  | _, reading, [] => some reading
  | 0, _, _ :: _ => none
  | room + 1, reading, c :: text =>
    if c = 0x3a then
      if reading.compressPointer.isSome then none
      else parsePieces room { reading with
        pieces := reading.pieces ++ [0]
        compressPointer := some (reading.pieces.length + 1) } text
    else match reading.ipv4Tail (c :: text) with
      | some ipv4 =>
        if reading.compressPointer.isSome ∧ reading.pieces.length = 5 then none
        else some { reading with
          pieces := reading.pieces ++ [ipv4 / 2 ^ 16, ipv4 % 2 ^ 16]
          violation := true }
      | none =>
        let (digits, rest) := readDigits 4 {} (c :: text)
        match rest with
        | [] => some (reading.addPiece digits)
        | c :: rest =>
          if room = 0 ∨ c ≠ 0x3a then none else parsePieces room (reading.addPiece digits) rest

/-- The loop that moves the pieces after the compressed ones to the end. -/
def swapPieces (compressPointer : Nat) : Nat → Nat → (Nat → Nat) → Nat → Nat
  | 0, _, address => address
  | swaps + 1, piecePointer, address =>
    swapPieces compressPointer swaps (piecePointer - 1) fun i =>
      if i = piecePointer then address (compressPointer + swaps)
      else if i = compressPointer + swaps then address piecePointer
      else address i

def Reading.address (reading : Reading) : Option (List Nat) :=
  match reading.compressPointer with
  | some compressPointer =>
    some ((List.range 8).map (swapPieces compressPointer
      (reading.pieces.length - compressPointer) 7 (reading.pieces.getD · 0)))
  | none => if reading.pieces.length ≠ 8 then none else some reading.pieces

def isTabOrNewline (c : Nat) : Bool := c = 0x9 || c = 0xa || c = 0xd

/-- Where `parseIPv6Host` begins, at the text after the bracket. -/
def readPieces (reported : Bool) : Text → Option Reading
  | [] => none
  | 0x3a :: 0x3a :: text => parsePieces 7 ⟨[0], some 1, reported⟩ text
  | 0x3a :: _ => none
  | text => parsePieces 8 ⟨[], none, reported⟩ text

/-- The text begins with the bracket and ends before the other one. The result comes with whether a
syntax violation was reported. -/
def parseIPv6Host (text : Text) : Option (List Nat × Bool) := do
  let reading ← readPieces (text.tail.any isTabOrNewline) (text.tail.filter (!isTabOrNewline ·))
  let address ← reading.address
  return (address, reading.violation ||
    reading.compressPointer ≠ (findLongestZeroSequence address).map (· + 1))

end JavaScriptCore.Wtf.URLParser
