import JavaScriptCore.Runtime.LiteralParser.StrictJSON
import JavaScriptCore.Wtf.MathExtras

/-!
# Quoting a string for JSON

`wtf/text/StringBuilderJSON.cpp:19-154`, with the parts of `wtf/text/StringBuilder.h` and `.cpp`
that it uses or that make the builders it is called on.

A builder has its characters in a buffer, or in a string that it retains; next to a buffer it may
also keep the string that was made of it. Storing a character into an 8-bit buffer keeps its low
byte. Whether a buffer can be allocated is an argument, as a failed allocation counts as an
overflow. -/

namespace JavaScriptCore.Wtf

open Json LiteralParser List

/-! ## Strings and builders -/

/-- A `WTF::String`. -/
structure WTFString where
  characters : Text
  is8Bit : Bool
  units : ∀ c ∈ characters, c < 2 ^ 16
  latin : is8Bit = true → ∀ c ∈ characters, c < 2 ^ 8

/-- `characters` are the first `m_length` ones, in `m_buffer` if there is one and in `m_string`
otherwise. -/
structure StringBuilder where
  characters : Text
  is8Bit : Bool
  hasOverflowed : Bool
  /-- The length of `m_buffer`. -/
  buffer : Option Nat
  /-- Whether `m_bufferCharacters8` points to the characters. It is null at first. -/
  bufferCharacters : Bool
  /-- `m_string`, and its width. -/
  string : Option (Text × Bool)
  /-- Memory has been read or written that does not hold characters of the builder. -/
  isCorrupted : Bool
  deriving DecidableEq

def StringBuilder.empty : StringBuilder := ⟨[], true, false, none, false, none, false⟩

/-- `String::MaxLength`. -/
def maxLength : Nat := 2 ^ 31 - 1

/-! ## Escapes -/

/-- `escapedFormsForJSON`: zero where a character stands for itself. -/
def escapedFormsForJSON (c : Nat) : Nat :=
  match c with
  | 0x08 => 0x62
  | 0x09 => 0x74
  | 0x0A => 0x6E
  | 0x0C => 0x66
  | 0x0D => 0x72
  | 0x22 => 0x22
  | 0x5C => 0x5C
  | _ => if c < 0x20 then 0x75 else 0

/-- A nibble as a lowercase hexadecimal digit. -/
def hexDigit (nibble : Nat) : Nat := nibble + if nibble < 10 then 0x30 else 0x61 - 10

def upperNibbleToLowercaseASCIIHexDigit (value : Nat) : Nat := hexDigit (value / 16)

def lowerNibbleToLowercaseASCIIHexDigit (value : Nat) : Nat := hexDigit (value % 16)

def isSurrogate (c : Nat) : Bool := 0xD800 ≤ c && c ≤ 0xDFFF

def isLead (c : Nat) : Bool := 0xD800 ≤ c && c ≤ 0xDBFF

def isTrail (c : Nat) : Bool := 0xDC00 ≤ c && c ≤ 0xDFFF

/-- The escape of an unpaired surrogate. -/
def hexEscape (c : Nat) : Text :=
  let upper := c / 2 ^ 8
  let lower := c % 2 ^ 8
  [0x5C, 0x75, upperNibbleToLowercaseASCIIHexDigit upper, lowerNibbleToLowercaseASCIIHexDigit upper,
    upperNibbleToLowercaseASCIIHexDigit lower, lowerNibbleToLowercaseASCIIHexDigit lower]

/-- What is written for the characters of a string. -/
def appendQuotedJSONStringInternal : Text → Text
  | [] => []
  | c :: rest =>
    if c ≤ 0xFF then
      let escaped := escapedFormsForJSON c
      if escaped = 0 then c :: appendQuotedJSONStringInternal rest
      else
        0x5C :: escaped ::
          ((if escaped = 0x75 then
              [0x30, 0x30, upperNibbleToLowercaseASCIIHexDigit c,
                lowerNibbleToLowercaseASCIIHexDigit c]
            else []) ++ appendQuotedJSONStringInternal rest)
    else if !isSurrogate c then c :: appendQuotedJSONStringInternal rest
    else match rest with
      | next :: after =>
        if isLead c && isTrail next then
          c :: next :: appendQuotedJSONStringInternal after
        else hexEscape c ++ appendQuotedJSONStringInternal (next :: after)
      | [] => hexEscape c

/-- A character as an element of an 8-bit or a 16-bit buffer. -/
def bufferElement (is8Bit : Bool) (c : Nat) : Nat := if is8Bit then c % 2 ^ 8 else c

namespace StringBuilder

def didOverflow (builder : StringBuilder) : StringBuilder := { builder with hasOverflowed := true }

def expandedCapacity (capacity requiredLength : Nat) : Nat :=
  max requiredLength (max 16 (min (capacity * 2) maxLength))

/-- The builder with its characters in a new buffer. -/
def inBuffer (builder : StringBuilder) (length : Nat) : StringBuilder :=
  { builder with buffer := some length, bufferCharacters := true, string := none }

/-- Appending characters that an 8-bit buffer holds. -/
def append (builder : StringBuilder) (text : Text) : StringBuilder :=
  let length := builder.characters.length
  let requiredLength := length + text.length
  if text.isEmpty || builder.hasOverflowed then builder
  else if requiredLength > maxLength then builder.didOverflow
  else
    let capacity := builder.buffer.getD length
    let capacity := if builder.buffer.isSome ∧ requiredLength ≤ capacity then capacity
      else expandedCapacity capacity requiredLength
    { builder.inBuffer capacity with characters := builder.characters ++ text }

/-- `append(const String&)` to a builder that has neither characters nor a buffer. -/
def retain (builder : StringBuilder) (string : WTFString) : StringBuilder :=
  if builder.hasOverflowed || string.characters.isEmpty then builder
  else { builder with
    characters := string.characters
    is8Bit := string.is8Bit
    string := some (string.characters, string.is8Bit)
    bufferCharacters := false }

def resize (builder : StringBuilder) (newSize : Nat) : StringBuilder :=
  if builder.hasOverflowed || newSize == builder.characters.length then builder
  else
    let characters := builder.characters.take newSize
    { builder with
      characters
      string := if builder.buffer.isSome then none else some (characters, builder.is8Bit) }

def canShrink (builder : StringBuilder) : Bool :=
  let length := builder.characters.length
  builder.buffer.any (length + (length >>> 2) < ·)

/-- What is returned, and the builder with its string (`shrinkToFit`, `reifyString`). -/
def toString (builder : StringBuilder) : Text × StringBuilder :=
  match builder.string with
  | some (text, _) => (text, builder)
  | none =>
    (builder.characters, { builder with
      buffer := if builder.canShrink then none else builder.buffer
      string := some (builder.characters, builder.is8Bit) })

/-- From `m_bufferCharacters8`, which is read once the new buffer is there. -/
def allocateBufferUpConvert (builder : StringBuilder) (requiredLength : Nat) (allocates : Bool) :
    StringBuilder :=
  if !allocates then builder.didOverflow
  else { builder.inBuffer requiredLength with
    is8Bit := false
    isCorrupted := builder.isCorrupted ||
      (!builder.bufferCharacters && !builder.characters.isEmpty) }

/-- What `reserveCapacity` takes for the width: that of the buffer or of `m_string`, or eight bits
for no characters. -/
def reservesLatin (builder : StringBuilder) : Bool :=
  if builder.buffer.isSome then builder.is8Bit
  else builder.characters.isEmpty || builder.string.elim true (·.2)

def reserveCapacity (builder : StringBuilder) (newCapacity : Nat) (allocates : Bool) :
    StringBuilder :=
  if builder.buffer.any (newCapacity ≤ ·) then builder
  else if !allocates then builder.didOverflow
  else { builder.inBuffer newCapacity with
    isCorrupted := builder.isCorrupted || builder.reservesLatin != builder.is8Bit }

/-- The room that is asked for. -/
def allocationSize (builder : StringBuilder) (string : WTFString) : Nat :=
  let maximumCapacityRequired := builder.characters.length + (2 + string.characters.length * 6)
  max maximumCapacityRequired (roundUpToPowerOfTwo maximumCapacityRequired)

/-- The builder with the room. -/
def reserveQuoted (builder : StringBuilder) (string : WTFString) (allocates : Bool) :
    StringBuilder :=
  if builder.is8Bit && !string.is8Bit then
    builder.allocateBufferUpConvert (builder.allocationSize string) allocates
  else builder.reserveCapacity (builder.allocationSize string) allocates

def appendQuotedJSONString (builder : StringBuilder) (string : WTFString) (allocates : Bool) :
    StringBuilder :=
  if builder.hasOverflowed then builder
  else if builder.characters.length + (2 + string.characters.length * 6) ≥ 2 ^ 32 then
    builder.didOverflow
  else if builder.allocationSize string > maxLength then builder.didOverflow
  else
    let builder := builder.reserveQuoted string allocates
    if builder.hasOverflowed then builder
    else
      let written := 0x22 :: appendQuotedJSONStringInternal string.characters ++ [0x22]
      { builder with
        characters := builder.characters ++ written.map (bufferElement builder.is8Bit) }

end StringBuilder

/-! ## What is written -/

/-- Both quotes, and the characters between them. -/
def quoted (s : Text) : Text := 0x22 :: appendQuotedJSONStringInternal s ++ [0x22]

/-- One string written character by character, the way each is written. -/
inductive Written : Text → Text → Prop where
  | nil : Written [] []
  | plain {c : Nat} {s w : Text} : 0x20 ≤ c → c ≠ 0x22 → c ≠ 0x5C → isSurrogate c = false →
      Written s w → Written (c :: s) (c :: w)
  | escape {c e : Nat} {s w : Text} : ShortEscape e c → Written s w →
      Written (c :: s) (0x5C :: e :: w)
  | hex {c : Nat} {s w : Text} : c < 2 ^ 16 → Written s w → Written (c :: s) (hexEscape c ++ w)
  | pair {c d : Nat} {s w : Text} : isLead c = true → isTrail d = true → Written s w →
      Written (c :: d :: s) (c :: d :: w)

theorem escapedFormsForJSON_cases (c : Nat) :
    (escapedFormsForJSON c = 0 ∧ 0x20 ≤ c ∧ c ≠ 0x22 ∧ c ≠ 0x5C) ∨
      (escapedFormsForJSON c ≠ 0 ∧ escapedFormsForJSON c ≠ 0x75 ∧
        ShortEscape (escapedFormsForJSON c) c) ∨
      (escapedFormsForJSON c = 0x75 ∧ c < 0x20) := by
  unfold escapedFormsForJSON
  split
  case h_8 =>
    split
    · exact .inr (.inr ⟨rfl, ‹_›⟩)
    · exact .inl ⟨rfl, by omega, by assumption, by assumption⟩
  all_goals exact .inr (.inl ⟨by decide, by decide, by constructor⟩)

/-- Below the space the two leading digits are zero. -/
theorem hexEscape_of_lt {c : Nat} (h : c < 0x20) :
    hexEscape c = [0x5C, 0x75, 0x30, 0x30, upperNibbleToLowercaseASCIIHexDigit c,
      lowerNibbleToLowercaseASCIIHexDigit c] := by
  have hu : c / 2 ^ 8 = 0 := by omega
  have hl : c % 2 ^ 8 = c := by omega
  rw [hexEscape, hu, hl]
  rfl

variable {n : Nat} {s w : Text}

theorem written (hu : ∀ c ∈ s, c < 2 ^ 16) : Written s (appendQuotedJSONStringInternal s) := by
  fun_induction appendQuotedJSONStringInternal s <;> try simp only [forall_mem_cons] at hu
  case case1 => exact .nil
  case case2 c rest hl escaped hpl ih =>
    obtain ⟨-, hlow, hq, hes⟩ | ⟨h, -⟩ | ⟨h, -⟩ := escapedFormsForJSON_cases c
    · exact .plain hlow hq hes (by simp [isSurrogate]; omega) (ih hu.2)
    · exact absurd hpl h
    · exact absurd (h.symm.trans hpl) (by decide)
  case case3 c rest hl escaped he ih =>
    obtain ⟨h, -⟩ | ⟨-, h, hsh⟩ | ⟨h, hlow⟩ := escapedFormsForJSON_cases c
    · exact absurd h he
    · rw [if_neg h]
      exact .escape hsh (ih hu.2)
    · have := Written.hex hu.1 (ih hu.2)
      rw [hexEscape_of_lt hlow] at this
      simpa [escaped, h] using this
  case case4 c rest hl hs ih =>
    exact .plain (by omega) (by omega) (by omega) (by simpa using hs) (ih hu.2)
  case case5 c hl hs next after hp ih =>
    simp only [Bool.and_eq_true] at hp
    exact .pair hp.1 hp.2 (ih hu.2.2)
  case case6 c hl hs next after hp ih => exact .hex hu.1 (ih (forall_mem_cons.mpr hu.2))
  case case7 c hl hs => exact .hex hu.1 .nil

theorem isHexDigit_hexDigit (h : n < 16) : isHexDigit (hexDigit n) = true := by
  revert n
  decide

theorem hexValue_hexDigit (h : n < 16) : hexValue (hexDigit n) = n := by
  revert n
  decide

/-- The lexer reads the string back. -/
theorem Written.characters (h : Written s w) (r : Text) :
    Characters (w ++ 0x22 :: r) s (0x22 :: r) := by
  induction h with
  | nil => exact .nil _
  | plain hlow hq hes _ _ ih => exact .plain hlow hq hes ih
  | escape hs _ ih => exact .escape hs ih
  | @hex c s w hc _ ih =>
    have hv := Characters.hex (isHexDigit_hexDigit (n := c / 2 ^ 8 / 16) (by omega))
      (isHexDigit_hexDigit (n := c / 2 ^ 8 % 16) (by omega))
      (isHexDigit_hexDigit (n := c % 2 ^ 8 / 16) (by omega))
      (isHexDigit_hexDigit (n := c % 2 ^ 8 % 16) (by omega)) ih
    rw [hexValue_hexDigit (by omega), hexValue_hexDigit (by omega), hexValue_hexDigit (by omega),
      hexValue_hexDigit (by omega)] at hv
    have hsum : c / 2 ^ 8 / 16 * 0x1000 + c / 2 ^ 8 % 16 * 0x100 + c % 2 ^ 8 / 16 * 0x10 +
        c % 2 ^ 8 % 16 = c := by omega
    rw [hsum] at hv
    exact hv
  | @pair c d s w hl ht _ ih =>
    simp only [isLead, isTrail, Bool.and_eq_true, decide_eq_true_eq] at hl ht
    exact .plain (by omega) (by omega) (by omega) (.plain (by omega) (by omega) (by omega) ih)

theorem hexDigit_range (h : n < 16) : 0x20 ≤ hexDigit n ∧ hexDigit n ≤ 0xFF := by
  unfold hexDigit
  split <;> omega

theorem hexEscape_range {c : Nat} (hc : c < 2 ^ 16) :
    ∀ d ∈ hexEscape c, 0x20 ≤ d ∧ d ≤ 0xFF := by
  intro d hd
  simp only [hexEscape, upperNibbleToLowercaseASCIIHexDigit, lowerNibbleToLowercaseASCIIHexDigit,
    mem_cons, not_mem_nil, or_false] at hd
  obtain rfl | rfl | rfl | rfl | rfl | rfl := hd
  · decide
  · decide
  all_goals exact hexDigit_range (by omega)

/-- What is written is printable, and either a character of the string or a Latin one. -/
theorem Written.mem (h : Written s w) : ∀ d ∈ w, 0x20 ≤ d ∧ (d ∈ s ∨ d ≤ 0xFF) := by
  induction h with
  | nil => simp
  | plain hlow _ _ _ _ ih => grind
  | @escape c e s w hs _ ih =>
    have he : 0x20 ≤ e ∧ e ≤ 0xFF := by cases hs <;> decide
    grind
  | hex hc _ ih =>
    have hc := hexEscape_range hc
    grind
  | pair hl ht _ ih =>
    simp only [isLead, isTrail, Bool.and_eq_true, decide_eq_true_eq] at hl ht
    grind

theorem Written.length (h : Written s w) : w.length ≤ 6 * s.length := by
  induction h with
  | nil => simp
  | plain | escape | pair => simp only [length_cons]; omega
  | hex _ _ ih =>
    simp only [hexEscape, length_append, length_cons, length_nil]
    omega

/-! ## The length limit -/

/-- A length fits when the next power of two does. -/
theorem max_roundUp_le_iff {v : Nat} (hpos : 0 < v) (hv : v < 2 ^ 32) :
    max v (roundUpToPowerOfTwo v) ≤ maxLength ↔ v ≤ 2 ^ 30 := by
  have hp : (v + 2 ^ 32 - 1) % 2 ^ 32 = v - 1 := by omega
  rw [Nat.max_le, maxLength, roundUpToPowerOfTwo, hp]
  constructor
  · rintro ⟨hle, hr⟩
    by_contra hl
    have hall := smear_all (n := 30) (v := v - 1) (by omega) (by omega) (by decide)
    rw [hall] at hr
    exact absurd hr (by decide)
  · intro hsm
    have hlt : v - 1 < 2 ^ 30 := by omega
    have hs := smear_lt 16 (smear_lt 8 (smear_lt 4 (smear_lt 2 (smear_lt 1 hlt))))
    omega

/-! ## Quoted strings -/

variable (hu : ∀ c ∈ s, c < 2 ^ 16)

include hu

theorem quoted_length : (quoted s).length ≤ 6 * s.length + 2 := by
  have := (written hu).length
  simp only [quoted, length_append, length_cons, length_nil]
  omega

theorem quoted_mem : ∀ d ∈ quoted s, 0x20 ≤ d ∧ (d ∈ s ∨ d ≤ 0xFF) := by
  intro d hd
  obtain hd | hd := mem_append.mp hd
  · obtain rfl | hd := mem_cons.mp hd
    · exact ⟨by decide, .inr (by decide)⟩
    · exact (written hu).mem d hd
  · obtain rfl := mem_singleton.mp hd
    exact ⟨by decide, .inr (by decide)⟩

theorem quoted_literal (r : Text) : StringLiteral (quoted s ++ r) s r := by
  have := (written hu).characters r
  rw [quoted, append_assoc, cons_append]
  exact .quoted this

omit hu

/-- No width, of the string or of the builder, changes what is appended. -/
theorem map_bufferElement_quoted (str : WTFString) (is8Bit : Bool) :
    (quoted str.characters).map (bufferElement (is8Bit && str.is8Bit)) = quoted str.characters := by
  refine (map_congr_left fun d hd => ?_).trans (map_id _)
  cases hw : is8Bit && str.is8Bit with
  | false => rfl
  | true =>
    have hl := str.latin (Bool.and_eq_true_iff.mp hw).2
    have hd : d < 2 ^ 8 := by
      obtain hd | hd := (quoted_mem str.units d hd).2
      · exact hl d hd
      · omega
    exact Nat.mod_eq_of_lt hd

namespace StringBuilder

variable {bld : StringBuilder} {str : WTFString} {allocates : Bool}

theorem is8Bit_reserveQuoted (h : (bld.reserveQuoted str allocates).hasOverflowed = false)
    (ho : bld.hasOverflowed = false) :
    (bld.reserveQuoted str allocates).is8Bit = (bld.is8Bit && str.is8Bit) := by
  unfold reserveQuoted allocateBufferUpConvert reserveCapacity at *
  split_ifs at * <;> simp_all [inBuffer, didOverflow]

theorem characters_reserveQuoted :
    (bld.reserveQuoted str allocates).characters = bld.characters := by
  unfold reserveQuoted allocateBufferUpConvert reserveCapacity
  split_ifs <;> rfl

/-- A builder that has not overflowed appends the quoted string, or overflows. -/
theorem appendQuotedJSONString_eq (h : bld.hasOverflowed = false) :
    bld.appendQuotedJSONString str allocates =
      if bld.characters.length + (2 + str.characters.length * 6) ≤ 2 ^ 30 then
        let reserved := bld.reserveQuoted str allocates
        if reserved.hasOverflowed then reserved
        else { reserved with characters := bld.characters ++ quoted str.characters }
      else bld.didOverflow := by
  unfold appendQuotedJSONString
  rw [h, if_neg Bool.false_ne_true]
  split
  · rw [if_neg (by omega)]
  have hl := max_roundUp_le_iff
    (v := bld.characters.length + (2 + str.characters.length * 6)) (by omega) (by omega)
  rw [← allocationSize] at hl
  split
  · rw [if_neg fun hf => absurd (hl.mpr hf) (by omega)]
  rw [if_pos (hl.mp (by omega))]
  dsimp only
  split
  · rfl
  rename_i ho
  rw [is8Bit_reserveQuoted (Bool.eq_false_iff.mpr ho) h, characters_reserveQuoted, ← quoted,
    map_bufferElement_quoted]

/-- What a buffer that can be allocated is like. -/
theorem reserveQuoted_true (bld : StringBuilder) (str : WTFString) :
    bld.reserveQuoted str true =
      if bld.is8Bit = true ∧ str.is8Bit = false then
        { bld.inBuffer (bld.allocationSize str) with
          is8Bit := false
          isCorrupted := bld.isCorrupted || (!bld.bufferCharacters && !bld.characters.isEmpty) }
      else if bld.buffer.any (bld.allocationSize str ≤ ·) then bld
      else
        { bld.inBuffer (bld.allocationSize str) with
          isCorrupted := bld.isCorrupted || bld.reservesLatin != bld.is8Bit } := by
  simp [reserveQuoted, allocateBufferUpConvert, reserveCapacity]

/-- A string is that of the characters, and holds them where there is no buffer. -/
structure Sound (builder : StringBuilder) : Prop where
  intact : builder.isCorrupted = false
  reified : ∀ string ∈ builder.string, string = (builder.characters, builder.is8Bit)
  retained : builder.buffer = none → builder.characters ≠ [] → builder.string ≠ none
  bufferCharacters : builder.buffer ≠ none → builder.bufferCharacters = true

/-- A retained 8-bit string is read through a null pointer. -/
def ReadsNull (builder : StringBuilder) (string : WTFString) : Prop :=
  builder.is8Bit = true ∧ string.is8Bit = false ∧ builder.bufferCharacters = false ∧
    builder.characters ≠ []

/-- There is room in the buffer, and a string that stays. -/
def Stale (builder : StringBuilder) (string : WTFString) : Prop :=
  (builder.is8Bit = true → string.is8Bit = true) ∧ builder.string ≠ none ∧
    ∃ length ∈ builder.buffer, builder.allocationSize string ≤ length

/-- An 8-bit buffer is made for 16-bit characters. -/
def Narrow (builder : StringBuilder) : Prop :=
  builder.is8Bit = false ∧ builder.buffer = none ∧ builder.characters = []

theorem Sound.reserveQuoted_iff (h : bld.Sound) :
    ((bld.reserveQuoted str true).isCorrupted = false ∧
        (bld.reserveQuoted str true).string = none) ↔
      ¬bld.ReadsNull str ∧ ¬bld.Stale str ∧ ¬bld.Narrow := by
  obtain ⟨hi, hr, hret, hc⟩ := h
  rw [reserveQuoted_true]
  split_ifs with hup hroom
  · simp [inBuffer, hi, ReadsNull, Stale, Narrow, hup.1, hup.2]
  · obtain ⟨length, hbuf, hle⟩ := (Option.any_eq_true _ _).mp hroom
    rw [decide_eq_true_eq] at hle
    simp only [ReadsNull, Stale, Narrow, hbuf, Option.mem_def, Option.some.injEq, exists_eq_left']
    grind
  · have hno : ¬∃ length ∈ bld.buffer, bld.allocationSize str ≤ length := by
      simpa [Option.any_eq_true] using hroom
    have hw : bld.reservesLatin = bld.is8Bit ↔ ¬bld.Narrow := by
      rw [reservesLatin, Narrow]
      cases hbuf : bld.buffer with
      | some length => simp
      | none =>
        by_cases hch : bld.characters = []
        · cases bld.is8Bit <;> simp [hch]
        · obtain ⟨string, hstring⟩ := Option.ne_none_iff_exists'.mp (hret hbuf hch)
          simp [hch, hstring, hr string hstring]
    simp only [inBuffer, ReadsNull, Stale, hno, ← hw, hi, Bool.false_or, bne_eq_false_iff_eq]
    grind

/-- All characters are in the buffer, and there is no string. -/
structure Buffered (builder : StringBuilder) : Prop where
  intact : builder.isCorrupted = false
  string : builder.string = none
  buffer : builder.buffer = none → builder.characters = [] ∧ builder.is8Bit = true
  bufferCharacters : builder.buffer ≠ none → builder.bufferCharacters = true

theorem Sound.reserveQuoted (h : bld.Sound)
    (hn : ¬bld.ReadsNull str ∧ ¬bld.Stale str ∧ ¬bld.Narrow) :
    (bld.reserveQuoted str true).Buffered ∧
      (bld.reserveQuoted str true).buffer ≠ none ∧
      (bld.reserveQuoted str true).hasOverflowed = bld.hasOverflowed := by
  obtain ⟨hi, hstr⟩ := h.reserveQuoted_iff.mpr hn
  rw [reserveQuoted_true] at hi hstr ⊢
  split_ifs at hi hstr ⊢ with hup hroom
  · exact ⟨⟨hi, hstr, nofun, fun _ => rfl⟩, nofun, rfl⟩
  · have hb : bld.buffer ≠ none := fun hb => by simp [hb] at hroom
    exact ⟨⟨hi, hstr, fun hn => absurd hn hb, h.bufferCharacters⟩, hb, rfl⟩
  · exact ⟨⟨hi, hstr, nofun, fun _ => rfl⟩, nofun, rfl⟩

/-- A quoted string that does no harm is in the buffer. -/
theorem Sound.appendQuotedJSONString (h : bld.Sound) (ho : bld.hasOverflowed = false)
    (hfits : bld.characters.length + (2 + str.characters.length * 6) ≤ 2 ^ 30)
    (hn : ¬bld.ReadsNull str ∧ ¬bld.Stale str ∧ ¬bld.Narrow) :
    (bld.appendQuotedJSONString str true).Buffered ∧
      (bld.appendQuotedJSONString str true).hasOverflowed = false ∧
      (bld.appendQuotedJSONString str true).characters =
        bld.characters ++ quoted str.characters := by
  obtain ⟨hb, hne, hover⟩ := h.reserveQuoted hn
  rw [ho] at hover
  rw [appendQuotedJSONString_eq ho, if_pos hfits]
  simp only [hover, Bool.false_eq_true, if_false]
  exact ⟨⟨hb.intact, hb.string, fun h => absurd h hne, hb.bufferCharacters⟩, trivial, trivial⟩

theorem Buffered.sound (h : bld.Buffered) : bld.Sound where
  intact := h.intact
  reified string hs := by
    rw [h.string] at hs
    cases hs
  retained hb hne := absurd (h.buffer hb).1 hne
  bufferCharacters := h.bufferCharacters

theorem Buffered.appendQuotedJSONString (h : bld.Buffered) (str : WTFString)
    (ho : bld.hasOverflowed = false)
    (hfits : bld.characters.length + (2 + str.characters.length * 6) ≤ 2 ^ 30) :
    (bld.appendQuotedJSONString str true).Buffered ∧
      (bld.appendQuotedJSONString str true).hasOverflowed = false ∧
      (bld.appendQuotedJSONString str true).characters =
        bld.characters ++ quoted str.characters := by
  refine h.sound.appendQuotedJSONString ho hfits ⟨?_, fun hs => hs.2.1 h.string, ?_⟩
  · rintro ⟨-, -, hb, hne⟩
    by_cases hn : bld.buffer = none
    · exact hne (h.buffer hn).1
    · rw [h.bufferCharacters hn] at hb
      cases hb
  · rintro ⟨hw, hn, -⟩
    rw [(h.buffer hn).2] at hw
    cases hw

theorem Buffered.append (h : bld.Buffered) (text : Text) : (bld.append text).Buffered := by
  rw [StringBuilder.append]
  split
  · exact h
  split
  · exact ⟨h.intact, h.string, h.buffer, h.bufferCharacters⟩
  · exact ⟨h.intact, rfl, nofun, fun _ => rfl⟩

theorem Buffered.resize (h : bld.Buffered) {size : Nat} (hle : size ≤ bld.characters.length) :
    (bld.resize size).Buffered := by
  rw [StringBuilder.resize]
  split
  · exact h
  rename_i hne
  have hb : bld.buffer ≠ none := by
    intro hn
    rw [(h.buffer hn).1, length_nil] at hle hne
    simp [Nat.le_zero.mp hle] at hne
  exact ⟨h.intact, if_pos (Option.isSome_iff_ne_none.mpr hb), fun hn => absurd hn hb,
    h.bufferCharacters⟩

/-- The builders that calls make, as long as no quoted string does harm. -/
inductive Built : StringBuilder → Prop where
  | empty : Built .empty
  | append {bld : StringBuilder} (text : Text) : Built bld → Built (bld.append text)
  | retain {bld : StringBuilder} (str : WTFString) : Built bld → bld.characters = [] →
      bld.buffer = none → Built (bld.retain str)
  | resize {bld : StringBuilder} (newSize : Nat) : Built bld → Built (bld.resize newSize)
  | toString {bld : StringBuilder} : Built bld → Built bld.toString.2
  | quoted {bld : StringBuilder} {str : WTFString} : Built bld → bld.hasOverflowed = false →
      ¬bld.ReadsNull str → ¬bld.Stale str → ¬bld.Narrow →
        Built (bld.appendQuotedJSONString str true)

theorem Built.sound (h : Built bld) : bld.Sound := by
  induction h with
  | empty => exact ⟨rfl, nofun, fun _ h => absurd rfl h, fun h => absurd rfl h⟩
  | @append bld text _ ih =>
    rw [StringBuilder.append]
    split
    · exact ih
    split
    · exact ⟨ih.intact, ih.reified, ih.retained, ih.bufferCharacters⟩
    · exact ⟨ih.intact, nofun, nofun, fun _ => rfl⟩
  | @retain bld str _ _ hb ih =>
    rw [StringBuilder.retain]
    split
    · exact ih
    · refine ⟨ih.intact, ?_, fun _ _ => nofun, fun h => absurd hb h⟩
      rintro _ ⟨⟩
      rfl
  | @resize bld newSize _ ih =>
    rw [StringBuilder.resize]
    split
    · exact ih
    cases hb : bld.buffer with
    | none =>
      refine ⟨ih.intact, ?_, fun _ _ => nofun, fun h => absurd rfl h⟩
      rintro _ ⟨⟩
      rfl
    | some length => exact ⟨ih.intact, nofun, nofun, fun _ => ih.bufferCharacters (by simp [hb])⟩
  | @toString bld _ ih =>
    rw [StringBuilder.toString]
    split
    · exact ih
    · refine ⟨ih.intact, ?_, fun _ _ => nofun, fun h => ?_⟩
      · rintro _ ⟨⟩
        rfl
      · exact ih.bufferCharacters fun hb => h (by simp [hb])
  | @quoted bld str _ ho hn hs hw ih =>
    by_cases hfits : bld.characters.length + (2 + str.characters.length * 6) ≤ 2 ^ 30
    · exact (ih.appendQuotedJSONString ho hfits ⟨hn, hs, hw⟩).1.sound
    · rw [appendQuotedJSONString_eq ho, if_neg hfits]
      exact ⟨ih.intact, ih.reified, ih.retained, ih.bufferCharacters⟩

end StringBuilder

end JavaScriptCore.Wtf
