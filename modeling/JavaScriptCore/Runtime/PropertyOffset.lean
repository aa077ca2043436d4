import JavaScriptCore.Wtf.MathExtras

/-!
# Property offsets

`runtime/PropertyOffset.h` and the capacities of `runtime/Structure.h:355-399`. The properties of an
object are numbered; those below the inline capacity are stored in the cell and have their number as
offset, the others are stored out of line and have offsets from `firstOutOfLineOffset` on.
-/

namespace JavaScriptCore.Runtime

def invalidOffset : Int := -1

def firstOutOfLineOffset : Int := 100

def isInlineOffset (offset : Int) : Bool := offset < firstOutOfLineOffset

def numberOfOutOfLineSlotsForLastOffset (offset : Int) : Nat :=
  if offset < firstOutOfLineOffset then 0 else (offset - firstOutOfLineOffset + 1).toNat

def numberOfSlotsForLastOffset (offset : Int) (inlineCapacity : Nat) : Nat :=
  if offset < inlineCapacity then (offset + 1).toNat
  else inlineCapacity + numberOfOutOfLineSlotsForLastOffset offset

def offsetForPropertyNumber (propertyNumber inlineCapacity : Nat) : Int :=
  if propertyNumber ≥ inlineCapacity then propertyNumber + firstOutOfLineOffset - inlineCapacity
  else propertyNumber

def initialOutOfLineCapacity : Nat := 4

/-- `Structure::outOfLineCapacity(PropertyOffset)`. -/
def outOfLineCapacity (lastOffset : Int) : Nat :=
  let outOfLineSize := numberOfOutOfLineSlotsForLastOffset lastOffset
  if outOfLineSize = 0 then 0
  else if outOfLineSize ≤ initialOutOfLineCapacity then initialOutOfLineCapacity
  else Wtf.roundUpToPowerOfTwo outOfLineSize

/-! ## Offsets of consecutive numbers -/

/-- The offset of the last of `total` properties. -/
def lastOffsetOf (total inlineCapacity : Nat) : Int :=
  if total = 0 then invalidOffset else offsetForPropertyNumber (total - 1) inlineCapacity

theorem lastOffsetOf_cases (total c : Nat) :
    total = 0 ∧ lastOffsetOf total c = -1 ∨
    0 < total ∧ total ≤ c ∧ lastOffsetOf total c = total - 1 ∨
    c < total ∧ lastOffsetOf total c = total - 1 + firstOutOfLineOffset - c := by
  simp only [lastOffsetOf, invalidOffset, offsetForPropertyNumber]
  split
  · exact .inl ⟨by assumption, rfl⟩
  · split
    · exact .inr (.inr (by omega))
    · exact .inr (.inl (by omega))

section

variable {c : Nat} (hc : (c : Int) ≤ firstOutOfLineOffset)

include hc

theorem offsetForPropertyNumber_lt {m n : Nat} (h : m < n) :
    offsetForPropertyNumber m c < offsetForPropertyNumber n c := by
  simp only [offsetForPropertyNumber, firstOutOfLineOffset] at *
  split <;> split <;> omega

theorem offsetForPropertyNumber_inj {m n : Nat}
    (h : offsetForPropertyNumber m c = offsetForPropertyNumber n c) : m = n := by
  obtain hlt | heq | hgt := Nat.lt_trichotomy m n
  · exact absurd h (ne_of_lt (offsetForPropertyNumber_lt hc hlt))
  · exact heq
  · exact absurd h.symm (ne_of_lt (offsetForPropertyNumber_lt hc hgt))

theorem offset_le_lastOffsetOf {n total : Nat} (h : n < total) :
    offsetForPropertyNumber n c ≤ lastOffsetOf total c := by
  rw [lastOffsetOf, if_neg (by omega)]
  obtain hlt | heq := Nat.lt_or_eq_of_le (Nat.le_sub_one_of_lt h)
  · exact (offsetForPropertyNumber_lt hc hlt).le
  · rw [heq]

theorem max_lastOffsetOf (total : Nat) :
    max (lastOffsetOf total c) (offsetForPropertyNumber total c) = lastOffsetOf (total + 1) c := by
  have hl : lastOffsetOf (total + 1) c = offsetForPropertyNumber total c := rfl
  rw [hl]
  refine max_eq_right ?_
  rw [lastOffsetOf]
  split
  · simp only [invalidOffset, offsetForPropertyNumber, firstOutOfLineOffset] at *
    split <;> omega
  · exact (offsetForPropertyNumber_lt hc (by omega)).le

theorem numberOfOutOfLineSlots_lastOffsetOf (total : Nat) :
    numberOfOutOfLineSlotsForLastOffset (lastOffsetOf total c) = total - c := by
  rw [numberOfOutOfLineSlotsForLastOffset]
  have hca := lastOffsetOf_cases total c
  split <;> omega

theorem numberOfSlots_lastOffsetOf (total : Nat) :
    numberOfSlotsForLastOffset (lastOffsetOf total c) c = total := by
  rw [numberOfSlotsForLastOffset, numberOfOutOfLineSlots_lastOffsetOf hc]
  have hca := lastOffsetOf_cases total c
  split <;> omega

end

/-! ## Capacities -/

/-- `outOfLineCapacity` as a function of the number of slots. -/
theorem outOfLineCapacity_eq {lo : Int} {size : Nat}
    (h : numberOfOutOfLineSlotsForLastOffset lo = size) (hmax : size ≤ 2 ^ 31) :
    outOfLineCapacity lo = if size = 0 then 0 else if size ≤ 4 then 4 else 2 ^ Nat.clog 2 size := by
  rw [outOfLineCapacity, h]
  by_cases hz : size = 0
  · rw [if_pos hz, if_pos hz]
  · rw [if_neg hz, if_neg hz, Wtf.roundUpToPowerOfTwo_eq (by omega) hmax]
    rfl

theorem size_le_outOfLineCapacity {lo : Int} {size : Nat}
    (h : numberOfOutOfLineSlotsForLastOffset lo = size) (hmax : size ≤ 2 ^ 31) :
    size ≤ outOfLineCapacity lo := by
  rw [outOfLineCapacity_eq h hmax]
  split
  · omega
  · split
    · assumption
    · exact Nat.le_pow_clog (by decide) size

theorem outOfLineCapacity_mono {first second : Int} {m n : Nat}
    (hm : numberOfOutOfLineSlotsForLastOffset first = m)
    (hn : numberOfOutOfLineSlotsForLastOffset second = n) (hle : m ≤ n) (hmax : n ≤ 2 ^ 31) :
    outOfLineCapacity first ≤ outOfLineCapacity second := by
  rw [outOfLineCapacity_eq hm (by omega), outOfLineCapacity_eq hn hmax]
  have hs : n ≤ 2 ^ Nat.clog 2 n := Nat.le_pow_clog (by decide) n
  have hpow : 2 ^ Nat.clog 2 m ≤ 2 ^ Nat.clog 2 n :=
    Nat.pow_le_pow_right (by decide) (Nat.clog_mono_right 2 hle)
  split_ifs <;> omega

end JavaScriptCore.Runtime
