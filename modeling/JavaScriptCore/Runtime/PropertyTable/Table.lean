import JavaScriptCore.Collections.OpenAddressing
import JavaScriptCore.Runtime.PropertyOffset
import JavaScriptCore.Wtf.BitVector

/-!
# `PropertyTable`

`runtime/PropertyMapHashTable.h:77-575` and `runtime/PropertyTable.cpp`: the map from property names
to offsets and attributes behind a `Structure`. One allocation holds an index of `m_indexSize`
entry numbers and, after it, half as many entries in the order of their insertion, with one more
that is never written. Entry numbers in the index are 1-based; 0 is an empty slot, and the number of
the extra entry marks a slot whose property was removed.

A key is a `UniquedStringImpl*`, compared by address. `none` is the result of an operation that does
not return: an access outside of the index, the entries or the allocation, a probe that never ends,
a failed `RELEASE_ASSERT`. Indices and capacities are 32-bit words, the bytes of the allocation are
counted in a `size_t`; the counts stay below the size of the index.
-/

namespace JavaScriptCore.Runtime

open JavaScriptCore.Collections

structure Property (K : Type) where
  key : K
  offset : Int
  attributes : UInt8
  deriving DecidableEq, Repr

/-- `PropertyMapEntry` in the table: zeroed memory, one whose key is
`PROPERTY_MAP_DELETED_ENTRY_KEY`, or a property. -/
inductive PropertyMapEntry (K : Type) where
  | null
  | deleted
  | live (property : Property K)
  deriving DecidableEq, Repr

def PropertyMapEntry.hasKey {K : Type} [DecidableEq K] (key : K) : PropertyMapEntry K → Bool
  | .live property => property.key = key
  | _ => false

/-- `table` is what follows the index: `tableCapacity` entries and the extra one. A null
`m_deletedOffsets` is an empty list. -/
structure PropertyTable (w : Wtf.Platform) (K : Type) where
  indexSize : Nat
  indexMask : Nat
  index : Nat → Nat
  table : Nat → PropertyMapEntry K
  keyCount : Nat
  deletedCount : Nat
  deletedOffsets : List Int

inductive EffectOnPropertyOffset where
  | mayChange
  | mustNotChange
  deriving DecidableEq, Repr

/-- The same steps as `roundUpToPowerOfTwo`. -/
def nextPowerOf2 (v : Nat) : Nat := Wtf.roundUpToPowerOfTwo v

namespace PropertyTable

variable {w : Wtf.Platform} {K : Type}

def emptyEntryIndex : Nat := 0

def minimumTableSize : Nat := 16

def sizeForCapacity (capacity : Nat) : Nat :=
  if capacity < minimumTableSize / 2 then minimumTableSize
  else nextPowerOf2 ((capacity + 1) % 2 ^ 32) * 2 % 2 ^ 32

def tableCapacity (t : PropertyTable w K) : Nat := t.indexSize >>> 1

/-- `sizeof(ValueType)`: a pointer, an `int` and a byte, aligned. -/
def sizeofValueType : Wtf.Platform → Nat
  | .bits32 => 12
  | .bits64 => 16

/-- The bytes that have been allocated. -/
def dataSize (t : PropertyTable w K) : Nat :=
  (t.indexSize * 4 + (t.tableCapacity + 1) * sizeofValueType w) %
    2 ^ Wtf.bitsInPointer w

def deletedEntryIndex (t : PropertyTable w K) : Nat := t.tableCapacity + 1

def usedCount (t : PropertyTable w K) : Nat := t.keyCount + t.deletedCount

def canInsert (t : PropertyTable w K) : Bool := t.usedCount < t.tableCapacity

def size (t : PropertyTable w K) : Nat := t.keyCount

/-- A table of zeroed memory. -/
def allocated (capacity : Nat) (deletedOffsets : List Int) : PropertyTable w K where
  indexSize := sizeForCapacity capacity
  indexMask := (sizeForCapacity capacity + 2 ^ 32 - 1) % 2 ^ 32
  index := fun _ => emptyEntryIndex
  table := fun _ => .null
  keyCount := 0
  deletedCount := 0
  deletedOffsets := deletedOffsets

def create (initialCapacity : Nat) : PropertyTable w K := allocated initialCapacity []

/-! ## Offsets of removed properties -/

def propertyStorageSize (t : PropertyTable w K) : Nat := t.size + t.deletedOffsets.length

def clearDeletedOffsets (t : PropertyTable w K) : PropertyTable w K :=
  { t with deletedOffsets := [] }

def addDeletedOffset (t : PropertyTable w K) (offset : Int) : PropertyTable w K :=
  { t with deletedOffsets := t.deletedOffsets ++ [offset] }

/-- The offset that was given up last is used again (`getDeletedOffset`). -/
def nextOffset (t : PropertyTable w K) (inlineCapacity : Nat) : Int × PropertyTable w K :=
  match t.deletedOffsets.getLast? with
  | some offset => (offset, { t with deletedOffsets := t.deletedOffsets.dropLast })
  | none => (offsetForPropertyNumber t.size inlineCapacity, t)

/-! ## Memory -/

def indexAllocated (t : PropertyTable w K) (slot : Nat) : Bool :=
  slot < t.indexSize && (slot + 1) * 4 ≤ t.dataSize

/-- The entries follow the index. -/
def tableAllocated (t : PropertyTable w K) (n : Nat) : Bool :=
  n < t.tableCapacity + 1 && t.indexSize * 4 + (n + 1) * sizeofValueType w ≤ t.dataSize

def readIndex (t : PropertyTable w K) (slot : Nat) : Option Nat :=
  if t.indexAllocated slot then some (t.index slot) else none

def readTable (t : PropertyTable w K) (n : Nat) : Option (PropertyMapEntry K) :=
  if t.tableAllocated n then some (t.table n) else none

def writeIndex (t : PropertyTable w K) (slot entryIndex : Nat) : Option (PropertyTable w K) :=
  if t.indexAllocated slot then some { t with index := Function.update t.index slot entryIndex }
  else none

/-- The extra entry is not part of the array. -/
def writeTable (t : PropertyTable w K) (n : Nat) (entry : PropertyMapEntry K) :
    Option (PropertyTable w K) :=
  if n < t.tableCapacity && t.tableAllocated n then
    some { t with table := Function.update t.table n entry }
  else none

/-! ## Iteration in the order of insertion -/

/-- From `begin()` to `end()`; the iterator skips deleted entries (`skipDeletedEntries`). -/
def iterate [DecidableEq K] (t : PropertyTable w K) : List (PropertyMapEntry K) :=
  (visited (fun n => t.table n = .deleted) t.usedCount).map t.table

/-! ## Operations -/

section

variable [DecidableEq K] (hash : K → UInt32)

/-- `find_iterator`: the entry, if there is one, and the slot of the index. -/
structure FindIterator where
  first : Option Nat
  second : Nat
  deriving DecidableEq, Repr

/-- One round of the loop of `find`, from the hash. -/
def findStep (t : PropertyTable w K) (key : K) (hash : Nat) : Option (FindIterator ⊕ Nat) := do
  let slot := hash &&& t.indexMask
  let entryIndex ← t.readIndex slot
  if entryIndex = emptyEntryIndex then return .inl ⟨none, slot⟩
  let entry ← t.readTable (entryIndex - 1)
  if entry.hasKey key then return .inl ⟨some (entryIndex - 1), slot⟩
  return .inr ((hash + 1) % 2 ^ 32)

/-- A search that has passed over every slot of the index never ends. -/
def find (t : PropertyTable w K) (key : K) : Option FindIterator :=
  probe (t.findStep key) t.indexSize (hash key).toNat

/-- The loop is that of `find`. -/
def get (t : PropertyTable w K) (key : K) : Option (Option Nat) :=
  if t.keyCount = 0 then some none else (t.find hash key).map FindIterator.first

/-- What `add`, `reinsert` do once the slot is known. -/
def append (t : PropertyTable w K) (slot : Nat) (entry : Property K) :
    Option (Nat × PropertyTable w K) := do
  let entryIndex := t.usedCount + 1
  let t ← t.writeIndex slot entryIndex
  let t ← t.writeTable (entryIndex - 1) (.live entry)
  return (entryIndex - 1, { t with keyCount := t.keyCount + 1 })

def reinsert (t : PropertyTable w K) (entry : PropertyMapEntry K) : Option (PropertyTable w K) :=
  match entry with
  | .live property => do
    let iter ← t.find hash property.key
    let (_, t) ← t.append iter.second property
    return t
  | _ => none

def rehash (t : PropertyTable w K) (newCapacity : Nat) : Option (PropertyTable w K) :=
  t.iterate.foldlM (reinsert hash) (allocated newCapacity t.deletedOffsets)

/-- `if (!canInsert())` of `add`: a rehash moves the slot of the key. -/
def ensureCapacity (t : PropertyTable w K) (key : K) (iter : FindIterator) :
    Option (PropertyTable w K × FindIterator) :=
  if t.canInsert then some (t, iter)
  else do
    let t ← t.rehash hash (t.keyCount + 1)
    let iter ← t.find hash key
    return (t, iter)

/-- What `add` returns, and what it does to its arguments. -/
structure AddResult (w : Wtf.Platform) (K : Type) where
  iter : FindIterator
  isNewEntry : Bool
  offset : Int
  table : PropertyTable w K

def add (t : PropertyTable w K) (entry : Property K) (offset : Int)
    (offsetEffect : EffectOnPropertyOffset) : Option (AddResult w K) := do
  let iter ← t.find hash entry.key
  match iter.first with
  | some n =>
    match ← t.readTable n with
    | .live found => if found.offset ≤ offset then return ⟨iter, false, offset, t⟩ else none
    | _ => none
  | none =>
    let (t, iter) ← t.ensureCapacity hash entry.key iter
    let (n, t) ← t.append iter.second entry
    match offsetEffect with
    | .mayChange => return ⟨⟨some n, iter.second⟩, true, max offset entry.offset, t⟩
    | .mustNotChange =>
      if entry.offset ≤ offset then return ⟨⟨some n, iter.second⟩, true, offset, t⟩ else none

/-- `remove(const find_iterator&)`. -/
def removeAt (t : PropertyTable w K) (iter : FindIterator) : Option (PropertyTable w K) :=
  match iter.first with
  | none => some t
  | some n => do
    let t ← t.writeIndex iter.second t.deletedEntryIndex
    let t ← t.writeTable n .deleted
    let t := { t with keyCount := t.keyCount - 1, deletedCount := t.deletedCount + 1 }
    if t.deletedCount * 4 ≥ t.indexSize then t.rehash hash t.keyCount else some t

def remove (t : PropertyTable w K) (key : K) : Option (PropertyTable w K) := do
  let iter ← t.find hash key
  t.removeAt hash iter

/-- A table of the same index is copied as it is, another is filled entry by entry. -/
def copy (t : PropertyTable w K) (newCapacity : Nat) : Option (PropertyTable w K) :=
  if sizeForCapacity newCapacity = t.indexSize then some t
  else t.iterate.foldlM (reinsert hash) (allocated newCapacity t.deletedOffsets)

end

end PropertyTable

end JavaScriptCore.Runtime
