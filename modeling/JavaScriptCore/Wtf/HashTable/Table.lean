import JavaScriptCore.Collections.OpenAddressing
import JavaScriptCore.Wtf.MathExtras

/-!
# `WTF::HashTable`

`wtf/HashTable.h:579-1371`: the table behind `HashMap` and `HashSet`, with double hashing. A bucket
is empty, deleted or holds an entry. A search follows the probe sequence of the key's hash to the
first empty bucket; `add` reuses the last deleted bucket it has passed. The table doubles, or is
rehashed as it is when few of its buckets are live, before half of the buckets are in use, and is
halved when less than a sixth of them are live.

Keys are compared with entries only: no key that is looked up equals the empty or the deleted value
(`checkKey`), so that the two orders of the tests that `safeToCompareToEmptyOrDeleted` selects
agree. Traits with released weak values are left out. Counts and sizes are 32-bit words, and
allocation succeeds. `none` is the result of an operation that does not return: a null table read,
an access beyond the buckets, a probe that never ends.
-/

namespace JavaScriptCore.Wtf

open JavaScriptCore.Collections

/-- The parameters of the template: `Extractor::extract`, `HashFunctions::hash`,
`HashFunctions::equal` and `KeyTraits::minimumTableSize`, which is 8 or what
`HashTableCapacityForSize` computes. -/
structure HashTraits (K V : Type) where
  extract : V → K
  hash : K → UInt32
  equal : K → K → Bool
  minimumTableSize : Nat
  equivalence : Equivalence fun a b => equal a b = true
  compatible : ∀ a b, equal a b = true → hash a = hash b
  powerOfTwo : ∃ m, 1 ≤ m ∧ m ≤ 30 ∧ minimumTableSize = 2 ^ m

def doubleHash (key : UInt32) : UInt32 :=
  let key := ~~~key + (key >>> 23)
  let key := key ^^^ (key <<< 12)
  let key := key ^^^ (key >>> 7)
  let key := key ^^^ (key <<< 2)
  key ^^^ (key >>> 20)

/-- A null `m_table` is `none`. -/
structure HashTable (V : Type) where
  table : Option (Nat → Slot V)
  tableSize : Nat
  tableSizeMask : Nat
  keyCount : Nat
  deletedCount : Nat

namespace HashTable

variable {K V : Type}

/-- `HashTable()`. -/
def empty : HashTable V := ⟨none, 0, 0, 0, 0⟩

def maxLoad : Nat := 2

def minLoad : Nat := 6

def size (t : HashTable V) : Nat := t.keyCount

def shouldExpand (t : HashTable V) : Bool :=
  (t.keyCount + t.deletedCount) * maxLoad % 2 ^ 32 ≥ t.tableSize

def mustRehashInPlace (t : HashTable V) : Bool :=
  t.keyCount * minLoad % 2 ^ 32 < t.tableSize * 2 % 2 ^ 32

def bucket (t : HashTable V) (i : Nat) : Option (Slot V) :=
  t.table.bind fun table => if i < t.tableSize then some (table i) else none

def setBucket (t : HashTable V) (i : Nat) (slot : Slot V) : Option (HashTable V) :=
  t.table.bind fun table =>
    if i < t.tableSize then some { t with table := some (Function.update table i slot) } else none

/-- `i = (i + k) & sizeMask` with `k = 1 | doubleHash(h)`. -/
def nextIndex (t : HashTable V) (h : UInt32) (i : Nat) : Nat :=
  (i + (1 ||| doubleHash h).toNat) % 2 ^ 32 &&& t.tableSizeMask

/-- The entries from `begin()` to `end()`; the iterator skips empty and deleted buckets. -/
def iterate (t : HashTable V) : List V :=
  match t.table with
  | none => []
  | some table =>
    if t.keyCount = 0 then []
    else (visited (fun i => (table i).item?.isNone) t.tableSize).filterMap fun i => (table i).item?

section

variable (traits : HashTraits K V)

def shouldShrink (t : HashTable V) : Bool :=
  t.keyCount * minLoad % 2 ^ 32 < t.tableSize && t.tableSize > traits.minimumTableSize

/-! ## Searching -/

/-- One round of the loop of `inlineLookup`. -/
def lookupStep (t : HashTable V) (key : K) (i : Nat) : Option (Option Nat ⊕ Nat) := do
  match ← t.bucket i with
  | .empty => return .inl none
  | .deleted => return .inr (t.nextIndex (traits.hash key) i)
  | .item v =>
    if traits.equal (traits.extract v) key then return .inl (some i)
    return .inr (t.nextIndex (traits.hash key) i)

def lookup (t : HashTable V) (key : K) : Option (Option Nat) :=
  if t.table.isNone then some none
  else probe (t.lookupStep traits key) t.tableSize ((traits.hash key).toNat &&& t.tableSizeMask)

/-- Where the loops of `add` and `lookupForWriting` end. -/
structure WritingPosition where
  entry : Nat
  deletedEntry : Option Nat
  found : Bool
  deriving DecidableEq, Repr

/-- One round, from an index and the last deleted bucket passed. -/
def writingStep (t : HashTable V) (key : K) :
    Nat × Option Nat → Option (WritingPosition ⊕ Nat × Option Nat)
  | (i, deletedEntry) => do
    match ← t.bucket i with
    | .empty => return .inl ⟨i, deletedEntry, false⟩
    | .deleted => return .inr (t.nextIndex (traits.hash key) i, some i)
    | .item v =>
      if traits.equal (traits.extract v) key then return .inl ⟨i, deletedEntry, true⟩
      return .inr (t.nextIndex (traits.hash key) i, deletedEntry)

def writingLoop (t : HashTable V) (key : K) : Option WritingPosition :=
  probe (t.writingStep traits key) t.tableSize
    ((traits.hash key).toNat &&& t.tableSizeMask, none)

def lookupForWriting (t : HashTable V) (key : K) : Option (Nat × Bool) := do
  let position ← t.writingLoop traits key
  if position.found then return (position.entry, true)
  return (position.deletedEntry.getD position.entry, false)

/-- The loop of `addUniqueForInitialization` passes over everything that is not empty. -/
def emptyStep (t : HashTable V) (h : UInt32) (i : Nat) : Option (Nat ⊕ Nat) := do
  match ← t.bucket i with
  | .empty => return .inl i
  | _ => return .inr (t.nextIndex h i)

def addUniqueForInitialization (t : HashTable V) (v : V) : Option (HashTable V) := do
  let h := traits.hash (traits.extract v)
  let entry ← probe (t.emptyStep h) t.tableSize (h.toNat &&& t.tableSizeMask)
  t.setBucket entry (.item v)

/-! ## Rehashing -/

/-- `m_tableSize = newTableSize` with its mask and newly allocated buckets. -/
def reallocated (t : HashTable V) (newTableSize : Nat) : HashTable V :=
  { t with
    table := some fun _ => .empty
    tableSize := newTableSize
    tableSizeMask := (newTableSize + 2 ^ 32 - 1) % 2 ^ 32 }

def reinsert (t : HashTable V) (v : V) : Option (Nat × HashTable V) := do
  let (newEntry, _) ← t.lookupForWriting traits (traits.extract v)
  let t ← t.setBucket newEntry (.item v)
  return (newEntry, t)

/-- The bucket `i` of the old table; `entry` is the bucket whose new place is asked for. -/
def rehashStep (old : HashTable V) (entry : Option Nat) :
    Option Nat × HashTable V → Nat → Option (Option Nat × HashTable V)
  | (newEntry, t), i => do
    match ← old.bucket i with
    | .item v =>
      let (reinsertedEntry, t) ← t.reinsert traits v
      return (if entry = some i then some reinsertedEntry else newEntry, t)
    | _ => return (newEntry, t)

def rehash (t : HashTable V) (newTableSize : Nat) (entry : Option Nat) :
    Option (Option Nat × HashTable V) := do
  let (newEntry, new) ← (List.range t.tableSize).foldlM (rehashStep traits t entry)
    (none, t.reallocated newTableSize)
  return (newEntry, { new with deletedCount := 0 })

def expand (t : HashTable V) (entry : Option Nat) : Option (Option Nat × HashTable V) :=
  let newSize :=
    if t.tableSize = 0 then traits.minimumTableSize
    else if t.mustRehashInPlace then t.tableSize
    else t.tableSize * 2 % 2 ^ 32
  t.rehash traits newSize entry

def shrink (t : HashTable V) : Option (HashTable V) := do
  let (_, t) ← t.rehash traits (t.tableSize / 2) none
  return t

/-- `if (shouldShrink()) shrink()`. -/
def shrinkIfNeeded (t : HashTable V) : Option (HashTable V) :=
  if t.shouldShrink traits then t.shrink traits else some t

/-! ## Operations -/

/-- `AddResult`: the bucket of the iterator, and `isNewEntry`. -/
structure AddResult (V : Type) where
  iterator : Option Nat
  isNewEntry : Bool
  table : HashTable V

/-- `if (!m_table) expand(nullptr)`. -/
def ensureTable (t : HashTable V) : Option (HashTable V) :=
  if t.table.isNone then (t.expand traits none).map Prod.snd else some t

/-- From `translate` to the end of `add` and `addPassingHashCode`. -/
def finishAdd (t : HashTable V) (entry : Nat) (v : V) : Option (AddResult V) := do
  let t ← t.setBucket entry (.item v)
  let t := { t with keyCount := t.keyCount + 1 }
  if t.shouldExpand then
    let (entry, t) ← t.expand traits (some entry)
    return ⟨entry, true, t⟩
  return ⟨some entry, true, t⟩

/-- `add(key, extra)`, where the translator makes the entry `v` of them. -/
def add (t : HashTable V) (key : K) (v : V) : Option (AddResult V) := do
  let t ← t.ensureTable traits
  let position ← t.writingLoop traits key
  if position.found then return ⟨some position.entry, false, t⟩
  match position.deletedEntry with
  | some deletedEntry =>
    let t ← t.setBucket deletedEntry .empty
    finishAdd traits { t with deletedCount := t.deletedCount - 1 } deletedEntry v
  | none => finishAdd traits t position.entry v

def addPassingHashCode (t : HashTable V) (key : K) (v : V) : Option (AddResult V) := do
  let t ← t.ensureTable traits
  let (entry, found) ← t.lookupForWriting traits key
  if found then return ⟨some entry, false, t⟩
  match ← t.bucket entry with
  | .deleted =>
    let t ← t.setBucket entry .empty
    finishAdd traits { t with deletedCount := t.deletedCount - 1 } entry v
  | _ => finishAdd traits t entry v

/-- `remove(ValueType*)`. -/
def removeAt (t : HashTable V) (pos : Nat) : Option (HashTable V) := do
  let t ← t.setBucket pos .deleted
  shrinkIfNeeded traits
    { t with deletedCount := t.deletedCount + 1, keyCount := t.keyCount - 1 }

def remove (t : HashTable V) (key : K) : Option (HashTable V) := do
  match ← t.lookup traits key with
  | none => some t
  | some pos => t.removeAt traits pos

/-- One round of `removeIf`, with the number of buckets removed so far. -/
def removeIfStep (functor : V → Bool) : HashTable V × Nat → Nat → Option (HashTable V × Nat)
  | (t, removedBucketCount), i => do
    match ← t.bucket i with
    | .item v =>
      if functor v then
        let t ← t.setBucket i .deleted
        return (t, removedBucketCount + 1)
      return (t, removedBucketCount)
    | _ => return (t, removedBucketCount)

def removeIf (t : HashTable V) (functor : V → Bool) : Option (Bool × HashTable V) := do
  let (t, removedBucketCount) ←
    (List.range t.tableSize).reverse.foldlM (removeIfStep functor) (t, 0)
  let t ← shrinkIfNeeded traits
    { t with
      deletedCount := t.deletedCount + removedBucketCount
      keyCount := t.keyCount - removedBucketCount }
  return (removedBucketCount ≠ 0, t)

def clear (_ : HashTable V) : HashTable V := empty

/-- The size of `HashTable(const HashTable&)`. -/
def copySize (otherKeyCount : Nat) : Nat :=
  let bestTableSize := roundUpToPowerOfTwo otherKeyCount * 2 % 2 ^ 32
  let bestTableSize :=
    if otherKeyCount * 12 % 2 ^ 32 ≥ bestTableSize * 5 % 2 ^ 32 then bestTableSize * 2 % 2 ^ 32
    else bestTableSize
  max bestTableSize traits.minimumTableSize

def copy (other : HashTable V) : Option (HashTable V) :=
  if other.keyCount = 0 then some empty
  else
    other.iterate.foldlM (addUniqueForInitialization traits)
      { (empty : HashTable V).reallocated (copySize traits other.keyCount) with
        keyCount := other.keyCount }

end

/-- `HashTable(HashTable&&)`: the new table, and the one it was made from. -/
def move (other : HashTable V) : HashTable V × HashTable V := (other, empty)

end HashTable

end JavaScriptCore.Wtf
