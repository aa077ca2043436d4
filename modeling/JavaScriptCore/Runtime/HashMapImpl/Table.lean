import JavaScriptCore.Collections.LinearProbe

/-!
# `HashMapImpl`

`runtime/HashMapImpl.h:304-696`: the table behind `Map` and `Set`. The entries are cells on a doubly
linked list between two sentinels, in the order of their insertion; a buffer of `m_capacity` slots
leads from a hash to a cell. The tail sentinel becomes the next entry, and a new tail is created
behind it. A removed entry leaves a deleted slot in the buffer until the next rehash.

Keys arrive here normalised. `none` is the result of an operation that does not return: a probe
that finds no empty slot, a null pointer followed, a failed `RELEASE_ASSERT`, an overflow of
`Checked`. Counts are 32-bit words.
-/

namespace JavaScriptCore.Runtime

open JavaScriptCore.Collections Function

/-- `emptyValue()`, `deletedValue()` or a bucket. -/
inductive HashMapSlot where
  | empty
  | deleted
  | bucket (cell : Nat)
  deriving DecidableEq, Repr

/-- `HashMapBucket`. A null key makes the bucket `deleted()`. -/
structure HashMapBucket (K V : Type) where
  key : Option K
  value : Option V
  next : Option Nat
  prev : Option Nat

def HashMapBucket.create {K V : Type} : HashMapBucket K V := ⟨none, none, none, none⟩

def HashMapBucket.makeDeleted {K V : Type} (bucket : HashMapBucket K V) : HashMapBucket K V :=
  { bucket with key := none, value := none }

/-- How the table compares and hashes its keys. -/
structure MapKeyTraits (K : Type) where
  areKeysEqual : K → K → Bool
  jsMapHash : K → BitVec 32

structure HashMapImpl (K V : Type) where
  /-- The cells created so far, by number. -/
  cells : Nat → HashMapBucket K V
  created : Nat
  head : Nat
  tail : Nat
  buffer : Nat → HashMapSlot
  capacity : Nat
  keyCount : Nat
  deleteCount : Nat

namespace HashMapImpl

/-- `++count`. -/
def increment (count : Nat) : Nat := (count + 1) % 2 ^ 32

/-- `--count`. -/
def decrement (count : Nat) : Nat := (count + (2 ^ 32 - 1)) % 2 ^ 32

def shouldShrink (capacity keyCount : Nat) : Bool :=
  8 * keyCount % 2 ^ 32 ≤ capacity && capacity > 4

def shouldRehashAfterAdd (capacity keyCount deleteCount : Nat) : Bool :=
  2 * (keyCount + deleteCount) % 2 ^ 32 ≥ capacity

def nextCapacity (capacity keyCount : Nat) : Option Nat :=
  if shouldShrink capacity keyCount then some (capacity / 2)
  else if 3 * keyCount % 2 ^ 32 ≤ capacity && capacity > 64 then some capacity
  else if capacity * 2 < 2 ^ 32 then some (capacity * 2) else none

variable {K V : Type}

/-- The constructor and `setUpHeadAndTail`. -/
def create : HashMapImpl K V where
  cells := update
    (update (fun _ => .create) 0 { HashMapBucket.create with next := some 1 })
    1 { HashMapBucket.create with prev := some 0 }
  created := 2
  head := 0
  tail := 1
  buffer := fun _ => .empty
  capacity := 4
  keyCount := 0
  deleteCount := 0

def size (m : HashMapImpl K V) : Nat := m.keyCount

def modify (m : HashMapImpl K V) (cell : Nat) (f : HashMapBucket K V → HashMapBucket K V) :
    HashMapImpl K V :=
  { m with cells := update m.cells cell (f (m.cells cell)) }

def setNext (m : HashMapImpl K V) (cell : Nat) (next : Option Nat) : HashMapImpl K V :=
  m.modify cell fun bucket => { bucket with next }

def setPrev (m : HashMapImpl K V) (cell : Nat) (prev : Option Nat) : HashMapImpl K V :=
  m.modify cell fun bucket => { bucket with prev }

def setSlot (m : HashMapImpl K V) (index : Nat) (slot : HashMapSlot) : HashMapImpl K V :=
  { m with buffer := update m.buffer index slot }

variable (traits : MapKeyTraits K)

/-- `!isDeleted(bucket) && areKeysEqual(exec, key, bucket->key())`. In a consistent table the
buckets of the buffer have keys; against an empty one, a string or a BigInt would follow a null
pointer. -/
def canUseBucket (m : HashMapImpl K V) (key : K) : HashMapSlot → Bool
  | .bucket cell => (m.cells cell).key.any (traits.areKeysEqual key)
  | _ => false

/-- The loop that each of the three searches of the buffer runs: to the first slot that is empty or
may be used. -/
def probe (m : HashMapImpl K V) (canUse : HashMapSlot → Bool) (hash : BitVec 32) : Option Nat :=
  linearProbe (m.capacity - 1) (fun index => m.buffer index = .empty || canUse (m.buffer index))
    m.capacity (hash.toNat &&& (m.capacity - 1))

/-- The index of the slot found, `some none` for `nullptr`. -/
def findBucket (m : HashMapImpl K V) (key : K) : Option (Option Nat) := do
  let index ← m.probe (m.canUseBucket traits key) (traits.jsMapHash key)
  return if m.buffer index = .empty then none else some index

def bucketAt (m : HashMapImpl K V) (index : Nat) : Option Nat :=
  match m.buffer index with
  | .bucket cell => some cell
  | _ => none

/-- `default` is `jsUndefined()`. -/
def get [Inhabited V] (m : HashMapImpl K V) (key : K) : Option V := do
  match ← m.findBucket traits key with
  | some index => (m.cells (← m.bucketAt index)).value
  | none => return default

def has (m : HashMapImpl K V) (key : K) : Option Bool := do
  return (← m.findBucket traits key).isSome

/-- The second half of `addNormalizedInternal`: the tail becomes the entry of `key`. -/
def appendEntry (m : HashMapImpl K V) (index : Nat) (key : K) (value : V) : HashMapImpl K V :=
  let newEntry := m.tail
  let newTail := m.created
  let filled := (m.setSlot index (.bucket newEntry)).modify newEntry fun bucket =>
    { bucket with key := some key, value := some value, next := some newTail }
  { filled with
    cells := update filled.cells newTail
      { HashMapBucket.create with prev := some newEntry }
    created := m.created + 1
    tail := newTail
    keyCount := increment m.keyCount }

def addNormalizedInternal (m : HashMapImpl K V) (key : K) (value : V)
    (canUse : HashMapSlot → Bool) : Option (HashMapImpl K V) := do
  let index ← m.probe canUse (traits.jsMapHash key)
  match m.buffer index with
  | .bucket cell => return m.modify cell fun bucket => { bucket with value := some value }
  | _ => return m.appendEntry index key value

/-- The loop of `rehash` over the list; it is at `iter`. -/
def rehashFrom : Nat → Option Nat → HashMapImpl K V → Option (HashMapImpl K V)
  | 0, _, _ => none
  | fuel + 1, iter, m => do
    if iter = some m.tail then return m
    let cell ← iter
    let key ← (m.cells cell).key
    let index ← m.probe (fun _ => false) (traits.jsMapHash key)
    rehashFrom fuel (m.cells cell).next (m.setSlot index (.bucket cell))

/-- A list without a cycle is shorter than the number of cells created. -/
def rehash (m : HashMapImpl K V) : Option (HashMapImpl K V) := do
  let capacity ← nextCapacity m.capacity m.keyCount
  let m := { m with capacity, buffer := fun _ => .empty }
  if capacity &&& (capacity - 1) ≠ 0 then none
  let m ← rehashFrom traits m.created (m.cells m.head).next m
  return { m with deleteCount := 0 }

def rehashAfterAdd (m : HashMapImpl K V) : Option (HashMapImpl K V) :=
  if shouldRehashAfterAdd m.capacity m.keyCount m.deleteCount then m.rehash traits else some m

def add (m : HashMapImpl K V) (key : K) (value : V) : Option (HashMapImpl K V) := do
  let m ← m.addNormalizedInternal traits key value (m.canUseBucket traits key)
  m.rehashAfterAdd traits

/-- `impl->next()->setPrev(impl->prev())`, `impl->prev()->setNext(impl->next())` and
`impl->makeDeleted()`. -/
def unlink (m : HashMapImpl K V) (impl : Nat) : Option (HashMapImpl K V) := do
  let next ← (m.cells impl).next
  let m := m.setPrev next (m.cells impl).prev
  let prev ← (m.cells impl).prev
  let m := m.setNext prev (m.cells impl).next
  return m.modify impl HashMapBucket.makeDeleted

/-- The entry in a slot is taken off the list and out of the buffer. -/
def deleteBucket (m : HashMapImpl K V) (index : Nat) : Option (HashMapImpl K V) := do
  let m ← m.unlink (← m.bucketAt index)
  let m := m.setSlot index .deleted
  return { m with
    deleteCount := increment m.deleteCount
    keyCount := decrement m.keyCount }

def rehashIfShrinking (m : HashMapImpl K V) : Option (HashMapImpl K V) :=
  if shouldShrink m.capacity m.keyCount then m.rehash traits else some m

def remove (m : HashMapImpl K V) (key : K) : Option (HashMapImpl K V × Bool) := do
  match ← m.findBucket traits key with
  | none => return (m, false)
  | some index =>
    let m ← m.deleteBucket index
    return (← m.rehashIfShrinking traits, true)

/-- The loop of `clear` over the list: every entry is sent back to the head and deleted. -/
def clearFrom : Nat → Option Nat → HashMapImpl K V → Option (HashMapImpl K V)
  | 0, _, _ => none
  | fuel + 1, iter, m => do
    if iter = some m.tail then return m
    let cell ← iter
    let next := (m.cells cell).next
    clearFrom fuel next ((m.setNext cell (some m.head)).modify cell HashMapBucket.makeDeleted)

def clear (m : HashMapImpl K V) : Option (HashMapImpl K V) := do
  let m ← clearFrom m.created (m.cells m.head).next { m with keyCount := 0, deleteCount := 0 }
  let m := m.setNext m.head (some m.tail)
  let m := m.setPrev m.tail (some m.head)
  return { m with capacity := 4, buffer := fun _ => .empty }

/-- The calls that change a table. -/
inductive Operation (K V : Type) where
  | add (key : K) (value : V)
  | remove (key : K)
  | clear

def step (m : HashMapImpl K V) : Operation K V → Option (HashMapImpl K V)
  | .add key value => m.add traits key value
  | .remove key => do return (← m.remove traits key).1
  | .clear => m.clear

def run (operations : List (Operation K V)) (m : HashMapImpl K V) : Option (HashMapImpl K V) :=
  operations.foldlM (step traits) m

end HashMapImpl

end JavaScriptCore.Runtime
