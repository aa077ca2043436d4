import JavaScriptCore.Runtime.PropertyTable.Table

/-!
# Properties of a dictionary

`runtime/StructureInlines.h:333-476`, `runtime/Structure.cpp:738-805`, and the callers of `add` and
`remove` in `runtime/JSObjectInlines.h:193-216` and `runtime/JSObject.cpp:1988-2004`. A structure
gives each property an offset, and an object stores the value there: in the cell, or out of line.
The offsets of removed properties are used again. Flattening numbers the properties afresh, moves
their values and gives up the storage that is not needed any more.

A structure that describes one object is taken together with it. `none` is the result of an
operation that does not return: a failed consistency check or `RELEASE_ASSERT`, an access outside
the storage. Zeroed storage is `none` as a value.
-/

namespace JavaScriptCore.Runtime

open JavaScriptCore.Collections

inductive DictionaryKind where
  | noneDictionaryKind
  | cachedDictionaryKind
  | uncachedDictionaryKind
  deriving DecidableEq, Repr

/-- `m_offset` is the last offset. The constructor asserts the bound of the inline capacity. -/
structure Structure (w : Wtf.Platform) (K : Type) where
  inlineCapacity : Nat
  inlineCapacity_lt : (inlineCapacity : Int) < firstOutOfLineOffset
  table : PropertyTable w K
  offset : Int
  dictionaryKind : DictionaryKind

/-- The out-of-line slot of an offset lies `offsetInOutOfLineStorage` before the butterfly; slots
are counted from there. An object without a butterfly has no such slots. -/
structure JSObject (w : Wtf.Platform) (K V : Type) where
  shape : Structure w K
  inlineStorage : Nat → Option V
  outOfLineStorage : Nat → Option V
  outOfLineCapacity : Nat

variable {w : Wtf.Platform} {K V : Type}

/-- Both comparisons of `checkOffsetConsistency`. -/
def Structure.checkOffsetConsistency (s : Structure w K) : Bool :=
  let totalSize := s.table.propertyStorageSize
  let inlineOverflowAccordingToTotalSize :=
    if totalSize < s.inlineCapacity then 0 else totalSize - s.inlineCapacity
  numberOfSlotsForLastOffset s.offset s.inlineCapacity = totalSize &&
    inlineOverflowAccordingToTotalSize = numberOfOutOfLineSlotsForLastOffset s.offset

def Structure.inlineSize (s : Structure w K) : Nat := min (s.offset + 1).toNat s.inlineCapacity

namespace JSObject

/-- A new object of an empty structure. -/
def create (inlineCapacity : Nat) (hlt : (inlineCapacity : Int) < firstOutOfLineOffset) :
    JSObject w K V where
  shape := ⟨inlineCapacity, hlt, .create 0, invalidOffset, .noneDictionaryKind⟩
  inlineStorage := fun _ => none
  outOfLineStorage := fun _ => none
  outOfLineCapacity := 0

/-! ## Storage -/

def getDirect (object : JSObject w K V) (offset : Int) : Option (Option V) :=
  if isInlineOffset offset then
    if 0 ≤ offset ∧ offset < object.shape.inlineCapacity then
      some (object.inlineStorage offset.toNat)
    else none
  else
    if (offset - firstOutOfLineOffset).toNat < object.outOfLineCapacity then
      some (object.outOfLineStorage (offset - firstOutOfLineOffset).toNat)
    else none

def putDirect (object : JSObject w K V) (offset : Int) (value : Option V) :
    Option (JSObject w K V) :=
  if isInlineOffset offset then
    if 0 ≤ offset ∧ offset < object.shape.inlineCapacity then
      some { object with inlineStorage := Function.update object.inlineStorage offset.toNat value }
    else none
  else
    if (offset - firstOutOfLineOffset).toNat < object.outOfLineCapacity then
      some { object with
        outOfLineStorage := Function.update object.outOfLineStorage
          (offset - firstOutOfLineOffset).toNat value }
    else none

/-- `createOrGrowPropertyStorage`: the old slots are copied, the new ones are zeroed. -/
def allocateMoreOutOfLineStorage (object : JSObject w K V) (oldSize newSize : Nat) :
    Option (JSObject w K V) :=
  if newSize > oldSize then
    some { object with
      outOfLineStorage := fun slot => if slot < oldSize then object.outOfLineStorage slot else none
      outOfLineCapacity := newSize }
  else none

/-! ## Adding and removing -/

section

variable [DecidableEq K] (hash : K → UInt32)

/-- The function that `prepareToPutDirectWithoutTransition` passes to `add`. -/
def setLastOffset (object : JSObject w K V) (newLastOffset : Int) : Option (JSObject w K V) :=
  let oldOutOfLineCapacity := Runtime.outOfLineCapacity object.shape.offset
  let newOutOfLineCapacity := Runtime.outOfLineCapacity newLastOffset
  let changed := { object with shape := { object.shape with offset := newLastOffset } }
  if newOutOfLineCapacity ≠ oldOutOfLineCapacity then
    changed.allocateMoreOutOfLineStorage oldOutOfLineCapacity newOutOfLineCapacity
  else some changed

/-- `Structure::add` and the write to the offset that it returns. -/
def add (object : JSObject w K V) (name : K) (attributes : UInt8) (value : V) :
    Option (Int × JSObject w K V) := do
  guard object.shape.checkOffsetConsistency
  let (newOffset, table) := object.shape.table.nextOffset object.shape.inlineCapacity
  let result ← table.add hash ⟨name, newOffset, attributes⟩ object.shape.offset .mayChange
  let object ← { object with shape := { object.shape with table := result.table } }.setLastOffset
    result.offset
  guard object.shape.checkOffsetConsistency
  let object ← object.putDirect newOffset (some value)
  return (newOffset, object)

/-- `Structure::remove`, after which the slot is cleared. -/
def remove (object : JSObject w K V) (name : K) : Option (Int × JSObject w K V) := do
  guard object.shape.checkOffsetConsistency
  let position ← object.shape.table.find hash name
  match position.first with
  | none => return (invalidOffset, object)
  | some n =>
    match ← object.shape.table.readTable n with
    | .live property =>
      let table ← object.shape.table.removeAt hash position
      let table := table.addDeletedOffset property.offset
      let object := { object with shape := { object.shape with table := table } }
      guard object.shape.checkOffsetConsistency
      let object ← object.putDirect property.offset none
      return (property.offset, object)
    | _ => none

/-- The value of a property, through the offset that the table has for it. -/
def get (object : JSObject w K V) (name : K) : Option (Option V) := do
  match ← object.shape.table.get hash name with
  | none => return none
  | some n =>
    match ← object.shape.table.readTable n with
    | .live property => object.getDirect property.offset
    | _ => none

/-- A write to the offset of a property. -/
def put (object : JSObject w K V) (name : K) (value : V) : Option (JSObject w K V) := do
  match ← object.shape.table.get hash name with
  | none => none
  | some n =>
    match ← object.shape.table.readTable n with
    | .live property => object.putDirect property.offset (some value)
    | _ => none

/-! ## Flattening -/

/-- The first loop of `flattenDictionaryStructure` over the numbers of the entries. The offsets that
it changes do not matter to the iterator. -/
def compact (object : JSObject w K V) : List Nat → Nat → PropertyTable w K → Int →
    Option (PropertyTable w K × Int × List (Option V))
  | [], _, table, offset => some (table, offset, [])
  | n :: numbers, i, table, _ =>
    match table.table n with
    | .live property => do
      let value ← object.getDirect property.offset
      let offset := offsetForPropertyNumber i object.shape.inlineCapacity
      let table := { table with
        table := Function.update table.table n (.live { property with offset := offset }) }
      let (table, offset, values) ← compact object numbers (i + 1) table offset
      return (table, offset, value :: values)
    | _ => none

/-- The second loop: the values go to their compacted locations. -/
def putValues : JSObject w K V → Nat → List (Option V) → Option (JSObject w K V)
  | object, _, [] => some object
  | object, i, value :: values => do
    let object ← object.putDirect (offsetForPropertyNumber i object.shape.inlineCapacity) value
    putValues object (i + 1) values

/-- Both `memset`s. -/
def zeroUnused (object : JSObject w K V) (beforeOutOfLineCapacity : Nat) : JSObject w K V :=
  { object with
    inlineStorage := fun slot =>
      if object.shape.inlineSize ≤ slot ∧ slot < object.shape.inlineCapacity then none
      else object.inlineStorage slot
    outOfLineStorage := fun slot =>
      if numberOfOutOfLineSlotsForLastOffset object.shape.offset ≤ slot ∧
        slot < beforeOutOfLineCapacity then none
      else object.outOfLineStorage slot }

/-- The butterfly is given up or copied to a smaller one (`shiftButterflyAfterFlattening`). -/
def shrinkButterfly (object : JSObject w K V) (before after : Nat) : JSObject w K V :=
  if object.outOfLineCapacity ≠ 0 ∧ before ≠ after then
    { object with
      outOfLineStorage := fun slot => if slot < after then object.outOfLineStorage slot else none
      outOfLineCapacity := after }
  else object

/-- The part of `flattenDictionaryStructure` for an uncacheable dictionary. -/
def flattenProperties (object : JSObject w K V) (beforeOutOfLineCapacity : Nat) :
    Option (JSObject w K V) := do
  let table := object.shape.table
  let numbers := visited (fun n => table.table n = .deleted) table.usedCount
  let (table, offset, values) ← object.compact numbers 0 table invalidOffset
  let object := { object with shape := { object.shape with table := table, offset := offset } }
  let object ← object.putValues 0 values
  let object := { object with
    shape := { object.shape with table := object.shape.table.clearDeletedOffsets } }
  let object := object.zeroUnused beforeOutOfLineCapacity
  guard object.shape.checkOffsetConsistency
  return object

def flattenDictionaryStructure (object : JSObject w K V) : Option (JSObject w K V) := do
  guard object.shape.checkOffsetConsistency
  let before := Runtime.outOfLineCapacity object.shape.offset
  let object ←
    if object.shape.dictionaryKind = .uncachedDictionaryKind then object.flattenProperties before
    else some object
  let object := { object with shape := { object.shape with dictionaryKind := .noneDictionaryKind } }
  return object.shrinkButterfly before (Runtime.outOfLineCapacity object.shape.offset)

end

/-- `toDictionaryTransition`: a new structure with a clone of the table. -/
def toDictionary (object : JSObject w K V) (kind : DictionaryKind) : JSObject w K V :=
  { object with shape := { object.shape with dictionaryKind := kind } }

end JSObject

end JavaScriptCore.Runtime
