import Mathlib.Logic.Function.Basic

/-!
# Descriptors and indexed properties

`runtime/PropertyDescriptor.cpp:34-236`, `runtime/SparseArrayValueMap.cpp:100-190` and
`runtime/JSObject.cpp:2533-2701`: property descriptors and the indexed storage of a plain object.

The values of the program are the elements of a type whose `default` is `undefined`; sameness of
values is equality. The shapes of the indexed storage that hold plain values alone, and the sparse
map that holds attributes, are one map here, with the flag `sparse` of the source that tells whether
the object has entered the mode in which entries may have attributes. An object that is made
non-extensible enters that mode (`runtime/JSObject.cpp:2463-2476`).
-/

namespace JavaScriptCore.Runtime

/-- The bits of `PropertyAttribute`. -/
structure Attributes where
  readOnly : Bool := false
  dontEnum : Bool := false
  dontDelete : Bool := false
  accessor : Bool := false
  deriving DecidableEq, Repr

/-- The fields that a program may give to a definition, as `toPropertyDescriptor` accepts them: not
those of a data property together with those of an accessor. -/
structure DescriptorFields (α : Type) where
  value : Option α := none
  getter : Option α := none
  setter : Option α := none
  writable : Option Bool := none
  enumerable : Option Bool := none
  configurable : Option Bool := none
  separate : getter.isSome = true ∨ setter.isSome = true → value = none ∧ writable = none

structure PropertyDescriptor (α : Type) where
  value : Option α := none
  getter : Option α := none
  setter : Option α := none
  attributes : Attributes := { readOnly := true, dontEnum := true, dontDelete := true }
  writablePresent : Bool := false
  enumerablePresent : Bool := false
  configurablePresent : Bool := false

namespace PropertyDescriptor

variable {α : Type}

def writable (descriptor : PropertyDescriptor α) : Bool := !descriptor.attributes.readOnly

def enumerable (descriptor : PropertyDescriptor α) : Bool := !descriptor.attributes.dontEnum

def configurable (descriptor : PropertyDescriptor α) : Bool := !descriptor.attributes.dontDelete

def isDataDescriptor (descriptor : PropertyDescriptor α) : Bool :=
  descriptor.value.isSome || descriptor.writablePresent

def isAccessorDescriptor (descriptor : PropertyDescriptor α) : Bool :=
  descriptor.getter.isSome || descriptor.setter.isSome

def isGenericDescriptor (descriptor : PropertyDescriptor α) : Bool :=
  !descriptor.isAccessorDescriptor && !descriptor.isDataDescriptor

def isEmpty (descriptor : PropertyDescriptor α) : Bool :=
  !(descriptor.value.isSome || descriptor.getter.isSome || descriptor.setter.isSome
    || descriptor.writablePresent || descriptor.enumerablePresent
    || descriptor.configurablePresent)

def setWritable (writable : Bool) (descriptor : PropertyDescriptor α) : PropertyDescriptor α :=
  { descriptor with
    attributes := { descriptor.attributes with readOnly := !writable }
    writablePresent := true }

def setEnumerable (enumerable : Bool) (descriptor : PropertyDescriptor α) :
    PropertyDescriptor α :=
  { descriptor with
    attributes := { descriptor.attributes with dontEnum := !enumerable }
    enumerablePresent := true }

def setConfigurable (configurable : Bool) (descriptor : PropertyDescriptor α) :
    PropertyDescriptor α :=
  { descriptor with
    attributes := { descriptor.attributes with dontDelete := !configurable }
    configurablePresent := true }

def setValue (value : α) (descriptor : PropertyDescriptor α) : PropertyDescriptor α :=
  { descriptor with value := some value }

def setGetter (getter : α) (descriptor : PropertyDescriptor α) : PropertyDescriptor α :=
  { descriptor with
    getter := some getter
    attributes := { descriptor.attributes with accessor := true, readOnly := false } }

def setSetter (setter : α) (descriptor : PropertyDescriptor α) : PropertyDescriptor α :=
  { descriptor with
    setter := some setter
    attributes := { descriptor.attributes with accessor := true, readOnly := false } }

def attributesEqual (descriptor other : PropertyDescriptor α) : Bool :=
  !(other.writablePresent && descriptor.writablePresent
      && other.attributes.readOnly != descriptor.attributes.readOnly)
    && !(other.configurablePresent && descriptor.configurablePresent
      && other.attributes.dontDelete != descriptor.attributes.dontDelete)
    && !(other.enumerablePresent && descriptor.enumerablePresent
      && other.attributes.dontEnum != descriptor.attributes.dontEnum)

/-- The fields that are absent from one of the two must be absent from the other, which is how two
descriptors that both have the field are compared. -/
def equalTo [DecidableEq α] (descriptor other : PropertyDescriptor α) : Bool :=
  descriptor.value = other.value && descriptor.getter = other.getter
    && descriptor.setter = other.setter && descriptor.attributesEqual other

def attributesOverridingCurrent (descriptor current : PropertyDescriptor α) : Attributes where
  readOnly :=
    if descriptor.writablePresent then descriptor.attributes.readOnly
    else current.attributes.readOnly
      || (descriptor.isDataDescriptor && current.isAccessorDescriptor)
  dontEnum :=
    if descriptor.enumerablePresent then descriptor.attributes.dontEnum
    else current.attributes.dontEnum
  dontDelete :=
    if descriptor.configurablePresent then descriptor.attributes.dontDelete
    else current.attributes.dontDelete
  accessor :=
    if descriptor.isAccessorDescriptor then descriptor.attributes.accessor
    else current.attributes.accessor

/-- A setter that is called for a field only if the field is there. -/
def setIfPresent {β : Type} (set : β → PropertyDescriptor α → PropertyDescriptor α)
    (field : Option β) (descriptor : PropertyDescriptor α) : PropertyDescriptor α :=
  field.elim descriptor fun value => set value descriptor

end PropertyDescriptor

open PropertyDescriptor in
def toPropertyDescriptor {α : Type} (fields : DescriptorFields α) : PropertyDescriptor α :=
  setIfPresent setSetter fields.setter <| setIfPresent setGetter fields.getter <|
    setIfPresent setWritable fields.writable <| setIfPresent setValue fields.value <|
    setIfPresent setConfigurable fields.configurable <|
    setIfPresent setEnumerable fields.enumerable {}

/-- What an entry of the sparse map holds: a value or a `GetterSetter`, whose functions are
`undefined` where the source has null. -/
inductive EntryValue (α : Type) where
  | value (value : α)
  | getterSetter (getter setter : α)
  deriving DecidableEq, Repr

def EntryValue.setter {α : Type} [Inhabited α] : EntryValue α → α
  | .value _ => default
  | .getterSetter _ setter => setter

structure SparseArrayEntry (α : Type) where
  value : EntryValue α
  attributes : Attributes := {}
  deriving DecidableEq, Repr

def unconfigurablePropertyChangeConfigurabilityError : String :=
  "Attempting to change configurable attribute of unconfigurable property."

def unconfigurablePropertyChangeEnumerabilityError : String :=
  "Attempting to change enumerable attribute of unconfigurable property."

def unconfigurablePropertyChangeAccessMechanismError : String :=
  "Attempting to change access mechanism for an unconfigurable property."

def unconfigurablePropertyChangeWritabilityError : String :=
  "Attempting to change writable attribute of unconfigurable property."

def readonlyPropertyChangeError : String := "Attempting to change value of a readonly property."

def nonExtensibleObjectPropertyDefineError : String :=
  "Attempting to define property on object that is not extensible."

def readonlyPropertyWriteError : String := "Attempted to assign to readonly property."

section Entries

variable {α : Type} [Inhabited α]

/-- `SparseArrayEntry::get`, which fills a descriptor from an entry. -/
def SparseArrayEntry.descriptor (entry : SparseArrayEntry α) : PropertyDescriptor α :=
  match entry.value with
  | .value value =>
    { value := some value, attributes := entry.attributes
      writablePresent := true, enumerablePresent := true, configurablePresent := true }
  | .getterSetter getter setter =>
    { getter := some getter, setter := some setter
      attributes := { entry.attributes with readOnly := false }
      enumerablePresent := true, configurablePresent := true }

def putIndexedDescriptor (entry : SparseArrayEntry α)
    (descriptor oldDescriptor : PropertyDescriptor α) : SparseArrayEntry α :=
  let attributes := descriptor.attributesOverridingCurrent oldDescriptor
  if descriptor.isDataDescriptor then
    { value :=
        match descriptor.value with
        | some value => .value value
        | none => if oldDescriptor.isAccessorDescriptor then .value default else entry.value
      attributes := { attributes with accessor := false } }
  else if descriptor.isAccessorDescriptor then
    { value := .getterSetter
        (descriptor.getter.getD (oldDescriptor.getter.getD default))
        (descriptor.setter.getD (oldDescriptor.setter.getD default))
      attributes := { attributes with readOnly := false } }
  else { entry with attributes }

/-- The descriptor whose attributes a new property takes where its own are absent. -/
def newPropertyDefaults : PropertyDescriptor α :=
  { value := some default
    writablePresent := true, enumerablePresent := true, configurablePresent := true }

/-- The checks 7 to 11 of `defineOwnIndexedProperty`: the message of the error, if there is one. -/
def validateIndexedDescriptor [DecidableEq α] (descriptor current : PropertyDescriptor α) :
    Option String :=
  if !current.configurable && descriptor.configurablePresent && descriptor.configurable then
    some unconfigurablePropertyChangeConfigurabilityError
  else if !current.configurable && descriptor.enumerablePresent
      && current.enumerable != descriptor.enumerable then
    some unconfigurablePropertyChangeEnumerabilityError
  else if descriptor.isGenericDescriptor then none
  else if current.isDataDescriptor != descriptor.isDataDescriptor then
    if !current.configurable then some unconfigurablePropertyChangeAccessMechanismError else none
  else if current.isDataDescriptor && descriptor.isDataDescriptor then
    if !current.configurable && !current.writable then
      if descriptor.writable then some unconfigurablePropertyChangeWritabilityError
      else if descriptor.value.isSome && descriptor.value != current.value then
        some readonlyPropertyChangeError
      else none
    else none
  else if !current.configurable then
    if descriptor.setter.isSome && descriptor.setter != current.setter then
      some "Attempting to change the setter of an unconfigurable property."
    else if descriptor.getter.isSome && descriptor.getter != current.getter then
      some "Attempting to change the getter of an unconfigurable property."
    else none
  else none

end Entries

structure IndexedStorage (α : Type) where
  entries : Nat → Option (SparseArrayEntry α) := fun _ => none
  length : Nat := 0
  sparse : Bool := false
  extensible : Bool := true

/-- What a write comes to: it is done or refused, or it has to call a setter. -/
inductive PutResult (α : Type) where
  | done
  | failed (message : String)
  | callSetter (setter : α)
  deriving DecidableEq, Repr

namespace IndexedStorage

variable {α : Type}

def set (storage : IndexedStorage α) (index : Nat) (entry : SparseArrayEntry α) :
    IndexedStorage α :=
  { storage with
    entries := Function.update storage.entries index (some entry)
    length := max storage.length (index + 1) }

def getOwnPropertySlotByIndex (storage : IndexedStorage α) (index : Nat) :
    Option (SparseArrayEntry α) :=
  if storage.length ≤ index then none else storage.entries index

/-- `putDirectIndex` without attributes, which a read-only entry refuses. -/
def putDirectIndex (storage : IndexedStorage α) (index : Nat) (value : α) : IndexedStorage α :=
  if (storage.entries index).any (·.attributes.readOnly) then storage
  else storage.set index { value := .value value }

def putByIndex [Inhabited α] (storage : IndexedStorage α) (index : Nat) (value : α) :
    PutResult α × IndexedStorage α :=
  match storage.entries index with
  | none =>
    if !storage.extensible then (.failed readonlyPropertyWriteError, storage)
    else (.done, storage.set index { value := .value value })
  | some entry =>
    if !entry.attributes.accessor then
      if entry.attributes.readOnly then (.failed readonlyPropertyWriteError, storage)
      else (.done, storage.set index { entry with value := .value value })
    else (.callSetter entry.value.setter, storage)

def deletePropertyByIndex (storage : IndexedStorage α) (index : Nat) : Bool × IndexedStorage α :=
  if (storage.entries index).any (·.attributes.dontDelete) then (false, storage)
  else (true, { storage with entries := Function.update storage.entries index none })

/-- Ascending indices: those of the vector come before those of the sparse map, which are sorted. -/
def getOwnPropertyNames (storage : IndexedStorage α) (includeDontEnumProperties : Bool) :
    List Nat :=
  (List.range storage.length).filter fun index =>
    (storage.entries index).any fun entry =>
      includeDontEnumProperties || !entry.attributes.dontEnum

variable [DecidableEq α] [Inhabited α]

/-- The steps of `defineOwnIndexedProperty` for the entry it finds in the sparse map. -/
def defineInSparseMap (storage : IndexedStorage α) (index : Nat)
    (descriptor : PropertyDescriptor α) :
    Option (SparseArrayEntry α) → Option String × IndexedStorage α
  | none =>
    if !storage.extensible then (some nonExtensibleObjectPropertyDefineError, storage)
    else (none, storage.set index
      (putIndexedDescriptor { value := .value default } descriptor newPropertyDefaults))
  | some entry =>
    if descriptor.isEmpty || descriptor.equalTo entry.descriptor then (none, storage)
    else if (validateIndexedDescriptor descriptor entry.descriptor).isSome then
      (validateIndexedDescriptor descriptor entry.descriptor, storage)
    else (none, storage.set index (putIndexedDescriptor entry descriptor entry.descriptor))

/-- The message of the error, if the definition is refused, and the storage afterwards. -/
def defineOwnIndexedProperty (storage : IndexedStorage α) (index : Nat)
    (descriptor : PropertyDescriptor α) : Option String × IndexedStorage α :=
  if !storage.sparse && descriptor.attributes = {} && descriptor.value.isSome then
    -- The fast case: all attributes are given as true.
    (none, storage.putDirectIndex index (descriptor.value.getD default))
  else
    { storage with sparse := true }.defineInSparseMap index descriptor (storage.entries index)

end IndexedStorage

end JavaScriptCore.Runtime
