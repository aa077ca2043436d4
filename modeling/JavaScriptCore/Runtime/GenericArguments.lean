import JavaScriptCore.Runtime.PropertyDescriptor
import Mathlib.Data.List.Range

/-!
# Arguments objects of sloppy code

`runtime/GenericArgumentsInlines.h:71-297`: the properties with an index of the two kinds of
arguments objects, `DirectArguments` and `ScopedArguments`. What belongs to an index is spread over
the slot that holds the argument, whose parameter is kept there as well, over two flags, and over
the indexed storage of the object. The two kinds differ in the length up to which they keep the flag
of a modified descriptor: all arguments (`runtime/DirectArguments.h:137-145`) or those with a
parameter of the function (`runtime/ScopedArguments.h:137-145`). The names `length`, `callee` and
`Symbol.iterator` are left out.
-/

namespace JavaScriptCore.Runtime

structure GenericArguments (α : Type) where
  internalLength : Nat
  modifiedLength : Nat
  slots : Nat → α
  unmapped : Nat → Bool := fun _ => false
  modified : Nat → Bool := fun _ => false
  storage : IndexedStorage α := {}

namespace GenericArguments

variable {α : Type}

def isMappedArgument (arguments : GenericArguments α) (index : Nat) : Bool :=
  index < arguments.internalLength && !arguments.unmapped index

def getIndexQuickly (arguments : GenericArguments α) (index : Nat) : α := arguments.slots index

def setIndexQuickly (arguments : GenericArguments α) (index : Nat) (value : α) :
    GenericArguments α :=
  { arguments with slots := Function.update arguments.slots index value }

def unmapArgument (arguments : GenericArguments α) (index : Nat) : GenericArguments α :=
  { arguments with unmapped := Function.update arguments.unmapped index true }

def setModifiedArgumentDescriptor (arguments : GenericArguments α) (index : Nat) :
    GenericArguments α :=
  if index < arguments.modifiedLength then
    { arguments with modified := Function.update arguments.modified index true }
  else arguments

def isModifiedArgumentDescriptor (arguments : GenericArguments α) (index : Nat) : Bool :=
  index < arguments.modifiedLength && arguments.modified index

def getOwnPropertySlotByIndex (arguments : GenericArguments α) (index : Nat) :
    Option (SparseArrayEntry α) :=
  if !arguments.isModifiedArgumentDescriptor index && arguments.isMappedArgument index then
    some { value := .value (arguments.getIndexQuickly index) }
  else
    let result := arguments.storage.getOwnPropertySlotByIndex index
    if arguments.isMappedArgument index then
      some { value := .value (arguments.getIndexQuickly index)
             attributes := (result.map (·.attributes)).getD {} }
    else result

/-- Adding a name to a `PropertyNameArray`, which holds each name once. -/
def addName (names : List Nat) (index : Nat) : List Nat :=
  if names.contains index then names else names ++ [index]

def getOwnPropertyNames (arguments : GenericArguments α) (includeDontEnumProperties : Bool) :
    List Nat :=
  let mapped := (List.range arguments.internalLength).filter arguments.isMappedArgument
  (arguments.storage.getOwnPropertyNames includeDontEnumProperties).foldl addName
    (mapped.foldl addName [])

def putDirectIndex (arguments : GenericArguments α) (index : Nat) (value : α) :
    GenericArguments α :=
  { arguments with storage := arguments.storage.putDirectIndex index value }

section Operations

variable [Inhabited α]

def putByIndex (arguments : GenericArguments α) (index : Nat) (value : α) :
    PutResult α × GenericArguments α :=
  if arguments.isMappedArgument index then (.done, arguments.setIndexQuickly index value)
  else
    let (result, storage) := arguments.storage.putByIndex index value
    (result, { arguments with storage })

def deletePropertyByIndex (arguments : GenericArguments α) (index : Nat) :
    Bool × GenericArguments α :=
  let propertyMightBeInJSObjectStorage :=
    arguments.isModifiedArgumentDescriptor index || !arguments.isMappedArgument index
  let (deletedProperty, storage) :=
    if propertyMightBeInJSObjectStorage then arguments.storage.deletePropertyByIndex index
    else (true, arguments.storage)
  let arguments := { arguments with storage }
  if deletedProperty then
    let arguments :=
      if arguments.isMappedArgument index then arguments.unmapArgument index else arguments
    (true, arguments.setModifiedArgumentDescriptor index)
  else (false, arguments)

variable [DecidableEq α]

/-- Makes an aliased argument see the value of a data descriptor. -/
def seeValue (arguments : GenericArguments α) (index : Nat) (descriptor : PropertyDescriptor α) :
    GenericArguments α :=
  descriptor.value.elim arguments (arguments.setIndexQuickly index)

/-- Gives an argument whose descriptor is not modified yet a property of its own. -/
def initializeDescriptor (arguments : GenericArguments α) (index : Nat) : GenericArguments α :=
  if arguments.isModifiedArgumentDescriptor index then arguments
  else
    (arguments.putDirectIndex index (arguments.getIndexQuickly index)).setModifiedArgumentDescriptor
      index

/-- The second half of `defineOwnProperty`: an argument that becomes read-only or an accessor is
unmapped, and the object's own machinery does the rest. -/
def defineUnmapping (arguments : GenericArguments α) (index : Nat)
    (descriptor : PropertyDescriptor α) : Option String × GenericArguments α :=
  let arguments :=
    if arguments.isMappedArgument index
        && ((descriptor.writablePresent && !descriptor.writable)
          || descriptor.isAccessorDescriptor) then
      let arguments :=
        if !descriptor.isAccessorDescriptor then
          arguments.putDirectIndex index (arguments.getIndexQuickly index)
        else arguments
      (arguments.unmapArgument index).setModifiedArgumentDescriptor index
    else arguments
  let (error, storage) := arguments.storage.defineOwnIndexedProperty index descriptor
  (error, { arguments with storage })

def defineOwnProperty (arguments : GenericArguments α) (index : Nat)
    (descriptor : PropertyDescriptor α) : Option String × GenericArguments α :=
  if !descriptor.isAccessorDescriptor && arguments.isMappedArgument index then
    let arguments := arguments.seeValue index descriptor
    if descriptor.writable && descriptor.configurable && descriptor.enumerable
        && !arguments.isModifiedArgumentDescriptor index then (none, arguments)
    else (arguments.initializeDescriptor index).defineUnmapping index descriptor
  else arguments.defineUnmapping index descriptor

end Operations

end GenericArguments

end JavaScriptCore.Runtime
