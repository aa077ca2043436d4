import JavaScriptCore.Runtime.PropertyDescriptor

/-!
# Definitions on a plain object

`runtime/JSObject.cpp:3496-3713`: `validateAndApplyPropertyDescriptor` and `putDescriptor`, which
define a property with a name by removing it and adding it again, and `defineOwnProperty`, which
leads an index to the indexed storage of `PropertyDescriptor.lean`.

The named properties are those of the property table in its order, each with the value of its slot;
`PropertyTable/OrderedMap.lean` and `Structure/Dictionary.lean` say how a structure keeps them. A
property has the same parts as an entry of the sparse map. Static properties and custom accessors
are left out.
-/

namespace JavaScriptCore.Runtime

/-- What a definition uses of the object that it is made on. -/
class PropertyStore (σ : Type) (K α : outParam Type) where
  getDirect : σ → K → Option (SparseArrayEntry α)
  putDirect : σ → K → EntryValue α → Attributes → σ
  deleteProperty : σ → K → Bool → Bool × σ

abbrev NamedProperties (K α : Type) := List (K × SparseArrayEntry α)

namespace NamedProperties

variable {K α : Type} [DecidableEq K]

def getDirect (properties : NamedProperties K α) (name : K) : Option (SparseArrayEntry α) :=
  properties.lookup name

/-- `putDirectInternal<PutModeDefineOwnProperty>`: a property that is there keeps its place and,
if the value is of the same kind, its attributes. -/
def putDirect (properties : NamedProperties K α) (name : K) (value : EntryValue α)
    (attributes : Attributes) : NamedProperties K α :=
  match properties.getDirect name with
  | none => properties ++ [(name, { value, attributes })]
  | some current =>
    properties.map fun property =>
      if property.1 = name then
        (name, { value, attributes :=
          if attributes.accessor != current.attributes.accessor then attributes
          else current.attributes })
      else property

/-- `deleteProperty`; a definition deletes with `DeletePropertyMode::IgnoreConfigurable`. -/
def deleteProperty (properties : NamedProperties K α) (name : K)
    (ignoreConfigurable : Bool) : Bool × NamedProperties K α :=
  match properties.getDirect name with
  | none => (true, properties)
  | some current =>
    if current.attributes.dontDelete && !ignoreConfigurable then (false, properties)
    else (true, properties.filter fun property => property.1 ≠ name)

instance : PropertyStore (NamedProperties K α) K α where
  getDirect := getDirect
  putDirect := putDirect
  deleteProperty := deleteProperty

end NamedProperties

namespace PropertyStore

variable {σ K α : Type} [PropertyStore σ K α] [Inhabited α]

def putDescriptor (object : σ) (name : K) (descriptor : PropertyDescriptor α)
    (attributes : Attributes) (oldDescriptor : PropertyDescriptor α) : σ :=
  if descriptor.isGenericDescriptor || descriptor.isDataDescriptor then
    if descriptor.isGenericDescriptor && oldDescriptor.isAccessorDescriptor then
      putDirect object name
        (.getterSetter (oldDescriptor.getter.getD default) (oldDescriptor.setter.getD default))
        { attributes with accessor := true }
    else
      putDirect object name
        (.value ((descriptor.value.or oldDescriptor.value).getD default))
        { attributes with accessor := false }
  else
    putDirect object name
      (.getterSetter ((descriptor.getter.or oldDescriptor.getter).getD default)
        ((descriptor.setter.or oldDescriptor.setter).getD default))
      { attributes with readOnly := false, accessor := true }

/-- The property is deleted and put again. -/
def redefine (object : σ) (name : K) (descriptor current : PropertyDescriptor α) : σ :=
  putDescriptor (deleteProperty object name true).2 name descriptor
    (descriptor.attributesOverridingCurrent current) current

variable [DecidableEq α]

/-- The message of the error, if the definition is refused, and the object afterwards. `current` is
the descriptor of the property that is there. -/
def validateAndApplyPropertyDescriptor (object : σ) (name : K) (isExtensible : Bool)
    (descriptor : PropertyDescriptor α) : Option (PropertyDescriptor α) → Option String × σ
  | none =>
    if !isExtensible then (some nonExtensibleObjectPropertyDefineError, object)
    else (none, putDescriptor object name descriptor descriptor.attributes
      { value := some default })
  | some current =>
    if descriptor.isEmpty then (none, object)
    else if current.equalTo descriptor then (none, object)
    else if !current.configurable && descriptor.configurable then
      (some unconfigurablePropertyChangeConfigurabilityError, object)
    else if !current.configurable && descriptor.enumerablePresent
        && descriptor.enumerable != current.enumerable then
      (some unconfigurablePropertyChangeEnumerabilityError, object)
    else if descriptor.isGenericDescriptor then
      if !current.attributesEqual descriptor then
        (none, redefine object name descriptor current)
      else (none, object)
    else if descriptor.isDataDescriptor != current.isDataDescriptor then
      if !current.configurable then
        (some unconfigurablePropertyChangeAccessMechanismError, object)
      else (none, redefine object name descriptor current)
    else if descriptor.isDataDescriptor then
      if !current.configurable && !current.writable && descriptor.writable then
        (some unconfigurablePropertyChangeWritabilityError, object)
      else if !current.configurable && !current.writable && descriptor.value.isSome
          && current.value != descriptor.value then
        (some readonlyPropertyChangeError, object)
      else if current.attributesEqual descriptor && descriptor.value.isNone then (none, object)
      else (none, redefine object name descriptor current)
    else if !current.configurable && descriptor.setter.isSome
        && current.setter != descriptor.setter then
      (some "Attempting to change the setter of an unconfigurable property.", object)
    else if !current.configurable && descriptor.getter.isSome
        && current.getter != descriptor.getter then
      (some "Attempting to change the getter of an unconfigurable property.", object)
    else if current.attributesEqual descriptor && descriptor.setter.isNone
        && descriptor.getter.isNone then (none, object)
    else
      -- The functions of the property itself are those of its descriptor.
      (none, putDirect (deleteProperty object name true).2 name
        (.getterSetter ((descriptor.getter.or current.getter).getD default)
          ((descriptor.setter.or current.setter).getD default))
        { descriptor.attributesOverridingCurrent current with accessor := true })

def defineOwnNonIndexProperty (object : σ) (name : K) (isExtensible : Bool)
    (descriptor : PropertyDescriptor α) : Option String × σ :=
  validateAndApplyPropertyDescriptor object name isExtensible descriptor
    ((getDirect object name).map SparseArrayEntry.descriptor)

end PropertyStore

inductive PropertyKey (K : Type) where
  | index (index : Nat)
  | name (name : K)
  deriving DecidableEq, Repr

/-- An object without properties of its own kind. Its extensibility is kept with the indexed
storage. -/
structure OrdinaryObject (K α : Type) where
  named : NamedProperties K α := []
  indexed : IndexedStorage α := {}

namespace OrdinaryObject

variable {K α : Type}

def isExtensible (object : OrdinaryObject K α) : Bool := object.indexed.extensible

variable [DecidableEq K] [DecidableEq α] [Inhabited α]

def defineOwnProperty (object : OrdinaryObject K α) (key : PropertyKey K)
    (descriptor : PropertyDescriptor α) : Option String × OrdinaryObject K α :=
  match key with
  | .index index =>
    let (error, indexed) := object.indexed.defineOwnIndexedProperty index descriptor
    (error, { object with indexed })
  | .name name =>
    let (error, named) :=
      PropertyStore.defineOwnNonIndexProperty object.named name object.isExtensible descriptor
    (error, { object with named })

end OrdinaryObject

end JavaScriptCore.Runtime
