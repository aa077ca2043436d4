import JavaScriptCore.Runtime.GenericArguments
import JavaScriptCore.Runtime.OrdinaryProperty

/-!
# Mapped arguments objects

The arguments exotic object of the language: an ordinary object with a map that connects some of its
indices to the parameters of the function. `Refines` relates an arguments object of the source to
it, index by index, and the steps of the source are followed by steps of the exotic object, except
where the source does its own part of a definition before it knows whether the definition stands, or
loses the attributes that an index has.
-/

namespace JavaScriptCore.Runtime

open Function List OwnProperty DescriptorFields

section Fields

variable {α : Type}

theorem DescriptorFields.separate_of_not_accessor {fs : DescriptorFields α}
    (hna : fs.isAccessor = false) {v : Option α} {wr : Option Bool}
    (acs : fs.getter.isSome = true ∨ fs.setter.isSome = true) :
    v = none ∧ wr = none :=
  absurd acs (by simpa [isAccessor] using hna)

/-- The fields of a definition together with a value. -/
def DescriptorFields.withValue (fields : DescriptorFields α) (value : α)
    (notAccessor : fields.isAccessor = false) : DescriptorFields α :=
  { fields with
    value := some value
    separate := separate_of_not_accessor notAccessor }

def OwnProperty.withValue (value : α) : OwnProperty α → OwnProperty α
  | .data _ writable enumerable configurable => .data value writable enumerable configurable
  | .accessor getter setter enumerable configurable =>
    .accessor getter setter enumerable configurable

end Fields

/-- An arguments exotic object, with the parameters that its map leads to. -/
structure MappedArguments (α : Type) where
  properties : Nat → Option (OwnProperty α)
  map : Nat → Bool
  parameters : Nat → α

namespace MappedArguments

variable {α : Type}

def getOwnProperty (object : MappedArguments α) (index : Nat) : Option (OwnProperty α) :=
  (object.properties index).map fun property =>
    if object.map index then property.withValue (object.parameters index) else property

def setParameter (object : MappedArguments α) (index : Nat) (value : α) : MappedArguments α :=
  { object with parameters := update object.parameters index value }

def removeMapping (object : MappedArguments α) (index : Nat) : MappedArguments α :=
  { object with map := update object.map index false }

def delete (object : MappedArguments α) (index : Nat) : Bool × MappedArguments α :=
  let (deleted, property) := ordinaryDelete (object.properties index)
  let object := { object with properties := update object.properties index property }
  (deleted, if deleted && object.map index then object.removeMapping index else object)

variable [DecidableEq α] [Inhabited α]

/-- An argument that becomes read-only keeps the value of its parameter. -/
def newArgumentFields (object : MappedArguments α) (index : Nat) (fields : DescriptorFields α) :
    DescriptorFields α :=
  if plain : fields.isAccessor = false then
    if object.map index && fields.value = none && fields.writable = some false then
      fields.withValue (object.parameters index) plain
    else fields
  else fields

/-- What a definition that stands does to the map. -/
def updateMap (object : MappedArguments α) (index : Nat) (fields : DescriptorFields α) :
    MappedArguments α :=
  if object.map index then
    if fields.isAccessor then object.removeMapping index
    else
      let object := fields.value.elim object (object.setParameter index)
      if fields.writable = some false then object.removeMapping index else object
  else object

def defineOwnProperty (object : MappedArguments α) (index : Nat) (fields : DescriptorFields α) :
    Bool × MappedArguments α :=
  match ordinaryDefine true (object.properties index) (object.newArgumentFields index fields) with
  | none => (false, object)
  | some property =>
    (true, updateMap
      { object with properties := update object.properties index (some property) }
      index fields)

def set (object : MappedArguments α) (index : Nat) (value : α) :
    WriteOutcome α × MappedArguments α :=
  let object := if object.map index then object.setParameter index value else object
  match object.getOwnProperty index with
  | none =>
    (.written, { object with
      properties := update object.properties index (some (.data value true true true)) })
  | some (.data _ writable _ _) =>
    if writable then (.written, (object.defineOwnProperty index (.ofValue value)).2)
    else (.refused, object)
  | some (.accessor _ setter _ _) => (.setterCalled setter, object)

end MappedArguments

/-- What a program does to an arguments object and to the parameters it is aliased to. -/
inductive ArgumentsOperation (α : Type) where
  | getOwnProperty (index : Nat)
  | set (index : Nat) (value : α)
  | delete (index : Nat)
  | define (index : Nat) (fields : DescriptorFields α)
  | ownKeys (includeDontEnum : Bool)
  | assignParameter (index : Nat) (value : α)
  | readParameter (index : Nat)

inductive ArgumentsResponse (α : Type) where
  | property (property : Option (OwnProperty α))
  | outcome (outcome : WriteOutcome α)
  | success (success : Bool)
  | keys (keys : List Nat)
  | value (value : α)
  | nothing
  deriving DecidableEq

section Steps

variable {α : Type} [DecidableEq α] [Inhabited α]

def GenericArguments.ownProperty (arguments : GenericArguments α) (index : Nat) :
    Option (OwnProperty α) :=
  (arguments.getOwnPropertySlotByIndex index).map SparseArrayEntry.property

/-- An operation on the arguments object of the source. -/
def GenericArguments.step (arguments : GenericArguments α) :
    ArgumentsOperation α → ArgumentsResponse α × GenericArguments α
  | .getOwnProperty index => (.property (arguments.ownProperty index), arguments)
  | .set index value =>
    let (result, arguments) := arguments.putByIndex index value
    (.outcome result.outcome, arguments)
  | .delete index =>
    let (deleted, arguments) := arguments.deletePropertyByIndex index
    (.success deleted, arguments)
  | .define index fields =>
    let (error, arguments) := arguments.defineOwnProperty index (toPropertyDescriptor fields)
    (.success error.isNone, arguments)
  | .ownKeys includeDontEnum => (.keys (arguments.getOwnPropertyNames includeDontEnum), arguments)
  | .assignParameter index value => (.nothing, arguments.setIndexQuickly index value)
  | .readParameter index => (.value (arguments.getIndexQuickly index), arguments)

/-- An operation on the exotic object may answer so: its keys are listed in ascending order. -/
def MappedArguments.Step (object : MappedArguments α) :
    ArgumentsOperation α → ArgumentsResponse α → MappedArguments α → Prop
  | .getOwnProperty index, response, object' =>
    response = .property (object.getOwnProperty index) ∧ object' = object
  | .set index value, response, object' =>
    response = .outcome (object.set index value).1 ∧ object' = (object.set index value).2
  | .delete index, response, object' =>
    response = .success (object.delete index).1 ∧ object' = (object.delete index).2
  | .define index fields, response, object' =>
    response = .success (object.defineOwnProperty index fields).1 ∧
      object' = (object.defineOwnProperty index fields).2
  | .ownKeys includeDontEnum, response, object' =>
    object' = object ∧ ∃ keys, response = .keys keys ∧ keys.Pairwise (· < ·) ∧
      ∀ index, index ∈ keys ↔ ∃ property, object.getOwnProperty index = some property ∧
        (includeDontEnum = true ∨ property.enumerable = true)
  | .assignParameter index value, response, object' =>
    response = .nothing ∧ object' = object.setParameter index value
  | .readParameter index, response, object' =>
    response = .value (object.parameters index) ∧ object' = object

/-- An index of the source and of the exotic object agree: an aliased index has its value in its
slot and its attributes in the storage, if they are not those it started with, and the storage holds
every other property. `formals` is the number of parameters. -/
structure AgreeAt (formals : Nat) (arguments : GenericArguments α) (object : MappedArguments α)
    (index : Nat) : Prop where
  parameter : index < formals → index < arguments.internalLength →
    arguments.slots index = object.parameters index
  mapped : arguments.isMappedArgument index = true →
    (object.map index = true ↔ index < formals) ∧
      ∃ value enumerable configurable,
        object.properties index = some (.data value true enumerable configurable) ∧
        (object.map index = false → value = arguments.slots index) ∧
        if arguments.isModifiedArgumentDescriptor index then
          ∃ stale, arguments.storage.view index
            = some (.data stale true enumerable configurable)
        else arguments.storage.view index = none ∧ enumerable = true ∧ configurable = true
  unmapped : arguments.isMappedArgument index = false →
    object.map index = false ∧ object.properties index = arguments.storage.view index

structure Refines (formals : Nat) (arguments : GenericArguments α) (object : MappedArguments α) :
    Prop where
  storage : arguments.storage.WellFormed
  extensible : arguments.storage.extensible = true
  agree : ∀ index, AgreeAt formals arguments object index

end Steps

section Frames

variable {α : Type}

/-- Two arguments objects have the same at an index. -/
structure GenericArguments.SameAt (arguments arguments' : GenericArguments α) (index : Nat) :
    Prop where
  internalLength : arguments'.internalLength = arguments.internalLength
  slots : arguments'.slots index = arguments.slots index
  mapped : arguments'.isMappedArgument index = arguments.isMappedArgument index
  modified : arguments'.isModifiedArgumentDescriptor index
    = arguments.isModifiedArgumentDescriptor index
  view : arguments'.storage.view index = arguments.storage.view index

structure MappedArguments.SameAt (object object' : MappedArguments α) (index : Nat) : Prop where
  properties : object'.properties index = object.properties index
  map : object'.map index = object.map index
  parameters : object'.parameters index = object.parameters index

/-- An operation of the source on one index leaves the others, and the storage in order. -/
structure GenericArguments.ChangesOnly (arguments : GenericArguments α) (index : Nat)
    (arguments' : GenericArguments α) : Prop where
  storage : arguments'.storage.WellFormed
  extensible : arguments'.storage.extensible = arguments.storage.extensible
  internalLength : arguments'.internalLength = arguments.internalLength
  same : ∀ other, other ≠ index → arguments.SameAt arguments' other

theorem AgreeAt.congr {formals : Nat} {args args' : GenericArguments α}
    {object obj' : MappedArguments α} {i : Nat} (ha : AgreeAt formals args object i)
    (same : args.SameAt args' i) (same' : object.SameAt obj' i) :
    AgreeAt formals args' obj' i where
  parameter named hpr := by
    rw [same.slots, same'.parameters]
    exact ha.parameter named (same.internalLength ▸ hpr)
  mapped hm := by
    rw [same.slots, same.modified, same.view, same'.properties, same'.map]
    exact ha.mapped (same.mapped ▸ hm)
  unmapped hnm := by
    rw [same.view, same'.properties, same'.map]
    exact ha.unmapped (same.mapped ▸ hnm)

/-- An operation on one index leaves the agreement of the others. -/
theorem Refines.of_index {formals : Nat} {args args' : GenericArguments α}
    {object obj' : MappedArguments α} (hr : Refines formals args object) {i : Nat}
    (hch : args.ChangesOnly i args') (same : ∀ other, other ≠ i → object.SameAt obj' other)
    (ha : AgreeAt formals args' obj' i) : Refines formals args' obj' := by
  refine ⟨hch.storage, hch.extensible.trans hr.extensible, fun other => ?_⟩
  by_cases equal : other = i
  · exact equal ▸ ha
  · exact (hr.agree other).congr (hch.same other equal) (same other equal)

namespace GenericArguments

variable {args : GenericArguments α} {i other : Nat}

theorem SameAt.trans {first second third : GenericArguments α} (before : first.SameAt second other)
    (after : second.SameAt third other) : first.SameAt third other :=
  ⟨after.internalLength.trans before.internalLength, after.slots.trans before.slots,
    after.mapped.trans before.mapped, after.modified.trans before.modified,
    after.view.trans before.view⟩

theorem ChangesOnly.refl (hwf : args.storage.WellFormed) : args.ChangesOnly i args :=
  ⟨hwf, rfl, rfl, fun _ _ => ⟨rfl, rfl, rfl, rfl, rfl⟩⟩

theorem ChangesOnly.trans {first second third : GenericArguments α}
    (before : first.ChangesOnly i second) (after : second.ChangesOnly i third) :
    first.ChangesOnly i third :=
  ⟨after.storage, after.extensible.trans before.extensible,
    after.internalLength.trans before.internalLength,
    fun other hne => (before.same other hne).trans (after.same other hne)⟩

variable (hwf : args.storage.WellFormed)

include hwf

theorem changesOnly_setIndexQuickly (i : Nat) (v : α) :
    args.ChangesOnly i (args.setIndexQuickly i v) :=
  ⟨hwf, rfl, rfl, fun _ hne =>
    ⟨rfl, update_of_ne hne .., rfl, rfl, rfl⟩⟩

theorem changesOnly_unmapArgument (i : Nat) :
    args.ChangesOnly i (args.unmapArgument i) :=
  ⟨hwf, rfl, rfl, fun _ hne =>
    ⟨rfl, rfl, congrArg (_ && !·) (update_of_ne hne ..), rfl, rfl⟩⟩

theorem changesOnly_setModifiedArgumentDescriptor :
    args.ChangesOnly i (args.setModifiedArgumentDescriptor i) := by
  unfold setModifiedArgumentDescriptor
  split_ifs with kept
  · exact ⟨hwf, rfl, rfl, fun _ hne =>
      ⟨rfl, rfl, rfl, by simp [isModifiedArgumentDescriptor, hne], rfl⟩⟩
  · exact .refl hwf

omit hwf

theorem changesOnly_storage (args : GenericArguments α) {storage : IndexedStorage α}
    (hwf : storage.WellFormed) (hex : storage.extensible = args.storage.extensible)
    {p : Option (OwnProperty α)} (changed : storage.view = update args.storage.view i p) :
    args.ChangesOnly i { args with storage } :=
  ⟨hwf, hex, rfl, fun _ hne =>
    ⟨rfl, rfl, rfl, rfl, by simp only [changed, update_of_ne hne]⟩⟩

@[simp] theorem setModifiedArgumentDescriptor_keeps (args : GenericArguments α) (i : Nat) :
    (args.setModifiedArgumentDescriptor i).slots = args.slots ∧
      (args.setModifiedArgumentDescriptor i).storage = args.storage ∧
      (args.setModifiedArgumentDescriptor i).internalLength = args.internalLength ∧
      (args.setModifiedArgumentDescriptor i).isMappedArgument = args.isMappedArgument := by
  unfold setModifiedArgumentDescriptor
  split_ifs <;> exact ⟨rfl, rfl, rfl, rfl⟩

/-- The end of an alias. -/
theorem ChangesOnly.unmap {args' : GenericArguments α} (hch : args.ChangesOnly i args') :
    args.ChangesOnly i ((args'.unmapArgument i).setModifiedArgumentDescriptor i) ∧
      ((args'.unmapArgument i).setModifiedArgumentDescriptor i).isMappedArgument i = false := by
  have unmaps := hch.trans (changesOnly_unmapArgument hch.storage i)
  refine ⟨unmaps.trans (changesOnly_setModifiedArgumentDescriptor unmaps.storage), ?_⟩
  rw [(setModifiedArgumentDescriptor_keeps ..).2.2.2]
  simp [unmapArgument, isMappedArgument]

end GenericArguments

namespace MappedArguments

variable {i other : Nat}

variable (object : MappedArguments α)

theorem SameAt.refl : object.SameAt object other := ⟨rfl, rfl, rfl⟩

theorem SameAt.trans {first second third : MappedArguments α} (before : first.SameAt second other)
    (after : second.SameAt third other) : first.SameAt third other :=
  ⟨after.properties.trans before.properties, after.map.trans before.map,
    after.parameters.trans before.parameters⟩

theorem sameAt_setParameter (v : α) (hne : other ≠ i) :
    object.SameAt (object.setParameter i v) other :=
  ⟨rfl, rfl, update_of_ne hne ..⟩

theorem sameAt_removeMapping (hne : other ≠ i) :
    object.SameAt (object.removeMapping i) other :=
  ⟨rfl, update_of_ne hne .., rfl⟩

theorem sameAt_properties (p : Option (OwnProperty α)) (hne : other ≠ i) :
    object.SameAt { object with properties := update object.properties i p }
      other :=
  ⟨update_of_ne hne .., rfl, rfl⟩

variable (fs : DescriptorFields α)

@[simp] theorem properties_updateMap (i : Nat) :
    (object.updateMap i fs).properties = object.properties := by
  unfold updateMap
  split_ifs <;> cases fs.value <;> rfl

theorem map_updateMap (i : Nat) :
    (object.updateMap i fs).map i
      = (object.map i && !(fs.isAccessor || fs.writable = some false)) := by
  unfold updateMap
  split_ifs <;> cases fs.value <;> simp_all [removeMapping, setParameter]

theorem parameters_updateMap (i : Nat) :
    (object.updateMap i fs).parameters i = if object.map i then fs.value.getD (object.parameters i)
        else object.parameters i := by
  obtain ⟨acs, hnv, noWritable⟩ | ⟨hna, -⟩ := fs.kind
  · unfold updateMap
    split_ifs <;> simp [hnv, removeMapping]
  · unfold updateMap
    split_ifs <;> cases fs.value <;> simp_all [removeMapping, setParameter]

theorem sameAt_updateMap (hne : other ≠ i) : object.SameAt (object.updateMap i fs) other := by
  unfold updateMap
  split_ifs with hm isAccessor ro
  · exact object.sameAt_removeMapping hne
  · refine SameAt.trans ?_ (sameAt_removeMapping _ hne)
    cases fs.value with
    | none => exact .refl object
    | some v => exact object.sameAt_setParameter v hne
  · cases fs.value with
    | none => exact .refl object
    | some v => exact object.sameAt_setParameter v hne
  · exact .refl object

theorem sameAt_defineOwnProperty [DecidableEq α] [Inhabited α] (hne : other ≠ i) :
    object.SameAt (object.defineOwnProperty i fs).2 other := by
  unfold defineOwnProperty
  split
  · exact .refl object
  · exact (object.sameAt_properties _ hne).trans (sameAt_updateMap _ fs hne)

end MappedArguments

end Frames

section Descriptors

variable {α : Type} {fs : DescriptorFields α}

theorem becomesReadOnly_iff :
    ((toPropertyDescriptor fs).writablePresent && !(toPropertyDescriptor fs).writable) = true
      ↔ fs.writable = some false := by
  rw [toPropertyDescriptor_eq]
  obtain ⟨acs, -, noWritable⟩ | ⟨hna, -⟩ := fs.kind
  · simp [noWritable]
  · cases wr : fs.writable <;> simp [PropertyDescriptor.writable, hna]

theorem grantsAll_iff (hna : fs.isAccessor = false) :
    ((toPropertyDescriptor fs).writable && (toPropertyDescriptor fs).configurable
        && (toPropertyDescriptor fs).enumerable) = true
      ↔ fs.writable = some true ∧ fs.configurable = some true ∧ fs.enumerable = some true := by
  rw [toPropertyDescriptor_eq]
  simp [PropertyDescriptor.writable, PropertyDescriptor.configurable,
    PropertyDescriptor.enumerable, hna, getD_false_iff, and_assoc]

theorem lt_internalLength_of_mapped {args : GenericArguments α} {i : Nat}
    (mapped : args.isMappedArgument i = true) :
    i < args.internalLength := by
  simp only [GenericArguments.isMappedArgument, Bool.and_eq_true, decide_eq_true_eq] at mapped
  exact mapped.1

end Descriptors

section Simulation

open GenericArguments MappedArguments

variable {α : Type} {formals : Nat} {args : GenericArguments α} {object : MappedArguments α}
  {i : Nat}

/-- What an aliased index shows on both sides: the value of its slot. -/
theorem AgreeAt.getOwnProperty_of_mapped (ha : AgreeAt formals args object i)
    (mapped : args.isMappedArgument i = true) {v : α} {en cf : Bool}
    (p : object.properties i = some (.data v true en cf))
    (kept : object.map i = false → v = args.slots i) :
    object.getOwnProperty i = some (.data (args.slots i) true en cf) := by
  have named := (ha.mapped mapped).1
  rw [getOwnProperty, p, Option.map_some]
  cases hm : object.map i with
  | true =>
    rw [ha.parameter (named.mp hm) (lt_internalLength_of_mapped mapped)]
    rfl
  | false =>
    rw [kept hm]
    rfl

theorem MappedArguments.getOwnProperty_of_not_mapped (hnm : object.map i = false) :
    object.getOwnProperty i = object.properties i := by
  simp [getOwnProperty, hnm, Option.map_id']

theorem Refines.ownProperty (hr : Refines formals args object) (i : Nat) :
    args.ownProperty i = object.getOwnProperty i := by
  have ha := hr.agree i
  have slot := hr.storage.getOwnPropertySlotByIndex_eq i
  cases mapped : args.isMappedArgument i with
  | true =>
    obtain ⟨-, v, en, cf, p, kept, hst⟩ := ha.mapped mapped
    rw [ha.getOwnProperty_of_mapped mapped p kept]
    cases hmo : args.isModifiedArgumentDescriptor i with
    | true =>
      rw [hmo, if_pos rfl] at hst
      obtain ⟨stale, view⟩ := hst
      obtain ⟨entry, found, shows⟩ := Option.map_eq_some_iff.mp view
      obtain ⟨_ | _, attributes⟩ := entry
      · simp only [SparseArrayEntry.property, data.injEq] at shows
        obtain ⟨rfl, wr, rfl, rfl⟩ := shows
        simp [GenericArguments.ownProperty, getOwnPropertySlotByIndex, mapped, hmo, getIndexQuickly,
          SparseArrayEntry.property, slot, found, wr]
      · simp [SparseArrayEntry.property] at shows
    | false =>
      rw [hmo, if_neg Bool.false_ne_true] at hst
      obtain ⟨-, rfl, rfl⟩ := hst
      simp [GenericArguments.ownProperty, getOwnPropertySlotByIndex, mapped,
        hmo, getIndexQuickly, SparseArrayEntry.property]
  | false =>
    obtain ⟨hnm, same⟩ := ha.unmapped mapped
    have hsh : args.ownProperty i = args.storage.view i := by
      simp [GenericArguments.ownProperty, getOwnPropertySlotByIndex, mapped, slot,
        IndexedStorage.view]
    rw [hsh, ← same, getOwnProperty_of_not_mapped hnm]

theorem Refines.assignParameter (hr : Refines formals args object) (i : Nat)
    (named : i < formals) (v : α) :
    Refines formals (args.setIndexQuickly i v) (object.setParameter i v) := by
  refine hr.of_index (changesOnly_setIndexQuickly hr.storage i v)
    (fun _ => object.sameAt_setParameter v) ?_
  have ha := hr.agree i
  constructor
  · intro _ _
    simp [setIndexQuickly, setParameter]
  · intro mapped
    obtain ⟨hmap, old, en, cf, p, -, hst⟩ := ha.mapped mapped
    refine ⟨hmap, old, en, cf, p, fun hnm => ?_, hst⟩
    exact absurd (hmap.mpr named) (by simpa [setParameter] using hnm)
  · exact ha.unmapped

variable {args' : GenericArguments α} {obj' : MappedArguments α}

theorem AgreeAt.of_unmapped (parameter : i < formals → i < args'.internalLength →
      args'.slots i = obj'.parameters i)
    (hnm : args'.isMappedArgument i = false) (hnm' : obj'.map i = false)
    (same : obj'.properties i = args'.storage.view i) :
    AgreeAt formals args' obj' i :=
  ⟨parameter, fun mapped => absurd mapped (by simp [hnm]), fun _ => ⟨hnm', same⟩⟩

theorem AgreeAt.of_mapped {v : α} {en cf : Bool} (mapped : args'.isMappedArgument i = true)
    (parameter : i < formals → i < args'.internalLength →
      args'.slots i = obj'.parameters i)
    (hmap : obj'.map i = true ↔ i < formals) (p : obj'.properties i = some (.data v true en cf))
    (kept : obj'.map i = false → v = args'.slots i)
    (hst : if args'.isModifiedArgumentDescriptor i then
        ∃ stale, args'.storage.view i = some (.data stale true en cf)
      else args'.storage.view i = none ∧ en = true ∧ cf = true) :
    AgreeAt formals args' obj' i :=
  ⟨parameter, fun _ => ⟨hmap, v, en, cf, p, kept, hst⟩, fun hnm => absurd mapped (by simp [hnm])⟩

/-- An index that both sides take out of their maps and out of their properties. -/
theorem Refines.of_removed (hr : Refines formals args object)
    {storage : IndexedStorage α} (hwf : storage.WellFormed)
    (hex : storage.extensible = args.storage.extensible)
    (removed : storage.view = update args.storage.view i none)
    (hin : (if args.isModifiedArgumentDescriptor i
          || !args.isMappedArgument i then args.storage.deletePropertyByIndex i
        else (true, args.storage)) = (true, storage))
    (deletes : ordinaryDelete (object.properties i) = (true, none)) :
    (args.deletePropertyByIndex i).1 = (object.delete i).1 ∧
      Refines formals (args.deletePropertyByIndex i).2 (object.delete i).2 := by
  have ha := hr.agree i
  have result : object.delete i = (true,
      { object with
        properties := update object.properties i none
        map := update object.map i false }) := by
    cases hm : object.map i with
    | true => simp [MappedArguments.delete, deletes, removeMapping, hm]
    | false =>
      have kept : update object.map i false = object.map := by
        rw [← hm, update_eq_self]
      simp [MappedArguments.delete, deletes, hm, kept]
  unfold GenericArguments.deletePropertyByIndex
  simp only [hin, result, if_true]
  have hst := args.changesOnly_storage hwf hex removed
  have stays : ∀ other, other ≠ i → object.SameAt
      { object with
        properties := update object.properties i none
        map := update object.map i false } other := fun other hne =>
    (object.sameAt_properties none hne).trans (sameAt_removeMapping _ hne)
  have parameter := ha.parameter
  by_cases mapped : args.isMappedArgument i = true
  · rw [if_pos (show GenericArguments.isMappedArgument { args with storage } i = true
      from mapped)]
    obtain ⟨unmaps, hnm⟩ := hst.unmap
    exact ⟨trivial, hr.of_index unmaps stays (.of_unmapped
      (by simpa [unmapArgument] using parameter) hnm (by simp) (by simp [unmapArgument, removed]))⟩
  · rw [if_neg (show ¬ GenericArguments.isMappedArgument { args with storage } i = true
      from mapped)]
    refine ⟨trivial, hr.of_index (hst.trans
      (changesOnly_setModifiedArgumentDescriptor hst.storage)) stays ?_⟩
    refine .of_unmapped (by simpa using parameter) ?_ (by simp) (by simp [removed])
    rw [(setModifiedArgumentDescriptor_keeps ..).2.2.2]
    exact Bool.eq_false_iff.mpr mapped

theorem Refines.deletePropertyByIndex (hr : Refines formals args object) (i : Nat) :
    (args.deletePropertyByIndex i).1 = (object.delete i).1 ∧
      Refines formals (args.deletePropertyByIndex i).2 (object.delete i).2 := by
  have ha := hr.agree i
  obtain ⟨ans, view⟩ := args.storage.deletePropertyByIndex_view i
  have hwf := hr.storage.deletePropertyByIndex i
  have hex := args.storage.extensible_deletePropertyByIndex i
  by_cases hin : (args.isModifiedArgumentDescriptor i
      || !args.isMappedArgument i) = true
  · have hceq : (object.properties i).all configurable
        = (args.storage.view i).all configurable := by
      cases mapped : args.isMappedArgument i with
      | true =>
        obtain ⟨-, v, en, cf, p, -, hst⟩ := ha.mapped mapped
        rw [if_pos (by simpa [mapped] using hin)] at hst
        obtain ⟨stale, hpr⟩ := hst
        rw [p, hpr]
        rfl
      | false => rw [(ha.unmapped mapped).2]
    rw [ordinaryDelete_eq, ← hceq] at ans view
    by_cases cf : (object.properties i).all configurable = true
    · rw [if_pos cf] at ans view
      refine hr.of_removed hwf hex view ?_ ?_
      · rw [if_pos hin]
        exact Prod.ext ans rfl
      · rw [ordinaryDelete_eq, if_pos cf]
    · rw [if_neg cf] at ans view
      have rejected : args.storage.deletePropertyByIndex i
          = (false, (args.storage.deletePropertyByIndex i).2) := Prod.ext ans rfl
      have kept : object.delete i = (false, object) := by
        simp [MappedArguments.delete, ordinaryDelete_eq, cf]
      unfold GenericArguments.deletePropertyByIndex
      simp only [kept, (if_pos hin).trans rejected, Bool.false_eq_true, if_false]
      rw [update_eq_self] at view
      exact ⟨trivial, hwf, hex.trans hr.extensible, fun other =>
        (hr.agree other).congr ⟨rfl, rfl, rfl, rfl, congrFun view other⟩ (.refl object)⟩
  · obtain ⟨hmod, mapped⟩ : args.isModifiedArgumentDescriptor i = false ∧
        args.isMappedArgument i = true := by simpa using hin
    obtain ⟨-, v, en, cf, p, -, hst⟩ := ha.mapped mapped
    rw [hmod, if_neg Bool.false_ne_true] at hst
    obtain ⟨absent, rfl, rfl⟩ := hst
    refine hr.of_removed hr.storage rfl ?_ (if_neg hin) ?_
    · exact (update_eq_self_iff.mpr absent.symm).symm
    · rw [p]
      rfl

section Writes

variable [DecidableEq α] [Inhabited α]

/-- A write to an index that the map does not lead to a parameter is that of an ordinary object. -/
theorem MappedArguments.set_of_not_mapped (hnm : object.map i = false) (v : α) :
    object.set i v
      = ((ordinarySet true v (object.properties i)).1, { object with
          properties := update object.properties i
            (ordinarySet true v (object.properties i)).2 }) := by
  have hsh := getOwnProperty_of_not_mapped hnm
  have kept : { object with
      properties := update object.properties i (object.properties i) }
        = object := by
    rw [update_eq_self]
  unfold MappedArguments.set
  rw [hnm, if_neg Bool.false_ne_true]
  cases p : object.properties i with
  | none => simp [hsh, p, ordinarySet]
  | some hpr =>
    rw [p] at kept
    obtain ⟨old, wr, en, cf⟩ | ⟨getter, setter, _, _⟩ := hpr
    · cases wr with
      | true =>
        simp [hsh, p, ordinarySet, MappedArguments.defineOwnProperty, newArgumentFields, updateMap,
          hnm, ordinaryDefine, OwnProperty.allows, OwnProperty.allowsKind, OwnProperty.merge,
          ofValue, isAccessor]
      | false => simp [hsh, p, ordinarySet, kept]
    · simp [hsh, p, ordinarySet, kept]

variable {en cf : Bool} {fs : DescriptorFields α} {v : α}

/-- A write to a parameter's index: the value goes to the parameter and to the property. -/
theorem MappedArguments.set_of_mapped (mapped : object.map i = true) {old : α}
    (p : object.properties i = some (.data old true en cf)) (v : α) :
    object.set i v
      = (.written, { object with
          properties := update object.properties i
            (some (.data v true en cf))
          parameters := update object.parameters i v }) := by
  simp [MappedArguments.set, mapped, setParameter, getOwnProperty, p, OwnProperty.withValue,
    MappedArguments.defineOwnProperty, newArgumentFields, updateMap, ordinaryDefine,
    OwnProperty.allows, OwnProperty.allowsKind, OwnProperty.merge, ofValue,
    isAccessor]

variable (hr : Refines formals args object)

include hr in
theorem Refines.putByIndex (i : Nat) (v : α) :
    (args.putByIndex i v).1.outcome = (object.set i v).1 ∧
      Refines formals (args.putByIndex i v).2 (object.set i v).2 := by
  have ha := hr.agree i
  unfold GenericArguments.putByIndex
  cases mapped : args.isMappedArgument i with
  | true =>
    obtain ⟨hmap, old, en, cf, p, kept, hst⟩ := ha.mapped mapped
    have hch := changesOnly_setIndexQuickly hr.storage i v
    cases hm : object.map i with
    | true =>
      rw [set_of_mapped hm p, if_pos rfl]
      refine ⟨rfl, hr.of_index hch (fun other hne =>
        (object.sameAt_properties _ hne).trans
          (sameAt_setParameter _ v hne)) ?_⟩
      refine .of_mapped mapped (fun _ _ => ?_) hmap (update_self ..) ?_ hst
      · simp [setIndexQuickly]
      · simp [setIndexQuickly]
    | false =>
      rw [set_of_not_mapped hm, p, if_pos rfl]
      refine ⟨rfl, hr.of_index hch (fun _ => object.sameAt_properties _) ?_⟩
      refine .of_mapped mapped (fun named => ?_) hmap (update_self ..) ?_ hst
      · exact absurd (hmap.mpr named) (by simp [hm])
      · simp [setIndexQuickly]
  | false =>
    obtain ⟨hnm, same⟩ := ha.unmapped mapped
    obtain ⟨ans, view, hwf⟩ := hr.storage.putByIndex i v
    rw [hr.extensible, ← same] at ans view
    rw [set_of_not_mapped hnm, if_neg Bool.false_ne_true]
    refine ⟨ans, hr.of_index (args.changesOnly_storage hwf
      (args.storage.extensible_putByIndex i v) view)
        (fun _ => object.sameAt_properties _) ?_⟩
    exact .of_unmapped ha.parameter mapped hnm (by simp [view])

/-- The definitions of an aliased index that the source follows: they are allowed, where the source
does something before it asks, and what becomes of the attributes that they leave out is what the
storage makes of them. -/
structure GenericArguments.Follows (arguments : GenericArguments α) (index : Nat)
    (fields : DescriptorFields α) : Prop where
  allowed : fields.value.isSome = true ∨ fields.isAccessor = true ∨ fields.writable = some false →
    ∀ property, arguments.ownProperty index = some property → property.allows fields = true
  accessor : fields.isAccessor = true → arguments.isModifiedArgumentDescriptor index = false →
    fields.enumerable.isSome = true ∧ fields.configurable.isSome = true
  readOnly : fields.writable = some false →
    ∀ property, arguments.ownProperty index = some property →
      (property.enumerable = true ∨ fields.enumerable.isSome = true) ∧
        (property.configurable = true ∨ fields.configurable.isSome = true)
  flagged : fields.isAccessor = false → fields.writable ≠ some false →
    ¬ (fields.writable = some true ∧ fields.configurable = some true ∧
      fields.enumerable = some true) → index < arguments.modifiedLength

omit [Inhabited α] in
/-- What a writable property allows depends on no value. -/
theorem OwnProperty.allows_of_writable (v : α) (en cf : Bool) (fs : DescriptorFields α) :
    (data v true en cf).allows fs = true
      ↔ (cf = true ∨ fs.configurable ≠ some true ∧
          (fs.enumerable = none ∨ fs.enumerable = some en)) ∧
        (fs.isAccessor = true → cf = true) := by
  simp only [allows, Bool.and_eq_true, Bool.or_eq_true, bne_iff_ne, decide_eq_true_eq]
  cases acs : fs.isAccessor <;>
    simp [allowsKind, enumerable, configurable, acs]

theorem GenericArguments.defineUnmapping_of_not_mapped
    (mapped : args.isMappedArgument i = false) (desc : PropertyDescriptor α) :
    args.defineUnmapping i desc
      = ((args.storage.defineOwnIndexedProperty i desc).1, { args with
          storage := (args.storage.defineOwnIndexedProperty i desc).2 }) := by
  simp [defineUnmapping, mapped]

/-- A definition has the same answer on both sides, and they agree after it. -/
def RefinesDefine (formals : Nat) (arguments : GenericArguments α) (object : MappedArguments α)
    (index : Nat) (fields : DescriptorFields α) : Prop :=
    (arguments.defineOwnProperty index (toPropertyDescriptor fields)).1.isNone
        = (object.defineOwnProperty index fields).1 ∧
      Refines formals (arguments.defineOwnProperty index (toPropertyDescriptor fields)).2
        (object.defineOwnProperty index fields).2

include hr in
theorem Refines.define_of_not_mapped (mapped : args.isMappedArgument i = false)
    (fs : DescriptorFields α) :
    RefinesDefine formals args object i fs := by
  have ha := hr.agree i
  obtain ⟨hnm, same⟩ := ha.unmapped mapped
  obtain ⟨ans, view, hwf⟩ := hr.storage.defineOwnIndexedProperty i fs
  have hex := args.storage.extensible_defineOwnIndexedProperty i (toPropertyDescriptor fs)
  rw [hr.extensible, ← same] at ans view
  have given : object.newArgumentFields i fs = fs := by
    simp [newArgumentFields, hnm]
  have result : args.defineOwnProperty i (toPropertyDescriptor fs)
      = args.defineUnmapping i (toPropertyDescriptor fs) := by
    simp [GenericArguments.defineOwnProperty, mapped]
  rw [RefinesDefine, result, defineUnmapping_of_not_mapped mapped]
  refine ⟨?_, hr.of_index (args.changesOnly_storage hwf hex view)
    (fun _ => object.sameAt_defineOwnProperty fs) ?_⟩
  · rw [MappedArguments.defineOwnProperty, given]
    cases hdf : ordinaryDefine true (object.properties i) fs with
    | none => simpa [hdf, Option.isSome_iff_ne_none] using ans
    | some p => simpa [hdf] using ans
  · rw [MappedArguments.defineOwnProperty, given]
    cases hdf : ordinaryDefine true (object.properties i) fs with
    | none =>
      exact .of_unmapped ha.parameter mapped hnm (by simp [view, hdf])
    | some p =>
      refine .of_unmapped ?_ mapped ?_ (by simp [view, hdf])
      · rw [parameters_updateMap, hnm, if_neg Bool.false_ne_true]
        exact ha.parameter
      · simp [map_updateMap, hnm]

omit [DecidableEq α] [Inhabited α] in
theorem GenericArguments.seeValue_effects (mapped : args.isMappedArgument i = true)
    (hwf : args.storage.WellFormed) (desc : PropertyDescriptor α) :
    ∃ sees, args.seeValue i desc = sees ∧ args.ChangesOnly i sees ∧ sees.isMappedArgument i = true ∧
      sees.slots i = desc.value.getD (args.slots i) ∧
      sees.modifiedLength = args.modifiedLength ∧
      sees.isModifiedArgumentDescriptor i = args.isModifiedArgumentDescriptor i ∧
      sees.storage = args.storage := by
  cases given : desc.value with
  | none =>
    refine ⟨args, ?_, .refl hwf, mapped, rfl, rfl, rfl, rfl⟩
    rw [seeValue, given, Option.elim_none]
  | some v =>
    refine ⟨args.setIndexQuickly i v, ?_,
      changesOnly_setIndexQuickly hwf i v, mapped,
      update_self .., rfl, rfl, rfl⟩
    rw [seeValue, given, Option.elim_some]

omit [DecidableEq α] [Inhabited α] in
/-- An aliased index once it has seen the value of a definition and has a property of its own. -/
theorem GenericArguments.initializeDescriptor_effects
    (mapped : args.isMappedArgument i = true) (hwf : args.storage.WellFormed)
    (hst : if args.isModifiedArgumentDescriptor i then
        ∃ stale, args.storage.view i = some (.data stale true en cf)
      else args.storage.view i = none ∧ en = true ∧ cf = true)
    (desc : PropertyDescriptor α) (result : (args.seeValue i desc).initializeDescriptor i = args') :
    args.ChangesOnly i args' ∧ args'.isMappedArgument i = true ∧
      args'.slots i = desc.value.getD (args.slots i) ∧
      (i < args.modifiedLength →
        args'.isModifiedArgumentDescriptor i = true) ∧
      ∃ stale, args'.storage.view i = some (.data stale true en cf) := by
  obtain ⟨sees, equal, hch, hsm, slot, lengths, flags, hss⟩ := seeValue_effects mapped hwf desc
  rw [equal, GenericArguments.initializeDescriptor, flags] at result
  cases hmo : args.isModifiedArgumentDescriptor i with
  | true =>
    rw [hmo, if_pos rfl] at result hst
    subst result
    refine ⟨hch, hsm, slot, fun _ => flags.trans hmo, ?_⟩
    rwa [hss]
  | false =>
    rw [hmo, if_neg Bool.false_ne_true] at result hst
    obtain ⟨absent, rfl, rfl⟩ := hst
    subst result
    have wr : ¬ (sees.storage.entries i).any (·.attributes.readOnly) = true := by
      refine IndexedStorage.not_readOnly_of_view fun p found => ?_
      rw [hss, absent] at found
      exact absurd found (by simp)
    obtain ⟨view, stays⟩ := hch.storage.putDirectIndex wr (sees.getIndexQuickly i)
    have put := hch.trans (sees.changesOnly_storage stays
      (sees.storage.extensible_putDirectIndex i _) view)
    refine ⟨put.trans (changesOnly_setModifiedArgumentDescriptor put.storage),
      ?_, ?_, fun flagged => ?_, sees.getIndexQuickly i, ?_⟩
    · rw [(setModifiedArgumentDescriptor_keeps ..).2.2.2]
      exact hsm
    · rw [(setModifiedArgumentDescriptor_keeps ..).1]
      exact slot
    · simp [setModifiedArgumentDescriptor, isModifiedArgumentDescriptor, putDirectIndex,
        lengths ▸ flagged]
    · simp [putDirectIndex, view]

variable {new : DescriptorFields α}

/-- What a definition that stands leaves at its index. -/
theorem MappedArguments.defineOwnProperty_effects
    {p : OwnProperty α} (given : object.newArgumentFields i fs = new)
    (hdf : ordinaryDefine true (object.properties i) new = some p) :
    (object.defineOwnProperty i fs).1 = true ∧
      (object.defineOwnProperty i fs).2.properties i = some p ∧
      (object.defineOwnProperty i fs).2.map i
        = (object.map i && !(fs.isAccessor || fs.writable = some false)) ∧
      (object.defineOwnProperty i fs).2.parameters i
        = if object.map i then fs.value.getD (object.parameters i) else object.parameters i := by
  simp only [MappedArguments.defineOwnProperty, given, hdf]
  refine ⟨trivial, by simp, ?_, ?_⟩
  · rw [map_updateMap]
  · rw [parameters_updateMap]

theorem ordinaryDefine_of_writable (hex : Bool) (hna : fs.isAccessor = false)
    (hal : (OwnProperty.data v true en cf).allows fs = true) :
    ordinaryDefine hex (some (.data v true en cf)) fs
      = some (.data (fs.value.getD v) (fs.writable.getD true)
          (fs.enumerable.getD en) (fs.configurable.getD cf)) := by
  rw [ordinaryDefine, if_pos hal, OwnProperty.merge, hna, if_neg Bool.false_ne_true]

variable {field : Option Bool}

omit [DecidableEq α] [Inhabited α] in
theorem getD_true_of_ne (h : field ≠ some false) : field.getD true = true := by
  obtain _ | _ | _ := field <;> simp_all

variable (mapped : args.isMappedArgument i = true)

include hr mapped

/-- An allowed definition after which the index is still aliased, once its slot has the value and
the storage has the attributes. -/
theorem Refines.of_kept (hna : fs.isAccessor = false) (wr : fs.writable ≠ some false)
    (p : object.properties i = some (.data v true en cf))
    (hal : (data v true en cf).allows fs = true) (hch : args.ChangesOnly i args')
    (mapped' : args'.isMappedArgument i = true)
    (slot : args'.slots i = fs.value.getD (args.slots i))
    (hst : if args'.isModifiedArgumentDescriptor i then
        ∃ stale, args'.storage.view i
          = some (.data stale true (fs.enumerable.getD en) (fs.configurable.getD cf))
      else args'.storage.view i = none ∧ fs.enumerable.getD en = true ∧
        fs.configurable.getD cf = true) :
    (object.defineOwnProperty i fs).1 = true ∧
      Refines formals args' (object.defineOwnProperty i fs).2 := by
  have ha := hr.agree i
  obtain ⟨hmap, old, _, _, found, kept, -⟩ := ha.mapped mapped
  obtain rfl : v = old := by simp_all
  have given : object.newArgumentFields i fs = fs := by
    simp [newArgumentFields, wr]
  have hw := getD_true_of_ne wr
  have hdf := ordinaryDefine_of_writable true hna hal
  rw [hw, ← p] at hdf
  obtain ⟨success, ps, map, parameters⟩ := defineOwnProperty_effects given hdf
  have map_eq : (object.defineOwnProperty i fs).2.map i = object.map i := by
    simp [map, hna, wr]
  refine ⟨success, hr.of_index hch (fun _ => object.sameAt_defineOwnProperty fs) ?_⟩
  refine .of_mapped mapped' (fun named hpr => ?_) (map_eq ▸ hmap) ps ?_ hst
  · rw [slot, parameters, if_pos (hmap.mpr named),
      ha.parameter named (lt_internalLength_of_mapped mapped)]
  · intro hnm
    rw [slot, kept (map_eq ▸ hnm)]

/-- A definition of an index that stays aliased, as the storage carries it out. -/
theorem Refines.define_of_initialized
    (hna : fs.isAccessor = false) (wr : fs.writable ≠ some false) {stale : α}
    (p : object.properties i = some (.data v true en cf)) (hal : fs.value.isSome = true →
      (data v true en cf).allows fs = true)
    {hin : GenericArguments α} (hch : args.ChangesOnly i hin)
    (mapped' : hin.isMappedArgument i = true) (slot : hin.slots i = fs.value.getD (args.slots i))
    (hmo : hin.isModifiedArgumentDescriptor i = true) (hpr : hin.storage.view i
      = some (.data stale true en cf)) :
    (hin.defineUnmapping i (toPropertyDescriptor fs)).1.isNone = (object.defineOwnProperty i fs).1 ∧
      Refines formals (hin.defineUnmapping i (toPropertyDescriptor fs)).2
        (object.defineOwnProperty i fs).2 := by
  have notUnmapping : (((toPropertyDescriptor fs).writablePresent
      && !(toPropertyDescriptor fs).writable)
        || (toPropertyDescriptor fs).isAccessorDescriptor) = false := by
    rw [toPropertyDescriptor_isAccessorDescriptor, hna, Bool.or_false,
      Bool.eq_false_iff, ne_eq, becomesReadOnly_iff]
    exact wr
  obtain ⟨ans, view, hwf⟩ := hch.storage.defineOwnIndexedProperty i fs
  have hex := hin.storage.extensible_defineOwnIndexedProperty i (toPropertyDescriptor fs)
  rw [hch.extensible, hr.extensible, hpr] at ans view
  rw [defineUnmapping, notUnmapping, Bool.and_false, if_neg Bool.false_ne_true]
  have defines := hch.trans (hin.changesOnly_storage hwf hex view)
  by_cases allows : (data v true en cf).allows fs = true
  · have allows' : (data stale true en cf).allows fs = true := by
      rwa [allows_of_writable] at allows ⊢
    rw [ordinaryDefine_of_writable true hna allows'] at ans view
    have hw := getD_true_of_ne wr
    obtain ⟨success, refines'⟩ := hr.of_kept mapped hna wr p allows defines mapped' slot
        ((if_pos hmo).mpr ⟨fs.value.getD stale, by simp [view, hw]⟩)
    refine ⟨?_, refines'⟩
    rw [success, Option.isNone_iff_eq_none]
    exact ans.mpr rfl
  · -- A definition that is refused here has no value, and nothing has been changed.
    have allows' : ¬ (data stale true en cf).allows fs = true := by
      rwa [allows_of_writable] at allows ⊢
    have hnv : fs.value = none := by
      cases given : fs.value with
      | none => rfl
      | some _ => exact absurd (hal (by simp [given])) allows
    have given : object.newArgumentFields i fs = fs := by
      simp [newArgumentFields, wr]
    have refused : object.defineOwnProperty i fs = (false, object) := by
      simp only [MappedArguments.defineOwnProperty, given, p, ordinaryDefine, if_neg allows]
    rw [ordinaryDefine, if_neg allows'] at ans view
    rw [refused]
    have ha := hr.agree i
    obtain ⟨hmap, old, _, _, found, kept, -⟩ := ha.mapped mapped
    obtain rfl : v = old := by simp_all
    rw [hnv, Option.getD_none] at slot
    refine ⟨?_, hr.of_index defines (fun other _ => .refl object) ?_⟩
    · simpa [Option.isSome_iff_ne_none] using ans
    · refine .of_mapped mapped' (fun named _ => ?_) hmap p (fun hnm => ?_) ?_
      · exact slot.trans (ha.parameter named (lt_internalLength_of_mapped mapped))
      · exact (kept hnm).trans slot.symm
      · exact (if_pos hmo).mpr ⟨stale, by simp [view]⟩

/-- A definition after which the index is still aliased. -/
theorem Refines.define_of_kept
    (hna : fs.isAccessor = false) (wr : fs.writable ≠ some false) (hf : args.Follows i fs) :
    RefinesDefine formals args object i fs := by
  have ha := hr.agree i
  obtain ⟨hmap, v, en, cf, p, kept, hst⟩ := ha.mapped mapped
  have hsh := hr.ownProperty i
  rw [ha.getOwnProperty_of_mapped mapped p kept] at hsh
  obtain ⟨sees, equal, hch, hsm, slot, -, flags, hss⟩ :=
    seeValue_effects mapped hr.storage (toPropertyDescriptor fs)
  rw [RefinesDefine, GenericArguments.defineOwnProperty, toPropertyDescriptor_isAccessorDescriptor,
    hna, if_pos (by simp [mapped])]
  dsimp only
  split_ifs with hun
  · -- The definition grants everything and the index has the attributes it started with.
    rw [Bool.and_eq_true, grantsAll_iff hna, equal, flags, Bool.not_eq_true'] at hun
    obtain ⟨⟨-, hcf, hen⟩, hmod⟩ := hun
    rw [hmod, if_neg Bool.false_ne_true] at hst
    obtain ⟨absent, rfl, rfl⟩ := hst
    have hal : (data v true true true).allows fs = true :=
      (allows_of_writable ..).mpr ⟨.inl rfl, fun _ => rfl⟩
    rw [toPropertyDescriptor_value] at slot
    have hdf := hr.of_kept mapped hna wr p hal hch hsm
      slot (by rw [flags, hmod, if_neg Bool.false_ne_true, hss]; simp [*])
    rw [equal]
    exact ⟨hdf.1.symm, hdf.2⟩
  · have flagged : i < args.modifiedLength := by
      by_cases grants : fs.writable = some true ∧ fs.configurable = some true ∧
          fs.enumerable = some true
      · rw [Bool.and_eq_true, grantsAll_iff hna, equal, flags] at hun
        have hmo : args.isModifiedArgumentDescriptor i = true := by
          simpa [grants] using hun
        simp only [isModifiedArgumentDescriptor, Bool.and_eq_true, decide_eq_true_eq] at hmo
        exact hmo.1
      · exact hf.flagged hna wr grants
    obtain ⟨hch, mapped', slot, hmo, stale, hpr⟩ :=
      initializeDescriptor_effects mapped hr.storage hst (toPropertyDescriptor fs) rfl
    rw [toPropertyDescriptor_value] at slot
    refine hr.define_of_initialized mapped hna wr p (fun hasV => ?_)
      hch mapped' slot (hmo flagged) hpr
    have hal := hf.allowed (.inl hasV) _ hsh
    rwa [allows_of_writable] at hal ⊢

omit hr mapped

omit [DecidableEq α] [Inhabited α] in
theorem getD_eq_getD_true {bit : Bool}
    (given : bit = true ∨ field.isSome = true) : field.getD bit = field.getD true := by
  cases field <;> simp_all

omit [DecidableEq α] [Inhabited α] in
theorem MappedArguments.newArgumentFields_of_readOnly (object : MappedArguments α) (i : Nat)
    (hna : fs.isAccessor = false) (ro : fs.writable = some false) :
    ∃ new, object.newArgumentFields i fs = new ∧
      new.isAccessor = false ∧ new.writable = some false ∧
      new.enumerable = fs.enumerable ∧ new.configurable = fs.configurable ∧
      new.value = fs.value.or (if object.map i then some (object.parameters i) else none) := by
  refine ⟨_, rfl, ?_⟩
  rw [newArgumentFields, dif_pos hna]
  split_ifs with keeps hm hm
  · refine ⟨hna, ro, rfl, rfl, ?_⟩
    simp_all [DescriptorFields.withValue]
  · simp_all
  · refine ⟨hna, ro, rfl, rfl, ?_⟩
    cases given : fs.value <;> simp_all
  · exact ⟨hna, ro, rfl, rfl, (Option.or_none ..).symm⟩

include hr mapped

/-- A definition that ends the alias: the storage makes of its property what the exotic object
makes of it. -/
theorem Refines.define_of_unmapped (removes : (fs.isAccessor || fs.writable = some false) = true)
    {p : OwnProperty α} (given : object.newArgumentFields i fs = new)
    (hdf : ordinaryDefine true (object.properties i) new = some p)
    {unmapped : GenericArguments α} (hch : args.ChangesOnly i unmapped)
    (hnm : unmapped.isMappedArgument i = false)
    (slot : unmapped.slots i = fs.value.getD (args.slots i))
    (stores : ordinaryDefine true (unmapped.storage.view i) fs = some p) :
    (unmapped.storage.defineOwnIndexedProperty i (toPropertyDescriptor fs)).1.isNone
        = (object.defineOwnProperty i fs).1 ∧
      Refines formals { unmapped with
          storage := (unmapped.storage.defineOwnIndexedProperty i (toPropertyDescriptor fs)).2 }
        (object.defineOwnProperty i fs).2 := by
  have ha := hr.agree i
  obtain ⟨hmap, -⟩ := ha.mapped mapped
  obtain ⟨ans, view, hwf⟩ := hch.storage.defineOwnIndexedProperty i fs
  rw [hch.extensible, hr.extensible, stores] at ans view
  obtain ⟨success, ps, map, parameters⟩ := defineOwnProperty_effects given hdf
  rw [removes, Bool.not_true, Bool.and_false] at map
  refine ⟨?_, hr.of_index (hch.trans (unmapped.changesOnly_storage hwf
    (unmapped.storage.extensible_defineOwnIndexedProperty i _) view))
      (fun _ => object.sameAt_defineOwnProperty fs) ?_⟩
  · rw [success, Option.isNone_iff_eq_none]
    exact ans.mpr rfl
  · refine .of_unmapped (fun named _ => ?_) hnm map (by simp [ps, view])
    rw [slot, parameters, if_pos (hmap.mpr named),
      ha.parameter named (lt_internalLength_of_mapped mapped)]

/-- A definition that makes an aliased index read-only. -/
theorem Refines.define_of_readOnly (hna : fs.isAccessor = false) (ro : fs.writable = some false)
    (hf : args.Follows i fs) :
    RefinesDefine formals args object i fs := by
  have ha := hr.agree i
  obtain ⟨hmap, v, en, cf, p, kept, hst⟩ := ha.mapped mapped
  have hsh := hr.ownProperty i
  rw [ha.getOwnProperty_of_mapped mapped p kept] at hsh
  have unmapping : ((toPropertyDescriptor fs).writablePresent
      && !(toPropertyDescriptor fs).writable) = true := becomesReadOnly_iff.mpr ro
  obtain ⟨hin, result⟩ : ∃ hin, (args.seeValue i
    (toPropertyDescriptor fs)).initializeDescriptor i = hin := ⟨_, rfl⟩
  obtain ⟨hch, mapped', slot, -, stale, hpr⟩ :=
    initializeDescriptor_effects mapped hr.storage hst (toPropertyDescriptor fs) result
  rw [toPropertyDescriptor_value] at slot
  -- The storage gets a plain property with the value of the slot, which is then redefined.
  have wr : ¬ (hin.storage.entries i).any (·.attributes.readOnly) = true :=
    IndexedStorage.not_readOnly_of_view fun p found =>
      ⟨stale, en, cf, by simpa [hpr] using found.symm⟩
  obtain ⟨putView, hpw⟩ := hch.storage.putDirectIndex wr (hin.getIndexQuickly i)
  have put := hch.trans (hin.changesOnly_storage hpw
    (hin.storage.extensible_putDirectIndex i _) putView)
  obtain ⟨unmaps, hnm⟩ := put.unmap
  obtain ⟨new, given, hna', readOnly', hen, hcf, newValue⟩ :=
    object.newArgumentFields_of_readOnly i hna ro
  have hal : (data v true en cf).allows new = true := by
    have allows := hf.allowed (.inr (.inr ro)) _ hsh
    rw [allows_of_writable] at allows ⊢
    rwa [hen, hcf, hna', ← hna]
  have hdf := ordinaryDefine_of_writable true hna' hal
  have freely : (data (hin.getIndexQuickly i) true true true).allows fs
      = true := (allows_of_writable ..).mpr ⟨.inl rfl, fun _ => rfl⟩
  have stores := ordinaryDefine_of_writable true hna freely
  have value_eq : new.value.getD v = fs.value.getD (hin.getIndexQuickly i) := by
    rw [newValue, getIndexQuickly, slot]
    cases fs.value with
    | some _ => rfl
    | none =>
      cases hm : object.map i with
      | true =>
        exact (ha.parameter (hmap.mp hm) (lt_internalLength_of_mapped mapped)).symm
      | false => exact kept hm
  have hatt : new.enumerable.getD en = fs.enumerable.getD true ∧
      new.configurable.getD cf = fs.configurable.getD true := by
    obtain ⟨hes, hcs⟩ := hf.readOnly ro _ hsh
    rw [hen, hcf]
    exact ⟨getD_eq_getD_true hes, getD_eq_getD_true hcs⟩
  rw [value_eq, readOnly', hatt.1, hatt.2, ← p] at hdf
  rw [ro] at stores
  rw [RefinesDefine, GenericArguments.defineOwnProperty, toPropertyDescriptor_isAccessorDescriptor,
    hna, if_pos (by simp [mapped])]
  dsimp only
  rw [if_neg (by rw [Bool.and_eq_true, grantsAll_iff hna, ro]; simp), result, defineUnmapping,
    mapped', unmapping,
    toPropertyDescriptor_isAccessorDescriptor, hna, Bool.or_false, Bool.and_true, if_pos rfl]
  rw [if_pos Bool.not_false]
  refine hr.define_of_unmapped mapped (by simp [ro]) given hdf unmaps hnm ?_ ?_
  · rw [(setModifiedArgumentDescriptor_keeps ..).1]
    exact slot
  · simpa [unmapArgument, putDirectIndex, putView] using stores

/-- A definition that makes an aliased index an accessor. -/
theorem Refines.define_of_accessor (acs : fs.isAccessor = true) (hf : args.Follows i fs) :
    RefinesDefine formals args object i fs := by
  have ha := hr.agree i
  obtain ⟨hmap, v, en, cf, p, kept, hst⟩ := ha.mapped mapped
  have hsh := hr.ownProperty i
  rw [ha.getOwnProperty_of_mapped mapped p kept] at hsh
  have hnv : fs.value = none := (fs.separate (by simpa [isAccessor] using acs)).1
  have given : object.newArgumentFields i fs = fs := by
    simp [newArgumentFields, acs]
  have allows := hf.allowed (.inr (.inl acs)) _ hsh
  rw [OwnProperty.allows_of_writable] at allows
  have hdf : ordinaryDefine true (object.properties i) fs
      = some (.accessor (fs.getter.getD default) (fs.setter.getD default)
          (fs.enumerable.getD en) (fs.configurable.getD cf)) := by
    have hal := (OwnProperty.allows_of_writable v en cf fs).mpr allows
    rw [p, ordinaryDefine, if_pos hal, OwnProperty.merge, if_pos acs]
  obtain ⟨unmaps, hnm⟩ := (ChangesOnly.refl hr.storage).unmap
  rw [RefinesDefine, GenericArguments.defineOwnProperty, toPropertyDescriptor_isAccessorDescriptor,
    acs, if_neg (by simp), defineUnmapping, mapped,
    toPropertyDescriptor_isAccessorDescriptor, acs, Bool.or_true, Bool.and_true, if_pos rfl]
  rw [if_neg (by simp)]
  refine hr.define_of_unmapped mapped (by simp [acs]) given hdf unmaps hnm ?_ ?_
  · simp [unmapArgument, hnv]
  rw [(setModifiedArgumentDescriptor_keeps ..).2.1]
  change ordinaryDefine true (args.storage.view i) fs = _
  cases hmo : args.isModifiedArgumentDescriptor i with
  | true =>
    rw [hmo, if_pos rfl] at hst
    obtain ⟨stale, hpr⟩ := hst
    have hal := (OwnProperty.allows_of_writable stale en cf fs).mpr allows
    rw [hpr, ordinaryDefine, if_pos hal, OwnProperty.merge, if_pos acs]
  | false =>
    -- The storage has no property yet and takes this for the definition of a new one.
    rw [hmo, if_neg Bool.false_ne_true] at hst
    obtain ⟨hes, hcs⟩ := hf.accessor acs hmo
    obtain ⟨isEnumerable, enumerable_eq⟩ := Option.isSome_iff_exists.mp hes
    obtain ⟨isConfigurable, hceq⟩ := Option.isSome_iff_exists.mp hcs
    rw [hst.1, ordinaryDefine, if_pos rfl, OwnProperty.create, if_pos acs, enumerable_eq, hceq]
    rfl

omit mapped in
theorem Refines.defineOwnProperty (hf : args.isMappedArgument i = true → args.Follows i fs) :
    RefinesDefine formals args object i fs := by
  cases mapped : args.isMappedArgument i with
  | false => exact hr.define_of_not_mapped mapped fs
  | true =>
    cases acs : fs.isAccessor with
    | true => exact hr.define_of_accessor mapped acs (hf mapped)
    | false =>
      by_cases ro : fs.writable = some false
      · exact hr.define_of_readOnly mapped acs ro (hf mapped)
      · exact hr.define_of_kept mapped acs ro (hf mapped)

end Writes

section Keys

theorem mem_foldl_addName {names known : List Nat} {i : Nat} :
    i ∈ names.foldl addName known ↔ i ∈ known ∨ i ∈ names := by
  induction names generalizing known with
  | nil => simp
  | cons name names ih =>
    rw [foldl_cons, ih, addName]
    split_ifs with hpr
    · rw [contains_iff_mem] at hpr
      grind
    · simp [or_assoc]

/-- Adding ascending names above those that are already there. -/
theorem pairwise_foldl_addName {names known : List Nat} (hasc : known.Pairwise (· < ·))
    (ascending' : names.Pairwise (· < ·))
    (above : ∀ first ∈ known, ∀ second ∈ names, second ∉ known → first < second) :
    (names.foldl addName known).Pairwise (· < ·) := by
  induction names generalizing known with
  | nil => exact hasc
  | cons name names ih =>
    rw [foldl_cons]
    obtain ⟨least, hasc''⟩ := pairwise_cons.mp ascending'
    unfold addName
    split_ifs with hpr
    · exact ih hasc hasc'' fun first known second listed =>
        above first known second (mem_cons_of_mem _ listed)
    have new : name ∉ known := by simpa [contains_iff_mem] using hpr
    refine ih ?_ hasc'' ?_
    · rw [pairwise_append]
      refine ⟨hasc, pairwise_singleton .., fun first isKnown second isName => ?_⟩
      obtain rfl := mem_singleton.mp isName
      exact above first isKnown _ mem_cons_self new
    · intro first isKnown second listed isNew
      obtain isKnown | isName := mem_append.mp isKnown
      · exact above first isKnown second (mem_cons_of_mem _ listed) fun known =>
          isNew (mem_append_left _ known)
      · obtain rfl := mem_singleton.mp isName
        exact least second listed

/-- The listings that the source follows. It lists the aliased indices first and lists all of them,
enumerable or not. -/
structure GenericArguments.Lists (arguments : GenericArguments α) (includeDontEnum : Bool) :
    Prop where
  enumerable : includeDontEnum = false → ∀ index, arguments.isMappedArgument index = true →
    ∀ property, arguments.ownProperty index = some property → property.enumerable = true
  below : ∀ index other, arguments.isMappedArgument index = true →
    arguments.isMappedArgument other = false → (arguments.ownProperty other).isSome = true →
    index < other

theorem mem_mapped : i ∈ ((range args.internalLength).filter
      args.isMappedArgument).foldl addName []
    ↔ args.isMappedArgument i = true := by
  rw [mem_foldl_addName, mem_filter, mem_range]
  constructor
  · rintro (none | ⟨-, mapped⟩)
    · exact absurd none not_mem_nil
    · exact mapped
  · exact fun mapped => .inr ⟨lt_internalLength_of_mapped mapped, mapped⟩

theorem Refines.getOwnPropertyNames (hr : Refines formals args object)
    {incl : Bool} (lists : args.Lists incl) :
    (args.getOwnPropertyNames incl).Pairwise (· < ·) ∧ ∀ i, i ∈ args.getOwnPropertyNames incl
        ↔ ∃ p, object.getOwnProperty i = some p ∧ (incl = true ∨ p.enumerable = true) := by
  have shows := hr.ownProperty
  have hunm : ∀ i, args.isMappedArgument i = false → args.ownProperty i = args.storage.view i := by
    intro i hnm
    obtain ⟨hnm', same⟩ := (hr.agree i).unmapped hnm
    rw [shows, getOwnProperty_of_not_mapped hnm', same]
  constructor
  · refine pairwise_foldl_addName ?_ (pairwise_lt_range.filter _) ?_
    · exact pairwise_foldl_addName List.Pairwise.nil (pairwise_lt_range.filter _)
        fun _ none => absurd none not_mem_nil
    · intro i listed other hst notListed
      rw [mem_mapped] at listed notListed
      obtain ⟨p, hpr, -⟩ := hr.storage.mem_getOwnPropertyNames.mp hst
      have hnm := Bool.eq_false_iff.mpr notListed
      exact lists.below i other listed hnm (by simp [hunm other hnm, hpr])
  · intro i
    rw [GenericArguments.getOwnPropertyNames, mem_foldl_addName, mem_mapped,
      hr.storage.mem_getOwnPropertyNames, ← shows]
    cases mapped : args.isMappedArgument i with
    | false => simp [hunm i mapped]
    | true =>
      obtain ⟨-, v, en, cf, p, kept, -⟩ := (hr.agree i).mapped mapped
      have hsh := shows i
      rw [(hr.agree i).getOwnProperty_of_mapped mapped p kept] at hsh
      refine iff_of_true (.inl rfl) ⟨_, hsh, ?_⟩
      cases incl with
      | true => exact .inl rfl
      | false => exact .inr (lists.enumerable rfl i mapped _ hsh)

end Keys

section Runs

variable [DecidableEq α] [Inhabited α]

/-- The operations that the source follows. -/
def GenericArguments.FollowsStep (formals : Nat) (arguments : GenericArguments α) :
    ArgumentsOperation α → Prop
  | .define index fields =>
    arguments.isMappedArgument index = true → arguments.Follows index fields
  | .ownKeys includeDontEnum => arguments.Lists includeDontEnum
  | .assignParameter index _ => index < formals
  | .readParameter index => index < formals ∧ index < arguments.internalLength
  | _ => True

/-- A step of the source is one of the exotic object. -/
theorem Refines.step (hr : Refines formals args object)
    {op : ArgumentsOperation α} (hf : args.FollowsStep formals op) :
    ∃ obj', object.Step op (args.step op).1 obj' ∧ Refines formals (args.step op).2 obj' := by
  cases op with
  | getOwnProperty i =>
    exact ⟨object, ⟨congrArg _ (hr.ownProperty i), rfl⟩, hr⟩
  | set i v =>
    obtain ⟨outcome, refines'⟩ := hr.putByIndex i v
    exact ⟨_, ⟨congrArg _ outcome, rfl⟩, refines'⟩
  | delete i =>
    obtain ⟨deleted, refines'⟩ := hr.deletePropertyByIndex i
    exact ⟨_, ⟨congrArg _ deleted, rfl⟩, refines'⟩
  | define i fs =>
    obtain ⟨success, refines'⟩ := hr.defineOwnProperty hf
    exact ⟨_, ⟨congrArg _ success, rfl⟩, refines'⟩
  | ownKeys incl =>
    obtain ⟨hasc, listed⟩ := hr.getOwnPropertyNames hf
    exact ⟨object, ⟨rfl, _, rfl, hasc, listed⟩, hr⟩
  | assignParameter i v =>
    exact ⟨_, ⟨rfl, rfl⟩, hr.assignParameter i hf v⟩
  | readParameter i =>
    exact ⟨object, ⟨congrArg _ ((hr.agree i).parameter hf.1 hf.2), rfl⟩, hr⟩

def GenericArguments.run (arguments : GenericArguments α) :
    List (ArgumentsOperation α) → List (ArgumentsResponse α)
  | [] => []
  | operation :: operations =>
    (arguments.step operation).1 :: (arguments.step operation).2.run operations

def GenericArguments.FollowsRun (formals : Nat) (arguments : GenericArguments α) :
    List (ArgumentsOperation α) → Prop
  | [] => True
  | operation :: operations =>
    arguments.FollowsStep formals operation ∧
      (arguments.step operation).2.FollowsRun formals operations

/-- The exotic object may answer the operations so, one after another. -/
def MappedArguments.Answers (object : MappedArguments α) :
    List (ArgumentsOperation α) → List (ArgumentsResponse α) → Prop
  | [], responses => responses = []
  | operation :: operations, responses =>
    ∃ response rest object', responses = response :: rest ∧
      object.Step operation response object' ∧ object'.Answers operations rest

theorem Refines.run (hr : Refines formals args object) {ops : List (ArgumentsOperation α)}
    (hf : args.FollowsRun formals ops) :
    object.Answers ops (args.run ops) := by
  induction ops generalizing args object with
  | nil => rfl
  | cons op ops ih =>
    obtain ⟨followsStep, followsRest⟩ := hf
    obtain ⟨obj', step, refines'⟩ := hr.step followsStep
    exact ⟨_, _, obj', rfl, step, ih refines' followsRest⟩

/-- The arguments object of a call with these arguments. -/
def GenericArguments.create (modifiedLength : Nat) (passed : List α) : GenericArguments α where
  internalLength := passed.length
  modifiedLength := modifiedLength
  slots index := passed.getD index default

/-- The exotic object of a call with these arguments of a function with that many parameters. -/
def MappedArguments.create (formals : Nat) (passed : List α) : MappedArguments α where
  properties index := passed[index]?.map fun value => .data value true true true
  map index := index < passed.length && index < formals
  parameters index := passed.getD index default

omit [DecidableEq α] in
theorem Refines.create (formals modifiedLength : Nat) (passed : List α) :
    Refines formals (GenericArguments.create modifiedLength passed)
      (MappedArguments.create formals passed) := by
  refine ⟨⟨fun _ _ none => absurd none (by simp [GenericArguments.create]),
    fun _ _ _ none => absurd none (by simp [GenericArguments.create]), fun _ => rfl⟩, rfl,
    fun i => ⟨fun _ _ => rfl, fun mapped => ?_, fun hnm => ?_⟩⟩
  · have hpr : i < passed.length := lt_internalLength_of_mapped mapped
    refine ⟨by simp [MappedArguments.create, hpr], passed.getD i default, true, true, ?_,
      fun _ => rfl, ?_⟩
    · simp [MappedArguments.create, hpr]
    · simp [isModifiedArgumentDescriptor, GenericArguments.create, IndexedStorage.view]
  · have absent : passed.length ≤ i := by
      simpa [isMappedArgument, GenericArguments.create] using hnm
    simp [MappedArguments.create, GenericArguments.create, IndexedStorage.view, absent]

/-- Over every sequence of operations that the source follows, its arguments object answers as the
exotic object of the same call does. -/
theorem arguments_answers (formals modifiedLength : Nat) (passed : List α)
    (operations : List (ArgumentsOperation α))
    (follows : (GenericArguments.create modifiedLength passed).FollowsRun formals operations) :
    (MappedArguments.create formals passed).Answers operations
      ((GenericArguments.create modifiedLength passed).run operations) :=
  (Refines.create formals modifiedLength passed).run follows

end Runs

/-- `function f(a) { … }` called with one argument: the index becomes non-enumerable, stays aliased
to the parameter and is deleted. -/
def attributeKeepsAlias : List (ArgumentsOperation Nat) :=
  [.define 0 { enumerable := some false, separate := separate_of_data },
    .assignParameter 0 5, .getOwnProperty 0, .delete 0, .getOwnProperty 0]

theorem arguments_answers_of_attributeKeepsAlias :
    (GenericArguments.create 1 [1]).FollowsRun 1 attributeKeepsAlias ∧
      (MappedArguments.create 1 [1]).Answers attributeKeepsAlias
        [.success true, .nothing, .property (some (.data 5 true false true)), .success true,
          .property none] := by
  have follows : (GenericArguments.create 1 [1]).FollowsRun 1 attributeKeepsAlias := by
    refine ⟨fun _ => ⟨?_, ?_, ?_, ?_⟩, Nat.one_pos, trivial, trivial, trivial, trivial⟩
    · simp [isAccessor]
    · simp [isAccessor]
    · simp
    · exact fun _ _ _ => Nat.one_pos
  have responses : (GenericArguments.create 1 [1]).run attributeKeepsAlias
      = [.success true, .nothing, .property (some (.data 5 true false true)), .success true,
        .property none] := by decide
  exact ⟨follows, responses ▸ arguments_answers 1 1 [1] attributeKeepsAlias follows⟩

/-- `Object.defineProperty(arguments, 0, {configurable: false})`, then the definition
`{value: 5, enumerable: false}`, which is refused, and a look at the parameter. -/
def rejectedDefinition : List (ArgumentsOperation Nat) :=
  [.define 0 { configurable := some false, separate := separate_of_data },
    .define 0 { value := some 5, enumerable := some false
                separate := separate_of_data },
    .readParameter 0]

/-- The refused definition has changed the parameter. -/
theorem rejected_definition_changes_parameter :
    (GenericArguments.create 1 [1]).run rejectedDefinition
        = [.success true, .success false, .value 5] ∧
      ¬ (MappedArguments.create 1 [1]).Answers rejectedDefinition
        ((GenericArguments.create 1 [1]).run rejectedDefinition) := by
  have responses : (GenericArguments.create 1 [1]).run rejectedDefinition
      = [.success true, .success false, .value 5] := by decide
  refine ⟨responses, ?_⟩
  rw [responses]
  rintro ⟨_, _, _, equal, ⟨-, rfl⟩, _, _, _, equal', ⟨-, rfl⟩, _, _, _, equal'', ⟨read, -⟩, -⟩
  obtain ⟨-, rfl⟩ := cons.inj equal
  obtain ⟨-, rfl⟩ := cons.inj equal'
  obtain ⟨rfl, -⟩ := cons.inj equal''
  exact absurd read (by decide)

end Simulation

end JavaScriptCore.Runtime
