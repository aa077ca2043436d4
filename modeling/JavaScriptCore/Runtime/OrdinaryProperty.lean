import JavaScriptCore.Runtime.PropertyDescriptor
import Mathlib.Data.List.Basic

/-!
# Properties of ordinary objects

Properties as the language has them, the definition of a property of an ordinary object, and what
the indexed storage of `PropertyDescriptor.lean` is for: seen as a map from indices to properties
it defines, writes and deletes them as an ordinary object does.
-/

namespace JavaScriptCore.Runtime

open PropertyDescriptor Function Option

inductive OwnProperty (α : Type) where
  | data (value : α) (writable enumerable configurable : Bool)
  | accessor (getter setter : α) (enumerable configurable : Bool)
  deriving DecidableEq, Repr

namespace DescriptorFields

variable {α : Type}

def isAccessor (fields : DescriptorFields α) : Bool := fields.getter.isSome || fields.setter.isSome

def isData (fields : DescriptorFields α) : Bool := fields.value.isSome || fields.writable.isSome

theorem separate_of_data {v : Option α} {wr : Option Bool} :
    (none : Option α).isSome = true ∨ (none : Option α).isSome = true → v = none ∧ wr = none :=
  fun acs => absurd acs (by simp)

/-- A definition that gives a value and nothing else. -/
def ofValue (value : α) : DescriptorFields α where
  value := some value
  separate := separate_of_data

end DescriptorFields

namespace OwnProperty

variable {α : Type}

def enumerable : OwnProperty α → Bool
  | data _ _ enumerable _ => enumerable
  | accessor _ _ enumerable _ => enumerable

def configurable : OwnProperty α → Bool
  | data _ _ _ configurable => configurable
  | accessor _ _ _ configurable => configurable

/-- The property a definition creates where there was none. -/
def create [Inhabited α] (fields : DescriptorFields α) : OwnProperty α :=
  if fields.isAccessor then
    accessor (fields.getter.getD default) (fields.setter.getD default)
      (fields.enumerable.getD false) (fields.configurable.getD false)
  else
    data (fields.value.getD default) (fields.writable.getD false)
      (fields.enumerable.getD false) (fields.configurable.getD false)

/-- The property after a definition: a field that is absent keeps what the property has, and the
fields that only the other kind of property has start from their defaults. -/
def merge [Inhabited α] (fields : DescriptorFields α) : OwnProperty α → OwnProperty α
  | data value writable enumerable configurable =>
    if fields.isAccessor then
      accessor (fields.getter.getD default) (fields.setter.getD default)
        (fields.enumerable.getD enumerable) (fields.configurable.getD configurable)
    else
      data (fields.value.getD value) (fields.writable.getD writable)
        (fields.enumerable.getD enumerable) (fields.configurable.getD configurable)
  | accessor getter setter enumerable configurable =>
    if fields.isData then
      data (fields.value.getD default) (fields.writable.getD false)
        (fields.enumerable.getD enumerable) (fields.configurable.getD configurable)
    else
      accessor (fields.getter.getD getter) (fields.setter.getD setter)
        (fields.enumerable.getD enumerable) (fields.configurable.getD configurable)

/-- The property itself may be redefined so: what a non-configurable property does not give up. -/
def allowsKind [DecidableEq α] (fields : DescriptorFields α) : OwnProperty α → Bool
  | data value writable _ configurable =>
    if fields.isAccessor then configurable
    else configurable || writable
      || (fields.writable != some true && (fields.value = none || fields.value = some value))
  | accessor getter setter _ configurable =>
    if fields.isData then configurable
    else configurable
      || ((fields.getter = none || fields.getter = some getter)
        && (fields.setter = none || fields.setter = some setter))

def allows [DecidableEq α] (property : OwnProperty α) (fields : DescriptorFields α) : Bool :=
  (property.configurable || (fields.configurable != some true
    && (fields.enumerable = none || fields.enumerable = some property.enumerable)))
    && property.allowsKind fields

end OwnProperty

/-- The property after a definition, or nothing if the definition is refused. -/
def ordinaryDefine {α : Type} [DecidableEq α] [Inhabited α] (extensible : Bool)
    (current : Option (OwnProperty α)) (fields : DescriptorFields α) : Option (OwnProperty α) :=
  match current with
  | none => if extensible then some (.create fields) else none
  | some property => if property.allows fields then some (property.merge fields) else none

/-- What a write comes to for the program. -/
inductive WriteOutcome (α : Type) where
  | written
  | refused
  | setterCalled (setter : α)
  deriving DecidableEq, Repr

def PutResult.outcome {α : Type} : PutResult α → WriteOutcome α
  | .done => .written
  | .failed _ => .refused
  | .callSetter setter => .setterCalled setter

/-- A write to a property of an object that no property of its prototypes intercepts. -/
def ordinarySet {α : Type} (extensible : Bool) (value : α) :
    Option (OwnProperty α) → WriteOutcome α × Option (OwnProperty α)
  | none => if extensible then (.written, some (.data value true true true)) else (.refused, none)
  | some (.data old writable enumerable configurable) =>
    if writable then (.written, some (.data value writable enumerable configurable))
    else (.refused, some (.data old writable enumerable configurable))
  | some (.accessor getter setter enumerable configurable) =>
    (.setterCalled setter, some (.accessor getter setter enumerable configurable))

def ordinaryDelete {α : Type} : Option (OwnProperty α) → Bool × Option (OwnProperty α)
  | none => (true, none)
  | some property => if property.configurable then (true, none) else (false, some property)

theorem ordinaryDelete_eq {α : Type} (current : Option (OwnProperty α)) :
    ordinaryDelete current
      = if current.all OwnProperty.configurable then (true, none) else (false, current) := by
  cases current <;> simp [ordinaryDelete]

section Views

variable {α : Type}

def SparseArrayEntry.property (entry : SparseArrayEntry α) : OwnProperty α :=
  match entry.value with
  | .value value =>
    .data value (!entry.attributes.readOnly) (!entry.attributes.dontEnum)
      (!entry.attributes.dontDelete)
  | .getterSetter getter setter =>
    .accessor getter setter (!entry.attributes.dontEnum) (!entry.attributes.dontDelete)

/-- The bit that marks an accessor agrees with the value, and an accessor is not read-only. -/
def SparseArrayEntry.WellFormed (entry : SparseArrayEntry α) : Prop :=
  match entry.value with
  | .value _ => entry.attributes.accessor = false
  | .getterSetter _ _ => entry.attributes.accessor = true ∧ entry.attributes.readOnly = false

def IndexedStorage.view (storage : IndexedStorage α) (index : Nat) : Option (OwnProperty α) :=
  (storage.entries index).map SparseArrayEntry.property

structure IndexedStorage.WellFormed (storage : IndexedStorage α) : Prop where
  entries : ∀ index entry, storage.entries index = some entry →
    entry.WellFormed ∧ index < storage.length
  plain : storage.sparse = false → ∀ index entry, storage.entries index = some entry →
    entry.attributes = {}
  extensible : storage.sparse = false → storage.extensible = true

variable (fs : DescriptorFields α)

theorem toPropertyDescriptor_eq :
    toPropertyDescriptor fs =
      { value := fs.value, getter := fs.getter, setter := fs.setter
        attributes :=
          { readOnly := !fs.isAccessor && !fs.writable.getD false
            dontEnum := !fs.enumerable.getD false
            dontDelete := !fs.configurable.getD false
            accessor := fs.isAccessor }
        writablePresent := fs.writable.isSome
        enumerablePresent := fs.enumerable.isSome
        configurablePresent := fs.configurable.isSome } := by
  obtain ⟨v, getter, setter, wr, enm, cfg, -⟩ := fs
  cases v <;> cases getter <;> cases setter <;> cases wr <;> cases enm <;>
    cases cfg <;> rfl

theorem toPropertyDescriptor_isAccessorDescriptor :
    (toPropertyDescriptor fs).isAccessorDescriptor = fs.isAccessor := by
  rw [toPropertyDescriptor_eq]
  rfl

theorem toPropertyDescriptor_value :
    (toPropertyDescriptor fs).value = fs.value := by
  rw [toPropertyDescriptor_eq]

end Views

section Definitions

attribute [local simp] putIndexedDescriptor validateIndexedDescriptor SparseArrayEntry.property
  SparseArrayEntry.WellFormed SparseArrayEntry.descriptor OwnProperty.merge OwnProperty.allows
  OwnProperty.allowsKind OwnProperty.configurable OwnProperty.enumerable isDataDescriptor
  isAccessorDescriptor isGenericDescriptor attributesOverridingCurrent
  PropertyDescriptor.configurable PropertyDescriptor.enumerable PropertyDescriptor.writable

variable {α : Type} [Inhabited α]

/-- A bit of the attributes after a definition, where the field gives it or the current one is
kept. -/
theorem overridden_bit (field : Option Bool) (bit : Bool) :
    (if field.isSome then !field.getD false else bit) = !field.getD (!bit) := by
  cases field <;> simp

omit [Inhabited α] in
theorem DescriptorFields.kind (fs : DescriptorFields α) :
    (fs.isAccessor = true ∧ fs.value = none ∧ fs.writable = none) ∨
      (fs.isAccessor = false ∧ fs.getter = none ∧ fs.setter = none) := by
  by_cases acs : fs.isAccessor = true
  · exact .inl ⟨acs, fs.separate (by simpa [isAccessor] using acs)⟩
  · refine .inr ⟨by simpa using acs, ?_⟩
    simpa [isAccessor] using acs

variable {e : SparseArrayEntry α}

theorem property_putIndexedDescriptor (hwf : e.WellFormed) (fs : DescriptorFields α) :
    (putIndexedDescriptor e (toPropertyDescriptor fs) e.descriptor).property = e.property.merge fs ∧
      (putIndexedDescriptor e (toPropertyDescriptor fs) e.descriptor).WellFormed := by
  rw [toPropertyDescriptor_eq]
  obtain ⟨acs, noValue, hnw⟩ | ⟨hna, noGetter, noSetter⟩ := fs.kind
  · have notData : fs.isData = false := by simp [DescriptorFields.isData, noValue, hnw]
    obtain ⟨v | ⟨getter, setter⟩, attrs⟩ := e
    all_goals simp_all [DescriptorFields.isAccessor, overridden_bit]
  · obtain ⟨v | ⟨getter, setter⟩, attrs⟩ := e
    all_goals
      cases given : fs.value <;> cases wr : fs.writable <;>
      simp_all [DescriptorFields.isData, overridden_bit]

/-- A new entry is one with no attribute granted that the definition then changes. -/
theorem property_newEntry (fs : DescriptorFields α) :
    (putIndexedDescriptor { value := .value default } (toPropertyDescriptor fs)
        newPropertyDefaults).property = .create fs ∧
      (putIndexedDescriptor { value := .value default } (toPropertyDescriptor fs)
        newPropertyDefaults).WellFormed := by
  have merged := @property_putIndexedDescriptor α _
    ⟨.value default, { readOnly := true, dontEnum := true, dontDelete := true }⟩ rfl fs
  have create_eq : OwnProperty.create fs
      = OwnProperty.merge fs (.data default false false false) := by
    simp only [OwnProperty.create, OwnProperty.merge]
  rw [create_eq]
  exact merged

variable [DecidableEq α]

omit [Inhabited α] [DecidableEq α] in
theorem ite_some_eq_none_iff {condition : Prop} [Decidable condition] {message : String}
    {rest : Option String} :
    (if condition then some message else rest) = none ↔ ¬ condition ∧ rest = none := by
  by_cases ho : condition <;> simp [ho]

omit [Inhabited α] [DecidableEq α] in
theorem isSome_imp_eq_iff {field : Option α} {kept : α} :
    (field.isSome = true → field = some kept) ↔ field = none ∨ field = some kept := by
  cases field <;> simp

variable {field : Option Bool}

omit [Inhabited α] [DecidableEq α] in
theorem isSome_imp_ne_iff {bit : Bool} :
    (field.isSome = true → ¬ bit = field.getD false) ↔ field = none ∨ field = some !bit := by
  cases field <;> cases bit <;> simp

omit [Inhabited α] [DecidableEq α] in
theorem getD_false_iff : field.getD false = true ↔ field = some true := by
  cases field <;> simp

omit [Inhabited α] [DecidableEq α] in
theorem isSome_and_getD_iff :
    field.isSome = true ∧ field.getD false = true ↔ field = some true := by
  cases field <;> simp

omit [Inhabited α] in
/-- The checks of the source are those of the language. -/
theorem validateIndexedDescriptor_eq_none_iff (e : SparseArrayEntry α) (fs : DescriptorFields α) :
    validateIndexedDescriptor (toPropertyDescriptor fs) e.descriptor = none
      ↔ e.property.allows fs = true := by
  rw [toPropertyDescriptor_eq]
  obtain ⟨acs, noValue, hnw⟩ | ⟨hna, noGetter, noSetter⟩ := fs.kind
  · obtain ⟨v | ⟨getter, setter⟩, ro, dontEnum, dontDelete, _⟩ := e
    all_goals
      cases dontDelete <;>
      simp_all [DescriptorFields.isAccessor, DescriptorFields.isData, ite_some_eq_none_iff,
        isSome_imp_eq_iff, isSome_imp_ne_iff, isSome_and_getD_iff]
    · grind
    · grind
  · obtain ⟨v | ⟨getter, setter⟩, ro, dontEnum, dontDelete, _⟩ := e
    all_goals
      cases dontDelete <;> cases given : fs.value <;> cases wr : fs.writable <;>
      cases ro <;>
      simp_all [DescriptorFields.isData, ite_some_eq_none_iff, isSome_imp_ne_iff,
        isSome_and_getD_iff, and_assoc]

omit [Inhabited α] [DecidableEq α] in
theorem eq_some_not_of_ne {bit : Bool}
    (same : field = none ∨ ¬ bit = field.getD false) : field = none ∨ field = some !bit := by
  refine isSome_imp_ne_iff.mp fun present => same.resolve_left ?_
  rintro rfl
  exact Bool.false_ne_true present

omit [Inhabited α] [DecidableEq α] in
theorem kept_of_attributesEqual {fs : DescriptorFields α}
    (same : (toPropertyDescriptor fs).attributesEqual e.descriptor = true) :
    (fs.configurable = none ∨ fs.configurable = some !e.attributes.dontDelete) ∧
      (fs.enumerable = none ∨ fs.enumerable = some !e.attributes.dontEnum) ∧
      (fs.isAccessor = false → e.descriptor.isDataDescriptor = true →
        fs.writable = none ∨ fs.writable = some !e.attributes.readOnly) := by
  rw [toPropertyDescriptor_eq] at same
  simp only [attributesEqual, Bool.and_eq_true] at same
  obtain ⟨⟨sameWritable, hcf⟩, hen⟩ := same
  obtain ⟨_ | _, attrs⟩ := e
  all_goals
    refine ⟨eq_some_not_of_ne (by simpa using hcf),
      eq_some_not_of_ne (by simpa using hen), fun hna wasData => ?_⟩
  · exact eq_some_not_of_ne (by simpa [hna] using sameWritable)
  · simp at wasData

/-- A definition that changes nothing is one the language allows. -/
theorem merge_eq_self_of_equalTo (fs : DescriptorFields α)
    (same : (toPropertyDescriptor fs).isEmpty = true ∨
      (toPropertyDescriptor fs).equalTo e.descriptor = true) :
    e.property.allows fs = true ∧ e.property.merge fs = e.property := by
  obtain empty | equal := same
  · rw [toPropertyDescriptor_eq] at empty
    obtain ⟨v | ⟨getter, setter⟩, attrs⟩ := e
    all_goals simp_all [isEmpty, DescriptorFields.isAccessor, DescriptorFields.isData]
  simp only [equalTo, Bool.and_eq_true, decide_eq_true_eq] at equal
  obtain ⟨⟨⟨sameValue, sameGetter⟩, sameSetter⟩, hat⟩ := equal
  obtain ⟨cfg, enm, wr⟩ := kept_of_attributesEqual hat
  rw [toPropertyDescriptor_eq] at sameValue sameGetter sameSetter
  obtain ⟨v | ⟨getter, setter⟩, ro, dontEnum, dontDelete, _⟩ := e
  · have hna : fs.isAccessor = false := by
      simp_all [DescriptorFields.isAccessor]
    obtain wr | wr := wr hna rfl <;>
      obtain cfg | cfg := cfg <;>
      obtain enm | enm := enm <;> cases ro <;> simp_all
  · have hnw : fs.writable = none := (fs.separate (.inl (by simp_all))).2
    obtain cfg | cfg := cfg <;>
      obtain enm | enm := enm <;> simp_all [DescriptorFields.isData]

end Definitions

namespace IndexedStorage

variable {α : Type} {s : IndexedStorage α}

theorem view_set (s : IndexedStorage α) (i : Nat) (e : SparseArrayEntry α) :
    (s.set i e).view = update s.view i (some e.property) := by
  funext oth
  by_cases equal : oth = i
  · subst equal
    simp [view, set]
  · simp [view, set, equal]

theorem extensible_putDirectIndex (s : IndexedStorage α) (i : Nat) (v : α) :
    (s.putDirectIndex i v).extensible = s.extensible := by
  unfold putDirectIndex
  split_ifs <;> rfl

theorem extensible_putByIndex [Inhabited α] (s : IndexedStorage α) (i : Nat)
    (v : α) : (s.putByIndex i v).2.extensible = s.extensible := by
  unfold putByIndex
  split
  · split_ifs <;> rfl
  · split_ifs <;> rfl

theorem extensible_deletePropertyByIndex (s : IndexedStorage α) (i : Nat) :
    (s.deletePropertyByIndex i).2.extensible = s.extensible := by
  unfold deletePropertyByIndex
  split_ifs <;> rfl

theorem extensible_defineOwnIndexedProperty [DecidableEq α] [Inhabited α]
    (s : IndexedStorage α) (i : Nat) (descriptor : PropertyDescriptor α) :
    (s.defineOwnIndexedProperty i descriptor).2.extensible = s.extensible := by
  unfold defineOwnIndexedProperty
  split_ifs
  · exact extensible_putDirectIndex ..
  · unfold defineInSparseMap
    split
    · split_ifs <;> rfl
    · split_ifs <;> rfl

variable (hwf : s.WellFormed)
include hwf

theorem WellFormed.set (i : Nat) {e : SparseArrayEntry α} (hew : e.WellFormed)
    (plain : s.sparse = false → e.attributes = {}) :
    (s.set i e).WellFormed where
  entries oth hf otherFound := by
    by_cases equal : oth = i
    · subst equal
      obtain rfl : e = hf := by simpa [IndexedStorage.set] using otherFound
      exact ⟨hew, Nat.lt_of_lt_of_le (Nat.lt_succ_self oth) (Nat.le_max_right ..)⟩
    · have before : s.entries oth = some hf := by
        simpa [IndexedStorage.set, equal] using otherFound
      obtain ⟨hfw, bound⟩ := hwf.entries oth hf before
      exact ⟨hfw, Nat.lt_of_lt_of_le bound (Nat.le_max_left ..)⟩
  plain hns oth hf otherFound := by
    by_cases equal : oth = i
    · subst equal
      obtain rfl : e = hf := by simpa [IndexedStorage.set] using otherFound
      exact plain hns
    · exact hwf.plain hns oth hf (by simpa [IndexedStorage.set, equal] using otherFound)
  extensible := hwf.extensible

theorem WellFormed.enterSparseMode : WellFormed { s with sparse := true } :=
  ⟨hwf.entries, fun hns => absurd hns (by simp), fun hns => absurd hns (by simp)⟩

/-- The storage finds what its entries hold, whatever its length. -/
theorem WellFormed.getOwnPropertySlotByIndex_eq (i : Nat) :
    s.getOwnPropertySlotByIndex i = s.entries i := by
  unfold getOwnPropertySlotByIndex
  split_ifs with beyond
  · cases hf : s.entries i with
    | none => rfl
    | some e => exact absurd (hwf.entries i e hf).2 (by omega)
  · rfl

omit hwf

variable {i : Nat}

theorem not_readOnly_of_view (wr : ∀ p, s.view i = some p →
      ∃ v enm cfg, p = .data v true enm cfg) :
    ¬ (s.entries i).any (·.attributes.readOnly) = true := by
  cases hf : s.entries i with
  | none => simp
  | some e =>
    obtain ⟨v, enm, cfg, same⟩ := wr e.property (by simp [view, hf])
    obtain ⟨_ | _, attrs⟩ := e
    · simp only [SparseArrayEntry.property, OwnProperty.data.injEq] at same
      simpa using same.2.1
    · simp [SparseArrayEntry.property] at same

include hwf in
/-- Putting directly makes a plain property, unless the property is read-only. -/
theorem WellFormed.putDirectIndex
    (wr : ¬ (s.entries i).any (·.attributes.readOnly) = true) (v : α) :
    (s.putDirectIndex i v).view = update s.view i (some (.data v true true true)) ∧
      (s.putDirectIndex i v).WellFormed := by
  rw [IndexedStorage.putDirectIndex, if_neg wr, view_set]
  exact ⟨rfl, hwf.set i rfl fun _ => rfl⟩

include hwf in
theorem WellFormed.putByIndex [Inhabited α] (i : Nat) (v : α) : (s.putByIndex i v).1.outcome =
    (ordinarySet s.extensible v (s.view i)).1 ∧ (s.putByIndex i v).2.view = update s.view i
    (ordinarySet s.extensible v (s.view i)).2 ∧ (s.putByIndex i v).2.WellFormed := by
  have kept : s.view = update s.view i (s.view i) := by simp
  unfold IndexedStorage.putByIndex
  cases hf : s.entries i with
  | none =>
    have absent : s.view i = none := by simp [view, hf]
    rw [absent] at kept ⊢
    cases s.extensible with
    | true => exact ⟨rfl, view_set .., hwf.set i rfl fun _ => rfl⟩
    | false => exact ⟨rfl, kept, hwf⟩
  | some e =>
    obtain ⟨hew, -⟩ := hwf.entries i e hf
    have plain := fun hns => hwf.plain hns i e hf
    have present : s.view i = some e.property := by simp [view, hf]
    rw [present] at kept ⊢
    obtain ⟨old | ⟨getter, setter⟩, ro, _, _, acs⟩ := e
    · obtain rfl : acs = false := hew
      cases ro with
      | true => exact ⟨rfl, kept, hwf⟩
      | false => exact ⟨rfl, view_set .., hwf.set i rfl plain⟩
    · obtain ⟨rfl, rfl⟩ : acs = true ∧ ro = false := hew
      exact ⟨rfl, kept, hwf⟩

theorem deletePropertyByIndex_view (s : IndexedStorage α) (i : Nat) :
    (s.deletePropertyByIndex i).1 = (ordinaryDelete (s.view i)).1 ∧
      (s.deletePropertyByIndex i).2.view = update s.view i (ordinaryDelete (s.view i)).2 := by
  have kept : s.view = update s.view i (s.view i) := by simp
  have removed : IndexedStorage.view
      { s with entries := update s.entries i none }
        = update s.view i none := by
    funext oth
    by_cases equal : oth = i
    · subst equal
      simp [view]
    · simp [view, equal]
  have protects : (s.entries i).any (·.attributes.dontDelete)
      = (s.view i).any (!·.configurable) := by
    cases hf : s.entries i with
    | none => simp [view, hf]
    | some e =>
      obtain ⟨_ | _, _⟩ := e <;> simp [view, hf, SparseArrayEntry.property,
        OwnProperty.configurable]
  unfold IndexedStorage.deletePropertyByIndex
  rw [protects]
  cases current : s.view i with
  | none => exact ⟨rfl, removed⟩
  | some p =>
    rw [current] at kept
    cases cfg : p.configurable
    · simpa [ordinaryDelete, cfg] using kept
    · simpa [ordinaryDelete, cfg] using removed

include hwf in
theorem WellFormed.deletePropertyByIndex (i : Nat) : (s.deletePropertyByIndex i).2.WellFormed := by
  unfold IndexedStorage.deletePropertyByIndex
  split_ifs with protects
  · exact hwf
  have before : ∀ oth e, update s.entries i none oth = some e → s.entries oth = some e := by
    intro oth e hf
    by_cases equal : oth = i
    · subst equal
      simp at hf
    · simpa [equal] using hf
  exact ⟨fun oth e hf => hwf.entries oth e (before oth e hf),
    fun hns oth e hf =>
      hwf.plain hns oth e (before oth e hf),
    hwf.extensible⟩

include hwf in
theorem WellFormed.mem_getOwnPropertyNames {incl : Bool} :
    i ∈ s.getOwnPropertyNames incl
      ↔ ∃ p, s.view i = some p ∧ (incl = true ∨ p.enumerable = true) := by
  have heq : ∀ e : SparseArrayEntry α, e.property.enumerable = !e.attributes.dontEnum := by
    rintro ⟨_ | _, _⟩ <;> rfl
  cases hf : s.entries i with
  | none => simp [getOwnPropertyNames, view, hf]
  | some e =>
    have bound := (hwf.entries i e hf).2
    simp [getOwnPropertyNames, view, hf, bound, heq]

variable [DecidableEq α] [Inhabited α]

/-- A definition whose attributes are all given as true, on a storage without attributes. -/
theorem ordinaryDefine_of_plain {fs : DescriptorFields α}
    (attrs : (toPropertyDescriptor fs).attributes = {}) {v : α} (given : fs.value = some v)
    (hns : s.sparse = false) (hwf : s.WellFormed) :
    ordinaryDefine s.extensible (s.view i) fs = some
    (.data v true true true) := by
  have hna : fs.isAccessor = false := by
    have acs := congrArg Attributes.accessor attrs
    simpa [toPropertyDescriptor_eq] using acs
  have wr : fs.writable = some true := by
    have ro := congrArg Attributes.readOnly attrs
    exact getD_false_iff.mp (by simpa [toPropertyDescriptor_eq, hna] using ro)
  have enm : fs.enumerable = some true := by
    have dontEnum := congrArg Attributes.dontEnum attrs
    exact getD_false_iff.mp (by simpa [toPropertyDescriptor_eq] using dontEnum)
  have cfg : fs.configurable = some true := by
    have dontDelete := congrArg Attributes.dontDelete attrs
    exact getD_false_iff.mp (by simpa [toPropertyDescriptor_eq] using dontDelete)
  cases hf : s.entries i with
  | none =>
    simp [view, hf, ordinaryDefine, OwnProperty.create, hna, given, wr, enm,
      cfg, hwf.extensible hns]
  | some e =>
    obtain ⟨hew, -⟩ := hwf.entries i e hf
    have noAttributes := hwf.plain hns i e hf
    obtain ⟨_ | _, attrs⟩ := e
    · simp_all [view, ordinaryDefine, SparseArrayEntry.property, OwnProperty.allows,
        OwnProperty.allowsKind, OwnProperty.configurable, OwnProperty.merge]
    · simp_all [SparseArrayEntry.WellFormed]

include hwf in
theorem WellFormed.defineInSparseMap (sparse : s.sparse = true) (i : Nat)
    (fs : DescriptorFields α) :
    ((s.defineInSparseMap i (toPropertyDescriptor fs) (s.entries i)).1 = none
        ↔ (ordinaryDefine s.extensible (s.view i) fs).isSome = true) ∧
      (s.defineInSparseMap i (toPropertyDescriptor fs) (s.entries i)).2.view
        = update s.view i ((ordinaryDefine s.extensible (s.view i) fs).or (s.view i)) ∧
      (s.defineInSparseMap i (toPropertyDescriptor fs) (s.entries i)).2.WellFormed := by
  have noPlain : s.sparse = false → ∀ e : SparseArrayEntry α, e.attributes = {} :=
    fun hns => absurd sparse (by simp [hns])
  cases hf : s.entries i with
  | none =>
    have absent : s.view i = none := by simp [view, hf]
    obtain ⟨created, hcw⟩ := property_newEntry fs
    rw [IndexedStorage.defineInSparseMap, absent, ordinaryDefine, ← created]
    cases s.extensible with
    | true =>
      exact ⟨by simp, view_set .., hwf.set i hcw fun hns =>
        noPlain hns _⟩
    | false => exact ⟨by simp, (update_eq_self_iff.mpr absent.symm).symm, hwf⟩
  | some e =>
    have present : s.view i = some e.property := by simp [view, hf]
    obtain ⟨hew, -⟩ := hwf.entries i e hf
    have valid_iff := validateIndexedDescriptor_eq_none_iff e fs
    rw [IndexedStorage.defineInSparseMap, present, ordinaryDefine]
    split_ifs with same allowed refused allowed allowed
    · obtain ⟨-, unchanged⟩ := merge_eq_self_of_equalTo fs (by simpa using same)
      rw [unchanged, some_or, ← present]
      exact ⟨by simp [present], by simp, hwf⟩
    · exact absurd (merge_eq_self_of_equalTo fs (by simpa using same)).1 allowed
    · simp [valid_iff.mpr allowed] at refused
    · rw [none_or, ← present]
      exact ⟨by simp [isSome_iff_ne_none.mp refused], by simp, hwf⟩
    · obtain ⟨merged, hmw⟩ := property_putIndexedDescriptor hew fs
      rw [← merged]
      exact ⟨by simp, view_set .., hwf.set i hmw fun hns =>
        noPlain hns _⟩
    · exact absurd (valid_iff.mp (by simpa using refused)) allowed

include hwf in
/-- A definition on the indexed storage is a definition on an ordinary object. -/
theorem WellFormed.defineOwnIndexedProperty (i : Nat) (fs : DescriptorFields α) :
    ((s.defineOwnIndexedProperty i (toPropertyDescriptor fs)).1 = none
        ↔ (ordinaryDefine s.extensible (s.view i) fs).isSome = true) ∧
      (s.defineOwnIndexedProperty i (toPropertyDescriptor fs)).2.view
        = update s.view i ((ordinaryDefine s.extensible (s.view i) fs).or (s.view i)) ∧
      (s.defineOwnIndexedProperty i (toPropertyDescriptor fs)).2.WellFormed := by
  rw [IndexedStorage.defineOwnIndexedProperty]
  split_ifs with fast
  · simp only [Bool.and_eq_true, Bool.not_eq_true', decide_eq_true_eq] at fast
    obtain ⟨⟨hns, attrs⟩, given⟩ := fast
    have plain := hwf.plain hns i
    obtain ⟨v, valueEq⟩ := isSome_iff_exists.mp given
    have valueEq' : fs.value = some v := by rwa [toPropertyDescriptor_eq] at valueEq
    have wr : ¬ (s.entries i).any (·.attributes.readOnly) = true := by
      cases hf : s.entries i with
      | none => simp
      | some e => simp [plain e hf]
    rw [ordinaryDefine_of_plain attrs valueEq' hns hwf, valueEq, getD_some, some_or]
    exact ⟨by simp, hwf.putDirectIndex wr v⟩
  · exact hwf.enterSparseMode.defineInSparseMap rfl i fs

end IndexedStorage

end JavaScriptCore.Runtime
