import JavaScriptCore.Runtime.OrdinaryObject.Define
import JavaScriptCore.Runtime.OrdinaryProperty

/-!
# Definitions against the language

A definition on a plain object, of a name or of an index, is `ordinaryDefine` of the property that
the key has. The two implementations meet in `putIndexedDescriptor`: the entry that the named one
puts again is the one that the indexed one leaves in place.
-/

namespace JavaScriptCore.Runtime

open PropertyDescriptor SparseArrayEntry List Function Bool Option

/-- The definition has no value and no functions, is not one that changes the kind of the property,
and its attributes are those of the property. -/
def PropertyDescriptor.leavesAttributes {α : Type} (descriptor current : PropertyDescriptor α) :
    Bool :=
  !descriptor.isAccessorDescriptor && descriptor.value.isNone
    && (descriptor.isGenericDescriptor || current.isDataDescriptor)
    && descriptor.attributesEqual current

theorem getD_eq_self {β : Type} {field : Option β} {v : β}
    (same : field = none ∨ field = some v) : field.getD v = v := by
  obtain rfl | rfl := same <;> rfl

namespace PropertyStore

variable {σ K α : Type} [PropertyStore σ K α] [Inhabited α]

attribute [local simp] putIndexedDescriptor SparseArrayEntry.WellFormed descriptor isDataDescriptor
  isGenericDescriptor isAccessorDescriptor attributesOverridingCurrent

/-- What `putDescriptor` puts. -/
def descriptorEntry (descriptor : PropertyDescriptor α) (attributes : Attributes)
    (oldDescriptor : PropertyDescriptor α) : SparseArrayEntry α :=
  if descriptor.isGenericDescriptor || descriptor.isDataDescriptor then
    if descriptor.isGenericDescriptor && oldDescriptor.isAccessorDescriptor then
      ⟨.getterSetter (oldDescriptor.getter.getD default) (oldDescriptor.setter.getD default),
        { attributes with accessor := true }⟩
    else
      ⟨.value ((descriptor.value.or oldDescriptor.value).getD default),
        { attributes with accessor := false }⟩
  else
    ⟨.getterSetter ((descriptor.getter.or oldDescriptor.getter).getD default)
        ((descriptor.setter.or oldDescriptor.setter).getD default),
      { attributes with readOnly := false, accessor := true }⟩

variable (object : σ) (name : K)

theorem putDescriptor_eq (desc : PropertyDescriptor α)
    (attrs : Attributes) (old : PropertyDescriptor α) :
    putDescriptor object name desc attrs old
      = putDirect object name (descriptorEntry desc attrs old).value
        (descriptorEntry desc attrs old).attributes := by
  unfold putDescriptor descriptorEntry
  split_ifs <;> rfl

variable {entry : SparseArrayEntry α}

/-- The entry that is put again is the one that the sparse map would hold. -/
theorem descriptorEntry_eq (hwf : entry.WellFormed) (fs : DescriptorFields α) :
    descriptorEntry (toPropertyDescriptor fs)
        ((toPropertyDescriptor fs).attributesOverridingCurrent entry.descriptor)
        entry.descriptor
      = putIndexedDescriptor entry (toPropertyDescriptor fs) entry.descriptor := by
  rw [toPropertyDescriptor_eq]
  obtain ⟨accessor, hnv, hnw⟩ | ⟨hna, hng, hns⟩ := fs.kind
  · obtain ⟨v | ⟨getter, setter⟩, attrs⟩ := entry
    all_goals
      cases getterEq : fs.getter <;> cases setterEq : fs.setter <;>
      simp_all [descriptorEntry, DescriptorFields.isAccessor]
  · obtain ⟨v | ⟨getter, setter⟩, attrs⟩ := entry
    all_goals
      cases given : fs.value <;> cases wr : fs.writable <;>
      simp_all [descriptorEntry]

theorem descriptorEntry_new (fs : DescriptorFields α) :
    descriptorEntry (toPropertyDescriptor fs) (toPropertyDescriptor fs).attributes
        { value := some default }
      = putIndexedDescriptor { value := .value default } (toPropertyDescriptor fs)
        newPropertyDefaults := by
  rw [toPropertyDescriptor_eq]
  obtain ⟨accessor, hnv, hnw⟩ | ⟨hna, hng, hns⟩ := fs.kind
  · cases getterEq : fs.getter <;> cases setterEq : fs.setter <;>
      simp_all [descriptorEntry, newPropertyDefaults, DescriptorFields.isAccessor]
  · cases given : fs.value <;> cases wr : fs.writable <;>
      simp_all [descriptorEntry, newPropertyDefaults]

/-- The property is deleted and an entry put in its place. -/
def replace (object : σ) (name : K) (entry : SparseArrayEntry α) : σ :=
  putDirect (deleteProperty object name true).2 name entry.value entry.attributes

variable {fs : DescriptorFields α}

omit [PropertyStore σ K α] in
/-- The functions of an accessor that is redefined as one are put again the same way. -/
theorem accessorEntry_eq (hwf : entry.WellFormed) (accessor : fs.isAccessor = true)
    (hwa : entry.descriptor.isDataDescriptor = false) :
    (⟨.getterSetter (((toPropertyDescriptor fs).getter.or entry.descriptor.getter).getD default)
        (((toPropertyDescriptor fs).setter.or entry.descriptor.setter).getD default),
      { (toPropertyDescriptor fs).attributesOverridingCurrent entry.descriptor with
        accessor := true }⟩ : SparseArrayEntry α)
      = putIndexedDescriptor entry (toPropertyDescriptor fs) entry.descriptor := by
  obtain ⟨-, hnv, hnw⟩ | ⟨hna, -⟩ := fs.kind
  · rw [toPropertyDescriptor_eq]
    obtain ⟨v | ⟨getter, setter⟩, attrs⟩ := entry
    all_goals
      cases getterEq : fs.getter <;> cases setterEq : fs.setter <;>
      simp_all [DescriptorFields.isAccessor]
  · exact absurd accessor (by simp [hna])

variable [DecidableEq α]

omit [Inhabited α] [DecidableEq α] in
theorem attributesEqual_comm (first second : PropertyDescriptor α) :
    first.attributesEqual second = second.attributesEqual first := by
  simp only [attributesEqual, bne_comm, Bool.and_comm]

omit [Inhabited α] in
theorem equalTo_comm (first second : PropertyDescriptor α) :
    first.equalTo second = second.equalTo first := by
  simp only [equalTo, attributesEqual_comm first, eq_comm]

/-- The checks are those of the indexed definition, and what passes them is put again or was there
already. -/
theorem validateAndApplyPropertyDescriptor_eq
    (isExtensible : Bool) (hwf : entry.WellFormed) (fs : DescriptorFields α) :
    validateAndApplyPropertyDescriptor object name isExtensible (toPropertyDescriptor fs)
        (some entry.descriptor)
      = if (toPropertyDescriptor fs).isEmpty
          || (toPropertyDescriptor fs).equalTo entry.descriptor then (none, object)
        else if (validateIndexedDescriptor (toPropertyDescriptor fs) entry.descriptor).isSome then
          (validateIndexedDescriptor (toPropertyDescriptor fs) entry.descriptor, object)
        else if (toPropertyDescriptor fs).leavesAttributes entry.descriptor then (none, object)
        else (none, replace object name
          (putIndexedDescriptor entry (toPropertyDescriptor fs) entry.descriptor)) := by
  have hpr : (toPropertyDescriptor fs).configurable = true →
      (toPropertyDescriptor fs).configurablePresent = true := by
    rw [toPropertyDescriptor_eq]
    cases fs.configurable <;> simp [configurable]
  have redefined : redefine object name (toPropertyDescriptor fs) entry.descriptor =
      replace object name
        (putIndexedDescriptor entry (toPropertyDescriptor fs) entry.descriptor) := by
    rw [redefine, putDescriptor_eq, descriptorEntry_eq hwf]
    rfl
  have kinds := toPropertyDescriptor_isAccessorDescriptor fs
  have put : fs.isAccessor = true → entry.descriptor.isDataDescriptor = false →
      putDirect (deleteProperty object name true).2 name
        (.getterSetter
          (((toPropertyDescriptor fs).getter.or entry.descriptor.getter).getD default)
          (((toPropertyDescriptor fs).setter.or entry.descriptor.setter).getD default))
        { (toPropertyDescriptor fs).attributesOverridingCurrent entry.descriptor with
          accessor := true }
        = replace object name
          (putIndexedDescriptor entry (toPropertyDescriptor fs) entry.descriptor) := by
    intro accessor hwa
    rw [← accessorEntry_eq hwf accessor hwa]
    rfl
  have separate : (toPropertyDescriptor fs).isAccessorDescriptor = true →
      (toPropertyDescriptor fs).isDataDescriptor = false := by
    rw [kinds, toPropertyDescriptor_eq]
    intro accessor
    obtain ⟨-, hnv, hnw⟩ | ⟨hna, -⟩ := fs.kind
    · simp [isDataDescriptor, hnv, hnw]
    · exact absurd accessor (by simp [hna])
  rw [← kinds] at put
  generalize toPropertyDescriptor fs = desc at *
  generalize entry.descriptor = cur at *
  have hnv : desc.isDataDescriptor = false → desc.value = none := by
    simp only [isDataDescriptor, or_eq_false_iff, isSome_eq_false_iff, isNone_iff_eq_none]
    exact And.left
  have function : desc.isAccessorDescriptor = true →
      ¬ (desc.setter.isNone = true ∧ desc.getter.isNone = true) := by
    rintro accessor ⟨hns, hng⟩
    rw [isNone_iff_eq_none] at hns hng
    simp [isAccessorDescriptor, hns, hng] at accessor
  simp only [validateAndApplyPropertyDescriptor, validateIndexedDescriptor, equalTo_comm cur,
    attributesEqual_comm cur, redefined, isGenericDescriptor, leavesAttributes]
  -- The kind of the definition decides which of the checks apply.
  obtain wasData | wasData := eq_false_or_eq_true cur.isDataDescriptor <;>
    obtain configurable | configurable := eq_false_or_eq_true cur.configurable <;>
    obtain isAccessor | isAccessor := eq_false_or_eq_true desc.isAccessorDescriptor
  all_goals simp only [wasData, configurable, isAccessor, Bool.not_true, Bool.not_false,
    Bool.true_and, Bool.false_and]
  all_goals grind

omit [PropertyStore σ K α] [DecidableEq α] in
/-- A definition without a value that has the attributes of the property changes nothing. -/
theorem merge_eq_self_of_attributesEqual (hna : fs.isAccessor = false) (hnv : fs.value = none)
    (kind : (toPropertyDescriptor fs).isGenericDescriptor = true ∨
      entry.descriptor.isDataDescriptor = true)
    (same : (toPropertyDescriptor fs).attributesEqual entry.descriptor = true) :
    entry.property.merge fs = entry.property := by
  obtain ⟨configurable, enm, wr⟩ := kept_of_attributesEqual same
  rw [toPropertyDescriptor_eq] at kind
  obtain ⟨v | ⟨getter, setter⟩, attrs⟩ := entry
  · simp [OwnProperty.merge, property, hna, hnv, getD_eq_self configurable,
      getD_eq_self enm, getD_eq_self (wr hna rfl)]
  · have generic : (fs.getter = none ∧ fs.setter = none) ∧ fs.writable = none := by
      simpa [hnv] using kind
    simp [OwnProperty.merge, property, DescriptorFields.isData, hnv, generic,
      getD_eq_self configurable, getD_eq_self enm]

/-- What a definition of a name comes to: it is refused, it is what the property is already, or a
new entry is put, after the old one has been deleted. -/
theorem define_cases (hwf : ∀ entry, getDirect object name = some entry → entry.WellFormed)
    (isExtensible : Bool) (fs : DescriptorFields α) {cur : Option (OwnProperty α)}
    (view : (getDirect object name).map property = cur) :
    (∃ message, defineOwnNonIndexProperty object name isExtensible (toPropertyDescriptor fs)
        = (some message, object) ∧ ordinaryDefine isExtensible cur fs = none) ∨
    (defineOwnNonIndexProperty object name isExtensible (toPropertyDescriptor fs)
        = (none, object) ∧ cur.isSome = true ∧
      ordinaryDefine isExtensible cur fs = cur) ∨
    ∃ entry : SparseArrayEntry α, entry.WellFormed ∧
      ordinaryDefine isExtensible cur fs = some entry.property ∧
      defineOwnNonIndexProperty object name isExtensible (toPropertyDescriptor fs)
        = (none, if cur.isSome then replace object name entry
          else putDirect object name entry.value entry.attributes) := by
  subst view
  rw [defineOwnNonIndexProperty]
  cases found : getDirect object name with
  | none =>
    rw [map_none, map_none, validateAndApplyPropertyDescriptor, ordinaryDefine]
    cases isExtensible with
    | false => exact .inl ⟨_, rfl, rfl⟩
    | true =>
      obtain ⟨created, hcw⟩ := property_newEntry fs
      refine .inr (.inr ⟨_, hcw, ?_, ?_⟩)
      · rw [if_pos rfl, created]
      · rw [if_neg (by simp), putDescriptor_eq, descriptorEntry_new]
        rfl
  | some entry =>
    have hew := hwf entry found
    rw [map_some, map_some, ordinaryDefine, validateAndApplyPropertyDescriptor_eq _ _ _ hew]
    have valid_iff := validateIndexedDescriptor_eq_none_iff entry fs
    by_cases same : ((toPropertyDescriptor fs).isEmpty
        || (toPropertyDescriptor fs).equalTo entry.descriptor) = true
    · obtain ⟨hal, hun⟩ := merge_eq_self_of_equalTo fs (by simpa using same)
      rw [if_pos same, if_pos hal, hun]
      exact .inr (.inl ⟨rfl, rfl, rfl⟩)
    rw [if_neg same]
    by_cases hal : entry.property.allows fs = true
    · rw [valid_iff.mpr hal, if_neg (by simp), if_pos hal]
      by_cases hun : (toPropertyDescriptor fs).leavesAttributes entry.descriptor = true
      · rw [if_pos hun]
        simp only [leavesAttributes, and_eq_true, not_eq_true',
          or_eq_true, isNone_iff_eq_none] at hun
        obtain ⟨⟨⟨hna, hnv⟩, kind⟩, hat⟩ := hun
        rw [toPropertyDescriptor_isAccessorDescriptor] at hna
        rw [toPropertyDescriptor_value] at hnv
        rw [merge_eq_self_of_attributesEqual hna hnv kind hat]
        exact .inr (.inl ⟨rfl, rfl, rfl⟩)
      · rw [if_neg hun]
        obtain ⟨merged, hmw⟩ := property_putIndexedDescriptor hew fs
        exact .inr (.inr ⟨_, hmw, by rw [merged], rfl⟩)
    · obtain ⟨message, refused⟩ := ne_none_iff_exists'.mp (mt valid_iff.mp hal)
      rw [refused, if_pos isSome_some, if_neg hal]
      exact .inl ⟨message, rfl, rfl⟩

end PropertyStore

namespace NamedProperties

variable {K α : Type} [DecidableEq K]

def view (properties : NamedProperties K α) (name : K) : Option (OwnProperty α) :=
  (properties.getDirect name).map SparseArrayEntry.property

structure WellFormed (properties : NamedProperties K α) : Prop where
  nodup : (properties.map Prod.fst).Nodup
  entries : ∀ property ∈ properties, property.2.WellFormed

/-- The property is taken out and put at the end. -/
def replaced (properties : NamedProperties K α) (name : K) (entry : SparseArrayEntry α) :
    NamedProperties K α :=
  (properties.filter fun property => property.1 ≠ name) ++ [(name, entry)]

section Lookup

variable {ps : NamedProperties K α} {name oth : K} {entry : SparseArrayEntry α}

theorem filter_eq_self_of_absent (absent : ps.getDirect name = none) :
    (ps.filter fun property => property.1 ≠ name) = ps := by
  rw [filter_eq_self]
  intro property listed
  rw [getDirect, lookup_eq_none_iff] at absent
  have hne := absent property listed
  rw [bne_iff_ne] at hne
  simpa using hne.symm

theorem getDirect_filter_self :
    NamedProperties.getDirect (ps.filter fun property => property.1 ≠ name) name = none := by
  rw [getDirect, lookup_eq_none_iff]
  intro property listed
  have hne := (mem_filter.mp listed).2
  rw [bne_iff_ne]
  exact (of_decide_eq_true hne).symm

theorem getDirect_filter_of_ne (hne : oth ≠ name) :
    NamedProperties.getDirect (ps.filter fun property => property.1 ≠ name) oth
      = ps.getDirect oth := by
  induction ps with
  | nil => rfl
  | cons property ps ih =>
    unfold getDirect at ih ⊢
    by_cases isName : property.1 = name
    · have notOther : (oth == property.1) = false := by simpa [isName] using hne
      rw [filter_cons_of_neg (by simpa using isName), ih, lookup_cons, notOther]
    · rw [filter_cons_of_pos (by simpa using isName), lookup_cons, lookup_cons, ih]

theorem getDirect_replaced_self : (ps.replaced name entry).getDirect name = some entry := by
  have absent : (ps.filter fun property => property.1 ≠ name).lookup name = none :=
    getDirect_filter_self
  rw [getDirect, replaced, lookup_append, absent]
  simp

theorem getDirect_replaced_of_ne (hne : oth ≠ name) :
    (ps.replaced name entry).getDirect oth = ps.getDirect oth := by
  have kept : (ps.filter fun property => property.1 ≠ name).lookup oth
      = ps.getDirect oth := getDirect_filter_of_ne hne
  have notOther : (oth == name) = false := by simpa using hne
  rw [getDirect, replaced, lookup_append, kept, lookup_cons, notOther]
  simp

theorem view_replaced : (ps.replaced name entry).view
      = update ps.view name (some entry.property) := by
  funext oth
  by_cases equal : oth = name
  · subst equal
    simp [view, getDirect_replaced_self]
  · simp [view, getDirect_replaced_of_ne equal, equal]

theorem WellFormed.replaced (hwf : ps.WellFormed)
    (hew : entry.WellFormed) : (ps.replaced name entry).WellFormed := by
  constructor
  · rw [NamedProperties.replaced, map_append, nodup_append]
    refine ⟨hwf.nodup.sublist (filter_sublist.map Prod.fst), by simp, ?_⟩
    intro first listed second isName
    obtain ⟨property, isListed, rfl⟩ := mem_map.mp listed
    have hne := (mem_filter.mp isListed).2
    simp only [map_cons, map_nil, mem_singleton] at isName
    simpa [isName] using hne
  · intro property listed
    obtain listed | isName := mem_append.mp listed
    · exact hwf.entries property (mem_filter.mp listed).1
    · obtain rfl := mem_singleton.mp isName
      exact hew

theorem WellFormed.of_getDirect (hwf : ps.WellFormed)
    (found : ps.getDirect name = some entry) : entry.WellFormed := by
  obtain ⟨before, after, equal, -⟩ := lookup_eq_some_iff.mp found
  exact hwf.entries (name, entry) (by simp [equal])

/-- What is put after the property has been deleted comes at the end. -/
theorem putDirect_deleteProperty (ps : NamedProperties K α) (name : K)
    (v : EntryValue α) (attrs : Attributes) :
    (ps.deleteProperty name true).2.putDirect name v attrs = ps.replaced name ⟨v, attrs⟩ := by
  have deleted : (ps.deleteProperty name true).2 = ps.filter fun property => property.1 ≠ name := by
    cases found : ps.getDirect name with
    | none => rw [deleteProperty, found, filter_eq_self_of_absent found]
    | some entry => simp [deleteProperty, found]
  rw [deleted, putDirect, getDirect_filter_self]
  rfl

theorem putDirect_of_absent (absent : ps.getDirect name = none) (v : EntryValue α)
    (attrs : Attributes) :
    ps.putDirect name v attrs = ps.replaced name ⟨v, attrs⟩ := by
  rw [replaced, filter_eq_self_of_absent absent, putDirect, absent]

end Lookup

theorem WellFormed.defineOwnNonIndexProperty [Inhabited α] [DecidableEq α]
    {ps : NamedProperties K α} (hwf : ps.WellFormed) (name : K)
    (isExtensible : Bool) (fs : DescriptorFields α) :
    ((PropertyStore.defineOwnNonIndexProperty ps name isExtensible
          (toPropertyDescriptor fs)).1 = none
        ↔ (ordinaryDefine isExtensible (ps.view name) fs).isSome = true) ∧
      NamedProperties.view (PropertyStore.defineOwnNonIndexProperty ps name isExtensible
          (toPropertyDescriptor fs)).2
        = update ps.view name
          ((ordinaryDefine isExtensible (ps.view name) fs).or (ps.view name)) ∧
      NamedProperties.WellFormed (PropertyStore.defineOwnNonIndexProperty ps name
        isExtensible (toPropertyDescriptor fs)).2 := by
  obtain ⟨message, result, refused⟩ | ⟨result, hpr, hun⟩ | ⟨entry, hew, defined, result⟩ :=
      PropertyStore.define_cases ps name (fun entry => hwf.of_getDirect) isExtensible
        fs (Eq.refl (ps.view name))
  · rw [result, refused]
    exact ⟨by simp, by simp, hwf⟩
  · rw [result, hun]
    exact ⟨by simp [hpr], by simp, hwf⟩
  · have put : (if (ps.view name).isSome then PropertyStore.replace ps name entry
        else PropertyStore.putDirect ps name entry.value entry.attributes)
          = ps.replaced name entry := by
      split_ifs with hpr
      · exact putDirect_deleteProperty ps name entry.value entry.attributes
      · exact putDirect_of_absent (by simpa [view] using hpr) entry.value entry.attributes
    rw [result, put, defined]
    exact ⟨by simp, view_replaced, hwf.replaced hew⟩

end NamedProperties

/-- What a non-configurable property may become: a writable one may change its value and may stop
being writable. -/
def OwnProperty.Fixes {α : Type} (property property' : OwnProperty α) : Prop :=
  property' = property ∨ ∃ value value' writable enumerable,
    property = .data value true enumerable false ∧
      property' = .data value' writable enumerable false

section Fixes

variable {α : Type} {property p' property'' : OwnProperty α}

theorem OwnProperty.Fixes.trans (before : property.Fixes p')
    (after : p'.Fixes property'') : property.Fixes property'' := by
  obtain rfl | ⟨v, value', wr, enm, rfl, rfl⟩ := before
  · exact after
  · obtain rfl | ⟨_, value'', writable', _, equal, rfl⟩ := after
    · exact .inr ⟨v, value', wr, enm, rfl, rfl⟩
    · obtain ⟨-, -, rfl, -⟩ := OwnProperty.data.inj equal
      exact .inr ⟨v, value'', writable', _, rfl, rfl⟩

theorem OwnProperty.Fixes.configurable (fixes : property.Fixes p')
    (fixed : property.configurable = false) : p'.configurable = false := by
  obtain rfl | ⟨v, value', wr, enm, rfl, rfl⟩ := fixes
  · exact fixed
  · rfl

/-- A definition that a non-configurable property allows leaves it as fixed as it was. -/
theorem OwnProperty.fixes_merge [DecidableEq α] [Inhabited α]
    (fixed : property.configurable = false) {fs : DescriptorFields α}
    (hal : property.allows fs = true) : property.Fixes (property.merge fs) := by
  simp only [OwnProperty.allows, fixed, Bool.false_or, and_eq_true, or_eq_true,
    bne_iff_ne, decide_eq_true_eq] at hal
  obtain ⟨⟨notConfigurable, hen⟩, allowsKind⟩ := hal
  have configurable : fs.configurable.getD false = false := by
    cases given : fs.configurable with
    | none => rfl
    | some bit => cases bit <;> simp_all
  cases property with
  | data v wr enm _ =>
    obtain rfl : _ = false := fixed
    have keeps : fs.enumerable.getD enm = enm := getD_eq_self hen
    cases accessor : fs.isAccessor with
    | true => simp [OwnProperty.allowsKind, accessor] at allowsKind
    | false =>
      rw [OwnProperty.merge, accessor, if_neg Bool.false_ne_true, keeps, configurable]
      cases wr with
      | true => exact .inr ⟨v, _, _, enm, rfl, rfl⟩
      | false =>
        simp only [OwnProperty.allowsKind, accessor, false_eq_true, if_false, Bool.false_or,
          and_eq_true, or_eq_true, bne_iff_ne, decide_eq_true_eq] at allowsKind
        have readOnly : fs.writable.getD false = false := by
          cases given : fs.writable with
          | none => rfl
          | some bit => cases bit <;> simp_all
        rw [readOnly, getD_eq_self allowsKind.2]
        exact .inl rfl
  | accessor getter setter enm _ =>
    obtain rfl : _ = false := fixed
    have keeps : fs.enumerable.getD enm = enm := getD_eq_self hen
    cases isData : fs.isData with
    | true => simp [OwnProperty.allowsKind, isData] at allowsKind
    | false =>
      simp only [OwnProperty.allowsKind, isData, false_eq_true, if_false, Bool.false_or,
        and_eq_true, or_eq_true, decide_eq_true_eq] at allowsKind
      rw [OwnProperty.merge, isData, if_neg Bool.false_ne_true, keeps, configurable,
        getD_eq_self allowsKind.1, getD_eq_self allowsKind.2]
      exact .inl rfl

end Fixes

namespace OrdinaryObject

variable {K α : Type} [DecidableEq K]

def view (object : OrdinaryObject K α) : PropertyKey K → Option (OwnProperty α)
  | .index index => object.indexed.view index
  | .name name => object.named.view name

structure WellFormed (object : OrdinaryObject K α) : Prop where
  named : object.named.WellFormed
  indexed : object.indexed.WellFormed

variable [DecidableEq α] [Inhabited α] {object : OrdinaryObject K α}

theorem isExtensible_defineOwnProperty (object : OrdinaryObject K α) (key : PropertyKey K)
    (desc : PropertyDescriptor α) :
    (object.defineOwnProperty key desc).2.isExtensible = object.isExtensible := by
  cases key with
  | index index => exact object.indexed.extensible_defineOwnIndexedProperty index desc
  | name name => rfl

/-- A definition is accepted when the language accepts it, and makes of the property what the
language makes of it. -/
theorem WellFormed.defineOwnProperty (hwf : object.WellFormed) (key : PropertyKey K)
    (fs : DescriptorFields α) :
    ((object.defineOwnProperty key (toPropertyDescriptor fs)).1 = none
        ↔ (ordinaryDefine object.isExtensible (object.view key) fs).isSome = true) ∧
      (object.defineOwnProperty key (toPropertyDescriptor fs)).2.view = update object.view key
          ((ordinaryDefine object.isExtensible (object.view key) fs).or (object.view key)) ∧
      (object.defineOwnProperty key (toPropertyDescriptor fs)).2.WellFormed := by
  cases key with
  | index index =>
    obtain ⟨answer, view, indexed⟩ := hwf.indexed.defineOwnIndexedProperty index fs
    refine ⟨answer, ?_, hwf.named, indexed⟩
    funext oth
    cases oth with
    | index oth =>
      simpa [update_apply, OrdinaryObject.defineOwnProperty, OrdinaryObject.view,
        isExtensible] using congrFun view oth
    | name oth => simp [OrdinaryObject.defineOwnProperty, OrdinaryObject.view]
  | name name =>
    obtain ⟨answer, view, named⟩ := hwf.named.defineOwnNonIndexProperty name object.isExtensible fs
    refine ⟨answer, ?_, named, hwf.indexed⟩
    funext oth
    cases oth with
    | index oth => simp [OrdinaryObject.defineOwnProperty, OrdinaryObject.view]
    | name oth =>
      simpa [update_apply, OrdinaryObject.defineOwnProperty, OrdinaryObject.view]
        using congrFun view oth

/-- A sequence of definitions. -/
def defineAll (object : OrdinaryObject K α)
    (definitions : List (PropertyKey K × DescriptorFields α)) :
    OrdinaryObject K α :=
  definitions.foldl (fun object definition =>
    (object.defineOwnProperty definition.1 (toPropertyDescriptor definition.2)).2) object

variable {property : OwnProperty α} {key : PropertyKey K}

/-- One definition keeps what a non-configurable property has. -/
theorem WellFormed.fixes_defineOwnProperty (hwf : object.WellFormed)
    (hpr : object.view key = some property)
    (fixed : property.configurable = false) (oth : PropertyKey K) (fs : DescriptorFields α) :
    ∃ p', (object.defineOwnProperty oth (toPropertyDescriptor fs)).2.view key
        = some p' ∧ property.Fixes p' := by
  obtain ⟨-, view, -⟩ := hwf.defineOwnProperty oth fs
  rw [view]
  by_cases equal : key = oth
  · subst equal
    rw [update_self, hpr, ordinaryDefine]
    split_ifs with hal
    · exact ⟨_, rfl, OwnProperty.fixes_merge fixed hal⟩
    · exact ⟨property, rfl, .inl rfl⟩
  · exact ⟨property, by rwa [update_of_ne equal], .inl rfl⟩

theorem WellFormed.fixes_defineAll (hwf : object.WellFormed) (hpr : object.view key = some property)
    (fixed : property.configurable = false) (dfs : List (PropertyKey K × DescriptorFields α)) :
    ∃ p', (object.defineAll dfs).view key = some p' ∧ property.Fixes p' := by
  induction dfs generalizing object property with
  | nil => exact ⟨property, hpr, .inl rfl⟩
  | cons df dfs ih =>
    obtain ⟨between, present', before⟩ := hwf.fixes_defineOwnProperty hpr fixed df.1 df.2
    obtain ⟨-, -, wellFormed'⟩ := hwf.defineOwnProperty df.1 df.2
    obtain ⟨p', present'', after⟩ := ih wellFormed' present' (before.configurable fixed)
    exact ⟨p', present'', before.trans after⟩

/-- Definitions of names and of indices are those of the language, so they agree with each other,
and no sequence of them changes a non-configurable property but by its value, while it is writable,
or by making it read-only. -/
theorem defineOwnProperty_is_ordinaryDefine (object : OrdinaryObject K α)
    (wellFormed : object.WellFormed) :
    (∀ key fields, ((object.defineOwnProperty key (toPropertyDescriptor fields)).1 = none
        ↔ (ordinaryDefine object.isExtensible (object.view key) fields).isSome = true) ∧
      (object.defineOwnProperty key (toPropertyDescriptor fields)).2.view = update object.view key
          ((ordinaryDefine object.isExtensible (object.view key) fields).or (object.view key)) ∧
      (object.defineOwnProperty key (toPropertyDescriptor fields)).2.isExtensible
        = object.isExtensible) ∧
    (∀ index name fields, object.view (.index index) = object.view (.name name) →
      ((object.defineOwnProperty (.index index) (toPropertyDescriptor fields)).1 = none
        ↔ (object.defineOwnProperty (.name name) (toPropertyDescriptor fields)).1 = none) ∧
      (object.defineOwnProperty (.index index) (toPropertyDescriptor fields)).2.view (.index index)
        = (object.defineOwnProperty (.name name) (toPropertyDescriptor fields)).2.view
          (.name name)) ∧
    ∀ key property, object.view key = some property → property.configurable = false →
      ∀ definitions, ∃ property', (object.defineAll definitions).view key = some property' ∧
        property.Fixes property' := by
  refine ⟨fun key fields => ?_, fun index name fields same => ?_,
    fun key property present fixed definitions =>
      wellFormed.fixes_defineAll present fixed definitions⟩
  · obtain ⟨answer, view, -⟩ := wellFormed.defineOwnProperty key fields
    exact ⟨answer, view, object.isExtensible_defineOwnProperty key _⟩
  · obtain ⟨answer, view, -⟩ := wellFormed.defineOwnProperty (.index index) fields
    obtain ⟨answer', view', -⟩ := wellFormed.defineOwnProperty (.name name) fields
    rw [view, view', update_self, update_self, same]
    exact ⟨answer.trans (by rw [same, answer']), rfl⟩

/-- The same non-configurable property under a name and under an index. -/
def nonConfigurableTwice : OrdinaryObject Nat Nat where
  named := [(7, { value := .value 1, attributes := { dontDelete := true } })]
  indexed :=
    { entries := fun index =>
        if index = 0 then some { value := .value 1, attributes := { dontDelete := true } } else none
      length := 1
      sparse := true }

theorem nonConfigurableTwice_wellFormed : nonConfigurableTwice.WellFormed := by
  refine ⟨⟨by decide, fun property listed => ?_⟩, ⟨fun index entry found => ?_,
    fun hsp => absurd hsp (by decide), fun hsp => absurd hsp (by decide)⟩⟩
  · obtain rfl := mem_singleton.mp listed
    rfl
  · by_cases first : index = 0
    · obtain rfl : _ = entry := by simpa [nonConfigurableTwice, first] using found
      exact ⟨rfl, by simp [nonConfigurableTwice, first]⟩
    · simp [nonConfigurableTwice, first] at found

theorem defineOwnProperty_is_ordinaryDefine_of_nonConfigurableTwice :
    nonConfigurableTwice.WellFormed ∧ (∀ fields, (nonConfigurableTwice.defineOwnProperty (.index 0)
          (toPropertyDescriptor fields)).1 = none
        ↔ (nonConfigurableTwice.defineOwnProperty (.name 7)
          (toPropertyDescriptor fields)).1 = none) ∧
      ∀ definitions, ∃ property',
        (nonConfigurableTwice.defineAll definitions).view (.name 7) = some property' ∧
          (OwnProperty.data 1 true true false).Fixes property' := by
  obtain ⟨-, agree, fixed⟩ :=
    defineOwnProperty_is_ordinaryDefine nonConfigurableTwice nonConfigurableTwice_wellFormed
  exact ⟨nonConfigurableTwice_wellFormed, fun fields => (agree 0 7 fields (by decide)).1,
    fun definitions => fixed (.name 7) (.data 1 true true false) (by decide) rfl definitions⟩

end OrdinaryObject

end JavaScriptCore.Runtime
