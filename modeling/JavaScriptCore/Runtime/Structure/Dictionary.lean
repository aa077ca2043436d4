import JavaScriptCore.Runtime.PropertyTable.OrderedMap
import JavaScriptCore.Runtime.Structure.FlattenSpec

/-!
# Programs on a dictionary

Programs of additions, removals, reads, writes and flattenings on one object, against the list of
its entries. Fewer than `PropertyTable.maxCapacity` properties fit a table.
-/

namespace JavaScriptCore.Runtime

open JavaScriptCore.ProgramLogic List

variable {w : Wtf.Platform} {K V : Type}

namespace JSObject

inductive Call (K V : Type) where
  | add (name : K) (attributes : UInt8) (value : V)
  | put (name : K) (value : V)
  | get (name : K)
  | remove (name : K)
  | enumerate
  | toDictionary (kind : DictionaryKind)
  | flatten

inductive Answer (K V : Type) where
  | done
  | value (value : Option V)
  | properties (properties : List (K × UInt8))
  deriving DecidableEq, Repr

variable [DecidableEq K]

/-- The calls on the object. -/
def callStep (hash : K → UInt32) (object : JSObject w K V) :
    Call K V → Option (JSObject w K V × Answer K V)
  | .add name attributes value => do
    let (_, object) ← object.add hash name attributes value
    return (object, .done)
  | .put name value => do
    let object ← object.put hash name value
    return (object, .done)
  | .get name => do
    let value ← object.get hash name
    return (object, .value value)
  | .remove name => do
    let (_, object) ← object.remove hash name
    return (object, .done)
  | .enumerate =>
    some (object, .properties (object.shape.table.iterate.filterMap fun entry =>
      entry.property?.map fun property => (property.key, property.attributes)))
  | .toDictionary kind => some (object.toDictionary kind, .done)
  | .flatten => do
    let object ← object.flattenDictionaryStructure
    return (object, .done)

/-- The calls on the list of entries. Flattening is not visible. -/
def entryStep (w : Wtf.Platform) (entries : List (Entry K V)) :
    Call K V → Option (List (Entry K V) × Answer K V)
  | .add name attributes value =>
    if name ∉ entries.map Entry.name ∧ entries.length + 1 < PropertyTable.maxCapacity w then
      some (entries ++ [⟨name, attributes, value⟩], .done)
    else none
  | .put name value =>
    if name ∈ entries.map Entry.name then some (entries.map (Entry.write name value), .done)
    else none
  | .get name => some (entries, .value ((entries.find? (·.name = name)).map Entry.value))
  | .remove name => some (entries.filter (·.name ≠ name), .done)
  | .enumerate =>
    some (entries, .properties (entries.map fun entry => (entry.name, entry.attributes)))
  | .toDictionary _ | .flatten => some (entries, .done)

omit [DecidableEq K] in
theorem create_represents {hash : K → UInt32} {cap : Nat} (h : (cap : Int) < firstOutOfLineOffset) :
    Represents hash (create cap h : JSObject w K V) [] := by
  have ht : PropertyTable.Represents hash (.create 0 : PropertyTable w K) [] :=
    PropertyTable.create_represents (by cases w <;> decide)
  obtain ⟨_, hwf⟩ := ht
  exact ⟨⟨hwf, .refl _, rfl, Nat.two_pow_pos 30⟩, rfl, .nil⟩

variable {hash : K → UInt32}

theorem Represents.enumerate {obj : JSObject w K V} {es : List (Entry K V)}
    (h : Represents hash obj es) :
    (obj.shape.table.iterate.filterMap fun entry =>
      entry.property?.map fun property => (property.key, property.attributes)) =
      es.map fun entry => (entry.name, entry.attributes) := by
  obtain ⟨p, hwf⟩ := h.consistent.wellFormed
  rw [hwf.iterate, filterMap_map]
  have hs := h.stored
  clear h hwf
  generalize obj.shape.table.properties = properties at hs
  induction hs with
  | nil => rfl
  | cons hh _ ih =>
    rw [filterMap_cons, ih, map_cons]
    simp [PropertyMapEntry.property?, hh.1, hh.2.1]

theorem Represents.callStep {cap : Nat} {obj : JSObject w K V} {es : List (Entry K V)}
    (h : Represents hash obj es ∧ obj.shape.inlineCapacity = cap)
    {call : Call K V} {entries' : List (Entry K V)} {answer : Answer K V}
    (hs : entryStep w es call = some (entries', answer)) :
    ∃ obj', obj.callStep hash call = some (obj', answer) ∧
      Represents hash obj' entries' ∧ obj'.shape.inlineCapacity = cap := by
  obtain ⟨h, rfl⟩ := h
  cases call with
  | add name attributes value =>
    simp only [entryStep] at hs
    split at hs
    · rename_i ha
      obtain ⟨offset, obj', hadd, hr, hi⟩ := h.add attributes value ha.1 ha.2
      cases hs
      exact ⟨obj', by simp [JSObject.callStep, hadd], hr, hi⟩
    · cases hs
  | put name value =>
    simp only [entryStep] at hs
    split at hs
    · rename_i hmem
      obtain ⟨obj', hput, hr, hsh⟩ := h.put value hmem
      cases hs
      exact ⟨obj', by simp [JSObject.callStep, hput], hr, by rw [hsh]⟩
    · cases hs
  | get name =>
    cases hs
    exact ⟨obj, by simp [JSObject.callStep, h.get name], h, rfl⟩
  | remove name =>
    obtain ⟨offset, obj', hre, hr, hi⟩ := h.remove name
    cases hs
    exact ⟨obj', by simp [JSObject.callStep, hre], hr, hi⟩
  | enumerate =>
    cases hs
    refine ⟨obj, ?_, h, rfl⟩
    rw [JSObject.callStep, h.enumerate]
  | toDictionary kind =>
    cases hs
    exact ⟨obj.toDictionary kind, rfl, h.toDictionary kind, rfl⟩
  | flatten =>
    obtain ⟨obj', hf, hr, hi, _⟩ := h.flattenDictionaryStructure
    cases hs
    exact ⟨obj', by simp [JSObject.callStep, hf], hr, hi⟩

/-- Every program returns the answers of the list of entries, so flattening changes no value and no
order. After it the live offsets and those given up are the offsets of the first property numbers,
each once, and the last offset covers them. -/
theorem program_numbers_offsets {inlineCapacity : Nat}
    (hcapacity : (inlineCapacity : Int) < firstOutOfLineOffset) {calls : List (Call K V)}
    {entries : List (Entry K V)} {answers : List (Answer K V)}
    (hrun : runAll (entryStep w) calls [] = some (entries, answers)) :
    ∃ object : JSObject w K V,
      runAll (callStep hash) calls (create inlineCapacity hcapacity) = some (object, answers) ∧
      (object.shape.liveOffsets ++ object.shape.table.deletedOffsets).Nodup ∧
      (object.shape.liveOffsets ++ object.shape.table.deletedOffsets).Perm
        ((range object.shape.table.propertyStorageSize).map
          (offsetForPropertyNumber · inlineCapacity)) ∧
      object.shape.checkOffsetConsistency = true ∧
      (∀ offset ∈ object.shape.liveOffsets ++ object.shape.table.deletedOffsets,
        offset ≤ object.shape.offset) ∧
      List.Forall₂ (Stored object) object.shape.table.properties entries ∧
      object.shape.table.iterate = object.shape.table.properties.map .live := by
  obtain ⟨object, hcalls, h, rfl⟩ := runAll_simulates
    (R := fun object entries => Represents hash (object : JSObject w K V) entries ∧
      object.shape.inlineCapacity = inlineCapacity) hrun ⟨create_represents hcapacity, rfl⟩
    fun _ _ h _ _ _ hstep => Represents.callStep h hstep
  obtain ⟨p, hwf⟩ := h.consistent.wellFormed
  exact ⟨object, hcalls,
    h.consistent.numbered.nodup_iff.mpr (Structure.nodup_firstOffsets object.shape.capacity _),
    h.consistent.numbered, h.consistent.checkOffsetConsistency, fun _ => h.consistent.le_last,
    h.stored, hwf.iterate⟩

/-- Inline capacity 1: the offset of a removed property is used again, and flattening moves the last
value to another slot. -/
theorem program_numbers_offsets_flattened :
    let calls : List (Call Nat Nat) := [.toDictionary .uncachedDictionaryKind,
      .add 1 0 10, .add 2 0 20, .add 3 0 30, .remove 1, .add 4 0 40, .remove 2, .put 3 31,
      .flatten, .get 3, .get 4, .get 2, .enumerate]
    ∃ object : JSObject .bits64 Nat Nat, runAll (callStep fun _ => 5) calls (create 1 (by decide)) =
        some (object, replicate 9 .done ++ [.value (some 31), .value (some 40), .value none,
          .properties [(3, 0), (4, 0)]]) ∧
      (object.shape.liveOffsets ++ object.shape.table.deletedOffsets).Perm
        ((range object.shape.table.propertyStorageSize).map (offsetForPropertyNumber · 1)) ∧
      List.Forall₂ (Stored object) object.shape.table.properties [⟨3, 0, 31⟩, ⟨4, 0, 40⟩] := by
  intro calls
  obtain ⟨object, hrun, _, hnumbered, _, _, hstored, _⟩ :=
    @program_numbers_offsets .bits64 Nat Nat _ (fun _ => 5) 1 (by decide) calls _ _ rfl
  exact ⟨object, hrun, hnumbered, hstored⟩

/-! ## A full table -/

theorem table_of_add {obj obj' : JSObject w K V} {name : K} {attrs : UInt8} {v : V} {off : Int}
    (h : obj.add hash name attrs v = some (off, obj')) :
    ∃ result, (obj.shape.table.nextOffset obj.shape.inlineCapacity).2.add hash ⟨name, off, attrs⟩
      obj.shape.offset .mayChange = some result ∧ obj'.shape.table = result.table := by
  simp only [JSObject.add, Option.bind_eq_bind, Option.bind_eq_some_iff, Option.pure_def,
    Option.some.injEq, Prod.mk.injEq] at h
  obtain ⟨_, _, result, hadd, grown, hg, _, _, written, hput, rfl, rfl⟩ := h
  refine ⟨result, hadd, ?_⟩
  have hshape : written.shape = grown.shape := by
    simp only [putDirect] at hput
    split_ifs at hput <;> cases hput <;> rfl
  rw [hshape]
  simp only [setLastOffset, allocateMoreOutOfLineStorage] at hg
  split_ifs at hg <;> cases hg <;> rfl

/-- However many additions return, the table is well-formed after them. -/
theorem wellFormed_of_adds {names : List K} {v : K → V} {obj obj' : JSObject .bits64 K V} {p : Nat}
    {answers : List (Answer K V)} (hwf : obj.shape.table.WellFormed hash p)
    (hnd : (obj.shape.table.properties.map Property.key ++ names).Nodup)
    (hrun : runAll (callStep hash) (names.map fun name => .add name 0 (v name)) obj =
      some (obj', answers)) : ∃ q, obj'.shape.table.WellFormed hash q ∧
      obj'.shape.table.properties.map Property.key =
        obj.shape.table.properties.map Property.key ++ names := by
  induction names generalizing obj p answers with
  | nil =>
    cases hrun
    exact ⟨p, hwf, (append_nil _).symm⟩
  | cons name names ih =>
    obtain ⟨u, answer, rest, hstep, hrest, rfl⟩ := runAll_cons_eq_some.mp hrun
    simp only [callStep, Option.bind_eq_bind, Option.bind_eq_some_iff, Option.pure_def,
      Option.some.injEq, Prod.exists, Prod.mk.injEq] at hstep
    obtain ⟨off, u', hadd, rfl, -⟩ := hstep
    obtain ⟨result, hresult, htable⟩ := table_of_add hadd
    have hnext : (obj.shape.table.nextOffset obj.shape.inlineCapacity).2.WellFormed hash p ∧
        (obj.shape.table.nextOffset obj.shape.inlineCapacity).2.properties =
          obj.shape.table.properties := by
      rw [PropertyTable.nextOffset]
      split
      · exact ⟨hwf.setDeletedOffsets _, rfl⟩
      · exact ⟨hwf, rfl⟩
    have hab : name ∉ obj.shape.table.properties.map Property.key :=
      fun hmem => (nodup_append.mp hnd).2.2 _ hmem _ mem_cons_self rfl
    obtain ⟨q, hwf', hps⟩ := hnext.1.add_returned (by rw [hnext.2]; exact hab) hresult
    have hkeys : u'.shape.table.properties.map Property.key =
        obj.shape.table.properties.map Property.key ++ [name] := by
      rw [htable, hps, hnext.2, map_append]
      rfl
    obtain ⟨r, hr, hall⟩ := ih (htable ▸ hwf') (by rw [hkeys, append_assoc]; exact hnd) hrest
    exact ⟨r, hr, by rw [hall, hkeys, append_assoc]; rfl⟩

theorem adds_le {names : List Nat} (hnd : names.Nodup) {obj : JSObject .bits64 Nat Nat}
    {answers : List (Answer Nat Nat)} {hlt : ((0 : Nat) : Int) < firstOutOfLineOffset}
    (hrun : runAll (callStep UInt32.ofNat) (names.map fun name => .add name 0 name)
      (create 0 hlt) = some (obj, answers)) : names.length ≤ 2 ^ 30 := by
  have hempty : Represents UInt32.ofNat (create 0 hlt : JSObject .bits64 Nat Nat) [] :=
    create_represents hlt
  obtain ⟨p, hwf⟩ := hempty.consistent.wellFormed
  obtain ⟨q, hwf', hkeys⟩ := wellFormed_of_adds hwf hnd hrun
  have hlen : _ = names.length := congrArg length hkeys
  have hroom := hwf'.room
  have hpow : 2 ^ (q - 1) ≤ PropertyTable.maxCapacity .bits64 :=
    Nat.pow_le_pow_right (by decide) (Nat.sub_le_sub_right hwf'.le 1)
  have hmax := PropertyTable.maxCapacity_le .bits64
  rw [length_map, ← hwf'.keyCount] at hlen
  rw [hwf'.tableCapacity, PropertyTable.usedCount] at hroom
  omega

/-- `2 ^ 30 + 1` properties cannot be added: the index that is asked for has no slots. -/
theorem adds_beyond_index :
    runAll (callStep UInt32.ofNat) ((range (2 ^ 30 + 1)).map fun n => .add n 0 n)
      (create 0 (by decide) : JSObject .bits64 Nat Nat) = none := by
  rw [Option.eq_none_iff_forall_not_mem]
  rintro ⟨obj, answers⟩ hrun
  have hle := adds_le nodup_range hrun
  rw [length_range] at hle
  omega

end JSObject

end JavaScriptCore.Runtime
