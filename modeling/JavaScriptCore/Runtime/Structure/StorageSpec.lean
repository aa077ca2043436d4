import JavaScriptCore.ProgramLogic.Simulation
import JavaScriptCore.Runtime.PropertyTable.TableSpec
import JavaScriptCore.Runtime.Structure.Storage

/-!
# Where a dictionary stores its values

The live offsets and those given up are the offsets of the first property numbers, each once. So no
two properties share a slot, the last offset covers all of them, and every slot that is read or
written lies in the storage.
-/

namespace JavaScriptCore.Runtime

open JavaScriptCore.Collections JavaScriptCore.ProgramLogic List Function

variable {w : Wtf.Platform} {K V : Type}

/-! ## Slots -/

namespace JSObject

variable {obj : JSObject w K V}

/-- The slots of the first `total` numbers lie in the storage. -/
theorem getDirect_isSome {total i : Nat}
    (hc : (obj.shape.inlineCapacity : Int) ≤ firstOutOfLineOffset)
    (hcap : total - obj.shape.inlineCapacity ≤ obj.outOfLineCapacity) (hi : i < total) :
    (obj.getDirect (offsetForPropertyNumber i obj.shape.inlineCapacity)).isSome = true := by
  rw [getDirect, offsetForPropertyNumber, isInlineOffset]
  by_cases hin : i ≥ obj.shape.inlineCapacity
  · rw [if_pos hin, if_neg (by simp; omega), if_pos (by omega)]
    rfl
  · rw [if_neg hin, if_pos (by simp; omega), if_pos (by omega)]
    rfl

/-- Writing to a slot changes that slot and nothing else. -/
theorem putDirect_spec {off : Int} (h : (obj.getDirect off).isSome = true) (v : Option V) :
    ∃ obj', obj.putDirect off v = some obj' ∧ obj'.shape = obj.shape ∧
      obj'.outOfLineCapacity = obj.outOfLineCapacity ∧
      obj'.getDirect off = some v ∧
      ∀ other ≠ off, obj'.getDirect other = obj.getDirect other := by
  rw [getDirect] at h
  by_cases hi : isInlineOffset off = true
  · rw [if_pos hi] at h
    by_cases hin : 0 ≤ off ∧ off < obj.shape.inlineCapacity
    · have hput : obj.putDirect off v = some { obj with
          inlineStorage := update obj.inlineStorage off.toNat v } := by
        rw [putDirect, if_pos hi, if_pos hin]
      refine ⟨_, hput, rfl, rfl, ?_, fun other hne => ?_⟩
      · rw [getDirect, if_pos hi, if_pos (by exact hin)]
        exact congrArg some (update_self ..)
      simp only [getDirect]
      split
      · split
        · rw [update_of_ne (by omega)]
        · rfl
      · rfl
    · rw [if_neg hin] at h
      cases h
  · rw [if_neg hi] at h
    by_cases hin : (off - firstOutOfLineOffset).toNat < obj.outOfLineCapacity
    · have hput : obj.putDirect off v = some { obj with
          outOfLineStorage := update obj.outOfLineStorage
            (off - firstOutOfLineOffset).toNat v } := by
        rw [putDirect, if_neg hi, if_pos hin]
      refine ⟨_, hput, rfl, rfl, ?_, fun other hne => ?_⟩
      · rw [getDirect, if_neg hi, if_pos (by exact hin)]
        exact congrArg some (update_self ..)
      simp only [getDirect]
      split
      · rfl
      · rename_i ho
        simp only [isInlineOffset, decide_eq_true_eq] at hi ho
        split
        · rw [update_of_ne (by omega)]
        · rfl
    · rw [if_neg hin] at h
      cases h

/-- Growing keeps what is stored. -/
theorem setLastOffset_spec {nlo : Int}
    (hb : obj.outOfLineCapacity = Runtime.outOfLineCapacity obj.shape.offset)
    (hm : obj.outOfLineCapacity ≤ Runtime.outOfLineCapacity nlo) :
    ∃ obj', obj.setLastOffset nlo = some obj' ∧ obj'.shape = { obj.shape with offset := nlo } ∧
      obj'.outOfLineCapacity = Runtime.outOfLineCapacity nlo ∧
      ∀ off v, obj.getDirect off = some v → obj'.getDirect off = some v := by
  rw [setLastOffset, ← hb]
  split_ifs with hc
  · simp only [allocateMoreOutOfLineStorage]
    rw [if_pos (by omega)]
    refine ⟨_, rfl, rfl, rfl, fun off v hv => ?_⟩
    rw [getDirect] at hv ⊢
    split
    · rename_i hi
      rwa [if_pos hi] at hv
    rename_i hi
    rw [if_neg hi] at hv
    split at hv
    · rename_i hs
      rw [if_pos (by simp only; omega)]
      simp only [if_pos hs]
      exact hv
    · cases hv
  · exact ⟨_, rfl, rfl, (not_not.mp hc).symm, fun _ _ hv => hv⟩

end JSObject

/-! ## Numbering -/

variable {hash : K → UInt32}

theorem PropertyTable.WellFormed.setDeletedOffsets {p : Nat}
    {t : PropertyTable w K} (h : t.WellFormed hash p) (dels : List Int) :
    ({ t with deletedOffsets := dels } : PropertyTable w K).WellFormed hash p where
  pos := h.pos
  le := h.le
  indexSize := h.indexSize
  indexMask := h.indexMask
  room := h.room
  written := h.written
  distinct := h.distinct
  indexed := h.indexed
  occupied := h.occupied
  keyCount := h.keyCount

namespace Structure

/-- The offsets of the first `total` property numbers. -/
def firstOffsets (total inlineCapacity : Nat) : List Int :=
  (range total).map (offsetForPropertyNumber · inlineCapacity)

def liveOffsets (s : Structure w K) : List Int := s.table.properties.map Property.offset

theorem capacity (s : Structure w K) : (s.inlineCapacity : Int) ≤ firstOutOfLineOffset :=
  s.inlineCapacity_lt.le

structure Consistent (hash : K → UInt32) (s : Structure w K) : Prop where
  wellFormed : ∃ p, s.table.WellFormed hash p
  numbered : (s.liveOffsets ++ s.table.deletedOffsets).Perm
    (firstOffsets s.table.propertyStorageSize s.inlineCapacity)
  last : s.offset = lastOffsetOf s.table.propertyStorageSize s.inlineCapacity
  small : s.table.propertyStorageSize < 2 ^ 30

theorem nodup_firstOffsets {c : Nat} (hc : (c : Int) ≤ firstOutOfLineOffset) (total : Nat) :
    (firstOffsets total c).Nodup :=
  List.Nodup.map (fun _ _ => offsetForPropertyNumber_inj hc) nodup_range

theorem mem_firstOffsets {off : Int} {total c : Nat} :
    off ∈ firstOffsets total c ↔ ∃ i < total, offsetForPropertyNumber i c = off := by
  simp [firstOffsets]

variable {s : Structure w K} (h : Consistent hash s)

include h

theorem Consistent.checkOffsetConsistency
    : s.checkOffsetConsistency = true := by
  rw [Structure.checkOffsetConsistency, h.last, numberOfSlots_lastOffsetOf s.capacity,
    numberOfOutOfLineSlots_lastOffsetOf s.capacity]
  simp only [decide_true, Bool.true_and, decide_eq_true_eq]
  split <;> omega

/-- Every offset in use is covered by the last one. -/
theorem Consistent.le_last {off : Int} (hmem : off ∈ s.liveOffsets ++ s.table.deletedOffsets) :
    off ≤ s.offset := by
  obtain ⟨i, hi, rfl⟩ := mem_firstOffsets.mp (h.numbered.mem_iff.mp hmem)
  rw [h.last]
  exact offset_le_lastOffsetOf s.capacity hi

/-- What `nextOffset` promises: the new offset completes the first numbers, and the last offset
after it is the one of all of them. -/
theorem Consistent.nextOffset
    (hs : s.table.keyCount + 1 < 2 ^ 30) {newOffset : Int} {tbl : PropertyTable w K}
    (hn : s.table.nextOffset s.inlineCapacity = (newOffset, tbl)) :
    tbl = { s.table with deletedOffsets := tbl.deletedOffsets } ∧
      (newOffset :: (s.liveOffsets ++ tbl.deletedOffsets)).Perm
        (firstOffsets (tbl.propertyStorageSize + 1) s.inlineCapacity) ∧
      max s.offset newOffset = lastOffsetOf (tbl.propertyStorageSize + 1) s.inlineCapacity ∧
      s.table.propertyStorageSize ≤ tbl.propertyStorageSize + 1 ∧
      tbl.propertyStorageSize + 1 < 2 ^ 30 := by
  rw [PropertyTable.nextOffset] at hn
  cases hl : s.table.deletedOffsets.getLast? with
  | none =>
    rw [hl] at hn
    obtain ⟨rfl, rfl⟩ := Prod.mk.inj hn
    have hnil : s.table.deletedOffsets = [] := getLast?_eq_none_iff.mp hl
    have hst : s.table.propertyStorageSize = s.table.size := by
      rw [PropertyTable.propertyStorageSize, hnil]
      rfl
    refine ⟨rfl, ?_, ?_, Nat.le_succ _, hst ▸ hs⟩
    · have hf : firstOffsets (s.table.propertyStorageSize + 1) s.inlineCapacity =
          firstOffsets s.table.propertyStorageSize s.inlineCapacity ++
            [offsetForPropertyNumber s.table.size s.inlineCapacity] := by
        rw [firstOffsets, range_succ, map_append, hst]
        rfl
      rw [hf]
      exact (perm_append_singleton _ _).symm.trans (h.numbered.append_right _)
    · rw [h.last, ← hst]
      exact max_lastOffsetOf s.capacity _
  | some off =>
    rw [hl] at hn
    obtain ⟨rfl, rfl⟩ := Prod.mk.inj hn
    obtain ⟨before, hb⟩ := getLast?_eq_some_iff.mp hl
    have hd : s.table.deletedOffsets.dropLast = before := by
      rw [hb, dropLast_concat]
    have hst : ({ s.table with deletedOffsets := s.table.deletedOffsets.dropLast } :
        PropertyTable w K).propertyStorageSize + 1 =
        s.table.propertyStorageSize := by
      simp only [PropertyTable.propertyStorageSize, PropertyTable.size, hb,
        dropLast_concat, length_append, length_singleton]
      omega
    refine ⟨rfl, ?_, ?_, Nat.le_of_eq hst.symm, by rw [hst]; exact h.small⟩
    · rw [hst]
      refine List.Perm.trans ?_ h.numbered
      simp only [hd]
      rw [hb, ← append_assoc]
      exact (perm_append_singleton _ _).symm
    · rw [hst, ← h.last]
      exact max_eq_left (h.le_last (by simp [hb]))

/-- The butterfly has the slots for the numbers beyond the inline capacity. -/
theorem Consistent.slots_le :
    s.table.propertyStorageSize - s.inlineCapacity ≤ Runtime.outOfLineCapacity s.offset := by
  have hsm := h.small
  rw [h.last]
  exact size_le_outOfLineCapacity (numberOfOutOfLineSlots_lastOffsetOf s.capacity _) (by omega)

/-- The kind of a dictionary has no part in it. -/
theorem Consistent.setKind
    (kind : DictionaryKind) : Consistent hash { s with dictionaryKind := kind } :=
  ⟨h.wellFormed, h.numbered, h.last, h.small⟩

end Structure

/-- Every offset that is numbered has a slot. -/
theorem Structure.Consistent.getDirect_isSome {obj : JSObject w K V} (h : obj.shape.Consistent hash)
    (hb : obj.outOfLineCapacity = Runtime.outOfLineCapacity obj.shape.offset)
    {off : Int} (hmem : off ∈ Structure.firstOffsets obj.shape.table.propertyStorageSize
      obj.shape.inlineCapacity) : (obj.getDirect off).isSome = true := by
  obtain ⟨i, hi, rfl⟩ := Structure.mem_firstOffsets.mp hmem
  refine JSObject.getDirect_isSome obj.shape.capacity ?_ hi
  rw [hb]
  exact h.slots_le

/-! ## Objects as maps -/

/-- A property of the object, as a script sees it. -/
structure Entry (K V : Type) where
  name : K
  attributes : UInt8
  value : V
  deriving DecidableEq, Repr

namespace JSObject

/-- The value of an entry is stored at the offset of its property. -/
def Stored (object : JSObject w K V) (property : Property K) (entry : Entry K V) : Prop :=
  property.key = entry.name ∧ property.attributes = entry.attributes ∧
    object.getDirect property.offset = some (some entry.value)

structure Represents (hash : K → UInt32) (object : JSObject w K V) (entries : List (Entry K V)) :
    Prop where
  consistent : object.shape.Consistent hash
  butterfly : object.outOfLineCapacity = Runtime.outOfLineCapacity object.shape.offset
  stored : List.Forall₂ (Stored object) object.shape.table.properties entries

variable {hash : K → UInt32} {obj : JSObject w K V} {es : List (Entry K V)}

variable (h : Represents hash obj es)
include h

theorem Represents.names :
    obj.shape.table.properties.map Property.key = es.map Entry.name := by
  have hs := h.stored
  clear h
  generalize obj.shape.table.properties = ps at hs
  induction hs with
  | nil => rfl
  | cons hh _ ih => rw [map_cons, map_cons, hh.1, ih]

theorem Represents.size : obj.shape.table.keyCount = es.length := by
  obtain ⟨p, hwf⟩ := h.consistent.wellFormed
  rw [hwf.keyCount, h.stored.length_eq]

theorem Represents.toDictionary (kind : DictionaryKind) :
    Represents hash (obj.toDictionary kind) es :=
  ⟨h.consistent.setKind kind, h.butterfly, h.stored⟩

omit h

/-- Values that are not touched stay. -/
theorem stored_of_kept {obj' : JSObject w K V} {ps : List (Property K)}
    (h : List.Forall₂ (Stored obj) ps es) (hk : ∀ p ∈ ps, ∀ v, obj.getDirect p.offset = some v →
      obj'.getDirect p.offset = some v) :
    List.Forall₂ (Stored obj') ps es := by
  have hmem := (forall₂_and_left _ _).mpr ⟨fun p hp => hp, h⟩
  exact hmem.imp fun p e ⟨hp, hkey, ha, hv⟩ =>
    ⟨hkey, ha, hk p hp _ hv⟩

include h in
/-- The offset of a property is one of the first, and no other property has it. -/
theorem Represents.offset_mem {p : Property K} (hp : p ∈ obj.shape.table.properties) :
    p.offset ∈ Structure.firstOffsets obj.shape.table.propertyStorageSize
      obj.shape.inlineCapacity :=
  h.consistent.numbered.mem_iff.mp (mem_append_left _ (mem_map_of_mem hp))

include h in
theorem Represents.offset_ne {p q : Property K}
    (hp : p ∈ obj.shape.table.properties) (hq : q ∈ obj.shape.table.properties)
    (hkey : p.key ≠ q.key) : p.offset ≠ q.offset := by
  have hnd := h.consistent.numbered.nodup_iff.mpr
    (Structure.nodup_firstOffsets obj.shape.capacity _)
  have hinj := inj_on_of_nodup_map (nodup_append.mp hnd).1
  exact fun ho => hkey (congrArg Property.key (hinj hp hq ho))

section

variable [DecidableEq K]

variable (h : Represents hash obj es)
include h

theorem Represents.add {name : K} (attrs : UInt8) (v : V) (hab : name ∉ es.map Entry.name)
    (hsz : es.length + 1 < PropertyTable.maxCapacity w) :
    ∃ newOffset obj', obj.add hash name attrs v = some (newOffset, obj') ∧
      Represents hash obj' (es ++ [⟨name, attrs, v⟩]) ∧
      obj'.shape.inlineCapacity = obj.shape.inlineCapacity := by
  obtain ⟨p, hwf⟩ := h.consistent.wellFormed
  have hc := obj.shape.capacity
  have hct := h.size
  generalize hnx : obj.shape.table.nextOffset obj.shape.inlineCapacity = next
  obtain ⟨newOffset, tbl⟩ := next
  obtain ⟨ht, hn, hl, hle, hsm⟩ := h.consistent.nextOffset
    (by have := PropertyTable.maxCapacity_le w; omega) hnx
  have hwf' : tbl.WellFormed hash p := by
    rw [ht]
    exact hwf.setDeletedOffsets _
  have hps : tbl.properties = obj.shape.table.properties := by
    rw [ht]
    rfl
  have hk : tbl.keyCount = es.length := by
    rw [hwf'.keyCount, hps, h.stored.length_eq]
  obtain ⟨q, result, n, hadd, hwf'', had, hd, _, _, _, ho⟩ :=
    @PropertyTable.WellFormed.add _ _ ⟨name, newOffset, attrs⟩ _ _ _ hwf' _ obj.shape.offset
      .mayChange (by rw [hps, h.names]; exact hab) (hk ▸ hsz)
      (fun he => nomatch he)
  have hst : result.table.propertyStorageSize = tbl.propertyStorageSize + 1 := by
    simp only [PropertyTable.propertyStorageSize, PropertyTable.size, hd, hwf''.keyCount,
      had, length_append, length_singleton, hwf'.keyCount]
    omega
  rw [hl, ← hst] at ho
  rw [← hst] at hn hle hsm
  -- the new structure, before anything is written
  have hcon : Structure.Consistent hash
      { obj.shape with table := result.table, offset := result.offset } :=
    { wellFormed := ⟨q, hwf''⟩
      numbered := by
        refine List.Perm.trans ?_ hn
        simp only [Structure.liveOffsets, had, hps, hd, map_append,
          map_cons, map_nil, append_assoc, singleton_append]
        exact perm_middle
      last := ho
      small := hsm }
  have hm : obj.outOfLineCapacity ≤ Runtime.outOfLineCapacity result.offset := by
    rw [h.butterfly, ho, h.consistent.last]
    exact outOfLineCapacity_mono (numberOfOutOfLineSlots_lastOffsetOf hc _)
      (numberOfOutOfLineSlots_lastOffsetOf hc _) (by omega) (by omega)
  obtain ⟨grown, hg, hs, hcap, hkept⟩ := @setLastOffset_spec _ _ _
    { obj with shape := { obj.shape with table := result.table } } _ h.butterfly hm
  rw [show { obj.shape with table := result.table, offset := result.offset } = grown.shape
    from hs.symm] at hcon
  have hnd := (hn.nodup_iff).mpr (Structure.nodup_firstOffsets hc _)
  have hmem : newOffset ∈ Structure.firstOffsets grown.shape.table.propertyStorageSize
      grown.shape.inlineCapacity := by
    rw [hs]
    exact hn.mem_iff.mp mem_cons_self
  have hb : grown.outOfLineCapacity = Runtime.outOfLineCapacity grown.shape.offset := by
    rw [hcap, hs]
  obtain ⟨obj', hput, hs', hcap', hw, hos⟩ :=
    putDirect_spec (hcon.getDirect_isSome hb hmem) (some v)
  refine ⟨newOffset, obj', ?_, ⟨?_, ?_, ?_⟩, ?_⟩
  · rw [JSObject.add]
    simp [h.consistent.checkOffsetConsistency, hnx, hadd, hg,
      hcon.checkOffsetConsistency, hput, guard_true]
  · rw [hs']
    exact hcon
  · rw [hcap', hs']
    exact hb
  · rw [hs', hs]
    simp only [had, hps]
    refine rel_append ?_ (.cons ⟨rfl, rfl, hw⟩ .nil)
    refine stored_of_kept h.stored fun prop hp stored hsd => ?_
    rw [hos _ ?_]
    · exact hkept _ _ hsd
    · rintro heq
      refine (nodup_cons.mp hnd).1 (mem_append_left _ ?_)
      rw [← heq]
      exact mem_map_of_mem hp
  · rw [hs', hs]

theorem Represents.remove (name : K) :
    ∃ off obj', obj.remove hash name = some (off, obj') ∧
      Represents hash obj' (es.filter (·.name ≠ name)) ∧
      obj'.shape.inlineCapacity = obj.shape.inlineCapacity := by
  obtain ⟨p, hwf⟩ := h.consistent.wellFormed
  rw [JSObject.remove]
  simp only [h.consistent.checkOffsetConsistency, guard_true, Option.bind_eq_bind,
    Option.pure_def, Option.bind_some]
  obtain ⟨i, hi, n, prop, hf, hsl, hn, rfl⟩ | ⟨d, _, hf, _, _, hab⟩ := hwf.find_cases name
  · obtain ⟨q, tbl, hr, hwf', hps, hd⟩ := hwf.removeAt hi hsl hn
    have hmem := hwf.mem_properties.mpr ⟨n, hn⟩
    have hpe := PropertyTable.perm_filter_key hwf.keys_nodup hmem
    have hst : (tbl.addDeletedOffset prop.offset).propertyStorageSize =
        obj.shape.table.propertyStorageSize := by
      have hlen := hpe.length_eq
      rw [length_cons, ← hwf.keyCount, ← hps, ← hwf'.keyCount] at hlen
      simp only [PropertyTable.propertyStorageSize, PropertyTable.size,
        PropertyTable.addDeletedOffset, hd, length_append, length_singleton]
      omega
    have hc : Structure.Consistent hash
        { obj.shape with table := tbl.addDeletedOffset prop.offset } :=
      { wellFormed := ⟨q, hwf'.setDeletedOffsets _⟩
        numbered := by
          rw [hst]
          refine List.Perm.trans ?_ h.consistent.numbered
          refine List.Perm.trans ?_ ((hpe.map Property.offset).append_right _).symm
          show (tbl.properties.map Property.offset ++ (tbl.deletedOffsets ++ [prop.offset])).Perm _
          rw [← append_assoc, hps, hd]
          exact perm_append_singleton _ _
        last := by rw [hst]; exact h.consistent.last
        small := by rw [hst]; exact h.consistent.small }
    obtain ⟨obj', hput, hs, hcap, _, hos⟩ := @putDirect_spec _ _ _
      { obj with
        shape := { obj.shape with table := tbl.addDeletedOffset prop.offset } }
      _ (h.consistent.getDirect_isSome h.butterfly (h.offset_mem hmem)) none
    refine ⟨prop.offset, obj', ?_, ⟨?_, ?_, ?_⟩, ?_⟩
    · simp [hf, hwf.readTable hn, hr, hc.checkOffsetConsistency, hput]
    · rw [hs]
      exact hc
    · rw [hcap, hs]
      exact h.butterfly
    · have hfi := rel_filter (p := fun q => q.key ≠ prop.key) (q := fun e => e.name ≠ prop.key)
        (fun q e hsd => by simp [hsd.1]) h.stored
      rw [hs, show (tbl.addDeletedOffset prop.offset).properties = tbl.properties from rfl, hps]
      refine stored_of_kept hfi fun q hq v hv => ?_
      rw [mem_filter, decide_eq_true_eq] at hq
      rw [hos _ (h.offset_ne hq.1 hmem hq.2)]
      exact hv
    · rw [hs]
  · refine ⟨invalidOffset, obj, hf ▸ rfl, ?_, rfl⟩
    rw [filter_eq_self.mpr fun e he => ?_]
    · exact h
    have hna := mem_map_of_mem (f := Entry.name) he
    rw [← h.names, mem_map] at hna
    obtain ⟨prop, hp, hkey⟩ := hna
    obtain ⟨n, hn⟩ := hwf.mem_properties.mp hp
    rw [← hkey]
    exact decide_eq_true (hab n prop hn)

/-- What a search for a name finds. -/
theorem Represents.lookup (name : K) : (∃ n prop e, obj.shape.table.get hash name = some (some n) ∧
      obj.shape.table.readTable n = some (.live prop) ∧
      prop ∈ obj.shape.table.properties ∧ prop.key = name ∧
      es.find? (·.name = name) = some e ∧ Stored obj prop e) ∨
    obj.shape.table.get hash name = some none ∧ es.find? (·.name = name) = none := by
  obtain ⟨p, hwf⟩ := h.consistent.wellFormed
  obtain ⟨first, hget, hat, hso⟩ := hwf.get_spec name
  have hrel := forall₂_find? (p := fun prop => prop.key = name)
    (q := fun e => e.name = name) h.stored fun prop e hs => by
      simp [hs.1]
  revert hat hso hrel
  generalize hf : obj.shape.table.properties.find? (·.key = name) = found
  generalize es.find? (·.name = name) = foundEntry
  intro hat hso hrel
  cases hrel with
  | none =>
    obtain rfl : first = none := by simpa using hso
    exact .inr ⟨hget, rfl⟩
  | @some prop e hs =>
    obtain ⟨n, rfl⟩ : ∃ n, first = some n := Option.isSome_iff_exists.mp hso
    have hn : obj.shape.table.table n = .live prop := PropertyTable.property?_eq_some.mp hat
    exact .inl ⟨n, prop, e, hget, hwf.readTable hn, hwf.mem_properties.mpr ⟨n, hn⟩,
      by simpa using List.find?_some hf, rfl, hs⟩

theorem Represents.get (name : K) :
    obj.get hash name = some ((es.find? (·.name = name)).map Entry.value) := by
  rw [JSObject.get]
  obtain ⟨n, p, e, hget, hr, _, _, hf, hs⟩ | ⟨hget, hf⟩ := h.lookup name
  · simp [hget, hr, hf, hs.2.2]
  · simp [hget, hf]

omit h

/-- The value of one entry, replaced. -/
def Entry.write (name : K) (value : V) (entry : Entry K V) : Entry K V :=
  if entry.name = name then { entry with value } else entry

include h in
theorem Represents.put {name : K} (v : V) (hmem : name ∈ es.map Entry.name) :
    ∃ obj', obj.put hash name v = some obj' ∧ Represents hash obj' (es.map (Entry.write name v)) ∧
      obj'.shape = obj.shape := by
  rw [JSObject.put]
  obtain ⟨n, prop, e, hget, hr, hp, rfl, _, _⟩ | ⟨_, hf⟩ := h.lookup name
  · obtain ⟨obj', hput, hs, hcap, hw, hos⟩ := putDirect_spec
      (h.consistent.getDirect_isSome h.butterfly (h.offset_mem hp)) (some v)
    refine ⟨obj', ?_, ⟨?_, ?_, ?_⟩, hs⟩
    · simp [hget, hr, hput]
    · rw [hs]
      exact h.consistent
    · rw [hcap, hs]
      exact h.butterfly
    · have hmem := (forall₂_and_left _ _).mpr ⟨fun q hq => hq, h.stored⟩
      rw [hs, forall₂_map_right_iff]
      refine hmem.imp fun q e ⟨hq, hkey, ha, hv⟩ => ?_
      rw [Entry.write]
      split_ifs with hn
      · obtain ⟨p, hwf⟩ := h.consistent.wellFormed
        have hsa : q = prop := inj_on_of_nodup_map hwf.keys_nodup hq hp (hkey.trans hn)
        exact ⟨hkey, ha, hsa ▸ hw⟩
      · refine ⟨hkey, ha, ?_⟩
        rw [hos _ (h.offset_ne hq hp (hkey ▸ hn))]
        exact hv
  · obtain ⟨e, he, rfl⟩ := mem_map.mp hmem
    exact absurd (decide_eq_true rfl) (List.find?_eq_none.mp hf e he)

end

end JSObject

end JavaScriptCore.Runtime
