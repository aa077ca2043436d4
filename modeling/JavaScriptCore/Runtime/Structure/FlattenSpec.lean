import JavaScriptCore.Runtime.Structure.StorageSpec

/-!
# What flattening does

The first loop gives the properties the first offsets in the order of enumeration and reads their
values at the old ones; the second writes the values to the new offsets. What the object shows is
the same before and after, in the same order.
-/

namespace JavaScriptCore.Runtime

open JavaScriptCore.Collections JavaScriptCore.ProgramLogic List Option Property

variable {w : Wtf.Platform} {K V : Type}

/-! ## Tables that differ in offsets -/

/-- The entries differ at most in what they have for their key. -/
inductive PropertyMapEntry.SameKey : PropertyMapEntry K → PropertyMapEntry K → Prop where
  | null : SameKey .null .null
  | deleted : SameKey .deleted .deleted
  | live {a b : Property K} (h : a.key = b.key) : SameKey (.live a) (.live b)

namespace PropertyTable

variable {hash : K → UInt32} {p : Nat} {t : PropertyTable w K} {f : Nat → PropertyMapEntry K}
    (hs : ∀ n, (t.table n).SameKey (f n))

include hs

theorem properties_sameKey :
    ({ t with table := f } : PropertyTable w K).properties.map key =
      t.properties.map key := by
  rw [properties, properties, map_filterMap, map_filterMap]
  refine filterMap_congr fun n _ => ?_
  generalize he : t.table n = e
  have hn := hs n
  rw [he] at hn
  show (f n).property?.map key = e.property?.map key
  generalize f n = entry' at hn
  cases hn with
  | null => rfl
  | deleted => rfl
  | live hkey => exact congrArg some hkey.symm

theorem live_of_sameKey {n : Nat} {b : Property K}
    (hn : f n = .live b) : ∃ a, t.table n = .live a ∧ a.key = b.key := by
  have h := hs n
  rw [hn] at h
  generalize t.table n = e at h
  cases h with
  | live hkey => exact ⟨_, rfl, hkey⟩

theorem sameKey_live {n : Nat} {a : Property K}
    (hn : t.table n = .live a) : ∃ b, f n = .live b ∧ a.key = b.key := by
  have h := hs n
  rw [hn] at h
  generalize f n = e at h
  cases h with
  | live hkey => exact ⟨_, rfl, hkey⟩

omit hs

theorem WellFormed.relabel (h : t.WellFormed hash p) (hs : ∀ n, (t.table n).SameKey (f n)) :
    ({ t with table := f } : PropertyTable w K).WellFormed hash p where
  pos := h.pos
  le := h.le
  indexSize := h.indexSize
  indexMask := h.indexMask
  room := h.room
  written n := by
    rw [show ({ t with table := f } : PropertyTable w K).usedCount = t.usedCount from rfl,
      h.written]
    have hn := hs n
    show t.table n ≠ .null ↔ f n ≠ .null
    generalize t.table n = e at hn
    generalize f n = entry' at hn
    cases hn <;> simp
  distinct m n a b hm hn hkey := by
    obtain ⟨a', ha, hk⟩ := live_of_sameKey hs hm
    obtain ⟨b', hb, hke⟩ := live_of_sameKey hs hn
    exact h.distinct m n a' b' ha hb (by rw [hk, hke, hkey])
  indexed := by
    have hl : ({ t with table := f } : PropertyTable w K).liveEntries = t.liveEntries := by
      ext n
      constructor
      · rintro ⟨b, hn⟩
        obtain ⟨a, ha, _⟩ := live_of_sameKey hs hn
        exact ⟨a, ha⟩
      · rintro ⟨a, hn⟩
        obtain ⟨b, hb, _⟩ := sameKey_live hs hn
        exact ⟨b, hb⟩
    rw [hl]
    refine h.indexed.congr_home _ ?_
    rintro n ⟨a, hn⟩
    obtain ⟨b, hb, hkey⟩ := sameKey_live hs hn
    rw [home_of_live hn, hkey]
    exact home_of_live hb
  occupied := h.occupied
  keyCount := by
    have hlen := congrArg length (properties_sameKey hs)
    rw [length_map, length_map, ← h.keyCount] at hlen
    exact hlen.symm

theorem visited_sameKey [DecidableEq K] (hs : ∀ n, (t.table n).SameKey (f n)) (last : Nat) :
    visited (fun n => f n = .deleted) last = visited (fun n => t.table n = .deleted) last := by
  rw [visited_eq, visited_eq]
  refine filter_congr fun n _ => ?_
  have hn := hs n
  generalize t.table n = e at hn
  generalize f n = entry' at hn
  cases hn <;> simp

end PropertyTable

/-- The structure after the first loop, its list of deleted offsets cleared. -/
def Structure.flat (s : Structure w K) (f : Nat → PropertyMapEntry K) : Structure w K :=
  { s with
    table := { s.table with table := f }.clearDeletedOffsets
    offset := lastOffsetOf s.table.keyCount s.inlineCapacity }

namespace JSObject

/-! ## The loops -/

/-- The properties with the offsets of consecutive numbers. -/
def renumber (inlineCapacity : Nat) : Nat → List (Property K) → List (Property K)
  | _, [] => []
  | i, property :: properties =>
    { property with offset := offsetForPropertyNumber i inlineCapacity } ::
      renumber inlineCapacity (i + 1) properties

theorem renumber_offsets (c i : Nat) (properties : List (Property K)) :
    (renumber c i properties).map offset =
      (range' i properties.length).map (offsetForPropertyNumber · c) := by
  induction properties generalizing i with
  | nil => rfl
  | cons prop properties ih =>
    rw [renumber, map_cons, ih, length_cons, range'_succ, map_cons]

variable {obj : JSObject w K V} {properties : List (Property K)} {es : List (Entry K V)}

theorem compact_spec {nums : List Nat} (hs : List.Forall₂ (Stored obj) properties es)
    {tbl : PropertyTable w K} (hnd : nums.Nodup)
    (hnu : nums.map tbl.table = properties.map .live) (i : Nat) :
    ∃ f, obj.compact nums i tbl (lastOffsetOf i obj.shape.inlineCapacity) =
        some ({ tbl with table := f },
          lastOffsetOf (i + properties.length) obj.shape.inlineCapacity,
          es.map fun e => some e.value) ∧
      (∀ n, (tbl.table n).SameKey (f n)) ∧
      nums.map f = (renumber obj.shape.inlineCapacity i properties).map .live ∧
      ∀ n ∉ nums, f n = tbl.table n := by
  induction hs generalizing nums tbl i with
  | nil =>
    obtain rfl : nums = [] := by simpa using hnu
    refine ⟨tbl.table, rfl, fun n => ?_, rfl, fun n _ => rfl⟩
    cases tbl.table n with
    | null => exact .null
    | deleted => exact .deleted
    | live prop => exact .live rfl
  | @cons prop e properties es hh _ ih =>
    obtain ⟨n, nums, rfl⟩ : ∃ n rest, nums = n :: rest := by
      cases nums with
      | nil => cases hnu
      | cons n rest => exact ⟨n, rest, rfl⟩
    obtain ⟨hn, hr⟩ := List.cons.inj hnu
    obtain ⟨hno, hnd⟩ := List.nodup_cons.mp hnd
    -- the loop goes on with a table in which one offset has changed
    generalize hla : Function.update tbl.table n
      (.live { prop with
        offset := offsetForPropertyNumber i obj.shape.inlineCapacity }) = labelled
    have hlab : labelled n = .live { prop with
        offset := offsetForPropertyNumber i obj.shape.inlineCapacity } := by
      rw [← hla, Function.update_self]
    have hl : ∀ m ≠ n, labelled m = tbl.table m := by
      intro m hm
      rw [← hla, Function.update_of_ne hm]
    obtain ⟨f, hc, hsa, hmap, hos⟩ := @ih nums { tbl with table := labelled }
      hnd (by
        rw [← hr]
        exact List.map_congr_left fun m hm => hl m (ne_of_mem_of_not_mem hm hno))
      (i + 1)
    refine ⟨f, ?_, fun m => ?_, ?_, fun m hm => ?_⟩
    · rw [compact, hn]
      simp only [hh.2.2, Option.bind_eq_bind, Option.bind_some, hla]
      rw [show offsetForPropertyNumber i obj.shape.inlineCapacity =
        lastOffsetOf (i + 1) obj.shape.inlineCapacity from rfl, hc]
      simp only [Option.bind_some, Option.pure_def, List.map_cons, List.length_cons]
      rw [show i + 1 + properties.length = i + (properties.length + 1) by omega]
    · by_cases hm : m = n
      · subst hm
        rw [hn, hos m hno]
        show PropertyMapEntry.SameKey (.live prop) (labelled m)
        rw [hlab]
        exact .live rfl
      · exact hl m hm ▸ hsa m
    · rw [List.map_cons, hmap, hos n hno, renumber, List.map_cons]
      exact congrArg (· :: _) hlab
    · rw [List.mem_cons, not_or] at hm
      rw [hos m hm.2]
      exact hl m hm.1

theorem putValues_spec {i : Nat} (hc : (obj.shape.inlineCapacity : Int) ≤ firstOutOfLineOffset)
    (hsa : List.Forall₂ (fun prop e => prop.key = e.name ∧
      prop.attributes = e.attributes) properties es)
    (hr : i + es.length - obj.shape.inlineCapacity ≤ obj.outOfLineCapacity) :
    ∃ obj', obj.putValues i (es.map fun e => some e.value) = some obj' ∧
      obj'.shape = obj.shape ∧ obj'.outOfLineCapacity = obj.outOfLineCapacity ∧
      List.Forall₂ (Stored obj') (renumber obj.shape.inlineCapacity i properties) es ∧
      ∀ j < i, obj'.getDirect (offsetForPropertyNumber j obj.shape.inlineCapacity) =
        obj.getDirect (offsetForPropertyNumber j obj.shape.inlineCapacity) := by
  induction hsa generalizing i obj with
  | nil => exact ⟨obj, rfl, rfl, rfl, .nil, fun _ _ => rfl⟩
  | @cons prop e properties es hh _ ih =>
    obtain ⟨written, hput, hs, hcap, hw, hos⟩ := putDirect_spec
      (getDirect_isSome hc hr (Nat.lt_add_of_pos_right (Nat.succ_pos _))) (some e.value)
    obtain ⟨obj', hvs, hs', hcap', hsd, hb⟩ := @ih written (i + 1)
      (hs ▸ hc) (by rw [hs, hcap]; simp only [length_cons] at hr; omega)
    rw [hs] at hsd hb hs'
    refine ⟨obj', ?_, hs', hcap'.trans hcap, .cons ⟨hh.1, hh.2, ?_⟩ hsd, fun j hj => ?_⟩
    · rw [map_cons, putValues]
      simp only [hput, bind_eq_bind, bind_some]
      exact hvs
    · exact (hb i (Nat.lt_succ_self i)).trans hw
    · rw [hb j (by omega), hos _ (offsetForPropertyNumber_lt hc hj).ne]

/-! ## Giving storage up -/

/-- The slots of the first numbers are not the unused ones. -/
theorem zeroUnused_getDirect {total i before : Nat}
    (hc : (obj.shape.inlineCapacity : Int) ≤ firstOutOfLineOffset)
    (ho : obj.shape.offset = lastOffsetOf total obj.shape.inlineCapacity) (hi : i < total) :
    (obj.zeroUnused before).getDirect (offsetForPropertyNumber i obj.shape.inlineCapacity) =
      obj.getDirect (offsetForPropertyNumber i obj.shape.inlineCapacity) := by
  have hl := lastOffsetOf_cases total obj.shape.inlineCapacity
  rw [← ho] at hl
  have hs := numberOfOutOfLineSlots_lastOffsetOf hc total
  rw [← ho] at hs
  have hsz : obj.shape.inlineSize = min total obj.shape.inlineCapacity := by
    rw [Structure.inlineSize]
    omega
  simp only [getDirect, zeroUnused, hs, hsz]
  rw [offsetForPropertyNumber, isInlineOffset]
  split
  · rename_i hout
    have hk : ¬decide ((i : Int) + firstOutOfLineOffset - obj.shape.inlineCapacity <
      firstOutOfLineOffset) = true := by simp; omega
    simp only [if_neg hk]
    rw [if_neg (c := _ ∧ _) (by omega)]
  · rename_i hin
    have hk : decide ((i : Int) < firstOutOfLineOffset) = true := by simp; omega
    simp only [if_pos hk]
    rw [if_neg (c := _ ∧ _ < obj.shape.inlineCapacity) (by omega)]

theorem shrinkButterfly_spec {before after : Nat}
    (hcap : obj.outOfLineCapacity = before) (hle : after ≤ before) :
    (obj.shrinkButterfly before after).shape = obj.shape ∧
      (obj.shrinkButterfly before after).outOfLineCapacity = after ∧
      ∀ offset, (offset - firstOutOfLineOffset).toNat < after ∨ isInlineOffset offset = true →
        (obj.shrinkButterfly before after).getDirect offset = obj.getDirect offset := by
  rw [shrinkButterfly]
  split
  · refine ⟨rfl, rfl, fun offset ho => ?_⟩
    simp only [getDirect]
    split
    · rfl
    · rename_i hi
      obtain hlt := ho.resolve_right hi
      rw [if_pos hlt, if_pos hlt, if_pos (by omega)]
  · refine ⟨rfl, ?_, fun _ _ => rfl⟩
    omega

section

variable {hash : K → UInt32} {obj : JSObject w K V} {es : List (Entry K V)}

theorem Represents.length_le (h : Represents hash obj es) :
    es.length ≤ obj.shape.table.propertyStorageSize := by
  rw [PropertyTable.propertyStorageSize, PropertyTable.size, h.size]
  exact Nat.le_add_right _ _

/-- The end of flattening: the butterfly shrinks to what the last offset asks for. -/
theorem shrinkButterfly_represents {before : Nat} (hcon : obj.shape.Consistent hash)
    (hb : obj.outOfLineCapacity = before)
    (hle : Runtime.outOfLineCapacity obj.shape.offset ≤ before)
    (hsd : List.Forall₂ (Stored obj) obj.shape.table.properties es) :
    ∃ obj', some ((obj.toDictionary .noneDictionaryKind).shrinkButterfly before
        (Runtime.outOfLineCapacity obj.shape.offset)) = some obj' ∧
      Represents hash obj' es ∧
      obj'.shape.inlineCapacity = obj.shape.inlineCapacity ∧
      obj'.shape.dictionaryKind = .noneDictionaryKind := by
  obtain ⟨hs, hcap, hk⟩ :=
    @shrinkButterfly_spec _ _ _ (obj.toDictionary .noneDictionaryKind) _ _ hb hle
  refine ⟨_, rfl, ⟨?_, by rw [hcap, hs]; rfl, ?_⟩, hs ▸ rfl, hs ▸ rfl⟩
  · rw [hs]
    exact hcon.setKind _
  rw [hs]
  refine stored_of_kept hsd fun prop hp value hv => ?_
  have hmem := hcon.numbered.mem_iff.mp (mem_append_left _ (mem_map_of_mem (f := offset) hp))
  obtain ⟨i, hi, ho⟩ := Structure.mem_firstOffsets.mp hmem
  have hsl := hcon.slots_le
  have hc := obj.shape.capacity
  rw [hk]
  · exact hv
  · rw [← ho, offsetForPropertyNumber, isInlineOffset]
    split
    · exact .inl (by omega)
    · exact .inr (by simp; omega)

variable [DecidableEq K] (h : Represents hash obj es)

include h

theorem Represents.compact :
    ∃ f, obj.compact
        (visited (fun n => obj.shape.table.table n = .deleted) obj.shape.table.usedCount) 0
        obj.shape.table invalidOffset =
        some ({ obj.shape.table with table := f }, (obj.shape.flat f).offset,
          es.map fun e => some e.value) ∧
      (obj.shape.flat f).Consistent hash ∧
      (obj.shape.flat f).table.propertyStorageSize = es.length ∧
      (obj.shape.flat f).table.properties =
        renumber obj.shape.inlineCapacity 0 obj.shape.table.properties := by
  obtain ⟨p, hwf⟩ := h.consistent.wellFormed
  generalize hn : visited (fun n => obj.shape.table.table n = .deleted)
    obj.shape.table.usedCount = nums
  have hnd : nums.Nodup := by
    rw [← hn, visited_eq]
    exact List.Nodup.filter _ nodup_range'
  have hi : nums.map obj.shape.table.table = obj.shape.table.properties.map .live := by
    rw [← hn]
    exact hwf.iterate
  obtain ⟨f, hc, hs, hr, _⟩ := compact_spec h.stored hnd hi 0
  rw [Nat.zero_add, ← hwf.keyCount] at hc
  have hwf' : (obj.shape.flat f).table.WellFormed hash p := (hwf.relabel hs).setDeletedOffsets []
  have hps : (obj.shape.flat f).table.properties =
      renumber obj.shape.inlineCapacity 0 obj.shape.table.properties := by
    have hf : (obj.shape.flat f).table.iterate = nums.map f := by
      rw [← hn, ← PropertyTable.visited_sameKey hs]
      rfl
    rw [hwf'.iterate, hr] at hf
    exact map_injective_iff.mpr (fun _ _ heq => PropertyMapEntry.live.inj heq) hf
  have hst : (obj.shape.flat f).table.propertyStorageSize = es.length := by
    rw [← h.size]
    rfl
  refine ⟨f, hc, ⟨⟨p, hwf'⟩, ?_, ?_, ?_⟩, hst, hps⟩
  · rw [hst, Structure.liveOffsets, hps, renumber_offsets, h.stored.length_eq,
      show (obj.shape.flat f).table.deletedOffsets = [] from rfl, append_nil,
      Structure.firstOffsets, range_eq_range']
    exact .refl _
  · rw [hst, ← h.size]
    rfl
  · rw [hst]
    exact Nat.lt_of_le_of_lt h.length_le h.consistent.small

theorem Represents.flattenProperties :
    ∃ obj', obj.flattenProperties obj.outOfLineCapacity = some obj' ∧ obj'.shape.Consistent hash ∧
      obj'.shape.table.propertyStorageSize = es.length ∧
      obj'.outOfLineCapacity = obj.outOfLineCapacity ∧
      List.Forall₂ (Stored obj') obj'.shape.table.properties es ∧
      obj'.shape.inlineCapacity = obj.shape.inlineCapacity := by
  have hc := obj.shape.capacity
  obtain ⟨f, hco, hcon, hst, hps⟩ := h.compact
  have hr : 0 + es.length - obj.shape.inlineCapacity ≤ obj.outOfLineCapacity := by
    have hsl := h.consistent.slots_le
    rw [← h.butterfly] at hsl
    have := h.length_le
    omega
  obtain ⟨written, hvs, hsh, hcap, hs, _⟩ := @putValues_spec _ _ _
    { obj with shape := { obj.shape with
      table := { obj.shape.table with table := f }
      offset := (obj.shape.flat f).offset } } _ _ 0 hc
    (h.stored.imp fun _ _ hs => ⟨hs.1, hs.2.1⟩) hr
  -- what is cleared after it does not touch the values
  generalize hcl : ({ written with
    shape := { written.shape with table := written.shape.table.clearDeletedOffsets } } :
    JSObject w K V) = cleared
  have hf : cleared.shape = obj.shape.flat f := by
    rw [← hcl, hsh]
    rfl
  have hcle : ∀ offset, cleared.getDirect offset = written.getDirect offset := by
    rw [← hcl]
    exact fun _ => rfl
  have hs' : (cleared.zeroUnused obj.outOfLineCapacity).shape = obj.shape.flat f := hf
  refine ⟨cleared.zeroUnused obj.outOfLineCapacity, ?_, ?_, ?_, ?_, ?_, ?_⟩
  · rw [JSObject.flattenProperties]
    simp [hco, hvs, hcl, hs', hcon.checkOffsetConsistency]
  · rw [hs']
    exact hcon
  · rw [hs']
    exact hst
  · rw [← hcap, zeroUnused, ← hcl]
  · rw [hs', hps]
    refine stored_of_kept hs fun prop hp value hv => ?_
    have ho := List.mem_map_of_mem (f := offset) hp
    rw [renumber_offsets, h.stored.length_eq, ← List.range_eq_range', List.mem_map] at ho
    obtain ⟨i, hi, ho⟩ := ho
    have hin : cleared.shape.inlineCapacity = obj.shape.inlineCapacity := by
      rw [hf]
      rfl
    have hz := @zeroUnused_getDirect _ _ _ cleared es.length i obj.outOfLineCapacity
      (hin ▸ hc) (by rw [hin, hf, ← h.size]; rfl) (List.mem_range.mp hi)
    rw [hin] at hz
    rw [← ho] at hv ⊢
    rw [hz, hcle, hv]
  · rw [hs']
    rfl

theorem Represents.flattenDictionaryStructure :
    ∃ obj', obj.flattenDictionaryStructure = some obj' ∧ Represents hash obj' es ∧
      obj'.shape.inlineCapacity = obj.shape.inlineCapacity ∧
      obj'.shape.dictionaryKind = .noneDictionaryKind := by
  rw [JSObject.flattenDictionaryStructure]
  simp only [h.consistent.checkOffsetConsistency, Option.bind_eq_bind, Option.pure_def,
    Option.bind_some, ← h.butterfly]
  split_ifs with hu
  · obtain ⟨flat, hf, hc, hst, hcap, hs, hi⟩ := h.flattenProperties
    have hle : Runtime.outOfLineCapacity flat.shape.offset ≤ obj.outOfLineCapacity := by
      rw [h.butterfly, hc.last, h.consistent.last, hi]
      exact outOfLineCapacity_mono (numberOfOutOfLineSlots_lastOffsetOf obj.shape.capacity _)
        (numberOfOutOfLineSlots_lastOffsetOf obj.shape.capacity _)
        (by rw [hst]; exact Nat.sub_le_sub_right h.length_le _)
        (by have := h.consistent.small; omega)
    rw [hf, Option.bind_some, ← hi]
    exact shrinkButterfly_represents hc hcap hle hs
  · have hle := Nat.le_of_eq h.butterfly.symm
    have hfl := shrinkButterfly_represents h.consistent rfl hle h.stored
    rwa [← h.butterfly] at hfl

end

end JSObject

end JavaScriptCore.Runtime
