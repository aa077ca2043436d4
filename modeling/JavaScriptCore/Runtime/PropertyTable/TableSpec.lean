import JavaScriptCore.Runtime.PropertyTable.Table

/-!
# What the operations of a `PropertyTable` do

The index and the entries behind it represent a list of properties in the order of their insertion.
`WellFormed` is what every operation keeps: the used entries come first, the index leads from the
hash of each live key to its entry, and as many slots of the index are occupied as entries are used.
At most half of the slots are, so that every search comes to an empty one.
-/

namespace JavaScriptCore.Runtime

open JavaScriptCore.Collections PropertyMapEntry Function List

variable {w : Wtf.Platform} {K : Type}

def PropertyMapEntry.property? : PropertyMapEntry K → Option (Property K)
  | .live property => some property
  | _ => none

namespace PropertyTable

/-- The properties of the table, in the order in which they were added. -/
def properties (t : PropertyTable w K) : List (Property K) :=
  (range' 0 t.usedCount).filterMap fun n => (t.table n).property?

/-- What a slot of the index leads to. -/
def slot (t : PropertyTable w K) (i : Nat) : Slot Nat :=
  if t.index i = emptyEntryIndex then .empty
  else if t.index i = t.deletedEntryIndex then .deleted
  else .item (t.index i - 1)

/-- The numbers of the entries that hold a property. -/
def liveEntries (t : PropertyTable w K) : Set Nat := {n | ∃ property, t.table n = .live property}

/-- The hash of an entry's key. -/
def home (hash : K → UInt32) (t : PropertyTable w K) (n : Nat) : Nat :=
  match t.table n with
  | .live property => (hash property.key).toNat
  | _ => 0

variable {e : Property K} {n : Nat}

theorem home_of_live {hash : K → UInt32} {t : PropertyTable w K}
    (h : t.table n = .live e) : t.home hash n = (hash e.key).toNat := by
  rw [home, h]

/-- The slots that a search for a hash visits. -/
def position (p : Nat) : Nat → Nat → Nat := strided (2 ^ p) (fun hash => hash) (fun _ => 1)

theorem covers_position (p : Nat) : Covers (position p) (2 ^ p) :=
  covers_strided p _ _ fun _ => odd_one

/-- The size of an index for which neither the index nor the bytes of the allocation wrap. -/
def maxIndexLog : Wtf.Platform → Nat
  | .bits32 => 28
  | .bits64 => 31

/-- The capacities below it have such an index. -/
def maxCapacity (platform : Wtf.Platform) : Nat := 2 ^ (maxIndexLog platform - 1)

variable (platform : Wtf.Platform)

theorem maxIndexLog_le : maxIndexLog platform ≤ 31 := by
  cases platform <;> decide

theorem maxCapacity_le : maxCapacity platform ≤ 2 ^ 30 := by
  cases platform <;> decide

structure WellFormed (hash : K → UInt32) (p : Nat) (t : PropertyTable w K) : Prop where
  pos : 1 ≤ p
  le : p ≤ maxIndexLog w
  indexSize : t.indexSize = 2 ^ p
  indexMask : t.indexMask = 2 ^ p - 1
  room : t.usedCount ≤ t.tableCapacity
  written : ∀ n, n < t.usedCount ↔ t.table n ≠ .null
  distinct : ∀ m n a b, t.table m = .live a → t.table n = .live b → a.key = b.key → m = n
  indexed : Indexed (position p) (2 ^ p) (t.home hash) t.slot t.liveEntries
  occupied : Nat.count (fun i => t.slot i ≠ .empty) (2 ^ p) = t.usedCount
  keyCount : t.keyCount = t.properties.length

section

variable {hash : K → UInt32} {p : Nat} {t : PropertyTable w K}

variable (h : WellFormed hash p t)
include h

theorem WellFormed.tableCapacity : t.tableCapacity = 2 ^ (p - 1) := by
  rw [PropertyTable.tableCapacity, h.indexSize, Nat.shiftRight_eq_div_pow,
    Nat.pow_div h.pos (by decide)]

theorem WellFormed.two_mul_tableCapacity : 2 * t.tableCapacity = 2 ^ p := by
  rw [h.tableCapacity, ← pow_succ', Nat.sub_add_cancel h.pos]

theorem WellFormed.dataSize : t.dataSize =
    t.indexSize * 4 + (t.tableCapacity + 1) * sizeofValueType w := by
  rw [PropertyTable.dataSize]
  refine Nat.mod_eq_of_lt ?_
  have hle := h.le
  have hcap := h.two_mul_tableCapacity
  have hpow := Nat.pow_le_pow_right (n := 2) (by decide) hle
  rw [h.indexSize]
  cases w
  all_goals
    simp only [maxIndexLog, sizeofValueType, Wtf.bitsInPointer, Wtf.sizeofPointer,
      Nat.reduceShiftLeft] at hpow ⊢
    omega

theorem WellFormed.indexAllocated {i : Nat} (hi : i < 2 ^ p) : t.indexAllocated i = true := by
  simp only [PropertyTable.indexAllocated, h.dataSize, h.indexSize, hi, decide_true,
    Bool.true_and, decide_eq_true_eq]
  omega

theorem WellFormed.tableAllocated (hn : n < t.tableCapacity + 1) : t.tableAllocated n = true := by
  simp only [PropertyTable.tableAllocated, h.dataSize, hn, decide_true, Bool.true_and,
    decide_eq_true_eq]
  exact Nat.add_le_add_left (Nat.mul_le_mul_right _ hn) _

theorem WellFormed.lt_usedCount (hn : t.table n = .live e) : n < t.usedCount :=
  (h.written n).mpr (by simp [hn])

/-- The extra entry holds no key. -/
theorem WellFormed.table_deletedEntryIndex : t.table (t.deletedEntryIndex - 1) = .null := by
  by_contra hne
  have := (h.written _).mpr hne
  have := h.room
  simp only [deletedEntryIndex] at *
  omega

theorem WellFormed.exists_empty : ∃ i < 2 ^ p, t.slot i = .empty := by
  have hlt : Nat.count (fun i => t.slot i ≠ .empty) (2 ^ p) < 2 ^ p := by
    have := h.room
    have := h.two_mul_tableCapacity
    have := Nat.two_pow_pos (p - 1)
    have := h.tableCapacity
    have := h.occupied
    omega
  obtain ⟨i, hi, he⟩ := exists_unused (fun s : Slot Nat => s ≠ .empty) hlt
  exact ⟨i, hi, not_not.mp he⟩

/-! ## Iteration -/

theorem WellFormed.iterate [DecidableEq K] : t.iterate = t.properties.map .live := by
  rw [PropertyTable.iterate, visited_eq, properties]
  have hw : ∀ n ∈ range' 0 t.usedCount, t.table n ≠ .null := by
    intro n hn
    exact (h.written n).mp (by simpa using hn)
  generalize range' 0 t.usedCount = numbers at hw
  induction numbers with
  | nil => rfl
  | cons n numbers ih =>
    have ih := ih fun m hm => hw m (mem_cons_of_mem n hm)
    have hn := hw n mem_cons_self
    cases he : t.table n with
    | null => exact absurd he hn
    | deleted => simpa [he, property?] using ih
    | live e => simpa [he, property?] using ih

/-! ## Adding an entry -/

variable {i : Nat}

theorem WellFormed.writeIndex (hi : i < 2 ^ p) (entryIndex : Nat) :
    t.writeIndex i entryIndex = some { t with index := update t.index i entryIndex } :=
  if_pos (h.indexAllocated hi)

/-- Also after the index has been written. -/
theorem WellFormed.writeTable (hn : n < t.tableCapacity) (index : Nat → Nat)
    (entry : PropertyMapEntry K) :
    ({ t with index := index } : PropertyTable w K).writeTable n entry =
      some { t with index := index, table := update t.table n entry } :=
  if_pos (Bool.and_eq_true_iff.mpr ⟨decide_eq_true hn, h.tableAllocated (Nat.lt_succ_of_lt hn)⟩)

omit h

/-- The table with one more entry, reached from a slot of the index. -/
def appended (t : PropertyTable w K) (i : Nat) (property : Property K) : PropertyTable w K :=
  { t with
    index := update t.index i (t.usedCount + 1)
    table := update t.table t.usedCount (.live property)
    keyCount := t.keyCount + 1 }

@[simp] theorem appended_index (i : Nat) (e : Property K) :
    (t.appended i e).index = update t.index i (t.usedCount + 1) := rfl

@[simp] theorem appended_table (i : Nat) (e : Property K) :
    (t.appended i e).table = update t.table t.usedCount (.live e) := rfl

@[simp] theorem appended_deletedEntryIndex (i : Nat) (e : Property K) :
    (t.appended i e).deletedEntryIndex = t.deletedEntryIndex := rfl

@[simp] theorem appended_usedCount (i : Nat) (e : Property K) :
    (t.appended i e).usedCount = t.usedCount + 1 := by
  simp only [usedCount, appended]
  omega

include h in
theorem WellFormed.append_eq (hi : i < 2 ^ p) (hr : t.usedCount < t.tableCapacity)
    (e : Property K) : t.append i e = some (t.usedCount, t.appended i e) := by
  rw [append, h.writeIndex hi]
  simp only [Option.bind_eq_bind, Option.bind_some, Nat.add_sub_cancel]
  rw [h.writeTable hr]
  rfl

theorem appended_slot (hr : t.usedCount < t.tableCapacity) (i : Nat) (e : Property K) :
    (t.appended i e).slot = update t.slot i (.item t.usedCount) := by
  funext j
  rw [slot, appended_deletedEntryIndex, appended_index, update_apply, update_apply]
  split
  · rw [if_neg (by simp [emptyEntryIndex]), if_neg (by rw [deletedEntryIndex]; omega),
      Nat.add_sub_cancel]
  · rfl

theorem appended_properties (i : Nat) (e : Property K) :
    (t.appended i e).properties = t.properties ++ [e] := by
  rw [properties, appended_usedCount, range'_1_concat, filterMap_append, properties]
  congr 1
  · refine filterMap_congr fun n hn => ?_
    have hlt : n < t.usedCount := by simpa using hn
    rw [appended_table, update_of_ne (Nat.ne_of_lt hlt)]
  · simp [property?]

theorem appended_liveEntries (i : Nat) (e : Property K) :
    (t.appended i e).liveEntries = insert t.usedCount t.liveEntries := by
  ext n
  by_cases hn : n = t.usedCount
  · subst hn
    simp [liveEntries]
  · simp [liveEntries, hn]

include h in
theorem WellFormed.append {d : Nat} (hr : t.usedCount < t.tableCapacity) (hd : d < 2 ^ p)
    (he : t.slot (position p (hash e.key).toNat d) = .empty)
    (hb : ∀ d' < d, t.slot (position p (hash e.key).toNat d') ≠ .empty)
    (hab : ∀ n other, t.table n = .live other → other.key ≠ e.key) :
    WellFormed hash p (t.appended (position p (hash e.key).toNat d) e) := by
  have hlt := (covers_position p).lt (hash e.key).toNat d
  have hnew : t.usedCount ∉ t.liveEntries := fun ⟨_, ho⟩ =>
    absurd (h.lt_usedCount ho) (Nat.lt_irrefl _)
  have hh : (t.appended (position p (hash e.key).toNat d) e).home hash
      t.usedCount = (hash e.key).toNat := home_of_live (update_self ..)
  generalize hi : position p (hash e.key).toNat d = i at *
  have hid := h.indexed.congr_home ((t.appended i e).home hash)
    (fun n ⟨other, ho⟩ => by
      have hne : n ≠ t.usedCount := Nat.ne_of_lt (h.lt_usedCount ho)
      rw [home_of_live ho]
      exact home_of_live (by rw [appended_table, update_of_ne hne, ho]))
  have hp := hid.place hnew (d := d) hd (by simp [hh, hi, he]) (hh ▸ hb)
  rw [hh, hi, ← appended_slot hr i e, ← appended_liveEntries i e] at hp
  exact
    { pos := h.pos
      le := h.le
      indexSize := h.indexSize
      indexMask := h.indexMask
      room := by
        rw [appended_usedCount]
        exact hr
      written := by
        intro n
        rw [appended_usedCount, appended_table, update_apply]
        have := h.written n
        split <;> grind
      distinct := by
        intro m n a b hm hn hkey
        rw [appended_table, update_apply] at hm hn
        split at hm <;> split at hn
        · omega
        · rw [live.injEq] at hm
          exact absurd (hm ▸ hkey.symm) (hab n b hn)
        · rw [live.injEq] at hn
          exact absurd (hn ▸ hkey) (hab m a hm)
        · exact h.distinct m n a b hm hn hkey
      indexed := hp
      occupied := by
        rw [appended_usedCount, appended_slot hr, ← h.occupied]
        exact count_update_used (fun s : Slot Nat => s ≠ .empty) hlt (by simp [he]) (by simp)
      keyCount := by
        rw [appended_properties, length_append, ← h.keyCount]
        rfl }

/-! ## The properties as a map -/

theorem property?_eq_some {entry : PropertyMapEntry K} :
    entry.property? = some e ↔ entry = .live e := by
  cases entry <;> simp [property?]

include h

theorem WellFormed.mem_properties :
    e ∈ t.properties ↔ ∃ n, t.table n = .live e := by
  simp only [properties, mem_filterMap, property?_eq_some]
  refine ⟨fun ⟨n, _, hn⟩ => ⟨n, hn⟩, fun ⟨n, hn⟩ => ⟨n, ?_, hn⟩⟩
  simpa using h.lt_usedCount hn

variable {key : K} {cap : Nat}

theorem WellFormed.live_of_absent (hab : key ∉ t.properties.map Property.key) :
    ∀ n e, t.table n = .live e → e.key ≠ key :=
  fun n _ hn hkey => hab (hkey ▸ mem_map_of_mem (h.mem_properties.mpr ⟨n, hn⟩))

theorem WellFormed.keys_nodup : (t.properties.map Property.key).Nodup := by
  rw [List.Nodup, pairwise_map, properties, pairwise_filterMap]
  have hn : (range' 0 t.usedCount).Nodup := nodup_range'
  refine hn.imp ?_
  intro m n hne a ha b hb hkey
  exact hne (h.distinct m n a b (property?_eq_some.mp ha) (property?_eq_some.mp hb) hkey)

/-! ## Removing an entry -/

omit h

/-- The table with an entry marked as deleted, and the slot that led to it. -/
def erased (t : PropertyTable w K) (i n : Nat) : PropertyTable w K :=
  { t with
    index := update t.index i t.deletedEntryIndex
    table := update t.table n .deleted
    keyCount := t.keyCount - 1
    deletedCount := t.deletedCount + 1 }

@[simp] theorem erased_index (i n : Nat) :
    (t.erased i n).index = update t.index i t.deletedEntryIndex := rfl

@[simp] theorem erased_table (i n : Nat) :
    (t.erased i n).table = update t.table n .deleted := rfl

@[simp] theorem erased_deletedEntryIndex (i n : Nat) :
    (t.erased i n).deletedEntryIndex = t.deletedEntryIndex := rfl

theorem erased_slot (i n : Nat) : (t.erased i n).slot = update t.slot i .deleted := by
  funext j
  rw [slot, erased_deletedEntryIndex, erased_index, update_apply, update_apply]
  split
  · rw [if_neg (by simp [emptyEntryIndex, deletedEntryIndex]), if_pos rfl]
  · rfl

theorem erased_liveEntries (i n : Nat) : (t.erased i n).liveEntries = t.liveEntries \ {n} := by
  ext m
  by_cases hm : m = n
  · subst hm
    simp [liveEntries]
  · simp [liveEntries, hm]

section

variable {i n : Nat} {e : Property K} (h : WellFormed hash p t)

include h

theorem WellFormed.keyCount_pos (hn : t.table n = .live e) :
    0 < t.keyCount := by
  rw [h.keyCount]
  exact length_pos_of_mem (h.mem_properties.mpr ⟨n, hn⟩)

theorem WellFormed.erased_usedCount (hn : t.table n = .live e) :
    (t.erased i n).usedCount = t.usedCount := by
  have := h.keyCount_pos hn
  simp only [usedCount, erased]
  omega

theorem WellFormed.erased_properties [DecidableEq K] (hn : t.table n = .live e) :
    (t.erased i n).properties = t.properties.filter (·.key ≠ e.key) := by
  rw [properties, h.erased_usedCount hn, properties, filter_filterMap]
  refine filterMap_congr fun m _ => ?_
  by_cases hm : m = n
  · subst hm
    simp [hn, property?, Option.filter_some]
  rw [erased_table, update_of_ne hm]
  cases ho : t.table m with
  | live other =>
    have hne : other.key ≠ e.key := fun hkey => hm (h.distinct m n _ _ ho hn hkey)
    simp [property?, Option.filter_some, hne]
  | _ => rfl

omit h

/-- A list without repeated keys holds a key of its own once. -/
theorem perm_filter_key [DecidableEq K] {l : List (Property K)}
    (hnd : (l.map Property.key).Nodup) (hmem : e ∈ l) :
    l.Perm (e :: l.filter (·.key ≠ e.key)) := by
  obtain ⟨before, after, rfl⟩ := append_of_mem hmem
  simp only [map_append, map_cons, nodup_middle, nodup_cons, mem_append,
    mem_map, not_or, not_exists, not_and] at hnd
  obtain ⟨⟨hb, haf⟩, _⟩ := hnd
  have hs : (before ++ e :: after).filter (·.key ≠ e.key) = before ++ after := by
    rw [filter_append, filter_cons_of_neg (by simp),
      filter_eq_self.mpr fun q hq => by simpa using hb q hq,
      filter_eq_self.mpr fun q hq => by simpa using haf q hq]
  rw [hs]
  exact perm_middle

theorem WellFormed.erase [DecidableEq K] (h : WellFormed hash p t) (hi : i < 2 ^ p)
    (hs : t.slot i = .item n) (hn : t.table n = .live e) :
    WellFormed hash p (t.erased i n) := by
  have hid := h.indexed.delete hi hs
  rw [← erased_slot i n, ← erased_liveEntries i n] at hid
  exact
    { pos := h.pos
      le := h.le
      indexSize := h.indexSize
      indexMask := h.indexMask
      room := by
        rw [h.erased_usedCount hn]
        exact h.room
      written := by
        intro m
        rw [h.erased_usedCount hn, erased_table, update_apply]
        split_ifs with hm
        · simpa [hm] using h.lt_usedCount hn
        · exact h.written m
      distinct := by
        intro l m a b hl hm hkey
        rw [erased_table, update_apply] at hl hm
        split at hl
        · cases hl
        · split at hm
          · cases hm
          · exact h.distinct l m a b hl hm hkey
      indexed := hid.congr_home _ fun m ⟨other, ho⟩ => by
        rw [home_of_live ho]
        rw [erased_table, update_apply] at ho
        split at ho
        · cases ho
        · rw [home_of_live ho]
      occupied := by
        rw [h.erased_usedCount hn, erased_slot, ← h.occupied]
        exact count_update_same (fun s : Slot Nat => s ≠ .empty) (by simp [hs]) (by simp)
      keyCount := by
        have hlen := (perm_filter_key h.keys_nodup (h.mem_properties.mpr ⟨n, hn⟩)).length_eq
        rw [length_cons, ← h.keyCount] at hlen
        rw [h.erased_properties hn]
        simp only [erased]
        omega }

end

/-! ## A new table -/

theorem sizeForCapacity_eq (h : cap < maxCapacity w) :
    ∃ p, 1 ≤ p ∧ p ≤ maxIndexLog w ∧ sizeForCapacity cap = 2 ^ p ∧ cap < 2 ^ (p - 1) := by
  have hmax := maxCapacity_le w
  have hlog := maxIndexLog_le w
  rw [sizeForCapacity]
  split_ifs with hsm
  · exact ⟨4, by decide, by cases w <;> decide, rfl, hsm⟩
  have hle : cap + 1 ≤ 2 ^ Nat.clog 2 (cap + 1) := Nat.le_pow_clog (by decide) _
  have hc : Nat.clog 2 (cap + 1) ≤ maxIndexLog w - 1 := Nat.clog_le_of_le_pow h
  have hpow : 2 ^ Nat.clog 2 (cap + 1) ≤ 2 ^ 30 := Nat.pow_le_pow_right (by decide) (by omega)
  have hpos : 1 ≤ maxIndexLog w := by cases w <;> decide
  refine ⟨Nat.clog 2 (cap + 1) + 1, by omega, by omega, ?_, hle⟩
  rw [Nat.mod_eq_of_lt (show cap + 1 < 2 ^ 32 by omega), nextPowerOf2,
    Wtf.roundUpToPowerOfTwo_eq (by omega) (by omega), Nat.mod_eq_of_lt (by omega), ← pow_succ]

theorem allocated_wellFormed (dels : List Int) (hpos : 1 ≤ p)
    (hle : p ≤ maxIndexLog w) (hs : sizeForCapacity cap = 2 ^ p) :
    WellFormed hash p (allocated cap dels : PropertyTable w K) where
  pos := hpos
  le := hle
  indexSize := hs
  indexMask := by
    simp only [allocated, hs]
    exact Wtf.two_pow_mask (by have := maxIndexLog_le w; omega)
  room := Nat.zero_le _
  written n := by simp [allocated, usedCount]
  distinct m n a b hm := by cases hm
  indexed := by
    have hl : (allocated cap dels : PropertyTable w K).liveEntries = ∅ := by
      simp [liveEntries, allocated]
    rw [hl]
    exact indexed_empty
  occupied := by
    have hsl : ∀ i, (allocated cap dels : PropertyTable w K).slot i = .empty := fun _ => rfl
    simp only [hsl]
    simp [usedCount, allocated]
  keyCount := rfl

/-! ## Searching -/

theorem masked_position (p : Nat) (hp : p ≤ 31) (key d : Nat) :
    (key + d) % 2 ^ 32 &&& (2 ^ p - 1) = position p key d := by
  rw [Nat.and_two_pow_sub_one_eq_mod, Nat.mod_mod_of_dvd _ (Nat.pow_dvd_pow 2 (by omega)), position,
    strided, Nat.mul_one]

theorem slot_eq_empty : t.slot i = .empty ↔ t.index i = emptyEntryIndex := by
  rw [slot]
  split
  · simp_all
  · split <;> simp_all

theorem index_of_deleted (h : t.slot i = .deleted) : t.index i = t.deletedEntryIndex := by
  rw [slot] at h
  split at h
  · cases h
  · split at h
    · assumption
    · cases h

theorem index_of_item (h : t.slot i = .item n) : t.index i = n + 1 := by
  rw [slot] at h
  split at h
  · cases h
  split at h
  · cases h
  · rename_i he _
    have := Slot.item.inj h
    simp only [emptyEntryIndex] at he
    omega

include h in
theorem WellFormed.readTable (hn : t.table n = .live e) : t.readTable n = some (.live e) := by
  have := h.lt_usedCount hn
  have := h.room
  rw [PropertyTable.readTable, if_pos (h.tableAllocated (by omega)), hn]

include h in
theorem WellFormed.readTable_deletedEntryIndex :
    t.readTable (t.deletedEntryIndex - 1) = some .null := by
  rw [PropertyTable.readTable, if_pos (h.tableAllocated (by rw [deletedEntryIndex]; omega)),
    h.table_deletedEntryIndex]

variable [DecidableEq K]

def sought (t : PropertyTable w K) (key : K) (n : Nat) : Bool := (t.table n).hasKey key

include h

/-- One round reads the slot that the hash selects, and stops as a search does. -/
theorem WellFormed.findStep (key : K) (start d : Nat) : t.findStep key ((start + d) % 2 ^ 32) =
      if (t.slot (position p start d)).stops (t.sought key) then
        some (.inl ⟨(t.slot (position p start d)).item?, position p start d⟩)
      else some (.inr ((start + (d + 1)) % 2 ^ 32)) := by
  have hlt := (covers_position p).lt start d
  have hn : ((start + d) % 2 ^ 32 + 1) % 2 ^ 32 = (start + (d + 1)) % 2 ^ 32 := by omega
  have hr : t.readIndex (position p start d) = some (t.index (position p start d)) := by
    rw [readIndex, if_pos (h.indexAllocated hlt)]
  rw [PropertyTable.findStep, h.indexMask, masked_position p (h.le.trans (maxIndexLog_le _)), hr,
    hn]
  generalize position p start d = i at hlt
  simp only [Option.bind_eq_bind, Option.bind_some, Option.pure_def]
  cases hs : t.slot i with
  | empty =>
    rw [if_pos (slot_eq_empty.mp hs)]
    rfl
  | deleted =>
    rw [index_of_deleted hs, if_neg (by simp [deletedEntryIndex, emptyEntryIndex]),
      h.readTable_deletedEntryIndex]
    rfl
  | item n =>
    obtain ⟨e, hl⟩ := h.indexed.held i hlt n hs
    rw [index_of_item hs, if_neg (by simp [emptyEntryIndex]), Nat.add_sub_cancel, h.readTable hl]
    simp [Slot.stops, Slot.item?, sought, hl]

theorem WellFormed.find (key : K) :
    ∃ d < 2 ^ p, Found (position p (hash key).toNat) t.slot (t.sought key) d ∧
      t.find hash key = some ⟨(t.slot (position p (hash key).toNat d)).item?,
        position p (hash key).toNat d⟩ := by
  obtain ⟨d, hd, hf⟩ := (covers_position p).found h.exists_empty (hash key).toNat (t.sought key)
  refine ⟨d, hd, hf, ?_⟩
  let trace (n : Nat) : Nat := ((hash key).toNat + n) % 2 ^ 32
  have hs : (hash key).toNat = trace 0 := (Nat.mod_eq_of_lt (hash key).toNat_lt).symm
  rw [PropertyTable.find, h.indexSize]
  conv_lhs => rw [hs]
  refine probe_of_trace hd (fun d' hd' => ?_) ?_
  · rw [h.findStep, if_neg (by simp [hf.passed d' hd'])]
  · rw [h.findStep, if_pos hf.stops]

/-- A search finds the entry of its key, or the slot for it where it has none. -/
theorem WellFormed.find_cases (key : K) :
    (∃ i < 2 ^ p, ∃ n e, t.find hash key = some ⟨some n, i⟩ ∧ t.slot i = .item n ∧
      t.table n = .live e ∧ e.key = key) ∨
    ∃ d < 2 ^ p, t.find hash key = some ⟨none, position p (hash key).toNat d⟩ ∧
      t.slot (position p (hash key).toNat d) = .empty ∧
      (∀ d' < d, t.slot (position p (hash key).toNat d') ≠ .empty) ∧
      ∀ n e, t.table n = .live e → e.key ≠ key := by
  obtain ⟨d, hd, hf, hfd⟩ := h.find key
  have hlt := (covers_position p).lt (hash key).toNat d
  obtain ⟨n, ⟨e, hl⟩, hs, hsou⟩ | ⟨he, hall⟩ := h.indexed.search hf hlt
  · refine .inl ⟨_, hlt, n, e, ?_, hs, hl, ?_⟩
    · rw [hfd, hs]
      rfl
    · simpa [sought, hl, hasKey] using hsou
  · refine .inr ⟨d, hd, ?_, he, fun d' hd' => hf.ne_empty hd', fun n e hn heq => ?_⟩
    · rw [hfd, he]
      rfl
    · have hfa := hall n ⟨e, hn⟩ (by rw [home_of_live hn, heq])
      simp [sought, hn, hasKey, heq] at hfa

/-! ## Filling a new table -/

/-- Inserting entries of new keys while there is room, as a rehash and a copy do. -/
theorem WellFormed.foldlM_reinsert (es : List (Property K))
    (hnd : ((t.properties ++ es).map Property.key).Nodup)
    (hr : t.usedCount + es.length ≤ t.tableCapacity) :
    ∃ t', (es.map .live).foldlM (reinsert hash) t = some t' ∧ WellFormed hash p t' ∧
      t'.properties = t.properties ++ es ∧ t'.deletedCount = t.deletedCount ∧
      t'.deletedOffsets = t.deletedOffsets := by
  induction es generalizing t with
  | nil => exact ⟨t, rfl, h, by simp, rfl, rfl⟩
  | cons e es ih =>
    rw [length_cons] at hr
    have hab : ∀ n other, t.table n = .live other → other.key ≠ e.key := by
      intro n other ho hkey
      have hmem := mem_map_of_mem (f := Property.key) (h.mem_properties.mpr ⟨n, ho⟩)
      rw [map_append, nodup_append] at hnd
      exact hnd.2.2 _ hmem _ (by simp) hkey
    obtain ⟨i, _, n, other, _, _, ho, hkey⟩ | ⟨d, hd, hf, he, hb, _⟩ := h.find_cases e.key
    · exact absurd hkey (hab n other ho)
    have hlt := (covers_position p).lt (hash e.key).toNat d
    have hi : reinsert hash t (.live e) =
        some (t.appended (position p (hash e.key).toNat d) e) := by
      rw [reinsert, hf]
      simp only [Option.bind_eq_bind, Option.bind_some]
      rw [h.append_eq hlt (by omega)]
      rfl
    have ha := h.append (by omega) hd he hb hab
    obtain ⟨t', hfo, hwf, hps, hc, hos⟩ := ih ha
      (by rw [appended_properties, append_assoc]; exact hnd)
      (by
        have hcap : (t.appended (position p (hash e.key).toNat d)
          e).tableCapacity = t.tableCapacity := rfl
        rw [appended_usedCount, hcap]
        omega)
    refine ⟨t', ?_, hwf, ?_, hc, hos⟩
    · rw [map_cons, foldlM_cons, hi]
      exact hfo
    · rw [hps, appended_properties, append_assoc]
      rfl

/-- A table of the same properties in new memory, with room for more. -/
theorem WellFormed.rehash (hcap : t.keyCount ≤ cap) (hmax : cap < maxCapacity w) :
    ∃ q t', t.rehash hash cap = some t' ∧ WellFormed hash q t' ∧
      t'.properties = t.properties ∧ cap < t'.tableCapacity ∧ t'.deletedCount = 0 ∧
      t'.deletedOffsets = t.deletedOffsets := by
  obtain ⟨q, hpos, hle, hs, hlt⟩ := sizeForCapacity_eq hmax
  have hwf : WellFormed hash q (allocated cap t.deletedOffsets) :=
    allocated_wellFormed t.deletedOffsets hpos hle hs
  obtain ⟨t', hf, hwf', hps, hc, hos⟩ := hwf.foldlM_reinsert t.properties
    h.keys_nodup (by
      have hz : (allocated cap t.deletedOffsets : PropertyTable w K).usedCount = 0 := rfl
      rw [hz, hwf.tableCapacity, ← h.keyCount]
      omega)
  refine ⟨q, t', ?_, hwf', hps, ?_, hc, hos⟩
  · rw [PropertyTable.rehash, h.iterate]
    exact hf
  · rw [hwf'.tableCapacity]
    exact hlt

/-! ## The operations -/

theorem WellFormed.find?_of_live (hn : t.table n = .live e) :
    t.properties.find? (·.key = e.key) = some e := by
  cases hf : t.properties.find? (·.key = e.key) with
  | none =>
    have hno := List.find?_eq_none.mp hf e (h.mem_properties.mpr ⟨n, hn⟩)
    simp at hno
  | some other =>
    obtain ⟨m, hm⟩ := h.mem_properties.mp (List.mem_of_find?_eq_some hf)
    have hkey : other.key = e.key := by simpa using List.find?_some hf
    obtain rfl := h.distinct m n _ _ hm hn hkey
    rw [hm] at hn
    rw [live.inj hn]

theorem WellFormed.find?_of_absent (hab : ∀ n e, t.table n = .live e → e.key ≠ key) :
    t.properties.find? (·.key = key) = none := by
  refine List.find?_eq_none.mpr fun e hmem => ?_
  obtain ⟨n, hn⟩ := h.mem_properties.mp hmem
  simpa using hab n e hn

omit h

/-- The property that a search has found. -/
def propertyAt (t : PropertyTable w K) (first : Option Nat) : Option (Property K) :=
  first.bind fun n => (t.table n).property?

include h

/-- A search leads to an entry exactly when its key is live, and to its property. -/
theorem WellFormed.find_spec (key : K) : ∃ iter, t.find hash key = some iter ∧
      t.propertyAt iter.first = t.properties.find? (·.key = key) ∧
      iter.first.isSome = (t.properties.find? (·.key = key)).isSome := by
  obtain ⟨i, _, n, e, hf, _, hn, rfl⟩ | ⟨d, _, hf, _, _, hab⟩ := h.find_cases key
  · rw [h.find?_of_live hn]
    refine ⟨_, hf, ?_, rfl⟩
    rw [propertyAt, Option.bind_some, hn, property?]
  · rw [h.find?_of_absent hab]
    exact ⟨_, hf, rfl, rfl⟩

theorem WellFormed.get_spec (key : K) : ∃ first, t.get hash key = some first ∧
      t.propertyAt first = t.properties.find? (·.key = key) ∧
      first.isSome = (t.properties.find? (·.key = key)).isSome := by
  rw [get]
  split_ifs with hz
  · have hnil : t.properties = [] := by
      rw [h.keyCount] at hz
      exact length_eq_zero_iff.mp hz
    exact ⟨none, rfl, hnil ▸ rfl, hnil ▸ rfl⟩
  · obtain ⟨iter, hf, hs⟩ := h.find_spec key
    exact ⟨iter.first, hf ▸ rfl, hs⟩

theorem WellFormed.copy (hcap : t.keyCount ≤ cap) (hmax : cap < maxCapacity w) :
    ∃ q t', t.copy hash cap = some t' ∧ WellFormed hash q t' ∧
      t'.properties = t.properties ∧ t'.deletedOffsets = t.deletedOffsets := by
  rw [PropertyTable.copy]
  split
  · exact ⟨p, t, rfl, h, rfl, rfl⟩
  · obtain ⟨q, t', hf, hwf, hps, _, _, hos⟩ := h.rehash hcap hmax
    exact ⟨q, t', hf, hwf, hps, hos⟩

theorem WellFormed.find_absent (hab : key ∉ t.properties.map Property.key) :
    ∃ d < 2 ^ p, t.find hash key = some ⟨none, position p (hash key).toNat d⟩ ∧
      t.slot (position p (hash key).toNat d) = .empty ∧
      ∀ d' < d, t.slot (position p (hash key).toNat d') ≠ .empty := by
  obtain ⟨_, _, n, other, _, _, hn, hkey⟩ | ⟨d, hd, hf, he, hb, _⟩ := h.find_cases key
  · exact absurd hkey (h.live_of_absent hab n other hn)
  · exact ⟨d, hd, hf, he, hb⟩

/-- There is room for a new key afterwards, and the slot is the one it is reached from. -/
theorem WellFormed.ensureCapacity {iter : FindIterator}
    (hf : t.find hash key = some iter) (hab : key ∉ t.properties.map Property.key)
    (hmax : t.keyCount + 1 < maxCapacity w) :
    ∃ q t' d, t.ensureCapacity hash key iter = some (t', ⟨none, position q (hash key).toNat d⟩) ∧
      WellFormed hash q t' ∧ t'.properties = t.properties ∧
      t'.deletedOffsets = t.deletedOffsets ∧ t'.usedCount < t'.tableCapacity ∧ d < 2 ^ q ∧
      t'.slot (position q (hash key).toNat d) = .empty ∧
      ∀ d' < d, t'.slot (position q (hash key).toNat d') ≠ .empty := by
  rw [PropertyTable.ensureCapacity]
  split_ifs with hr
  · obtain ⟨d, hd, hf', he, hb⟩ := h.find_absent hab
    rw [hf'] at hf
    cases hf
    exact ⟨p, t, d, rfl, h, rfl, rfl, by simpa [canInsert] using hr, hd, he, hb⟩
  · obtain ⟨q, t', hre, hwf, hps, hr, hde, hos⟩ := h.rehash (Nat.le_succ _) hmax
    obtain ⟨d, hd, hf', he, hb⟩ := hwf.find_absent (hps ▸ hab)
    have hu : t'.usedCount < t'.tableCapacity := by
      rw [usedCount, hde, hwf.keyCount, hps, ← h.keyCount]
      omega
    refine ⟨q, t', d, ?_, hwf, hps, hos, hu, hd, he, hb⟩
    simp [hre, hf']

theorem WellFormed.add {offset : Int} {oe : EffectOnPropertyOffset}
    (hab : e.key ∉ t.properties.map Property.key) (hmax : t.keyCount + 1 < maxCapacity w)
    (he : oe = .mustNotChange → e.offset ≤ offset) :
    ∃ q result n, t.add hash e offset oe = some result ∧
      WellFormed hash q result.table ∧ result.table.properties = t.properties ++ [e] ∧
      result.table.deletedOffsets = t.deletedOffsets ∧ result.isNewEntry = true ∧
      result.iter.first = some n ∧ result.table.table n = .live e ∧
      result.offset = max offset e.offset := by
  obtain ⟨_, _, hf, _, _⟩ := h.find_absent hab
  obtain ⟨q, u, d, hen, hwf, hps, hos, hr, hd, hem, hb⟩ := h.ensureCapacity hf hab hmax
  have hlt := (covers_position q).lt (hash e.key).toNat d
  have ha := hwf.append_eq hlt hr e
  have hwf' := hwf.append hr hd hem hb (hwf.live_of_absent (hps ▸ hab))
  have hps' : (u.appended (position q (hash e.key).toNat d) e).properties =
      t.properties ++ [e] := by rw [appended_properties, hps]
  have hl : (u.appended (position q (hash e.key).toNat d) e).table
      u.usedCount = .live e := update_self ..
  rw [PropertyTable.add]
  simp only [Option.bind_eq_bind, hf, hen, ha, Option.bind_some]
  cases oe with
  | mayChange => exact ⟨q, _, _, rfl, hwf', hps', hos, rfl, rfl, hl, rfl⟩
  | mustNotChange =>
    have hle := he rfl
    simp only [if_pos hle]
    exact ⟨q, _, _, rfl, hwf', hps', hos, rfl, rfl, hl, (max_eq_left hle).symm⟩

/-- There is nothing to fill in an index without slots. -/
theorem WellFormed.rehash_without_slots (hcap : sizeForCapacity cap = 0) (hpos : 0 < t.keyCount) :
    t.rehash hash cap = none := by
  rw [h.keyCount] at hpos
  obtain ⟨e, es, hps⟩ := exists_cons_of_length_pos hpos
  have hf : (allocated cap t.deletedOffsets : PropertyTable w K).find hash e.key = none := by
    rw [PropertyTable.find, allocated, hcap]
    rfl
  rw [PropertyTable.rehash, h.iterate, hps, map_cons, foldlM_cons, reinsert, hf]
  rfl

omit h in
/-- Whatever the table, an addition that returns has found a slot. -/
theorem WellFormed.add_returned {t : PropertyTable .bits64 K} (h : WellFormed hash p t)
    {offset : Int} {result : AddResult .bits64 K} (hab : e.key ∉ t.properties.map Property.key)
    (hadd : t.add hash e offset .mayChange = some result) :
    ∃ q, WellFormed hash q result.table ∧ result.table.properties = t.properties ++ [e] := by
  by_cases hmax : t.keyCount + 1 < maxCapacity .bits64
  · have hmay : EffectOnPropertyOffset.mayChange = .mustNotChange → e.offset ≤ offset := nofun
    obtain ⟨q, result', n, hadd', hwf, hps, _⟩ := h.add hab hmax hmay
    cases hadd'.symm.trans hadd
    exact ⟨q, hwf, hps⟩
  obtain ⟨d, hd, hf, he, hb⟩ := h.find_absent hab
  have hlt := (covers_position p).lt (hash e.key).toNat d
  rw [PropertyTable.add, hf] at hadd
  simp only [Option.bind_eq_bind, Option.bind_some, PropertyTable.ensureCapacity] at hadd
  by_cases hr : t.canInsert = true
  · have hr' : t.usedCount < t.tableCapacity := by simpa [canInsert] using hr
    rw [if_pos hr, Option.bind_some, h.append_eq hlt hr'] at hadd
    cases hadd
    exact ⟨p, h.append hr' hd he hb (h.live_of_absent hab), appended_properties _ _⟩
  · have hle : t.keyCount ≤ 2 ^ 30 := by
      have hro := h.room
      have hpow := Nat.pow_le_pow_right (n := 2) (by decide) (Nat.sub_le_sub_right h.le 1)
      rw [h.tableCapacity, usedCount] at hro
      exact (Nat.le_add_right _ _).trans (hro.trans hpow)
    rw [maxCapacity, maxIndexLog] at hmax
    have hsize : sizeForCapacity (t.keyCount + 1) = 0 := by
      obtain hk | hk : t.keyCount = 2 ^ 30 - 1 ∨ t.keyCount = 2 ^ 30 := by omega
      all_goals
        rw [hk]
        decide
    rw [if_neg hr, h.rehash_without_slots hsize (by omega)] at hadd
    cases hadd

theorem WellFormed.removeAt (hi : i < 2 ^ p) (hs : t.slot i = .item n) (hn : t.table n = .live e) :
    ∃ q t', t.removeAt hash ⟨some n, i⟩ = some t' ∧ WellFormed hash q t' ∧
      t'.properties = t.properties.filter (·.key ≠ e.key) ∧
      t'.deletedOffsets = t.deletedOffsets := by
  have hlt := Nat.lt_of_lt_of_le (h.lt_usedCount hn) h.room
  have hwf := h.erase hi hs hn
  have hw : t.removeAt hash ⟨some n, i⟩ =
      if (t.erased i n).deletedCount * 4 ≥ (t.erased i n).indexSize then
        (t.erased i n).rehash hash (t.erased i n).keyCount
      else some (t.erased i n) := by
    rw [PropertyTable.removeAt]
    simp only [Option.bind_eq_bind]
    rw [h.writeIndex hi, Option.bind_some, h.writeTable hlt]
    rfl
  rw [hw]
  split
  · have hmax : (t.erased i n).keyCount < maxCapacity w := by
      have hro := h.room
      have hpos := h.keyCount_pos hn
      have hpow : 2 ^ (p - 1) ≤ maxCapacity w :=
        Nat.pow_le_pow_right (by decide) (Nat.sub_le_sub_right h.le 1)
      rw [h.tableCapacity, usedCount] at hro
      simp only [erased]
      omega
    obtain ⟨q, t', hr, hwf', hps, _, _, hos⟩ := hwf.rehash (Nat.le_refl _) hmax
    exact ⟨q, t', hr, hwf', hps.trans (h.erased_properties hn), hos⟩
  · exact ⟨p, _, rfl, hwf, h.erased_properties hn, rfl⟩

theorem WellFormed.remove (key : K) : ∃ q t', t.remove hash key = some t' ∧ WellFormed hash q t' ∧
      t'.properties = t.properties.filter (·.key ≠ key) ∧ t'.deletedOffsets = t.deletedOffsets := by
  obtain ⟨i, hi, n, e, hf, hs, hn, rfl⟩ | ⟨d, _, hf, _, _, hab⟩ := h.find_cases key
  · simp only [PropertyTable.remove, hf, Option.bind_eq_bind, Option.bind_some]
    exact h.removeAt hi hs hn
  refine ⟨p, t, ?_, h, ?_, rfl⟩
  · rw [PropertyTable.remove, hf]
    rfl
  · refine (filter_eq_self.mpr fun e hmem => ?_).symm
    obtain ⟨n, hn⟩ := h.mem_properties.mp hmem
    simpa using hab n e hn

end

end PropertyTable

end JavaScriptCore.Runtime
