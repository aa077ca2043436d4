import JavaScriptCore.Wtf.HashTable.Table

/-!
# What the operations of a `HashTable` do

The buckets of a table hold a list of entries with distinct keys, in no particular order. `Laid`
says how: the probe sequence of an entry's hash leads to it before the first empty bucket, and the
buckets in use are those of the entries and the deleted ones. `Stored` adds that the counts are
right and that at most half of the buckets are in use.
-/

namespace JavaScriptCore.Wtf

open JavaScriptCore.Collections List Function Option Bool Slot

namespace HashTable

variable {K V : Type}

/-! ## The probe sequence -/

/-- The buckets that a search for a hash visits. -/
def position (p : Nat) : UInt32 → Nat → Nat :=
  strided (2 ^ p) UInt32.toNat fun h => (1 ||| doubleHash h).toNat

theorem odd_step (h : UInt32) : Odd (1 ||| doubleHash h).toNat := by
  rw [Nat.odd_iff, UInt32.toNat_or, Nat.or_mod_two_eq_one]
  exact .inl rfl

theorem covers_position (p : Nat) : Covers (position p) (2 ^ p) := covers_strided p _ _ odd_step

theorem position_zero (p : Nat) (h : UInt32) : h.toNat &&& (2 ^ p - 1) = position p h 0 := by
  rw [Nat.and_two_pow_sub_one_eq_mod, position, strided, Nat.zero_mul, Nat.add_zero]

theorem position_succ {p : Nat} (hp : p ≤ 30) (h : UInt32) (d : Nat) :
    (position p h d + (1 ||| doubleHash h).toNat) % 2 ^ 32 &&& (2 ^ p - 1) =
      position p h (d + 1) := by
  rw [Nat.and_two_pow_sub_one_eq_mod, Nat.mod_mod_of_dvd _ (Nat.pow_dvd_pow 2 (by omega)),
    ← Nat.and_two_pow_sub_one_eq_mod, position, strided_succ]

/-! ## The layout of the buckets -/

/-- No two entries have equal keys. -/
def Distinct (traits : HashTraits K V) (entries : List V) : Prop :=
  entries.Pairwise fun a b => traits.equal (traits.extract a) (traits.extract b) = false

theorem Distinct.nodup {tr : HashTraits K V} {entries : List V}
    (h : Distinct tr entries) : entries.Nodup := by
  refine List.Pairwise.imp ?_ h
  rintro v w hne rfl
  rw [tr.equivalence.refl] at hne
  cases hne

theorem symm_false {tr : HashTraits K V} {a b : K} (h : tr.equal a b = false) :
    tr.equal b a = false := by
  rw [eq_false_iff] at h ⊢
  exact fun hba => h (tr.equivalence.symm hba)

structure Laid (traits : HashTraits K V) (p : Nat) (t : HashTable V) (buffer : Nat → Slot V)
    (entries : List V) : Prop where
  table : t.table = some buffer
  le : p ≤ 30
  tableSize : t.tableSize = 2 ^ p
  tableSizeMask : t.tableSizeMask = 2 ^ p - 1
  indexed : Indexed (position p) (2 ^ p) (fun v => traits.hash (traits.extract v)) buffer
    {v | v ∈ entries}
  distinct : Distinct traits entries
  occupied : usedSlots buffer (2 ^ p) = entries.length + deletedSlots buffer (2 ^ p)
  room : usedSlots buffer (2 ^ p) < 2 ^ p

section

variable {tr : HashTraits K V} {p : Nat} {t : HashTable V} {buf : Nat → Slot V}
  {entries : List V}

variable {i d : Nat} {key : K} {v : V}

variable (h : Laid tr p t buf entries)
include h

theorem Laid.bucket (hi : i < 2 ^ p) : t.bucket i = some (buf i) := by
  rw [HashTable.bucket, h.table, bind_some, h.tableSize, if_pos hi]

theorem Laid.of_bucket {slot : Slot V}
    (hb : t.bucket i = some slot) : i < 2 ^ p ∧ buf i = slot := by
  rw [HashTable.bucket, h.table, bind_some, h.tableSize] at hb
  split at hb
  · exact ⟨by assumption, some.inj hb⟩
  · cases hb

theorem Laid.setBucket (hi : i < 2 ^ p) (slot : Slot V) :
    t.setBucket i slot = some { t with table := some (update buf i slot) } := by
  rw [HashTable.setBucket, h.table, bind_some, h.tableSize, if_pos hi]

theorem Laid.nextIndex (key : UInt32) (d : Nat) :
    t.nextIndex key (position p key d) = position p key (d + 1) := by
  rw [HashTable.nextIndex, h.tableSizeMask, position_succ h.le]

theorem Laid.exists_empty : ∃ i < 2 ^ p, buf i = .empty := exists_empty_slot h.room

theorem Laid.perm {entries' : List V} (hp : entries.Perm entries') : Laid tr p t buf entries' :=
  { h with
    indexed := by
      have heq : {v | v ∈ entries'} = {v | v ∈ entries} := Set.ext fun v => hp.mem_iff.symm
      rw [heq]
      exact h.indexed
    distinct := (hp.pairwise_iff symm_false).mp h.distinct
    occupied := by
      rw [← hp.length_eq]
      exact h.occupied }

/-! ## Searching -/

omit h

/-- Whether an entry is the one of a key. -/
def sought (traits : HashTraits K V) (key : K) (v : V) : Bool := traits.equal (traits.extract v) key

include h

theorem Laid.lookupStep (key : K) (d : Nat) :
    t.lookupStep tr key (position p (tr.hash key) d) =
      if (buf (position p (tr.hash key) d)).stops (sought tr key) then
        some (.inl ((buf (position p (tr.hash key) d)).item?.map fun _ =>
          position p (tr.hash key) d))
      else some (.inr (position p (tr.hash key) (d + 1))) := by
  have hlt := (covers_position p).lt (tr.hash key) d
  rw [HashTable.lookupStep, h.bucket hlt, bind_eq_bind, bind_some]
  cases hs : buf (position p (tr.hash key) d) with
  | empty => rfl
  | _ =>
    rw [h.nextIndex]
    rfl

theorem Laid.writingStep (key : K) (d : Nat) :
    t.writingStep tr key (position p (tr.hash key) d,
        lastDeleted (position p (tr.hash key)) buf d) =
      if (buf (position p (tr.hash key) d)).stops (sought tr key) then
        some (.inl ⟨position p (tr.hash key) d,
          lastDeleted (position p (tr.hash key)) buf d,
          (buf (position p (tr.hash key) d)).item?.isSome⟩)
      else some (.inr (position p (tr.hash key) (d + 1),
        lastDeleted (position p (tr.hash key)) buf (d + 1))) := by
  have hlt := (covers_position p).lt (tr.hash key) d
  rw [HashTable.writingStep, h.bucket hlt, bind_eq_bind, bind_some, lastDeleted]
  cases hs : buf (position p (tr.hash key) d) with
  | empty => rfl
  | _ =>
    rw [h.nextIndex]
    rfl

theorem Laid.found (key : K) :
    ∃ d < 2 ^ p, Found (position p (tr.hash key)) buf (sought tr key) d :=
  (covers_position p).found h.exists_empty (tr.hash key) (sought tr key)

theorem Laid.lookup (hd : d < 2 ^ p) (hf : Found (position p (tr.hash key)) buf (sought tr key) d) :
    t.lookup tr key = some ((buf (position p (tr.hash key) d)).item?.map fun _ =>
      position p (tr.hash key) d) := by
  rw [HashTable.lookup, h.table, if_neg (by simp), h.tableSize, h.tableSizeMask, position_zero]
  refine probe_of_trace hd (fun d' hd' => ?_) ?_
  · rw [h.lookupStep, if_neg (by simp [hf.passed d' hd'])]
  · rw [h.lookupStep, if_pos hf.stops]

theorem Laid.writingLoop (hd : d < 2 ^ p)
    (hf : Found (position p (tr.hash key)) buf (sought tr key) d) :
    t.writingLoop tr key = some ⟨position p (tr.hash key) d,
      lastDeleted (position p (tr.hash key)) buf d,
      (buf (position p (tr.hash key) d)).item?.isSome⟩ := by
  let trace (n : Nat) : Nat × Option Nat :=
    (position p (tr.hash key) n, lastDeleted (position p (tr.hash key)) buf n)
  have hs : (position p (tr.hash key) 0, none) = trace 0 := rfl
  rw [HashTable.writingLoop, h.tableSize, h.tableSizeMask, position_zero, hs]
  refine probe_of_trace hd (fun d' hd' => ?_) ?_
  · rw [h.writingStep, if_neg (by simp [hf.passed d' hd'])]
  · rw [h.writingStep, if_pos hf.stops]

/-- A search ends at the entry of the key, or no entry has the key. -/
theorem Laid.search (hf : Found (position p (tr.hash key)) buf (sought tr key) d) :
    (∃ v ∈ entries, buf (position p (tr.hash key) d) = .item v ∧
      sought tr key v = true) ∨
    buf (position p (tr.hash key) d) = .empty ∧ ∀ v ∈ entries, sought tr key v = false := by
  obtain hi | ⟨he, hall⟩ := h.indexed.search hf ((covers_position p).lt (tr.hash key) d)
  · exact .inl hi
  · refine .inr ⟨he, fun v hv => ?_⟩
    -- an equal key would have the hash of the search
    by_contra hs
    rw [not_eq_false] at hs
    exact absurd (hall v hv (tr.compatible _ _ hs)) (by simp [hs])

/-! ## Changing a bucket -/

theorem Laid.of_fields {t' : HashTable V}
    (ht : t'.table = t.table) (hs : t'.tableSize = t.tableSize)
    (hm : t'.tableSizeMask = t.tableSizeMask) : Laid tr p t' buf entries :=
  { h with
    table := ht.trans h.table
    tableSize := hs.trans h.tableSize
    tableSizeMask := hm.trans h.tableSizeMask }

/-- A new entry in a bucket that holds none, with no empty bucket before it. -/
theorem Laid.place {e : Nat} (he : e < 2 ^ p)
    (hv : (buf (position p (tr.hash (tr.extract v)) e)).item? = none)
    (hb : ∀ e' < e, buf (position p (tr.hash (tr.extract v)) e') ≠ .empty)
    (hab : ∀ w ∈ entries, sought tr (tr.extract v) w = false)
    (hr : entries.length + 1 + deletedSlots buf (2 ^ p) < 2 ^ p) :
    Laid tr p { t with table := some (update buf
          (position p (tr.hash (tr.extract v)) e) (.item v)) }
      (update buf (position p (tr.hash (tr.extract v)) e) (.item v)) (v :: entries) := by
  have hlt := (covers_position p).lt (tr.hash (tr.extract v)) e
  have hnew : v ∉ {v | v ∈ entries} := by
    intro hmem
    have hsf := hab v hmem
    rw [sought, tr.equivalence.refl] at hsf
    cases hsf
  have hi := h.indexed.place hnew he (by
    intro w hw
    rw [hw] at hv
    cases hv) hb
  have hset : insert v {v | v ∈ entries} = {w | w ∈ v :: entries} := by
    ext w
    simp
  rw [hset] at hi
  generalize position p (tr.hash (tr.extract v)) e = j at *
  have hu := usedSlots_update buf hlt (.item v)
  have hd := deletedSlots_update buf hlt (.item v)
  have ho := h.occupied
  have hc : usedSlots (update buf j (.item v)) (2 ^ p) =
      entries.length + 1 + deletedSlots (update buf j (.item v)) (2 ^ p) ∧
      deletedSlots (update buf j (.item v)) (2 ^ p) ≤ deletedSlots buf (2 ^ p) := by
    cases hs : buf j with
    | item w =>
      rw [hs] at hv
      cases hv
    | empty =>
      simp only [hs, isUsed, isDeleted, toNat_true, toNat_false] at *
      omega
    | deleted =>
      simp only [hs, isUsed, isDeleted, toNat_true, toNat_false] at *
      omega
  exact
    { h with
      table := rfl
      indexed := hi
      distinct := pairwise_cons.mpr ⟨fun w hw => symm_false (hab w hw), h.distinct⟩
      occupied := hc.1
      room := by omega }

omit h

/-- What is left without the entries of a key. -/
def without (traits : HashTraits K V) (key : K) (entries : List V) : List V :=
  entries.filter fun w => !sought traits key w

theorem sought_self (tr : HashTraits K V) (v : V) : sought tr (tr.extract v) v = true :=
  tr.equivalence.refl _

theorem Distinct.perm_cons_without (h : Distinct tr entries) (hv : v ∈ entries) :
    entries.Perm (v :: without tr (tr.extract v) entries) := by
  induction entries with
  | nil => cases hv
  | cons w entries ih =>
    obtain ⟨hw, hd⟩ := pairwise_cons.mp h
    obtain rfl | hv := mem_cons.mp hv
    · have hr : without tr (tr.extract v) entries = entries := by
        refine filter_eq_self.mpr fun u hu => ?_
        rw [sought, symm_false (hw u hu)]
        rfl
      rw [without, filter_cons_of_neg (by simp [sought_self]), ← without, hr]
    · have hk : sought tr (tr.extract v) w = false := hw v hv
      rw [without, filter_cons_of_pos (by simp [hk]), ← without]
      exact ((ih hd hv).cons w).trans (List.Perm.swap v w _)

theorem Distinct.mem_without (h : Distinct tr entries) {w : V} (hv : v ∈ entries) :
    w ∈ without tr (tr.extract v) entries ↔ w ∈ entries ∧ w ≠ v := by
  rw [(h.perm_cons_without hv).mem_iff, mem_cons]
  constructor
  · intro hw
    refine ⟨.inr hw, ?_⟩
    rintro rfl
    simp [without, sought_self] at hw
  · rintro ⟨rfl | hw, hne⟩
    · exact absurd rfl hne
    · exact hw

include h

/-- An entry given up for a mark. -/
theorem Laid.erase (hi : i < 2 ^ p) (hs : buf i = .item v) :
    Laid tr p { t with table := some (update buf i .deleted) }
      (update buf i .deleted) (without tr (tr.extract v) entries) := by
  have hmem : v ∈ entries := h.indexed.held i hi v hs
  have hp := h.distinct.perm_cons_without hmem
  have hset : {w | w ∈ entries} \ {v} = {w | w ∈ without tr (tr.extract v) entries} := by
    ext w
    exact (h.distinct.mem_without hmem).symm
  have hid := h.indexed.delete hi hs
  rw [hset] at hid
  have hu := usedSlots_update buf hi .deleted
  have hd := deletedSlots_update buf hi .deleted
  have ho := h.occupied
  have hlen := hp.length_eq
  have hr := h.room
  simp only [hs, isUsed, isDeleted, toNat_true, toNat_false, length_cons] at hu hd hlen
  exact
    { h with
      table := rfl
      indexed := hid
      distinct := List.Pairwise.filter _ h.distinct
      occupied := by omega
      room := by omega }

/-! ## Iteration -/

theorem Laid.items_perm :
    ((range' 0 (2 ^ p)).filterMap fun i => (buf i).item?).Perm entries := by
  refine (perm_ext_iff_of_nodup h.indexed.items_nodup h.distinct.nodup).mpr fun v => ?_
  exact h.indexed.mem_items (covers_position p)

/-- Iteration visits each entry once. -/
theorem Laid.iterate (hc : t.keyCount = entries.length) : t.iterate.Perm entries := by
  rw [HashTable.iterate, h.table]
  simp only [hc]
  split_ifs with hz
  · rw [length_eq_zero_iff.mp hz]
  · rw [visited_eq, filterMap_filter, h.tableSize]
    refine List.Perm.trans ?_ h.items_perm
    rw [filterMap_congr]
    intro i _
    cases buf i <;> rfl

/-! ## Rehashing -/

omit h

/-- The bucket for a key that no entry has: the last deleted one that was passed, or the empty one
at which the search has ended. -/
def vacantBucket (buffer : Nat → Slot V) (p : Nat) (h : UInt32) (d : Nat) : Nat :=
  (lastDeleted (position p h) buffer d).getD (position p h d)

theorem Laid.vacant (hd : d < 2 ^ p) (hf : Found (position p (tr.hash key)) buf (sought tr key) d)
    (hem : buf (position p (tr.hash key) d) = .empty) :
    ∃ e < 2 ^ p, position p (tr.hash key) e = vacantBucket buf p (tr.hash key) d ∧
      (buf (vacantBucket buf p (tr.hash key) d)).item? = none ∧
      ∀ e' < e, buf (position p (tr.hash key) e') ≠ .empty := by
  rw [vacantBucket]
  cases hl : lastDeleted (position p (tr.hash key)) buf d with
  | none =>
    refine ⟨d, hd, rfl, ?_, fun e' he' => hf.ne_empty he'⟩
    rw [getD_none, hem]
    rfl
  | some i =>
    obtain ⟨e, he, hpos, hde⟩ := lastDeleted_eq_some hl
    refine ⟨e, by omega, hpos, ?_, fun e' he' => hf.ne_empty (by omega)⟩
    rw [getD_some, hde]
    rfl

include h in
theorem Laid.reinsert (hab : ∀ w ∈ entries, sought tr (tr.extract v) w = false)
    (hr : entries.length + 1 + deletedSlots buf (2 ^ p) < 2 ^ p) :
    ∃ j < 2 ^ p, t.reinsert tr v = some (j, { t with table := some (update buf j (.item v)) }) ∧
      (buf j).item? = none ∧
      Laid tr p { t with table := some (update buf j (.item v)) }
        (update buf j (.item v)) (v :: entries) := by
  obtain ⟨d, hd, hf⟩ := h.found (tr.extract v)
  obtain ⟨w, hw, _, hs⟩ | ⟨hem, _⟩ := h.search hf
  · rw [hab w hw] at hs
    cases hs
  obtain ⟨e, he, hpos, hv, hb⟩ := Laid.vacant hd hf hem
  have hlt := (covers_position p).lt (tr.hash (tr.extract v)) e
  have hl := h.place he (hpos ▸ hv) hb hab hr
  rw [hpos] at hlt hl
  refine ⟨_, hlt, ?_, hv, hl⟩
  have hlu : t.lookupForWriting tr (tr.extract v) =
      some (vacantBucket buf p (tr.hash (tr.extract v)) d, false) := by
    rw [lookupForWriting, h.writingLoop hd hf, hem]
    rfl
  rw [HashTable.reinsert, hlu]
  simp [h.setBucket hlt]

/-- The entries of some buckets, in their order. -/
def itemsAt (buffer : Nat → Slot V) (indices : List Nat) : List V :=
  indices.filterMap fun i => (buffer i).item?

include h in
/-- Moving the entries of some buckets to another table: they are added there, and the new place of
the bucket that is asked for is known once its entry has been moved. -/
theorem Laid.foldlM_rehashStep {old : HashTable V}
    {oldBuffer : Nat → Slot V} (e : Option Nat) {idxs : List Nat}
    (hold : ∀ i ∈ idxs, old.bucket i = some (oldBuffer i)) (hde : deletedSlots buf (2 ^ p) = 0)
    (hd : Distinct tr ((itemsAt oldBuffer idxs).reverse ++ entries))
    (hr : (itemsAt oldBuffer idxs).length + entries.length < 2 ^ p) {ne : Option Nat} {i : Nat}
    (hne : ∀ v, e = some i → oldBuffer i = .item v → i ∉ idxs →
      ∃ j < 2 ^ p, ne = some j ∧ buf j = .item v) :
    ∃ ne' buf', idxs.foldlM (rehashStep tr old e) (ne, t) =
        some (ne', { t with table := some buf' }) ∧
      Laid tr p { t with table := some buf' } buf' ((itemsAt oldBuffer idxs).reverse ++ entries) ∧
      deletedSlots buf' (2 ^ p) = 0 ∧
      ∀ v, e = some i → oldBuffer i = .item v → ∃ j < 2 ^ p, ne' = some j ∧ buf' j = .item v := by
  induction idxs generalizing t buf entries ne with
  | nil =>
    have hsf : { t with table := some buf } = t := by rw [← h.table]
    exact ⟨ne, buf, hsf ▸ rfl, hsf ▸ h, hde, fun v he hi => hne v he hi List.not_mem_nil⟩
  | cons k idxs ih =>
    have hb := hold k List.mem_cons_self
    have hrest : ∀ j ∈ idxs, old.bucket j = some (oldBuffer j) :=
      fun j hj => hold j (List.mem_cons_of_mem k hj)
    rw [List.foldlM_cons, rehashStep, hb]
    cases hs : oldBuffer k with
    | item w =>
      have hi : itemsAt oldBuffer (k :: idxs) = w :: itemsAt oldBuffer idxs :=
        List.filterMap_cons_some (hs ▸ rfl)
      rw [hi, List.reverse_cons, List.append_assoc, List.singleton_append] at hd ⊢
      rw [hi, List.length_cons] at hr
      have hab : ∀ u ∈ entries, sought tr (tr.extract w) u = false := by
        have hp := (List.pairwise_append.mp hd).2.1
        exact fun u hu => symm_false ((List.pairwise_cons.mp hp).1 u hu)
      obtain ⟨j, hj, hre, hv, hlai⟩ := h.reinsert hab (by omega)
      have hd' : deletedSlots (Function.update buf j (.item w)) (2 ^ p) = 0 := by
        have := deletedSlots_update buf hj (.item w)
        simp only [isDeleted, Bool.toNat_false] at this
        omega
      simp only [hre, Option.bind_eq_bind, Option.bind_some, Option.pure_def]
      refine ih hlai hrest hd' hd (by simp only [List.length_cons]; omega) fun v he hit hno => ?_
      by_cases hk : k = i
      · subst hk
        rw [hs, item.injEq] at hit
        exact ⟨j, hj, if_pos he, by rw [Function.update_self, hit]⟩
      · obtain ⟨l, hl, hnel, hbl⟩ := hne v he hit (by simp [Ne.symm hk, hno])
        refine ⟨l, hl, ?_, ?_⟩
        · rw [if_neg (by simp [he, Ne.symm hk]), hnel]
        · rw [Function.update_of_ne, hbl]
          rintro rfl
          rw [hbl] at hv
          cases hv
    | _ =>
      have hi : itemsAt oldBuffer (k :: idxs) = itemsAt oldBuffer idxs :=
        List.filterMap_cons_none (hs ▸ rfl)
      rw [hi] at hd hr ⊢
      refine ih h hrest hde hd hr fun v he hit hno => hne v he hit ?_
      rintro (_ | ⟨_, hmem⟩)
      · rw [hs] at hit
        cases hit
      · exact hno hmem

theorem reallocated_laid {q : Nat} (t : HashTable V) (hq : q ≤ 30) :
    Laid tr q (t.reallocated (2 ^ q)) (fun _ => .empty) [] where
  table := rfl
  le := hq
  tableSize := rfl
  tableSizeMask := two_pow_mask (by omega)
  indexed := by simpa using indexed_empty
  distinct := List.Pairwise.nil
  occupied := by simp [usedSlots, deletedSlots, isUsed, isDeleted]
  room := by
    simp only [usedSlots, isUsed, false_eq_true, Nat.count_false]
    exact Nat.two_pow_pos q

structure Stored (traits : HashTraits K V) (p : Nat) (t : HashTable V) (buffer : Nat → Slot V)
    (entries : List V) : Prop extends Laid traits p t buffer entries where
  minimum : traits.minimumTableSize ≤ 2 ^ p
  keyCount : t.keyCount = entries.length
  deletedCount : t.deletedCount = deletedSlots buffer (2 ^ p)

theorem Stored.rehash (h : Stored tr p t buf entries) {q : Nat} (hq : q ≤ 30)
    (hmin : tr.minimumTableSize ≤ 2 ^ q) (hro : entries.length < 2 ^ q) (e : Option Nat)
    (hi : i < 2 ^ p) :
    ∃ ne t' buf', t.rehash tr (2 ^ q) e = some (ne, t') ∧
      Stored tr q t' buf' entries ∧ t'.deletedCount = 0 ∧
      ∀ v, e = some i → buf i = .item v → ∃ j < 2 ^ q, ne = some j ∧ buf' j = .item v := by
  have hp : (itemsAt buf (range' 0 (2 ^ p))).Perm entries := h.items_perm
  have hr : ((itemsAt buf (range' 0 (2 ^ p))).reverse ++ []).Perm entries := by
    rw [append_nil]
    exact (reverse_perm _).trans hp
  have hold : ∀ i ∈ range' 0 (2 ^ p), t.bucket i = some (buf i) :=
    fun i hi => h.bucket (by simpa using hi)
  obtain ⟨ne, buf', hf, hl, hd, ht⟩ :=
    (reallocated_laid t hq).foldlM_rehashStep e hold (by simp [deletedSlots, isDeleted])
      ((hr.pairwise_iff symm_false).mpr h.distinct) (by rw [hp.length_eq]; exact hro)
      fun _ _ _ hno => absurd (by simpa using hi) hno
  refine ⟨ne, { t.reallocated (2 ^ q) with table := some buf', deletedCount := 0 }, buf',
    ?_, ⟨(hl.perm hr).of_fields rfl rfl rfl, hmin, h.keyCount, hd.symm⟩, rfl, ht⟩
  rw [HashTable.rehash, h.tableSize, range_eq_range', hf]
  rfl

end

end HashTable

end JavaScriptCore.Wtf
