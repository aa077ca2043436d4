import JavaScriptCore.Wtf.HashTable.TableSpec

/-!
# The load of a `HashTable`

Between two operations less than half of the buckets are in use, and during one at most half. With
fewer than `2 ^ 28` entries the sizes stay at `2 ^ 30` or below, where none of the 32-bit products
that the thresholds compare wraps.
-/

namespace JavaScriptCore.Wtf

open JavaScriptCore.Collections List Function Bool

namespace HashTable

variable {K V : Type} {tr : HashTraits K V} {p : Nat} {t : HashTable V}
  {buf : Nat → Slot V} {entries : List V}

theorem two_pow_le {p : Nat} (hp : p ≤ 30) : 2 ^ p ≤ 2 ^ 30 := Nat.pow_le_pow_right (by decide) hp

/-! ## Thresholds -/

theorem Stored.shouldExpand (h : Stored tr p t buf entries)
    (hl : 2 * (entries.length + t.deletedCount) ≤ 2 ^ p) :
    t.shouldExpand = true ↔ 2 ^ p ≤ 2 * (entries.length + t.deletedCount) := by
  have hpow := two_pow_le h.le
  rw [HashTable.shouldExpand, h.keyCount, h.tableSize, maxLoad, Nat.mod_eq_of_lt (by omega),
    decide_eq_true_eq, mul_comm]

theorem Stored.mustRehashInPlace (h : Stored tr p t buf entries) (hlen : entries.length < 2 ^ 28) :
    t.mustRehashInPlace = true ↔ entries.length * 6 < 2 ^ p * 2 := by
  have hpow := two_pow_le h.le
  rw [HashTable.mustRehashInPlace, h.keyCount, h.tableSize, minLoad,
    Nat.mod_eq_of_lt (a := entries.length * 6) (by omega),
    Nat.mod_eq_of_lt (a := 2 ^ p * 2) (by omega), decide_eq_true_eq]

theorem Stored.shouldShrink (h : Stored tr p t buf entries) (hlen : entries.length < 2 ^ 28) :
    t.shouldShrink tr = true ↔ entries.length * 6 < 2 ^ p ∧ tr.minimumTableSize < 2 ^ p := by
  rw [HashTable.shouldShrink, h.keyCount, h.tableSize, minLoad, Nat.mod_eq_of_lt (by omega),
    and_eq_true, decide_eq_true_eq, decide_eq_true_eq]

/-- What an operation leaves: a table whose counts are right, with less than half of its buckets in
use. -/
structure Settled (traits : HashTraits K V) (p : Nat) (t : HashTable V) (buffer : Nat → Slot V)
    (entries : List V) : Prop extends Stored traits p t buffer entries where
  load : 2 * (entries.length + t.deletedCount) < 2 ^ p

variable {v : V}

/-- Expanding leaves less than half of the buckets in use, and tells where an entry has gone. -/
theorem Stored.expand (h : Stored tr p t buf entries)
    (hl : 2 * (entries.length + t.deletedCount) ≤ 2 ^ p) (hlen : entries.length < 2 ^ 28)
    {i : Nat} (hi : i < 2 ^ p) (hsl : buf i = .item v) :
    ∃ q j t' buf', t.expand tr (some i) = some (some j, t') ∧
      Settled tr q t' buf' entries ∧ j < 2 ^ q ∧ buf' j = .item v := by
  have hn : t.tableSize ≠ 0 := by
    rw [h.tableSize]
    exact (Nat.two_pow_pos p).ne'
  have hsz : ∃ q, q ≤ 30 ∧ p ≤ q ∧ 2 * entries.length < 2 ^ q ∧
      t.expand tr (some i) = t.rehash tr (2 ^ q) (some i) := by
    rw [HashTable.expand]
    simp only [if_neg hn]
    split_ifs with hpl
    · refine ⟨p, h.le, Nat.le_refl p, ?_, ?_⟩
      · have := (h.mustRehashInPlace hlen).mp hpl
        omega
      · rw [h.tableSize]
    · have hfew : 2 ^ p * 2 ≤ entries.length * 6 :=
        Nat.le_of_not_lt fun hlt => hpl ((h.mustRehashInPlace hlen).mpr hlt)
      have hp : p < 30 := (Nat.pow_lt_pow_iff_right Nat.one_lt_two).mp (by omega : 2 ^ p < 2 ^ 30)
      have hdo : 2 ^ (p + 1) = 2 ^ p * 2 := pow_succ 2 p
      refine ⟨p + 1, hp, Nat.le_succ p, by omega, ?_⟩
      rw [h.tableSize, Nat.mod_eq_of_lt (by omega), hdo]
  obtain ⟨q, hq, hpq, hh, he⟩ := hsz
  have hpow : 2 ^ p ≤ 2 ^ q := Nat.pow_le_pow_right (by decide) hpq
  obtain ⟨newEntry, t', buf', hr, hs, hd, ht⟩ :=
    h.rehash hq (Nat.le_trans h.minimum hpow) (by omega) (some i) hi
  obtain ⟨j, hj, rfl, hit⟩ := ht v rfl hsl
  refine ⟨q, j, t', buf', he.trans hr, ⟨hs, ?_⟩, hj, hit⟩
  rw [hd]
  exact hh

/-- After removals the table may be halved. -/
theorem Stored.shrinkIfNeeded (h : Stored tr p t buf entries)
    (hlo : 2 * (entries.length + t.deletedCount) < 2 ^ p) (hlen : entries.length < 2 ^ 28) :
    ∃ q t' buf', t.shrinkIfNeeded tr = some t' ∧ Settled tr q t' buf' entries := by
  rw [HashTable.shrinkIfNeeded]
  split_ifs with hsh
  · obtain ⟨hfew, hl⟩ := (h.shouldShrink hlen).mp hsh
    obtain ⟨m, hm, _, hmin⟩ := tr.powerOfTwo
    rw [hmin] at hl
    have hmp : m < p := (Nat.pow_lt_pow_iff_right Nat.one_lt_two).mp hl
    obtain ⟨q, rfl⟩ : ∃ q, p = q + 1 := ⟨p - 1, by omega⟩
    have hdo : 2 ^ (q + 1) = 2 ^ q * 2 := pow_succ 2 q
    have hle : tr.minimumTableSize ≤ 2 ^ q := by
      rw [hmin]
      exact Nat.pow_le_pow_right (by decide) (by omega)
    have hq : q ≤ 30 := by
      have := h.le
      omega
    obtain ⟨newEntry, t', buf', hr, hs, hd, _⟩ :=
      h.rehash hq hle (by omega) none (Nat.two_pow_pos _)
    refine ⟨q, t', buf', ?_, hs, by rw [hd]; omega⟩
    rw [shrink, h.tableSize, hdo, Nat.mul_div_cancel _ (by decide), hr]
    rfl
  · exact ⟨p, t, buf, rfl, h, hlo⟩

/-! ## Adding an entry -/

theorem Stored.two_pow_eq (h : Stored tr p t buf entries) : ∃ half, 2 ^ p = 2 * half := by
  obtain ⟨m, hm, _, hmin⟩ := tr.powerOfTwo
  have hmp : m ≤ p := (Nat.pow_le_pow_iff_right Nat.one_lt_two).mp (hmin ▸ h.minimum)
  exact ⟨2 ^ (p - 1), by rw [← pow_succ', Nat.sub_add_cancel (by omega)]⟩

/-- The new entry is in the bucket of the result. -/
def Placed (traits : HashTraits K V) (entries : List V) (v : V) (result : Option (AddResult V)) :
    Prop :=
  ∃ p j t' buffer', result = some ⟨some j, true, t'⟩ ∧ Settled traits p t' buffer' entries ∧
    j < 2 ^ p ∧ buffer' j = .item v

/-- What `finishAdd` does when the entry has its bucket. -/
theorem finishAdd_spec {t : HashTable V} {j : Nat}
    (hset : t.setBucket j (.item v) = some { t with table := some buf })
    (h : Stored tr p { t with table := some buf, keyCount := t.keyCount + 1 } buf
      entries)
    (hj : j < 2 ^ p) (hsl : buf j = .item v)
    (hl : 2 * (entries.length + t.deletedCount) ≤ 2 ^ p) (hlen : entries.length < 2 ^ 28) :
    Placed tr entries v (finishAdd tr t j v) := by
  rw [finishAdd, hset]
  simp only [Option.bind_eq_bind, Option.bind_some]
  split_ifs with hsm
  · obtain ⟨q, j', t', buf', he, hs, hj', hs'⟩ := h.expand hl hlen hj hsl
    refine ⟨q, j', t', buf', ?_, hs, hj', hs'⟩
    rw [he]
    rfl
  · refine ⟨p, j, _, buf, rfl, ⟨h, ?_⟩, hj, hsl⟩
    exact Nat.lt_of_not_le fun hle => hsm ((h.shouldExpand hl).mpr hle)

/-- A bucket on the way from a hash to the first empty bucket, or that one. -/
def Reachable (p : Nat) (buffer : Nat → Slot V) (h : UInt32) (j : Nat) : Prop :=
  ∃ e < 2 ^ p, position p h e = j ∧ ∀ e' < e, buffer (position p h e') ≠ .empty

section

variable {key : K} {v : V} {j : Nat} (h : Settled tr p t buf entries)

include h

theorem Settled.place (hkey : sought tr key v = true) (hab : ∀ w ∈ entries, sought tr key w = false)
    (hr : Reachable p buf (tr.hash key) j) (hv : (buf j).item? = none) :
    j < 2 ^ p ∧ Laid tr p { t with table := some (update buf j (.item v)) }
      (update buf j (.item v)) (v :: entries) := by
  obtain ⟨e, he, rfl, hb⟩ := hr
  have hh : tr.hash key = tr.hash (tr.extract v) := (tr.compatible _ _ hkey).symm
  have hlt := (covers_position p).lt (tr.hash key) e
  rw [hh] at hlt hv hb ⊢
  refine ⟨hlt, h.toLaid.place he hv hb (fun w hw => ?_) ?_⟩
  · rw [eq_false_iff]
    intro heq
    have := hab w hw
    rw [sought, tr.equivalence.trans heq hkey] at this
    cases this
  · obtain ⟨half, hha⟩ := h.two_pow_eq
    have hl := h.load
    have hd := h.deletedCount
    omega

variable (hkey : sought tr key v = true) (hab : ∀ w ∈ entries, sought tr key w = false)
    (hlen : entries.length + 1 < 2 ^ 28) (hr : Reachable p buf (tr.hash key) j)

include hkey hab hlen hr

theorem Settled.addToEmpty (he : buf j = .empty) :
    Placed tr (v :: entries) v (finishAdd tr t j v) := by
  obtain ⟨hj, hl⟩ := h.place hkey hab hr (he ▸ rfl)
  have hd := deletedSlots_update buf hj (.item v)
  simp only [he, Slot.isDeleted, toNat_false, add_zero] at hd
  obtain ⟨half, hh⟩ := h.two_pow_eq
  have hlo := h.load
  refine finishAdd_spec (h.setBucket hj _) ⟨hl.of_fields rfl rfl rfl, h.minimum, ?_, ?_⟩ hj
    (update_self ..) ?_ hlen
  · exact congrArg (· + 1) h.keyCount
  · exact h.deletedCount.trans hd.symm
  · simp only [length_cons]
    omega

theorem Settled.addToDeleted (hs : buf j = .deleted) :
    Placed tr (v :: entries) v ((t.setBucket j .empty).bind fun t =>
      finishAdd tr { t with deletedCount := t.deletedCount - 1 } j v) := by
  obtain ⟨hj, hl⟩ := h.place hkey hab hr (hs ▸ rfl)
  have hd := deletedSlots_update buf hj (.item v)
  simp only [hs, Slot.isDeleted, toNat_false, toNat_true, add_zero] at hd
  have hc := h.deletedCount
  have hlo := h.load
  have hset : HashTable.setBucket { t with
        table := some (update buf j .empty)
        deletedCount := t.deletedCount - 1 } j (.item v) =
      some { t with
        table := some (update buf j (.item v))
        deletedCount := t.deletedCount - 1 } := by
    rw [HashTable.setBucket, Option.bind_some, update_idem, if_pos (by rw [h.tableSize]; exact hj)]
  have hsd : Stored tr p { t with
      table := some (update buf j (.item v))
      deletedCount := t.deletedCount - 1
      keyCount := t.keyCount + 1 } (update buf j (.item v)) (v :: entries) := by
    refine ⟨hl.of_fields rfl rfl rfl, h.minimum, congrArg (· + 1) h.keyCount, ?_⟩
    show t.deletedCount - 1 = _
    omega
  rw [h.setBucket hj, Option.bind_some]
  refine finishAdd_spec hset hsd hj (update_self ..) ?_ hlen
  simp only [length_cons]
  omega

end

/-- A table without buckets, or one that has settled. -/
def Represents (traits : HashTraits K V) (t : HashTable V) (entries : List V) : Prop :=
  t = empty ∧ entries = [] ∨ ∃ p buffer, Settled traits p t buffer entries

theorem Settled.ensureTable (h : Settled tr p t buf entries) :
    t.ensureTable tr = some t := by
  rw [HashTable.ensureTable, h.table]
  rfl

variable (h : Represents tr t entries)

include h in
theorem Represents.ensureTable :
    ∃ p t' buf, t.ensureTable tr = some t' ∧ Settled tr p t' buf entries := by
  obtain ⟨rfl, rfl⟩ | ⟨p, buf, hs⟩ := h
  · obtain ⟨m, hm, hm', hmin⟩ := tr.powerOfTwo
    have hl : Laid tr m ((empty : HashTable V).reallocated (2 ^ m)) (fun _ => .empty) [] :=
      reallocated_laid empty hm'
    refine ⟨m, _, fun _ => .empty, ?_, ⟨hl, le_of_eq hmin, rfl, ?_⟩, ?_⟩
    · rw [HashTable.ensureTable, HashTable.expand, hmin]
      rfl
    · simp [deletedSlots, Slot.isDeleted, reallocated, empty]
    · exact Nat.two_pow_pos m
  · exact ⟨p, t, buf, hs.ensureTable, hs⟩

/-- The iterator of the result denotes the entry of the key: the one that was there, or the new
one. -/
def Added (traits : HashTraits K V) (entries : List V) (key : K) (v : V)
    (result : Option (AddResult V)) : Prop :=
  ∃ p j t' buffer' isNewEntry w, result = some ⟨some j, isNewEntry, t'⟩ ∧ j < 2 ^ p ∧
    buffer' j = .item w ∧ sought traits key w = true ∧
    (isNewEntry = false ∧ w ∈ entries ∧ Settled traits p t' buffer' entries ∨
      isNewEntry = true ∧ w = v ∧ (∀ u ∈ entries, sought traits key u = false) ∧
        Settled traits p t' buffer' (v :: entries))

theorem Placed.added {key : K} {result : Option (AddResult V)}
    (h : Placed tr (v :: entries) v result) (hkey : sought tr key v = true)
    (hab : ∀ w ∈ entries, sought tr key w = false) : Added tr entries key v result := by
  obtain ⟨p, j, t', buf', hr, hs, hj, hsl⟩ := h
  exact ⟨p, j, t', buf', true, v, hr, hj, hsl, hkey, .inr ⟨rfl, rfl, hab, hs⟩⟩

/-- The three ends of the loop of `add`: at the entry of the key, at an empty bucket, or at one
after a deleted bucket that can be used again. -/
theorem Settled.writingLoop_cases (h : Settled tr p t buf entries) (key : K) :
    (∃ j deletedEntry w, t.writingLoop tr key = some ⟨j, deletedEntry, true⟩ ∧ j < 2 ^ p ∧
      buf j = .item w ∧ w ∈ entries ∧ sought tr key w = true) ∨
    (∀ w ∈ entries, sought tr key w = false) ∧
      ((∃ j < 2 ^ p, t.writingLoop tr key = some ⟨j, none, false⟩ ∧ buf j = .empty ∧
        Reachable p buf (tr.hash key) j) ∨
      ∃ i, ∃ j < 2 ^ p, t.writingLoop tr key = some ⟨i, some j, false⟩ ∧
        buf j = .deleted ∧ Reachable p buf (tr.hash key) j) := by
  obtain ⟨d, hd, hf⟩ := h.found key
  have hlt := (covers_position p).lt (tr.hash key)
  have hl := h.writingLoop hd hf
  obtain ⟨w, hw, hs, hsou⟩ | ⟨hem, hab⟩ := h.search hf
  · rw [hs] at hl
    exact .inl ⟨_, _, w, hl, hlt d, hs, hw, hsou⟩
  rw [hem] at hl
  refine .inr ⟨hab, ?_⟩
  cases hla : lastDeleted (position p (tr.hash key)) buf d with
  | none =>
    rw [hla] at hl
    exact .inl ⟨_, hlt d, hl, hem, d, hd, rfl, fun e' he' => hf.ne_empty he'⟩
  | some j =>
    rw [hla] at hl
    obtain ⟨e, he, rfl, hde⟩ := lastDeleted_eq_some hla
    exact .inr ⟨_, _, hlt e, hl, hde, e, by omega, rfl, fun e' he' => hf.ne_empty (by omega)⟩

include h

theorem Represents.add {key : K}
    (hkey : sought tr key v = true) (hlen : entries.length + 1 < 2 ^ 28) :
    Added tr entries key v (t.add tr key v) := by
  obtain ⟨p, u, buf, he, hs⟩ := h.ensureTable
  rw [HashTable.add, he]
  simp only [Option.bind_eq_bind, Option.bind_some]
  obtain ⟨j, _, w, hl, hj, hsl, hw, hsou⟩ | ⟨hab, hv⟩ := hs.writingLoop_cases key
  · rw [hl]
    exact ⟨p, j, u, buf, false, w, rfl, hj, hsl, hsou, .inl ⟨rfl, hw, hs⟩⟩
  obtain ⟨j, hj, hl, hsl, hr⟩ | ⟨i, j, hj, hl, hsl, hr⟩ := hv
  · rw [hl]
    exact (hs.addToEmpty hkey hab hlen hr hsl).added hkey hab
  · rw [hl]
    exact (hs.addToDeleted hkey hab hlen hr hsl).added hkey hab

theorem Represents.addPassingHashCode {key : K}
    (hkey : sought tr key v = true) (hlen : entries.length + 1 < 2 ^ 28) :
    Added tr entries key v (t.addPassingHashCode tr key v) := by
  obtain ⟨p, u, buf, he, hs⟩ := h.ensureTable
  rw [HashTable.addPassingHashCode, he]
  simp only [Option.bind_eq_bind, Option.bind_some, lookupForWriting]
  obtain ⟨j, _, w, hl, hj, hsl, hw, hsou⟩ | ⟨hab, hv⟩ := hs.writingLoop_cases key
  · rw [hl]
    exact ⟨p, j, u, buf, false, w, rfl, hj, hsl, hsou, .inl ⟨rfl, hw, hs⟩⟩
  obtain ⟨j, hj, hl, hsl, hr⟩ | ⟨i, j, hj, hl, hsl, hr⟩ := hv
  · simp only [hl, Option.bind_some, false_eq_true, if_false, Option.pure_def,
      Option.getD_none, hs.bucket hj, hsl]
    exact (hs.addToEmpty hkey hab hlen hr hsl).added hkey hab
  · simp only [hl, Option.bind_some, false_eq_true, if_false, Option.pure_def,
      Option.getD_some, hs.bucket hj, hsl]
    exact (hs.addToDeleted hkey hab hlen hr hsl).added hkey hab

/-! ## Looking up and removing -/

theorem Represents.lookup (key : K) :
    (∃ i v, t.lookup tr key = some (some i) ∧ t.bucket i = some (.item v) ∧ v ∈ entries ∧
      sought tr key v = true) ∨
    t.lookup tr key = some none ∧ ∀ v ∈ entries, sought tr key v = false := by
  obtain ⟨rfl, rfl⟩ | ⟨p, buf, hs⟩ := h
  · exact .inr ⟨rfl, by simp⟩
  obtain ⟨d, hd, hf⟩ := hs.found key
  have hl := hs.lookup hd hf
  have hlt := (covers_position p).lt (tr.hash key) d
  obtain ⟨v, hv, hsl, hsou⟩ | ⟨he, hab⟩ := hs.search hf
  · rw [hsl] at hl
    exact .inl ⟨_, v, hl, by rw [hs.bucket hlt, hsl], hv, hsou⟩
  · rw [he] at hl
    exact .inr ⟨hl, hab⟩

omit h

/-- Keys equal to each other select the same entries. -/
theorem without_congr {a b : K} (h : tr.equal a b = true) (entries : List V) :
    without tr a entries = without tr b entries := by
  refine filter_congr fun v _ => ?_
  have hiff : sought tr a v = true ↔ sought tr b v = true :=
    ⟨fun ha => tr.equivalence.trans ha h, fun hb => tr.equivalence.trans hb (tr.equivalence.symm h)⟩
  rw [Bool.eq_iff_iff.mpr hiff]

theorem Settled.removeAt (h : Settled tr p t buf entries)
    (hlen : entries.length < 2 ^ 28) {i : Nat} (hi : i < 2 ^ p) (hs : buf i = .item v) :
    ∃ q t' buf', t.removeAt tr i = some t' ∧
      Settled tr q t' buf' (without tr (tr.extract v) entries) := by
  have hl := h.erase hi hs
  have hmem : v ∈ entries := h.indexed.held i hi v hs
  have hc := (h.distinct.perm_cons_without hmem).length_eq
  have hd := deletedSlots_update buf hi .deleted
  simp only [hs, Slot.isDeleted, toNat_false, toNat_true, length_cons] at hc hd
  have hsd : Stored tr p { t with
      table := some (update buf i .deleted)
      deletedCount := t.deletedCount + 1
      keyCount := t.keyCount - 1 } (update buf i .deleted)
      (without tr (tr.extract v) entries) := by
    refine ⟨hl.of_fields rfl rfl rfl, h.minimum, ?_, ?_⟩
    · show t.keyCount - 1 = _
      rw [h.keyCount]
      omega
    · show t.deletedCount + 1 = _
      rw [h.deletedCount]
      omega
  obtain ⟨q, t', buf', hsh, hse⟩ := hsd.shrinkIfNeeded (by
    have := h.load
    simp only
    omega) (by omega)
  refine ⟨q, t', buf', ?_, hse⟩
  rw [HashTable.removeAt, h.setBucket hi]
  exact hsh

include h in
theorem Represents.remove (hlen : entries.length < 2 ^ 28) (key : K) :
    ∃ t', t.remove tr key = some t' ∧ Represents tr t' (without tr key entries) := by
  obtain ⟨i, v, hl, hb, hv, hsou⟩ | ⟨hl, hab⟩ := h.lookup key
  · obtain ⟨rfl, rfl⟩ | ⟨p, buf, hs⟩ := h
    · cases hv
    obtain ⟨hi, hsl⟩ := hs.of_bucket hb
    obtain ⟨q, t', buf', hr, hs'⟩ := hs.removeAt hlen hi hsl
    refine ⟨t', ?_, .inr ⟨q, buf', ?_⟩⟩
    · rw [HashTable.remove, hl]
      exact hr
    · rw [← without_congr hsou]
      exact hs'
  · refine ⟨t, ?_, ?_⟩
    · rw [HashTable.remove, hl]
      rfl
    · have hall : without tr key entries = entries :=
        filter_eq_self.mpr fun v hv => by simp [hab v hv]
      rw [hall]
      exact h

/-- The entries of some buckets that satisfy the functor are given up. -/
theorem Laid.foldlM_removeIfStep (h : Laid tr p t buf entries) (f : V → Bool)
    {ids : List Nat} (hnd : ids.Nodup) (hlt : ∀ i ∈ ids, i < 2 ^ p) (rem : Nat) :
    ∃ buf' es' rem', ids.foldlM (removeIfStep f) (t, rem) =
        some ({ t with table := some buf' }, rem') ∧
      Laid tr p { t with table := some buf' } buf' es' ∧
      rem' + es'.length = rem + entries.length ∧
      deletedSlots buf' (2 ^ p) + rem = deletedSlots buf (2 ^ p) + rem' ∧
      ∀ v, v ∈ es' ↔ v ∈ entries ∧ (f v = false ∨ ∀ i ∈ ids, buf i ≠ .item v) := by
  induction ids generalizing t buf entries rem with
  | nil =>
    have hsf : { t with table := some buf } = t := by rw [← h.table]
    exact ⟨buf, entries, rem, hsf ▸ rfl, hsf ▸ h, rfl, rfl, by simp⟩
  | cons i ids ih =>
    obtain ⟨hfr, hnd⟩ := nodup_cons.mp hnd
    have hi := hlt i mem_cons_self
    have hr : ∀ j ∈ ids, j < 2 ^ p := fun j hj => hlt j (mem_cons_of_mem i hj)
    by_cases hg : ∃ v, buf i = .item v ∧ f v = true
    · obtain ⟨v, hs, hv⟩ := hg
      have hl := h.erase hi hs
      have hmem : v ∈ entries := h.indexed.held i hi v hs
      have hp := h.distinct.perm_cons_without hmem
      have hc := hp.length_eq
      have hd := deletedSlots_update buf hi .deleted
      simp only [hs, Slot.isDeleted, toNat_false, toNat_true, length_cons] at hc hd
      have hst : removeIfStep f (t, rem) i =
          some ({ t with table := some (update buf i .deleted) }, rem + 1) := by
        rw [removeIfStep, h.bucket hi, hs]
        simp [hv, h.setBucket hi]
      obtain ⟨buf', es', rem', hfo, hl', hlen, hm, hk⟩ := ih hl hnd hr (rem + 1)
      refine ⟨buf', es', rem', ?_, hl', by omega, by omega, fun w => ?_⟩
      · rw [foldlM_cons, hst]
        exact hfo
      have hos : ∀ j ∈ ids, update buf i .deleted j = buf j :=
        fun j hj => update_of_ne (fun heq : j = i => hfr (heq ▸ hj)) ..
      rw [hk, h.distinct.mem_without hmem, forall_mem_cons]
      constructor
      · rintro ⟨⟨hw, hne⟩, hfa | hn⟩
        · exact ⟨hw, .inl hfa⟩
        · refine ⟨hw, .inr ⟨?_, fun j hj => hos j hj ▸ hn j hj⟩⟩
          rw [hs]
          exact fun heq => hne (Slot.item.inj heq).symm
      · rintro ⟨hw, hfa | ⟨hh, hn⟩⟩
        · refine ⟨⟨hw, ?_⟩, .inl hfa⟩
          rintro rfl
          rw [hv] at hfa
          cases hfa
        · refine ⟨⟨hw, ?_⟩, .inr fun j hj => (hos j hj).symm ▸ hn j hj⟩
          rintro rfl
          exact hh hs
    · have hst : removeIfStep f (t, rem) i = some (t, rem) := by
        rw [removeIfStep, h.bucket hi]
        cases hs : buf i with
        | item v =>
          have hv : f v = false := by
            rw [eq_false_iff]
            exact fun hv => hg ⟨v, hs, hv⟩
          simp [hv]
        | _ => rfl
      obtain ⟨buf', es', rem', hfo, hl', hlen, hm, hk⟩ := ih h hnd hr rem
      refine ⟨buf', es', rem', ?_, hl', hlen, hm, fun w => ?_⟩
      · rw [foldlM_cons, hst]
        exact hfo
      rw [hk, forall_mem_cons]
      constructor
      · rintro ⟨hw, hfa | hn⟩
        · exact ⟨hw, .inl hfa⟩
        · by_cases hh : buf i = .item w
          · exact ⟨hw, .inl (eq_false_iff.mpr fun hf => hg ⟨w, hh, hf⟩)⟩
          · exact ⟨hw, .inr ⟨hh, hn⟩⟩
      · rintro ⟨hw, hfa | ⟨_, hn⟩⟩
        · exact ⟨hw, .inl hfa⟩
        · exact ⟨hw, .inr hn⟩

include h in
theorem Represents.removeIf (hlen : entries.length < 2 ^ 28) (f : V → Bool) :
    ∃ t', t.removeIf tr f = some (entries.any f, t') ∧
      Represents tr t' (entries.filter fun v => !f v) := by
  obtain ⟨rfl, rfl⟩ | ⟨p, buf, hs⟩ := h
  · exact ⟨empty, rfl, .inl ⟨rfl, rfl⟩⟩
  obtain ⟨buf', es', rem, hf, hl, hc, hm, hk⟩ :=
    hs.foldlM_removeIfStep f (nodup_reverse.mpr nodup_range) (fun i hi => by simpa using hi) 0
  have hp : es'.Perm (entries.filter fun v => !f v) := by
    refine (perm_ext_iff_of_nodup hl.distinct.nodup (hs.distinct.nodup.filter _)).mpr fun v => ?_
    rw [hk, mem_filter, not_eq_true']
    refine and_congr_right fun hv => or_iff_left fun hn => ?_
    -- every entry has a bucket
    obtain ⟨d, _, hit, _⟩ := hs.indexed.reached v hv
    exact hn _ (by simpa using (covers_position p).lt _ d) hit
  have hl' := hl.perm hp
  have hlen' := hp.length_eq
  have hsd : Stored tr p { t with
      table := some buf'
      deletedCount := t.deletedCount + rem
      keyCount := t.keyCount - rem } buf' (entries.filter fun v => !f v) := by
    refine ⟨hl'.of_fields rfl rfl rfl, hs.minimum, ?_, ?_⟩
    · show t.keyCount - rem = _
      rw [hs.keyCount]
      omega
    · show t.deletedCount + rem = _
      rw [hs.deletedCount]
      omega
  obtain ⟨q, t', buffer'', hsh, hs'⟩ := hsd.shrinkIfNeeded (by
    have := hs.load
    simp only
    omega) (by omega)
  have hany : (decide (rem ≠ 0)) = entries.any f := by
    have hn : rem = 0 ↔ ∀ v ∈ entries, f v = false := by
      simp only [← not_eq_true', ← length_filter_eq_length_iff]
      omega
    rw [Bool.eq_iff_iff, decide_eq_true_eq, Ne, hn, any_eq_true]
    simp
  refine ⟨t', ?_, .inr ⟨q, buffer'', hs'⟩⟩
  rw [HashTable.removeIf, hs.tableSize, hf]
  simp only [Option.bind_eq_bind, Option.bind_some, hsh, hany, Option.pure_def]

/-! ## Copying -/

theorem copySize_eq (tr : HashTraits K V) {n : Nat} (hpos : 0 < n) (hmax : n < 2 ^ 28) :
    ∃ q, q ≤ 30 ∧ copySize tr n = 2 ^ q ∧ 2 * n < 2 ^ q ∧ tr.minimumTableSize ≤ 2 ^ q := by
  obtain ⟨m, hm, hm', hmin⟩ := tr.powerOfTwo
  have hle : n ≤ 2 ^ Nat.clog 2 n := Nat.le_pow_clog (by decide) _
  have hcl : Nat.clog 2 n ≤ 28 := Nat.clog_le_of_le_pow (by omega)
  have hpow : 2 ^ Nat.clog 2 n ≤ 2 ^ 28 := Nat.pow_le_pow_right (by decide) hcl
  generalize hc : Nat.clog 2 n = c at hle hcl hpow
  have hr : roundUpToPowerOfTwo n = 2 ^ c := by
    rw [roundUpToPowerOfTwo_eq hpos (by omega), hc]
  have hbe : ∃ b, b ≤ 30 ∧ 2 * n < 2 ^ b ∧ copySize tr n = max (2 ^ b) (2 ^ m) := by
    have hone : 2 ^ (c + 1) = 2 ^ c * 2 := pow_succ 2 c
    have htwo : 2 ^ (c + 2) = 2 ^ c * 2 * 2 := by rw [pow_succ, hone]
    rw [copySize, hr, hmin]
    simp only [Nat.mod_eq_of_lt (show 2 ^ c * 2 < 2 ^ 32 by omega),
      Nat.mod_eq_of_lt (show n * 12 < 2 ^ 32 by omega),
      Nat.mod_eq_of_lt (show 2 ^ c * 2 * 5 < 2 ^ 32 by omega),
      Nat.mod_eq_of_lt (show 2 ^ c * 2 * 2 < 2 ^ 32 by omega)]
    split
    · exact ⟨c + 2, by omega, by omega, by rw [htwo]⟩
    · exact ⟨c + 1, by omega, by omega, by rw [hone]⟩
  obtain ⟨b, hb, hh, hs⟩ := hbe
  rw [hs, hmin]
  obtain hbm | hmb := le_total b m
  · have hle : 2 ^ b ≤ 2 ^ m := Nat.pow_le_pow_right (by decide) hbm
    exact ⟨m, hm', max_eq_right hle, by omega, le_refl _⟩
  · have hle : 2 ^ m ≤ 2 ^ b := Nat.pow_le_pow_right (by decide) hmb
    exact ⟨b, hb, max_eq_left hle, hh, hle⟩

theorem Laid.emptyStep (h : Laid tr p t buf entries) (key : UInt32) (d : Nat) :
    t.emptyStep key (position p key d) =
      if (buf (position p key d)).stops (fun _ => false) then some (.inl (position p key d))
      else some (.inr (position p key (d + 1))) := by
  have hlt := (covers_position p).lt key d
  rw [HashTable.emptyStep, h.bucket hlt, Option.bind_eq_bind, Option.bind_some]
  cases hs : buf (position p key d) with
  | empty => rfl
  | _ =>
    rw [h.nextIndex]
    rfl

theorem Laid.addUniqueForInitialization (h : Laid tr p t buf entries)
    (hab : ∀ w ∈ entries, sought tr (tr.extract v) w = false)
    (hde : deletedSlots buf (2 ^ p) = 0) (hr : entries.length + 1 < 2 ^ p) :
    ∃ buf', t.addUniqueForInitialization tr v = some { t with table := some buf' } ∧
      Laid tr p { t with table := some buf' } buf' (v :: entries) ∧
      deletedSlots buf' (2 ^ p) = 0 := by
  obtain ⟨d, hd, hf⟩ := (covers_position p).found h.exists_empty
    (tr.hash (tr.extract v)) (fun _ => false)
  have hlt := (covers_position p).lt (tr.hash (tr.extract v)) d
  have he : buf (position p (tr.hash (tr.extract v)) d) = .empty := by
    have hs := hf.stops
    cases hsl : buf (position p (tr.hash (tr.extract v)) d) with
    | empty => rfl
    | _ =>
      rw [hsl] at hs
      cases hs
  have hp : probe (t.emptyStep (tr.hash (tr.extract v))) t.tableSize
      ((tr.hash (tr.extract v)).toNat &&& t.tableSizeMask) =
      some (position p (tr.hash (tr.extract v)) d) := by
    rw [h.tableSize, h.tableSizeMask, position_zero]
    refine probe_of_trace hd (fun d' hd' => ?_) ?_
    · rw [h.emptyStep, if_neg (by simp [hf.passed d' hd'])]
    · rw [h.emptyStep, if_pos hf.stops]
  have hm := deletedSlots_update buf hlt (.item v)
  simp only [Slot.isDeleted, toNat_false] at hm
  refine ⟨_, ?_, h.place hd (he ▸ rfl) (fun e' he' => hf.ne_empty he') hab (by omega), by omega⟩
  rw [HashTable.addUniqueForInitialization]
  simp [hp, h.setBucket hlt]

theorem Laid.foldlM_addUnique (h : Laid tr p t buf entries) (values : List V)
    (hd : Distinct tr (values.reverse ++ entries)) (hde : deletedSlots buf (2 ^ p) = 0)
    (hr : values.length + entries.length < 2 ^ p) :
    ∃ buf', values.foldlM (HashTable.addUniqueForInitialization tr) t =
        some { t with table := some buf' } ∧
      Laid tr p { t with table := some buf' } buf' (values.reverse ++ entries) ∧
      deletedSlots buf' (2 ^ p) = 0 := by
  induction values generalizing t buf entries with
  | nil =>
    have hs : { t with table := some buf } = t := by rw [← h.table]
    exact ⟨buf, hs ▸ rfl, hs ▸ h, hde⟩
  | cons v values ih =>
    rw [reverse_cons, append_assoc, singleton_append] at hd ⊢
    rw [length_cons] at hr
    have hab : ∀ w ∈ entries, sought tr (tr.extract v) w = false := by
      have hp := (pairwise_append.mp hd).2.1
      exact fun w hw => symm_false ((pairwise_cons.mp hp).1 w hw)
    obtain ⟨buf', hadd, hl, hm⟩ := h.addUniqueForInitialization hab hde (by omega)
    obtain ⟨buffer'', hf, hl', hm'⟩ := ih hl hd hm (by rw [length_cons]; omega)
    refine ⟨buffer'', ?_, hl', hm'⟩
    rw [foldlM_cons, hadd]
    exact hf

include h

theorem Represents.iterate : t.iterate.Perm entries := by
  obtain ⟨rfl, rfl⟩ | ⟨p, buf, hs⟩ := h
  · exact List.Perm.nil
  · exact hs.iterate hs.keyCount

theorem Represents.size : t.size = entries.length := by
  obtain ⟨rfl, rfl⟩ | ⟨p, buf, hs⟩ := h
  · rfl
  · exact hs.keyCount

theorem Represents.distinct : Distinct tr entries := by
  obtain ⟨rfl, rfl⟩ | ⟨p, buf, hs⟩ := h
  · exact List.Pairwise.nil
  · exact hs.distinct

theorem Represents.copy (hlen : entries.length < 2 ^ 28) :
    ∃ t', t.copy tr = some t' ∧ Represents tr t' entries := by
  have hs : t.keyCount = entries.length := h.size
  rw [HashTable.copy, hs]
  split_ifs with hz
  · exact ⟨empty, rfl, .inl ⟨rfl, length_eq_zero_iff.mp hz⟩⟩
  obtain ⟨q, hq, hc, hh, hmin⟩ := copySize_eq tr (Nat.pos_of_ne_zero hz) hlen
  have hr : (t.iterate.reverse ++ []).Perm entries := by
    rw [append_nil]
    exact (reverse_perm _).trans h.iterate
  have hl : Laid tr q
      { (empty : HashTable V).reallocated (2 ^ q) with keyCount := entries.length }
      (fun _ => .empty) [] := (reallocated_laid empty hq).of_fields rfl rfl rfl
  obtain ⟨buf', hf, hl', hm⟩ := hl.foldlM_addUnique t.iterate
    ((hr.pairwise_iff symm_false).mpr h.distinct)
    (by simp [deletedSlots, Slot.isDeleted])
    (by
      rw [h.iterate.length_eq, length_nil]
      omega)
  rw [hc]
  refine ⟨_, hf, .inr ⟨q, buf', ⟨hl'.perm hr, hmin, rfl, hm.symm⟩, ?_⟩⟩
  show 2 * (entries.length + 0) < 2 ^ q
  omega

end HashTable

end JavaScriptCore.Wtf
