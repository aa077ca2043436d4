import JavaScriptCore.Collections.OpenAddressing
import JavaScriptCore.Wtf.ConcurrentPtrHashSet.Threads

/-!
# Tables of a `ConcurrentPtrHashSet`

A table only grows: a slot that is filled keeps its pointer. Every pointer is reached from the slot
that its hash selects before the first empty slot, at most half of the slots are filled, and so a
search ends, and what it has passed over stays passed over whatever other threads do.
-/

namespace JavaScriptCore.Wtf.ConcurrentPtrHashSet

open JavaScriptCore.Collections JavaScriptCore.ProgramLogic Function Nat

variable {P : Type}

def slotOf : Option P → Slot P
  | none => .empty
  | some ptr => .item ptr

theorem slotOf_eq_item {entry : Option P} {ptr : P} :
    slotOf entry = .item ptr ↔ entry = some ptr := by
  cases entry <;> simp [slotOf]

theorem slotOf_eq_empty {entry : Option P} : slotOf entry = .empty ↔ entry = none := by
  cases entry <;> simp [slotOf]

/-- The slots that a search visits in a table of `2 ^ q` slots. -/
def slotAt (q : Nat) : Nat → Nat → Nat := strided (2 ^ q) (fun start => start) (fun _ => 1)

theorem covers_slotAt (q : Nat) : Covers (slotAt q) (2 ^ q) := covers_strided q _ _ fun _ => odd_one

theorem slotAt_zero (q start : Nat) : slotAt q start 0 = start &&& (2 ^ q - 1) := by
  rw [slotAt, strided, and_two_pow_sub_one_eq_mod, Nat.zero_mul, Nat.add_zero]

theorem slotAt_ne_start {q d : Nat} (start : Nat) (hpos : 0 < d) (hd : d < 2 ^ q) :
    slotAt q start d ≠ slotAt q start 0 := by
  intro heq
  simp only [slotAt, strided, Nat.mul_one, Nat.add_zero] at heq
  have hmod := sub_mod_eq_zero_of_mod_eq heq
  rw [Nat.add_sub_cancel_left, mod_eq_of_lt hd] at hmod
  omega

namespace Table

def slots (t : Table P) (i : Nat) : Slot P := slotOf (t.array i)

/-- The pointers in the table. -/
def entries (t : Table P) : Set P := {ptr | ∃ i < t.size, t.array i = some ptr}

def used (t : Table P) : Nat := usedSlots t.slots t.size

structure WellFormed (hash : P → UInt32) (q : Nat) (t : Table P) : Prop where
  size : t.size = 2 ^ q
  small : q < 32
  indexed : Indexed (slotAt q) (2 ^ q) (fun ptr => (hash ptr).toNat) t.slots t.entries

/-- A table after other threads have filled slots. -/
structure Grows (t t' : Table P) : Prop where
  size : t'.size = t.size
  kept : ∀ i ptr, t.array i = some ptr → t'.array i = some ptr

theorem Grows.refl (t : Table P) : t.Grows t := ⟨rfl, fun _ _ h => h⟩

theorem Grows.entries {t t' : Table P} (h : t.Grows t') : t.entries ⊆ t'.entries := by
  rintro ptr ⟨i, hi, he⟩
  exact ⟨i, by rw [h.size]; exact hi, h.kept i ptr he⟩

/-- A search for `ptr` has come to `index` over slots that hold other pointers. -/
def Passed (hash : P → UInt32) (q : Nat) (t : Table P) (ptr : P) (index : Nat) : Prop :=
  ∃ d < 2 ^ q, index = slotAt q (hash ptr).toNat d ∧
    ∀ d' < d, ∃ other ≠ ptr, t.array (slotAt q (hash ptr).toNat d') = some other

variable {hash : P → UInt32} {q : Nat} {t t' : Table P} {ptr : P} {idx : Nat}

theorem Passed.grows (h : t.Passed hash q ptr idx) (hg : t.Grows t') :
    t'.Passed hash q ptr idx := by
  obtain ⟨d, hd, hi, hb⟩ := h
  refine ⟨d, hd, hi, fun d' hd' => ?_⟩
  obtain ⟨oth, hne, ho⟩ := hb d' hd'
  exact ⟨oth, hne, hg.kept _ _ ho⟩

theorem Passed.lt (h : t.Passed hash q ptr idx) : idx < 2 ^ q := by
  obtain ⟨d, _, rfl, _⟩ := h
  exact (covers_slotAt q).lt _ d

variable (h : t.WellFormed hash q)

include h

theorem WellFormed.mask_eq : t.mask = 2 ^ q - 1 := by
  have hpos := Nat.two_pow_pos q
  have hlt : 2 ^ q < 2 ^ 32 := Nat.pow_lt_pow_right (by decide) h.small
  rw [mask, h.size]
  omega

theorem WellFormed.passed_start (ptr : P) :
    t.Passed hash q ptr (t.startIndex hash ptr) := by
  refine ⟨0, Nat.two_pow_pos q, ?_, fun d' hd' => absurd hd' (Nat.not_lt_zero d')⟩
  rw [slotAt_zero, startIndex, h.mask_eq]

/-- A search ends at the slot that holds its pointer. -/
theorem WellFormed.mem_entries (hp : t.Passed hash q ptr idx)
    (he : t.array idx = some ptr) : ptr ∈ t.entries :=
  ⟨idx, by rw [h.size]; exact hp.lt, he⟩

/-- A search that comes to an empty slot has missed nothing. -/
theorem WellFormed.not_mem_of_empty
    (hp : t.Passed hash q ptr idx) (he : t.array idx = none) : ptr ∉ t.entries := by
  intro hmem
  obtain ⟨d, _, rfl, hb⟩ := hp
  obtain ⟨e, _, hi, hr⟩ := h.indexed.reached ptr hmem
  obtain hlt | heq | hgt := Nat.lt_trichotomy e d
  · obtain ⟨oth, hne, ho⟩ := hb e hlt
    rw [slotOf_eq_item.mp hi] at ho
    exact hne (Option.some.inj ho).symm
  · rw [heq] at hi
    rw [slotOf_eq_item.mp hi] at he
    cases he
  · exact hr d hgt (slotOf_eq_empty.mpr he)

/-- While a slot is empty, a search that has passed over `d` slots does not go round. -/
theorem WellFormed.next_slot (hr : t.used < 2 ^ q) {d : Nat} (hb : ∀ d' < d + 1, ∃ oth ≠ ptr,
      t.array (slotAt q (hash ptr).toNat d') = some oth) :
    d + 1 < 2 ^ q ∧
      (slotAt q (hash ptr).toNat d + 1) &&& t.mask = slotAt q (hash ptr).toNat (d + 1) ∧
      slotAt q (hash ptr).toNat (d + 1) ≠ t.startIndex hash ptr := by
  rw [used, h.size] at hr
  obtain ⟨i, hi, hem⟩ := exists_empty_slot hr
  obtain ⟨e, he, rfl⟩ := (covers_slotAt q).reaches (hash ptr).toNat i hi
  have hde : d + 1 ≤ e := by
    by_contra hlt
    obtain ⟨oth, _, ho⟩ := hb e (by omega)
    rw [slots, ho] at hem
    cases hem
  refine ⟨by omega, ?_, ?_⟩
  · rw [h.mask_eq]
    exact (strided_succ q _ _ _ d).symm
  · rw [startIndex, h.mask_eq, ← slotAt_zero]
    exact slotAt_ne_start _ (succ_pos d) (by omega)

omit h

theorem passed_succ {d : Nat} (hb : ∀ d' < d, ∃ oth ≠ ptr,
    t.array (slotAt q (hash ptr).toNat d') = some oth) {oth : P}
    (ho : t.array (slotAt q (hash ptr).toNat d) = some oth) (hne : oth ≠ ptr) :
    ∀ d' < d + 1, ∃ oth ≠ ptr, t.array (slotAt q (hash ptr).toNat d') = some oth := by
  intro d' hd'
  obtain hlt | rfl := Nat.lt_succ_iff_lt_or_eq.mp hd'
  · exact hb d' hlt
  · exact ⟨oth, hne, ho⟩

theorem WellFormed.advance_eq [DecidableEq P] (h : t.WellFormed hash q) (hr : t.used < 2 ^ q)
    (hp : t.Passed hash q ptr idx) {oth : P} (ho : t.array idx = some oth)
    (hne : oth ≠ ptr) (next : Nat → PC P) :
    ∃ index', advance hash t ptr idx next = next index' ∧ t.Passed hash q ptr index' := by
  obtain ⟨d, hd, rfl, hb⟩ := hp
  have hb' := passed_succ hb ho hne
  obtain ⟨hlt, hn, hs⟩ := h.next_slot hr hb'
  refine ⟨slotAt q (hash ptr).toNat (d + 1), ?_, d + 1, hlt, rfl, hb'⟩
  rw [advance, hn]
  exact if_neg hs

/-- The table with a slot filled. -/
def fill (t : Table P) (index : Nat) (ptr : P) : Table P :=
  { t with array := update t.array index (some ptr) }

theorem array_fill (t : Table P) (idx : Nat) (ptr : P) :
    (t.fill idx ptr).array = update t.array idx (some ptr) := rfl

theorem slots_fill (t : Table P) (idx : Nat) (ptr : P) :
    (t.fill idx ptr).slots = update t.slots idx (.item ptr) := by
  funext i
  rw [slots, array_fill, update_apply, update_apply]
  split
  · rfl
  · rfl

theorem grows_fill (he : t.array idx = none) (ptr : P) : t.Grows (t.fill idx ptr) where
  size := rfl
  kept i oth ho := by
    rw [array_fill, update_of_ne]
    · exact ho
    · rintro rfl
      rw [he] at ho
      cases ho

theorem entries_fill (hix : idx < t.size) (he : t.array idx = none) (ptr : P) :
    (t.fill idx ptr).entries = insert ptr t.entries := by
  ext x
  constructor
  · rintro ⟨i, hi, hx⟩
    rw [array_fill, update_apply] at hx
    split at hx
    · exact .inl (Option.some.inj hx).symm
    · exact .inr ⟨i, hi, hx⟩
  · rintro (rfl | hx)
    · exact ⟨idx, hix, update_self ..⟩
    · exact (grows_fill he ptr).entries hx

theorem used_fill (hi : idx < t.size) (he : t.array idx = none) (ptr : P) :
    (t.fill idx ptr).used = t.used + 1 := by
  have hc := usedSlots_update t.slots hi (.item ptr)
  rw [← slots_fill, show (t.slots idx).isUsed = false by rw [slots, he]; rfl] at hc
  exact hc

theorem WellFormed.fill (h : t.WellFormed hash q) (hp : t.Passed hash q ptr idx)
    (he : t.array idx = none) : (t.fill idx ptr).WellFormed hash q where
  size := h.size
  small := h.small
  indexed := by
    have hnew := h.not_mem_of_empty hp he
    have hlt := hp.lt
    obtain ⟨d, hd, rfl, hb⟩ := hp
    rw [slots_fill, entries_fill (by rw [h.size]; exact hlt) he]
    refine h.indexed.place (x := ptr) hnew hd ?_ ?_
    · intro y hy
      rw [slotOf_eq_item.mp hy] at he
      cases he
    · intro d' hd' hs
      obtain ⟨oth, _, ho⟩ := hb d' hd'
      rw [slotOf_eq_empty.mp hs] at ho
      cases ho

theorem WellFormed.create (hash : P → UInt32) {q : Nat} (hq : q < 32) :
    (Table.create (2 ^ q) : Table P).WellFormed hash q where
  size := rfl
  small := hq
  indexed := by
    have hes : (Table.create (2 ^ q) : Table P).entries = ∅ := by
      ext x
      simp [entries, Table.create]
    rw [hes]
    exact indexed_empty

theorem used_create (size : Nat) : (Table.create size : Table P).used = 0 :=
  count_of_forall_not fun _ _ h => nomatch h

theorem WellFormed.copyEntry_of_passed [DecidableEq P] (h : t.WellFormed hash q)
    (hr : t.used < 2 ^ q) (hnew : ptr ∉ t.entries) {d fuel : Nat} (hd : d < 2 ^ q)
    (hf : 2 ^ q ≤ d + fuel) (hb : ∀ d' < d, ∃ oth ≠ ptr,
      t.array (slotAt q (hash ptr).toNat d') = some oth) :
    ∃ idx, copyEntry hash t ptr fuel (slotAt q (hash ptr).toNat d) = some (t.fill idx ptr) ∧
      t.Passed hash q ptr idx ∧ t.array idx = none := by
  induction fuel generalizing d with
  | zero => omega
  | succ fuel ih =>
    rw [copyEntry]
    cases he : t.array (slotAt q (hash ptr).toNat d) with
    | none => exact ⟨_, rfl, ⟨d, hd, rfl, hb⟩, he⟩
    | some oth =>
      have hne : oth ≠ ptr := by
        rintro rfl
        exact hnew ⟨_, by rw [h.size]; exact (covers_slotAt q).lt _ d, he⟩
      have hb' := passed_succ hb he hne
      obtain ⟨hlt, hn, hs⟩ := h.next_slot hr hb'
      simp only [if_neg hne, hn, if_neg hs]
      exact ih hlt (by omega) hb'

theorem WellFormed.copyEntry_eq [DecidableEq P] (h : t.WellFormed hash q) (hr : t.used < 2 ^ q)
    (hnew : ptr ∉ t.entries) :
    ∃ idx, copyEntry hash t ptr t.size (t.startIndex hash ptr) = some (t.fill idx ptr) ∧
      t.Passed hash q ptr idx ∧ t.array idx = none := by
  rw [startIndex, h.mask_eq, ← slotAt_zero, h.size]
  exact h.copyEntry_of_passed hr hnew (Nat.two_pow_pos q) (by omega)
    fun d' hd' => absurd hd' (Nat.not_lt_zero d')

/-! ## Copying -/

/-- The new table after the first `i` slots of a table. -/
structure Copied (hash : P → UInt32) (q : Nat) (t : Table P) (i : Nat) (new : Table P)
    (load : Nat) : Prop where
  wellFormed : new.WellFormed hash (q + 1)
  entries : new.entries = {ptr | ∃ j < i, t.array j = some ptr}
  used : new.used = load
  load : load = usedSlots t.slots i

theorem copied_start (hash : P → UInt32) (h : t.WellFormed hash q) (hs : t.size * 2 < 2 ^ 32) :
    Copied hash q t 0 (.create (t.size * 2 % 2 ^ 32)) 0 where
  wellFormed := by
    rw [mod_eq_of_lt hs]
    rw [h.size, ← pow_succ] at hs ⊢
    exact .create hash ((Nat.pow_lt_pow_iff_right (by decide)).mp hs)
  entries := by
    ext x
    simp [Table.entries, Table.create]
  used := used_create _
  load := rfl

variable {new : Table P} {i load : Nat}

theorem Copied.skip (h : Copied hash q t i new load) (he : t.array i = none) :
    Copied hash q t (i + 1) new load where
  wellFormed := h.wellFormed
  entries := by
    rw [h.entries]
    ext x
    constructor
    · rintro ⟨j, hj, hx⟩
      exact ⟨j, by omega, hx⟩
    · rintro ⟨j, hj, hx⟩
      obtain hlt | rfl := Nat.lt_succ_iff_lt_or_eq.mp hj
      · exact ⟨j, hlt, hx⟩
      · rw [he] at hx
        cases hx
  used := h.used
  load := by
    rw [h.load, usedSlots, usedSlots, count_succ, if_neg (by rw [slots, he]; exact nofun)]
    rfl

theorem Copied.entry [DecidableEq P] (ht : t.WellFormed hash q) (hr : t.used ≤ 2 ^ q)
    (h : Copied hash q t i new load) (hi : i < t.size) (hptr : t.array i = some ptr) :
    ∃ new', copyEntry hash new ptr new.size (new.startIndex hash ptr) = some new' ∧
      Copied hash q t (i + 1) new' (load + 1) := by
  have hnew : ptr ∉ new.entries := by
    rw [h.entries]
    rintro ⟨j, hj, ho⟩
    have hs := ht.indexed.once j (by rw [← ht.size]; omega) i (by rw [← ht.size]; exact hi) ptr
      (slotOf_eq_item.mpr ho) (slotOf_eq_item.mpr hptr)
    omega
  have hu : new.used < 2 ^ (q + 1) := by
    have hm : usedSlots t.slots i ≤ usedSlots t.slots t.size := count_monotone _ hi.le
    have hpow := Nat.two_pow_pos q
    rw [h.used, h.load, pow_succ]
    rw [Table.used] at hr
    omega
  obtain ⟨idx, hc, hp, he⟩ := h.wellFormed.copyEntry_eq hu hnew
  have hix : idx < new.size := by
    rw [h.wellFormed.size]
    exact hp.lt
  refine ⟨_, hc, h.wellFormed.fill hp he, ?_, ?_, ?_⟩
  · rw [entries_fill hix he, h.entries]
    ext x
    constructor
    · rintro (rfl | ⟨j, hj, hx⟩)
      · exact ⟨i, lt_succ_self i, hptr⟩
      · exact ⟨j, by omega, hx⟩
    · rintro ⟨j, hj, hx⟩
      obtain hlt | rfl := Nat.lt_succ_iff_lt_or_eq.mp hj
      · exact .inr ⟨j, hlt, hx⟩
      · rw [hptr] at hx
        exact .inl (Option.some.inj hx).symm
  · rw [used_fill hix he, h.used]
  · rw [h.load, usedSlots, usedSlots, count_succ, if_pos (by rw [slots, hptr]; rfl)]

end Table

end JavaScriptCore.Wtf.ConcurrentPtrHashSet
