import JavaScriptCore.Runtime.HashMapImpl.MapKey

/-!
# A bucket buffer that cannot be allocated

`runtime/HashMapImpl.h:658-714`: `rehash` and `clear` set `m_capacity` before they ask for a buffer
of that many slots. When `HashMapBuffer::create` returns null, the exception is thrown and the table
keeps the buffer it had. Every probe masks its index with `m_capacity - 1`, so a table whose buffer
has another number of slots is broken. `clear` on a table of four slots sets the capacity that the
buffer has, but a slot that was in use stays in use, and is not counted any more.
-/

namespace JavaScriptCore.Runtime.HashMapImpl

open Option List

variable {K V : Type}

/-- A table and the number of slots of the buffer that `m_buffer` points to. -/
structure Backed (K V : Type) where
  table : HashMapImpl K V
  slots : Nat

/-- `false` beside the table is the exception; `allocates` is whether `HashMapBuffer::create`
succeeds. -/
def makeAndSetNewBuffer (allocates : Bool) (m : Backed K V) : Backed K V × Bool :=
  if allocates then (⟨{ m.table with buffer := fun _ => .empty }, m.table.capacity⟩, true)
  else (m, false)

variable (traits : MapKeyTraits K)

/-- `rehash`: the buffer is made anew if the capacity changes. -/
def rehashAllocating (allocates : Bool) (m : Backed K V) : Option (Backed K V × Bool) := do
  let capacity ← nextCapacity m.table.capacity m.table.keyCount
  if capacity ≠ m.table.capacity && !allocates then
    return makeAndSetNewBuffer allocates ⟨{ m.table with capacity }, m.slots⟩
  let table ← m.table.rehash traits
  return (⟨table, table.capacity⟩, true)

def stepAllocating (allocates : Bool) (m : Backed K V) :
    Operation K V → Option (Backed K V × Bool)
  | .add key value => do
    let table ← m.table.addNormalizedInternal traits key value (m.table.canUseBucket traits key)
    if shouldRehashAfterAdd table.capacity table.keyCount table.deleteCount then
      rehashAllocating traits allocates ⟨table, m.slots⟩
    else return (⟨table, m.slots⟩, true)
  | .remove key => do
    match ← m.table.findBucket traits key with
    | none => return (m, true)
    | some index =>
      let table ← m.table.deleteBucket index
      if shouldShrink table.capacity table.keyCount then
        rehashAllocating traits allocates ⟨table, m.slots⟩
      else return (⟨table, m.slots⟩, true)
  | .clear => do
    let table ← m.table.clear
    return makeAndSetNewBuffer allocates ⟨{ table with buffer := m.table.buffer }, m.slots⟩

/-- What a table must be: the buffer has the slots that the probes use, and list, buffer and counts
agree, as every search and every operation needs it and leaves it. -/
structure Intact (m : Backed K V) : Prop where
  slots_eq : m.slots = m.table.capacity
  consistent : ∃ entries, Consistent traits m.table entries

/-- `clear` on a table of four slots that were not used since the buffer was made. -/
def Harmless (m : Backed K V) (operation : Operation K V) : Prop :=
  operation = .clear ∧ m.table.capacity = 4 ∧ m.table.keyCount = 0 ∧ m.table.deleteCount = 0

/-- The tables reached from a new one when only harmless operations fail. -/
inductive Reached : Backed K V → Prop where
  | create : Reached ⟨create, 4⟩
  | returned {m m' : Backed K V} {allocates : Bool} {operation : Operation K V} :
    Reached m → m.table.size < 2 ^ 28 →
    stepAllocating traits allocates m operation = some (m', true) → Reached m'
  | failed {m m' : Backed K V} {operation : Operation K V} :
    Reached m → Harmless m operation →
    stepAllocating traits false m operation = some (m', false) → Reached m'

variable {traits} {m m' : Backed K V} {t t' : HashMapImpl K V} {entries : List (Entry K V)}

/-! ## The capacity is another one -/

theorem rehashAllocating_failed (h : rehashAllocating traits false m = some (m', false)) :
    m'.slots = m.slots ∧ m'.table.capacity ≠ m.table.capacity := by
  unfold rehashAllocating at h
  cases hn : nextCapacity m.table.capacity m.table.keyCount with
  | none => simp [hn] at h
  | some capacity =>
    simp only [hn, bind_eq_bind, bind_some, Bool.not_false, Bool.and_true, decide_eq_true_eq] at h
    split_ifs at h with ho
    · cases h
      exact ⟨rfl, ho⟩
    · cases hr : m.table.rehash traits <;> simp [hr] at h

theorem addNormalizedInternal_capacity {key : K} {value : V} {canUse : HashMapSlot → Bool}
    (h : t.addNormalizedInternal traits key value canUse = some t') : t'.capacity = t.capacity := by
  unfold addNormalizedInternal at h
  cases hp : t.probe canUse (traits.jsMapHash key) with
  | none => simp [hp] at h
  | some i =>
    simp only [hp, bind_eq_bind, bind_some] at h
    split at h
    all_goals
      cases h
      rfl

theorem deleteBucket_capacity {i : Nat}
    (h : t.deleteBucket i = some t') : t'.capacity = t.capacity := by
  simp only [deleteBucket, unlink, Option.bind_eq_bind, Option.bind_eq_some_iff, Option.pure_def,
    Option.some.injEq] at h
  obtain ⟨_, _, _, ⟨_, _, _, _, rfl⟩, rfl⟩ := h
  rfl

variable {op : Operation K V}

/-- A failed allocation leaves the slots of the buffer as they were, and the capacity of `clear` or
one that is not the one before. -/
theorem stepAllocating_failed (h : stepAllocating traits false m op = some (m', false)) :
    m'.slots = m.slots ∧ (op = .clear ∧ m'.table.capacity = 4 ∨
      op ≠ .clear ∧ m'.table.capacity ≠ m.table.capacity) := by
  cases op with
  | add key value =>
    simp only [stepAllocating, bind_eq_bind, bind_eq_some_iff] at h
    obtain ⟨table, hadd, h⟩ := h
    split at h
    · have hf := rehashAllocating_failed h
      rw [addNormalizedInternal_capacity hadd] at hf
      exact ⟨hf.1, .inr ⟨nofun, hf.2⟩⟩
    · simp at h
  | remove key =>
    simp only [stepAllocating, bind_eq_bind, bind_eq_some_iff] at h
    obtain ⟨found, _, h⟩ := h
    cases found with
    | none => simp at h
    | some i =>
      obtain ⟨table, hd, h⟩ := bind_eq_some_iff.mp h
      split at h
      · have hf := rehashAllocating_failed h
        rw [deleteBucket_capacity hd] at hf
        exact ⟨hf.1, .inr ⟨nofun, hf.2⟩⟩
      · simp at h
  | clear =>
    simp only [stepAllocating, makeAndSetNewBuffer, bind_eq_bind, bind_eq_some_iff] at h
    obtain ⟨table, hc, h⟩ := h
    cases h
    simp only [HashMapImpl.clear, bind_eq_bind, bind_eq_some_iff] at hc
    obtain ⟨_, _, hc⟩ := hc
    cases hc
    exact ⟨rfl, .inl ⟨rfl, rfl⟩⟩

/-! ## Operations that return -/

variable {allocates : Bool}

theorem rehashAllocating_returned (h : rehashAllocating traits allocates m = some (m', true)) :
    m.table.rehash traits = some m'.table ∧ m'.slots = m'.table.capacity := by
  simp only [rehashAllocating, bind_eq_bind, bind_eq_some_iff] at h
  obtain ⟨capacity, _, h⟩ := h
  split_ifs at h with ho
  · rw [Bool.and_eq_true, Bool.not_eq_true'] at ho
    simp [makeAndSetNewBuffer, ho.2] at h
  · obtain ⟨table, hr, h⟩ := bind_eq_some_iff.mp h
    cases h
    exact ⟨hr, rfl⟩

/-- An operation that returns does what it does to a table alone. -/
theorem stepAllocating_returned (hs : m.slots = m.table.capacity)
    (h : stepAllocating traits allocates m op = some (m', true)) :
    m.table.step traits op = some m'.table ∧ m'.slots = m'.table.capacity := by
  cases op with
  | add key value =>
    simp only [stepAllocating, bind_eq_bind, bind_eq_some_iff] at h
    obtain ⟨table, hadd, h⟩ := h
    rw [step, add, hadd, bind_eq_bind, bind_some, rehashAfterAdd]
    split at h
    · rw [if_pos ‹_›]
      exact rehashAllocating_returned h
    · rw [if_neg ‹_›]
      cases h
      exact ⟨rfl, hs.trans (addNormalizedInternal_capacity hadd).symm⟩
  | remove key =>
    simp only [stepAllocating, bind_eq_bind, bind_eq_some_iff] at h
    obtain ⟨found, hf, h⟩ := h
    simp only [step, remove, hf, bind_eq_bind, bind_some]
    cases found with
    | none =>
      cases h
      exact ⟨rfl, hs⟩
    | some i =>
      obtain ⟨table, hd, h⟩ := bind_eq_some_iff.mp h
      simp only [hd, bind_some, rehashIfShrinking]
      split at h
      · obtain ⟨hr, hsl⟩ := rehashAllocating_returned h
        rw [if_pos ‹_›, hr]
        exact ⟨rfl, hsl⟩
      · cases h
        rw [if_neg ‹_›]
        exact ⟨rfl, hs.trans (deleteBucket_capacity hd).symm⟩
  | clear =>
    simp only [stepAllocating, bind_eq_bind, bind_eq_some_iff] at h
    obtain ⟨table, hc, h⟩ := h
    cases allocates with
    | false => cases h
    | true =>
      cases h
      refine ⟨?_, rfl⟩
      simp only [HashMapImpl.step, HashMapImpl.clear, bind_eq_bind, bind_eq_some_iff] at hc ⊢
      obtain ⟨m₁, hrun, hc⟩ := hc
      cases hc
      exact ⟨m₁, hrun, rfl⟩

theorem Consistent.step (h : Consistent traits t entries) (hs : t.keyCount < 2 ^ 28)
    (op : Operation K V) : ∃ t' es', t.step traits op = some t' ∧ Consistent traits t' es' := by
  cases op with
  | add key value =>
    obtain ⟨t', es', hrun, hc, _⟩ := add_spec h hs key value
    exact ⟨t', es', hrun, hc⟩
  | remove key =>
    obtain ⟨t', es', found, hrun, hc, _⟩ := remove_spec h (le_of_lt hs) key
    exact ⟨t', es', by simp [HashMapImpl.step, hrun], hc⟩
  | clear =>
    obtain ⟨t', hrun, hc, _⟩ := clear_spec h.toListed
    exact ⟨t', [], hrun, hc⟩

/-! ## `clear` on a table of four slots -/

/-- The list is emptied and the buffer kept, so that the counts are right if nothing was in use. -/
theorem Consistent.cleared (h : Consistent traits m.table entries) (hcap : m.table.capacity = 4)
    (hcl : stepAllocating traits false m .clear = some (m', false)) :
    (∃ es, Consistent traits m'.table es) ↔ m.table.keyCount = 0 ∧ m.table.deleteCount = 0 := by
  obtain ⟨cells, hrun, hl⟩ := h.toListed.clear
  simp only [stepAllocating, hrun, makeAndSetNewBuffer, bind_eq_bind, bind_some] at hcl
  cases hcl
  have ho := h.occupied_eq
  rw [occupied, hcap] at ho
  constructor
  · rintro ⟨es, hc⟩
    have hz : Nat.count (fun i => m.table.buffer i ≠ .empty) 4 = 0 := hc.occupied_eq
    omega
  · rintro ⟨hk, hd⟩
    rw [hk, hd, Nat.add_zero, Nat.count_iff_forall_not] at ho
    have hem : ∀ i < 4, m.table.buffer i = .empty := fun i hi => not_not.mp (ho i hi)
    exact ⟨[], { hl with
      held := fun i hi c hc => nomatch (hem i hi).symm.trans hc
      once := fun i hi _ _ c hc => nomatch (hem i hi).symm.trans hc
      reached := by simp
      power := ⟨2, by omega, by omega, rfl⟩
      keyCount_eq := rfl
      occupied_eq := Nat.count_iff_forall_not.mpr ho
      load := by simp }⟩

/-- A failed operation leaves an intact table so only if it is harmless. -/
theorem Intact.failed_iff (h : Intact traits m)
    (hf : stepAllocating traits false m op = some (m', false)) :
    Intact traits m' ↔ Harmless m op := by
  obtain ⟨hs, es, hc⟩ := h
  obtain ⟨hsl, ⟨rfl, hfour⟩ | ⟨hne, hcap⟩⟩ := stepAllocating_failed hf
  · constructor
    · rintro ⟨hs', hc'⟩
      have hcap : m.table.capacity = 4 := by omega
      exact ⟨rfl, hcap, (hc.cleared hcap hf).mp hc'⟩
    · rintro ⟨-, hcap, hcounts⟩
      exact ⟨by omega, (hc.cleared hcap hf).mpr hcounts⟩
  · refine iff_of_false (fun h' => ?_) fun h' => hne h'.1
    have := h'.slots_eq
    omega

theorem Reached.intact (h : Reached traits m) : Intact traits m := by
  induction h with
  | create => exact ⟨rfl, [], create_consistent⟩
  | @returned m m' allocates op _ hs hst ih =>
    obtain ⟨hsl, es, hc⟩ := ih
    obtain ⟨hrun, hsl'⟩ := stepAllocating_returned hsl hst
    obtain ⟨m₁, es', hrun', hc'⟩ := hc.step hs op
    cases hrun.symm.trans hrun'
    exact ⟨hsl', es', hc'⟩
  | failed _ hh hst ih => exact (ih.failed_iff hst).mpr hh

/-- A table whose buffer could not be made anew is intact only after `clear` on four slots that were
not used. -/
theorem intact_iff_harmless {m m' : Backed K V} {operation : Operation K V}
    (hreached : Reached traits m)
    (hfailed : stepAllocating traits false m operation = some (m', false)) :
    Intact traits m' ↔ Harmless m operation :=
  hreached.intact.failed_iff hfailed

section

/-- The hash and the equality of integers as keys. -/
def integers : MapKeyTraits (MapKey ⟨true, true, true⟩) := MapKey.traits fun _ => .other

def integer (n : BitVec 32) : MapKey ⟨true, true, true⟩ := MapKey.ofValue (.int32 n)

/-- A new table that is cleared. -/
theorem clear_failed_intact :
    ∃ m', stepAllocating integers false (⟨create, 4⟩ : Backed _ Nat) .clear = some (m', false) ∧
      Intact integers m' :=
  ⟨_, rfl, (intact_iff_harmless .create rfl).mpr ⟨rfl, rfl, rfl, rfl⟩⟩

/-- The second entry asks for eight slots. When they cannot be had, the table searches eight slots
in a buffer of four. And after four entries, each of which was cleared in vain, a search does not
end. -/
theorem add_failed_not_intact :
    (∃ m m', stepAllocating integers true ⟨create, 4⟩ (.add (integer 1) 5) = some (m, true) ∧
      stepAllocating integers false m (.add (integer 2) 6) = some (m', false) ∧
      m'.slots = 4 ∧ m'.table.capacity = 8 ∧
      m'.slots ≤ (integers.jsMapHash (integer 1)).toNat &&& (m'.table.capacity - 1) ∧
      ¬Intact integers m') ∧
    (([1, 2, 3, 4].foldlM (fun (m : Backed _ Nat) n => do
        let m ← stepAllocating integers true m (.add (integer n) 5)
        return (← stepAllocating integers false m.1 .clear).1) ⟨create, 4⟩).map
      fun (m : Backed _ Nat) => (m.slots, m.table.capacity, m.table.size,
        m.table.has integers (integer 5))) =
        some (4, 4, 0, none) := by
  constructor
  · have h : ((stepAllocating integers true ⟨create, 4⟩ (.add (integer 1) 5)).bind fun m =>
        (stepAllocating integers false m.1 (.add (integer 2) 6)).map
          fun r => (m.2, r.1.slots, r.1.table.capacity, r.2)) = some (true, 4, 8, false) := by
      decide +kernel
    obtain ⟨⟨m, returned⟩, hstep, h⟩ := bind_eq_some_iff.mp h
    obtain ⟨⟨m', thrown⟩, hstep', hshape⟩ := map_eq_some_iff.mp h
    simp only [Prod.mk.injEq] at hshape
    obtain ⟨rfl, hslots, hcapacity, rfl⟩ := hshape
    refine ⟨m, m', hstep, hstep', hslots, hcapacity, ?_, fun hintact => ?_⟩
    · rw [hslots, hcapacity]
      decide +kernel
    · have hsame := hintact.slots_eq
      omega
  · decide +kernel

end

end JavaScriptCore.Runtime.HashMapImpl
