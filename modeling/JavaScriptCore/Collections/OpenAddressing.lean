import Mathlib.Data.Int.GCD
import Mathlib.Data.Nat.Prime.Basic
import JavaScriptCore.Collections.LinearProbe

/-!
# Open addressing

A buffer whose slots are empty, deleted or hold an item. An item is searched along the sequence of
positions that its hash determines, which runs through the whole buffer. Every item is reached
before the first empty slot of its sequence, and a deleted slot does not end a search; so a search
that comes to an empty slot has seen every item of its hash.
-/

namespace JavaScriptCore.Collections

open Function Nat List

inductive Slot (α : Type) where
  | empty
  | deleted
  | item (x : α)
  deriving DecidableEq, Repr

variable {α H : Type}

/-- The positions `pos h 0`, `pos h 1`, … run through the slots of a buffer. -/
structure Covers (pos : H → Nat → Nat) (capacity : Nat) : Prop where
  lt : ∀ h d, pos h d < capacity
  reaches : ∀ h, ∀ i < capacity, ∃ d < capacity, pos h d = i

/-- The buffer holds `items`, each on the way from its `home` to the first empty slot. -/
structure Indexed (pos : H → Nat → Nat) (capacity : Nat) (home : α → H) (buffer : Nat → Slot α)
    (items : Set α) : Prop where
  held : ∀ i < capacity, ∀ x, buffer i = .item x → x ∈ items
  once : ∀ i < capacity, ∀ j < capacity, ∀ x, buffer i = .item x → buffer j = .item x → i = j
  reached : ∀ x ∈ items, ∃ d < capacity, buffer (pos (home x) d) = .item x ∧
    ∀ d' < d, buffer (pos (home x) d') ≠ .empty

variable {pos : H → Nat → Nat} {cap : Nat} {home : α → H} {buffer : Nat → Slot α}
  {items : Set α}

/-- A search stops at an empty slot or at an item that is sought. -/
def Slot.stops (sought : α → Bool) : Slot α → Bool
  | .empty => true
  | .deleted => false
  | .item x => sought x

def Slot.isUsed : Slot α → Bool
  | .empty => false
  | _ => true

def Slot.isDeleted : Slot α → Bool
  | .deleted => true
  | _ => false

def Slot.item? : Slot α → Option α
  | .item x => some x
  | _ => none

theorem Slot.item?_eq_some {slot : Slot α} {x : α} : slot.item? = some x ↔ slot = .item x := by
  cases slot <;> simp [Slot.item?]

/-- What a search has come to after passing over `d` slots. -/
structure Found (pos : Nat → Nat) (buffer : Nat → Slot α) (sought : α → Bool) (d : Nat) : Prop where
  stops : (buffer (pos d)).stops sought = true
  passed : ∀ d' < d, (buffer (pos d')).stops sought = false

variable {d i : Nat}

theorem Found.ne_empty {pos : Nat → Nat} {sought : α → Bool} {d' : Nat}
    (h : Found pos buffer sought d) (hd : d' < d) : buffer (pos d') ≠ .empty := by
  intro he
  have := h.passed d' hd
  rw [he] at this
  cases this

/-- The last deleted slot among the first `d` of a search. -/
def lastDeleted (pos : Nat → Nat) (buffer : Nat → Slot α) : Nat → Option Nat
  | 0 => none
  | d + 1 => match buffer (pos d) with
    | .deleted => some (pos d)
    | _ => lastDeleted pos buffer d

theorem lastDeleted_eq_some {pos : Nat → Nat}
    (h : lastDeleted pos buffer d = some i) : ∃ e < d, pos e = i ∧ buffer i = .deleted := by
  induction d with
  | zero => cases h
  | succ d ih =>
    rw [lastDeleted] at h
    split at h
    · rename_i hd
      cases h
      exact ⟨d, lt_succ_self d, rfl, hd⟩
    · obtain ⟨e, he, hs⟩ := ih h
      exact ⟨e, by omega, hs⟩

theorem Covers.found (hc : Covers pos cap) (hem : ∃ i < cap, buffer i = .empty)
    (key : H) (sought : α → Bool) : ∃ d < cap, Found (pos key) buffer sought d := by
  obtain ⟨i, hi, hs⟩ := hem
  obtain ⟨e, he, hpos⟩ := hc.reaches key i hi
  have hexi : ∃ d, (buffer (pos key d)).stops sought = true := by
    refine ⟨e, ?_⟩
    rw [hpos, hs]
    rfl
  have hle : Nat.find hexi ≤ e := by
    refine Nat.find_min' hexi ?_
    rw [hpos, hs]
    rfl
  refine ⟨Nat.find hexi, Nat.lt_of_le_of_lt hle he, Nat.find_spec hexi, fun d' hd' => ?_⟩
  exact Bool.eq_false_iff.mpr (Nat.find_min hexi hd')

theorem indexed_empty : Indexed pos cap home (fun _ => .empty) ∅ where
  held := by simp
  once := by simp
  reached := by simp

namespace Indexed

variable (h : Indexed pos cap home buffer items)
include h

/-- A search finds an item that is sought, or an empty slot when no item of its hash is. -/
theorem search {key : H} {sought : α → Bool} {d : Nat}
    (hf : Found (pos key) buffer sought d) (hlt : pos key d < cap) :
    (∃ x ∈ items, buffer (pos key d) = .item x ∧ sought x = true) ∨
      buffer (pos key d) = .empty ∧ ∀ x ∈ items, home x = key → sought x = false := by
  have hst := hf.stops
  cases hs : buffer (pos key d) with
  | item x =>
    rw [hs] at hst
    exact .inl ⟨x, h.held _ hlt x hs, rfl, hst⟩
  | deleted =>
    rw [hs] at hst
    cases hst
  | empty =>
    refine .inr ⟨rfl, fun x hx hh => ?_⟩
    obtain ⟨e, _, hi, hb⟩ := h.reached x hx
    rw [hh] at hi hb
    -- the item is passed over before the empty slot
    obtain hlt | heq | hgt := lt_trichotomy e d
    · have := hf.passed e hlt
      rwa [hi] at this
    · rw [heq, hs] at hi
      cases hi
    · exact absurd hs (hb d hgt)

/-- Storing a new item in a slot that holds none, with no empty slot before it. -/
theorem place {x : α} (hnew : x ∉ items) {d : Nat} (hd : d < cap)
    (hs : ∀ y, buffer (pos (home x) d) ≠ .item y)
    (hb : ∀ d' < d, buffer (pos (home x) d') ≠ .empty) :
    Indexed pos cap home (update buffer (pos (home x) d) (.item x)) (insert x items) where
  held i hi y hy := by
    rw [update_apply] at hy
    split at hy
    · exact .inl (Slot.item.inj hy).symm
    · exact .inr (h.held i hi y hy)
  once i hi j hj y hyi hyj := by
    rw [update_apply] at hyi hyj
    split at hyi <;> split at hyj
    · rename_i hi' hj'
      rw [hi', hj']
    · rw [← Slot.item.inj hyi] at hyj
      exact absurd (h.held j hj x hyj) hnew
    · rw [← Slot.item.inj hyj] at hyi
      exact absurd (h.held i hi x hyi) hnew
    · exact h.once i hi j hj y hyi hyj
  reached y hy := by
    have hn : ∀ i, buffer i ≠ .empty → update buffer (pos (home x) d) (.item x) i ≠ .empty := by
      intro i hi
      rw [update_apply]
      split
      · simp
      · exact hi
    obtain rfl | hy := hy
    · exact ⟨d, hd, update_self .., fun d' hd' => hn _ (hb d' hd')⟩
    · obtain ⟨e, he, hit, hp⟩ := h.reached y hy
      refine ⟨e, he, ?_, fun d' hd' => hn _ (hp d' hd')⟩
      rw [update_of_ne, hit]
      intro heq
      exact hs y (heq ▸ hit)

/-- Deleting an item leaves a mark in its slot. -/
theorem delete {x : α} {i : Nat} (hi : i < cap) (hs : buffer i = .item x) :
    Indexed pos cap home (update buffer i .deleted) (items \ {x}) where
  held j hj y hy := by
    rw [update_apply] at hy
    split at hy
    · cases hy
    · rename_i hne
      refine ⟨h.held j hj y hy, fun heq => hne ?_⟩
      rw [Set.mem_singleton_iff.mp heq] at hy
      exact h.once j hj i hi x hy hs
  once j hj k hk y hyj hyk := by
    rw [update_apply] at hyj hyk
    split at hyj <;> split at hyk
    · cases hyj
    · cases hyj
    · cases hyk
    · exact h.once j hj k hk y hyj hyk
  reached y hy := by
    obtain ⟨hy, hne⟩ := hy
    obtain ⟨d, hd, hit, hp⟩ := h.reached y hy
    refine ⟨d, hd, ?_, fun d' hd' => ?_⟩
    · rw [update_of_ne, hit]
      intro heq
      rw [heq, hs] at hit
      exact hne (Slot.item.inj hit).symm
    · rw [update_apply]
      split
      · simp
      · exact hp d' hd'

/-- The slots hold each item once. -/
theorem items_nodup : ((range' 0 cap).filterMap fun i => (buffer i).item?).Nodup := by
  have hn : (range' 0 cap).Nodup := nodup_range'
  rw [List.Nodup, pairwise_filterMap]
  refine hn.imp_of_mem ?_
  intro i j hi hj hne x hx y hy heq
  subst heq
  refine hne (h.once i (by simpa using hi) j (by simpa using hj) x ?_ ?_)
  · exact Slot.item?_eq_some.mp hx
  · exact Slot.item?_eq_some.mp hy

theorem mem_items (hc : Covers pos cap)
    {x : α} : x ∈ ((range' 0 cap).filterMap fun i => (buffer i).item?) ↔ x ∈ items := by
  rw [mem_filterMap]
  constructor
  · rintro ⟨i, hi, hx⟩
    exact h.held i (by simpa using hi) x (Slot.item?_eq_some.mp hx)
  · intro hx
    obtain ⟨d, _, hit, _⟩ := h.reached x hx
    refine ⟨pos (home x) d, ?_, Slot.item?_eq_some.mpr hit⟩
    simpa using hc.lt (home x) d

theorem congr_home (ho' : α → H)
    (heq : ∀ x ∈ items, ho' x = home x) : Indexed pos cap ho' buffer items where
  held := h.held
  once := h.once
  reached x hx := heq x hx ▸ h.reached x hx

end Indexed

/-! ## Counting -/

def usedSlots (buffer : Nat → Slot α) (capacity : Nat) : Nat :=
  count (fun i => (buffer i).isUsed = true) capacity

def deletedSlots (buffer : Nat → Slot α) (capacity : Nat) : Nat :=
  count (fun i => (buffer i).isDeleted = true) capacity

theorem usedSlots_update (buffer : Nat → Slot α) (hi : i < cap) (slot : Slot α) :
    usedSlots (update buffer i slot) cap + (buffer i).isUsed.toNat =
      usedSlots buffer cap + slot.isUsed.toNat := by
  simp only [Bool.toNat, Bool.cond_eq_ite]
  exact count_update (fun s : Slot α => s.isUsed = true) buffer hi slot

theorem deletedSlots_update (buffer : Nat → Slot α) (hi : i < cap) (slot : Slot α) :
    deletedSlots (update buffer i slot) cap + (buffer i).isDeleted.toNat =
      deletedSlots buffer cap + slot.isDeleted.toNat := by
  simp only [Bool.toNat, Bool.cond_eq_ite]
  exact count_update (fun s : Slot α => s.isDeleted = true) buffer hi slot

theorem exists_empty_slot (h : usedSlots buffer cap < cap) :
    ∃ i < cap, buffer i = .empty := by
  obtain ⟨i, hi, hu⟩ := exists_unused (fun s : Slot α => s.isUsed = true) h
  refine ⟨i, hi, ?_⟩
  cases hs : buffer i with
  | empty => rfl
  | deleted => simp [hs, Slot.isUsed] at hu
  | item x => simp [hs, Slot.isUsed] at hu

/-! ## Probe sequences -/

/-- From the start of a hash, by its step, round at the end of the buffer. -/
def strided (capacity : Nat) (start step : H → Nat) (key : H) (d : Nat) : Nat :=
  (start key + d * step key) % capacity

/-- Odd steps run through a buffer whose size is a power of two. -/
theorem covers_strided (p : Nat) (start step : H → Nat) (hodd : ∀ key, Odd (step key)) :
    Covers (strided (2 ^ p) start step) (2 ^ p) where
  lt key d := mod_lt _ (Nat.two_pow_pos p)
  reaches key i hi := by
    have hc : (step key).Coprime (2 ^ p) :=
      Nat.Coprime.pow_right p (coprime_two_right.mpr (hodd key))
    obtain ⟨d, hd, hmul⟩ := exists_mul_mod_eq_of_coprime (i + (2 ^ p - start key % 2 ^ p))
      hc (Nat.two_pow_pos p).ne'
    refine ⟨d, hd, ?_⟩
    rw [strided, mul_comm, add_mod, hmul, ← add_mod, ← mod_add_mod,
      show start key % 2 ^ p + (i + (2 ^ p - start key % 2 ^ p)) = i + 2 ^ p by omega,
      add_mod_right, mod_eq_of_lt hi]

/-- The next position by masking. -/
theorem strided_succ (p : Nat) (start step : H → Nat) (key : H) (d : Nat) :
    strided (2 ^ p) start step key (d + 1) =
      (strided (2 ^ p) start step key d + step key) &&& (2 ^ p - 1) := by
  rw [and_two_pow_sub_one_eq_mod, strided, strided, mod_add_mod, succ_mul, add_assoc]

/-! ## The loop -/

variable {σ ρ : Type}

/-- `while (true)`: each round fails, ends the search, or goes on with another state. -/
def probe (visit : σ → Option (ρ ⊕ σ)) : Nat → σ → Option ρ
  | 0, _ => none
  | fuel + 1, s => match visit s with
    | none => none
    | some (.inl result) => some result
    | some (.inr s') => probe visit fuel s'

theorem probe_of_trace {visit : σ → Option (ρ ⊕ σ)} {trace : Nat → σ} {fuel : Nat} {result : ρ}
    (hf : d < fuel) (hp : ∀ d' < d, visit (trace d') = some (.inr (trace (d' + 1))))
    (hs : visit (trace d) = some (.inl result)) :
    probe visit fuel (trace 0) = some result := by
  induction d generalizing fuel trace with
  | zero =>
    obtain ⟨fuel, rfl⟩ := Nat.exists_eq_add_of_lt hf
    rw [probe, hs]
  | succ d ih =>
    obtain ⟨fuel, rfl⟩ := Nat.exists_eq_add_of_lt hf
    rw [probe, hp 0 (zero_lt_succ d)]
    exact @ih (fun n => trace (n + 1)) _ (by omega) (fun d' hd' => hp (d' + 1) (by omega)) hs

/-! ## Iteration

An iterator stands on an index that it does not skip, or at the end. -/

/-- The first index that is not skipped, among the `remaining` ones from `i` on. -/
def skipFrom (skip : Nat → Bool) : Nat → Nat → Nat
  | 0, i => i
  | remaining + 1, i => if skip i then skipFrom skip remaining (i + 1) else i

/-- `for (; it != end; ++it)`. -/
def visitFrom (skip : Nat → Bool) (last : Nat) : Nat → Nat → List Nat
  | 0, _ => []
  | fuel + 1, i =>
    if i = last then []
    else i :: visitFrom skip last fuel (skipFrom skip (last - (i + 1)) (i + 1))

/-- What is visited from the beginning to the end. -/
def visited (skip : Nat → Bool) (last : Nat) : List Nat :=
  visitFrom skip last last (skipFrom skip last 0)

theorem visitFrom_skipFrom {skip : Nat → Bool} {last : Nat} (rem : Nat) {fuel : Nat}
    (hl : i + rem = last) (hf : rem ≤ fuel) :
    visitFrom skip last fuel (skipFrom skip rem i) =
      (range' i rem).filter fun j => !skip j := by
  induction rem generalizing fuel i with
  | zero =>
    rw [skipFrom]
    cases fuel with
    | zero => rfl
    | succ fuel => rw [visitFrom, if_pos (by omega)]; rfl
  | succ rem ih =>
    rw [skipFrom, range'_succ]
    split_ifs with hs
    · rw [ih (by omega) (by omega), filter_cons_of_neg (by simp [hs])]
    · obtain ⟨fuel, rfl⟩ : ∃ f, fuel = f + 1 := ⟨fuel - 1, by omega⟩
      rw [visitFrom, if_neg (by omega), filter_cons_of_pos (by simp [hs]),
        show last - (i + 1) = rem by omega, ih (by omega) (by omega)]

theorem visited_eq (skip : Nat → Bool) (last : Nat) :
    visited skip last = (range' 0 last).filter fun j => !skip j :=
  visitFrom_skipFrom last (zero_add last) (le_refl last)

end JavaScriptCore.Collections
