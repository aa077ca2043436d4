import JavaScriptCore.ProgramLogic.Simulation
import JavaScriptCore.Runtime.HashMapImpl.Iterator

/-!
# Maps of the language

What a `Map` is for: a list of records in the order of insertion, in which a deleted record stays as
an empty one, and iterators that are positions in it. A program creates, changes, copies and reads
maps and steps through any number of iterators; `HashMapImpl` answers each call as these lists do.

The cell of the record at position `i` is the one numbered `i + 1`, since cells are numbered in the
order of their creation. So an iterator has the same number on both sides: the position it goes on
from, and the cell it has yielded last.
-/

namespace JavaScriptCore.Runtime

open List Option

/-- `[[MapData]]`; an emptied record is `none`. -/
abbrev MapData (K V : Type) := List (Option (K × V))

namespace MapData

variable {K V : Type} (equal : K → K → Bool)

/-- The first record with an equal key, between the records before and after it. -/
def find (key : K) : MapData K V → Option (MapData K V × (K × V) × MapData K V)
  | [] => none
  | none :: rest => (find key rest).map fun (front, record, back) => (none :: front, record, back)
  | some (k, v) :: rest =>
    if equal key k then some ([], (k, v), rest)
    else (find key rest).map fun (front, record, back) => (some (k, v) :: front, record, back)

def set (key : K) (value : V) (data : MapData K V) : MapData K V :=
  match find equal key data with
  | some (front, (k, _), back) => front ++ some (k, value) :: back
  | none => data ++ [some (key, value)]

def delete (key : K) (data : MapData K V) : MapData K V × Bool :=
  match find equal key data with
  | some (front, _, back) => (front ++ none :: back, true)
  | none => (data, false)

def lookup (key : K) (data : MapData K V) : Option V :=
  (find equal key data).map fun (_, (_, value), _) => value

def clear (data : MapData K V) : MapData K V := data.map fun _ => none

/-- A new map filled with the records of this one. -/
def copy (data : MapData K V) : MapData K V := data.filter isSome

def size (data : MapData K V) : Nat := data.countP isSome

/-- The first record that is not empty, with its position; the list starts at position `n`. -/
def first : MapData K V → Nat → Option (Nat × K × V)
  | [], _ => none
  | none :: rest, n => first rest (n + 1)
  | some record :: _, n => some (n, record)

/-- The record an iterator yields that goes on from `index`. -/
def next (data : MapData K V) (index : Nat) : Option (Nat × K × V) := first (data.drop index) index

end MapData

namespace HashMapImpl

/-- The calls of a program; maps and iterators are numbered in the order of their creation. -/
inductive Call (K V : Type) where
  | create
  | add (map : Nat) (key : K) (value : V)
  | remove (map : Nat) (key : K)
  | clear (map : Nat)
  | clone (map : Nat)
  | get (map : Nat) (key : K)
  | has (map : Nat) (key : K)
  | size (map : Nat)
  | iterate (map : Nat)
  | next (iterator : Nat)

inductive Answer (K V : Type) where
  | done
  | flag (b : Bool)
  | value (v : V)
  | count (n : Nat)
  | entry (record : Option (K × V))

/-- Maps, and iterators with the map they belong to. -/
structure Session (Map : Type) where
  maps : List Map
  iterators : List (Nat × Option Nat)

variable {K V : Type}

/-- Runs the calls in order and collects the answers. -/
def runCalls {State : Type} (step : State → Call K V → Option (State × Answer K V)) :
    List (Call K V) → State → Option (State × List (Answer K V))
  | [], s => some (s, [])
  | call :: calls, s => do
    let (s, answer) ← step s call
    let (s, answers) ← runCalls step calls s
    return (s, answer :: answers)

/-- The calls on the lists of the language. -/
def dataStep [Inhabited V] (equal : K → K → Bool) (s : Session (MapData K V)) :
    Call K V → Option (Session (MapData K V) × Answer K V)
  | .create => some ({ s with maps := s.maps ++ [[]] }, .done)
  | .add map key value => do
    let data ← s.maps[map]?
    return ({ s with maps := s.maps.set map (data.set equal key value) }, .done)
  | .remove map key => do
    let data ← s.maps[map]?
    return ({ s with maps := s.maps.set map (data.delete equal key).1 },
      .flag (data.delete equal key).2)
  | .clear map => do
    let data ← s.maps[map]?
    return ({ s with maps := s.maps.set map data.clear }, .done)
  | .clone map => do
    let data ← s.maps[map]?
    return ({ s with maps := s.maps ++ [data.copy] }, .done)
  | .get map key => do
    let data ← s.maps[map]?
    return (s, .value ((data.lookup equal key).getD default))
  | .has map key => do
    let data ← s.maps[map]?
    return (s, .flag (data.lookup equal key).isSome)
  | .size map => do
    let data ← s.maps[map]?
    return (s, .count data.size)
  | .iterate map => do
    let _ ← s.maps[map]?
    return ({ s with iterators := s.iterators ++ [(map, some 0)] }, .done)
  | .next iterator => do
    let (map, index) ← s.iterators[iterator]?
    let data ← s.maps[map]?
    let found := index.bind data.next
    return ({ s with iterators := s.iterators.set iterator (map, found.map (·.1 + 1)) },
      .entry (found.map (·.2)))

variable (traits : MapKeyTraits K)

/-- The key and the value of a bucket that an iterator yields. -/
def entryAt (m : HashMapImpl K V) : Option Nat → Option (Option (K × V))
  | none => some none
  | some cell => do return some (← (m.cells cell).key, ← (m.cells cell).value)

/-- The calls on tables. -/
def callStep [Inhabited V] (s : Session (HashMapImpl K V)) :
    Call K V → Option (Session (HashMapImpl K V) × Answer K V)
  | .create => some ({ s with maps := s.maps ++ [.create] }, .done)
  | .add map key value => do
    let m ← s.maps[map]?
    return ({ s with maps := s.maps.set map (← m.add traits key value) }, .done)
  | .remove map key => do
    let m ← s.maps[map]?
    let (m, found) ← m.remove traits key
    return ({ s with maps := s.maps.set map m }, .flag found)
  | .clear map => do
    let m ← s.maps[map]?
    return ({ s with maps := s.maps.set map (← m.clear) }, .done)
  | .clone map => do
    let m ← s.maps[map]?
    return ({ s with maps := s.maps ++ [← m.clone traits] }, .done)
  | .get map key => do
    let m ← s.maps[map]?
    return (s, .value (← m.get traits key))
  | .has map key => do
    let m ← s.maps[map]?
    return (s, .flag (← m.has traits key))
  | .size map => do
    let m ← s.maps[map]?
    return (s, .count m.size)
  | .iterate map => do
    let m ← s.maps[map]?
    return ({ s with iterators := s.iterators ++ [(map, some m.head)] }, .done)
  | .next iterator => do
    let (map, iter) ← s.iterators[iterator]?
    let m ← s.maps[map]?
    let iter ← m.advanceIter iter
    return ({ s with iterators := s.iterators.set iterator (map, iter) },
      .entry (← m.entryAt iter))

/-! ## A table and the records it stands for -/

/-- The records that are not empty, in the cells numbered from `n` on. -/
def entriesFrom (n : Nat) : MapData K V → List (Entry K V)
  | [] => []
  | none :: rest => entriesFrom (n + 1) rest
  | some (k, v) :: rest => ⟨n, k, v⟩ :: entriesFrom (n + 1) rest

structure Represents (m : HashMapImpl K V) (data : MapData K V) : Prop where
  consistent : Consistent traits m (entriesFrom 1 data)
  tail_eq : m.tail = data.length + 1
  distinct : ((entriesFrom 1 data).map Entry.key).Pairwise fun a b =>
    traits.areKeysEqual a b = false

section

variable {data data₁ data₂ : MapData K V} {n : Nat}

theorem entriesFrom_append (n : Nat) (data₁ data₂ : MapData K V) :
    entriesFrom n (data₁ ++ data₂) =
      entriesFrom n data₁ ++ entriesFrom (n + data₁.length) data₂ := by
  induction data₁ generalizing n with
  | nil => rfl
  | cons rec data₁ ih =>
    have hs : n + (data₁.length + 1) = n + 1 + data₁.length := by omega
    obtain _ | ⟨k, v⟩ := rec
    · simp [entriesFrom, ih, hs]
    · simp [entriesFrom, ih, hs]

theorem entriesFrom_split {front back : List (Entry K V)} {e : Entry K V}
    (h : entriesFrom n data = front ++ e :: back) :
    ∃ data₁ data₂, data = data₁ ++ some (e.key, e.value) :: data₂ ∧ entriesFrom n data₁ = front ∧
      e.cell = n + data₁.length ∧ entriesFrom (n + data₁.length + 1) data₂ = back := by
  induction data generalizing n front with
  | nil => simp [entriesFrom] at h
  | cons rec data ih =>
    have hs : ∀ l : MapData K V, n + (l.length + 1) = n + 1 + l.length := by
      intro l
      omega
    obtain _ | ⟨k, v⟩ := rec
    · obtain ⟨data₁, data₂, rfl, hf, hc, hb⟩ := ih h
      refine ⟨none :: data₁, data₂, rfl, hf, ?_, ?_⟩
      · rw [hc, length_cons, hs]
      · rw [length_cons, hs]
        exact hb
    · cases front with
      | nil =>
        obtain ⟨rfl, hb⟩ := cons.inj h
        exact ⟨[], data, rfl, rfl, rfl, hb⟩
      | cons e' front =>
        obtain ⟨rfl, hr⟩ := cons.inj h
        obtain ⟨data₁, data₂, rfl, hf, hc, hb⟩ := ih hr
        refine ⟨some (k, v) :: data₁, data₂, rfl, ?_, ?_, ?_⟩
        · rw [entriesFrom, hf]
        · rw [hc, length_cons, hs]
        · rw [length_cons, hs]
          exact hb

theorem length_entriesFrom (n : Nat) (data : MapData K V) :
    (entriesFrom n data).length = data.size := by
  induction data generalizing n with
  | nil => rfl
  | cons rec data ih =>
    obtain _ | ⟨k, v⟩ := rec
    · simpa [entriesFrom, MapData.size] using ih (n + 1)
    · simpa [entriesFrom, MapData.size] using ih (n + 1)

theorem entriesFrom_clear (n : Nat) (data : MapData K V) : entriesFrom n data.clear = [] := by
  induction data generalizing n with
  | nil => rfl
  | cons rec data ih => exact ih (n + 1)

theorem entriesFrom_copy (i n : Nat) (data : MapData K V) :
    entriesFrom n data.copy = renumbered n (entriesFrom i data) := by
  induction data generalizing n i with
  | nil => rfl
  | cons rec data ih =>
    obtain _ | ⟨k, v⟩ := rec
    · exact ih (i + 1) n
    · simpa [MapData.copy, entriesFrom, renumbered] using ih (i + 1) (n + 1)

theorem keys_renumbered (n : Nat) (es : List (Entry K V)) :
    (renumbered n es).map Entry.key = es.map Entry.key := by
  induction es generalizing n with
  | nil => rfl
  | cons e es ih => rw [renumbered, map_cons, map_cons, ih]

variable {key : K}

theorem find_absent (h : ∀ e ∈ entriesFrom n data, traits.areKeysEqual key e.key = false) :
    data.find traits.areKeysEqual key = none := by
  induction data generalizing n with
  | nil => rfl
  | cons rec data ih =>
    obtain _ | ⟨k, v⟩ := rec
    · rw [MapData.find, ih h]
      rfl
    · rw [entriesFrom, forall_mem_cons] at h
      rw [MapData.find, h.1, ih h.2]
      rfl

theorem find_found {k : K} {v : V} (hkey : traits.areKeysEqual key k = true)
    (h : ∀ e ∈ entriesFrom n data₁, traits.areKeysEqual key e.key = false) :
    MapData.find traits.areKeysEqual key (data₁ ++ some (k, v) :: data₂) =
      some (data₁, (k, v), data₂) := by
  induction data₁ generalizing n with
  | nil => simp [MapData.find, hkey]
  | cons rec data₁ ih =>
    obtain _ | ⟨k', v'⟩ := rec
    · rw [cons_append, MapData.find, ih h]
      rfl
    · rw [entriesFrom, forall_mem_cons] at h
      rw [cons_append, MapData.find, h.1, ih h.2]
      rfl

/-- The position an iterator goes on from and the cell it has yielded last. -/
theorem first_eq (n : Nat) (data : MapData K V) :
    data.first n = (entriesFrom (n + 1) data).head?.map fun e => (e.cell - 1, e.key, e.value) := by
  induction data generalizing n with
  | nil => rfl
  | cons rec data ih =>
    obtain _ | ⟨k, v⟩ := rec
    · exact ih (n + 1)
    · rfl

theorem le_cell (n : Nat) (data : MapData K V) : ∀ e ∈ entriesFrom n data, n ≤ e.cell := by
  intro e he
  obtain ⟨front, back, h⟩ := append_of_mem he
  obtain ⟨data₁, _, _, _, hc, _⟩ := entriesFrom_split h
  omega

theorem cell_lt (n : Nat) (data : MapData K V) :
    ∀ e ∈ entriesFrom n data, e.cell < n + data.length := by
  intro e he
  obtain ⟨front, back, h⟩ := append_of_mem he
  obtain ⟨data₁, data₂, rfl, _, hc, _⟩ := entriesFrom_split h
  rw [hc, length_append, length_cons]
  omega

theorem find_entriesFrom {i : Nat} (h : i ≤ data.length) :
    (entriesFrom 1 data).find? (fun e => decide (i + 1 ≤ e.cell)) =
      (entriesFrom (i + 1) (data.drop i)).head? := by
  have hsp : entriesFrom 1 data =
      entriesFrom 1 (data.take i) ++ entriesFrom (i + 1) (data.drop i) := by
    conv_lhs => rw [← take_append_drop i data]
    rw [entriesFrom_append, length_take_of_le h, add_comm 1 i]
  have hb : (entriesFrom 1 (data.take i)).find? (fun e => decide (i + 1 ≤ e.cell)) = none := by
    rw [List.find?_eq_none]
    intro e he
    have hlt := cell_lt 1 _ e he
    rw [length_take_of_le h] at hlt
    simp only [decide_eq_true_eq]
    omega
  rw [hsp, List.find?_append, hb, none_or]
  cases hr : entriesFrom (i + 1) (data.drop i) with
  | nil => rfl
  | cons e rest =>
    have hle := le_cell (i + 1) (data.drop i) e (by simp [hr])
    exact List.find?_cons_of_pos (decide_eq_true hle)

end

/-! ## One call on one map -/

section

variable {traits} (equivalence : Equivalence fun a b => traits.areKeysEqual a b = true)
  (compatible : ∀ a b, traits.areKeysEqual a b = true → traits.jsMapHash b = traits.jsMapHash a)
  {m : HashMapImpl K V} {data : MapData K V}

theorem create_represents : Represents traits (create : HashMapImpl K V) [] :=
  ⟨create_consistent, rfl, .nil⟩

variable (h : Represents traits m data)
include h

theorem Represents.size_eq : m.size = data.size :=
  h.consistent.keyCount_eq.trans (length_entriesFrom 1 data)

theorem Represents.clear : ∃ m', m.clear = some m' ∧ Represents traits m' data.clear := by
  obtain ⟨m', hrun, hc, ht⟩ :
      ∃ m', m.clear = some m' ∧ Consistent traits m' [] ∧ m'.tail = m.tail :=
    clear_spec h.consistent.toListed
  refine ⟨m', hrun, ?_, ?_, ?_⟩
  · rw [entriesFrom_clear]
    exact hc
  · rw [ht, h.tail_eq, MapData.clear, length_map]
  · rw [entriesFrom_clear]
    exact .nil

theorem Represents.clone (hsm : data.size < 2 ^ 28) :
    ∃ m', m.clone traits = some m' ∧ Represents traits m' data.copy := by
  have hct : m.keyCount < 2 ^ 28 := h.size_eq.trans_lt hsm
  obtain ⟨m', hrun, hc, ht⟩ := clone_spec h.consistent hct
  refine ⟨m', hrun, ?_, ?_, ?_⟩
  · rw [entriesFrom_copy 1]
    exact hc
  · rw [ht, length_entriesFrom, MapData.copy, MapData.size, countP_eq_length_filter, add_comm]
  · rw [entriesFrom_copy 1, keys_renumbered]
    exact h.distinct

/-- Where the iterator goes, and what it finds there. -/
theorem Represents.advance {i : Nat} (hi : i ≤ data.length) :
    m.advanceIter (some i) = some ((data.next i).map (·.1 + 1)) ∧
      m.entryAt ((data.next i).map (·.1 + 1)) = some ((data.next i).map (·.2)) := by
  have hl := h.consistent.toListed
  rw [hl.advanceIter_spec (by rw [h.tail_eq]; omega), firstFrom, MapData.next, first_eq]
  have hf := find_entriesFrom hi
  rw [hf]
  cases hh : (entriesFrom (i + 1) (data.drop i)).head? with
  | none => exact ⟨rfl, rfl⟩
  | some e =>
    rw [hh] at hf
    have he : e ∈ entriesFrom 1 data := List.mem_of_find?_eq_some hf
    have hc : e.cell - 1 + 1 = e.cell := by
      have := le_cell 1 data e he
      omega
    simp [hc, entryAt, hl.stored e he]

include equivalence

variable {key : K} {e : Entry K V}

/-- The keys before an entry with an equal key are not equal to it. -/
theorem Represents.front_absent {front back : List (Entry K V)}
    (hes : entriesFrom 1 data = front ++ e :: back)
    (hkey : traits.areKeysEqual key e.key = true) :
    ∀ e' ∈ front, traits.areKeysEqual key e'.key = false := by
  intro e' he'
  have hd := h.distinct
  rw [hes, map_append, map_cons, pairwise_append] at hd
  have hne := hd.2.2 e'.key (mem_map_of_mem he') e.key (by simp)
  rw [← Bool.not_eq_true] at hne ⊢
  exact fun heq => hne (equivalence.trans (equivalence.symm heq) hkey)

/-- Replacing the value of a record changes neither its position nor any key. -/
theorem Represents.found {front back : List (Entry K V)}
    (hes : entriesFrom 1 data = front ++ e :: back)
    (hkey : traits.areKeysEqual key e.key = true) :
    ∃ data₁ data₂, data.find traits.areKeysEqual key = some (data₁, (e.key, e.value), data₂) ∧
      data.length = data₁.length + 1 + data₂.length ∧
      (∀ value, entriesFrom 1 (data₁ ++ some (e.key, value) :: data₂) =
        front ++ { e with value } :: back) ∧
      entriesFrom 1 (data₁ ++ none :: data₂) = front ++ back := by
  obtain ⟨data₁, data₂, rfl, hf, hc, hb⟩ := entriesFrom_split hes
  refine ⟨data₁, data₂, ?_, ?_, fun value => ?_, ?_⟩
  · exact find_found traits hkey (hf ▸ h.front_absent equivalence hes hkey)
  · rw [length_append, length_cons]
    omega
  · rw [entriesFrom_append, entriesFrom, hf, hb, ← hc]
  · rw [entriesFrom_append, entriesFrom, hf, hb]

omit h

include compatible

omit equivalence in
/-- With a compatible hash a key that is not found in the table is equal to no key there. -/
theorem absent_of_hash {es : List (Entry K V)}
    (h : ∀ e ∈ es, traits.jsMapHash e.key = traits.jsMapHash key →
      traits.areKeysEqual key e.key = false) :
    ∀ e ∈ es, traits.areKeysEqual key e.key = false := by
  intro e he
  cases heq : traits.areKeysEqual key e.key with
  | false => rfl
  | true => exact heq ▸ h e he (compatible key e.key heq)

include h

theorem Represents.add (hsm : data.size < 2 ^ 28) (key : K) (value : V) :
    ∃ m', m.add traits key value = some m' ∧
      Represents traits m' (data.set traits.areKeysEqual key value) := by
  have hct : m.keyCount < 2 ^ 28 := h.size_eq.trans_lt hsm
  obtain ⟨m', entries', hrun, hc, had⟩ := add_spec h.consistent hct key value
  refine ⟨m', hrun, ?_⟩
  have hd := h.distinct
  generalize hes : entriesFrom 1 data = es at had hd
  generalize ht' : m'.tail = tail' at had
  cases had with
  | @replaced front back e heq =>
    obtain ⟨data₁, data₂, hf, hlen, hset, _⟩ := h.found equivalence hes heq
    rw [MapData.set, hf]
    refine ⟨(hset value).symm ▸ hc, ?_, ?_⟩
    · rw [ht', h.tail_eq, hlen, length_append, length_cons]
      omega
    · rw [hset value]
      simpa using hd
  | appended hab =>
    have hn := absent_of_hash compatible hab
    rw [MapData.set, find_absent (n := 1) traits (hes ▸ hn)]
    have ha : entriesFrom 1 (data ++ [some (key, value)]) = es ++ [⟨m.tail, key, value⟩] := by
      rw [entriesFrom_append, hes, h.tail_eq, add_comm 1]
      rfl
    refine ⟨ha ▸ hc, ?_, ?_⟩
    · rw [ht', h.tail_eq, length_append]
      rfl
    rw [ha, map_append, pairwise_append]
    refine ⟨hd, by simp, fun k hk k' hk' => ?_⟩
    obtain ⟨e, he, rfl⟩ := mem_map.mp hk
    obtain rfl : k' = key := by simpa using hk'
    have hne := hn e he
    rw [← Bool.not_eq_true] at hne ⊢
    exact fun heq => hne (equivalence.symm heq)

theorem Represents.remove (hsm : data.size < 2 ^ 28) (key : K) :
    ∃ m', m.remove traits key = some (m', (data.delete traits.areKeysEqual key).2) ∧
      Represents traits m' (data.delete traits.areKeysEqual key).1 := by
  have hct : m.keyCount ≤ 2 ^ 28 := le_of_lt (h.size_eq.trans_lt hsm)
  obtain ⟨m', entries', found, hrun, hc, hr, ht⟩ := remove_spec h.consistent hct key
  refine ⟨m', ?_⟩
  have hd := h.distinct
  generalize hes : entriesFrom 1 data = es at hr hd
  cases hr with
  | @removed front back e heq =>
    obtain ⟨data₁, data₂, hf, hlen, _, hde⟩ := h.found equivalence hes heq
    rw [MapData.delete, hf]
    refine ⟨hrun, hde.symm ▸ hc, ?_, ?_⟩
    · rw [ht, h.tail_eq, hlen, length_append, length_cons]
      omega
    · rw [hde]
      exact hd.sublist (by simp)
  | absent hab =>
    have hn := absent_of_hash compatible hab
    rw [MapData.delete, find_absent (n := 1) traits (hes ▸ hn)]
    exact ⟨hrun, hes ▸ hc, ht.trans h.tail_eq, h.distinct⟩

theorem Represents.lookup (key : K) : (∃ i cell value, m.findBucket traits key = some (some i) ∧
        m.bucketAt i = some cell ∧ (m.cells cell).value = some value ∧
        data.lookup traits.areKeysEqual key = some value) ∨
      (m.findBucket traits key = some none ∧ data.lookup traits.areKeysEqual key = none) := by
  obtain ⟨d, _, hp, ⟨e, he, hs, heq⟩ | ⟨hem, _, hab⟩⟩ := h.consistent.search key
  · left
    obtain ⟨front, back, hes⟩ := append_of_mem he
    obtain ⟨data₁, data₂, hf, _⟩ := h.found equivalence hes heq
    refine ⟨m.position (traits.jsMapHash key) d, e.cell, e.value, ?_, ?_,
      (h.consistent.stored e he).2, ?_⟩
    · simp [findBucket, hp, hs]
    · simp [bucketAt, hs]
    · rw [MapData.lookup, hf]
      rfl
  · right
    have hn := absent_of_hash compatible hab
    refine ⟨by simp [findBucket, hp, hem], ?_⟩
    rw [MapData.lookup, find_absent traits hn]
    rfl

end

/-! ## Whole programs -/

structure Simulates (s : Session (HashMapImpl K V)) (t : Session (MapData K V)) : Prop where
  maps : List.Forall₂ (Represents traits) s.maps t.maps
  iterators : s.iterators = t.iterators
  placed : ∀ map index, (map, some index) ∈ t.iterators →
    ∃ data, t.maps[map]? = some data ∧ index ≤ data.length

section

variable {traits} {s : Session (HashMapImpl K V)} {t t' : Session (MapData K V)}
    {data : MapData K V}

/-- A map is replaced by one with no fewer records. -/
theorem Simulates.replace (h : Simulates traits s t) {map : Nat} {data' : MapData K V}
    {m' : HashMapImpl K V} (hd : t.maps[map]? = some data) (hm' : Represents traits m' data')
    (hlen : data.length ≤ data'.length) :
    Simulates traits { s with maps := s.maps.set map m' }
      { t with maps := t.maps.set map data' } where
  maps := ProgramLogic.forall₂_set h.maps hm' map
  iterators := h.iterators
  placed := by
    intro map' i hmem
    obtain ⟨data'', hdata'', hi⟩ := h.placed map' i hmem
    by_cases heq : map = map'
    · subst heq
      obtain rfl : data = data'' := some.inj (hd.symm.trans hdata'')
      refine ⟨data', ?_, le_trans hi hlen⟩
      rw [List.getElem?_set_self (List.getElem?_eq_some_iff.mp hd).1]
    · exact ⟨data'', by rw [List.getElem?_set_ne heq]; exact hdata'', hi⟩

theorem Simulates.append (h : Simulates traits s t) {m : HashMapImpl K V}
    (hm : Represents traits m data) :
    Simulates traits { s with maps := s.maps ++ [m] } { t with maps := t.maps ++ [data] } where
  maps := rel_append h.maps (.cons hm .nil)
  iterators := h.iterators
  placed := by
    intro map i hmem
    obtain ⟨data', hd', hi⟩ := h.placed map i hmem
    refine ⟨data', ?_, hi⟩
    rw [List.getElem?_append_left (List.getElem?_eq_some_iff.mp hd').1]
    exact hd'

theorem eq_of_find_eq_some {equal : K → K → Bool} {key : K} {front back : MapData K V}
    {rec : K × V} (h : data.find equal key = some (front, rec, back)) :
    data = front ++ some rec :: back := by
  induction data generalizing front with
  | nil => simp [MapData.find] at h
  | cons first data ih =>
    obtain _ | ⟨k, v⟩ := first
    · obtain ⟨front', hf, rfl⟩ : ∃ front',
        MapData.find equal key data = some (front', rec, back) ∧ none :: front' = front := by
        simpa [MapData.find] using h
      rw [ih hf, cons_append]
    · rw [MapData.find] at h
      split at h
      · obtain ⟨rfl, rfl, rfl⟩ : [] = front ∧ (k, v) = rec ∧ data = back := by simpa using h
        rfl
      · obtain ⟨front', hf, rfl⟩ : ∃ front',
        MapData.find equal key data = some (front', rec, back) ∧ some (k, v) :: front' = front := by
          simpa using h
        rw [ih hf, cons_append]

variable (equal : K → K → Bool)

theorem length_le_set (key : K) (value : V) (data : MapData K V) :
    data.length ≤ (data.set equal key value).length := by
  rw [MapData.set]
  split
  · rename_i front k v back hf
    rw [eq_of_find_eq_some hf]
    simp
  · simp

theorem length_le_delete (key : K) (data : MapData K V) :
    data.length ≤ (data.delete equal key).1.length := by
  rw [MapData.delete]
  split
  · rename_i front rec back hf
    rw [eq_of_find_eq_some hf]
    simp
  · exact le_refl _

/-- The position of the record found, when there is one. -/
theorem next_lt {idx i : Nat} {rec : K × V}
    (h : data.next idx = some (i, rec)) : i + 1 ≤ data.length := by
  rw [MapData.next, first_eq, map_eq_some_iff] at h
  obtain ⟨e, he, heq⟩ := h
  have hmem := List.mem_of_head? he
  have hlt := cell_lt _ _ e hmem
  rw [length_drop] at hlt
  obtain ⟨rfl, _⟩ := Prod.mk.inj heq
  have : idx < data.length := by
    by_contra hge
    rw [drop_eq_nil_of_le (by omega)] at hmem
    cases hmem
  omega

variable (equivalence : Equivalence fun a b => traits.areKeysEqual a b = true)
  (compatible : ∀ a b, traits.areKeysEqual a b = true → traits.jsMapHash b = traits.jsMapHash a)

include equivalence compatible

theorem callStep_simulates [Inhabited V] (h : Simulates traits s t)
    (hsm : ∀ data ∈ t.maps, data.size < 2 ^ 28) {call : Call K V} {answer : Answer K V}
    (hs : dataStep traits.areKeysEqual t call = some (t', answer)) :
    ∃ s', callStep traits s call = some (s', answer) ∧ Simulates traits s' t' := by
  cases call
  case' add | remove | clear | clone | get | has | size | iterate =>
    obtain ⟨m, data, hm, hd, hrep, hs⟩ := ProgramLogic.forall₂_bind h.maps hs
    cases hs
  case create =>
    obtain ⟨rfl, rfl⟩ : _ ∧ _ := by simpa [dataStep] using hs
    exact ⟨_, rfl, h.append create_represents⟩
  case add map key value =>
    obtain ⟨m', hrun, hr'⟩ := hrep.add equivalence compatible
      (hsm data (mem_of_getElem? hd)) key value
    exact ⟨_, by simp [callStep, hm, hrun], h.replace hd hr' (length_le_set ..)⟩
  case remove map key =>
    obtain ⟨m', hrun, hr'⟩ := hrep.remove equivalence compatible (hsm data (mem_of_getElem? hd)) key
    exact ⟨_, by simp [callStep, hm, hrun], h.replace hd hr' (length_le_delete ..)⟩
  case clear map =>
    obtain ⟨m', hrun, hr'⟩ := hrep.clear
    exact ⟨_, by simp [callStep, hm, hrun], h.replace hd hr' (by simp [MapData.clear])⟩
  case clone map =>
    obtain ⟨m', hrun, hr'⟩ := hrep.clone (hsm data (mem_of_getElem? hd))
    exact ⟨_, by simp [callStep, hm, hrun], h.append hr'⟩
  case get map key | has map key =>
    refine ⟨s, ?_, h⟩
    obtain ⟨idx, cell, value, hf, hc, hv, hl⟩ | ⟨hf, hl⟩ := hrep.lookup equivalence compatible key
    · simp [callStep, hm, get, has, hf, hc, hv, hl]
    · simp [callStep, hm, get, has, hf, hl]
  case size map =>
    exact ⟨s, by simp [callStep, hm, hrep.size_eq], h⟩
  case iterate map =>
    refine ⟨{ s with iterators := s.iterators ++ [(map, some m.head)] }, by simp [callStep, hm],
      h.maps, ?_, fun map' idx hmem => ?_⟩
    · rw [h.iterators, hrep.consistent.numbered.1]
    · obtain hmem | ⟨rfl, rfl⟩ : (map', some idx) ∈ t.iterators ∨ map' = map ∧ idx = 0 := by
        simpa using hmem
      · exact h.placed map' idx hmem
      · exact ⟨data, hd, Nat.zero_le _⟩
  case next iterator =>
    obtain ⟨⟨map, idx⟩, hi, hs⟩ := bind_eq_some_iff.mp hs
    obtain ⟨m, data, hm, hd, hrep, hs⟩ := ProgramLogic.forall₂_bind h.maps hs
    cases hs
    -- the iterator is at the end, or goes on from a position within the records
    have ha : m.advanceIter idx = some ((idx.bind data.next).map (·.1 + 1)) ∧
        m.entryAt ((idx.bind data.next).map (·.1 + 1)) = some ((idx.bind data.next).map (·.2)) := by
      cases idx with
      | none => exact ⟨rfl, rfl⟩
      | some idx =>
        obtain ⟨data', hd', hix⟩ := h.placed map idx (mem_of_getElem? hi)
        obtain rfl : data = data' := some.inj (hd.symm.trans hd')
        exact hrep.advance hix
    let iter := (idx.bind data.next).map (·.1 + 1)
    refine ⟨{ s with iterators := s.iterators.set iterator (map, iter) }, ?_, h.maps, ?_,
      fun map' index' hmem => ?_⟩
    · simp only [callStep, h.iterators, hi, hm, ha, bind_eq_bind, bind_some]
      rfl
    · rw [h.iterators]
    · obtain hmem | heq := mem_or_eq_of_mem_set hmem
      · exact h.placed map' index' hmem
      · obtain ⟨rfl, hi'⟩ := Prod.mk.inj heq
        obtain ⟨⟨i, rec⟩, hfo, rfl⟩ := map_eq_some_iff.mp hi'.symm
        obtain ⟨idx, rfl, hn⟩ := bind_eq_some_iff.mp hfo
        exact ⟨data, hd, next_lt hn⟩

theorem runCalls_simulates [Inhabited V] (h : Simulates traits s t) {calls : List (Call K V)}
    {answers : List (Answer K V)}
    (hrun : runCalls (dataStep traits.areKeysEqual) calls t = some (t', answers))
    (hsm : ∀ k t'' answers'',
      runCalls (dataStep traits.areKeysEqual) (calls.take k) t = some (t'', answers'') →
        ∀ data ∈ t''.maps, data.size < 2 ^ 28) :
    ∃ s', runCalls (callStep traits) calls s = some (s', answers) ∧ Simulates traits s' t' := by
  induction calls generalizing s t answers with
  | nil =>
    obtain ⟨rfl, rfl⟩ : t = t' ∧ [] = answers := by simpa [runCalls] using hrun
    exact ⟨s, rfl, h⟩
  | cons call calls ih =>
    obtain ⟨t₁, answer, hs, rest, hr, rfl⟩ : ∃ t₁ answer,
        dataStep traits.areKeysEqual t call = some (t₁, answer) ∧ ∃ rest,
          runCalls (dataStep traits.areKeysEqual) calls t₁ = some (t', rest) ∧
            answer :: rest = answers := by
      simpa [runCalls, bind_eq_some_iff] using hrun
    obtain ⟨s₁, hca, hsim⟩ := callStep_simulates equivalence compatible h (hsm 0 t [] rfl) hs
    obtain ⟨s', hc, hs'⟩ := ih hsim hr fun k t'' answers'' ht => by
      refine hsm (k + 1) t'' (answer :: answers'') ?_
      simp [runCalls, hs, ht]
    exact ⟨s', by simp [runCalls, hca, hc], hs'⟩

/-- A program on tables gets the answers that the lists of the language give, as long as no map has
`2 ^ 28` entries or more: every call returns, and every iterator yields the records it finds there
in the order of their insertion. -/
theorem program_refines_mapData [Inhabited V] (calls : List (Call K V))
    {answers : List (Answer K V)}
    (hrun : runCalls (dataStep traits.areKeysEqual) calls ⟨[], []⟩ = some (t', answers))
    (hsmall : ∀ k t answers,
      runCalls (dataStep traits.areKeysEqual) (calls.take k) ⟨[], []⟩ = some (t, answers) →
        ∀ data ∈ t.maps, data.size < 2 ^ 28) :
    ∃ s, runCalls (callStep traits) calls ⟨[], []⟩ = some (s, answers) := by
  have hstart : Simulates traits (⟨[], []⟩ : Session (HashMapImpl K V)) ⟨[], []⟩ :=
    ⟨.nil, rfl, by simp⟩
  obtain ⟨s, hcalls, _⟩ := runCalls_simulates equivalence compatible hstart hrun hsmall
  exact ⟨s, hcalls⟩

end

/-- An entry that is removed before the iterator reaches it is skipped, and one that is added again
after the iterator has passed its old place is yielded there. -/
theorem program_refines_mapData_readded :
    ∃ s, runCalls (callStep ⟨fun a b : Nat => a == b, .ofNat 32⟩)
      [.create, .add 0 1 10, .iterate 0, .remove 0 1, .add 0 1 11, .next 0, .next 0] ⟨[], []⟩ =
        some (s, [.done, .done, .done, .flag true, .done, .entry (some (1, 11)), .entry none]) := by
  have equivalence : Equivalence fun a b : Nat => (a == b) = true :=
    ⟨fun a => by simp, fun h => by simpa using (beq_iff_eq.mp h).symm, fun h h' => by
      simpa using (beq_iff_eq.mp h).trans (beq_iff_eq.mp h')⟩
  refine program_refines_mapData equivalence (by simp) _ rfl fun k t answers hrun data hdata => ?_
  -- no call adds more than one record to a map
  have hsize : ∀ k ≤ 7, ∀ data ∈ ((runCalls (dataStep (fun a b : Nat => a == b))
      ((take k [.create, .add 0 1 10, .iterate 0, .remove 0 1, .add 0 1 11, .next 0,
        .next 0]) : List (Call Nat Nat)) ⟨[], []⟩).elim [] fun (t, _) => t.maps),
      MapData.size data ≤ 1 := by
    decide
  have hmem := hsize (min k 7) (min_le_right _ _) data
  have hlength : (7 : Nat) = length [Call.create, .add 0 1 10, .iterate 0, .remove 0 1,
    .add 0 1 11, .next 0, .next 0] := rfl
  rw [hlength, ← take_eq_take_min, hrun] at hmem
  exact lt_of_le_of_lt (hmem hdata) (by decide)

end HashMapImpl

end JavaScriptCore.Runtime
