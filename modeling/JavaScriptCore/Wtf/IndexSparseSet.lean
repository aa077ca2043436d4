import Mathlib.Data.Fintype.Card
import Mathlib.Data.List.Sort

/-!
# `IndexSparseSet`

`wtf/IndexSparseSet.h`. A key is in the set if the entry at its position in the list has it, so that
the position map is never initialised. The invariant is that the map gives every entry's position;
`sort` moves the entries and leaves the map as it is, after which only the list can be relied on
until the set is cleared.
-/

namespace JavaScriptCore.Wtf

open Function List

/-- `EntryTypeTraits`, for keys below `n` and what comes with a key: nothing, or the value of a
pair. -/
structure IndexSparseSetTraits (n : Nat) (E A : Type) where
  create : Fin n → A → E
  key : E → Fin n
  key_create : ∀ value arguments, key (create value arguments) = value

/-- `DefaultIndexSparseSetTraits` of keys. -/
def keyTraits (n : Nat) : IndexSparseSetTraits n (Fin n) Unit := ⟨fun k _ => k, id, fun _ _ => rfl⟩

structure IndexSparseSet (n : Nat) (E : Type) where
  map : Fin n → Nat
  values : List E

namespace IndexSparseSet

variable {n : Nat} {E A : Type} (tr : IndexSparseSetTraits n E A)

/-- The map has whatever the memory holds. -/
def new (memory : Fin n → Nat) : IndexSparseSet n E := ⟨memory, []⟩

def contains (s : IndexSparseSet n E) (value : Fin n) : Bool :=
  match s.values[s.map value]? with
  | none => false
  | some entry => tr.key entry = value

def get (s : IndexSparseSet n E) (value : Fin n) : Option E :=
  match s.values[s.map value]? with
  | none => none
  | some entry => if tr.key entry = value then some entry else none

def append (s : IndexSparseSet n E) (value : Fin n) (arguments : A) : IndexSparseSet n E where
  map := update s.map value s.values.length
  values := s.values ++ [tr.create value arguments]

def add (s : IndexSparseSet n E) (value : Fin n) (arguments : A) : Bool × IndexSparseSet n E :=
  if s.contains tr value then (false, s) else (true, s.append tr value arguments)

def set (s : IndexSparseSet n E) (value : Fin n) (arguments : A) : Bool × IndexSparseSet n E :=
  match s.get tr value with
  | some _ => (false, { s with values := s.values.set (s.map value) (tr.create value arguments) })
  | none => (true, s.append tr value arguments)

def remove (s : IndexSparseSet n E) (value : Fin n) : Bool × IndexSparseSet n E :=
  match s.values[s.map value]?, s.values.getLast? with
  | some entry, some lastValue =>
    if tr.key entry = value then
      (true, { map := update s.map (tr.key lastValue) (s.map value)
               values := (s.values.set (s.map value) lastValue).dropLast })
    else (false, s)
  | _, _ => (false, s)

def clear (s : IndexSparseSet n E) : IndexSparseSet n E := { s with values := [] }

def size (s : IndexSparseSet n E) : Nat := s.values.length

def sort (s : IndexSparseSet n E) : IndexSparseSet n E :=
  { s with values := s.values.insertionSort fun a b => tr.key a ≤ tr.key b }

inductive Operation (n : Nat) (A : Type) where
  | add (value : Fin n) (arguments : A)
  | set (value : Fin n) (arguments : A)
  | remove (value : Fin n)
  | clear
  | sort

/-- What an operation answers, where it does, and the set after it. -/
def step (s : IndexSparseSet n E) : Operation n A → Option Bool × IndexSparseSet n E
  | .add value arguments => (s.add tr value arguments).map some id
  | .set value arguments => (s.set tr value arguments).map some id
  | .remove value => (s.remove tr value).map some id
  | .clear => (none, s.clear)
  | .sort => (none, s.sort tr)

/-! ## Maps of keys -/

/-- The same on a map from keys to entries. -/
def mapStep (m : Fin n → Option E) : Operation n A → Option Bool × (Fin n → Option E)
  | .add value arguments =>
    if (m value).isSome then (some false, m)
    else (some true, update m value (some (tr.create value arguments)))
  | .set value arguments =>
    (some (m value).isNone, update m value (some (tr.create value arguments)))
  | .remove value => (some (m value).isSome, update m value none)
  | .clear => (none, fun _ => none)
  | .sort => (none, m)

/-- The answers of a sequence of operations, and what is left. -/
def run {S O : Type} (step : S → O → Option Bool × S) : S → List O → List (Option Bool) × S
  | s, [] => ([], s)
  | s, op :: ops => (run step (step s op).2 ops).map ((step s op).1 :: ·) id

/-- Whether the map is behind the list after an operation, given whether it was before. -/
def Operation.stale (b : Bool) : Operation n A → Bool
  | sort => true
  | clear => false
  | _ => b

/-- Where an operation does not need the map, or the map is not behind. -/
def Operation.Fresh (b : Bool) : Operation n A → Prop
  | sort | clear => True
  | _ => b = false

def Fresh : Bool → List (Operation n A) → Prop
  | _, [] => True
  | b, op :: ops => op.Fresh b ∧ Fresh (op.stale b) ops

/-- The list holds the entries of the map, each once. -/
structure Holds (s : IndexSparseSet n E) (m : Fin n → Option E) : Prop where
  mem : ∀ e, e ∈ s.values ↔ m (tr.key e) = some e
  key : ∀ k e, m k = some e → tr.key e = k
  once : (s.values.map tr.key).Nodup

/-- The map gives the position of every entry. -/
def Indexed (s : IndexSparseSet n E) : Prop := ∀ i e, s.values[i]? = some e → s.map (tr.key e) = i

variable {tr} {s : IndexSparseSet n E} {m : Fin n → Option E} {k : Fin n} {e : E}

theorem contains_eq : s.contains tr k = (s.get tr k).isSome := by
  rw [contains, get]
  grind

theorem get_eq_some : s.get tr k = some e ↔ s.values[s.map k]? = some e ∧ tr.key e = k := by
  rw [get]
  grind

theorem Holds.size_eq (h : Holds tr s m) :
    s.size = (Finset.univ.filter fun k => (m k).isSome).card := by
  rw [size, ← length_map (f := tr.key), ← toFinset_card_of_nodup h.once]
  congr 1
  ext k
  simp only [mem_toFinset, mem_map, Finset.mem_filter, Finset.mem_univ, true_and,
    Option.isSome_iff_exists, h.mem]
  constructor
  · rintro ⟨e, he, rfl⟩
    exact ⟨e, he⟩
  · rintro ⟨e, he⟩
    have hk := h.key k e he
    exact ⟨e, hk ▸ he, hk⟩

theorem Indexed.holds (h : Indexed tr s) : Holds tr s (s.get tr) where
  mem e := by
    rw [mem_iff_getElem?, get_eq_some]
    constructor
    · rintro ⟨i, hi⟩
      rw [h i e hi]
      exact ⟨hi, rfl⟩
    · rintro ⟨hi, -⟩
      exact ⟨_, hi⟩
  key k e he := (get_eq_some.mp he).2
  once := by
    rw [nodup_iff_getElem?_ne_getElem?]
    intro i j hij hj heq
    have := h i
    have := h j
    grind

theorem Holds.sort (h : Holds tr s m) : Holds tr (s.sort tr) m where
  mem e := by rw [IndexSparseSet.sort, mem_insertionSort, h.mem]
  key := h.key
  once := (((perm_insertionSort _ _).map _).nodup_iff).mpr h.once

theorem Indexed.append (h : Indexed tr s) (hk : s.get tr k = none) (a : A) :
    Indexed tr (s.append tr k a) ∧
      (s.append tr k a).get tr = update (s.get tr) k (some (tr.create k a)) := by
  have hc := tr.key_create k a
  have hne : ∀ (i : Nat) e, s.values[i]? = some e → tr.key e ≠ k := by
    rintro i e he rfl
    rw [get_eq_some.mpr ⟨h i e he ▸ he, rfl⟩] at hk
    cases hk
  constructor
  · intro i e he
    have := h i
    simp only [IndexSparseSet.append] at he ⊢
    grind
  · funext k'
    ext e
    have := @get_eq_some _ _ _ tr s k' e
    rw [update_apply, get_eq_some]
    simp only [IndexSparseSet.append]
    grind

theorem Indexed.replace (h : Indexed tr s) (hk : s.get tr k = some e) (a : A) :
    let s' := { s with values := s.values.set (s.map k) (tr.create k a) }
    Indexed tr s' ∧ s'.get tr = update (s.get tr) k (some (tr.create k a)) := by
  have hc := tr.key_create k a
  obtain ⟨he, hke⟩ := get_eq_some.mp hk
  constructor
  · intro i e' he'
    have := h i
    grind
  · funext k'
    ext e'
    have := @get_eq_some _ _ _ tr s k' e'
    rw [update_apply, get_eq_some]
    grind

theorem Indexed.remove (h : Indexed tr s) (k : Fin n) : (s.remove tr k).1 = (s.get tr k).isSome ∧
    Indexed tr (s.remove tr k).2 ∧
      (s.remove tr k).2.get tr = update (s.get tr) k none := by
  cases hk : s.get tr k with
  | none =>
    have hr : s.remove tr k = (false, s) := by
      have := @get_eq_some _ _ _ tr s k
      rw [IndexSparseSet.remove]
      grind
    rw [hr, ← hk, update_eq_self]
    exact ⟨hk ▸ rfl, h, rfl⟩
  | some e =>
    obtain ⟨he, hke⟩ := get_eq_some.mp hk
    obtain ⟨l, hl⟩ : ∃ l, s.values.getLast? = some l := by
      rw [← Option.ne_none_iff_exists', Ne, getLast?_eq_none_iff]
      intro hn
      simp [hn] at he
    have hr : s.remove tr k = (true, ⟨update s.map (tr.key l) (s.map k),
        (s.values.set (s.map k) l).dropLast⟩) := by
      simp [IndexSparseSet.remove, he, hl, hke]
    rw [getLast?_eq_getElem?] at hl
    have hle := h _ e he
    have hll := h _ l hl
    rw [hr]
    refine ⟨rfl, fun i e' he' => ?_, ?_⟩
    · have := h i
      simp only [getElem?_dropLast, length_set] at he'
      grind
    · funext k'
      ext e'
      have := @get_eq_some _ _ _ tr s k' e'
      rw [update_apply, get_eq_some]
      simp only [getElem?_dropLast, length_set]
      grind

theorem Indexed.clear (s : IndexSparseSet n E) :
    Indexed tr s.clear ∧ s.clear.get tr = fun _ => none :=
  ⟨by simp [Indexed, IndexSparseSet.clear], funext fun k => by simp [get, IndexSparseSet.clear]⟩

/-- Every operation but `sort` keeps the positions, and is that on the map of entries. -/
theorem Indexed.step (h : Indexed tr s) {op : Operation n A} (hop : op ≠ .sort) :
    (s.step tr op).1 = (mapStep tr (s.get tr) op).1 ∧ Indexed tr (s.step tr op).2 ∧
      (s.step tr op).2.get tr = (mapStep tr (s.get tr) op).2 := by
  cases op with
  | add k a =>
    simp only [IndexSparseSet.step, add, mapStep, contains_eq]
    cases hk : s.get tr k with
    | some e => exact ⟨rfl, h, rfl⟩
    | none => exact ⟨rfl, h.append hk a⟩
  | set k a =>
    simp only [IndexSparseSet.step, set, mapStep]
    cases hk : s.get tr k with
    | some e => exact ⟨rfl, h.replace hk a⟩
    | none => exact ⟨rfl, h.append hk a⟩
  | remove k =>
    obtain ⟨hr, hs⟩ := h.remove k
    exact ⟨congrArg some hr, hs⟩
  | clear => exact ⟨rfl, Indexed.clear s⟩
  | sort => exact absurd rfl hop

/-- What is kept: the list always, the map as long as it is not behind. -/
structure Refines (tr : IndexSparseSetTraits n E A) (b : Bool) (s : IndexSparseSet n E)
    (m : Fin n → Option E) : Prop where
  holds : Holds tr s m
  indexed : b = false → Indexed tr s ∧ s.get tr = m

theorem refines_of_indexed {b : Bool} (h : Indexed tr s ∧ s.get tr = m) : Refines tr b s m :=
  ⟨h.2 ▸ h.1.holds, fun _ => h⟩

theorem refines_step {b : Bool} {op : Operation n A} (h : Refines tr b s m) (hf : op.Fresh b) :
    (s.step tr op).1 = (mapStep tr m op).1 ∧
      Refines tr (op.stale b) (s.step tr op).2 (mapStep tr m op).2 := by
  by_cases hs : op = .sort
  · subst hs
    exact ⟨rfl, h.holds.sort, fun hb => absurd hb.symm Bool.false_ne_true⟩
  by_cases hc : op = .clear
  · subst hc
    exact ⟨rfl, refines_of_indexed (Indexed.clear s)⟩
  obtain rfl : b = false := by cases op <;> first | exact hf | contradiction
  obtain ⟨hi, rfl⟩ := h.indexed rfl
  obtain ⟨hr, hi', hg⟩ := hi.step hs
  exact ⟨hr, refines_of_indexed ⟨hi', hg⟩⟩

theorem refines_run {b : Bool} {ops : List (Operation n A)} (h : Refines tr b s m)
    (hf : Fresh b ops) : (run (step tr) s ops).1 = (run (mapStep tr) m ops).1 ∧
      Refines tr (ops.foldl Operation.stale b) (run (step tr) s ops).2
        (run (mapStep tr) m ops).2 := by
  induction ops generalizing b s m with
  | nil => exact ⟨rfl, h⟩
  | cons op ops ih =>
    obtain ⟨hr, hs⟩ := refines_step h hf.1
    obtain ⟨hrs, hss⟩ := ih hs hf.2
    exact ⟨congrArg₂ cons hr hrs, hss⟩

/-- A run that does not ask for keys after a sort refines the run on maps, whatever the memory
held: the answers are the same, the list holds the live entries once, and keys are found unless
the list was sorted since. -/
theorem run_refines (tr : IndexSparseSetTraits n E A) (memory : Fin n → Nat)
    (ops : List (Operation n A)) (h : Fresh false ops) :
    let s := (run (step tr) (new memory) ops).2
    let m := (run (mapStep tr) (fun _ => none) ops).2
    (run (step tr) (new memory) ops).1 = (run (mapStep tr) (fun _ => none) ops).1 ∧
      Holds tr s m ∧ s.size = (Finset.univ.filter fun k => (m k).isSome).card ∧
      (ops.foldl Operation.stale false = false →
        ∀ k, s.get tr k = m k ∧ s.contains tr k = (m k).isSome) := by
  intro s m
  obtain ⟨hr, hs⟩ := refines_run (refines_of_indexed (Indexed.clear (new memory))) h
  refine ⟨hr, hs.holds, hs.holds.size_eq, fun hb k => ?_⟩
  have hg : s.get tr = m := (hs.indexed hb).2
  rw [contains_eq, hg]
  exact ⟨rfl, rfl⟩

/-- Two keys, one of which is removed; after a sort nothing is asked until all is cleared. -/
theorem run_refines_remove :
    let ops : List (Operation 3 Unit) := [.add (.last 2) (), .add ⟨1, by decide⟩ (),
      .remove (.last 2), .add ⟨0, by decide⟩ (), .sort, .clear, .add (.last 2) (),
      .remove ⟨1, by decide⟩]
    (run (step (keyTraits 3)) (new fun _ => 7) ops).1 = [some true, some true, some true,
      some true, none, none, some true, some false] := by
  intro ops
  have hfresh : Fresh false ops := ⟨rfl, rfl, rfl, rfl, trivial, trivial, rfl, rfl, trivial⟩
  rw [(run_refines (keyTraits 3) (fun _ => 7) ops hfresh).1]
  decide

/-- After a sort a key that is in the list is not found. -/
theorem sort_loses_keys :
    let a : Fin 3 := ⟨1, by decide⟩
    let b := Fin.last 2
    let s := (run (step (keyTraits 3)) (new fun _ => 7) [.add b (), .add a (), .sort]).2
    s.values = [a, b] ∧ s.contains (keyTraits 3) b = false ∧ (s.remove (keyTraits 3) b).1 = false ∧
      (s.add (keyTraits 3) b ()).2.values = [a, b, b] := by
  decide +kernel

end IndexSparseSet

end JavaScriptCore.Wtf
