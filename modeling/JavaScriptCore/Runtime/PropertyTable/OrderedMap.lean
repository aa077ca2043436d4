import JavaScriptCore.ProgramLogic.Simulation
import JavaScriptCore.Runtime.PropertyTable.TableSpec

/-!
# A `PropertyTable` is an insertion-ordered map

Programs of calls on a table, against the same calls on a list of properties. A rehash or a copy
asks for room for the properties that are there (`ASSERT(newCapacity >= m_keyCount)` of `copy`), and
capacities stay below `maxCapacity`, beyond which the index or the allocation wraps.
-/

namespace JavaScriptCore.Runtime

open JavaScriptCore.ProgramLogic

variable {w : Wtf.Platform} {K : Type}

namespace PropertyTable

inductive Call (K : Type) where
  | add (property : Property K) (offset : Int) (offsetEffect : EffectOnPropertyOffset)
  | remove (key : K)
  | find (key : K)
  | get (key : K)
  | rehash (newCapacity : Nat)
  | copy (newCapacity : Nat)

inductive Answer (K : Type) where
  | done
  | found (isSome : Bool) (property : Option (Property K))
  | added (isNewEntry : Bool) (property : Option (Property K)) (offset : Int)
  deriving DecidableEq, Repr

/-- The table represents the map. -/
def Represents (hash : K → UInt32) (t : PropertyTable w K) (map : List (Property K)) : Prop :=
  t.properties = map ∧ ∃ p, WellFormed hash p t

theorem create_represents {hash : K → UInt32} {initialCapacity : Nat}
    (h : initialCapacity < maxCapacity w) :
    Represents hash (create initialCapacity : PropertyTable w K) [] := by
  obtain ⟨p, hpos, hle, hs, _⟩ := sizeForCapacity_eq h
  exact ⟨rfl, p, allocated_wellFormed [] hpos hle hs⟩

variable [DecidableEq K]

/-- The calls on the table. -/
def callStep (hash : K → UInt32) (t : PropertyTable w K) :
    Call K → Option (PropertyTable w K × Answer K)
  | .add property offset offsetEffect => do
    let result ← t.add hash property offset offsetEffect
    return (result.table, .added result.isNewEntry (result.table.propertyAt result.iter.first)
      result.offset)
  | .remove key => do
    let t ← t.remove hash key
    return (t, .done)
  | .find key => do
    let iter ← t.find hash key
    return (t, .found iter.first.isSome (t.propertyAt iter.first))
  | .get key => do
    let first ← t.get hash key
    return (t, .found first.isSome (t.propertyAt first))
  | .rehash newCapacity => do
    let t ← t.rehash hash newCapacity
    return (t, .done)
  | .copy newCapacity => do
    let t ← t.copy hash newCapacity
    return (t, .done)

/-- The calls on the list of properties, with what each of them asks for. -/
def mapStep (w : Wtf.Platform) (map : List (Property K)) :
    Call K → Option (List (Property K) × Answer K)
  | .add property offset offsetEffect =>
    if property.key ∉ map.map Property.key ∧ map.length + 1 < maxCapacity w ∧
        (offsetEffect = .mustNotChange → property.offset ≤ offset) then
      some (map ++ [property], .added true (some property) (max offset property.offset))
    else none
  | .remove key => some (map.filter (·.key ≠ key), .done)
  | .find key | .get key =>
    some (map, .found (map.find? (·.key = key)).isSome (map.find? (·.key = key)))
  | .rehash newCapacity | .copy newCapacity =>
    if map.length ≤ newCapacity ∧ newCapacity < maxCapacity w then some (map, .done) else none

variable {hash : K → UInt32}

theorem Represents.callStep {t : PropertyTable w K} {map : List (Property K)}
    (h : Represents hash t map) {call : Call K} {map' : List (Property K)} {answer : Answer K}
    (hs : mapStep w map call = some (map', answer)) :
    ∃ t', t.callStep hash call = some (t', answer) ∧ Represents hash t' map' := by
  obtain ⟨rfl, p, hwf⟩ := h
  cases call with
  | add property offset offsetEffect =>
    simp only [mapStep] at hs
    split at hs
    · rename_i ha
      obtain ⟨hab, hmax, he⟩ := ha
      obtain ⟨q, result, n, hadd, hwf', hps, _, hnew, hi, hl, ho⟩ :=
        hwf.add hab (hwf.keyCount ▸ hmax) he
      cases hs
      refine ⟨result.table, ?_, hps, q, hwf'⟩
      have hat : result.table.propertyAt result.iter.first = some property := by
        rw [hi, propertyAt, Option.bind_some, hl, PropertyMapEntry.property?]
      simp [PropertyTable.callStep, hadd, hnew, hat, ho]
    · cases hs
  | remove key =>
    obtain ⟨q, t', hre, hwf', hps, _⟩ := hwf.remove key
    cases hs
    exact ⟨t', by simp [PropertyTable.callStep, hre], hps, q, hwf'⟩
  | find key =>
    obtain ⟨iter, hf, hp, hso⟩ := hwf.find_spec key
    cases hs
    exact ⟨t, by simp [PropertyTable.callStep, hf, hp, hso], rfl, p, hwf⟩
  | get key =>
    obtain ⟨first, hget, hp, hso⟩ := hwf.get_spec key
    cases hs
    exact ⟨t, by simp [PropertyTable.callStep, hget, hp, hso], rfl, p, hwf⟩
  | rehash newCapacity =>
    simp only [mapStep] at hs
    split at hs
    · rename_i ha
      obtain ⟨q, t', hr, hwf', hps, _⟩ := hwf.rehash (hwf.keyCount ▸ ha.1) ha.2
      cases hs
      exact ⟨t', by simp [PropertyTable.callStep, hr], hps, q, hwf'⟩
    · cases hs
  | copy newCapacity =>
    simp only [mapStep] at hs
    split at hs
    · rename_i ha
      obtain ⟨q, t', hc, hwf', hps, _⟩ := hwf.copy (hwf.keyCount ▸ ha.1) ha.2
      cases hs
      exact ⟨t', by simp [PropertyTable.callStep, hc], hps, q, hwf'⟩
    · cases hs

/-- Every program returns the answers of the map, and leaves a table that enumerates the map in
order, in which a search ends at an empty slot and the entry of the deleted slots holds no key. -/
theorem program_refines_orderedMap {initialCapacity : Nat}
    (hcapacity : initialCapacity < maxCapacity w) {calls : List (Call K)} {map : List (Property K)}
    {answers : List (Answer K)}
    (hrun : runAll (mapStep w) calls [] = some (map, answers)) :
    ∃ t : PropertyTable w K,
      runAll (callStep hash) calls (create initialCapacity) = some (t, answers) ∧
      t.iterate = map.map .live ∧ t.size = map.length ∧
      (∃ slot < t.indexSize, t.index slot = emptyEntryIndex) ∧
      t.usedCount ≤ t.tableCapacity ∧
      ∀ key, (t.table (t.deletedEntryIndex - 1)).hasKey key = false := by
  obtain ⟨t, hcalls, rfl, p, hwf⟩ := runAll_simulates hrun (create_represents hcapacity)
    fun _ _ h _ _ _ hstep => h.callStep hstep
  refine ⟨t, hcalls, hwf.iterate, hwf.keyCount, ?_, hwf.room, fun key => ?_⟩
  · obtain ⟨i, hi, hempty⟩ := hwf.exists_empty
    exact ⟨i, by rw [hwf.indexSize]; exact hi, slot_eq_empty.mp hempty⟩
  · rw [hwf.table_deletedEntryIndex]
    rfl

/-- Keys of one hash: the second stays reachable when the first is removed, and a key that is added
again comes last. -/
theorem program_refines_orderedMap_readded :
    let calls : List (Call Nat) := [.add ⟨1, 0, 0⟩ (-1) .mayChange, .add ⟨2, 1, 0⟩ 0 .mayChange,
      .remove 1, .get 2, .add ⟨1, 2, 0⟩ 1 .mayChange, .rehash 2]
    ∃ t : PropertyTable .bits32 Nat, runAll (callStep fun _ => 5) calls (create 0) =
      some (t, [.added true (some ⟨1, 0, 0⟩) 0, .added true (some ⟨2, 1, 0⟩) 1, .done,
        .found true (some ⟨2, 1, 0⟩), .added true (some ⟨1, 2, 0⟩) 2, .done]) ∧
      t.iterate = List.map .live [⟨2, 1, 0⟩, ⟨1, 2, 0⟩] ∧ t.size = 2 := by
  intro calls
  obtain ⟨t, hrun, hiterate, hsize, _⟩ :=
    @program_refines_orderedMap .bits32 Nat _ (fun _ => 5) 0 (by decide) calls _ _ rfl
  exact ⟨t, hrun, hiterate, hsize⟩

/-- From a capacity of `2 ^ 30` on the size of the index wraps, and a table has no slot at all.
Where a `size_t` has 32 bits, the bytes of the allocation wrap from `2 ^ 27` on, and the index does
not fit in it; the hash is `2 ^ 28 + 3`. -/
theorem create_without_slots :
    (∀ w, let t : PropertyTable w Nat := create (2 ^ 30)
      t.indexSize = 0 ∧ t.dataSize = sizeofValueType w ∧
        callStep (fun _ => 5) t (.add ⟨0, 0, 0⟩ (-1) .mayChange) = none) ∧
    let t : PropertyTable .bits32 Nat := create (2 ^ 27)
    t.indexSize * 4 = 2 ^ 31 ∧ t.dataSize = 2 ^ 30 + 12 ∧
      callStep (fun _ => 268435459) t (.add ⟨0, 0, 0⟩ (-1) .mayChange) = none := by
  refine ⟨fun w => ?_, by decide, by decide, ?_⟩
  · have hsize : (create (2 ^ 30) : PropertyTable w Nat).indexSize = 0 :=
      show sizeForCapacity (2 ^ 30) = 0 by decide
    have hfind : (create (2 ^ 30) : PropertyTable w Nat).find (fun _ => 5) 0 = none := by
      rw [find, hsize]
      rfl
    refine ⟨hsize, by cases w <;> decide, ?_⟩
    rw [callStep, add, hfind]
    rfl
  · have hsize : (create (2 ^ 27) : PropertyTable .bits32 Nat).indexSize = 2 ^ 29 - 1 + 1 := by
      decide
    have hfind : (create (2 ^ 27) : PropertyTable .bits32 Nat).find (fun _ => 268435459) 0 =
        none := by
      rw [find, hsize, Collections.probe, show findStep
        (create (2 ^ 27) : PropertyTable .bits32 Nat) 0 (268435459 : UInt32).toNat = none by decide]
    rw [callStep, add, hfind]
    rfl

end PropertyTable

end JavaScriptCore.Runtime
