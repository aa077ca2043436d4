import JavaScriptCore.ProgramLogic.Simulation
import JavaScriptCore.Wtf.HashTable.OperationSpec

/-!
# A `HashTable` is a finite set of entries

Programs of calls on tables, against the same calls on lists of entries with distinct keys, whose
order no answer shows. A program may copy and move tables and go on with both.
-/

namespace JavaScriptCore.Wtf

open JavaScriptCore.Collections
open JavaScriptCore.ProgramLogic

namespace HashTable

variable {K V : Type}

inductive Call (K V : Type) where
  | create
  | add (table : Nat) (key : K) (value : V)
  | addPassingHashCode (table : Nat) (key : K) (value : V)
  | remove (table : Nat) (key : K)
  | removeIf (table : Nat) (functor : V → Bool)
  | clear (table : Nat)
  | copy (table : Nat)
  | move (table : Nat)
  | lookup (table : Nat) (key : K)
  | size (table : Nat)

inductive Answer (V : Type) where
  | done
  | added (isNewEntry : Bool) (entry : Option V)
  | removed (any : Bool)
  | found (entry : Option V)
  | count (n : Nat)
  deriving DecidableEq, Repr

/-- The entry that an iterator denotes. -/
def denoted (t : HashTable V) (iterator : Option Nat) : Option V :=
  iterator.bind fun i => (t.bucket i).bind Slot.item?

/-- The calls on tables. -/
def callStep (traits : HashTraits K V) (tables : List (HashTable V)) :
    Call K V → Option (List (HashTable V) × Answer V)
  | .create => some (tables ++ [empty], .done)
  | .add table key value => do
    let t ← tables[table]?
    let result ← t.add traits key value
    return (tables.set table result.table,
      .added result.isNewEntry (result.table.denoted result.iterator))
  | .addPassingHashCode table key value => do
    let t ← tables[table]?
    let result ← t.addPassingHashCode traits key value
    return (tables.set table result.table,
      .added result.isNewEntry (result.table.denoted result.iterator))
  | .remove table key => do
    let t ← tables[table]?
    let t ← t.remove traits key
    return (tables.set table t, .done)
  | .removeIf table functor => do
    let t ← tables[table]?
    let (any, t) ← t.removeIf traits functor
    return (tables.set table t, .removed any)
  | .clear table => do
    let t ← tables[table]?
    return (tables.set table t.clear, .done)
  | .copy table => do
    let t ← tables[table]?
    let t ← t.copy traits
    return (tables ++ [t], .done)
  | .move table => do
    let t ← tables[table]?
    return (tables.set table t.move.2 ++ [t.move.1], .done)
  | .lookup table key => do
    let t ← tables[table]?
    let position ← t.lookup traits key
    return (tables, .found (t.denoted position))
  | .size table => do
    let t ← tables[table]?
    return (tables, .count t.size)

/-- What adding does to a set: nothing when it has an entry of the key. -/
def insertEntry (traits : HashTraits K V) (entries : List V) (key : K) (value : V) :
    List V × Answer V :=
  match entries.find? (sought traits key) with
  | some entry => (entries, .added false (some entry))
  | none => (value :: entries, .added true (some value))

/-- The calls on sets. An entry is added under a key equal to its own, to fewer than `2 ^ 28 - 1`
others. -/
def setStep (traits : HashTraits K V) (sets : List (List V)) :
    Call K V → Option (List (List V) × Answer V)
  | .create => some (sets ++ [[]], .done)
  | .add table key value | .addPassingHashCode table key value => do
    let entries ← sets[table]?
    if sought traits key value = true ∧ entries.length + 1 < 2 ^ 28 then
      let (entries, answer) := insertEntry traits entries key value
      return (sets.set table entries, answer)
    else none
  | .remove table key => do
    let entries ← sets[table]?
    return (sets.set table (entries.filter fun v => !sought traits key v), .done)
  | .removeIf table functor => do
    let entries ← sets[table]?
    return (sets.set table (entries.filter fun v => !functor v), .removed (entries.any functor))
  | .clear table => do
    let _ ← sets[table]?
    return (sets.set table [], .done)
  | .copy table => do
    let entries ← sets[table]?
    return (sets ++ [entries], .done)
  | .move table => do
    let entries ← sets[table]?
    return (sets.set table [] ++ [entries], .done)
  | .lookup table key => do
    let entries ← sets[table]?
    return (sets, .found (entries.find? (sought traits key)))
  | .size table => do
    let entries ← sets[table]?
    return (sets, .count entries.length)

/-! ## Simulation -/

variable {traits : HashTraits K V} {t : HashTable V} {entries : List V}

/-- A table represents a set of fewer than `2 ^ 28` entries. -/
structure Holds (traits : HashTraits K V) (t : HashTable V) (entries : List V) : Prop where
  represents : Represents traits t entries
  small : entries.length < 2 ^ 28

theorem empty_holds : Holds traits empty [] := ⟨.inl ⟨rfl, rfl⟩, Nat.two_pow_pos 28⟩

/-- A key has one entry at most. -/
theorem Distinct.find?_eq (h : Distinct traits entries) {key : K} {v : V} (hv : v ∈ entries)
    (hs : sought traits key v = true) : entries.find? (sought traits key) = some v := by
  induction entries with
  | nil => cases hv
  | cons w entries ih =>
    obtain ⟨hw, hd⟩ := List.pairwise_cons.mp h
    obtain rfl | hv := List.mem_cons.mp hv
    · exact List.find?_cons_of_pos hs
    have ho : sought traits key w = false := by
      rw [Bool.eq_false_iff]
      intro heq
      have hne := hw v hv
      rw [traits.equivalence.trans heq (traits.equivalence.symm hs)] at hne
      cases hne
    rw [List.find?_cons_of_neg (by simp [ho])]
    exact ih hd hv

theorem find?_eq_none {key : K} (h : ∀ v ∈ entries, sought traits key v = false) :
    entries.find? (sought traits key) = none :=
  List.find?_eq_none.mpr fun v hv => by simp [h v hv]

/-- What the two ways of adding have in common. -/
theorem Holds.of_added (h : Holds traits t entries) {key : K} {value : V}
    (hlen : entries.length + 1 < 2 ^ 28) {result : Option (AddResult V)}
    (had : Added traits entries key value result) :
    ∃ r, result = some r ∧ Holds traits r.table (insertEntry traits entries key value).1 ∧
      Answer.added r.isNewEntry (r.table.denoted r.iterator) =
        (insertEntry traits entries key value).2 := by
  obtain ⟨p, j, t', buffer, isNewEntry, w, rfl, hj, hsl, hsou, hc⟩ := had
  have hd : ∀ {l : List V}, Settled traits p t' buffer l → t'.denoted (some j) = some w := by
    intro l hs
    rw [denoted, Option.bind_some, hs.bucket hj, Option.bind_some, hsl]
    rfl
  refine ⟨_, rfl, ?_⟩
  obtain ⟨rfl, hw, hs⟩ | ⟨rfl, rfl, hab, hs⟩ := hc
  · rw [insertEntry, h.represents.distinct.find?_eq hw hsou]
    exact ⟨⟨.inr ⟨p, buffer, hs⟩, h.small⟩, by rw [hd hs]⟩
  · rw [insertEntry, find?_eq_none hab]
    exact ⟨⟨.inr ⟨p, buffer, hs⟩, hlen⟩, by rw [hd hs]⟩

theorem Represents.lookup_denoted (h : Represents traits t entries) (key : K) :
    ∃ position, t.lookup traits key = some position ∧
      t.denoted position = entries.find? (sought traits key) := by
  obtain ⟨i, v, hl, hb, hv, hs⟩ | ⟨hl, hab⟩ := h.lookup key
  · refine ⟨_, hl, ?_⟩
    rw [h.distinct.find?_eq hv hs, denoted, Option.bind_some, hb]
    rfl
  · exact ⟨none, hl, (find?_eq_none hab).symm⟩

theorem callStep_simulates {tables : List (HashTable V)} {sets : List (List V)}
    (h : List.Forall₂ (Holds traits) tables sets) {call : Call K V} {sets' : List (List V)}
    {answer : Answer V} (hs : setStep traits sets call = some (sets', answer)) :
    ∃ tables', callStep traits tables call = some (tables', answer) ∧
      List.Forall₂ (Holds traits) tables' sets' := by
  cases call
  case' add | addPassingHashCode | remove | removeIf | clear | copy | move | lookup | size =>
    obtain ⟨t, entries, ht, -, hh, hr⟩ := forall₂_bind h hs
  case create =>
    cases hs
    exact ⟨_, rfl, List.rel_append h (.cons empty_holds .nil)⟩
  case' add | addPassingHashCode =>
    split at hr
    case isFalse => cases hr
    rename_i ha
  case' add =>
    obtain ⟨r, hadd, hh', han⟩ := hh.of_added ha.2 (hh.represents.add ha.1 ha.2)
  case' addPassingHashCode =>
    obtain ⟨r, hadd, hh', han⟩ := hh.of_added ha.2 (hh.represents.addPassingHashCode ha.1 ha.2)
  case add | addPassingHashCode =>
    cases hr
    refine ⟨_, ?_, forall₂_set h hh' _⟩
    simp only [callStep, ht, hadd, han, Option.bind_eq_bind, Option.bind_some, Option.pure_def]
    rfl
  case' remove table key =>
    obtain ⟨t', hre, hrep⟩ := hh.represents.remove hh.small key
  case' removeIf table functor =>
    obtain ⟨t', hre, hrep⟩ := hh.represents.removeIf hh.small functor
  case remove | removeIf =>
    cases hr
    refine ⟨_, ?_, forall₂_set h ⟨hrep, ?_⟩ _⟩
    · simp [callStep, ht, hre]
    · exact Nat.lt_of_le_of_lt (List.length_filter_le _ _) hh.small
  case clear table =>
    cases hr
    refine ⟨_, ?_, forall₂_set h empty_holds table⟩
    simp only [callStep, ht, Option.bind_eq_bind, Option.bind_some, Option.pure_def]
    rfl
  case copy table =>
    obtain ⟨t', hc, hrep⟩ := hh.represents.copy hh.small
    cases hr
    refine ⟨_, ?_, List.rel_append h (.cons ⟨hrep, hh.small⟩ .nil)⟩
    simp [callStep, ht, hc]
  case move table =>
    cases hr
    refine ⟨_, ?_, List.rel_append (forall₂_set h empty_holds table) (.cons hh .nil)⟩
    simp only [callStep, ht, Option.bind_eq_bind, Option.bind_some, Option.pure_def]
    rfl
  case lookup table key =>
    obtain ⟨position, hl, hd⟩ := hh.represents.lookup_denoted key
    cases hr
    refine ⟨_, ?_, h⟩
    simp [callStep, ht, hl, hd]
  case size table =>
    cases hr
    refine ⟨_, ?_, h⟩
    simp [callStep, ht, hh.represents.size]

/-- The buckets of a table are a power of two in number, and at most half of them are in use. -/
def HalfEmpty (t : HashTable V) : Prop :=
  ∀ buffer, t.table = some buffer →
    ∃ p, t.tableSize = 2 ^ p ∧ 2 * usedSlots buffer (2 ^ p) ≤ 2 ^ p

theorem Represents.halfEmpty (h : Represents traits t entries) : t.HalfEmpty := by
  intro buffer hb
  obtain ⟨rfl, rfl⟩ | ⟨p, buffer', hs⟩ := h
  · cases hb
  · obtain rfl : buffer' = buffer := Option.some.inj (hs.table.symm.trans hb)
    refine ⟨p, hs.tableSize, ?_⟩
    rw [hs.occupied, ← hs.deletedCount]
    exact hs.load.le

/-- Every program returns the answers of the sets, and leaves tables whose iterators visit each
entry of their sets once. -/
theorem program_refines_entrySet {calls : List (Call K V)} {sets : List (List V)}
    {answers : List (Answer V)} (hrun : runAll (setStep traits) calls [] = some (sets, answers)) :
    (∀ h : UInt32, Odd (1 ||| doubleHash h).toNat) ∧
    ∃ tables, runAll (callStep traits) calls [] = some (tables, answers) ∧
      List.Forall₂ (fun t entries => t.iterate.Perm entries ∧ t.HalfEmpty) tables sets := by
  refine ⟨odd_step, ?_⟩
  obtain ⟨tables, hcalls, hholds⟩ := runAll_simulates (R := List.Forall₂ (Holds traits)) hrun .nil
    fun _ _ h _ _ _ hstep => callStep_simulates h hstep
  refine ⟨tables, hcalls, hholds.imp fun t entries h => ?_⟩
  exact ⟨h.represents.iterate, h.represents.halfEmpty⟩

/-- Numbers with one hash for all. -/
def collidingTraits : HashTraits Nat Nat where
  extract := id
  hash _ := 3
  equal a b := a = b
  minimumTableSize := 8
  equivalence := ⟨by simp, fun h => by simpa using (of_decide_eq_true h).symm, fun h h' => by
    simpa using (of_decide_eq_true h).trans (of_decide_eq_true h')⟩
  compatible := by simp
  powerOfTwo := ⟨3, by decide, by decide, rfl⟩

/-- The fourth entry makes the table grow; a copy does not see later removals. -/
theorem program_refines_entrySet_grown : (∀ h : UInt32, Odd (1 ||| doubleHash h).toNat) ∧
    ∃ tables, runAll (callStep collidingTraits) [.create, .add 0 1 1, .add 0 2 2, .remove 0 1,
        .addPassingHashCode 0 3 3, .add 0 4 4, .add 0 5 5, .add 0 3 3, .copy 0, .removeIf 0 (· < 4),
        .lookup 0 3, .lookup 1 3, .size 1] [] =
      some (tables, [.done, .added true (some 1), .added true (some 2), .done, .added true (some 3),
        .added true (some 4), .added true (some 5), .added false (some 3), .done, .removed true,
        .found none, .found (some 3), .count 4]) ∧
      List.Forall₂ (fun t entries => t.iterate.Perm entries ∧ t.HalfEmpty) tables
        [[5, 4], [5, 4, 3, 2]] :=
  program_refines_entrySet rfl

end HashTable

end JavaScriptCore.Wtf
