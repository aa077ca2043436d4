import JavaScriptCore.ProgramLogic.Interleaving

/-!
# `ConcurrentPtrHashSet`

`wtf/ConcurrentPtrHashSet.h` and `.cpp`, for threads that take turns at the shared memory, one
access at a time. A table is never changed except by filling an empty slot and by counting; a resize
copies the current table to a new one that nobody else sees, and publishes that. Pointers are not
null. Sizes and loads are `unsigned`: a table of `2 ^ 31` slots is doubled to one of none. A failed
`RELEASE_ASSERT`, or a copy to a table without slots, leaves a thread `crashed`.

The state also records what the callers see: the calls that have returned, in order, each with the
number of those that had returned when it began, and the pointers for which an `add` has begun.
-/

namespace JavaScriptCore.Wtf

open Function

namespace ConcurrentPtrHashSet

structure Table (P : Type) where
  size : Nat
  load : Nat
  array : Nat → Option P

namespace Table

variable {P : Type}

def create (size : Nat) : Table P := ⟨size, 0, fun _ => none⟩

def mask (table : Table P) : Nat := (table.size + (2 ^ 32 - 1)) % 2 ^ 32

def maxLoad (table : Table P) : Nat := table.size / 2

def startIndex (hash : P → UInt32) (table : Table P) (ptr : P) : Nat :=
  (hash ptr).toNat &&& table.mask

end Table

inductive Operation (P : Type) where
  | add (ptr : P)
  | contains (ptr : P)
  deriving DecidableEq, Repr

/-- A call that has returned; `began` counts the calls that had returned before it began. -/
structure Call (P : Type) where
  operation : Operation P
  result : Bool
  began : Nat
  deriving DecidableEq, Repr

/-- Where a thread is, with its local variables. A table is known by its number. -/
inductive PC (P : Type) where
  | idle
  | contains (ptr : P) (began : Nat)
  | containsProbe (ptr : P) (began table index : Nat)
  | add (ptr : P) (began : Nat)
  | addProbe (ptr : P) (began table index : Nat)
  | addSlow (ptr : P) (began table index : Nat)
  | insert (ptr : P) (began table index : Nat)
  | inserted (ptr : P) (began table : Nat)
  | resize (ptr : P) (began : Nat)
  | resizeTable (ptr : P) (began : Nat)
  | resizeLoad (ptr : P) (began table : Nat)
  | copy (ptr : P) (began table i : Nat) (newTable : Table P) (load : Nat)
  | unlock (ptr : P) (began : Nat)
  | crashed

/-- `tables` holds the tables that have been published, `current` is the number of `m_table`. -/
structure State (P T : Type) where
  tables : Nat → Table P
  current : Nat
  lock : Option T
  pc : T → PC P
  returned : List (Call P)
  begun : List P

def initialSize : Nat := 32

def initial {P T : Type} : State P T where
  tables := fun _ => .create initialSize
  current := 0
  lock := none
  pc := fun _ => .idle
  returned := []
  begun := []

section

variable {P T : Type} [DecidableEq P] [DecidableEq T] (hash : P → UInt32)

def State.goto (s : State P T) (t : T) (next : PC P) : State P T :=
  { s with pc := update s.pc t next }

def State.return (s : State P T) (t : T) (call : Call P) : State P T :=
  { s.goto t .idle with returned := s.returned ++ [call] }

/-- The slot after `index`, unless the search has gone round. -/
def advance (table : Table P) (ptr : P) (index : Nat) (next : Nat → PC P) : PC P :=
  let index := (index + 1) &&& table.mask
  if index = table.startIndex hash ptr then .crashed else next index

/-- The inner loop of `resizeIfNecessary`: nobody else sees the new table. -/
def copyEntry (newTable : Table P) (ptr : P) : Nat → Nat → Option (Table P)
  | 0, _ => none
  | fuel + 1, index =>
    match newTable.array index with
    | none => some { newTable with array := update newTable.array index (some ptr) }
    | some entry =>
      if entry = ptr then none
      else
        let index := (index + 1) &&& newTable.mask
        if index = newTable.startIndex hash ptr then none else copyEntry newTable ptr fuel index

/-- One access of a thread. An idle thread calls `operation`. -/
def step (s : State P T) (turn : T × Operation P) : Option (State P T) :=
  let (t, operation) := turn
  match s.pc t with
  | .idle =>
    match operation with
    | .add ptr => some { s.goto t (.add ptr s.returned.length) with begun := ptr :: s.begun }
    | .contains ptr => some (s.goto t (.contains ptr s.returned.length))
  | .contains ptr began =>
    some (s.goto t (.containsProbe ptr began s.current
      ((s.tables s.current).startIndex hash ptr)))
  | .containsProbe ptr began table index =>
    match (s.tables table).array index with
    | none => some (s.return t ⟨.contains ptr, false, began⟩)
    | some entry =>
      if entry = ptr then some (s.return t ⟨.contains ptr, true, began⟩)
      else some (s.goto t (advance hash (s.tables table) ptr index
        (.containsProbe ptr began table)))
  | .add ptr began =>
    some (s.goto t (.addProbe ptr began s.current ((s.tables s.current).startIndex hash ptr)))
  | .addProbe ptr began table index =>
    match (s.tables table).array index with
    | none => some (s.goto t (.addSlow ptr began table index))
    | some entry =>
      if entry = ptr then some (s.return t ⟨.add ptr, false, began⟩)
      else some (s.goto t (advance hash (s.tables table) ptr index (.addProbe ptr began table)))
  | .addSlow ptr began table index =>
    let load := (s.tables table).load
    let next : PC P :=
      if load ≥ (s.tables table).maxLoad then .resize ptr began else .insert ptr began table index
    some { s.goto t next with
      tables := update s.tables table { s.tables table with load := (load + 1) % 2 ^ 32 } }
  | .insert ptr began table index =>
    match (s.tables table).array index with
    | none =>
      some { s.goto t (.inserted ptr began table) with
        tables := update s.tables table { s.tables table with
          array := update (s.tables table).array index (some ptr) } }
    | some oldEntry =>
      if oldEntry = ptr then some (s.return t ⟨.add ptr, false, began⟩)
      else some (s.goto t (advance hash (s.tables table) ptr index (.insert ptr began table)))
  | .inserted ptr began table =>
    if s.current ≠ table then some (s.goto t (.add ptr began))
    else some (s.return t ⟨.add ptr, true, began⟩)
  | .resize ptr began =>
    if s.lock = none then some { s.goto t (.resizeTable ptr began) with lock := some t } else none
  | .resizeTable ptr began => some (s.goto t (.resizeLoad ptr began s.current))
  | .resizeLoad ptr began table =>
    if (s.tables table).load < (s.tables table).maxLoad then some (s.goto t (.unlock ptr began))
    else some (s.goto t (.copy ptr began table 0 (.create ((s.tables table).size * 2 % 2 ^ 32)) 0))
  | .copy ptr began table i newTable load =>
    if i < (s.tables table).size then
      match (s.tables table).array i with
      | none => some (s.goto t (.copy ptr began table (i + 1) newTable load))
      | some entry =>
        match copyEntry hash newTable entry newTable.size (newTable.startIndex hash entry) with
        | some newTable => some (s.goto t (.copy ptr began table (i + 1) newTable (load + 1)))
        | none => some (s.goto t .crashed)
    else
      some { s.goto t (.unlock ptr began) with
        tables := update s.tables (s.current + 1) { newTable with load := load }
        current := s.current + 1 }
  | .unlock ptr began => some { s.goto t (.add ptr began) with lock := none }
  | .crashed => none

end

end ConcurrentPtrHashSet

end JavaScriptCore.Wtf
