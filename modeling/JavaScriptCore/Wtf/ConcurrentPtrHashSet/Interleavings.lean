import JavaScriptCore.Wtf.ConcurrentPtrHashSet.TableSpec

/-!
# Interleavings of `add` and `contains`

A thread that has counted itself in before the table was full may fill its slot when a resize has
already copied that slot, and find the old table still in place: its pointer is not in the new one.
If instead the slot is copied after it is filled, the thread finds its own pointer in the new table
and reports that it was there before. Both need a thread that is inserting when the copying starts.
When there is none, no thread can begin to insert into the old table any more, and the set behaves
as one that is changed in a single place.
-/

namespace JavaScriptCore.Wtf.ConcurrentPtrHashSet

open JavaScriptCore.Collections JavaScriptCore.ProgramLogic List Function Nat Table State

variable {P T : Type}

namespace PC

def inserts : PC P → Nat
  | insert _ _ _ _ => 1
  | _ => 0

/-- Between counting itself in and finding out whether its table is still the current one. -/
def inserting : PC P → Bool
  | insert _ _ _ _ | inserted _ _ _ => true
  | _ => false

def locked : PC P → Bool
  | resizeTable _ _ | resizeLoad _ _ _ | copy _ _ _ _ _ _ | unlock _ _ => true
  | _ => false

def copies : PC P → Bool
  | copy _ _ _ _ _ _ => true
  | _ => false

/-- It has added `ptr` and is going to say so. -/
def hasInserted [DecidableEq P] (ptr : P) : PC P → Nat
  | inserted ptr' _ _ => if ptr' = ptr then 1 else 0
  | _ => 0

end PC

/-- The thread has found the table full and is going to copy it. -/
def startsResize (s : State P T) (t : T) : Bool :=
  match s.pc t with
  | .resizeLoad _ _ table => (s.tables table).maxLoad ≤ (s.tables table).load
  | _ => false

/-- The thread is going to count itself in, or to double a table, beyond 32 bits. -/
def wraps (s : State P T) (t : T) : Bool :=
  match s.pc t with
  | .addSlow _ _ table _ => 2 ^ 32 ≤ (s.tables table).load + 1
  | .resizeLoad _ _ table => 2 ^ 32 ≤ (s.tables table).size * 2 && startsResize s t
  | _ => false

/-- Schedules in which nobody is inserting when a resize starts, and no size or load wraps. -/
def quietStep [DecidableEq P] [DecidableEq T] [Fintype T] (hash : P → UInt32) (s : State P T)
    (turn : T × Operation P) : Option (State P T) :=
  if wraps s turn.1 ∨ startsResize s turn.1 ∧ ∃ u, (s.pc u).inserting = true then none
  else step hash s turn

/-! ## The race -/

/-- Fifteen pointers, and a thread that is about to fill slot 20. -/
def almostFull : List (Fin 3 × Operation Nat) :=
  (range 15).flatMap (fun i => replicate 6 (0, .add (i + 1))) ++
    replicate 4 (1, .add 20)

/-- The slot is filled after it has been copied; then somebody looks for the pointer. -/
def filledTooLate : List (Fin 3 × Operation Nat) :=
  almostFull ++ replicate 39 (2, .add 25) ++ replicate 2 (1, .add 20) ++
    [(2, .add 25)] ++ replicate 3 (0, .contains 20)

/-- The slot is filled before it is copied. -/
def filledInTime : List (Fin 3 × Operation Nat) :=
  almostFull ++ replicate 7 (2, .add 25) ++ [(1, .add 20)] ++
    replicate 33 (2, .add 25) ++ replicate 3 (1, .add 20)

/-- An `add` returned true and a later `contains` returns false; the only `add` of a pointer
returned false. -/
theorem add_races_with_resize :
    (follow (step UInt32.ofNat) filledTooLate initial).map (·.returned.drop 15) =
        some [⟨.add 20, true, 15⟩, ⟨.contains 20, false, 16⟩] ∧
      (follow (step UInt32.ofNat) filledInTime initial).map
        (fun s => (s.begun.count 20, s.returned.drop 15)) = some (1, [⟨.add 20, false, 15⟩]) := by
  decide +kernel

/-! ## What holds when resizes start quietly -/

/-- What a thread knows. A search for `ptr` in a table that was published before stays valid; an
insertion goes to the current table. -/
def PC.Asserts (hash : P → UInt32) (s : State P T) : PC P → Prop
  | idle => True
  | contains _ began => began ≤ s.returned.length
  | containsProbe ptr began table index =>
    began ≤ s.returned.length ∧ table ≤ s.current ∧
      (s.tables table).Passed hash (5 + table) ptr index ∧
      ∀ call ∈ s.returned.take began, call.operation = .add ptr → ptr ∈ (s.tables table).entries
  | add ptr began | resize ptr began | resizeTable ptr began | unlock ptr began =>
    began ≤ s.returned.length ∧ ptr ∈ s.begun
  | addProbe ptr began table index | addSlow ptr began table index =>
    began ≤ s.returned.length ∧ ptr ∈ s.begun ∧ table ≤ s.current ∧
      (s.tables table).Passed hash (5 + table) ptr index
  | insert ptr began table index =>
    began ≤ s.returned.length ∧ ptr ∈ s.begun ∧ table = s.current ∧
      (s.tables table).Passed hash (5 + table) ptr index
  | inserted ptr began table =>
    began ≤ s.returned.length ∧ table = s.current ∧ ptr ∈ (s.tables table).entries
  | resizeLoad ptr began table =>
    began ≤ s.returned.length ∧ ptr ∈ s.begun ∧ table = s.current
  | copy ptr began table i newTable load =>
    began ≤ s.returned.length ∧ ptr ∈ s.begun ∧ table = s.current ∧
      i ≤ (s.tables table).size ∧ Table.Copied hash (5 + table) (s.tables table) i newTable load
  | crashed => False

variable [DecidableEq P] [Fintype T]

/-- The table that `m_table` points to. -/
def State.table (s : State P T) : Table P := s.tables s.current

/-- The calls of `add ptr` that have returned true. -/
def State.trueAdds (s : State P T) (ptr : P) : Nat :=
  s.returned.countP fun call => call.operation = .add ptr ∧ call.result = true

structure Inv (hash : P → UInt32) (s : State P T) : Prop where
  tables : ∀ k ≤ s.current, (s.tables k).WellFormed hash (5 + k) ∧
    (s.tables k).used ≤ (s.tables k).maxLoad
  full : ∀ k < s.current, (s.tables k).maxLoad ≤ (s.tables k).load
  subset : ∀ k ≤ s.current, (s.tables k).entries ⊆ s.table.entries
  counted : s.table.used + ∑ t, (s.pc t).inserts ≤ min s.table.load s.table.maxLoad
  lock : ∀ t, (s.pc t).locked = true → s.lock = some t
  quiet : ∀ t, (s.pc t).copies = true →
    (∀ u, (s.pc u).inserting = false) ∧ s.table.maxLoad ≤ s.table.load
  begun : ∀ ptr ∈ s.table.entries, ptr ∈ s.begun
  added : ∀ call ∈ s.returned, ∀ ptr, call.operation = .add ptr → ptr ∈ s.table.entries
  began : ∀ call ∈ s.returned, call.began ≤ s.returned.length
  missed : ∀ call ∈ s.returned, ∀ ptr, call.operation = .contains ptr → call.result = false →
    ∀ call' ∈ s.returned.take call.began, call'.operation ≠ .add ptr
  found : ∀ call ∈ s.returned, ∀ ptr, call.operation = .contains ptr → call.result = true →
    ptr ∈ s.begun
  once : ∀ ptr, (ptr ∈ s.table.entries → s.trueAdds ptr + ∑ t, (s.pc t).hasInserted ptr = 1) ∧
    (ptr ∉ s.table.entries → s.trueAdds ptr + ∑ t, (s.pc t).hasInserted ptr = 0)
  asserts : ∀ t, (s.pc t).Asserts hash s

theorem inv_initial (hash : P → UInt32) : Inv hash (initial : State P T) := by
  have he : (create initialSize : Table P).entries = ∅ := by
    ext x
    simp [entries, create]
  exact
    { tables := by
        intro k hk
        obtain rfl : k = 0 := le_zero.mp hk
        exact ⟨.create hash (by decide), by rw [initial, used_create]; exact zero_le _⟩
      full := fun k hk => absurd hk (Nat.not_lt_zero k)
      subset := fun k hk => by
        obtain rfl : k = 0 := le_zero.mp hk
        exact fun _ h => h
      counted := by
        simp [table, initial, used_create, PC.inserts]
      lock := by simp [initial, PC.locked]
      quiet := by simp [initial, PC.copies]
      begun := by simp [table, initial, he]
      added := by simp [initial]
      began := by simp [initial]
      missed := by simp [initial]
      found := by simp [initial]
      once := by simp [table, trueAdds, initial, he, PC.hasInserted]
      asserts := fun _ => trivial }

omit [DecidableEq P] [Fintype T] in
/-- What a thread knows stays true while tables grow, calls return and calls begin, as long as the
current table stays in place for a thread that inserts or has the lock, and unchanged for one that
copies it. -/
theorem PC.Asserts.frame {hash : P → UInt32} {s s' : State P T} {p : PC P}
    (h : p.Asserts hash s) (hle : s.current ≤ s'.current)
    (hcur : p.inserting = true ∨ p.locked = true → s'.current = s.current)
    (hg : ∀ k ≤ s.current, (s.tables k).Grows (s'.tables k))
    (hr : ∃ calls, s'.returned = s.returned ++ calls) (hbe : ∀ ptr ∈ s.begun, ptr ∈ s'.begun)
    (hco : p.copies = true → (s'.tables s.current).array = (s.tables s.current).array) :
    p.Asserts hash s' := by
  obtain ⟨calls, hca⟩ := hr
  have hlen : s.returned.length ≤ s'.returned.length := by
    rw [hca, length_append]
    exact Nat.le_add_right _ _
  cases p with
  | idle => trivial
  | contains ptr began => exact le_trans h hlen
  | containsProbe ptr began table idx =>
    obtain ⟨hb, ht, hp, had⟩ := h
    refine ⟨hb.trans hlen, ht.trans hle, hp.grows (hg _ ht), fun call hcal hop => ?_⟩
    rw [hca, take_append_of_le_length hb] at hcal
    exact (hg _ ht).entries (had call hcal hop)
  | add ptr began | resize ptr began | resizeTable ptr began | unlock ptr began =>
    exact ⟨h.1.trans hlen, hbe ptr h.2⟩
  | addProbe ptr began table idx | addSlow ptr began table idx =>
    obtain ⟨hb, hptr, ht, hp⟩ := h
    exact ⟨hb.trans hlen, hbe ptr hptr, ht.trans hle, hp.grows (hg _ ht)⟩
  | insert ptr began table idx =>
    obtain ⟨hb, hptr, ht, hp⟩ := h
    exact ⟨hb.trans hlen, hbe ptr hptr, ht.trans (hcur (.inl rfl)).symm, hp.grows (hg _ ht.le)⟩
  | inserted ptr began table =>
    obtain ⟨hb, ht, he⟩ := h
    exact ⟨hb.trans hlen, ht.trans (hcur (.inl rfl)).symm, (hg _ ht.le).entries he⟩
  | resizeLoad ptr began table =>
    exact ⟨h.1.trans hlen, hbe ptr h.2.1, h.2.2.trans (hcur (.inr rfl)).symm⟩
  | copy ptr began table i newTable load =>
    obtain ⟨hb, hptr, rfl, hi, hc⟩ := h
    refine ⟨hb.trans hlen, hbe ptr hptr, (hcur (.inr rfl)).symm, ?_, ?_⟩
    · rw [(hg _ (le_refl _)).size]
      exact hi
    refine ⟨hc.wellFormed, ?_, hc.used, ?_⟩
    · rw [hco rfl]
      exact hc.entries
    · rw [show (s'.tables s.current).slots = (s.tables s.current).slots by
        funext j; rw [slots, slots, hco rfl]]
      exact hc.load
  | crashed => exact h

/-! ## What the steps keep -/

section

variable [DecidableEq T] {hash : P → UInt32} {s : State P T} {t : T} {next : PC P}

omit [DecidableEq P] [Fintype T] in
theorem goto_self (next : PC P) : (s.goto t next).pc t = next := update_self ..

omit [DecidableEq P] [Fintype T] in
theorem goto_ne (next : PC P) {u : T} (hu : u ≠ t) : (s.goto t next).pc u = s.pc u :=
  update_of_ne hu ..

omit [DecidableEq P] in
theorem sum_goto (s : State P T) (t : T) (f : PC P → Nat) (next : PC P) :
    ∑ u, f ((s.goto t next).pc u) + f (s.pc t) = ∑ u, f (s.pc u) + f next :=
  sum_update f s.pc t next

omit [DecidableEq P] in
theorem sum_goto_of_eq (f : PC P → Nat) (h : f next = f (s.pc t)) :
    ∑ u, f ((s.goto t next).pc u) = ∑ u, f (s.pc u) := by
  have hsum := sum_goto s t f next
  omega

omit [DecidableEq P] [Fintype T] in
/-- What holds of the thread that moves and of the others holds of all. -/
theorem goto_forall {Q : T → PC P → Prop} (hs : Q t next) (hos : ∀ u ≠ t, Q u (s.pc u))
    (u : T) : Q u ((s.goto t next).pc u) := by
  by_cases hu : u = t
  · rw [hu, goto_self]
    exact hs
  · rw [goto_ne next hu]
    exact hos u hu

omit [DecidableEq P] [Fintype T] in
theorem not_inserting_goto (h : ∀ u, (s.pc u).inserting = false) (hn : next.inserting = false)
    (u : T) : ((s.goto t next).pc u).inserting = false :=
  goto_forall (Q := fun _ p => p.inserting = false) hn (fun u _ => h u) u

omit [DecidableEq P] [Fintype T] in
/-- A class of places that the thread does not go to holds only threads that were there before. -/
theorem of_goto {f : PC P → Bool} (hn : f next = false) {u : T}
    (hu : f ((s.goto t next).pc u) = true) : u ≠ t ∧ f (s.pc u) = true := by
  have hut : u ≠ t := by
    rintro rfl
    rw [goto_self, hn] at hu
    cases hu
  exact ⟨hut, by rwa [goto_ne next hut] at hu⟩

omit [DecidableEq T] in
/-- The additions that were reported, or are about to be, are accounted for as before. -/
theorem Inv.once_of (h : Inv hash s) {s' : State P T} (ptr : P)
    (hes : s'.table.entries = s.table.entries)
    (hsum : s'.trueAdds ptr + ∑ u, (s'.pc u).hasInserted ptr =
      s.trueAdds ptr + ∑ u, (s.pc u).hasInserted ptr) :
    (ptr ∈ s'.table.entries → s'.trueAdds ptr + ∑ u, (s'.pc u).hasInserted ptr = 1) ∧
      (ptr ∉ s'.table.entries → s'.trueAdds ptr + ∑ u, (s'.pc u).hasInserted ptr = 0) := by
  rw [hes, hsum]
  exact h.once ptr

/-- A step that touches neither tables nor results. -/
theorem Inv.move (h : Inv hash s) {lock : Option T} {begun : List P}
    (hins : next.inserts = (s.pc t).inserts)
    (hin : ∀ ptr, next.hasInserted ptr = (s.pc t).hasInserted ptr)
    (hi : (s.pc t).inserting = false → next.inserting = false)
    (hl : ∀ u ≠ t, (s.pc u).locked = true → lock = some u)
    (hl' : next.locked = true → lock = some t)
    (hq : next.copies = true → (∀ u, (s.pc u).inserting = false) ∧ s.table.maxLoad ≤ s.table.load)
    (hb : ∀ ptr ∈ s.begun, ptr ∈ begun)
    (ha : next.Asserts hash { s.goto t next with lock := lock, begun := begun }) :
    Inv hash { s.goto t next with lock := lock, begun := begun } where
  tables := h.tables
  full := h.full
  subset := h.subset
  counted := by
    rw [sum_goto_of_eq PC.inserts hins]
    exact h.counted
  lock := goto_forall (Q := fun u p => p.locked = true → lock = some u) hl' hl
  quiet u hu := by
    obtain ⟨hn, hlo⟩ := goto_forall
      (Q := fun _ p => p.copies = true →
        (∀ v, (s.pc v).inserting = false) ∧ s.table.maxLoad ≤ s.table.load)
      hq (fun u _ => h.quiet u) u hu
    exact ⟨not_inserting_goto hn (hi (hn t)), hlo⟩
  begun ptr hptr := hb ptr (h.begun ptr hptr)
  added := h.added
  began := h.began
  missed := h.missed
  found call hc ptr hop hr := hb ptr (h.found call hc ptr hop hr)
  once ptr := h.once_of ptr rfl (congrArg (s.trueAdds ptr + ·)
    (sum_goto_of_eq (PC.hasInserted ptr) (hin ptr)))
  asserts := goto_forall (Q := fun _ => PC.Asserts hash _) ha fun u _ =>
    (h.asserts u).frame (le_refl _) (fun _ => rfl) (fun k _ => .refl _)
      ⟨[], by simp [goto]⟩ hb fun _ => rfl

/-- A call returns. -/
theorem Inv.return (h : Inv hash s) {call : Call P} (hb : call.began ≤ s.returned.length)
    (had : ∀ ptr, call.operation = .add ptr → ptr ∈ s.table.entries)
    (ht : ∀ ptr, (s.pc t).hasInserted ptr =
      if call.operation = .add ptr ∧ call.result = true then 1 else 0)
    (hm : ∀ ptr, call.operation = .contains ptr → call.result = false →
      ∀ call' ∈ s.returned.take call.began, call'.operation ≠ .add ptr)
    (hf : ∀ ptr, call.operation = .contains ptr → call.result = true → ptr ∈ s.begun) :
    Inv hash (s.return t call) where
  tables := h.tables
  full := h.full
  subset := h.subset
  counted := by
    have hsum := sum_goto s t PC.inserts .idle
    have hi : (PC.idle : PC P).inserts = 0 := rfl
    have hle : ∑ u, ((s.goto t .idle).pc u).inserts ≤ ∑ u, (s.pc u).inserts := by omega
    exact (Nat.add_le_add_left hle _).trans h.counted
  lock u hu := h.lock u (of_goto (f := PC.locked) rfl hu).2
  quiet u hu := by
    obtain ⟨hn, hl⟩ := h.quiet u (of_goto (f := PC.copies) rfl hu).2
    exact ⟨not_inserting_goto hn rfl, hl⟩
  begun := h.begun
  added call' hc' ptr hop := by
    obtain hold | hnew := mem_append.mp hc'
    · exact h.added call' hold ptr hop
    · rw [mem_singleton.mp hnew] at hop
      exact had ptr hop
  began call' hc' := by
    rw [State.return, length_append]
    obtain hold | hnew := mem_append.mp hc'
    · exact (h.began call' hold).trans (Nat.le_add_right _ _)
    · rw [mem_singleton.mp hnew]
      exact hb.trans (Nat.le_add_right _ _)
  missed call' hc' ptr hop hr := by
    obtain hold | hnew := mem_append.mp hc'
    · rw [State.return, take_append_of_le_length (h.began call' hold)]
      exact h.missed call' hold ptr hop hr
    · rw [mem_singleton.mp hnew] at hop hr ⊢
      rw [State.return, take_append_of_le_length hb]
      exact hm ptr hop hr
  found call' hc' ptr hop hr := by
    obtain hold | hnew := mem_append.mp hc'
    · exact h.found call' hold ptr hop hr
    · rw [mem_singleton.mp hnew] at hop hr
      exact hf ptr hop hr
  once ptr := by
    have hsum := sum_goto s t (PC.hasInserted ptr) .idle
    have hct : (s.return t call).trueAdds ptr = s.trueAdds ptr + (s.pc t).hasInserted ptr := by
      rw [State.trueAdds, State.return, countP_append, ht, countP_singleton]
      simp [State.trueAdds]
    have hi : (PC.idle : PC P).hasInserted ptr = 0 := rfl
    refine h.once_of ptr rfl ?_
    rw [hct]
    show _ + ∑ u, ((s.goto t .idle).pc u).hasInserted ptr = _
    omega
  asserts := goto_forall (Q := fun _ => PC.Asserts hash _) trivial fun u _ =>
    (h.asserts u).frame (le_refl _) (fun _ => rfl) (fun k _ => .refl _) ⟨[call], rfl⟩
      (fun _ h => h) fun _ => rfl

variable {ptr : P} {began table : Nat}

/-- An `add` returns, when its pointer is in the table. -/
theorem Inv.return_add (h : Inv hash s) {result : Bool} (hb : began ≤ s.returned.length)
    (hptr : ptr ∈ s.table.entries) (ht : ∀ ptr', (s.pc t).hasInserted ptr' =
      if Operation.add ptr = .add ptr' ∧ result = true then 1 else 0) :
    Inv hash (s.return t ⟨.add ptr, result, began⟩) := by
  refine h.return hb (fun _ hop => ?_) ht (fun _ hop => nomatch hop) (fun _ hop => nomatch hop)
  cases hop
  exact hptr

/-- A thread counts itself in: it goes on to insert, or finds the table full. -/
theorem Inv.count (h : Inv hash s) {i : Nat} (hpc : s.pc t = .addSlow ptr began table i)
    (hn : next = if (s.tables table).load ≥ (s.tables table).maxLoad then .resize ptr began
      else .insert ptr began table i) :
    Inv hash { s.goto t next with
      tables := update s.tables table
        { s.tables table with load := (s.tables table).load + 1 } } := by
  have ha := h.asserts t
  rw [hpc] at ha
  obtain ⟨hb, hptr, hta, hpa⟩ := ha
  generalize ht : update s.tables table
    { s.tables table with load := (s.tables table).load + 1 } = tables
  -- nothing but a load changes
  have hl : ∀ k, ∃ load ≥ (s.tables k).load, tables k = { s.tables k with load := load } := by
    intro k
    by_cases hk : k = table
    · subst hk
      exact ⟨_, le_succ _, by rw [← ht, update_self]⟩
    · exact ⟨_, Nat.le_refl _, by rw [← ht, update_of_ne hk]⟩
  have hg : ∀ k, (s.tables k).Grows (tables k) := by
    intro k
    obtain ⟨load, _, hk⟩ := hl k
    rw [hk]
    exact ⟨rfl, fun _ _ h => h⟩
  have hes : ∀ k, (tables k).entries = (s.tables k).entries := by
    intro k
    obtain ⟨load, _, hk⟩ := hl k
    rw [hk]
    rfl
  obtain ⟨load, hle, hcur⟩ := hl s.current
  -- a thread that goes on does so in the current table, which was not full
  have hi : (s.tables table).load < (s.tables table).maxLoad →
      table = s.current ∧ load = s.table.load + 1 := by
    intro hlt
    obtain hles | heq := Nat.lt_or_eq_of_le hta
    · have := h.full table hles
      omega
    · subst heq
      rw [← ht, update_self] at hcur
      exact ⟨rfl, (congrArg Table.load hcur).symm⟩
  have hin : ∀ p, next.hasInserted p = (s.pc t).hasInserted p := by
    intro p
    rw [hn, hpc]
    split <;> rfl
  have hun : next.locked = false ∧ next.copies = false := by
    rw [hn]
    split <;> exact ⟨rfl, rfl⟩
  exact
    { tables := fun k hk => by
        obtain ⟨load, _, hl⟩ := hl k
        obtain ⟨hwf, hus⟩ := h.tables k hk
        show (tables k).WellFormed hash (5 + k) ∧ (tables k).used ≤ (tables k).maxLoad
        rw [hl]
        exact ⟨⟨hwf.size, hwf.small, hwf.indexed⟩, hus⟩
      full := fun k hk => by
        obtain ⟨load, hle, hl⟩ := hl k
        show (tables k).maxLoad ≤ (tables k).load
        rw [hl]
        exact (h.full k hk).trans hle
      subset := fun k hk => by
        show (tables k).entries ⊆ (tables s.current).entries
        rw [hes, hes]
        exact h.subset k hk
      counted := by
        show (tables s.current).used + ∑ u, ((s.goto t next).pc u).inserts ≤
          min (tables s.current).load (tables s.current).maxLoad
        rw [hcur]
        have hsum := sum_goto s t PC.inserts next
        have hc := h.counted
        rw [Nat.le_min] at hc ⊢
        show s.table.used + _ ≤ load ∧ s.table.used + _ ≤ s.table.maxLoad
        have hle' : s.table.load ≤ load := hle
        by_cases hf : (s.tables table).load ≥ (s.tables table).maxLoad
        · rw [if_pos hf] at hn
          have hno : next.inserts = 0 := by rw [hn]; rfl
          omega
        rw [if_neg hf] at hn
        obtain ⟨heq, hone⟩ := hi (Nat.lt_of_not_le hf)
        have hno : next.inserts = 1 := by rw [hn]; rfl
        have hlt : s.table.load < s.table.maxLoad := by
          rw [State.table, ← heq]
          exact Nat.lt_of_not_le hf
        omega
      lock := fun u hu => h.lock u (of_goto hun.1 hu).2
      quiet := fun u hu => by
        obtain ⟨hno, hf⟩ := h.quiet u (of_goto hun.2 hu).2
        refine ⟨not_inserting_goto hno ?_, ?_⟩
        · rw [hn, if_pos]
          · rfl
          · by_contra hlt
            obtain ⟨heq, _⟩ := hi (Nat.lt_of_not_le hlt)
            rw [heq] at hlt
            exact hlt hf
        · show (tables s.current).maxLoad ≤ (tables s.current).load
          rw [hcur]
          exact hf.trans hle
      begun := fun p hp => by
        refine h.begun p ?_
        rw [State.table, ← hes]
        exact hp
      added := fun call hca p hop => by
        show p ∈ (tables s.current).entries
        rw [hes]
        exact h.added call hca p hop
      began := h.began
      missed := h.missed
      found := h.found
      once := fun p => h.once_of p (hes s.current) (congrArg (s.trueAdds p + ·)
        (sum_goto_of_eq (PC.hasInserted p) (hin p)))
      asserts := by
        refine goto_forall (Q := fun _ => PC.Asserts hash _) ?_ fun u _ => ?_
        · rw [hn]
          split_ifs with hf
          · exact ⟨hb, hptr⟩
          · exact ⟨hb, hptr, (hi (Nat.lt_of_not_le hf)).1, hpa.grows (hg table)⟩
        · refine (h.asserts u).frame (Nat.le_refl _) (fun _ => rfl) (fun k _ => hg k)
            ⟨[], by simp [State.goto]⟩ (fun _ h => h) fun _ => ?_
          show (tables s.current).array = _
          rw [hcur] }

/-- A slot of the current table is filled. -/
theorem Inv.fill (h : Inv hash s) {i : Nat} (hpc : s.pc t = .insert ptr began table i)
    (he : (s.tables table).array i = none) :
    Inv hash { s.goto t (.inserted ptr began table) with
      tables := update s.tables table ((s.tables table).fill i ptr) } := by
  have ha := h.asserts t
  rw [hpc] at ha
  obtain ⟨hb, hptr, rfl, hpa⟩ := ha
  generalize ht : update s.tables s.current ((s.tables s.current).fill i ptr) = tables
  have hs : tables s.current = s.table.fill i ptr := by
    rw [← ht, update_self]
    rfl
  have hos : ∀ k ≠ s.current, tables k = s.tables k := by
    intro k hk
    rw [← ht, update_of_ne hk]
  obtain ⟨hwf, _⟩ := h.tables s.current (Nat.le_refl _)
  have hi : i < s.table.size := by
    rw [table, hwf.size]
    exact hpa.lt
  have hg : ∀ k, (s.tables k).Grows (tables k) := by
    intro k
    by_cases hk : k = s.current
    · rw [hk, hs]
      exact grows_fill he ptr
    · rw [hos k hk]
      exact .refl _
  have hes : (tables s.current).entries = insert ptr s.table.entries := by
    rw [hs, entries_fill hi he]
  have hnew : ptr ∉ s.table.entries := hwf.not_mem_of_empty hpa he
  have hins : (s.pc t).inserting = true := by rw [hpc]; rfl
  have hn : ∀ u, (s.pc u).copies = false := by
    intro u
    by_contra hc
    have := (h.quiet u (by simpa using hc)).1 t
    rw [hins] at this
    cases this
  have hsum := sum_goto s t PC.inserts (.inserted ptr began s.current)
  have hone : (s.pc t).inserts = 1 := by rw [hpc]; rfl
  have hz : (PC.inserted ptr began s.current).inserts = 0 := rfl
  have hcd := h.counted
  rw [Nat.le_min] at hcd
  exact
    { tables := fun k hk => by
        show (tables k).WellFormed hash (5 + k) ∧ (tables k).used ≤ (tables k).maxLoad
        by_cases hkc : k = s.current
        · subst hkc
          rw [hs]
          refine ⟨hwf.fill hpa he, ?_⟩
          rw [used_fill hi he]
          show s.table.used + 1 ≤ s.table.maxLoad
          omega
        · rw [hos k hkc]
          exact h.tables k hk
      full := fun k hk => by
        show (tables k).maxLoad ≤ (tables k).load
        rw [hos k (Nat.ne_of_lt hk)]
        exact h.full k hk
      subset := fun k hk => by
        show (tables k).entries ⊆ (tables s.current).entries
        by_cases hkc : k = s.current
        · rw [hkc]
        · rw [hos k hkc, hes]
          exact fun x hx => .inr (h.subset k hk hx)
      counted := by
        show (tables s.current).used + _ ≤ min (tables s.current).load (tables s.current).maxLoad
        rw [hs, used_fill hi he, Nat.le_min]
        show _ + ∑ u, ((s.goto t _).pc u).inserts ≤ s.table.load ∧
          _ + ∑ u, ((s.goto t _).pc u).inserts ≤ s.table.maxLoad
        omega
      lock := fun u hu => h.lock u (of_goto (f := PC.locked) rfl hu).2
      quiet := fun u hu => by
        have hu := (of_goto (f := PC.copies) rfl hu).2
        rw [hn u] at hu
        cases hu
      begun := fun p hp => by
        have hp : p ∈ (tables s.current).entries := hp
        rw [hes] at hp
        obtain rfl | hp := hp
        · exact hptr
        · exact h.begun p hp
      added := fun call hca p hop => by
        show p ∈ (tables s.current).entries
        rw [hes]
        exact .inr (h.added call hca p hop)
      began := h.began
      missed := h.missed
      found := h.found
      once := fun p => by
        have hsum := sum_goto s t (PC.hasInserted p) (.inserted ptr began s.current)
        have hz : (s.pc t).hasInserted p = 0 := by rw [hpc]; rfl
        obtain ⟨hin, hout⟩ := h.once p
        show (p ∈ (tables s.current).entries → s.trueAdds p + ∑ u, ((s.goto t _).pc u).hasInserted p
            = 1) ∧ (p ∉ (tables s.current).entries → s.trueAdds p +
              ∑ u, ((s.goto t _).pc u).hasInserted p = 0)
        rw [hes]
        by_cases hp : p = ptr
        · subst hp
          have hone : (PC.inserted p began s.current).hasInserted p = 1 := if_pos rfl
          have := hout hnew
          exact ⟨fun _ => by omega, fun hnot => absurd (.inl rfl) hnot⟩
        · have hno : (PC.inserted ptr began s.current).hasInserted p = 0 := if_neg (Ne.symm hp)
          refine ⟨fun hmem => ?_, fun hmem => ?_⟩
          · have := hin (hmem.resolve_left hp)
            omega
          · have := hout (fun hold => hmem (.inr hold))
            omega
      asserts := by
        refine goto_forall (Q := fun _ => PC.Asserts hash _) ⟨hb, rfl, ?_⟩ fun u _ => ?_
        · rw [hes]
          exact .inl rfl
        · refine (h.asserts u).frame (Nat.le_refl _) (fun _ => rfl) (fun k _ => hg k)
            ⟨[], by simp [goto]⟩ (fun _ h => h) fun hc => ?_
          rw [hn u] at hc
          cases hc }

omit [DecidableEq P] in
theorem inserts_of_not_inserting {p : PC P} (h : p.inserting = false) : p.inserts = 0 := by
  cases p <;> first | rfl | cases h

/-- The copy takes the place of the table, which nobody changes any more. -/
theorem Inv.publish (h : Inv hash s) {i load : Nat} {new : Table P}
    (hpc : s.pc t = .copy ptr began table i new load) (hi : ¬i < (s.tables table).size) :
    Inv hash { s.goto t (.unlock ptr began) with
      tables := update s.tables (s.current + 1) { new with load := load }
      current := s.current + 1 } := by
  have ha := h.asserts t
  rw [hpc] at ha
  obtain ⟨hb, hptr, rfl, hle, hc⟩ := ha
  obtain rfl : i = (s.tables s.current).size := Nat.le_antisymm hle (Nat.le_of_not_lt hi)
  obtain ⟨hn, hf⟩ := h.quiet t (hpc ▸ rfl)
  have hlo := h.lock t (hpc ▸ rfl)
  have hes : ({ new with load := load } : Table P).entries = s.table.entries := hc.entries
  obtain ⟨hwf, hus⟩ := h.tables s.current (Nat.le_refl _)
  have hload : load = s.table.used := hc.load
  have hr : load ≤ new.maxLoad := by
    have hpow : 2 ^ (5 + s.current + 1) = 2 ^ (5 + s.current) * 2 := pow_succ 2 _
    rw [hload, maxLoad, hc.wellFormed.size, hpow]
    rw [maxLoad, hwf.size] at hus
    have hus : s.table.used ≤ 2 ^ (5 + s.current) / 2 := hus
    omega
  generalize ht : update s.tables (s.current + 1) { new with load := load } = tables
  have hnew : tables (s.current + 1) = { new with load := load } := by
    rw [← ht, update_self]
  have hold : ∀ k ≤ s.current, tables k = s.tables k := by
    intro k hk
    rw [← ht, update_of_ne (by omega)]
  have hal : ∀ u ≠ t, (s.pc u).locked = false := by
    intro u hut
    by_contra hl
    have := h.lock u (by simpa using hl)
    rw [hlo] at this
    exact hut (Option.some.inj this).symm
  have hin : ∀ p, (PC.unlock ptr began).hasInserted p = (s.pc t).hasInserted p := by
    intro p
    rw [hpc]
    rfl
  exact
    { tables := fun k hk => by
        show (tables k).WellFormed hash (5 + k) ∧ (tables k).used ≤ (tables k).maxLoad
        obtain hlt | rfl := Nat.lt_succ_iff_lt_or_eq.mp (lt_succ_of_le hk)
        · rw [hold k (le_of_lt_succ hlt)]
          exact h.tables k (le_of_lt_succ hlt)
        · rw [hnew]
          refine ⟨⟨hc.wellFormed.size, hc.wellFormed.small, hc.wellFormed.indexed⟩, ?_⟩
          show new.used ≤ new.maxLoad
          rw [hc.used]
          exact hr
      full := fun k hk => by
        show (tables k).maxLoad ≤ (tables k).load
        rw [hold k (le_of_lt_succ hk)]
        obtain hlt | rfl := Nat.lt_succ_iff_lt_or_eq.mp hk
        · exact h.full k hlt
        · exact hf
      subset := fun k hk => by
        show (tables k).entries ⊆ (tables (s.current + 1)).entries
        rw [hnew, hes]
        obtain hlt | rfl := Nat.lt_succ_iff_lt_or_eq.mp (lt_succ_of_le hk)
        · rw [hold k (le_of_lt_succ hlt)]
          exact h.subset k (le_of_lt_succ hlt)
        · rw [hnew]
          exact hes.le
      counted := by
        show (tables (s.current + 1)).used + ∑ u, ((s.goto t (.unlock ptr began)).pc u).inserts ≤
          min (tables (s.current + 1)).load (tables (s.current + 1)).maxLoad
        rw [hnew, Finset.sum_eq_zero fun u _ =>
          inserts_of_not_inserting (not_inserting_goto hn rfl u)]
        show new.used + 0 ≤ min load new.maxLoad
        rw [hc.used, Nat.le_min]
        exact ⟨Nat.le_refl _, hr⟩
      lock := goto_forall (Q := fun u p => p.locked = true → s.lock = some u) (fun _ => hlo)
        fun u _ => h.lock u
      quiet := fun u hu => by
        obtain ⟨hut, hu⟩ := of_goto (f := PC.copies) rfl hu
        have hl : (s.pc u).locked = true := by
          generalize s.pc u = p at hu
          cases p <;> first | rfl | cases hu
        rw [hal u hut] at hl
        cases hl
      begun := fun p hp => by
        have hp : p ∈ (tables (s.current + 1)).entries := hp
        rw [hnew] at hp
        exact h.begun p (hes ▸ hp)
      added := fun call hca p hop => by
        show p ∈ (tables (s.current + 1)).entries
        rw [hnew, hes]
        exact h.added call hca p hop
      began := h.began
      missed := h.missed
      found := h.found
      once := fun p => h.once_of p ((congrArg entries hnew).trans hes)
        (congrArg (s.trueAdds p + ·) (sum_goto_of_eq (PC.hasInserted p) (hin p)))
      asserts := goto_forall (Q := fun _ => PC.Asserts hash _) ⟨hb, hptr⟩ fun u hut =>
        (h.asserts u).frame (le_succ _) (by simp [hn u, hal u hut])
          (fun k hk => hold k hk ▸ .refl _) ⟨[], by simp [goto]⟩ (fun _ h => h)
          fun _ => congrArg array (hold _ (le_refl _)) }

omit [DecidableEq T] in
/-- At most half of the slots of any table are filled. -/
theorem Inv.room (h : Inv hash s) (ht : table ≤ s.current) :
    (s.tables table).used < 2 ^ (5 + table) := by
  obtain ⟨hwf, hu⟩ := h.tables table ht
  have hpos := Nat.two_pow_pos (5 + table)
  rw [maxLoad, hwf.size] at hu
  omega

/-- A step of a thread that keeps to itself, in a place where it neither inserts nor copies. -/
theorem Inv.keep (h : Inv hash s) {p : PC P} (hpc : s.pc t = p)
    (hcl : (next.inserts, next.inserting, next.locked, next.copies) =
      (p.inserts, p.inserting, p.locked, false))
    (hin : ∀ ptr, next.hasInserted ptr = p.hasInserted ptr)
    (ha : next.Asserts hash (s.goto t next)) : Inv hash (s.goto t next) := by
  obtain ⟨hins, hi, hl, hc⟩ : _ ∧ _ ∧ _ ∧ _ := by
    simpa only [Prod.mk.injEq] using hcl
  subst hpc
  exact h.move hins hin (fun hf => hi.trans hf) (fun u _ hu => h.lock u hu)
    (fun hn => h.lock t (hl ▸ hn)) (fun hn => by rw [hc] at hn; cases hn)
    (fun _ hptr => hptr) ha

/-! ## One step -/

variable {operation : Operation P} {s' : State P T} {i : Nat} (h : Inv hash s)

include h

theorem Inv.step_containsProbe (hpc : s.pc t = .containsProbe ptr began table i)
    (hs : step hash s (t, operation) = some s') : Inv hash s' := by
  have ha := h.asserts t
  rw [hpc] at ha
  simp only [step, hpc] at hs
  obtain ⟨hb, ht, hp, had⟩ := ha
  obtain ⟨hwf, _⟩ := h.tables table ht
  cases he : (s.tables table).array i with
  | none =>
    simp only [he] at hs
    cases hs
    have hnot := hwf.not_mem_of_empty hp he
    refine h.return hb (fun _ hop => nomatch hop) (fun _ => hpc ▸ rfl) ?_
      (fun _ _ hr => nomatch hr)
    rintro ptr' hop - call' hca' hadd
    cases hop
    exact hnot (had call' hca' hadd)
  | some entry =>
    simp only [he] at hs
    split at hs
    · rename_i heq
      cases hs
      refine h.return hb (fun _ hop => nomatch hop) (fun _ => hpc ▸ rfl)
        (fun _ _ hr => nomatch hr) ?_
      rintro ptr' hop -
      cases hop
      exact h.begun ptr (h.subset table ht (hwf.mem_entries hp (heq ▸ he)))
    · rename_i hne
      cases hs
      obtain ⟨index', hn, hp'⟩ :=
        hwf.advance_eq (h.room ht) hp he hne (.containsProbe ptr began table)
      rw [hn]
      exact h.keep hpc rfl (fun _ => rfl) ⟨hb, ht, hp', had⟩

theorem Inv.step_addProbe (hpc : s.pc t = .addProbe ptr began table i)
    (hs : step hash s (t, operation) = some s') : Inv hash s' := by
  have ha := h.asserts t
  rw [hpc] at ha
  simp only [step, hpc] at hs
  obtain ⟨hb, hptr, ht, hp⟩ := ha
  obtain ⟨hwf, _⟩ := h.tables table ht
  cases he : (s.tables table).array i with
  | none =>
    simp only [he] at hs
    cases hs
    exact h.keep hpc rfl (fun _ => rfl) ⟨hb, hptr, ht, hp⟩
  | some entry =>
    simp only [he] at hs
    split at hs
    · rename_i heq
      cases hs
      exact h.return_add hb (h.subset table ht (hwf.mem_entries hp (heq ▸ he)))
        fun _ => by rw [hpc]; simp [PC.hasInserted]
    · rename_i hne
      cases hs
      obtain ⟨index', hn, hp'⟩ := hwf.advance_eq (h.room ht) hp he hne (.addProbe ptr began table)
      rw [hn]
      exact h.keep hpc rfl (fun _ => rfl) ⟨hb, hptr, ht, hp'⟩

theorem Inv.step_insert (hpc : s.pc t = .insert ptr began table i)
    (hs : step hash s (t, operation) = some s') : Inv hash s' := by
  have ha := h.asserts t
  rw [hpc] at ha
  simp only [step, hpc] at hs
  obtain ⟨hb, hptr, ht, hp⟩ := ha
  obtain ⟨hwf, _⟩ := h.tables table ht.le
  cases he : (s.tables table).array i with
  | none =>
    simp only [he] at hs
    cases hs
    exact h.fill hpc he
  | some entry =>
    simp only [he] at hs
    split at hs
    · rename_i heq
      cases hs
      exact h.return_add hb (h.subset table ht.le (hwf.mem_entries hp (heq ▸ he)))
        fun _ => by rw [hpc]; simp [PC.hasInserted]
    · rename_i hne
      cases hs
      obtain ⟨index', hn, hp'⟩ := hwf.advance_eq (h.room ht.le) hp he hne (.insert ptr began table)
      rw [hn]
      exact h.keep hpc rfl (fun _ => rfl) ⟨hb, hptr, ht, hp'⟩

/-- The lock is taken, and is given back. -/
theorem Inv.step_lock (hpc : s.pc t = .resize ptr began ∨ s.pc t = .unlock ptr began)
    (hs : step hash s (t, operation) = some s') : Inv hash s' := by
  have ha := h.asserts t
  obtain hpc | hpc := hpc
  · rw [hpc] at ha
    simp only [step, hpc] at hs
    split at hs
    · rename_i hfr
      cases hs
      refine h.move (hpc ▸ rfl) (fun _ => hpc ▸ rfl) (fun _ => rfl) ?_ (fun _ => rfl)
        (fun hn => nomatch hn) (fun _ hptr => hptr) ha
      intro u _ hu
      have := h.lock u hu
      rw [hfr] at this
      cases this
    · cases hs
  · rw [hpc] at ha
    simp only [step, hpc] at hs
    cases hs
    refine h.move (hpc ▸ rfl) (fun _ => hpc ▸ rfl) (fun _ => rfl) ?_
      (fun hn => nomatch hn) (fun hn => nomatch hn) (fun _ hptr => hptr) ha
    intro u hut hu
    have hl := h.lock t (hpc ▸ rfl)
    rw [h.lock u hu] at hl
    exact absurd (Option.some.inj hl) hut

/-- A resize that starts while nobody is inserting. -/
theorem Inv.step_resizeLoad (hpc : s.pc t = .resizeLoad ptr began table)
    (hs : quietStep hash s (t, operation) = some s') : Inv hash s' := by
  have ha := h.asserts t
  rw [hpc] at ha
  obtain ⟨hb, hptr, rfl⟩ := ha
  rw [quietStep] at hs
  split at hs
  · cases hs
  rename_i hq
  rw [not_or] at hq
  simp only [step, hpc] at hs
  split at hs
  · cases hs
    exact h.keep hpc rfl (fun _ => rfl) ⟨hb, hptr⟩
  rename_i hf
  cases hs
  have hst : startsResize s t = true := by
    rw [startsResize, hpc]
    exact decide_eq_true (Nat.le_of_not_lt hf)
  have hsize : (s.tables s.current).size * 2 < 2 ^ 32 := by
    simpa [wraps, hpc, hst] using hq.1
  have hno : ∀ u, (s.pc u).inserting = false := by
    intro u
    by_contra hin
    exact hq.2 ⟨hst, u, by simpa using hin⟩
  exact h.move (hpc ▸ rfl) (fun _ => hpc ▸ rfl) (fun _ => rfl)
    (fun u _ hu => h.lock u hu) (fun _ => h.lock t (hpc ▸ rfl))
    (fun _ => ⟨hno, Nat.le_of_not_lt hf⟩) (fun _ hptr => hptr)
    ⟨hb, hptr, rfl, Nat.zero_le _,
      copied_start hash (h.tables s.current (Nat.le_refl _)).1 hsize⟩

theorem Inv.step_copy {newTable : Table P} {load : Nat}
    (hpc : s.pc t = .copy ptr began table i newTable load)
    (hs : step hash s (t, operation) = some s') : Inv hash s' := by
  have ha := h.asserts t
  rw [hpc] at ha
  simp only [step, hpc] at hs
  split_ifs at hs with hi
  · obtain ⟨hb, hptr, rfl, hle, hc⟩ := ha
    obtain ⟨hwf, hus⟩ := h.tables s.current (le_refl _)
    have hcop : ∀ newTable load, Table.Copied hash (5 + s.current) (s.tables s.current) (i + 1)
        newTable load → Inv hash (s.goto t (.copy ptr began s.current (i + 1) newTable load)) :=
      fun newTable load hc' =>
        h.move (hpc ▸ rfl) (fun _ => hpc ▸ rfl) (fun _ => rfl)
          (fun u _ hu => h.lock u hu) (fun _ => h.lock t (hpc ▸ rfl))
          (fun _ => h.quiet t (hpc ▸ rfl)) (fun _ hptr => hptr)
          ⟨hb, hptr, rfl, hi, hc'⟩
    cases he : (s.tables s.current).array i with
    | none =>
      simp only [he] at hs
      cases hs
      exact hcop _ _ (hc.skip he)
    | some entry =>
      obtain ⟨new', hco, hc'⟩ := Table.Copied.entry hwf (h.room (le_refl _)).le hc hi he
      simp only [he, hco] at hs
      cases hs
      exact hcop _ _ hc'
  · cases hs
    exact h.publish hpc hi

theorem Inv.step {turn : T × Operation P} (hq : quietStep hash s turn = some s') : Inv hash s' := by
  obtain ⟨t, operation⟩ := turn
  have ha := h.asserts t
  have hs := hq
  rw [quietStep] at hs
  split at hs
  · cases hs
  rename_i hn
  rw [not_or] at hn
  obtain ⟨p, hpc⟩ : ∃ p, s.pc t = p := ⟨_, rfl⟩
  rw [hpc] at ha
  cases p with
  | idle =>
    simp only [ConcurrentPtrHashSet.step, hpc] at hs
    cases operation with
    | add ptr =>
      cases hs
      exact h.move (hpc ▸ rfl) (fun _ => hpc ▸ rfl) (fun _ => rfl)
        (fun u _ hu => h.lock u hu) (fun hn => nomatch hn) (fun hn => nomatch hn)
        (fun _ hptr => mem_cons_of_mem _ hptr) ⟨le_refl _, mem_cons_self⟩
    | contains ptr =>
      cases hs
      exact h.keep hpc rfl (fun _ => rfl) (le_refl _)
  | contains ptr began =>
    simp only [ConcurrentPtrHashSet.step, hpc] at hs
    cases hs
    refine h.keep hpc rfl (fun _ => rfl) ⟨ha, le_refl _, ?_, ?_⟩
    · exact (h.tables s.current (le_refl _)).1.passed_start ptr
    · exact fun call hca hop => h.added call (mem_of_mem_take hca) ptr hop
  | containsProbe ptr began table i => exact h.step_containsProbe hpc hs
  | add ptr began =>
    simp only [ConcurrentPtrHashSet.step, hpc] at hs
    cases hs
    exact h.keep hpc rfl (fun _ => rfl) ⟨ha.1, ha.2, le_refl _,
      (h.tables s.current (le_refl _)).1.passed_start ptr⟩
  | addProbe ptr began table i => exact h.step_addProbe hpc hs
  | addSlow ptr began table i =>
    simp only [ConcurrentPtrHashSet.step, hpc] at hs
    have hload := hn.1
    simp only [wraps, hpc, decide_eq_true_eq, not_le] at hload
    rw [mod_eq_of_lt hload] at hs
    cases hs
    exact h.count hpc rfl
  | insert ptr began table i => exact h.step_insert hpc hs
  | inserted ptr began table =>
    simp only [ConcurrentPtrHashSet.step, hpc] at hs
    obtain ⟨hb, ht, he⟩ := ha
    rw [if_neg (not_not.mpr ht.symm)] at hs
    cases hs
    exact h.return_add hb (h.subset table ht.le he) fun _ => by rw [hpc]; simp [PC.hasInserted]
  | resize ptr began => exact h.step_lock (.inl hpc) hs
  | resizeTable ptr began =>
    simp only [ConcurrentPtrHashSet.step, hpc] at hs
    cases hs
    exact h.keep hpc rfl (fun _ => rfl) ⟨ha.1, ha.2, rfl⟩
  | resizeLoad ptr began table => exact h.step_resizeLoad hpc hq
  | copy ptr began table i newTable load => exact h.step_copy hpc hs
  | unlock ptr began => exact h.step_lock (.inr hpc) hs
  | crashed => exact ha.elim

omit h

/-- When every resize starts while nobody is inserting and no count wraps, then after any schedule
no search has gone round its table, a pointer that has been added is found by every search that
begins later, only pointers whose addition has begun are found, and of the additions of one pointer
exactly one has reported it as new, or one thread is about to. -/
theorem linearizable_of_quiet_resizes (hash : P → UInt32) (schedule : List (T × Operation P))
    (s : State P T) (h : follow (quietStep hash) schedule initial = some s) :
    (∀ t, s.pc t ≠ .crashed) ∧ (∀ ptr, ∀ call ∈ s.returned, call.operation = .contains ptr →
        (∃ added ∈ s.returned.take call.began, added.operation = .add ptr) →
        call.result = true) ∧
      (∀ ptr, ∀ call ∈ s.returned, call.operation = .contains ptr → call.result = true →
        ptr ∈ s.begun) ∧
      ∀ ptr, s.trueAdds ptr ≤ 1 ∧ ((∃ call ∈ s.returned, call.operation = .add ptr) →
        s.trueAdds ptr + ∑ t, (s.pc t).hasInserted ptr = 1) := by
  have hinv : Inv hash s :=
    follow_invariant (fun s turn s' hs hstep => hs.step hstep) (inv_initial hash) h
  refine ⟨fun t ht => ?_, ?_, fun ptr call hcall => hinv.found call hcall ptr, fun ptr => ⟨?_, ?_⟩⟩
  · have hasserts := hinv.asserts t
    rw [ht] at hasserts
    exact hasserts
  · intro ptr call hcall hop ⟨added, hadded, hadd⟩
    by_contra hresult
    exact hinv.missed call hcall ptr hop (by simpa using hresult) added hadded hadd
  · have honce := hinv.once ptr
    by_cases hptr : ptr ∈ s.table.entries
    · have := honce.1 hptr
      omega
    · have := honce.2 hptr
      omega
  · intro ⟨call, hcall, hop⟩
    exact (hinv.once ptr).1 (hinv.added call hcall ptr hop)

/-- Sixteen pointers, a resize that nobody disturbs, and a search for the pointer that caused it. -/
def undisturbed : List (Fin 2 × Operation Nat) :=
  (range 16).flatMap (fun i => replicate 6 (0, .add (i + 1))) ++
    replicate 46 (1, .add 25) ++ replicate 3 (0, .contains 25)

theorem linearizable_of_undisturbed_resize :
    ∃ s, follow (quietStep UInt32.ofNat) undisturbed initial = some s ∧ s.current = 1 ∧
      s.returned.drop 16 = [⟨.add 25, true, 16⟩, ⟨.contains 25, true, 17⟩] ∧
      s.trueAdds 25 + ∑ t, (s.pc t).hasInserted 25 = 1 := by
  have hrun : (follow (quietStep UInt32.ofNat) undisturbed initial).map
      (fun s => (s.current, s.returned.drop 16)) =
        some (1, [⟨.add 25, true, 16⟩, ⟨.contains 25, true, 17⟩]) := by
    decide +kernel
  obtain ⟨s, hs, heq⟩ := Option.map_eq_some_iff.mp hrun
  obtain ⟨hcurrent, hreturned⟩ := Prod.mk.inj heq
  obtain ⟨_, _, _, honce⟩ := linearizable_of_quiet_resizes UInt32.ofNat undisturbed s hs
  have hadd : (⟨.add 25, true, 16⟩ : Call Nat) ∈ s.returned :=
    mem_of_mem_drop (hreturned ▸ mem_cons_self)
  exact ⟨s, hs, hcurrent, hreturned, (honce 25).2 ⟨_, hadd, rfl⟩⟩

end

end JavaScriptCore.Wtf.ConcurrentPtrHashSet
