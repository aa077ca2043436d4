import JavaScriptCore.Collections.DoublyLinked
import JavaScriptCore.Runtime.HashMapImpl.Table

/-!
# The list of `HashMapImpl`

A table stands for the list of its entries in the order of insertion. The list runs from the head
to the tail through the cells of the entries. Cells are numbered in the order of their creation, so
the numbers grow along the list. An entry that has left the list still points to where the list
went on from it, or back to the head after `clear`: following the pointers from it leads to the
first entry inserted after it that is still there.
-/

namespace JavaScriptCore.Runtime.HashMapImpl

open JavaScriptCore.Collections List Function

variable {K V : Type}

/-- An entry and the cell that holds it. -/
structure Entry (K V : Type) where
  cell : Nat
  key : K
  value : V

open Entry

/-- The cells from the head to the tail. -/
def path (m : HashMapImpl K V) (entries : List (Entry K V)) : List Nat :=
  m.head :: (entries.map cell ++ [m.tail])

/-- A cell that has left the list: no entry is passed over on the way to the next cell, or there is
no entry left that is older. -/
def Stale (m : HashMapImpl K V) (entries : List (Entry K V)) (c : Nat) : Prop :=
  (m.cells c).key = none ∧ ∃ n, (m.cells c).next = some n ∧
    ((c < n ∧ n < m.created ∧ ∀ e ∈ entries, e.cell ≤ c ∨ n ≤ e.cell) ∨
      (n = m.head ∧ ∀ e ∈ entries, c < e.cell))

structure Listed (m : HashMapImpl K V) (entries : List (Entry K V)) : Prop where
  linked : DoublyLinked (fun c => (m.cells c).next) (fun c => (m.cells c).prev) (path m entries)
  increasing : (path m entries).Pairwise (· < ·)
  numbered : m.head = 0 ∧ m.created = m.tail + 1
  stored : ∀ e ∈ entries,
    (m.cells e.cell).key = some e.key ∧ (m.cells e.cell).value = some e.value
  sentinels : (m.cells m.head).key = none ∧ (m.cells m.tail).key = none ∧
    (m.cells m.tail).next = none
  stale : ∀ c < m.created, c ∉ path m entries → Stale m entries c

section

variable {m : HashMapImpl K V} {es front back : List (Entry K V)} {e : Entry K V} (h : Listed m es)

include h

theorem Listed.distinct : (es.map cell).Nodup := h.linked.nodup.sublist (by simp [path])

theorem Listed.lt_tail {c : Nat} (hc : c ∈ m.head :: es.map cell) : c < m.tail := by
  have hinc := h.increasing
  rw [path, ← cons_append, pairwise_append] at hinc
  exact hinc.2.2 c hc m.tail (by simp)

theorem Listed.known : ∀ c ∈ path m es, c < m.created := by
  intro c hc
  rw [path, ← cons_append, mem_append, mem_singleton] at hc
  rw [h.numbered.2]
  obtain hc | rfl := hc
  · exact Nat.lt_succ_of_lt (h.lt_tail hc)
  · exact Nat.lt_succ_self _

theorem Listed.cell_lt_tail (he : e ∈ es) : e.cell < m.tail :=
  h.lt_tail (mem_cons_of_mem _ (mem_map_of_mem he))

theorem Listed.length_lt : es.length + 1 < m.created := by
  have hs : path m es ⊆ range m.created := by
    intro c hc
    exact mem_range.mpr (h.known c hc)
  have hlen := (h.linked.nodup.subperm hs).length_le
  simp only [path, length_cons, length_append, length_map, length_nil, length_range] at hlen
  omega

theorem Listed.next_head :
    (m.cells m.head).next = (es.map cell ++ [m.tail]).head? :=
  DoublyLinked.next_eq_head? (show DoublyLinked _ _ ([] ++ path m es) from h.linked) (by simp)

omit h

theorem Listed.next_entry (h : Listed m (front ++ e :: back)) :
    (m.cells e.cell).next = (back.map cell ++ [m.tail]).head? := by
  have hl := h.linked
  rw [path, map_append, map_cons, append_assoc, ← cons_append, cons_append (a := e.cell)] at hl
  exact hl.next_eq_head? (by simp)

theorem cells_modify (m : HashMapImpl K V) (cell : Nat) (f : HashMapBucket K V → HashMapBucket K V)
    (c : Nat) : (m.modify cell f).cells c = if c = cell then f (m.cells c) else m.cells c := by
  simp only [modify, update_apply]
  split_ifs with hc
  · rw [hc]
  · rfl

theorem cells_appendEntry (m : HashMapImpl K V) (index : Nat) (key : K) (value : V) (c : Nat) :
    (m.appendEntry index key value).cells c =
      if c = m.created then { HashMapBucket.create with prev := some m.tail }
      else if c = m.tail then
        { m.cells c with key := some key, value := some value, next := some m.created }
      else m.cells c := by
  simp only [appendEntry, update_apply, cells_modify, setSlot]

/-- A cell stays behind as long as it is not changed and no entry is added. -/
theorem Stale.mono {m' : HashMapImpl K V} {es' : List (Entry K V)} {c : Nat} (h : Stale m es c)
    (hk : (m'.cells c).key = (m.cells c).key) (hn : (m'.cells c).next = (m.cells c).next)
    (hh : m'.head = m.head) (hc : m'.created = m.created) (hsub : ∀ e ∈ es', e ∈ es) :
    Stale m' es' c := by
  obtain ⟨hkey, n, hnx, hca⟩ := h
  rw [Stale, hk, hn, hh, hc]
  exact ⟨hkey, n, hnx, hca.imp (fun hlt => ⟨hlt.1, hlt.2.1, fun e he => hlt.2.2 e (hsub e he)⟩)
    fun hz => ⟨hz.1, fun e he => hz.2 e (hsub e he)⟩⟩

theorem Listed.setValue (h : Listed m (front ++ e :: back)) (value : V) :
    Listed (m.modify e.cell fun bucket => { bucket with value := some value })
      (front ++ { e with value } :: back) := by
  let m' := m.modify e.cell fun bucket => { bucket with value := some value }
  have hp : path m' (front ++ { e with value } :: back) = path m (front ++ e :: back) := by
    simp [path, m', modify]
  -- keys and pointers are as before
  have hs : ∀ c, (m'.cells c).key = (m.cells c).key ∧ (m'.cells c).next = (m.cells c).next ∧
      (m'.cells c).prev = (m.cells c).prev := by
    intro c
    rw [cells_modify]
    split <;> exact ⟨rfl, rfl, rfl⟩
  have hd := h.distinct
  rw [map_append, map_cons, nodup_append, nodup_cons] at hd
  obtain ⟨_, ⟨hb, _⟩, hf⟩ := hd
  refine ⟨?_, hp ▸ h.increasing, h.numbered, fun e' he' => ?_, ?_, fun c hc hp' => ?_⟩
  · rw [hp]
    exact h.linked.congr (fun c _ => (hs c).2.1) fun c _ => (hs c).2.2
  · rw [cells_modify]
    obtain hmem | heq | hmem : e' ∈ front ∨ e' = { e with value } ∨ e' ∈ back := by
      simpa using he'
    · rw [if_neg (hf _ (mem_map_of_mem hmem) _ (by simp))]
      exact h.stored e' (by simp [hmem])
    · rw [heq, if_pos rfl]
      exact ⟨(h.stored e (by simp)).1, rfl⟩
    · rw [if_neg fun (heq : e'.cell = e.cell) => hb (heq ▸ mem_map_of_mem hmem)]
      exact h.stored e' (by simp [hmem])
  · rw [(hs _).1, (hs _).1, (hs _).2.1]
    exact h.sentinels
  · have hst := h.stale c hc (hp ▸ hp')
    rw [Stale, (hs c).1, (hs c).2.1]
    rw [Stale] at hst
    simpa [modify, or_imp, forall_and] using hst

theorem Listed.appendEntry (h : Listed m es) (index : Nat) (key : K) (value : V) :
    Listed (m.appendEntry index key value) (es ++ [⟨m.tail, key, value⟩]) := by
  have hp : path (m.appendEntry index key value) (es ++ [⟨m.tail, key, value⟩]) =
      path m es ++ [m.created] := by
    simp [path, HashMapImpl.appendEntry, modify, setSlot]
  obtain ⟨hz, hla⟩ := h.numbered
  have hnew : m.created ∉ path m es := fun hmem => lt_irrefl _ (h.known m.created hmem)
  have he : ∀ c ∈ m.head :: es.map cell, c ≠ m.tail ∧ c ≠ m.created := by
    intro c hc
    have hlt := h.lt_tail hc
    omega
  have hold : ∀ c ∈ m.head :: es.map cell, (m.appendEntry index key value).cells c = m.cells c := by
    intro c hc
    rw [cells_appendEntry, if_neg (he c hc).2, if_neg (he c hc).1]
  refine ⟨?_, ?_, ⟨hz, rfl⟩, fun e' he' => ?_, ?_, fun c hc hmem => ?_⟩
  · have hl := h.linked
    rw [path, ← cons_append] at hl hnew
    rw [hp, path, ← cons_append, append_assoc, singleton_append]
    refine (hl.snoc hnew).congr (fun c hc => ?_) fun c hc => ?_
    · have hc : c ∈ m.head :: es.map cell ++ [m.tail] := by
        rw [dropLast_append_of_ne_nil (by simp)] at hc
        exact hc
      have hne : c ≠ m.created := fun heq => hnew (heq ▸ hc)
      rw [cells_appendEntry, if_neg hne, update_apply]
      split <;> rfl
    · rw [cells_appendEntry, update_apply]
      split
      · rfl
      · split <;> rfl
  · rw [hp, pairwise_append]
    exact ⟨h.increasing, by simp, fun c hc _ hc' => mem_singleton.mp hc' ▸ h.known c hc⟩
  · obtain hmem | rfl : e' ∈ es ∨ e' = ⟨m.tail, key, value⟩ := by simpa using he'
    · rw [hold _ (mem_cons_of_mem _ (mem_map_of_mem hmem))]
      exact h.stored e' hmem
    · have hne : m.tail ≠ m.created := by omega
      rw [cells_appendEntry, if_neg hne, if_pos rfl]
      exact ⟨rfl, rfl⟩
  · refine ⟨?_, ?_⟩
    · change ((m.appendEntry index key value).cells m.head).key = none
      rw [hold _ mem_cons_self]
      exact h.sentinels.1
    · change ((m.appendEntry index key value).cells m.created).key = none ∧
        ((m.appendEntry index key value).cells m.created).next = none
      rw [cells_appendEntry, if_pos rfl]
      exact ⟨rfl, rfl⟩
  · rw [hp, mem_append, mem_singleton, not_or] at hmem
    have hlt : c < m.created := by
      have hle : c < m.created + 1 := hc
      omega
    have ht : c ≠ m.tail := fun heq => hmem.1 (by simp [heq, path])
    obtain ⟨hkey, n, hnx, hca⟩ := h.stale c hlt hmem.1
    rw [Stale, cells_appendEntry, if_neg hmem.2, if_neg ht]
    refine ⟨hkey, n, hnx, ?_⟩
    simp only [forall_mem_append, forall_mem_singleton]
    obtain ⟨hcn, hn, hb⟩ | ⟨hn, haf⟩ := hca
    · exact .inl ⟨hcn, Nat.lt_succ_of_lt hn, hb, .inr (by omega)⟩
    · exact .inr ⟨hn, haf, by omega⟩

/-- Every entry has a neighbour on both sides. -/
theorem path_split (m : HashMapImpl K V) (front back : List (Entry K V)) (e : Entry K V) :
    ∃ before x z after, path m (front ++ e :: back) = before ++ x :: e.cell :: z :: after ∧
      path m (front ++ back) = before ++ x :: z :: after := by
  obtain ⟨before, x, hb⟩ : ∃ before x, m.head :: front.map cell = before ++ [x] := by
    rcases eq_nil_or_concat (m.head :: front.map cell) with hnil | ⟨before, x, h⟩
    · cases hnil
    · exact ⟨before, x, by simpa using h⟩
  obtain ⟨z, after, haf⟩ : ∃ z after, back.map cell ++ [m.tail] = z :: after := by
    cases back with
    | nil => exact ⟨_, _, rfl⟩
    | cons b back => exact ⟨_, _, rfl⟩
  refine ⟨before, x, z, after, ?_, ?_⟩
  · calc path m (front ++ e :: back)
        = (m.head :: front.map cell) ++ e.cell :: (back.map cell ++ [m.tail]) := by
          simp [path]
      _ = before ++ x :: e.cell :: z :: after := by rw [hb, haf]; simp
  · calc path m (front ++ back)
        = (m.head :: front.map cell) ++ (back.map cell ++ [m.tail]) := by simp [path]
      _ = before ++ x :: z :: after := by rw [hb, haf]; simp

theorem Listed.unlink (h : Listed m (front ++ e :: back)) :
    ∃ cells, m.unlink e.cell = some { m with cells } ∧ Listed { m with cells } (front ++ back) := by
  obtain ⟨before, x, z, after, hp, hp'⟩ := path_split m front back e
  have hl := h.linked
  have hinc := h.increasing
  rw [hp] at hl hinc
  have hnx : (m.cells e.cell).next = some z :=
    DoublyLinked.next_eq
      (show DoublyLinked _ _ ((before ++ [x]) ++ e.cell :: z :: after) by simpa using hl)
  have hpr : (m.cells e.cell).prev = some x := hl.prev_eq
  have hxe : x < e.cell := by
    simp [pairwise_append] at hinc
    tauto
  have hez : e.cell < z := by
    simp [pairwise_append] at hinc
    tauto
  let m' := ((m.setPrev z (some x)).setNext x (some z)).modify e.cell HashMapBucket.makeDeleted
  have hrun : m.unlink e.cell = some m' := by
    simp [HashMapImpl.unlink, hnx, setPrev, cells_modify, ne_of_lt hez, hpr, m']
  have hcel : ∀ c, (m'.cells c).next = update (fun c => (m.cells c).next) x (some z) c ∧
      (m'.cells c).prev = update (fun c => (m.cells c).prev) z (some x) c ∧
      (m'.cells c).key = (if c = e.cell then none else (m.cells c).key) ∧
      (c ≠ e.cell → (m'.cells c).value = (m.cells c).value) := by
    intro c
    simp only [m', setNext, setPrev, cells_modify, HashMapBucket.makeDeleted, update_apply]
    grind
  have hsub : ∀ e' ∈ front ++ back, e' ∈ front ++ e :: back := by
    intro e' he'
    simp only [mem_append, mem_cons] at he' ⊢
    tauto
  have hh : m.head < e.cell := (pairwise_cons.mp h.increasing).1 e.cell (by simp)
  have ht : e.cell < m.tail := h.cell_lt_tail (by simp)
  refine ⟨m'.cells, hrun, ?_, ?_, h.numbered, fun e' he' => ?_, ?_, fun c hc hmem => ?_⟩
  · change DoublyLinked _ _ (path m (front ++ back))
    rw [hp']
    exact hl.unlink.congr (fun c _ => (hcel c).1) fun c _ => (hcel c).2.1
  · change (path m (front ++ back)).Pairwise (· < ·)
    rw [hp']
    exact hinc.sublist (((sublist_cons_self _ _).cons_cons x).append_left before)
  · have hne : e'.cell ≠ e.cell := by
      have hd := h.distinct
      rw [map_append, map_cons, nodup_middle, nodup_cons] at hd
      intro heq
      refine hd.1 ?_
      rw [← map_append, ← heq]
      exact mem_map_of_mem he'
    obtain ⟨_, _, hkey, hv⟩ := hcel e'.cell
    rw [hkey, if_neg hne, hv hne]
    exact h.stored e' (hsub e' he')
  · change (m'.cells m.head).key = none ∧ (m'.cells m.tail).key = none ∧
      (m'.cells m.tail).next = none
    rw [(hcel _).2.2.1, (hcel _).2.2.1, (hcel _).1, if_neg (by omega), if_neg (by omega),
      update_of_ne (by omega)]
    exact h.sentinels
  · change c ∉ path m (front ++ back) at hmem
    have hcx : c ≠ x := fun heq => hmem (by simp [hp', heq])
    by_cases hce : c = e.cell
    · refine ⟨(hcel c).2.2.1.trans (if_pos hce), z, ?_, ?_⟩
      · rw [(hcel c).1, update_of_ne hcx, hce, hnx]
      rw [hce]
      refine .inl ⟨hez, h.known z (by simp [hp]), fun e' he' => ?_⟩
      have hcell : e'.cell ∈ path m (front ++ back) :=
        mem_cons_of_mem _ (mem_append_left _ (mem_map_of_mem he'))
      rw [hp'] at hcell
      simp [pairwise_append] at hinc hcell
      grind
    · have hold : c ∉ path m (front ++ e :: back) := by
        rw [hp'] at hmem
        rw [hp]
        simp only [mem_append, mem_cons, not_or] at hmem ⊢
        tauto
      refine (h.stale c hc hold).mono ?_ ?_ rfl rfl hsub
      · exact (hcel c).2.2.1.trans (if_neg hce)
      · exact (hcel c).1.trans (update_of_ne hcx ..)

end

/-- The loop of `clear` deletes every entry and sends it back to the head, and changes no other
cell. -/
theorem clearFrom_spec {fuel : Nat} {rest : List (Entry K V)} {m : HashMapImpl K V}
    (ht : ∀ e ∈ rest, e.cell ≠ m.tail) (hn : ∀ front e back, rest = front ++ e :: back →
      (m.cells e.cell).next = (back.map cell ++ [m.tail]).head?)
    (hd : (rest.map cell).Nodup) (hf : rest.length < fuel) :
    clearFrom fuel (rest.map cell ++ [m.tail]).head? m = some { m with
      cells := fun c => if c ∈ rest.map cell then
        { (m.cells c).makeDeleted with next := some m.head } else m.cells c } := by
  induction rest generalizing m fuel with
  | nil =>
    obtain ⟨fuel, rfl⟩ := Nat.exists_eq_add_of_lt hf
    simp [clearFrom]
  | cons e rest ih =>
    obtain ⟨fuel, rfl⟩ : ∃ n, fuel = n + 1 := ⟨fuel - 1, by omega⟩
    rw [map_cons, nodup_cons] at hd
    let m₁ := (m.setNext e.cell (some m.head)).modify e.cell HashMapBucket.makeDeleted
    have hce : ∀ c, m₁.cells c = if c = e.cell then
        { (m.cells c).makeDeleted with next := some m.head } else m.cells c := by
      intro c
      simp only [m₁, setNext, cells_modify]
      split <;> rfl
    have ho : ∀ e' ∈ rest, m₁.cells e'.cell = m.cells e'.cell := by
      intro e' he'
      rw [hce, if_neg]
      intro heq
      exact hd.1 (heq ▸ mem_map_of_mem he')
    have hrun := ih (m := m₁) (fun e' he' => ht e' (mem_cons_of_mem _ he'))
      (fun front e' back heq => by
        rw [ho e' (by simp [heq])]
        exact hn (e :: front) e' back (by simp [heq]))
      hd.2 (Nat.lt_of_succ_lt_succ hf)
    rw [clearFrom]
    have hi := hn [] e rest rfl
    simp only [map_cons, cons_append, head?_cons, Option.some.injEq,
      ht e (by simp), hi, Option.bind_eq_bind, Option.bind_some]
    rw [if_neg id]
    refine hrun.trans ?_
    congr 2
    funext c
    rw [hce]
    by_cases hc : c = e.cell
    · subst hc
      simp [hd.1]
    · simp [hc, m₁, setNext, modify]

/-- After `clear` the sentinels point to each other, and every cell behind them to the head or to
where it pointed. -/
theorem Listed.clear {m : HashMapImpl K V} {es : List (Entry K V)} (h : Listed m es) :
    ∃ cells, m.clear = some { m with
        cells, capacity := 4, buffer := fun _ => .empty, keyCount := 0, deleteCount := 0 } ∧
      Listed { m with
        cells, capacity := 4, buffer := fun _ => .empty, keyCount := 0, deleteCount := 0 } [] := by
  have hend : m.head < m.tail := h.lt_tail mem_cons_self
  have hrun := clearFrom_spec (m := { m with keyCount := 0, deleteCount := 0 })
    (fun e (he : e ∈ es) => ne_of_lt (h.cell_lt_tail he))
    (fun front e back heq => (show Listed m (front ++ e :: back) from heq ▸ h).next_entry)
    h.distinct (show es.length < m.created by have := h.length_lt; omega)
  let cleared : HashMapImpl K V := { m with
    cells := fun c => if c ∈ es.map cell then
      { (m.cells c).makeDeleted with next := some m.head } else m.cells c }
  let m' := (cleared.setNext m.head (some m.tail)).setPrev m.tail (some m.head)
  have hce : ∀ c, (m'.cells c).key = (if c ∈ es.map cell then none else (m.cells c).key) ∧
      (m'.cells c).next = (if c = m.head then some m.tail
        else if c ∈ es.map cell then some m.head else (m.cells c).next) ∧
      (c = m.tail → (m'.cells c).prev = some m.head) := by
    intro c
    simp only [m', cleared, setNext, setPrev, cells_modify, HashMapBucket.makeDeleted]
    grind
  have hh : m.head ∉ es.map cell := by
    have hinc := h.increasing
    rw [path, pairwise_cons] at hinc
    intro hmem
    exact lt_irrefl _ (hinc.1 m.head (mem_append_left _ hmem))
  have ht : m.tail ∉ es.map cell := fun hmem =>
    lt_irrefl _ (h.lt_tail (mem_cons_of_mem _ hmem))
  refine ⟨m'.cells, ?_, ⟨by simpa [path] using ne_of_lt hend, ?_, ?_⟩,
    by simpa [path] using hend, h.numbered, by simp, ?_, fun c hc hmem => ?_⟩
  · rw [HashMapImpl.clear, h.next_head]
    exact congrArg (Option.bind · _) hrun
  · change [m.head, m.tail].IsChain fun x y => (m'.cells x).next = some y
    rw [isChain_pair, (hce _).2.1, if_pos rfl]
  · change [m.head, m.tail].IsChain fun x y => (m'.cells y).prev = some x
    rw [isChain_pair, (hce _).2.2 rfl]
  · change (m'.cells m.head).key = none ∧ (m'.cells m.tail).key = none ∧
      (m'.cells m.tail).next = none
    rw [(hce _).1, (hce _).1, (hce _).2.1, if_neg hh, if_neg ht, if_neg (by omega), if_neg ht]
    exact h.sentinels
  · change c ∉ [m.head, m.tail] at hmem
    simp only [mem_cons, not_mem_nil, or_false, not_or] at hmem
    obtain ⟨hkey, hnx, -⟩ := hce c
    rw [if_neg hmem.1] at hnx
    by_cases hen : c ∈ es.map cell
    · rw [if_pos hen] at hkey hnx
      exact ⟨hkey, m.head, hnx, .inr ⟨rfl, by simp⟩⟩
    · rw [if_neg hen] at hkey hnx
      exact (h.stale c hc (by simp [path, hmem, hen])).mono hkey hnx rfl rfl (by simp)

end JavaScriptCore.Runtime.HashMapImpl
