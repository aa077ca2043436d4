import JavaScriptCore.Runtime.HashMapImpl.TableSpec
import JavaScriptCore.Wtf.MathExtras

/-!
# Iterators and copies of a `HashMapImpl`

`runtime/JSMapIterator.h:54-69` and `runtime/HashMapImpl.h:386-414`. An iterator keeps the bucket it
has yielded last, the head at first; the bucket may have left the list in the meantime. It goes on
to the first bucket after it that is not deleted, and once there is none it stays at the end.
-/

namespace JavaScriptCore.Runtime.HashMapImpl

open List

variable {K V : Type}

/-- `while (bucket && bucket->deleted()) bucket = bucket->next()`. -/
def findLive (m : HashMapImpl K V) : Nat → Option Nat → Option (Option Nat)
  | 0, _ => none
  | _ + 1, none => some none
  | fuel + 1, some bucket =>
    if (m.cells bucket).key = none then findLive m fuel (m.cells bucket).next
    else some (some bucket)

/-- The new `m_iter`; a walk that visits more buckets than were created never ends. -/
def advanceIter (m : HashMapImpl K V) : Option Nat → Option (Option Nat)
  | none => some none
  | some prev => m.findLive (m.created + 1) (m.cells prev).next

variable (traits : MapKeyTraits K)

/-- The loop of `finishCreation` over the buckets of `base`. -/
def cloneFrom (base : HashMapImpl K V) :
    Nat → Option Nat → HashMapImpl K V → Option (HashMapImpl K V)
  | 0, _, _ => none
  | _ + 1, none, m => some m
  | fuel + 1, some bucket, m => do
    let m ← match (base.cells bucket).key, (base.cells bucket).value with
      | some key, some value => m.addNormalizedInternal traits key value fun _ => false
      | some _, none => none
      | none, _ => some m
    cloneFrom base fuel (base.cells bucket).next m

/-- `finishCreation` with a base. -/
def clone (base : HashMapImpl K V) : Option (HashMapImpl K V) := do
  let capacity := base.keyCount * 2 + 1
  if capacity > 2 ^ 31 then none
  let capacity := max (Wtf.roundUpToPowerOfTwo capacity) 4
  cloneFrom traits base (base.created + 1) (base.cells base.head).next { create with capacity }

/-! ## What an iterator finds -/

section

variable {m : HashMapImpl K V} {es front back : List (Entry K V)} {e : Entry K V}

/-- The first entry from a cell on. -/
def firstFrom (entries : List (Entry K V)) (c : Nat) : Option Nat :=
  (entries.find? fun e => c ≤ e.cell).map Entry.cell

theorem Listed.sorted (h : Listed m es) : (es.map Entry.cell).Pairwise (· < ·) :=
  h.increasing.sublist (by simp [path])

variable {c : Nat}

theorem firstFrom_eq_of_between {n : Nat}
    (h : ∀ e ∈ es, c ≤ e.cell ↔ n ≤ e.cell) : firstFrom es c = firstFrom es n := by
  rw [firstFrom, firstFrom]
  congr 1
  induction es with
  | nil => rfl
  | cons e es ih =>
    rw [List.find?_cons, List.find?_cons, ih fun e he => h e (mem_cons_of_mem _ he)]
    simp only [h e mem_cons_self]

theorem firstFrom_of_all (h : ∀ e ∈ es, c ≤ e.cell) :
    firstFrom es c = (es.map Entry.cell).head? := by
  cases es with
  | nil => rfl
  | cons e es => simp [firstFrom, h e mem_cons_self]

theorem firstFrom_split (hf : ∀ e' ∈ front, e'.cell < c) (he : c ≤ e.cell) :
    firstFrom (front ++ e :: back) c = some e.cell := by
  have hn : front.find? (fun e' => decide (c ≤ e'.cell)) = none := by
    rw [List.find?_eq_none]
    intro e' he'
    have := hf e' he'
    simp only [decide_eq_true_eq]
    omega
  rw [firstFrom, List.find?_append, hn, Option.none_or, List.find?_cons, decide_eq_true he]
  rfl

theorem firstFrom_after (hf : ∀ e' ∈ front, e'.cell < e.cell) :
    firstFrom (front ++ e :: back) (e.cell + 1) = firstFrom back (e.cell + 1) := by
  have hn : (front ++ [e]).find? (fun e' => decide (e.cell + 1 ≤ e'.cell)) = none := by
    rw [List.find?_eq_none]
    intro e' he'
    obtain hmem | rfl : e' ∈ front ∨ e' = e := by simpa using he'
    · have := hf e' hmem
      simp only [decide_eq_true_eq]
      omega
    · simp
  have hsp : front ++ e :: back = front ++ [e] ++ back := by simp
  rw [firstFrom, hsp, List.find?_append, hn]
  rfl

/-- The cells before an entry are smaller than its own. -/
theorem Listed.front_lt (h : Listed m (front ++ e :: back)) : ∀ e' ∈ front, e'.cell < e.cell := by
  have hs := h.sorted
  rw [map_append, map_cons, pairwise_append] at hs
  exact fun e' he' => hs.2.2 e'.cell (mem_map_of_mem he') e.cell (by simp)

theorem Listed.lt_back (h : Listed m (front ++ e :: back)) : ∀ e' ∈ back, e.cell < e'.cell := by
  have hs := h.sorted
  rw [map_append, map_cons, pairwise_append, pairwise_cons] at hs
  exact fun e' he' => hs.2.1.1 e'.cell (mem_map_of_mem he')

variable (h : Listed m es)

include h

theorem Listed.findLive_entry (he : e ∈ es) (fuel : Nat) :
    m.findLive (fuel + 1) (some e.cell) = some (some e.cell) := by
  rw [findLive, if_neg (by simp [(h.stored e he).1])]

theorem Listed.findLive_tail (fuel : Nat) :
    m.findLive (fuel + 2) (some m.tail) = some none := by
  rw [findLive, if_pos h.sentinels.2.1, h.sentinels.2.2, findLive]

/-- From the pointer to the rest of the list a walk stops at the first entry of it. -/
theorem Listed.findLive_rest (hb : ∀ e ∈ back, e ∈ es) (fuel : Nat) :
    m.findLive (fuel + 2) (back.map Entry.cell ++ [m.tail]).head? =
      some (back.map Entry.cell).head? := by
  cases back with
  | nil => exact h.findLive_tail fuel
  | cons e back => exact h.findLive_entry (hb e mem_cons_self) (fuel + 1)

theorem Listed.findLive_head (fuel : Nat) :
    m.findLive (fuel + 3) (some m.head) = some (es.map Entry.cell).head? := by
  rw [findLive, if_pos h.sentinels.1, h.next_head]
  exact h.findLive_rest (fun _ he => he) fuel

/-- A walk from any cell but the head stops at the first entry from there on: cells off the list are
left in the direction of growing numbers, or through the head. -/
theorem Listed.findLive_spec {fuel : Nat} (hc : c < m.created)
    (hh : c ≠ m.head) (hf : m.tail + 3 ≤ fuel + c) :
    m.findLive fuel (some c) = some (firstFrom es c) := by
  obtain ⟨hz, hl⟩ := h.numbered
  induction fuel generalizing c with
  | zero => omega
  | succ fuel ih =>
    by_cases hp : c ∈ path m es
    · rw [path, mem_cons, mem_append, mem_singleton] at hp
      obtain heq | hmem | rfl := hp
      · exact absurd heq hh
      · obtain ⟨e, he, rfl⟩ := mem_map.mp hmem
        obtain ⟨front, back, rfl⟩ := append_of_mem he
        rw [h.findLive_entry he, firstFrom_split h.front_lt (le_refl _)]
      · obtain ⟨fuel, rfl⟩ : ∃ n, fuel = n + 1 := ⟨fuel - 1, by omega⟩
        have hno : es.find? (fun e => decide (m.tail ≤ e.cell)) = none := by
          rw [List.find?_eq_none]
          intro e he
          have := h.cell_lt_tail he
          simp only [decide_eq_true_eq]
          omega
        rw [h.findLive_tail, firstFrom, hno]
        rfl
    · obtain ⟨hkey, n, hn, ⟨hlt, hk, hb⟩ | ⟨rfl, haf⟩⟩ := h.stale c hc hp
      · rw [findLive, if_pos hkey, hn, ih hk (by omega) (by omega)]
        congr 1
        refine (firstFrom_eq_of_between fun e he => ?_).symm
        have hne : e.cell ≠ c := fun heq =>
          hp (by
            simp only [path, mem_cons, mem_append, mem_map]
            exact .inr (.inl ⟨e, he, heq⟩))
        have := hb e he
        omega
      · have ht : c ≠ m.tail := fun heq => hp (by simp [path, heq])
        obtain ⟨fuel, rfl⟩ : ∃ n, fuel = n + 3 := ⟨fuel - 3, by omega⟩
        rw [findLive, if_pos hkey, hn, h.findLive_head,
          firstFrom_of_all fun e he => le_of_lt (haf e he)]

/-- An iterator goes to the first entry inserted after the one it has yielded last, whether that one
is still there or not. -/
theorem Listed.advanceIter_spec (hc : c < m.tail) :
    m.advanceIter (some c) = some (firstFrom es (c + 1)) := by
  obtain ⟨hz, hl⟩ := h.numbered
  rw [advanceIter]
  by_cases hp : c ∈ path m es
  · rw [path, mem_cons, mem_append, mem_singleton] at hp
    obtain ⟨fuel, hf⟩ : ∃ n, m.created + 1 = n + 2 := ⟨m.created - 1, by omega⟩
    obtain heq | hmem | heq := hp
    · rw [heq, h.next_head, hf, h.findLive_rest fun _ he => he, firstFrom_of_all]
      intro e he
      have hinc := h.increasing
      rw [path, pairwise_cons] at hinc
      exact hinc.1 e.cell (mem_append_left _ (mem_map_of_mem he))
    · obtain ⟨e, he, rfl⟩ := mem_map.mp hmem
      obtain ⟨front, back, rfl⟩ := append_of_mem he
      rw [h.next_entry, hf, h.findLive_rest fun e' he' => by simp [he']]
      rw [firstFrom_after h.front_lt, firstFrom_of_all h.lt_back]
    · omega
  · obtain ⟨_, n, hn, ⟨hlt, hk, hb⟩ | ⟨rfl, haf⟩⟩ := h.stale c (by omega) hp
    · rw [hn, h.findLive_spec hk (by omega) (by omega)]
      congr 1
      refine (firstFrom_eq_of_between fun e he => ?_).symm
      have := hb e he
      omega
    · obtain ⟨fuel, hf⟩ : ∃ n, m.created + 1 = n + 3 := ⟨m.created - 2, by omega⟩
      rw [hn, hf, h.findLive_head, firstFrom_of_all haf]

end

/-! ## What a copy holds -/

/-- Entries in cells numbered from `n` on. -/
def renumbered (n : Nat) : List (Entry K V) → List (Entry K V)
  | [] => []
  | e :: entries => { e with cell := n } :: renumbered (n + 1) entries

variable {traits : MapKeyTraits K}

theorem cloneFrom_spec {base m : HashMapImpl K V} {front rest copied : List (Entry K V)}
    {fuel : Nat} (hb : Listed base (front ++ rest))
    (h : Consistent traits m copied) (hd : m.deleteCount = 0)
    (hct : copied.length + rest.length < 2 ^ 31)
    (hro : 2 * (copied.length + rest.length) < m.capacity) (hf : rest.length + 1 < fuel) :
    ∃ m', cloneFrom traits base fuel (rest.map Entry.cell ++ [base.tail]).head? m = some m' ∧
      Consistent traits m' (copied ++ renumbered m.tail rest) ∧
      m'.tail = m.tail + rest.length := by
  induction rest generalizing m front copied fuel with
  | nil =>
    obtain ⟨fuel, rfl⟩ : ∃ n, fuel = n + 2 := ⟨fuel - 2, by simp at hf; omega⟩
    refine ⟨m, ?_, by simpa [renumbered] using h, rfl⟩
    simp [cloneFrom, hb.sentinels]
  | cons e rest ih =>
    obtain ⟨fuel, rfl⟩ : ∃ n, fuel = n + 1 := ⟨fuel - 1, by omega⟩
    have hk := h.keyCount_eq
    rw [length_cons] at hct hro hf
    obtain ⟨m₁, hadd, hc, ht, hcap, hde⟩ :=
      addNonExisting_spec h (by omega) (by omega) e.key e.value
    have hsp : front ++ e :: rest = front ++ [e] ++ rest := by simp
    obtain ⟨m', hrun, hr, ht'⟩ := ih (show Listed base (front ++ [e] ++ rest) from hsp ▸ hb) hc
      (hde.trans hd) (by rw [length_append, length_singleton]; omega)
      (by rw [hcap, length_append, length_singleton]; omega)
      (show rest.length + 1 < fuel by omega)
    refine ⟨m', ?_, ?_, ?_⟩
    · obtain ⟨hkey, hv⟩ := hb.stored e (by simp)
      rw [map_cons, cons_append, head?_cons, cloneFrom, hkey, hv, hb.next_entry, ← hrun]
      simp [hadd]
    · rw [renumbered, ← ht]
      simpa using hr
    · rw [ht', ht, length_cons]
      omega

theorem clone_spec {base : HashMapImpl K V} {es : List (Entry K V)}
    (h : Consistent traits base es) (hsm : base.keyCount < 2 ^ 28) :
    ∃ m, base.clone traits = some m ∧ Consistent traits m (renumbered 1 es) ∧
      m.tail = 1 + es.length := by
  have hct := h.keyCount_eq
  let p := max (Nat.clog 2 (base.keyCount * 2 + 1)) 2
  have hr : max (Wtf.roundUpToPowerOfTwo (base.keyCount * 2 + 1)) 4 = 2 ^ p := by
    rw [Wtf.roundUpToPowerOfTwo_eq (by omega) (by omega)]
    obtain hle | hle := Nat.le_total (Nat.clog 2 (base.keyCount * 2 + 1)) 2
    · have hpow := Nat.pow_le_pow_right (Nat.zero_lt_two) hle
      rw [show p = 2 from max_eq_right hle, max_eq_right hpow]
    · have hpow := Nat.pow_le_pow_right (Nat.zero_lt_two) hle
      rw [show p = Nat.clog 2 (base.keyCount * 2 + 1) from Nat.max_eq_left hle, max_eq_left hpow]
  have hp : p ≤ 30 := by
    have : Nat.clog 2 (base.keyCount * 2 + 1) ≤ 30 :=
      (Nat.clog_le_iff_le_pow (by omega)).mpr (by omega)
    omega
  have hro : base.keyCount * 2 + 1 ≤ 2 ^ p :=
    (Nat.le_pow_clog (by omega) _).trans (Nat.pow_le_pow_right (by omega) (Nat.le_max_left _ _))
  obtain ⟨m, hrun, hc, ht⟩ := cloneFrom_spec (show Listed base ([] ++ es) from h.toListed)
    (createSized_consistent (le_max_right _ _) hp) rfl (by rw [length_nil]; omega)
    (by
      change 2 * (0 + es.length) < 2 ^ p
      omega)
    (show es.length + 1 < base.created + 1 by
      have := h.length_lt
      omega)
  refine ⟨m, ?_, hc, ht⟩
  rw [clone, hr, h.next_head]
  simp only [gt_iff_lt, show ¬2 ^ 31 < base.keyCount * 2 + 1 by omega, if_false]
  exact hrun

end JavaScriptCore.Runtime.HashMapImpl
