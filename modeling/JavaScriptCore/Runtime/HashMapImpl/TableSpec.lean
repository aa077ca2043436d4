import JavaScriptCore.Runtime.HashMapImpl.ListSpec

/-!
# The invariant of `HashMapImpl`

Every entry on the list is reached in the buffer from its hash without meeting an empty slot, and
less than half of the slots are in use, which is why every probe ends. As long as the table has no
more than `2 ^ 28` entries the 32-bit counts do not wrap around,
and every operation returns and keeps the invariant, whatever the hash: what a hash that is not
compatible with the equality breaks is only which entry is found.
-/

namespace JavaScriptCore.Runtime.HashMapImpl

open JavaScriptCore.Collections List Function Nat

variable {K V : Type} {tr : MapKeyTraits K}

theorem increment_eq {count : Nat} (h : count + 1 < 2 ^ 32) : increment count = count + 1 :=
  mod_eq_of_lt h

/-- The slot at distance `d` from the one a hash selects. -/
def position (m : HashMapImpl K V) (hash : BitVec 32) (d : Nat) : Nat :=
  (hash.toNat + d) % m.capacity

structure Indexed (traits : MapKeyTraits K) (m : HashMapImpl K V) (entries : List (Entry K V)) :
    Prop where
  held : ∀ i < m.capacity, ∀ c, m.buffer i = .bucket c → ∃ e ∈ entries, e.cell = c
  once : ∀ i < m.capacity, ∀ j < m.capacity, ∀ c,
    m.buffer i = .bucket c → m.buffer j = .bucket c → i = j
  reached : ∀ e ∈ entries, ∃ d < m.capacity,
    m.buffer (m.position (traits.jsMapHash e.key) d) = .bucket e.cell ∧
      ∀ d' < d, m.buffer (m.position (traits.jsMapHash e.key) d') ≠ .empty

/-- The number of slots that are not empty. -/
def occupied (m : HashMapImpl K V) : Nat := count (fun i => m.buffer i ≠ .empty) m.capacity

/-- The invariant but for the load. -/
structure Sound (traits : MapKeyTraits K) (m : HashMapImpl K V) (entries : List (Entry K V)) :
    Prop extends Listed m entries, Indexed traits m entries where
  power : ∃ p, 2 ≤ p ∧ p ≤ 30 ∧ m.capacity = 2 ^ p
  keyCount_eq : m.keyCount = entries.length
  occupied_eq : m.occupied = m.keyCount + m.deleteCount

structure Consistent (traits : MapKeyTraits K) (m : HashMapImpl K V) (entries : List (Entry K V)) :
    Prop extends Sound traits m entries where
  load : 2 * (m.keyCount + m.deleteCount) < m.capacity

variable {m : HashMapImpl K V}

theorem Consistent.capacity_pos {es : List (Entry K V)}
    (h : Consistent tr m es) : 0 < m.capacity := by
  have hl := h.load
  omega

theorem Consistent.load_lt {es : List (Entry K V)}
    (h : Consistent tr m es) : m.keyCount + m.deleteCount < 2 ^ 29 := by
  obtain ⟨p, _, hp, hcap⟩ := h.power
  have hl := h.load
  have hmax : 2 ^ p ≤ 2 ^ 30 := Nat.pow_le_pow_right (by omega) hp
  omega

theorem position_lt (hpos : 0 < m.capacity) (hash : BitVec 32) (d : Nat) :
    m.position hash d < m.capacity :=
  mod_lt _ hpos

/-! ## Probing -/

section

variable {m : HashMapImpl K V} {es : List (Entry K V)}

theorem probe_spec {p : Nat} (hp : m.capacity = 2 ^ p) (hr : m.occupied < m.capacity)
    (canUse : HashMapSlot → Bool) (hash : BitVec 32) :
    ∃ d < m.capacity, m.probe canUse hash = some (m.position hash d) ∧
      (m.buffer (m.position hash d) = .empty ∨ canUse (m.buffer (m.position hash d)) = true) ∧
      ∀ d' < d, m.buffer (m.position hash d') ≠ .empty ∧
        canUse (m.buffer (m.position hash d')) = false := by
  obtain ⟨i, hi, he⟩ := exists_unused (· ≠ HashMapSlot.empty) hr
  obtain ⟨d, hd, hpb, hs, hb⟩ := linearProbe_spec (p := p)
    (fun idx => m.buffer idx = .empty || canUse (m.buffer idx)) hash.toNat
    ⟨i, hp ▸ hi, by simp [not_not.mp he]⟩
  rw [← hp] at hd hpb hs hb
  refine ⟨d, hd, hpb, by simpa [position] using hs, fun d' hd' => ?_⟩
  simpa [position] using hb d' hd'

theorem Consistent.occupied_lt (h : Consistent tr m es) : m.occupied < m.capacity := by
  have hl := h.load
  rw [h.occupied_eq]
  omega

/-- What the search for a key ends with: an entry with an equal key, or an empty slot. No entry of
the same hash is passed over. -/
theorem Consistent.search (h : Consistent tr m es) (key : K) :
    ∃ d < m.capacity,
      m.probe (m.canUseBucket tr key) (tr.jsMapHash key) = some (m.position (tr.jsMapHash key) d) ∧
      ((∃ e ∈ es, m.buffer (m.position (tr.jsMapHash key) d) = .bucket e.cell ∧
          tr.areKeysEqual key e.key = true) ∨
        (m.buffer (m.position (tr.jsMapHash key) d) = .empty ∧
          (∀ d' < d, m.buffer (m.position (tr.jsMapHash key) d') ≠ .empty) ∧
          ∀ e ∈ es, tr.jsMapHash e.key = tr.jsMapHash key →
            tr.areKeysEqual key e.key = false)) := by
  obtain ⟨p, _, _, hp⟩ := h.power
  obtain ⟨d, hd, hpb, hsp, hb⟩ :=
    probe_spec hp h.occupied_lt (m.canUseBucket tr key) (tr.jsMapHash key)
  refine ⟨d, hd, hpb, ?_⟩
  obtain hem | huse := hsp
  · refine .inr ⟨hem, fun d' hd' => (hb d' hd').1, fun e he hhash => ?_⟩
    obtain ⟨de, _, hs, hn⟩ := h.reached e he
    rw [hhash] at hs hn
    -- the empty slot is not among those before the entry's own
    have hle : de < d := by
      by_contra hge
      obtain rfl | hlt := eq_or_lt_of_le (not_lt.mp hge)
      · rw [hem] at hs
        cases hs
      · exact hn d hlt hem
    have hpa := (hb de hle).2
    rw [hs] at hpa
    simpa [canUseBucket, (h.stored e he).1] using hpa
  · left
    cases hs : m.buffer (m.position (tr.jsMapHash key) d) with
    | empty => simp [hs, canUseBucket] at huse
    | deleted => simp [hs, canUseBucket] at huse
    | bucket c =>
      obtain ⟨e, he, rfl⟩ := h.held _ (position_lt h.capacity_pos _ d) c hs
      refine ⟨e, he, rfl, ?_⟩
      simpa [hs, canUseBucket, (h.stored e he).1] using huse

end

/-! ## Changes of the buffer -/

section

variable {m : HashMapImpl K V} {es front back : List (Entry K V)} {e : Entry K V}
  {idx d : Nat}

theorem Indexed.setValue (h : Indexed tr m (front ++ e :: back)) (value : V) :
    Indexed tr m (front ++ { e with value } :: back) := by
  refine ⟨fun i hi c hc => ?_, h.once, fun e' he' => ?_⟩
  · obtain ⟨e', he', hce⟩ := h.held i hi c hc
    obtain hmem | rfl | hmem : e' ∈ front ∨ e' = e ∨ e' ∈ back := by simpa using he'
    · exact ⟨e', by simp [hmem], hce⟩
    · exact ⟨{ e' with value }, by simp, hce⟩
    · exact ⟨e', by simp [hmem], hce⟩
  · obtain hmem | rfl | hmem : e' ∈ front ∨ e' = { e with value } ∨ e' ∈ back := by
      simpa using he'
    · exact h.reached e' (by simp [hmem])
    · exact h.reached e (by simp)
    · exact h.reached e' (by simp [hmem])

/-- A cell put into the first empty slot from its hash is reached, and hides no other. -/
theorem Indexed.place (h : Indexed tr m es) (hnew : ∀ e' ∈ es, e'.cell ≠ e.cell)
    (hd : d < m.capacity) (he : m.buffer (m.position (tr.jsMapHash e.key) d) = .empty)
    (hb : ∀ d' < d, m.buffer (m.position (tr.jsMapHash e.key) d') ≠ .empty) :
    Indexed tr (m.setSlot (m.position (tr.jsMapHash e.key) d) (.bucket e.cell)) (es ++ [e]) := by
  have hab : ∀ i < m.capacity, m.buffer i ≠ .bucket e.cell := by
    intro i hi hc
    obtain ⟨e', he', hce⟩ := h.held i hi _ hc
    exact hnew e' he' hce
  generalize hix : m.position (tr.jsMapHash e.key) d = idx at he ⊢
  -- an empty slot was filled, so what was not empty still is not
  have hk : ∀ i, m.buffer i ≠ .empty → (m.setSlot idx (.bucket e.cell)).buffer i = m.buffer i := by
    intro i hi
    have hne : i ≠ idx := fun heq => hi (heq ▸ he)
    simp [setSlot, update_of_ne hne]
  refine ⟨fun i hi c hc => ?_, fun i hi j hj c hci hcj => ?_, fun e' he' => ?_⟩
  · simp only [setSlot, update_apply] at hc
    split at hc
    · exact ⟨e, by simp, by simpa using hc⟩
    · obtain ⟨e', he', hce⟩ := h.held i hi c hc
      exact ⟨e', by simp [he'], hce⟩
  · simp only [setSlot, update_apply] at hci hcj
    have := hab i hi
    have := hab j hj
    have := h.once i hi j hj c
    grind
  · obtain hmem | rfl : e' ∈ es ∨ e' = e := by simpa using he'
    · obtain ⟨d', hd', hs, hp⟩ := h.reached e' hmem
      refine ⟨d', hd', ?_, fun d'' hd'' => ?_⟩
      · exact (hk (m.position _ d') (by rw [hs]; simp)).trans hs
      · exact (hk _ (hp d'' hd'')).trans_ne (hp d'' hd'')
    · refine ⟨d, hd, ?_, fun d' hd' => (hk _ (hb d' hd')).trans_ne (hb d' hd')⟩
      exact hix ▸ update_self ..

theorem Indexed.delete (h : Indexed tr m (front ++ e :: back))
    (hd : ((front ++ e :: back).map Entry.cell).Nodup) (hix : idx < m.capacity)
    (hs : m.buffer idx = .bucket e.cell) :
    Indexed tr (m.setSlot idx .deleted) (front ++ back) := by
  have ho : ∀ e' ∈ front ++ back, e'.cell ≠ e.cell := by
    rw [map_append, map_cons, nodup_middle, nodup_cons, ← map_append] at hd
    intro e' he' heq
    exact hd.1 (heq ▸ mem_map_of_mem he')
  refine ⟨fun i hi c hc => ?_, fun i hi j hj c hci hcj => ?_, fun e' he' => ?_⟩
  · simp only [setSlot, update_apply] at hc
    split at hc
    · cases hc
    · rename_i hne
      obtain ⟨e', he', rfl⟩ := h.held i hi c hc
      have hce : e' ≠ e := fun heq => hne (h.once i hi idx hix _ (heq ▸ hc) hs)
      simp only [mem_append, mem_cons] at he'
      exact ⟨e', by simp only [mem_append]; tauto, rfl⟩
  · simp only [setSlot, update_apply] at hci hcj
    have := h.once i hi j hj c
    grind
  · obtain ⟨d', hd', hh, hp⟩ := h.reached e' (by
      simp only [mem_append, mem_cons] at he' ⊢
      tauto)
    refine ⟨d', hd', ?_, fun d'' hd'' => ?_⟩
    · have hne : m.position (tr.jsMapHash e'.key) d' ≠ idx := by
        intro heq
        rw [heq, hs] at hh
        exact ho e' he' (HashMapSlot.bucket.inj hh).symm
      exact (update_of_ne hne ..).trans hh
    · have hk := hp d'' hd''
      change update m.buffer idx .deleted (m.position _ d'') ≠ .empty
      rw [update_apply]
      split
      · simp
      · exact hk

theorem occupied_place (hi : idx < m.capacity) (he : m.buffer idx = .empty) (c : Nat) :
    (m.setSlot idx (.bucket c)).occupied = m.occupied + 1 :=
  count_update_used (· ≠ HashMapSlot.empty) hi (by simp [he]) (by simp)

theorem occupied_delete {c : Nat} (hs : m.buffer idx = .bucket c) :
    (m.setSlot idx .deleted).occupied = m.occupied :=
  count_update_same (· ≠ HashMapSlot.empty) (by simp [hs]) (by simp)

end

/-! ## Rehashing -/

section

variable {m : HashMapImpl K V} {es : List (Entry K V)}

theorem rehashFrom_spec {p fuel : Nat} {done rest : List (Entry K V)}
    (hl : Listed m (done ++ rest)) (hp : m.capacity = 2 ^ p)
    (hr : (done ++ rest).length < m.capacity) (hi : Indexed tr m done)
    (ho : m.occupied = done.length) (hf : rest.length < fuel) :
    ∃ buffer, rehashFrom tr fuel (rest.map Entry.cell ++ [m.tail]).head? m =
        some { m with buffer } ∧
      Indexed tr { m with buffer } (done ++ rest) ∧
      occupied { m with buffer } = (done ++ rest).length := by
  induction rest generalizing m done fuel with
  | nil =>
    obtain ⟨fuel, rfl⟩ := Nat.exists_eq_add_of_lt hf
    refine ⟨m.buffer, by simp [rehashFrom], ?_, ?_⟩
    · simpa using hi
    · simpa using ho
  | cons e rest ih =>
    obtain ⟨fuel, rfl⟩ : ∃ n, fuel = n + 1 := ⟨fuel - 1, by omega⟩
    have hmem : e ∈ done ++ e :: rest := by simp
    obtain ⟨d, hd, hpb, hs, hb⟩ := probe_spec hp
      (by rw [ho]; simp at hr; omega) (fun _ => false) (tr.jsMapHash e.key)
    have he : m.buffer (m.position (tr.jsMapHash e.key) d) = .empty := by simpa using hs
    have hnew : ∀ e' ∈ done, e'.cell ≠ e.cell := by
      have hdi := hl.distinct
      rw [map_append, map_cons, nodup_append] at hdi
      exact fun e' he' => hdi.2.2 e'.cell (mem_map_of_mem he') e.cell (by simp)
    have hpl := hi.place hnew hd he fun d' hd' => (hb d' hd').1
    have hc := occupied_place (position_lt (zero_lt_of_lt hd) (tr.jsMapHash e.key) d) he e.cell
    rw [ho] at hc
    generalize m.position (tr.jsMapHash e.key) d = idx at hpb hpl hc
    have hsp : done ++ e :: rest = done ++ [e] ++ rest := by simp
    rw [hsp] at hr ⊢
    obtain ⟨buffer, hrun, hres⟩ := ih (m := m.setSlot idx (.bucket e.cell))
      (hsp ▸ { hl with }) hp hr hpl (by simpa using hc)
      (lt_of_succ_lt_succ hf)
    refine ⟨buffer, ?_, hres⟩
    rw [rehashFrom]
    simpa [Nat.ne_of_lt (hl.cell_lt_tail hmem), (hl.stored e hmem).1, hpb,
      hl.next_entry, setSlot] using hrun

theorem nextCapacity_spec {p k : Nat} (hp : 2 ≤ p) (hp' : p ≤ 30) (hk : k ≤ 2 ^ 28)
    (hl : k < 2 ^ p) :
    ∃ q, 2 ≤ q ∧ q ≤ 30 ∧ nextCapacity (2 ^ p) k = some (2 ^ q) ∧ 2 * k < 2 ^ q := by
  have hh : 2 ^ p = 2 * 2 ^ (p - 1) := by
    rw [← pow_succ', show (p - 1).succ = p by omega]
  rw [nextCapacity, shouldShrink]
  rw [mod_eq_of_lt (show 8 * k < 2 ^ 32 by omega), mod_eq_of_lt (show 3 * k < 2 ^ 32 by omega)]
  split
  · rename_i h
    simp only [Bool.and_eq_true, decide_eq_true_eq] at h
    refine ⟨p - 1, ?_, by omega, by congr 1; omega, by omega⟩
    by_contra hlt
    have hp2 : p = 2 := by omega
    subst hp2
    omega
  · split
    · rename_i h
      simp only [Bool.and_eq_true, decide_eq_true_eq] at h
      exact ⟨p, hp, hp', rfl, by omega⟩
    rename_i h
    simp only [Bool.and_eq_true, decide_eq_true_eq, not_and, gt_iff_lt, not_lt] at h
    have hlt : p < 30 := by
      by_contra hge
      have hp30 : p = 30 := by omega
      subst hp30
      omega
    rw [if_pos (by omega)]
    exact ⟨p + 1, by omega, by omega, by rw [pow_succ], by rw [pow_succ]; omega⟩

theorem rehash_spec (h : Listed m es) (hpo : ∃ p, 2 ≤ p ∧ p ≤ 30 ∧ m.capacity = 2 ^ p)
    (hc : m.keyCount = es.length) (hsm : m.keyCount ≤ 2 ^ 28) (hl : m.keyCount < m.capacity) :
    ∃ m', m.rehash tr = some m' ∧ Consistent tr m' es ∧ m'.tail = m.tail := by
  obtain ⟨p, hp, hp', hcap⟩ := hpo
  obtain ⟨q, hq, hq', hn, hh⟩ := nextCapacity_spec hp hp' hsm (hcap ▸ hl)
  let emp : HashMapImpl K V := { m with capacity := 2 ^ q, buffer := fun _ => .empty }
  have hi : Indexed tr emp [] := {
    held := by simp [emp]
    once := by simp [emp]
    reached := by simp }
  have hno : emp.occupied = 0 := count_iff_forall_not.mpr (by simp [emp])
  obtain ⟨buffer, hrun, hf, ho⟩ := rehashFrom_spec (p := q)
    (show Listed emp ([] ++ es) from { h with }) rfl
    (by change es.length < 2 ^ q; omega) hi hno
    (show es.length < m.created by have := h.length_lt; omega)
  refine ⟨{ emp with buffer, deleteCount := 0 }, ?_, ?_, rfl⟩
  · have ha : 2 ^ q &&& (2 ^ q - 1) = 0 := by
      rw [and_two_pow_sub_one_eq_mod, mod_self]
    have hr' : rehashFrom tr m.created (m.cells m.head).next emp =
        some { emp with buffer } := h.next_head ▸ hrun
    simp only [rehash, hcap, hn, Option.bind_eq_bind, Option.bind_some, ha]
    exact congrArg (Option.bind · _) hr'
  · exact { h with
      held := hf.held
      once := hf.once
      reached := hf.reached
      power := ⟨q, hq, hq', rfl⟩
      keyCount_eq := hc
      occupied_eq := ho.trans hc.symm
      load := hh }

theorem Sound.rehashAfterAdd (h : Sound tr m es) (hsm : m.keyCount ≤ 2 ^ 28)
    (hl : 2 * (m.keyCount + m.deleteCount) < m.capacity + 2) :
    ∃ m', m.rehashAfterAdd tr = some m' ∧ Consistent tr m' es ∧ m'.tail = m.tail := by
  obtain ⟨p, hp, hp', hcap⟩ := h.power
  have hmin : 2 ^ 2 ≤ 2 ^ p := Nat.pow_le_pow_right (by omega) hp
  have hmax : 2 ^ p ≤ 2 ^ 30 := Nat.pow_le_pow_right (by omega) hp'
  rw [HashMapImpl.rehashAfterAdd, shouldRehashAfterAdd, mod_eq_of_lt (by omega)]
  split_ifs with hf
  · exact rehash_spec h.toListed h.power h.keyCount_eq hsm (by omega)
  · exact ⟨m, rfl, ⟨h, by simpa using hf⟩, rfl⟩

theorem Consistent.rehashIfShrinking (h : Consistent tr m es) (hsm : m.keyCount ≤ 2 ^ 28) :
    ∃ m', m.rehashIfShrinking tr = some m' ∧ Consistent tr m' es ∧ m'.tail = m.tail := by
  have hl := h.load
  rw [HashMapImpl.rehashIfShrinking]
  split
  · exact rehash_spec h.toListed h.power h.keyCount_eq hsm (by omega)
  · exact ⟨m, rfl, h, rfl⟩

end

/-! ## The operations -/

/-- What `add` does to the entries and to the tail. The entry whose value is replaced is the one
found; no entry of the key's own hash is equal to a key that is appended. -/
inductive Added (traits : MapKeyTraits K) (key : K) (value : V) (tail : Nat) :
    List (Entry K V) → List (Entry K V) → Nat → Prop
  | replaced {front back : List (Entry K V)} {e : Entry K V}
      (hequal : traits.areKeysEqual key e.key = true) :
      Added traits key value tail (front ++ e :: back) (front ++ { e with value } :: back) tail
  | appended {entries : List (Entry K V)}
      (habsent : ∀ e ∈ entries, traits.jsMapHash e.key = traits.jsMapHash key →
        traits.areKeysEqual key e.key = false) :
      Added traits key value tail entries (entries ++ [⟨tail, key, value⟩]) (tail + 1)

inductive Removed (traits : MapKeyTraits K) (key : K) :
    List (Entry K V) → List (Entry K V) → Bool → Prop
  | removed {front back : List (Entry K V)} {e : Entry K V}
      (hequal : traits.areKeysEqual key e.key = true) :
      Removed traits key (front ++ e :: back) (front ++ back) true
  | absent {entries : List (Entry K V)}
      (habsent : ∀ e ∈ entries, traits.jsMapHash e.key = traits.jsMapHash key →
        traits.areKeysEqual key e.key = false) :
      Removed traits key entries entries false

section

variable {m : HashMapImpl K V} {es : List (Entry K V)}

theorem createSized_consistent {p : Nat} (hp : 2 ≤ p) (hp' : p ≤ 30) :
    Consistent tr { (create : HashMapImpl K V) with capacity := 2 ^ p } [] where
  linked := ⟨by simp [path, create], by simp [path, create], by simp [path, create]⟩
  increasing := by simp [path, create]
  numbered := ⟨rfl, rfl⟩
  stored := by simp
  sentinels := ⟨rfl, rfl, rfl⟩
  stale := fun c hc hmem => by
    simp only [path, create, map_nil, nil_append, mem_cons, not_mem_nil] at hc hmem
    omega
  held := by simp [create]
  once := by simp [create]
  reached := by simp
  power := ⟨p, hp, hp', rfl⟩
  keyCount_eq := rfl
  occupied_eq := count_iff_forall_not.mpr (by simp [create])
  load := Nat.two_pow_pos p

theorem create_consistent : Consistent tr (create : HashMapImpl K V) [] :=
  createSized_consistent (p := 2) (by omega) (by omega)

/-- A new entry in the first empty slot from its hash. -/
theorem Sound.append {d : Nat} {key : K} (h : Sound tr m es)
    (hc : m.keyCount + 1 < 2 ^ 32) (hd : d < m.capacity)
    (he : m.buffer (m.position (tr.jsMapHash key) d) = .empty)
    (hb : ∀ d' < d, m.buffer (m.position (tr.jsMapHash key) d') ≠ .empty) (value : V) :
    Sound tr (m.appendEntry (m.position (tr.jsMapHash key) d) key value)
      (es ++ [⟨m.tail, key, value⟩]) := by
  have hp := h.toIndexed.place (e := ⟨m.tail, key, value⟩)
    (fun e' he' => Nat.ne_of_lt (h.cell_lt_tail he')) hd he hb
  have hi := position_lt (zero_lt_of_lt hd) (tr.jsMapHash key) d
  generalize m.position (tr.jsMapHash key) d = idx at he hp hi
  have hone : (m.appendEntry idx key value).keyCount = m.keyCount + 1 := increment_eq hc
  exact { h.toListed.appendEntry idx key value with
    held := hp.held
    once := hp.once
    reached := hp.reached
    power := h.power
    keyCount_eq := by
      rw [hone, h.keyCount_eq]
      simp
    occupied_eq := by
      change (m.setSlot idx (.bucket m.tail)).occupied =
        (m.appendEntry idx key value).keyCount + m.deleteCount
      rw [occupied_place hi he, h.occupied_eq, hone]
      omega }

theorem add_spec (h : Consistent tr m es) (hsm : m.keyCount < 2 ^ 28) (key : K) (value : V) :
    ∃ m' es', m.add tr key value = some m' ∧ Consistent tr m' es' ∧
      Added tr key value m.tail es es' m'.tail := by
  have hl := h.load
  obtain ⟨d, hd, hp, ⟨e, he, hsl, heq⟩ | ⟨hem, hb, hab⟩⟩ := h.search key
  · obtain ⟨front, back, rfl⟩ := append_of_mem he
    let m₁ := m.modify e.cell fun bucket => { bucket with value := some value }
    have hs : Sound tr m₁ (front ++ { e with value } :: back) := {
      h.toListed.setValue value, h.toIndexed.setValue value with
      power := h.power
      keyCount_eq := h.keyCount_eq.trans (by simp)
      occupied_eq := h.occupied_eq }
    obtain ⟨m', hrun, hc, ht⟩ := hs.rehashAfterAdd (Nat.le_of_lt hsm) (Nat.lt_add_right 2 hl)
    refine ⟨m', _, ?_, hc, ht ▸ .replaced heq⟩
    rw [← hrun, add, addNormalizedInternal, hp]
    simp [hsl, m₁]
  · have hs := h.toSound.append (by omega) hd hem hb value
    have hone : increment m.keyCount = m.keyCount + 1 := increment_eq (by omega)
    obtain ⟨m', hrun, hc, ht⟩ := hs.rehashAfterAdd
      (by change increment m.keyCount ≤ 2 ^ 28; omega) (by
        change 2 * (increment m.keyCount + m.deleteCount) < m.capacity + 2
        omega)
    have hcr : m'.tail = m.tail + 1 := ht.trans h.numbered.2
    refine ⟨m', _, ?_, hc, hcr ▸ .appended hab⟩
    rw [← hrun, add, addNormalizedInternal, hp]
    simp [hem]

/-- `addNormalizedNonExistingForCloning`, with room left. -/
theorem addNonExisting_spec (h : Consistent tr m es) (hc : m.keyCount + 1 < 2 ^ 32)
    (hr : 2 * (m.keyCount + 1 + m.deleteCount) < m.capacity) (key : K) (value : V) :
    ∃ m', m.addNormalizedInternal tr key value (fun _ => false) = some m' ∧
      Consistent tr m' (es ++ [⟨m.tail, key, value⟩]) ∧ m'.tail = m.tail + 1 ∧
      m'.capacity = m.capacity ∧ m'.deleteCount = m.deleteCount := by
  obtain ⟨p, _, _, hp⟩ := h.power
  obtain ⟨d, hd, hpb, hsp, hb⟩ := probe_spec hp h.occupied_lt (fun _ => false) (tr.jsMapHash key)
  have he : m.buffer (m.position (tr.jsMapHash key) d) = .empty := by simpa using hsp
  have hs := h.toSound.append hc hd he (fun d' hd' => (hb d' hd').1) value
  refine ⟨_, ?_, ⟨hs, ?_⟩, h.numbered.2, rfl, rfl⟩
  · simp [addNormalizedInternal, hpb, he]
  · change 2 * (increment m.keyCount + m.deleteCount) < m.capacity
    rw [increment_eq hc]
    exact hr

theorem Consistent.deleteBucket {front back : List (Entry K V)} {e : Entry K V} {idx : Nat}
    (h : Consistent tr m (front ++ e :: back)) (hi : idx < m.capacity)
    (hs : m.buffer idx = .bucket e.cell) :
    ∃ m', m.deleteBucket idx = some m' ∧ Consistent tr m' (front ++ back) ∧
      m'.keyCount ≤ m.keyCount ∧ m'.tail = m.tail := by
  obtain ⟨cells, hu, hl⟩ := h.toListed.unlink
  have hd := h.toIndexed.delete h.toListed.distinct hi hs
  have hlo := h.load
  have hmax := h.load_lt
  have hc := h.keyCount_eq
  rw [length_append, length_cons] at hc
  have hk : decrement m.keyCount = m.keyCount - 1 := by
    rw [decrement]
    omega
  have hde : increment m.deleteCount = m.deleteCount + 1 := increment_eq (by omega)
  refine ⟨{ ({ m with cells } : HashMapImpl K V).setSlot idx .deleted with
    deleteCount := increment m.deleteCount, keyCount := decrement m.keyCount }, ?_, ?_, ?_, rfl⟩
  · simp [HashMapImpl.deleteBucket, bucketAt, hs, hu, setSlot]
  · exact { hl with
      held := hd.held
      once := hd.once
      reached := hd.reached
      power := h.power
      keyCount_eq := by
        change decrement m.keyCount = _
        rw [hk, length_append]
        omega
      occupied_eq := by
        change (m.setSlot idx .deleted).occupied = decrement m.keyCount + increment m.deleteCount
        rw [occupied_delete hs, h.occupied_eq, hk, hde]
        omega
      load := by
        change 2 * (decrement m.keyCount + increment m.deleteCount) < m.capacity
        omega }
  · change decrement m.keyCount ≤ m.keyCount
    omega

theorem remove_spec (h : Consistent tr m es) (hsm : m.keyCount ≤ 2 ^ 28) (key : K) :
    ∃ m' es' found, m.remove tr key = some (m', found) ∧
      Consistent tr m' es' ∧ Removed tr key es es' found ∧
      m'.tail = m.tail := by
  obtain ⟨d, hd, hp, ⟨e, he, hs, heq⟩ | ⟨hem, _, hab⟩⟩ := h.search key
  · obtain ⟨front, back, rfl⟩ := append_of_mem he
    obtain ⟨m₁, hde, hc, hle, ht⟩ :=
      h.deleteBucket (position_lt h.capacity_pos (tr.jsMapHash key) d) hs
    obtain ⟨m', hr, hres, ht'⟩ := hc.rehashIfShrinking (le_trans hle hsm)
    refine ⟨m', _, true, ?_, hres, .removed heq, ht'.trans ht⟩
    simp [remove, findBucket, hp, hs, hde, hr]
  · refine ⟨m, es, false, ?_, h, .absent hab, rfl⟩
    simp [remove, findBucket, hp, hem]

theorem clear_spec (h : Listed m es) :
    ∃ m', m.clear = some m' ∧ Consistent tr m' [] ∧ m'.tail = m.tail := by
  obtain ⟨cells, hrun, hl⟩ := h.clear
  refine ⟨_, hrun, ?_, rfl⟩
  exact { hl with
    held := by simp
    once := by simp
    reached := by simp
    power := ⟨2, by omega, by omega, rfl⟩
    keyCount_eq := rfl
    occupied_eq := count_iff_forall_not.mpr (by simp)
    load := by simp }

end

/-! ## Keys with a hash of their own

What holds for a key whose equals all have its hash, in a table that may hold keys of which this is
not so. -/

/-- The entries with a key equal to `key`. -/
def entriesOf (traits : MapKeyTraits K) (key : K) (entries : List (Entry K V)) :
    List (Entry K V) :=
  entries.filter fun e => traits.areKeysEqual key e.key

/-- Whether an operation concerns a key: `clear` concerns every key. -/
def Operation.concerns (traits : MapKeyTraits K) (key : K) : Operation K V → Bool
  | .add key' _ => traits.areKeysEqual key key'
  | .remove key' => traits.areKeysEqual key key'
  | .clear => true

theorem Removed.entriesOf_le {key key' : K} {es es' : List (Entry K V)} {found : Bool}
    (h : Removed tr key' es es' found) :
    (entriesOf tr key es').length ≤ (entriesOf tr key es).length := by
  cases h with
  | removed heq =>
    simp only [entriesOf, filter_append, filter_cons, length_append]
    split <;> simp
  | absent hab => exact le_refl _

section

variable (equivalence : Equivalence fun a b => tr.areKeysEqual a b = true)
  {m : HashMapImpl K V} {es es' : List (Entry K V)} {key key' : K} {value : V}
  {tail tail' : Nat}

include equivalence

/-- An entry equal to another key is not one of this key. -/
theorem not_equal_of_other (h : tr.areKeysEqual key key' = false) {k : K}
    (hk : tr.areKeysEqual key' k = true) : tr.areKeysEqual key k = false := by
  rw [← Bool.not_eq_true] at h ⊢
  exact fun hkey => h (equivalence.trans hkey (equivalence.symm hk))

theorem Added.entriesOf_other (h : Added tr key' value tail es es' tail')
    (hkey : tr.areKeysEqual key key' = false) :
    entriesOf tr key es' = entriesOf tr key es := by
  cases h with
  | replaced heq => simp [entriesOf, not_equal_of_other equivalence hkey heq]
  | appended hab => simp [entriesOf, hkey]

theorem Removed.entriesOf_other {found : Bool} (h : Removed tr key' es es' found)
    (hkey : tr.areKeysEqual key key' = false) :
    entriesOf tr key es' = entriesOf tr key es := by
  cases h with
  | removed heq => simp [entriesOf, not_equal_of_other equivalence hkey heq]
  | absent hab => rfl

variable (hhash : ∀ k, tr.areKeysEqual key k = true → tr.jsMapHash k = tr.jsMapHash key)

include hhash

/-- After `add` there is one entry of the key, with the value just given. -/
theorem Added.entriesOf_self (h : Added tr key' value tail es es' tail')
    (hkey : tr.areKeysEqual key key' = true) (hone : (entriesOf tr key es).length ≤ 1) :
    (entriesOf tr key es').map Entry.value = [value] ∧
      es'.length = es.length + (1 - (entriesOf tr key es).length) := by
  cases h with
  | @replaced front back e heq =>
    have he : tr.areKeysEqual key e.key = true := equivalence.trans hkey heq
    simp only [entriesOf, filter_append, filter_cons, he, if_true, length_append,
      length_cons] at hone ⊢
    have hf : front.filter (fun e => tr.areKeysEqual key e.key) = [] :=
      eq_nil_of_length_eq_zero (by omega)
    have hb : back.filter (fun e => tr.areKeysEqual key e.key) = [] :=
      eq_nil_of_length_eq_zero (by omega)
    simp [hf, hb]
  | appended hab =>
    have hn : entriesOf tr key es = [] := by
      rw [entriesOf, filter_eq_nil_iff]
      intro e he heq
      have heq' : tr.areKeysEqual key' e.key = true := equivalence.trans (equivalence.symm hkey) heq
      have hs : tr.jsMapHash e.key = tr.jsMapHash key' :=
        (hhash e.key heq).trans (hhash key' hkey).symm
      rw [hab e he hs] at heq'
      cases heq'
    refine ⟨?_, by simp [hn]⟩
    rw [entriesOf] at hn ⊢
    simp [filter_append, hn, hkey]

variable (h : Consistent tr m es)

include h

theorem find_of_entry {e : Entry K V}
    (hone : entriesOf tr key es = [e]) (hkey : tr.areKeysEqual key key' = true) :
    ∃ idx, m.findBucket tr key' = some (some idx) ∧ m.bucketAt idx = some e.cell := by
  have hmem : e ∈ es ∧ tr.areKeysEqual key e.key = true := by
    have he : e ∈ entriesOf tr key es := by simp [hone]
    exact mem_filter.mp he
  obtain ⟨d, hd, hp, ⟨e', he', hs, heq⟩ | ⟨hem, _, hab⟩⟩ := h.search key'
  · have he : e' = e := by
      have hf : e' ∈ entriesOf tr key es := by
        rw [entriesOf, mem_filter]
        exact ⟨he', equivalence.trans hkey heq⟩
      rw [hone] at hf
      simpa using hf
    refine ⟨m.position (tr.jsMapHash key') d, ?_, ?_⟩
    · simp [findBucket, hp, hs]
    · simp [bucketAt, hs, he]
  · have hsa : tr.jsMapHash e.key = tr.jsMapHash key' :=
      (hhash e.key hmem.2).trans (hhash key' hkey).symm
    have heq : tr.areKeysEqual key' e.key = true := equivalence.trans (equivalence.symm hkey) hmem.2
    rw [hab e hmem.1 hsa] at heq
    cases heq

/-- No operation makes a second entry of the key, and one that does not concern it leaves its
entry. -/
theorem step_entriesOf (hsm : m.size < 2 ^ 28)
    (hone : (entriesOf tr key es).length ≤ 1) (op : Operation K V) :
    ∃ m' es', m.step tr op = some m' ∧ Consistent tr m' es' ∧ (entriesOf tr key es').length ≤ 1 ∧
      (op.concerns tr key = false →
        entriesOf tr key es' = entriesOf tr key es) := by
  cases op with
  | add key' value =>
    obtain ⟨m', es', hrun, hc, had⟩ := add_spec h hsm key' value
    refine ⟨m', es', hrun, hc, ?_, had.entriesOf_other equivalence⟩
    cases hkey : tr.areKeysEqual key key' with
    | true =>
      have hvs := (had.entriesOf_self equivalence hhash hkey hone).1
      rw [← length_map (f := Entry.value), hvs]
      exact le_refl 1
    | false => rwa [had.entriesOf_other equivalence hkey]
  | remove key' =>
    obtain ⟨m', es', found, hrun, hc, hr, _⟩ := remove_spec h (le_of_lt hsm) key'
    refine ⟨m', es', by simp [step, hrun], hc, ?_, hr.entriesOf_other equivalence⟩
    exact le_trans hr.entriesOf_le hone
  | clear =>
    obtain ⟨m', hrun, hc, _⟩ := clear_spec (K := K) h.toListed
    exact ⟨m', [], hrun, hc, by simp [entriesOf], by simp [Operation.concerns]⟩

theorem run_entriesOf {ops : List (Operation K V)} (hone : (entriesOf tr key es).length ≤ 1)
    (hsm : ∀ k m', m.run tr (ops.take k) = some m' → m'.size < 2 ^ 28) :
    ∃ m' es', m.run tr ops = some m' ∧ Consistent tr m' es' ∧ (entriesOf tr key es').length ≤ 1 ∧
      ((∀ op ∈ ops, op.concerns tr key = false) →
        entriesOf tr key es' = entriesOf tr key es) := by
  induction ops generalizing m es with
  | nil => exact ⟨m, es, rfl, h, hone, fun _ => rfl⟩
  | cons op ops ih =>
    obtain ⟨m₁, entries₁, hs, hc, ho, hsa⟩ :=
      step_entriesOf equivalence hhash h (hsm 0 m rfl) hone op
    have hr : ∀ k m', m₁.run tr (ops.take k) = some m' → m'.size < 2 ^ 28 := by
      intro k m' hrun
      refine hsm (k + 1) m' ?_
      simp only [run, take_succ_cons, foldlM_cons, hs]
      exact hrun
    obtain ⟨m', es', hrun, hc', ho', hs'⟩ := ih hc ho hr
    refine ⟨m', es', ?_, hc', ho', fun hall => ?_⟩
    · simp only [run, foldlM_cons, hs]
      exact hrun
    · rw [forall_mem_cons] at hall
      rw [hs' hall.2, hsa hall.1]

theorem get_of_entry [Inhabited V] {e : Entry K V}
    (hone : entriesOf tr key es = [e]) (hkey : tr.areKeysEqual key key' = true) :
    m.get tr key' = some e.value ∧ m.has tr key' = some true := by
  obtain ⟨idx, hf, hb⟩ := find_of_entry equivalence hhash h hone hkey
  have he : e ∈ entriesOf tr key es := by simp [hone]
  have hv := (h.stored e (mem_filter.mp he).1).2
  exact ⟨by simp [get, hf, hb, hv], by simp [has, hf]⟩

omit h

/-- The value last given to a key is found under each equal key until an operation concerns it, and
`add` with such a key replaces it. -/
theorem run_add_found [Inhabited V] {before after : List (Operation K V)} {v w : V}
    (ho : ∀ op ∈ after, op.concerns tr key = false)
    (hsm : ∀ k m', run tr ((before ++ .add key v :: after).take k) create = some m' →
      m'.size < 2 ^ 28)
    (hkey : tr.areKeysEqual key key' = true) :
    ∃ m m', run tr (before ++ .add key v :: after) create = some m ∧
      m.get tr key' = some v ∧ m.has tr key' = some true ∧
      m.add tr key' w = some m' ∧ m'.get tr key' = some w ∧ m'.size = m.size := by
  have hb : ∀ k m', run tr (before.take k) create = some m' → m'.size < 2 ^ 28 := by
    intro k m' hrun
    refine hsm (min k before.length) m' ?_
    rw [take_append_of_le_length (min_le_right _ _), ← take_eq_take_min]
    exact hrun
  obtain ⟨m₁, entries₁, hr, hco, hon, _⟩ := run_entriesOf equivalence hhash
    (create_consistent (V := V)) (by simp [entriesOf]) hb
  obtain ⟨m₂, entries₂, hru, hcon, had⟩ := add_spec hco
    (hb before.length m₁ (by rwa [take_length])) key v
  obtain ⟨e, he, rfl⟩ : ∃ e, entriesOf tr key entries₂ = [e] ∧ e.value = v := by
    have hvs := (had.entriesOf_self equivalence hhash (equivalence.refl key) hon).1
    simpa [map_eq_singleton_iff] using hvs
  have hs : ∀ ops, run tr (before ++ .add key e.value :: ops) create = m₂.run tr ops := by
    intro ops
    rw [run] at hr ⊢
    rw [foldlM_append, hr]
    exact congrArg (Option.bind · _) hru
  have haf : ∀ k m', m₂.run tr (after.take k) = some m' → m'.size < 2 ^ 28 := by
    intro k m' hrun
    refine hsm (before.length + (k + 1)) m' ?_
    rw [take_length_add_append, take_succ_cons, hs]
    exact hrun
  obtain ⟨m, es, hrun, hc, _, hsa⟩ := run_entriesOf equivalence hhash
    hcon (by rw [he]; exact le_refl 1) haf
  have he := (hsa ho).trans he
  obtain ⟨hget, hhas⟩ := get_of_entry equivalence hhash hc he hkey
  obtain ⟨m', es', hadd, hc', had'⟩ := add_spec hc
    (haf after.length m (by rwa [take_length])) key' w
  obtain ⟨hvs, hlen⟩ := had'.entriesOf_self equivalence hhash hkey (by rw [he]; exact le_refl 1)
  obtain ⟨e', he', rfl⟩ : ∃ e', entriesOf tr key es' = [e'] ∧ e'.value = w := by
    simpa [map_eq_singleton_iff] using hvs
  refine ⟨m, m', (hs after).trans hrun, hget, hhas, hadd,
    (get_of_entry equivalence hhash hc' he' hkey).1, ?_⟩
  rw [size, size, hc'.keyCount_eq, hc.keyCount_eq, hlen, he]
  simp

end

end JavaScriptCore.Runtime.HashMapImpl
