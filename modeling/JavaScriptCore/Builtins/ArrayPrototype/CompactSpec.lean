import JavaScriptCore.Builtins.ArrayPrototype.SortSpec

/-!
# Compaction

What `compact` is for: the defined values first, then the undefined ones, then the holes. The scan
of `compactSlow` keeps to that as long as it meets fewer than 256 holes. At the 256th hole
`compactSparse` takes over; the undefined values that the scan has skipped by then are lost, and
names that convert to numbers below the length are taken for indices.
-/

namespace JavaScriptCore.ArrayPrototype

open Json ArrayObject List Prod Option SparseState

variable {Value : Type}

/-! ## Values, undefined values and holes -/

namespace ArrayObject

def holesBelow (array : ArrayObject Value) : Nat → Nat
  | 0 => 0
  | n + 1 => array.holesBelow n + if array.has n then 0 else 1

variable [DecidableEq Value] [Inhabited Value]

/-- The defined values at the indices below a bound, in order. -/
def definedBelow (array : ArrayObject Value) : Nat → List Value
  | 0 => []
  | n + 1 => match array.elements n with
    | some value => if value = default then array.definedBelow n
      else array.definedBelow n ++ [value]
    | none => array.definedBelow n

def undefinedBelow (array : ArrayObject Value) : Nat → Nat
  | 0 => 0
  | n + 1 => array.undefinedBelow n + if array.elements n = some default then 1 else 0

end ArrayObject

/-- Values, then undefined values, then holes. -/
def layout [Inhabited Value] (values : List Value) (undefinedCount i : Nat) : Option Value :=
  if i < values.length then values[i]?
  else if i < values.length + undefinedCount then some default
  else none

/-- With fewer undefined values the layout is another one. -/
theorem layout_ne [Inhabited Value] {values values' : List Value} {m n : Nat}
    (hlen : values.length = values'.length) (h : n < m) : layout values m ≠ layout values' n := by
  intro heq
  have := congrFun heq (values.length + n)
  rw [layout, layout, if_neg (by omega), if_pos (by omega), if_neg (by omega),
    if_neg (by omega)] at this
  cases this

/-- The array and the count that `compact` should give. -/
structure Compacted [DecidableEq Value] [Inhabited Value] (array : ArrayObject Value)
    (result : ArrayObject Value × Nat) : Prop where
  count : result.2 = (array.definedBelow array.length).length
  elements : ∃ values, values.Perm (array.definedBelow array.length) ∧
    ∀ i, result.1.elements i = layout values (array.undefinedBelow array.length) i
  named : result.1.named = array.named
  length : result.1.length = array.length

theorem holesBelow_mono (a : ArrayObject Value) {m n : Nat} (h : m ≤ n) :
    a.holesBelow m ≤ a.holesBelow n := by
  induction h with
  | refl => exact le_refl _
  | step _ ih => exact Nat.le_trans ih (Nat.le_add_right _ _)

/-! ## Filling and deleting -/

theorem fillUndefined_eq [Inhabited Value] (st count : Nat) (a : ArrayObject Value) :
    fillUndefined st count a = writeValues a st (replicate count default) := by
  induction count generalizing st a with
  | zero => rfl
  | succ count ih => rw [fillUndefined, ih, replicate_succ, writeValues]

theorem elements_fillUndefined [Inhabited Value] (st count : Nat) (a : ArrayObject Value)
    (i : Nat) :
    (fillUndefined st count a).elements i =
      if st ≤ i ∧ i < st + count then some default else a.elements i := by
  rw [fillUndefined_eq, elements_writeValues, length_replicate]
  split
  · rw [List.getElem?_replicate, if_pos (by omega)]
  · rfl

theorem deleteFrom_spec (st count : Nat) (a : ArrayObject Value) :
    (∀ i, (deleteFrom st count a).elements i =
      if st ≤ i ∧ i < st + count then none else a.elements i) ∧
    (deleteFrom st count a).named = a.named ∧ (deleteFrom st count a).length = a.length := by
  induction count generalizing st a with
  | zero =>
    refine ⟨fun i => ?_, rfl, rfl⟩
    rw [if_neg (by omega)]
    rfl
  | succ count ih =>
    obtain ⟨hes, hn, hlen⟩ := ih (st + 1) (a.delete st)
    refine ⟨fun i => ?_, hn, hlen⟩
    rw [deleteFrom, hes, delete]
    grind

/-! ## The scan -/

section

variable [DecidableEq Value] [Inhabited Value] (env : Environment Value) {a b : ArrayObject Value}

theorem below_sum (a : ArrayObject Value) (n : Nat) :
    (a.definedBelow n).length + a.undefinedBelow n + a.holesBelow n = n := by
  induction n with
  | zero => rfl
  | succ n ih =>
    rw [definedBelow, undefinedBelow, holesBelow, has]
    cases h : a.elements n with
    | none => simp; omega
    | some v =>
      by_cases hv : v = default
      · simp [hv]; omega
      · simp [hv]; omega

variable {v : Value} {src dst holeCount length : Nat}

theorem mem_definedBelow {a : ArrayObject Value} {n : Nat}
    (h : v ∈ a.definedBelow n) : v ≠ default := by
  induction n with
  | zero => cases h
  | succ n ih =>
    rw [definedBelow] at h
    split at h
    · split_ifs at h with hv
      · exact ih h
      · obtain h | h := mem_append.mp h
        · exact ih h
        · rw [mem_singleton.mp h]
          exact hv
    · exact ih h

/-- The scan stands at `src`: the defined values found are in front, the rest is untouched. -/
structure Scanned (a : ArrayObject Value) (src dst holeCount : Nat) (b : ArrayObject Value) :
    Prop where
  values : dst = (a.definedBelow src).length
  holes : holeCount = a.holesBelow src
  elements : ∀ i, b.elements i = if i < dst then (a.definedBelow src)[i]? else a.elements i
  named : b.named = a.named
  length : b.length = a.length

variable (h : Scanned a src dst holeCount b)

include h in
theorem Scanned.dst_le : dst ≤ src := by
  have := below_sum a src
  rw [h.values]
  omega

include h in
theorem Scanned.at_src : b.elements src = a.elements src := by
  have := h.dst_le
  rw [h.elements, if_neg (by omega)]

theorem scanned_start (a : ArrayObject Value) : Scanned a 0 0 0 a :=
  ⟨rfl, rfl, fun i => by rw [if_neg (by omega)], rfl, rfl⟩

include h

theorem Scanned.hole (hh : a.elements src = none) : Scanned a (src + 1) dst (holeCount + 1) b := by
  have hd : a.definedBelow (src + 1) = a.definedBelow src := by
    rw [definedBelow, hh]
  refine ⟨by rw [hd, h.values], ?_, by rw [hd]; exact h.elements, h.named, h.length⟩
  rw [holesBelow, has, hh, h.holes]
  rfl

theorem Scanned.undefined (hu : a.elements src = some default) : Scanned a
    (src + 1) dst holeCount b := by
  have hd : a.definedBelow (src + 1) = a.definedBelow src := by
    rw [definedBelow, hu]
    exact if_pos rfl
  refine ⟨by rw [hd, h.values], ?_, by rw [hd]; exact h.elements, h.named, h.length⟩
  rw [holesBelow, has, hu, h.holes]
  rfl

theorem Scanned.value (hva : a.elements src = some v) (hv : v ≠ default) (hsrc : src < a.length) :
    Scanned a (src + 1) (dst + 1) holeCount (b.put dst v) := by
  have hd : a.definedBelow (src + 1) = a.definedBelow src ++ [v] := by
    rw [definedBelow, hva]
    exact if_neg hv
  have hle := h.dst_le
  refine ⟨by rw [hd, h.values]; simp, ?_, fun i => ?_, h.named, ?_⟩
  · rw [holesBelow, has, hva, h.holes]
    rfl
  · rw [elements_put, h.elements, hd, h.values]
    grind
  · rw [length_put, h.length]
    omega

omit h

theorem compactSlowFrom_end (h : Scanned a a.length dst holeCount b) :
    Compacted a (compactSlowFrom env a.length 0 b a.length dst holeCount) := by
  have hsum := below_sum a a.length
  rw [← h.values, ← h.holes] at hsum
  have hc : a.length - dst - holeCount = a.undefinedBelow a.length := by omega
  have hf : (fillUndefined dst (a.undefinedBelow a.length) b).length = a.length := by
    rw [fillUndefined_eq, length_writeValues b (by rw [length_replicate, h.length]; omega),
      h.length]
  obtain ⟨hes, hn, hlen⟩ := deleteFrom_spec (dst + a.undefinedBelow a.length)
    (a.length - (dst + a.undefinedBelow a.length))
    (fillUndefined dst (a.undefinedBelow a.length) b)
  rw [compactSlowFrom, hc]
  refine ⟨h.values, ⟨_, .refl _, fun i => ?_⟩, ?_, hlen.trans hf⟩
  · have hb : a.length ≤ i → a.elements i = none := a.bounded i
    rw [hes, elements_fillUndefined, h.elements, layout, ← h.values]
    grind
  · rw [hn, fillUndefined_eq, named_writeValues, h.named]

/-- Either the scan comes to its end, or it stops at the 256th hole. -/
theorem compactSlowFrom_cases {rem : Nat} : ∀ {src dst holeCount : Nat} {b : ArrayObject Value},
    src + rem = a.length → holeCount < 256 → Scanned a src dst holeCount b →
    (a.holesBelow a.length < 256 ∧
      Compacted a (compactSlowFrom env a.length rem b src dst holeCount)) ∨
    ∃ src' dst' b', src' < a.length ∧ a.elements src' = none ∧ Scanned a src' dst' 255 b' ∧
      compactSlowFrom env a.length rem b src dst holeCount =
        compactSparse env b' dst' src' a.length := by
  induction rem with
  | zero =>
    intro src dst holeCount b hsrc hh h
    obtain rfl : src = a.length := by omega
    exact .inl ⟨h.holes ▸ hh, compactSlowFrom_end env h⟩
  | succ rem ih =>
    intro src dst holeCount b hsrc hh h
    rw [compactSlowFrom, ArrayObject.has, ArrayObject.get, h.at_src]
    cases hel : a.elements src with
    | none =>
      by_cases hl : holeCount + 1 < 256
      · rw [if_pos hl]
        exact ih (by omega) hl (h.hole hel)
      · rw [if_neg hl]
        obtain rfl : holeCount = 255 := by omega
        exact .inr ⟨src, dst, b, by omega, hel, h, rfl⟩
    | some v =>
      simp only [isSome_some, Bool.true_eq_false, if_false, getD_some]
      split_ifs with hv
      · exact ih (by omega) hh (h.undefined (hv ▸ hel))
      · exact ih (by omega) hh (h.value hel hv (by omega))

/-! ## The sparse routine -/

/-- The loop over the names of the array has come to the index `k`. -/
structure Moved (c : ArrayObject Value) (k : Nat) (s : SparseState Value) : Prop where
  values : s.valueCount = (c.definedBelow k).length
  undefineds : s.undefinedCount = c.undefinedBelow k
  elements : ∀ i, s.array.elements i =
    if i < s.valueCount then (c.definedBelow k)[i]? else if i < k then none else c.elements i
  named : s.array.named = c.named
  length : s.array.length = c.length
  unseen : ∀ i, k ≤ i → s.seen (.index i) = false

variable {c : ArrayObject Value} {k : Nat} {s : SparseState Value}

theorem Moved.valueCount_le (h : Moved c k s) : s.valueCount ≤ k := by
  have := below_sum c k
  rw [h.values]
  omega

theorem Moved.hole (h : Moved c k s) (hh : c.elements k = none) : Moved c (k + 1) s := by
  have hd : c.definedBelow (k + 1) = c.definedBelow k := by
    rw [definedBelow, hh]
  refine ⟨by rw [hd, h.values], ?_, fun i => ?_, h.named, h.length,
    fun i hi => h.unseen i (by omega)⟩
  · rw [undefinedBelow, hh, h.undefineds]
    simp
  · rw [hd, h.elements]
    grind

theorem Moved.visit (h : Moved c k s) (hva : c.elements k = some v)
    (hk : k < c.length) : Moved c (k + 1) (s.visit env c.length (.index k)) := by
  have hle := h.valueCount_le
  have hget : s.array.getKey env (.index k) = v := by
    rw [ArrayObject.getKey, ArrayObject.get, h.elements, if_neg (by omega), if_neg (by omega), hva,
      getD_some]
  have hb : PropertyKey.below env c.length (.index k) ≠ false := by simpa [PropertyKey.below]
  have hu : ¬s.seen (.index k) = true := by simp [h.unseen k (le_refl k)]
  have hs (i : Nat) (hi : k + 1 ≤ i) :
      (if PropertyKey.index i = .index k then true else s.seen (.index i)) = false := by
    rw [if_neg (by simp; omega), h.unseen i (by omega)]
  rw [SparseState.visit, if_neg hb, if_neg hu, hget]
  by_cases hv : v = default
  · have hd : c.definedBelow (k + 1) = c.definedBelow k := by
      rw [ArrayObject.definedBelow, hva]
      exact if_pos hv
    rw [if_pos hv]
    refine ⟨by rw [hd, h.values], ?_, fun i => ?_, h.named, h.length, hs⟩
    · rw [ArrayObject.undefinedBelow, hva, hv, if_pos rfl, h.undefineds]
    · simp only [ArrayObject.deleteKey, ArrayObject.delete, h.elements, hd]
      grind
  · have hd : c.definedBelow (k + 1) = c.definedBelow k ++ [v] := by
      rw [ArrayObject.definedBelow, hva]
      exact if_neg hv
    rw [if_neg hv]
    refine ⟨by rw [hd, h.values]; simp, ?_, fun i => ?_, h.named, ?_, hs⟩
    · rw [ArrayObject.undefinedBelow, hva, if_neg (by simpa using hv), h.undefineds, add_zero]
    · have hvs := h.values
      simp only [ArrayObject.deleteKey, ArrayObject.delete, elements_put, h.elements, hd]
      grind
    · rw [length_put]
      simp only [ArrayObject.deleteKey, ArrayObject.delete, h.length]
      omega

theorem moved_indices (fresh : PropertyKey → Bool) (hf : ∀ i, fresh (.index i) = false)
    {k : Nat} (hk : k ≤ c.length) :
    Moved c k ((((range k).filter c.has).map .index).foldl (visit env c.length)
      ⟨c, fresh, 0, 0⟩) := by
  induction k with
  | zero =>
    exact ⟨rfl, rfl, fun i => by simp, rfl, rfl, fun i _ => hf i⟩
  | succ k ih =>
    have hm := ih (by omega)
    rw [range_succ, filter_append, map_append, foldl_append]
    cases hel : c.elements k with
    | none =>
      have hhas : [k].filter c.has = [] := by simp [has, hel]
      rw [hhas]
      exact hm.hole hel
    | some v =>
      have hhas : [k].filter c.has = [k] := by simp [has, hel]
      rw [hhas]
      exact hm.visit env hel (by omega)

variable {names : List PropertyKey}

theorem foldl_visit_of_not_below
    (h : ∀ name ∈ names, name.below env length = false) (s : SparseState Value) :
    names.foldl (visit env length) s = s := by
  induction names generalizing s with
  | nil => rfl
  | cons name names ih =>
    rw [foldl_cons, visit, if_pos (h name mem_cons_self)]
    exact ih (fun name' hn' => h name' (mem_cons_of_mem name hn')) s

/-- The array that the sparse routine reads: what the scan found, and what it did not reach. -/
structure Cleared (a : ArrayObject Value) (src : Nat) (c : ArrayObject Value) : Prop where
  elements : ∀ i, c.elements i =
    if i < (a.definedBelow src).length then (a.definedBelow src)[i]?
    else if i < src then none else a.elements i
  named : c.named = a.named
  length : c.length = a.length

include h in
theorem Scanned.cleared : Cleared a src (deleteFrom dst (src - dst) b) := by
  obtain ⟨hes, hn, hlen⟩ := deleteFrom_spec dst (src - dst) b
  refine ⟨fun i => ?_, hn.trans h.named, hlen.trans h.length⟩
  rw [hes, h.elements, ← h.values]
  grind

/-- In front of `src` nothing is undefined any more. -/
theorem Cleared.below_src (h : Cleared a src c) : ∀ k, k ≤ src →
    c.definedBelow k = (a.definedBelow src).take k ∧ c.undefinedBelow k = 0
  | 0, _ => ⟨rfl, rfl⟩
  | k + 1, hk => by
    obtain ⟨hd, hu⟩ := h.below_src k (by omega)
    rw [definedBelow, undefinedBelow, hd, hu, h.elements]
    by_cases hin : k < (a.definedBelow src).length
    · have hv := mem_definedBelow (getElem_mem hin)
      rw [if_pos hin, List.getElem?_eq_getElem hin]
      simp [hv, take_add_one]
    · rw [if_neg hin, if_pos (by omega), take_of_length_le (by omega), take_of_length_le (by omega)]
      simp

theorem Cleared.from_src (h : Cleared a src c) {k : Nat} (hk : src ≤ k) :
    c.definedBelow k = a.definedBelow k ∧
      c.undefinedBelow k + a.undefinedBelow src = a.undefinedBelow k := by
  have hsum := below_sum a src
  induction hk with
  | refl =>
    obtain ⟨hd, hu⟩ := h.below_src src (le_refl src)
    exact ⟨by rw [hd, take_of_length_le (by omega)], by omega⟩
  | @step k hk ih =>
    obtain ⟨hd, hu⟩ := ih
    have hk : src ≤ k := hk
    have hel : c.elements k = a.elements k := by
      rw [h.elements, if_neg (by omega), if_neg (by omega)]
    constructor
    · simp only [definedBelow, hel, hd]
    · simp only [undefinedBelow, hel]
      omega

/-- No name on the array or its prototypes converts to a number below the length. -/
def NamesAbove (env : Environment Value) (a : ArrayObject Value) : Prop :=
  ∀ properties ∈ a.named :: env.prototypes, ∀ p ∈ properties, env.nameBelow p.1 a.length = false

/-- What the sparse routine gives: the undefined values in front of `src` are missing. -/
theorem compactSparse_spec (hna : NamesAbove env a)
    (h : Scanned a src dst holeCount b) (hsrc : src ≤ a.length) :
    let result := compactSparse env b dst src a.length
    result.2 = (a.definedBelow a.length).length ∧
      (∀ i, result.1.elements i = layout (a.definedBelow a.length)
        (a.undefinedBelow a.length - a.undefinedBelow src) i) ∧
      result.1.named = a.named ∧ result.1.length = a.length := by
  have hc := h.cleared
  rw [compactSparse]
  generalize deleteFrom dst (src - dst) b = c at hc ⊢
  obtain ⟨hd, hu⟩ := hc.from_src hsrc
  have hr : ∀ name ∈ c.named.map (fun p => PropertyKey.name p.1) ++
      env.prototypes.flatMap (·.map fun p => .name p.1), name.below env a.length = false := by
    intro name hn
    obtain hn | hn := mem_append.mp hn
    · obtain ⟨p, hp, rfl⟩ := mem_map.mp hn
      exact hna a.named mem_cons_self p (hc.named ▸ hp)
    · obtain ⟨properties, hps, hn⟩ := mem_flatMap.mp hn
      obtain ⟨p, hp, rfl⟩ := mem_map.mp hn
      exact hna properties (mem_cons_of_mem _ hps) p hp
  rw [ownPropertyNames, append_assoc, foldl_append, foldl_visit_of_not_below env hr]
  rw [hc.length]
  generalize hs : foldl (visit env a.length) _ _ = s
  have hm : Moved c a.length s := by
    rw [← hs, ← hc.length]
    exact moved_indices env _ (fun _ => rfl) (le_refl _)
  have hsum := below_sum a a.length
  have hct : s.undefinedCount = a.undefinedBelow a.length - a.undefinedBelow src := by
    rw [hm.undefineds]
    omega
  have hvs := hm.values
  rw [hd] at hvs
  refine ⟨hvs, fun i => ?_, ?_, ?_⟩
  · have hb : a.length ≤ i → c.elements i = none := fun hi =>
      c.bounded i (by rw [hc.length]; exact hi)
    rw [elements_fillUndefined, hm.elements, hd, hct, hvs, layout]
    grind
  · rw [fillUndefined_eq, named_writeValues, hm.named, hc.named]
  · rw [fillUndefined_eq, length_writeValues, hm.length, hc.length]
    rw [length_replicate, hm.length, hc.length, hvs, hct]
    omega

/-! ## Names that are taken for indices -/

theorem visit_seen (length : Nat) (key key' : PropertyKey) (h : s.seen key = true) :
    (s.visit env length key').seen key = true := by
  unfold visit
  split
  · exact h
  · split
    · exact h
    · dsimp only
      split <;> simp [h]

theorem visit_marks (s : SparseState Value) (key : PropertyKey) (h : key.below env length = true) :
    (s.visit env length key).seen key = true := by
  unfold visit
  rw [if_neg (by simp [h])]
  split
  · assumption
  · dsimp only
    split <;> simp

/-- A name that has been visited is no longer a property of the array. -/
theorem visit_removes {name : Text} (key : PropertyKey)
    (h : s.seen (.name name) = true → name ∉ s.array.named.map Prod.fst) :
    (s.visit env length key).seen (.name name) = true →
      name ∉ (s.visit env length key).array.named.map Prod.fst := by
  unfold visit
  split
  · exact h
  split
  · exact h
  have hd : (if PropertyKey.name name = key then true else s.seen (.name name)) = true →
      name ∉ (s.array.deleteKey key).named.map Prod.fst := by
    cases key with
    | index i => simpa [deleteKey, delete] using h
    | name other =>
      simp only [deleteKey, PropertyKey.name.injEq, List.mem_map, List.mem_filter]
      grind
  dsimp only
  split
  · exact hd
  · exact hd

theorem foldl_visit_removes {name : Text}
    (hb : env.nameBelow name length = true) (hmem : .name name ∈ names)
    (h : s.seen (.name name) = true → name ∉ s.array.named.map fst) :
    name ∉ (names.foldl (visit env length) s).array.named.map fst := by
  have hrun (names : List PropertyKey) (s : SparseState Value) (hs : s.seen (.name name) = true)
      (h : name ∉ s.array.named.map fst) :
      name ∉ (names.foldl (visit env length) s).array.named.map fst := by
    induction names generalizing s with
    | nil => exact h
    | cons key names ih =>
      have hs' := visit_seen env length (.name name) key hs
      exact ih _ hs' (visit_removes env key (fun _ => h) hs')
  induction names generalizing s with
  | nil => cases hmem
  | cons key names ih =>
    rw [foldl_cons]
    by_cases hkey : key = .name name
    · subst hkey
      have hs := visit_marks env s (.name name) hb
      exact hrun names _ hs (visit_removes env _ h hs)
    · exact ih ((mem_cons.mp hmem).resolve_left (Ne.symm hkey)) (visit_removes env key h)

theorem compactSparse_removes (b : ArrayObject Value) (dst src : Nat)
    {p : Text × Value} (hb : env.nameBelow p.1 length = true)
    (hf : env.freshTruthy p.1 = false) (hp : p ∈ b.named) :
    p.1 ∉ (compactSparse env b dst src length).1.named.map fst := by
  have hn := (deleteFrom_spec dst (src - dst) b).2.1
  rw [compactSparse]
  rw [fillUndefined_eq, named_writeValues]
  refine foldl_visit_removes env hb ?_ fun h => ?_
  · refine mem_append_left _ (mem_append_right _ (mem_map.mpr ⟨p, ?_, rfl⟩))
    rw [hn]
    exact hp
  · exact absurd (h : env.freshTruthy p.1 = true) (by simp [hf])

/-! ## The whole of it -/

/-- Where nothing is missing, everything is defined. -/
theorem below_of_all_defined (h : ∀ i < a.length, a.get i ≠ default) : ∀ n ≤ a.length,
    (a.definedBelow n).length = n ∧ (∀ i < n, (a.definedBelow n)[i]? = a.elements i) ∧
      a.undefinedBelow n = 0 ∧ a.holesBelow n = 0
  | 0, _ => ⟨rfl, by simp, rfl, rfl⟩
  | n + 1, hn => by
    obtain ⟨hlen, hes, hu, hh⟩ := below_of_all_defined h n (by omega)
    have hget := h n (by omega)
    rw [ArrayObject.get] at hget
    cases hel : a.elements n with
    | none =>
      rw [hel] at hget
      exact absurd rfl hget
    | some v =>
      rw [hel, getD_some] at hget
      rw [ArrayObject.definedBelow, ArrayObject.undefinedBelow, ArrayObject.holesBelow,
        ArrayObject.has, hel, hu, hh]
      simp only [if_neg hget, isSome_some, if_true, some.injEq]
      refine ⟨by simp [hlen], fun i hi => ?_, trivial, trivial⟩
      grind

theorem compacted_of_all_defined (h : ∀ i < a.length, a.get i ≠ default) :
    a.holesBelow a.length = 0 ∧ Compacted a (a, a.length) := by
  obtain ⟨hlen, hes, hu, hh⟩ := below_of_all_defined h a.length (le_refl _)
  refine ⟨hh, hlen.symm, ⟨_, .refl _, fun i => ?_⟩, rfl, rfl⟩
  have hb := a.bounded i
  rw [layout, hlen, hu]
  grind

/-- Either compaction does what it should, or the sparse routine takes over at the 256th hole. -/
theorem compact_cases (a : ArrayObject Value) :
    (a.holesBelow a.length < 256 ∧ Compacted a (compact env a a.length)) ∨
    ∃ src dst b, src < a.length ∧ a.elements src = none ∧ Scanned a src dst 255 b ∧
      compact env a a.length = compactSparse env b dst src a.length := by
  rw [compact]
  split
  · exact compactSlowFrom_cases env (by omega) (by omega) (scanned_start a)
  rename_i hn
  have hd : ∀ i < a.length, a.get i ≠ default := by
    intro i hi hget
    exact hn (any_eq_true.mpr ⟨i, mem_range.mpr hi, by simpa using hget⟩)
  obtain ⟨hh, hc⟩ := compacted_of_all_defined hd
  exact .inl ⟨by omega, hc⟩

theorem undefinedBelow_eq_zero_iff (n : Nat) :
    a.undefinedBelow n = 0 ↔ ∀ i < n, a.elements i ≠ some default := by
  induction n with
  | zero => simp [undefinedBelow]
  | succ n ih =>
    rw [undefinedBelow]
    constructor
    · intro h i hi hel
      obtain hi | rfl : i < n ∨ i = n := by omega
      · exact ih.mp (by omega) i hi hel
      · rw [if_pos hel] at h
        omega
    · intro h
      rw [if_neg (h n (by omega)), ih.mpr fun i hi => h i (by omega)]

/-- Nothing undefined lies before the 256th hole. -/
theorem undefinedBelow_src_iff (hh : a.elements src = none) (hho : a.holesBelow src = 255) :
    a.undefinedBelow src = 0 ↔ ∀ i, a.elements i = some default → 256 ≤ a.holesBelow i := by
  have hn : a.holesBelow (src + 1) = 256 := by
    rw [holesBelow, has, hh, hho]
    rfl
  rw [undefinedBelow_eq_zero_iff]
  constructor
  · intro h i hel
    have hne : i ≠ src := by
      rintro rfl
      rw [hh] at hel
      cases hel
    have hlt : ¬i < src := fun hlt => h i hlt hel
    have := holesBelow_mono a (show src + 1 ≤ i by omega)
    omega
  · intro h i hi hel
    have := h i hel
    have := holesBelow_mono a (show i ≤ src by omega)
    omega

/-- With fewer than 256 holes compacting is right. With more of them the sparse routine takes over:
then it is right exactly if every `undefined` comes behind 256 holes, as long as no name converts to
a number below the length; a property of the array with such a name is removed. -/
theorem compact_compacted_iff (a : ArrayObject Value) :
    (a.holesBelow a.length < 256 → Compacted a (compact env a a.length)) ∧
    (256 ≤ a.holesBelow a.length → NamesAbove env a → (Compacted a (compact env a a.length) ↔
        ∀ i, a.elements i = some default → 256 ≤ a.holesBelow i)) ∧
    (256 ≤ a.holesBelow a.length →
      (∃ p ∈ a.named, env.nameBelow p.1 a.length = true ∧ env.freshTruthy p.1 = false) →
      ¬Compacted a (compact env a a.length)) := by
  obtain ⟨hholes, hcompacted⟩ | ⟨src, dst, b, hsrc, hhole, hscanned, heq⟩ := compact_cases env a
  · exact ⟨fun _ => hcompacted, fun h => by omega, fun h => by omega⟩
  have hmany : 256 ≤ a.holesBelow a.length := by
    have hnext : a.holesBelow (src + 1) = 256 := by
      rw [holesBelow, has, hhole, ← hscanned.holes]
      rfl
    have := holesBelow_mono a (show src + 1 ≤ a.length by omega)
    omega
  refine ⟨fun h => by omega, fun _ hnames => ?_, fun _ hname hcompacted => ?_⟩
  · obtain ⟨hcount, helements, hnamed, hlength⟩ := compactSparse_spec env hnames hscanned (by omega)
    rw [heq, ← undefinedBelow_src_iff hhole hscanned.holes.symm]
    constructor
    · intro h
      by_contra hlost
      obtain ⟨values, hperm, hlayout⟩ := h.elements
      have hle : a.undefinedBelow src ≤ a.undefinedBelow a.length := by
        have := (hscanned.cleared.from_src (by omega : src ≤ a.length)).2
        omega
      exact layout_ne hperm.length_eq
        (by omega : a.undefinedBelow a.length - a.undefinedBelow src < a.undefinedBelow a.length)
        (funext fun i => (hlayout i).symm.trans (helements i))
    · intro h
      rw [h, Nat.sub_zero] at helements
      exact ⟨hcount, ⟨_, .refl _, helements⟩, hnamed, hlength⟩
  · obtain ⟨p, hp, hbelow, hfresh⟩ := hname
    rw [heq] at hcompacted
    apply compactSparse_removes env b dst src hbelow hfresh (hscanned.named ▸ hp)
    rw [hcompacted.named]
    exact mem_map.mpr ⟨p, hp, rfl⟩

end

/-- An undefined value and 256 holes: the undefined value is lost. -/
theorem compact_loses_undefined :
    let array : ArrayObject (Option Nat) :=
      ⟨fun i => if i = 0 then some none else none, [], 257, fun i h => if_neg (by omega)⟩
    let env : Environment (Option Nat) := ⟨[], fun _ _ => false, fun _ => false⟩
    (compact env array 257).1.elements 0 = none ∧ ¬Compacted array (compact env array 257) := by
  intro array env
  have hlost : (compact env array 257).1.elements 0 = none := by decide +kernel
  refine ⟨hlost, fun h => ?_⟩
  have hcounts : array.definedBelow 257 = [] ∧ array.undefinedBelow 257 = 1 := by decide +kernel
  obtain ⟨values, hperm, helements⟩ := h.elements
  have hfirst := helements 0
  rw [show array.length = 257 from rfl, hcounts.1] at hperm
  rw [hlost, show array.length = 257 from rfl, hcounts.2, hperm.eq_nil] at hfirst
  cases hfirst

end JavaScriptCore.ArrayPrototype
