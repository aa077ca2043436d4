import JavaScriptCore.Sorting.StableSort
import JavaScriptCore.Builtins.ArrayPrototype.Sort

/-!
# `sort` gives the stable sort

All that the loops write is `writeValues` of some list: a merge of two slices, a pass over the
slices, a bucket. What the list is follows from the theory of stable sorts.
-/

namespace JavaScriptCore.ArrayPrototype

open List hiding nil_merge

open Json Sorting Entry

variable {α : Type}

/-! ## Reading and writing -/

variable (a : ArrayObject α)

@[simp] theorem elements_put (i j : Nat) (v : α) :
    (a.put i v).elements j = if j = i then some v else a.elements j := rfl

@[simp] theorem named_put (i : Nat) (v : α) : (a.put i v).named = a.named := rfl

@[simp] theorem length_put (i : Nat) (v : α) : (a.put i v).length = max a.length (i + 1) := rfl

theorem elements_writeValues (st : Nat) (vs : List α) (i : Nat) : (writeValues a st vs).elements i =
      if st ≤ i ∧ i < st + vs.length then vs[i - st]? else a.elements i := by
  induction vs generalizing a st with
  | nil =>
    rw [writeValues, if_neg (by simp)]
  | cons v vs ih =>
    rw [writeValues, ih, elements_put, length_cons]
    by_cases hi : i = st
    · subst hi
      rw [if_neg (by omega), if_pos rfl, if_pos (by omega), Nat.sub_self]
      rfl
    · by_cases hin : st + 1 ≤ i ∧ i < st + 1 + vs.length
      · obtain ⟨k, rfl⟩ := Nat.exists_eq_add_of_le hin.1
        rw [if_pos hin, if_pos (by omega), Nat.add_sub_cancel_left, Nat.add_right_comm st 1 k,
          Nat.add_assoc, Nat.add_sub_cancel_left, List.getElem?_cons_succ]
      · rw [if_neg hin, if_neg hi, if_neg (by omega)]

@[simp] theorem named_writeValues (st : Nat) (vs : List α) :
    (writeValues a st vs).named = a.named := by
  induction vs generalizing a st with
  | nil => rfl
  | cons v vs ih => rw [writeValues, ih, named_put]

theorem length_writeValues {st : Nat} {vs : List α}
    (h : st + vs.length ≤ a.length) : (writeValues a st vs).length = a.length := by
  induction vs generalizing a st with
  | nil => rfl
  | cons v vs ih =>
    rw [length_cons] at h
    rw [writeValues, ih _ (by rw [length_put]; omega), length_put]
    omega

theorem writeValues_append (st : Nat) (vs ws : List α) :
    writeValues a st (vs ++ ws) = writeValues (writeValues a st vs)
    (st + vs.length) ws := by
  induction vs generalizing a st with
  | nil => rfl
  | cons v vs ih =>
    rw [cons_append, writeValues, ih, writeValues, length_cons, add_right_comm, ← add_assoc]

/-- A later writing of as many values hides the earlier one. -/
theorem writeValues_writeValues {a : ArrayObject α} {vs ws : List α}
    (hlen : vs.length = ws.length) (hb : vs.length ≤ a.length) :
    writeValues (writeValues a 0 vs) 0 ws = writeValues a 0 ws := by
  have hvs : (writeValues a 0 vs).length = a.length := length_writeValues a (by omega)
  apply ArrayObject.ext
  · funext i
    simp only [elements_writeValues, hlen]
    split <;> rfl
  · simp
  · rw [length_writeValues (writeValues a 0 vs) (by omega), hvs, length_writeValues a (by omega)]

section

variable [Inhabited α]

/-- The values from `start` up to `stop`. -/
def slice (a : ArrayObject α) (start stop : Nat) : List α := (range' start (stop - start)).map a.get

variable (a : ArrayObject α)

theorem length_slice (st stop : Nat) : (slice a st stop).length = stop - st := by
  simp [slice]

variable {st stop : Nat}

theorem slice_of_le (h : stop ≤ st) : slice a st stop = [] := by
  rw [slice, Nat.sub_eq_zero_of_le h]
  rfl

theorem slice_cons (h : st < stop) :
    slice a st stop = a.get st :: slice a (st + 1) stop := by
  obtain ⟨k, rfl⟩ := Nat.exists_eq_add_of_lt h
  rw [slice, slice, show st + k + 1 - st = k + 1 by omega,
    show st + k + 1 - (st + 1) = k by omega, range'_succ, map_cons]

theorem take_slice (st stop n : Nat) :
    (slice a st stop).take n = slice a st (min (st + n) stop) := by
  apply ext_getElem
  · simp [slice]
    omega
  · intro i _ _
    simp [slice]

theorem drop_slice (st stop n : Nat) : (slice a st stop).drop n = slice a (st + n) stop := by
  apply ext_getElem
  · simp [slice]
    omega
  · intro i _ _
    simp [slice, add_assoc]

theorem getElem?_slice {i : Nat} (h : st + i < stop) :
    (slice a st stop)[i]? = some (a.get (st + i)) := by
  have hi : i < stop - st := by omega
  simp [slice, hi]

theorem get_writeValues (vs : List α) {i : Nat} (h : i < vs.length) :
    (writeValues a 0 vs).get i = vs[i] := by
  rw [ArrayObject.get, elements_writeValues, if_pos (by omega), Nat.sub_zero,
    List.getElem?_eq_getElem h, Option.getD_some]

theorem slice_writeValues (vs : List α) : slice (writeValues a 0 vs) 0 vs.length = vs := by
  apply ext_getElem
  · simp [slice]
  · intro i hi hi'
    simp [slice, get_writeValues a vs hi']

/-- Writing back what is there changes nothing. -/
theorem writeValues_slice {n : Nat} (h : ∀ i < n, (a.elements i).isSome) :
    writeValues a 0 (slice a 0 n) = a := by
  have hlen : n ≤ a.length := by
    by_contra hlt
    have := h a.length (by omega)
    rw [a.bounded a.length (le_refl _)] at this
    cases this
  apply ArrayObject.ext
  · funext i
    rw [elements_writeValues, length_slice]
    split_ifs with hi
    · obtain ⟨v, hv⟩ := Option.isSome_iff_exists.mp (h i (by omega))
      rw [Nat.sub_zero, getElem?_slice a (by omega), Nat.zero_add, ArrayObject.get, hv,
        Option.getD_some]
    · rfl
  · simp
  · exact length_writeValues a (by rw [length_slice]; omega)

/-! ## Merge sort -/

variable (comparator : α → α → ComparisonResult)

/-- The order in which the comparator puts the values. -/
def precedes (comparator : α → α → ComparisonResult) (a b : α) : Bool := (comparator a b).takesRight

theorem mergeFrom_eq (src : ArrayObject α) (lt rt : Nat) {remaining : Nat} :
    ∀ {di left right : Nat} (dst : ArrayObject α), left ≤ lt → right ≤ rt →
      remaining = (lt - left) + (rt - right) →
      mergeFrom comparator src lt rt remaining di left right dst = writeValues dst di
          (Sorting.merge (precedes comparator) (slice src left lt) (slice src right rt)) := by
  induction remaining with
  | zero =>
    intro di left right dst hle hri hre
    rw [slice_of_le src (by omega), slice_of_le src (by omega), nil_merge]
    rfl
  | succ remaining ih =>
    intro di left right dst hle hri hre
    rw [mergeFrom]
    by_cases hl : left < lt
    · by_cases hr : right < rt
      · rw [slice_cons src hl, slice_cons src hr, merge_cons_cons, ← slice_cons src hl,
          ← slice_cons src hr, precedes]
        have hnot : ¬left ≥ lt := by omega
        by_cases ht : (comparator (src.get right) (src.get left)).takesRight = true
        · rw [if_pos ⟨hr, .inr ht⟩, if_pos ht, ih _ hle (by omega) (by omega)]
          rfl
        · rw [if_neg (fun h => h.2.elim hnot ht), if_neg ht, ih _ (by omega) hri (by omega)]
          rfl
      · rw [if_neg (fun h => hr h.1), ih _ (by omega) hri (by omega),
          slice_of_le src (by omega : rt ≤ right), merge_nil, merge_nil, slice_cons src hl]
        rfl
    · rw [if_pos ⟨by omega, .inl (by omega)⟩, ih _ hle (by omega) (by omega),
        slice_of_le src (by omega : lt ≤ left), nil_merge, nil_merge,
        slice_cons src (by omega : right < rt)]
      rfl

theorem merge_eq (dst src : ArrayObject α) {si se : Nat} (width : Nat) (h : si ≤ se) :
    merge comparator dst src si se width =
      writeValues dst si (Sorting.merge (precedes comparator) ((slice src si se).take width)
        (((slice src si se).drop width).take width)) := by
  rw [merge, mergeFrom_eq comparator src _ _ dst (by omega) (by omega) (by omega), take_slice,
    drop_slice, take_slice]
  by_cases hs : si + width ≤ se
  · rw [min_eq_left hs]
  · rw [min_eq_right (by omega), slice_of_le src (by omega : min (se + width) se ≤ se),
      slice_of_le src (by omega : min (si + width + width) se ≤ si + width)]

theorem mergePass_eq (src : ArrayObject α) (vc width : Nat) (hw : 0 < width)
    (si : Nat) (dst : ArrayObject α) :
    mergePass comparator src vc width hw si dst = writeValues dst si
        (mergeRuns (precedes comparator) width hw (slice src si vc)) := by
  fun_induction mergePass comparator src vc width hw si dst with
  | case1 si dst hlt ih =>
    have hne : slice src si vc ≠ [] := by
      rw [slice_cons src hlt]
      exact cons_ne_nil _ _
    rw [ih, ← drop_slice, mergeRuns_of_ne hw hne, merge_eq comparator dst src width (by omega),
      writeValues_append]
    have hlen := length_merged (precedes comparator) width (slice src si vc)
    rw [length_slice] at hlen
    by_cases hl : si + 2 * width ≤ vc
    · rw [hlen, min_eq_left (by omega)]
    · -- behind the last block nothing is left
      have he : (slice src si vc).drop (2 * width) = [] :=
        drop_eq_nil_of_le (by rw [length_slice]; omega)
      rw [he, mergeRuns_nil]
      rfl
  | case2 si dst hge =>
    rw [slice_of_le src (by omega), mergeRuns_nil]
    rfl

/-- While the passes swap their arrays, one of them is the array with some values written. -/
structure Swapped (array : ArrayObject α) (valueCount : Nat) (values : List α) (srcIsArray : Bool)
    (src dst : ArrayObject α) : Prop where
  written : ∃ vs : List α, vs.length = valueCount ∧
    (if srcIsArray then src else dst) = writeValues array 0 vs
  values : slice src 0 valueCount = values

theorem mergePasses_swapped {arr : ArrayObject α} {vc : Nat}
    (hb : vc ≤ arr.length) (width : Nat) (hw : 0 < width) (sa : Bool)
    (src dst : ArrayObject α) (vals : List α) (h : Swapped arr vc vals sa src dst) :
    let result := mergePasses comparator vc width hw sa src dst
    Swapped arr vc (sortRuns (precedes comparator) vc width hw vals)
      result.1 result.2.1 result.2.2 := by
  fun_induction mergePasses comparator vc width hw sa src dst
    generalizing vals with
  | case1 width hw sa src dst hlt dst' ih =>
    rw [sortRuns, if_pos hlt]
    apply ih
    obtain ⟨⟨vs, hvs, hwt⟩, rfl⟩ := h
    have hlen := length_mergeRuns hw (precedes comparator) (slice src 0 vc)
    rw [length_slice, Nat.sub_zero] at hlen
    have hdst : dst' = writeValues dst 0
        (mergeRuns (precedes comparator) width hw (slice src 0 vc)) :=
      mergePass_eq comparator src vc width hw 0 dst
    constructor
    · cases sa with
      | true => exact ⟨vs, hvs, hwt⟩
      | false =>
        refine ⟨_, hlen, hdst.trans ?_⟩
        rw [show dst = writeValues arr 0 vs from hwt]
        exact writeValues_writeValues (hvs.trans hlen.symm) (by omega)
    · rw [hdst]
      have := slice_writeValues dst (mergeRuns (precedes comparator) width hw (slice src 0 vc))
      rwa [hlen] at this
  | case2 width hw sa src dst hge =>
    rw [sortRuns, if_neg hge]
    exact h

theorem mergeSort_eq (arr : ArrayObject α) {vc : Nat}
    (hp : ∀ i < vc, (arr.elements i).isSome) (hb : vc ≤ arr.length) :
    mergeSort comparator arr vc =
      writeValues arr 0 (sortRuns (precedes comparator) vc 1 one_pos (slice arr 0 vc)) := by
  have hsta : Swapped arr vc (slice arr 0 vc) true arr (.holes vc) :=
    ⟨⟨slice arr 0 vc, by simp [length_slice], (writeValues_slice arr hp).symm⟩, rfl⟩
  have hend := mergePasses_swapped comparator hb 1 one_pos true arr _ _ hsta
  rw [mergeSort]
  generalize mergePasses comparator vc 1 one_pos true arr (.holes vc) = result at hend ⊢
  obtain ⟨sa, src, dst⟩ := result
  obtain ⟨⟨vs, hvs, hw⟩, hvalues⟩ := hend
  cases sa with
  | true =>
    have hs := slice_writeValues arr vs
    rw [hvs, ← show src = writeValues arr 0 vs from hw] at hs
    rw [← hvalues, hs]
    exact hw
  | false =>
    have hmap : (range vc).map src.get = slice src 0 vc := by
      rw [slice, range_eq_range', Nat.sub_zero]
    dsimp only at hvalues ⊢
    rw [show dst = writeValues arr 0 vs from hw, hmap, hvalues]
    refine writeValues_writeValues (hvs.trans ?_) (by omega)
    rw [← hvalues, length_slice, Nat.sub_zero]

end

/-! ## Bucket sort -/

variable {Value : Type}

def entryLess (a b : Entry Value) : Bool := decide (a.string < b.string)

theorem entryLess_order : StrictWeakOrder (entryLess : Entry Value → Entry Value → Bool) where
  asymm h := by
    simp only [entryLess, decide_eq_true_eq, decide_eq_false_iff_not] at h ⊢
    exact lt_asymm h
  negTrans hab hbc := by
    simp only [entryLess, decide_eq_false_iff_not, not_lt] at hab hbc ⊢
    exact le_trans hbc hab

/-- The first difference decides, or else the lengths. -/
theorem compareFrom_neg_iff (as bs : Text) :
    (compareFrom as bs).getD (as.length - bs.length) < 0 ↔ as < bs := by
  induction as generalizing bs with
  | nil =>
    cases bs with
    | nil => simp [compareFrom]
    | cons b bs =>
      simp [compareFrom]
      omega
  | cons a as ih =>
    cases bs with
    | nil =>
      simp [compareFrom]
      omega
    | cons b bs =>
      rw [compareFrom, cons_lt_cons_iff]
      split_ifs with hab
      · subst hab
        rw [← ih]
        simp
      · simp
        omega

theorem precedes_stringComparator :
    precedes (stringComparator : Entry Value → Entry Value → ComparisonResult) = entryLess := by
  funext a b
  simp only [precedes, stringComparator, ComparisonResult.takesRight, entryLess, decide_eq_decide]
  exact compareFrom_neg_iff a.string b.string

/-- The character at some depth, if the string is not exhausted there. -/
def Entry.code (depth : Nat) (entry : Entry Value) : Option Nat := entry.string[depth]?

def Entry.exhausted (depth : Nat) (entry : Entry Value) : Bool := entry.string.length = depth

theorem distribute_eq (depth : Nat) (bkt : List (Entry Value))
    (hd : ∀ e ∈ bkt, depth ≤ e.string.length) (arr : ArrayObject Value) (dst : Nat)
    (bkts : Buckets Value) (hbd : ∀ c, bkts.length ≤ c → bkts.bucket c = []) :
    ∃ bkts', distribute depth bkt arr dst bkts =
        (writeValues arr dst ((bkt.filter (exhausted depth)).map value),
          dst + (bkt.filter (exhausted depth)).length, bkts') ∧
      (∀ c, bkts'.bucket c =
        bkts.bucket c ++ bkt.filter (fun e => e.code depth = some c)) ∧
      ∀ c, bkts'.length ≤ c → bkts'.bucket c = [] := by
  induction bkt generalizing arr dst bkts with
  | nil => exact ⟨bkts, rfl, by simp, hbd⟩
  | cons e bkt ih =>
    have hr := fun e' he' => hd e' (mem_cons_of_mem e he')
    rw [distribute]
    split_ifs with hlen
    · obtain ⟨bkts', heq, hb, hb'⟩ := ih hr (arr.put dst e.value) (dst + 1) bkts hbd
      refine ⟨bkts', ?_, fun c => ?_, hb'⟩
      · rw [heq, filter_cons_of_pos (by simpa [exhausted] using hlen)]
        simp [writeValues]
        omega
      · have hco : e.code depth = none := List.getElem?_eq_none (by omega)
        rw [hb, filter_cons_of_neg (by simp [hco])]
    · have hlt : depth < e.string.length := by
        have := hd e mem_cons_self
        omega
      have hco : e.string[depth]? = some e.string[depth] := List.getElem?_eq_getElem hlt
      obtain ⟨bkts', heq, hb, hb'⟩ :=
        ih hr arr dst (bkts.add e.string[depth] e) (fun c hc => by
          simp only [Buckets.add] at hc ⊢
          rw [if_neg (by omega)]
          exact hbd c (by omega))
      refine ⟨bkts', ?_, fun c => ?_, hb'⟩
      · rw [hco]
        rw [filter_cons_of_neg (by simpa [exhausted] using hlen)]
        exact heq
      rw [hb, filter_cons]
      simp only [Buckets.add, code, hco, Option.some.injEq, decide_eq_true_eq]
      by_cases hc : c = e.string[depth]
      · subst hc
        simp
      · rw [if_neg hc, if_neg (Ne.symm hc)]

/-- The entries that come before all those with the character `c`. -/
def Entry.before (depth c : Nat) (entry : Entry Value) : Bool :=
  match entry.code depth with
  | none => true
  | some d => d < c

theorem append_lt_append_iff (cm x y : Text) : cm ++ x < cm ++ y ↔ x < y := by
  induction cm with
  | nil => rfl
  | cons c cm ih =>
    rw [cons_append, cons_append, cons_lt_cons_iff, ih]
    simp

variable {depth c : Nat} {cm : Text}

/-- Strings with a common beginning are compared by what follows. -/
theorem entryLess_of_before (hcm : cm.length = depth)
    {a b : Entry Value} (ha : cm <+: a.string) (hb : cm <+: b.string)
    (hbe : a.before depth c = true) (hc : b.code depth = some c) :
    entryLess a b = true := by
  obtain ⟨x, hx⟩ := ha
  obtain ⟨y, hy⟩ := hb
  have hy0 : y[0]? = some c := by
    rw [code, ← hy, List.getElem?_append_right (by omega), hcm, Nat.sub_self] at hc
    exact hc
  have hx0 : ∀ d, x[0]? = some d → d < c := by
    intro d hd
    rw [before, code, ← hx, List.getElem?_append_right (by omega), hcm, Nat.sub_self, hd] at hbe
    simpa using hbe
  have hxy : x < y := by
    cases y with
    | nil => cases hy0
    | cons d y =>
      cases x with
      | nil => exact nil_lt_cons d y
      | cons e x =>
        rw [cons_lt_cons_iff]
        have hd : d = c := by simpa using hy0
        exact .inl (hd ▸ hx0 e rfl)
  simpa [entryLess, ← hx, ← hy] using (append_lt_append_iff cm x y).mpr hxy

/-- One bucket more is appended. -/
theorem stableSort_nextBucket (hcm : cm.length = depth)
    {bkt r r' : List (Entry Value)} (hs : ∀ e ∈ bkt, cm <+: e.string)
    (h : StableSort entryLess (bkt.filter (before depth c)) r)
    (h' : StableSort entryLess (bkt.filter (fun e => e.code depth = some c)) r') :
    StableSort entryLess (bkt.filter (before depth (c + 1))) (r ++ r') := by
  obtain ⟨hf, hb⟩ : (bkt.filter (before depth (c + 1))).filter (before depth c) =
        bkt.filter (before depth c) ∧
      (bkt.filter (before depth (c + 1))).filter (!before depth c ·) =
        bkt.filter (fun e => e.code depth = some c) := by
    constructor
    all_goals
    rw [filter_filter]
    apply filter_congr
    intro e _
    unfold before
    cases e.code depth with
    | none => rfl
    | some d => grind
  refine Sorting.StableSort.partition entryLess_order (before depth c) ?_ (hf ▸ h) (hb ▸ h')
  intro x hx y hy hbe hb'
  have hy' : y ∈ bkt.filter (fun e => e.code depth = some c) := by
    rw [← hb]
    exact mem_filter.mpr ⟨hy, by simp [hb']⟩
  obtain ⟨hmem, hc⟩ := mem_filter.mp hy'
  exact entryLess_of_before hcm (hs x (mem_filter.mp hx).1) (hs y hmem) hbe (by simpa using hc)

theorem stableSort_of_equal {l : List (Entry Value)} (cm : Text)
    (h : ∀ e ∈ l, e.string = cm) : StableSort entryLess l l := by
  refine ⟨.refl l, pairwise_of_forall_mem_list fun a ha b hb => ?_, fun _ => rfl⟩
  simp [entryLess, h a ha, h b hb]

theorem shared_code (hcm : cm.length = depth)
    {e : Entry Value} (h : cm <+: e.string) (hc : e.code depth = some c) :
    cm ++ [c] <+: e.string := by
  obtain ⟨x, hx⟩ := h
  rw [code, ← hx, List.getElem?_append_right (by omega), hcm, Nat.sub_self] at hc
  cases x with
  | nil => cases hc
  | cons d x =>
    obtain rfl : d = c := by simpa using hc
    exact ⟨x, by rw [← hx, append_assoc]; rfl⟩

theorem exhausted_iff {e : Entry Value} (h : depth ≤ e.string.length) :
    e.exhausted depth = e.before depth 0 := by
  unfold before code exhausted
  by_cases hlen : e.string.length = depth
  · rw [List.getElem?_eq_none (by omega)]
    simpa using hlen
  · rw [List.getElem?_eq_getElem (by omega)]
    simpa using hlen

section

variable [Inhabited Value]

theorem slice_ofList (l : List (Entry Value)) : slice (.ofList l) 0 l.length = l := by
  apply ext_getElem
  · simp [slice]
  · intro i _ hi
    simp [slice, ArrayObject.get, ArrayObject.ofList, hi]

/-- Small buckets and long common beginnings are left to the merge sort. -/
theorem bucketSort_small (arr : ArrayObject Value) (dst : Nat) (bkt : List (Entry Value))
    {depth : Nat} (h : bkt.length < 32 ∨ depth > 32) :
    ∃ r, StableSort entryLess bkt r ∧
      bucketSort arr dst bkt depth = (writeValues arr dst (r.map value), dst + bkt.length) := by
  have hso : mergeSort stringComparator (.ofList bkt) bkt.length = _ :=
    mergeSort_eq stringComparator (.ofList bkt)
      (fun i hi => by simp [ArrayObject.ofList, hi]) (le_refl _)
  rw [slice_ofList, precedes_stringComparator] at hso
  have hs := sortRuns_stableSort entryLess_order bkt
  have hlen := hs.perm.length_eq
  refine ⟨_, hs, ?_⟩
  rw [bucketSort, dif_pos h, hso]
  dsimp only
  congr 2
  apply ext_getElem
  · simp [hlen]
  · intro i hi _
    rw [getElem_map, getElem_range, get_writeValues _ _ (by simpa [hlen] using hi), getElem_map]

/-- The loop over the buckets: behind the exhausted entries, those of each character in turn. -/
theorem fold_buckets {depth : Nat} {cm : Text} (hcm : cm.length = depth)
    {bkt : List (Entry Value)} (hs : ∀ e ∈ bkt, cm <+: e.string) {bkts : Buckets Value}
    (hb : ∀ c, bkts.bucket c = bkt.filter (fun e => e.code depth = some c))
    (hso : ∀ (arr : ArrayObject Value) (dst c : Nat), ∃ r,
      StableSort entryLess (bkts.bucket c) r ∧
        bucketSort arr dst (bkts.bucket c) (depth + 1) =
          (writeValues arr dst (r.map value), dst + (bkts.bucket c).length))
    (arr : ArrayObject Value) (dst c : Nat) :
    ∃ r, StableSort entryLess (bkt.filter (before depth c)) r ∧
      (range c).foldl (fun (arr, dst) i =>
        if (bkts.bucket i).isEmpty then (arr, dst)
        else bucketSort arr dst (bkts.bucket i) (depth + 1))
        (writeValues arr dst ((bkt.filter (exhausted depth)).map value),
          dst + (bkt.filter (exhausted depth)).length) =
        (writeValues arr dst (r.map value), dst + r.length) := by
  induction c with
  | zero =>
    have hlen : ∀ e ∈ bkt, depth ≤ e.string.length := fun e he => hcm ▸ (hs e he).length_le
    have hf : bkt.filter (exhausted depth) = bkt.filter (before depth 0) :=
      filter_congr fun e he => exhausted_iff (hlen e he)
    refine ⟨bkt.filter (before depth 0), ?_, by rw [← hf]; rfl⟩
    rw [← hf]
    refine stableSort_of_equal cm fun e he => ?_
    obtain ⟨hmem, hexh⟩ := mem_filter.mp he
    have hexa : e.string.length = depth := by simpa [exhausted] using hexh
    exact ((hs e hmem).eq_of_length (by omega)).symm
  | succ c ih =>
    obtain ⟨r, hst, heq⟩ := ih
    obtain ⟨r', hs', heq'⟩ := hso (writeValues arr dst (r.map value)) (dst + r.length) c
    refine ⟨r ++ r', stableSort_nextBucket hcm hs hst (hb c ▸ hs'), ?_⟩
    rw [range_succ, foldl_append, heq, foldl_cons, foldl_nil]
    have hlen := hs'.perm.length_eq
    dsimp only
    split_ifs with hem
    · rw [List.isEmpty_iff.mp hem] at hlen
      rw [length_eq_zero_iff.mp hlen, append_nil]
    · rw [heq', map_append, writeValues_append, length_map, length_append, ← add_assoc, hlen]

/-- The precondition on a bucket: its strings share what lies before the depth. -/
theorem bucketSort_eq (rounds : Nat) : ∀ (depth : Nat) (arr : ArrayObject Value) (dst : Nat)
    (bkt : List (Entry Value)) (cm : Text), 33 - depth ≤ rounds → cm.length = depth →
    (∀ e ∈ bkt, cm <+: e.string) →
    ∃ r, StableSort entryLess bkt r ∧
      bucketSort arr dst bkt depth = (writeValues arr dst (r.map value), dst + bkt.length) := by
  induction rounds with
  | zero =>
    intro depth arr dst bkt cm hr _ _
    exact bucketSort_small arr dst bkt (.inr (by omega))
  | succ rounds ih =>
    intro depth arr dst bkt cm hr hcm hsh
    by_cases hsm : bkt.length < 32 ∨ depth > 32
    · exact bucketSort_small arr dst bkt hsm
    obtain ⟨bkts, hd, hb, hbd⟩ := distribute_eq depth bkt
      (fun e he => hcm ▸ (hsh e he).length_le) arr dst ⟨fun _ => [], 0⟩ (fun _ _ => rfl)
    have hs' (c : Nat) : ∀ e ∈ bkts.bucket c, cm ++ [c] <+: e.string := by
      intro e he
      rw [hb] at he
      obtain ⟨hmem, hc⟩ := mem_filter.mp he
      exact shared_code hcm (hsh e hmem) (by simpa using hc)
    have hde (c : Nat) : (cm ++ [c]).length = depth + 1 := by simp [hcm]
    have hso (arr : ArrayObject Value) (dst c : Nat) :=
      ih (depth + 1) arr dst (bkts.bucket c) (cm ++ [c]) (by omega) (hde c) (hs' c)
    obtain ⟨r, hs, heq⟩ := fold_buckets hcm hsh hb hso arr dst bkts.length
    have hall : bkt.filter (before depth bkts.length) = bkt := by
      rw [filter_eq_self]
      intro e he
      unfold before
      split
      · rfl
      rename_i c hc
      have hmem : e ∈ bkts.bucket c := by
        rw [hb]
        exact mem_filter.mpr ⟨he, by simpa using hc⟩
      have hlt : c < bkts.length := by
        by_contra hge
        rw [hbd c (by omega)] at hmem
        cases hmem
      simpa using hlt
    rw [hall] at hs
    refine ⟨r, hs, ?_⟩
    rw [bucketSort, dif_neg hsm, hd, ← hs.perm.length_eq]
    exact heq

end

/-! ## The whole function -/

/-- An array without holes. -/
structure ArrayObject.Dense (array : ArrayObject Value) (values : List Value) : Prop where
  elements : ∀ i, array.elements i = values[i]?
  length : array.length = values.length

theorem dense_writeValues {arr : ArrayObject Value} {vals r : List Value}
    (h : arr.Dense vals) (hlen : r.length = vals.length) :
    (writeValues arr 0 r).Dense r := by
  constructor
  · intro i
    rw [elements_writeValues]
    split
    · rfl
    · rw [h.elements, List.getElem?_eq_none (by omega), List.getElem?_eq_none (by omega)]
  · rw [length_writeValues arr (by rw [h.length]; omega), h.length, hlen]

/-- The order of the strings. -/
def stringLess (toString : Value → Text) (a b : Value) : Bool := decide (toString a < toString b)

/-- Sorting the entries sorts the values. -/
theorem stableSort_values {toString : Value → Text} {vals : List Value} {r : List (Entry Value)}
    (h : StableSort entryLess (vals.map fun v => ⟨toString v, v⟩) r) :
    StableSort (stringLess toString) vals (r.map value) := by
  have hen : ∀ e ∈ r, e.string = toString e.value := by
    intro e he
    obtain ⟨v, -, rfl⟩ := mem_map.mp (h.perm.mem_iff.mp he)
    rfl
  have hvs : (vals.map fun v => (⟨toString v, v⟩ : Entry Value)).map value = vals := by
    rw [map_map]
    exact map_id vals
  constructor
  · have hp := h.perm.map value
    rwa [hvs] at hp
  · rw [pairwise_map]
    refine h.ordered.imp_of_mem fun {a b} ha hb hab => ?_
    rw [stringLess, ← hen a ha, ← hen b hb]
    exact hab
  · intro v
    have hc (l : List (Entry Value)) (hl : ∀ e ∈ l, e.string = toString e.value) :
        (l.map value).filter (equivalent (stringLess toString) v) =
          (l.filter (equivalent entryLess ⟨toString v, v⟩)).map value := by
      rw [filter_map]
      congr 1
      apply filter_congr
      intro e he
      simp [equivalent, stringLess, entryLess, hl e he]
    have hs := hc (vals.map fun v => ⟨toString v, v⟩) (by simp)
    rw [hvs] at hs
    rw [hc r hen, h.stable, hs]

section

variable [Inhabited Value]

variable {arr : ArrayObject Value} {vals : List Value}

theorem ArrayObject.Dense.get
    (h : arr.Dense vals) {i : Nat} (hi : i < vals.length) : arr.get i = vals[i] := by
  rw [ArrayObject.get, h.elements, List.getElem?_eq_getElem hi, Option.getD_some]

theorem ArrayObject.Dense.slice (h : arr.Dense vals) : slice arr 0 vals.length = vals := by
  apply ext_getElem
  · simp [length_slice]
  · intro i _ hi
    simp [ArrayPrototype.slice, h.get hi]

variable [DecidableEq Value] (env : Environment Value) (toString : Value → Text)

theorem compact_dense (h : arr.Dense vals)
    (hd : default ∉ vals) : compact env arr arr.length = (arr, arr.length) := by
  rw [compact, if_neg]
  rw [any_eq_true]
  rintro ⟨i, hi, hget⟩
  rw [mem_range, h.length] at hi
  rw [h.get hi, decide_eq_true_eq] at hget
  exact hd (hget ▸ getElem_mem hi)

/-- On values without holes and undefined ones, any comparator gives a permutation, one that is a
strict weak order the stable sort, and no comparator the stable sort by the strings. -/
theorem sort_stableSort {array : ArrayObject Value} {values : List Value}
    (h : array.Dense values) (hdefined : default ∉ values) :
    (∀ comparator, ∃ sorted r, sort env toString (.function comparator) array = .ok sorted ∧
      sorted.Dense r ∧ sorted.named = array.named ∧ r.Perm values ∧
      (StrictWeakOrder (precedes comparator) → StableSort (precedes comparator) values r)) ∧
    ∃ sorted r, sort env toString .undefined array = .ok sorted ∧ sorted.Dense r ∧
      sorted.named = array.named ∧ StableSort (stringLess toString) values r := by
  have hpresent : ∀ i < values.length, (array.elements i).isSome := by
    intro i hi
    rw [h.elements, List.getElem?_eq_getElem hi]
    rfl
  by_cases hshort : array.length < 2
  · have hone : values.length ≤ 1 := by rw [← h.length]; omega
    refine ⟨fun comparator => ⟨array, values, ?_, h, rfl, .refl values,
      fun _ => stableSort_of_length_le_one hone⟩, array, values, ?_, h, rfl,
      stableSort_of_length_le_one hone⟩ <;>
      simp [sort, hshort, pure, Except.pure, bind, Except.bind]
  · constructor
    · intro comparator
      have hperm : (sortRuns (precedes comparator) values.length 1 one_pos values).Perm values :=
        sortRuns_perm values.length one_pos values
      refine ⟨_, _, ?_, dense_writeValues h hperm.length_eq, named_writeValues _ _ _, hperm,
        fun order => sortRuns_stableSort order values⟩
      simp only [sort, if_neg hshort, comparatorSort, compact_dense env h hdefined, bind,
        Except.bind, pure, Except.pure]
      rw [h.length, mergeSort_eq comparator array hpresent (by rw [h.length]), h.slice]
    · have hstrings : (range values.length).map
          (fun i => (⟨toString (array.get i), array.get i⟩ : Entry Value)) =
          values.map fun v => ⟨toString v, v⟩ := by
        apply ext_getElem
        · simp
        · intro i hi hi'
          simp [h.get (by simpa using hi)]
      obtain ⟨r, hstable, heq⟩ := bucketSort_eq 33 0 array 0
        (values.map fun v => ⟨toString v, v⟩) [] (by omega) rfl (by simp)
      refine ⟨_, _, ?_, dense_writeValues h ?_, named_writeValues _ _ _, stableSort_values hstable⟩
      · simp only [sort, if_neg hshort, stringSort, compact_dense env h hdefined, bind,
          Except.bind, pure, Except.pure]
        rw [h.length, hstrings, heq]
      · rw [length_map, hstable.perm.length_eq, length_map]

end

/-- Three numbers under the difference of numbers. -/
theorem sort_stableSort_three :
    let comparator : Nat → Nat → ComparisonResult := fun a b => .int32 (a - b)
    ∃ sorted r, sort ⟨[], fun _ _ => false, fun _ => false⟩ (fun n => [n]) (.function comparator)
        (.ofList [3, 1, 2]) = .ok sorted ∧
      sorted.Dense r ∧ StableSort (precedes comparator) [3, 1, 2] r := by
  intro comparator
  have hdense : (ArrayObject.ofList [3, 1, 2]).Dense [3, 1, 2] := ⟨fun _ => rfl, rfl⟩
  have horder : StrictWeakOrder (precedes comparator) := by
    constructor <;> simp only [precedes, comparator, ComparisonResult.takesRight] <;> grind
  obtain ⟨sorted, r, hsort, hr, -, -, hstable⟩ := (sort_stableSort
    ⟨[], fun _ _ => false, fun _ => false⟩ (fun n => [n]) hdense (by decide)).1 comparator
  exact ⟨sorted, r, hsort, hr, hstable horder⟩

end JavaScriptCore.ArrayPrototype
