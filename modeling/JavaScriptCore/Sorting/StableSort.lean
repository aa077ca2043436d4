import Mathlib.Data.List.Basic

/-!
# Stable sorts

`StableSort lt l r`: the list `r` is the stable sort of `l` by a strict weak order. It is unique,
and merging two stable sorts, or putting one behind the other, gives one again.
-/

namespace JavaScriptCore.Sorting

open List

variable {α : Type} {lt : α → α → Bool}

/-- A strict weak order: asymmetric, and what is not less is transitive. -/
structure StrictWeakOrder (lt : α → α → Bool) : Prop where
  asymm : ∀ {a b}, lt a b = true → lt b a = false
  negTrans : ∀ {a b c}, lt a b = false → lt b c = false → lt a c = false

theorem StrictWeakOrder.irrefl (h : StrictWeakOrder lt) (a : α) : lt a a = false := by
  cases haa : lt a a with
  | false => rfl
  | true => rw [h.asymm haa] at haa; cases haa

theorem StrictWeakOrder.lt_of_lt_of_not (h : StrictWeakOrder lt) {a b c : α} (hab : lt a b = true)
    (hcb : lt c b = false) : lt a c = true := by
  cases hac : lt a c with
  | true => rfl
  | false => rw [h.negTrans hac hcb] at hab; cases hab

/-- Neither is less. -/
def equivalent (lt : α → α → Bool) (a b : α) : Bool := !lt a b && !lt b a

variable {l : List α}

/-- What a filter keeps lies on one side. -/
theorem filter_of_side {e p : α → Bool} (h : ∀ y ∈ l, e y = true → p y = true) :
    (l.filter p).filter e = l.filter e ∧ (l.filter (!p ·)).filter e = [] := by
  constructor
  · rw [filter_filter]
    apply filter_congr
    intro y hy
    cases hey : e y with
    | false => rfl
    | true => exact h y hy hey
  · rw [filter_eq_nil_iff]
    intro y hy hey
    obtain ⟨hy, hpy⟩ := mem_filter.mp hy
    rw [h y hy hey] at hpy
    cases hpy

theorem StrictWeakOrder.not_lt_of_equivalent (h : StrictWeakOrder lt) {a b c : α}
    (hab : equivalent lt a b = true) (hac : equivalent lt a c = true) : lt b c = false := by
  simp only [equivalent, Bool.and_eq_true, Bool.not_eq_true'] at hab hac
  exact h.negTrans hab.2 hac.1

structure StableSort (lt : α → α → Bool) (l r : List α) : Prop where
  perm : r.Perm l
  ordered : r.Pairwise (fun a b => lt b a = false)
  stable : ∀ a, r.filter (equivalent lt a) = l.filter (equivalent lt a)

theorem stableSort_of_length_le_one (h : l.length ≤ 1) : StableSort lt l l := by
  refine ⟨.refl l, ?_, fun _ => rfl⟩
  match l, h with
  | [], _ => exact .nil
  | [a], _ => exact pairwise_singleton _ a

/-- The merge of two lists takes from the right one only what is less. -/
def merge (lt : α → α → Bool) (l r : List α) : List α := l.merge r fun a b => !lt b a

theorem merge_nil (l : List α) : merge lt l [] = l := merge_right l

theorem nil_merge (r : List α) : merge lt [] r = r := List.nil_merge r

theorem merge_cons_cons (a b : α) (l r : List α) :
    merge lt (a :: l) (b :: r) =
      if lt b a then b :: merge lt (a :: l) r else a :: merge lt l (b :: r) := by
  rw [merge, cons_merge_cons]
  cases lt b a <;> rfl

theorem merge_perm (l r : List α) : (merge lt l r).Perm (l ++ r) := merge_perm_append _

section

variable (order : StrictWeakOrder lt)

include order

theorem merge_ordered {r : List α} (hl : l.Pairwise (fun a b => lt b a = false))
    (hr : r.Pairwise (fun a b => lt b a = false)) :
    (merge lt l r).Pairwise (fun a b => lt b a = false) := by
  have htr : ∀ a b c, (!lt b a) = true → (!lt c b) = true → (!lt c a) = true := by
    intro a b c hab hbc
    simp only [Bool.not_eq_true'] at hab hbc ⊢
    exact order.negTrans hbc hab
  have ht : ∀ a b, ((!lt b a) || (!lt a b)) = true := by
    intro a b
    cases hba : lt b a with
    | false => rfl
    | true => simp [order.asymm hba]
  have hs := pairwise_merge htr ht l r (hl.imp fun h => by simp [h])
    (hr.imp fun h => by simp [h])
  exact hs.imp fun h => by simpa using h

/-- Above an element, nothing is equivalent to what the element exceeds. -/
theorem filter_equivalent_of_lt {a b c : α} (hac : equivalent lt a c = true)
    (hcb : lt c b = true) (hl : ∀ x ∈ l, lt x b = false) : l.filter (equivalent lt a) = [] := by
  rw [filter_eq_nil_iff]
  intro x hx hax
  have hcx := order.lt_of_lt_of_not hcb (hl x hx)
  rw [order.not_lt_of_equivalent hac hax] at hcx
  cases hcx

theorem merge_stable {r : List α} (hl : l.Pairwise (fun a b => lt b a = false)) (a : α) :
    (merge lt l r).filter (equivalent lt a) =
      l.filter (equivalent lt a) ++ r.filter (equivalent lt a) := by
  induction l generalizing r with
  | nil => rw [nil_merge]; rfl
  | cons x l ih =>
    induction r with
    | nil => simp [merge_nil]
    | cons y r ihr =>
      rw [merge_cons_cons]
      split_ifs with hyx
      · rw [filter_cons, ihr, filter_cons (x := y)]
        split_ifs with hy
        · have he := filter_equivalent_of_lt order hy hyx (l := x :: l) ?_
          · simp [he]
          · intro z hz
            obtain rfl | hz := mem_cons.mp hz
            · exact order.irrefl z
            · exact (pairwise_cons.mp hl).1 z hz
        · rfl
      · rw [filter_cons, ih (pairwise_cons.mp hl).2, filter_cons (x := x)]
        split <;> rfl

theorem StableSort.merge {l₁ l₂ r₁ r₂ : List α} (h₁ : StableSort lt l₁ r₁)
    (h₂ : StableSort lt l₂ r₂) : StableSort lt (l₁ ++ l₂) (Sorting.merge lt r₁ r₂) := by
  refine ⟨(merge_perm r₁ r₂).trans (h₁.perm.append h₂.perm),
    merge_ordered order h₁.ordered h₂.ordered, fun a => ?_⟩
  rw [merge_stable order h₁.ordered, h₁.stable, h₂.stable, filter_append]

/-- A part all of which is less, sorted, in front of the rest, sorted. -/
theorem StableSort.partition {r₁ r₂ : List α} (p : α → Bool)
    (hl : ∀ x ∈ l, ∀ y ∈ l, p x = true → p y = false → lt x y = true)
    (h₁ : StableSort lt (l.filter p) r₁) (h₂ : StableSort lt (l.filter (!p ·)) r₂) :
    StableSort lt l (r₁ ++ r₂) := by
  have hme {x : α} (hx : x ∈ r₁) : x ∈ l ∧ p x = true := by
    simpa using h₁.perm.mem_iff.mp hx
  have hm {x : α} (hx : x ∈ r₂) : x ∈ l ∧ p x = false := by
    simpa using h₂.perm.mem_iff.mp hx
  refine ⟨(h₁.perm.append h₂.perm).trans (filter_append_perm p l), ?_, fun a => ?_⟩
  · refine pairwise_append.mpr ⟨h₁.ordered, h₂.ordered, fun x hx y hy => ?_⟩
    exact order.asymm (hl x (hme hx).1 y (hm hy).1 (hme hx).2 (hm hy).2)
  rw [filter_append, h₁.stable, h₂.stable]
  -- all that is equivalent to `a` lies on one side
  have hsi : ∀ x ∈ l, ∀ y ∈ l, equivalent lt a x = true → equivalent lt a y = true →
      p x = true → p y = true := by
    intro x hx y hy hax hay hpx
    cases hpy : p y with
    | true => rfl
    | false =>
      have hxy := hl x hx y hy hpx hpy
      rw [order.not_lt_of_equivalent hax hay] at hxy
      cases hxy
  by_cases hs : ∃ x ∈ l, equivalent lt a x = true ∧ p x = true
  · obtain ⟨x, hx, hax, hpx⟩ := hs
    obtain ⟨hall, hn⟩ := filter_of_side fun y hy hay => hsi x hx y hy hax hay hpx
    rw [hall, hn, append_nil]
  have ho : ∀ y ∈ l, equivalent lt a y = true → (!p y) = true := by
    intro y hy hay
    rw [Bool.not_eq_true']
    exact Bool.eq_false_iff.mpr fun hpy => hs ⟨y, hy, hay, hpy⟩
  obtain ⟨hall, hn⟩ := filter_of_side ho
  simp only [Bool.not_not] at hn
  rw [hall, hn, nil_append]

end

/-! ## Bottom-up merge sort -/

section

variable (lt)

/-- One pass: neighbouring runs of a width are merged. -/
def mergeRuns (width : Nat) (hwidth : 0 < width) (l : List α) : List α :=
  if _h : l = [] then []
  else
    merge lt (l.take width) ((l.drop width).take width) ++
      mergeRuns width hwidth (l.drop (2 * width))
termination_by l.length
decreasing_by
  have := length_pos_iff.mpr _h
  rw [length_drop]
  omega

/-- Passes of doubling widths, until one run covers all `count` elements. -/
def sortRuns (count width : Nat) (hwidth : 0 < width) (l : List α) : List α :=
  if width < count then
    sortRuns count (width * 2) (Nat.mul_pos hwidth (by decide)) (mergeRuns lt width hwidth l)
  else l
termination_by count - width
decreasing_by omega

end

section

variable {width : Nat} (hwidth : 0 < width)

theorem mergeRuns_perm (l : List α) : (mergeRuns lt width hwidth l).Perm l := by
  fun_induction mergeRuns lt width hwidth l with
  | case1 => exact .refl []
  | case2 l hl ih =>
    have hsp : l = l.take width ++ (l.drop width).take width ++ l.drop (2 * width) := by
      rw [append_assoc, Nat.two_mul, ← drop_drop, take_append_drop, take_append_drop]
    calc (merge lt (l.take width) ((l.drop width).take width) ++ _).Perm
          (l.take width ++ (l.drop width).take width ++ l.drop (2 * width)) :=
        (merge_perm _ _).append ih
      _ = l := hsp.symm

theorem length_mergeRuns (lt : α → α → Bool) (l : List α) :
    (mergeRuns lt width hwidth l).length = l.length :=
  (mergeRuns_perm hwidth l).length_eq

theorem mergeRuns_nil : mergeRuns lt width hwidth [] = [] := by rw [mergeRuns, dif_pos rfl]

theorem mergeRuns_of_ne (h : l ≠ []) :
    mergeRuns lt width hwidth l = merge lt (l.take width) ((l.drop width).take width) ++
      mergeRuns lt width hwidth (l.drop (2 * width)) := by
  rw [mergeRuns, dif_neg h]

theorem length_merged (lt : α → α → Bool) (width : Nat) (l : List α) :
    (merge lt (l.take width) ((l.drop width).take width)).length = min (2 * width) l.length := by
  rw [(merge_perm _ _).length_eq]
  simp
  omega

theorem take_mergeRuns (l : List α) : (mergeRuns lt width hwidth l).take (2 * width) =
      merge lt (l.take width) ((l.drop width).take width) := by
  rw [mergeRuns]
  split_ifs with h
  · simp [h, merge_nil]
  have hlen := length_merged lt width l
  by_cases hl : 2 * width ≤ l.length
  · exact take_left' (by omega)
  · have he : l.drop (2 * width) = [] := drop_eq_nil_of_le (by omega)
    rw [he, mergeRuns_nil, append_nil]
    exact take_of_length_le (by omega)

theorem drop_mergeRuns (l : List α) : (mergeRuns lt width hwidth l).drop (2 * width) =
      mergeRuns lt width hwidth (l.drop (2 * width)) := by
  by_cases hl : 2 * width ≤ l.length
  · have hne : l ≠ [] := by
      rintro rfl
      simp at hl
      omega
    have hlen := length_merged lt width l
    rw [mergeRuns_of_ne hwidth hne]
    exact drop_left' (by omega)
  · have he : l.drop (2 * width) = [] := drop_eq_nil_of_le (by omega)
    rw [he, mergeRuns_nil]
    exact drop_eq_nil_of_le (by rw [length_mergeRuns]; omega)

/-- The `k`th run of a width. -/
def block (width k : Nat) (l : List α) : List α := (l.drop (k * width)).take width

theorem block_drop (width k n : Nat) (l : List α) :
    block width k (l.drop (n * width)) = block width (n + k) l := by
  rw [block, block, drop_drop, ← Nat.add_mul]

theorem block_double (width k : Nat) (l : List α) :
    block (2 * width) k l = block width (2 * k) l ++ block width (2 * k + 1) l := by
  have hs : k * (2 * width) = 2 * k * width := by
    rw [Nat.mul_comm 2 k, Nat.mul_assoc]
  rw [block, block, block, hs, Nat.two_mul width, take_add, drop_drop, Nat.add_mul, Nat.one_mul]

theorem block_mergeRuns (k : Nat) (l : List α) :
    block (2 * width) k (mergeRuns lt width hwidth l) =
      merge lt (block width (2 * k) l) (block width (2 * k + 1) l) := by
  induction k generalizing l with
  | zero =>
    rw [block, Nat.zero_mul, drop_zero, take_mergeRuns]
    simp [block]
  | succ k ih =>
    have h := block_drop (2 * width) k 1 (mergeRuns lt width hwidth l)
    rw [Nat.one_mul, drop_mergeRuns, ih, block_drop, block_drop] at h
    rw [Nat.add_comm k 1, ← h]
    congr 2 <;> omega

/-- Every run of a width is sorted. -/
def RunsSorted (lt : α → α → Bool) (width : Nat) (l r : List α) : Prop :=
  ∀ k, StableSort lt (block width k l) (block width k r)

theorem RunsSorted.mergeRuns (order : StrictWeakOrder lt) {r : List α}
    (h : RunsSorted lt width l r) :
    RunsSorted lt (2 * width) l (Sorting.mergeRuns lt width hwidth r) := by
  intro k
  rw [block_mergeRuns, block_double]
  exact (h (2 * k)).merge order (h (2 * k + 1))

theorem runsSorted_one (l : List α) : RunsSorted lt 1 l l := by
  intro k
  apply stableSort_of_length_le_one
  rw [block, length_take]
  omega

theorem RunsSorted.stableSort {r : List α} (h : RunsSorted lt width l r)
    (hl : l.length ≤ width) (hr : r.length ≤ width) : StableSort lt l r := by
  have hw := h 0
  rwa [block, block, Nat.zero_mul, drop_zero, drop_zero, take_of_length_le hl,
    take_of_length_le hr] at hw

end

theorem sortRuns_perm (count : Nat) {width : Nat} (hwidth : 0 < width) (l : List α) :
    (sortRuns lt count width hwidth l).Perm l := by
  fun_induction sortRuns lt count width hwidth l with
  | case1 width hwidth l _ ih => exact ih.trans (mergeRuns_perm hwidth l)
  | case2 => exact .refl _

theorem RunsSorted.sortRuns (order : StrictWeakOrder lt) {count width : Nat} (hwidth : 0 < width)
    {r : List α} (h : RunsSorted lt width l r) (hl : l.length = count) (hr : r.length = count) :
    StableSort lt l (Sorting.sortRuns lt count width hwidth r) := by
  fun_induction Sorting.sortRuns lt count width hwidth r with
  | case1 width hwidth r _ ih =>
    have hn := h.mergeRuns hwidth order
    rw [Nat.mul_comm] at hn
    exact ih hn (by rw [length_mergeRuns, hr])
  | case2 width hwidth r hd => exact h.stableSort (by omega) (by omega)

/-- Bottom-up merge sort gives the stable sort. -/
theorem sortRuns_stableSort (order : StrictWeakOrder lt) (l : List α) :
    StableSort lt l (sortRuns lt l.length 1 Nat.one_pos l) :=
  (runsSorted_one l).sortRuns order Nat.one_pos rfl rfl

end JavaScriptCore.Sorting
