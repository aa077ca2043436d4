import Mathlib.Data.List.Chain
import Mathlib.Data.List.Nodup

/-!
# Doubly linked lists

Two maps of successors and predecessors hold a list of distinct nodes when each node points to the
next one and back. A node can be put behind the last one and taken out from between two others by
redirecting one pointer of each neighbour.
-/

namespace JavaScriptCore.Collections

open Function List

variable {α : Type}

structure DoublyLinked (next prev : α → Option α) (path : List α) : Prop where
  nodup : path.Nodup
  forward : path.IsChain fun x y => next x = some y
  backward : path.IsChain fun x y => prev y = some x

namespace DoublyLinked

variable {next prev next' prev' : α → Option α} {path front back : List α} {x y z : α}

theorem next_eq (h : DoublyLinked next prev (front ++ x :: y :: back)) : next x = some y :=
  (isChain_append_cons_cons.mp h.forward).2.1

theorem next_eq_head? (h : DoublyLinked next prev (front ++ x :: back)) (hb : back ≠ []) :
    next x = back.head? := by
  cases back with
  | nil => exact absurd rfl hb
  | cons y back => exact h.next_eq

theorem prev_eq (h : DoublyLinked next prev (front ++ x :: y :: back)) : prev y = some x :=
  (isChain_append_cons_cons.mp h.backward).2.1

/-- A chain relates the nodes before the last one to the nodes after the first. -/
theorem chain_congr {R R' : α → α → Prop} (h : path.IsChain R)
    (himp : ∀ x ∈ path.dropLast, ∀ y ∈ path.tail, R x y → R' x y) : path.IsChain R' := by
  rw [isChain_iff_forall_rel_of_append_cons_cons] at h ⊢
  intro a b l₁ l₂ heq
  refine himp a ?_ b ?_ (h heq)
  · rw [heq, dropLast_append_of_ne_nil (by simp)]
    simp
  · cases l₁ <;> simp [heq]

theorem congr (h : DoublyLinked next prev path) (hn : ∀ x ∈ path.dropLast, next' x = next x)
    (hp : ∀ x ∈ path.tail, prev' x = prev x) : DoublyLinked next' prev' path where
  nodup := h.nodup
  forward := chain_congr h.forward fun x hx _ _ hxy => (hn x hx).trans hxy
  backward := chain_congr h.backward fun _ _ y hy hxy => (hp y hy).trans hxy

theorem left (h : DoublyLinked next prev (front ++ x :: back)) :
    DoublyLinked next prev (front ++ [x]) where
  nodup := h.nodup.sublist (by simp)
  forward := (isChain_split.mp h.forward).1
  backward := (isChain_split.mp h.backward).1

theorem right (h : DoublyLinked next prev (front ++ x :: back)) :
    DoublyLinked next prev (x :: back) where
  nodup := h.nodup.sublist (by simp)
  forward := (isChain_split.mp h.forward).2
  backward := (isChain_split.mp h.backward).2

variable [DecidableEq α]

/-- Two lists are joined by pointing the last node of the one and the first of the other at each
other. -/
theorem join (hl : DoublyLinked next prev (front ++ [x]))
    (hr : DoublyLinked next prev (y :: back)) (hnd : (front ++ x :: y :: back).Nodup) :
    DoublyLinked (update next x (some y)) (update prev y (some x)) (front ++ x :: y :: back) := by
  obtain ⟨_, hfar, hd⟩ := nodup_append.mp hnd
  have hx : ∀ w ∈ y :: back, w ≠ x := fun w hw hwx => (nodup_cons.mp hfar).1 (hwx ▸ hw)
  have hf : ∀ w ∈ front, w ≠ x := fun w hw => hd w hw x (by simp)
  have hy : ∀ w ∈ front ++ [x], w ≠ y := by
    intro w hw hwy
    subst hwy
    obtain hw | hw := mem_append.mp hw
    · exact hd w hw w (by simp) rfl
    · exact hx w (by simp) (mem_singleton.mp hw)
  have hb : ∀ w ∈ back, w ≠ y := fun w hw hwy =>
    (nodup_cons.mp (nodup_cons.mp hfar).2).1 (hwy ▸ hw)
  refine ⟨hnd, ?_, ?_⟩
  · rw [isChain_append_cons_cons]
    refine ⟨chain_congr hl.forward fun w hw _ _ h => ?_, update_self ..,
      chain_congr hr.forward fun w hw _ _ h => ?_⟩
    · rw [dropLast_concat] at hw
      rw [update_of_ne (hf w hw)]
      exact h
    · rw [update_of_ne (hx w ((dropLast_sublist _).mem hw))]
      exact h
  · rw [isChain_append_cons_cons]
    refine ⟨chain_congr hl.backward fun _ _ w hw h => ?_, update_self ..,
      chain_congr hr.backward fun _ _ w hw h => ?_⟩
    · rw [update_of_ne (hy w (mem_of_mem_tail hw))]
      exact h
    · rw [update_of_ne (hb w hw)]
      exact h

theorem snoc (h : DoublyLinked next prev (front ++ [x])) (hy : y ∉ front ++ [x]) :
    DoublyLinked (update next x (some y)) (update prev y (some x)) (front ++ [x, y]) := by
  refine join h ⟨by simp, .singleton y, .singleton y⟩ ?_
  have hsp : front ++ [x, y] = (front ++ [x]) ++ [y] := by simp
  rw [hsp, nodup_append]
  exact ⟨h.nodup, by simp, fun a ha b hb hab => hy (by simp_all)⟩

theorem unlink (h : DoublyLinked next prev (front ++ x :: y :: z :: back)) :
    DoublyLinked (update next x (some z)) (update prev z (some x)) (front ++ x :: z :: back) := by
  have hsp : front ++ x :: y :: z :: back = (front ++ [x, y]) ++ z :: back := by simp
  refine join h.left (hsp ▸ h).right (h.nodup.sublist ?_)
  exact (((List.Sublist.refl _).cons y).cons_cons x).append_left front

end DoublyLinked

end JavaScriptCore.Collections
