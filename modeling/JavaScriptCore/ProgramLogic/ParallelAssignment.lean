import Mathlib.Data.Set.Lattice
import Mathlib.Order.CompletePartialOrder

/-!
# Assignments made one after the other

A sequence of assignments to a memory has the effect of making them all at once, from the memory
before the first of them, when no two write to one location and none reads what an earlier one has
written.
-/

namespace JavaScriptCore.ProgramLogic

variable {ι Loc Val : Type}

/-- The assignment `step i` writes to `writes i` only, and what it writes there is determined by
what the memory holds at `reads i`. -/
structure Footprint (step : ι → (Loc → Val) → Loc → Val) (writes reads : ι → Set Loc) : Prop where
  frame : ∀ i m l, l ∉ writes i → step i m l = m l
  determined : ∀ i m m', (∀ l ∈ reads i, m l = m' l) → ∀ l ∈ writes i, step i m l = step i m' l

/-- The assignments of a list, from the first to the last. -/
def assign (step : ι → (Loc → Val) → Loc → Val) (order : List ι) (m : Loc → Val) : Loc → Val :=
  order.foldl (fun m i => step i m) m

/-- No two write to one location, and none reads what an earlier one has written. -/
def Independent (writes reads : ι → Set Loc) (order : List ι) : Prop :=
  order.Pairwise fun i j => Disjoint (writes i) (writes j) ∧ Disjoint (writes i) (reads j)

variable {step : ι → (Loc → Val) → Loc → Val} {writes reads : ι → Set Loc}
    (h : Footprint step writes reads)

include h

theorem Footprint.assign_frame {order : List ι} {l : Loc}
    (hl : ∀ i ∈ order, l ∉ writes i) (m : Loc → Val) : assign step order m l = m l := by
  induction order generalizing m with
  | nil => rfl
  | cons i order ih =>
    rw [List.forall_mem_cons] at hl
    exact (ih hl.2 (step i m)).trans (h.frame i m l hl.1)

/-- What an assignment has written stays when the later ones write elsewhere. -/
theorem Footprint.assign_split {front back : List ι} {i : ι}
    {l : Loc} (hl : l ∈ writes i) (hb : ∀ j ∈ back, Disjoint (writes i) (writes j))
    (m : Loc → Val) :
    assign step (front ++ i :: back) m l = step i (assign step front m) l := by
  have hrun : assign step (front ++ i :: back) m =
      assign step back (step i (assign step front m)) := by
    rw [assign, List.foldl_append]
    rfl
  rw [hrun]
  exact h.assign_frame (fun j hj hlj => Set.disjoint_left.mp (hb j hj) hl hlj) _

theorem Footprint.assign_parallel {order : List ι}
    (hin : Independent writes reads order) {i : ι} (hi : i ∈ order) {l : Loc}
    (hl : l ∈ writes i) (m : Loc → Val) : assign step order m l = step i m l := by
  obtain ⟨front, back, rfl⟩ := List.append_of_mem hi
  rw [Independent, List.pairwise_append, List.pairwise_cons] at hin
  obtain ⟨_, ⟨hb, _⟩, hf⟩ := hin
  rw [h.assign_split hl (fun j hj => (hb j hj).1)]
  refine h.determined i _ m (fun r hr => ?_) l hl
  exact h.assign_frame
    (fun j hj hrj => Set.disjoint_left.mp (hf j hj i List.mem_cons_self).2 hrj hr) m

end JavaScriptCore.ProgramLogic
