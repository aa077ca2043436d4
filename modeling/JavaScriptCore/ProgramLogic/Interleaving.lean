import Mathlib.Algebra.BigOperators.Group.Finset.Basic

/-!
# Interleaved threads

A machine of several threads takes one step at a time; a schedule says which thread takes each step
and how the choices that the machine leaves open are made. What one step preserves holds after
every schedule.
-/

namespace JavaScriptCore.ProgramLogic

open Finset

variable {σ ℓ : Type}

/-- The state after a schedule, if none of its steps is blocked. -/
def follow (step : σ → ℓ → Option σ) (schedule : List ℓ) (s : σ) : Option σ :=
  schedule.foldlM step s

theorem follow_invariant {step : σ → ℓ → Option σ} {I : σ → Prop}
    (hs : ∀ s l s', I s → step s l = some s' → I s') {schedule : List ℓ} {s s' : σ} (h : I s)
    (hf : follow step schedule s = some s') : I s' := by
  induction schedule generalizing s with
  | nil =>
    cases hf
    exact h
  | cons l schedule ih =>
    rw [follow, List.foldlM_cons, Option.bind_eq_bind, Option.bind_eq_some_iff] at hf
    obtain ⟨u, hl, hr⟩ := hf
    exact ih (hs s l u h hl) hr

/-- What the threads count for together, after one of them has moved. -/
theorem sum_update {T P : Type} [Fintype T] [DecidableEq T] (f : P → Nat) (pc : T → P) (t : T)
    (p : P) : ∑ u, f (Function.update pc t p u) + f (pc t) = ∑ u, f (pc u) + f p := by
  rw [← add_sum_erase _ _ (mem_univ t),
    ← add_sum_erase _ (fun u => f (pc u)) (mem_univ t), Function.update_self]
  have hos : ∑ u ∈ univ.erase t, f (Function.update pc t p u) = ∑ u ∈ univ.erase t, f (pc u) := by
    refine sum_congr rfl fun u hu => ?_
    rw [Function.update_of_ne (ne_of_mem_erase hu)]
  omega

end JavaScriptCore.ProgramLogic
