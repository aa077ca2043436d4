import Mathlib.Data.Nat.Count

/-!
# Linear probing

A buffer of `2 ^ p` slots is searched from the slot a hash selects, one slot after the other and
round at the end, until a slot where the search may stop. Positions are counted by their distance
from the start of the search, so that the slots passed over are those of the smaller distances.
-/

namespace JavaScriptCore.Collections

open Nat Function

/-- `while (!stop(index)) index = (index + 1) & mask`, for at most `fuel` slots. A search that has
passed over every slot of the buffer never ends. -/
def linearProbe (mask : Nat) (stop : Nat → Bool) : Nat → Nat → Option Nat
  | 0, _ => none
  | fuel + 1, index =>
    if stop index then some index else linearProbe mask stop fuel ((index + 1) &&& mask)

section

variable {p : Nat} {stop : Nat → Bool}

theorem linearProbe_of_first {fuel d idx : Nat} (hf : d < fuel) (hi : idx < 2 ^ p)
    (hsp : stop ((idx + d) % 2 ^ p) = true) (hb : ∀ d' < d, stop ((idx + d') % 2 ^ p) = false) :
    linearProbe (2 ^ p - 1) stop fuel idx = some ((idx + d) % 2 ^ p) := by
  induction fuel generalizing d idx with
  | zero => omega
  | succ fuel ih =>
    rw [linearProbe]
    cases d with
    | zero =>
      rw [add_zero, mod_eq_of_lt hi] at hsp
      rw [if_pos hsp, add_zero, mod_eq_of_lt hi]
    | succ d =>
      have hh := hb 0 (zero_lt_succ d)
      rw [add_zero, mod_eq_of_lt hi] at hh
      -- the slots seen from the next one are those seen from here, one step nearer
      have hs : ∀ e, ((idx + 1) % 2 ^ p + e) % 2 ^ p = (idx + (e + 1)) % 2 ^ p := by
        intro e
        rw [mod_add_mod]
        congr 1
        omega
      rw [if_neg (by simp [hh]), and_two_pow_sub_one_eq_mod, ← hs d]
      refine ih (by omega) (mod_lt _ (Nat.two_pow_pos p)) ?_ fun e he => ?_
      · rw [hs]
        exact hsp
      · rw [hs]
        exact hb (e + 1) (by omega)

theorem exists_distance (idx : Nat) {e : Nat} (he : e < 2 ^ p) :
    ∃ d < 2 ^ p, (idx + d) % 2 ^ p = e := by
  refine ⟨(e + (2 ^ p - idx % 2 ^ p)) % 2 ^ p, mod_lt _ (Nat.two_pow_pos p), ?_⟩
  rw [add_mod_mod, ← mod_add_mod,
    show idx % 2 ^ p + (e + (2 ^ p - idx % 2 ^ p)) = e + 2 ^ p by omega, add_mod_right,
    mod_eq_of_lt he]

/-- Where the search for a hash may stop at all, it stops at the first such slot. -/
theorem linearProbe_spec (stop : Nat → Bool) (hash : Nat) (h : ∃ e < 2 ^ p, stop e = true) :
    ∃ d < 2 ^ p, linearProbe (2 ^ p - 1) stop (2 ^ p) (hash &&& (2 ^ p - 1)) =
        some ((hash + d) % 2 ^ p) ∧
      stop ((hash + d) % 2 ^ p) = true ∧ ∀ d' < d, stop ((hash + d') % 2 ^ p) = false := by
  obtain ⟨e, he, hs⟩ := h
  have hexi : ∃ d, stop ((hash + d) % 2 ^ p) = true := by
    obtain ⟨d, _, hd⟩ := exists_distance hash he
    exact ⟨d, hd ▸ hs⟩
  have hf := Nat.find_spec hexi
  have hb : ∀ d' < Nat.find hexi, stop ((hash + d') % 2 ^ p) = false :=
    fun d' hd' => Bool.eq_false_iff.mpr (Nat.find_min hexi hd')
  have hlt : Nat.find hexi < 2 ^ p := by
    obtain ⟨d, hd, hde⟩ := exists_distance hash he
    exact Nat.lt_of_le_of_lt (Nat.find_min' hexi (hde ▸ hs)) hd
  refine ⟨Nat.find hexi, hlt, ?_, hf, hb⟩
  rw [and_two_pow_sub_one_eq_mod, ← mod_add_mod]
  refine linearProbe_of_first hlt (mod_lt _ (Nat.two_pow_pos p)) ?_ fun d' hd' => ?_
  · rw [mod_add_mod]
    exact hf
  · rw [mod_add_mod]
    exact hb d' hd'

end

/-! ## Counting the slots in use -/

variable {Slot : Type} (used : Slot → Prop) [DecidablePred used] {buffer : Nat → Slot}

variable {cap idx : Nat}

theorem exists_unused (h : count (fun i => used (buffer i)) cap < cap) :
    ∃ i < cap, ¬used (buffer i) := by
  by_contra hall
  push Not at hall
  exact absurd (count_iff_forall.mpr hall) (Nat.ne_of_lt h)

theorem count_update_of_le {n : Nat} (slot : Slot) (h : n ≤ idx) :
    count (fun i => used (update buffer idx slot i)) n = count (fun i => used (buffer i)) n := by
  induction n with
  | zero => rfl
  | succ n ih =>
    rw [count_succ, count_succ, ih (by omega), update_of_ne (by omega)]

/-- A slot counts by its content before and after it is changed. -/
theorem count_update (buffer : Nat → Slot) (hi : idx < cap) (slot : Slot) :
    count (fun i => used (update buffer idx slot i)) cap +
        (if used (buffer idx) then 1 else 0) =
      count (fun i => used (buffer i)) cap + if used slot then 1 else 0 := by
  induction cap with
  | zero => omega
  | succ n ih =>
    rw [count_succ, count_succ]
    by_cases hl : idx = n
    · subst hl
      rw [count_update_of_le used slot (le_refl _), update_self]
      omega
    · rw [update_of_ne (Ne.symm hl)]
      omega

/-- Taking an unused slot into use adds one to the count. -/
theorem count_update_used {slot : Slot} (hi : idx < cap)
    (hu : ¬used (buffer idx)) (hs : used slot) :
    count (fun i => used (update buffer idx slot i)) cap =
      count (fun i => used (buffer i)) cap + 1 := by
  have hc := count_update used buffer hi slot
  rwa [if_neg hu, if_pos hs] at hc

/-- A slot in use that is given another content in use leaves the count. -/
theorem count_update_same {slot : Slot} (hu : used (buffer idx)) (hs : used slot) :
    count (fun i => used (update buffer idx slot i)) cap =
      count (fun i => used (buffer i)) cap := by
  congr 1
  funext i
  by_cases hi : i = idx
  · subst hi
    simp [hu, hs]
  · rw [update_of_ne hi]

end JavaScriptCore.Collections
