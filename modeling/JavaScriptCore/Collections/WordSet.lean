import Mathlib.Algebra.BigOperators.Intervals
import Mathlib.Data.Nat.Bitwise

/-!
# Sets of numbers as sequences of words

Bit `n % w` of word `n / w` says whether `n` is a member. Bitwise operations on the words are the
operations on the sets, and the number of members is the sum of the numbers of ones.
-/

namespace JavaScriptCore.Collections.WordSet

open Finset BitVec Nat Function

variable {w : Nat}

def mem (words : Nat → BitVec w) (n : Nat) : Bool := (words (n / w)).getLsbD (n % w)

theorem mem_add {i : Nat} (words : Nat → BitVec w) (k : Nat) (h : i < w) :
    mem words (k * w + i) = (words k).getLsbD i := by
  have hdiv : (k * w + i) / w = k := by
    rw [add_comm, add_mul_div_right _ _ (by omega), div_eq_of_lt h, zero_add]
  have hmod : (k * w + i) % w = i := by
    rw [add_comm, add_mul_mod_self_right, mod_eq_of_lt h]
  rw [mem, hdiv, hmod]

theorem ext {a b : Nat → BitVec w} (h : ∀ n, mem a n = mem b n) : a = b := by
  funext k
  apply eq_of_getLsbD_eq
  intro i hi
  rw [← mem_add a k hi, ← mem_add b k hi]
  exact h _

@[simp] theorem mem_or (a b : Nat → BitVec w) (n : Nat) :
    mem (fun i => a i ||| b i) n = (mem a n || mem b n) := getLsbD_or

@[simp] theorem mem_and (a b : Nat → BitVec w) (n : Nat) :
    mem (fun i => a i &&& b i) n = (mem a n && mem b n) := getLsbD_and

@[simp] theorem mem_andNot (hw : 0 < w) (a b : Nat → BitVec w) (n : Nat) :
    mem (fun i => a i &&& ~~~b i) n = (mem a n && !mem b n) := by
  rw [mem, getLsbD_and, getLsbD_not, decide_eq_true (mod_lt n hw), Bool.true_and]
  rfl

@[simp] theorem mem_zero (n : Nat) : mem (fun _ => 0#w) n = false := getLsbD_zero

/-! ## One member -/

section

variable {words : Nat → BitVec w} {n : Nat} {mask : BitVec w}
  (hmask : ∀ i, mask.getLsbD i = decide (i = n % w))

theorem eq_of_div_mod {m : Nat} (hdiv : m / w = n / w) : m % w = n % w ↔ m = n := by
  constructor
  · intro hmod
    rw [← div_add_mod m w, ← div_add_mod n w, hdiv, hmod]
  · rintro rfl
    rfl

include hmask

theorem mem_insert (m : Nat) :
    mem (update words (n / w) (words (n / w) ||| mask)) m =
      (decide (m = n) || mem words m) := by
  rw [mem]
  by_cases hdiv : m / w = n / w
  · rw [hdiv, update_self, getLsbD_or, hmask, mem, hdiv, Bool.or_comm,
      decide_eq_decide.mpr (eq_of_div_mod hdiv)]
  · rw [update_of_ne hdiv, decide_eq_false (fun h => hdiv (by rw [h])), Bool.false_or]
    rfl

theorem mem_erase (hw : 0 < w) (m : Nat) :
    mem (update words (n / w) (words (n / w) &&& ~~~mask)) m =
      (!decide (m = n) && mem words m) := by
  rw [mem]
  by_cases hdiv : m / w = n / w
  · rw [hdiv, update_self, getLsbD_and, getLsbD_not, hmask, mem, hdiv, decide_eq_true (mod_lt m hw),
      decide_eq_decide.mpr (eq_of_div_mod hdiv), Bool.true_and, Bool.and_comm]
  · rw [update_of_ne hdiv, decide_eq_false (fun h => hdiv (by rw [h])), Bool.not_false,
      Bool.true_and]
    rfl

end

/-! ## The number of members -/

/-- The number of ones among so many bits. -/
def ones : Nat → Nat → Nat
  | 0, _ => 0
  | k + 1, n => n % 2 + ones k (n / 2)

theorem ones_add (j k n : Nat) : ones (j + k) n = ones j (n % 2 ^ j) + ones k (n / 2 ^ j) := by
  induction j generalizing n with
  | zero => simp [ones]
  | succ j ih =>
    rw [Nat.add_right_comm, ones, ones, ih, Nat.pow_succ', ← Nat.div_div_eq_div_mul,
      mod_mul_right_mod, mod_mul_right_div_self]
    omega

theorem ones_eq_sum (k n : Nat) : ones k n = ∑ i ∈ range k, (n.testBit i).toNat := by
  induction k generalizing n with
  | zero => rfl
  | succ k ih =>
    rw [ones, ih, sum_range_succ', add_comm]
    congr 1
    · simp only [testBit_succ]
    · rw [testBit_zero]
      rcases mod_two_eq_zero_or_one n with h | h <;> simp [h]

theorem card_filter_mem (words : Nat → BitVec w) (k : Nat) :
    ((Finset.range (k * w)).filter (mem words ·)).card =
      ∑ i ∈ Finset.range k, ones w (words i).toNat := by
  rw [Finset.card_filter]
  induction k with
  | zero => simp
  | succ k ih =>
    rw [Nat.succ_mul, Finset.sum_range_add, ih, Finset.sum_range_succ, ones_eq_sum]
    congr 1
    apply Finset.sum_congr rfl
    intro i hi
    rw [mem_add words k (Finset.mem_range.mp hi)]
    show _ = ((words k).getLsbD i).toNat
    cases (words k).getLsbD i <;> rfl

end JavaScriptCore.Collections.WordSet
