import JavaScriptCore.Runtime.JSBigInt.DivideSpec
import JavaScriptCore.Runtime.JSBigInt.ShiftSpec
import JavaScriptCore.Runtime.JSBigInt.ParseSpec

/-!
# Sequences of BigInt operations

The public constructors and operations of `runtime/JSBigInt.h:57-122`, run one after another.
An operand refers to a cell that an earlier step produced; a step that throws, or returns
null, produces none. No cell is written after it has been returned, so a run is the list of
the cells it has produced. Every step starts from a heap of its own, which stands for
whatever the collector and the other code have left in free storage.
-/

namespace JavaScriptCore.Runtime.JSBigInt

open JavaScriptCore.ProgramLogic JavaScriptCore.Numeral List

variable {t : Target}

/-- The radixes that `allocateFor` asserts. -/
abbrev Radix := { radix : Nat // 2 ≤ radix ∧ radix ≤ 36 }

inductive Command where
  | createFromInt32 (value : BitVec 32)
  | createFromUInt32 (value : BitVec 32)
  | createFromInt64 (value : BitVec 64)
  | createFromBool (value : Bool)
  | parseInt (text : List UChar) (mode : ErrorParseMode)
  | parseIntWithRadix (exec : Bool) (text : List UChar) (radix : Radix) (mode : ErrorParseMode)
      (sign : ParseIntSign)
  | unaryMinus (x : Nat)
  | bitwiseNot (x : Nat)
  | add (x y : Nat)
  | sub (x y : Nat)
  | multiply (x y : Nat)
  | divide (x y : Nat)
  | remainder (x y : Nat)
  | bitwiseAnd (x y : Nat)
  | bitwiseOr (x y : Nat)
  | bitwiseXor (x y : Nat)
  | leftShift (x y : Nat)
  | signedRightShift (x y : Nat)

def unary (pool : List (JSBigInt t)) (x : Nat) (operation : JSBigInt t → Run t (JSBigInt t)) :
    Run t (Option (JSBigInt t)) :=
  match pool[x]? with
  | some x => some <$> operation x
  | none => pure none

def binary (pool : List (JSBigInt t)) (x y : Nat)
    (operation : JSBigInt t → JSBigInt t → Run t (JSBigInt t)) : Run t (Option (JSBigInt t)) :=
  match pool[x]?, pool[y]? with
  | some x, some y => some <$> operation x y
  | _, _ => pure none

def evaluate (pool : List (JSBigInt t)) : Command → Run t (Option (JSBigInt t))
  | .createFromInt32 value => some <$> createFromInt32 value
  | .createFromUInt32 value => some <$> createFromUInt32 value
  | .createFromInt64 value => some <$> createFromInt64 value
  | .createFromBool value => some <$> createFromBool value
  | .parseInt text mode => JSBigInt.parseInt text mode
  | .parseIntWithRadix exec text radix mode sign => parseIntWithRadix exec text radix mode sign
  | .unaryMinus x => unary pool x unaryMinus
  | .bitwiseNot x => unary pool x bitwiseNot
  | .add x y => binary pool x y add
  | .sub x y => binary pool x y sub
  | .multiply x y => binary pool x y multiply
  | .divide x y => binary pool x y divide
  | .remainder x y => binary pool x y remainder
  | .bitwiseAnd x y => binary pool x y bitwiseAnd
  | .bitwiseOr x y => binary pool x y bitwiseOr
  | .bitwiseXor x y => binary pool x y bitwiseXor
  | .leftShift x y => binary pool x y leftShift
  | .signedRightShift x y => binary pool x y signedRightShift

structure Step (t : Target) where
  command : Command
  heap : Heap t

def step (pool : List (JSBigInt t)) (s : Step t) : List (JSBigInt t) :=
  match evaluate pool s.command s.heap with
  | .ok (some r, _) => pool ++ [r]
  | _ => pool

/-- The cells that a sequence of steps produces. -/
def run (steps : List (Step t)) : List (JSBigInt t) := steps.foldl step []

/-- What every cell a caller can hold should satisfy. -/
structure WellFormed (x : JSBigInt t) : Prop where
  canonical : x.Canonical
  length_le : x.length ≤ t.maxLength

/-- The two-digit branch of `createFrom(VM&, int64_t)` leaves no leading zero behind. -/
def Command.Trims (t : Target) : Command → Prop
  | .createFromInt64 value => t.digitBits = 64 ∨ value = 0 ∨ 2 ^ 32 ≤ value.toInt.natAbs
  | _ => True

section Operations

variable {s : Heap t} {x y : JSBigInt t} {pool : List (JSBigInt t)}

/-- The operation throws, or returns a well-formed cell. -/
def Produces (m : Run t (JSBigInt t)) : Prop :=
  ∀ s, wp m (fun r _ => r.WellFormed) (fun _ => True) s

theorem two_le_maxLength : 2 ≤ t.maxLength := by
  unfold Target.maxLength
  rcases t.digitBits_cases with h | h <;> simp [h]

theorem produces_of_denotes {m : Run t (JSBigInt t)} {n : Int} {bound : Nat}
    (exc : Exception → Prop) (hb : bound ≤ t.maxLength)
    (h : ∀ s, wp m (fun r _ => Denotes n bound r) exc s) : Produces m := by
  intro s
  refine wp_mono (h s) ?_ (fun _ _ => trivial)
  intro r _ hr
  exact ⟨hr.canonical, le_trans hr.length_le hb⟩

theorem max_length_le (hx : x.WellFormed) (hy : y.WellFormed) :
    max (max x.length y.length) t.maxLength ≤ t.maxLength :=
  max_le (max_le hx.length_le hy.length_le) le_rfl

/-- All of a right shift's outcomes are trimmed, also the inexact ones. -/
theorem rightShiftByAbsolute_produces (hx : x.WellFormed) (hx0 : x.length ≠ 0)
    (hy : y.Canonical) (hy0 : y.length ≠ 0) : Produces (rightShiftByAbsolute x y) := by
  have hone := le_trans one_le_two (two_le_maxLength (t := t))
  by_cases hn : y.magnitude ≤ t.maxLengthBits
  · by_cases hre : y.magnitude / t.digitBits < x.length ∧ RoundingReserves x y.magnitude
    · intro s
      refine wp_mono (rightShift_reserved_wp hy hy0 hn hre.1 hre.2) ?_ (fun _ _ => trivial)
      intro r _ hr
      exact ⟨hr.canonical, hr.length_le⟩
    · exact produces_of_denotes _ (max_le hx.length_le le_rfl) (fun s =>
        rightShift_exact_wp hx.canonical hx0 hy hy0 hn (fun hk hr => hre ⟨hk, hr⟩))
  · exact produces_of_denotes (fun _ => False) hone (fun _ =>
      rightShift_tooFar_wp hy hy0 (not_le.mp hn))

theorem leftShiftByAbsolute_produces (hx : x.Canonical) (hx0 : x.length ≠ 0)
    (hy : y.Canonical) (hy0 : y.length ≠ 0) : Produces (leftShiftByAbsolute x y) :=
  produces_of_denotes _ le_rfl (fun _ => leftShiftByAbsolute_wp hx hx0 hy hy0)

theorem shift_nonzero (h : ¬ (y.isZero || x.isZero) = true) : y.length ≠ 0 ∧ x.length ≠ 0 := by
  simpa [isZero_iff] using h

variable (hx : x.WellFormed)

include hx

theorem leftShift_produces (hy : y.WellFormed) : Produces (leftShift x y) := by
  unfold leftShift
  split_ifs with h0 hs
  · exact fun _ => hx
  · obtain ⟨hy0, hx0⟩ := shift_nonzero h0
    exact rightShiftByAbsolute_produces hx hx0 hy.canonical hy0
  · obtain ⟨hy0, hx0⟩ := shift_nonzero h0
    exact leftShiftByAbsolute_produces hx.canonical hx0 hy.canonical hy0

theorem signedRightShift_produces (hy : y.WellFormed) :
    Produces (signedRightShift x y) := by
  unfold signedRightShift
  split_ifs with h0 hs
  · exact fun _ => hx
  · obtain ⟨hy0, hx0⟩ := shift_nonzero h0
    exact leftShiftByAbsolute_produces hx.canonical hx0 hy.canonical hy0
  · obtain ⟨hy0, hx0⟩ := shift_nonzero h0
    exact rightShiftByAbsolute_produces hx hx0 hy.canonical hy0

theorem divide_produces (hy : y.WellFormed) : Produces (divide x y) := by
  by_cases hy0 : y.length = 0
  · intro s
    simp [divide, (isZero_iff y).mpr hy0]
  · exact produces_of_denotes _ hx.length_le (fun _ => divide_wp hx.canonical hy.canonical hy0)

theorem remainder_produces (hy : y.WellFormed) : Produces (remainder x y) := by
  by_cases hy0 : y.length = 0
  · intro s
    simp [remainder, (isZero_iff y).mpr hy0]
  · exact produces_of_denotes _ hx.length_le (fun _ => remainder_wp hx.canonical hy.canonical hy0)

omit hx

/-- Every cell made from an `int64_t` is well formed but those left with a leading zero. -/
theorem createFromInt64_wellFormed_wp (v : BitVec 64) :
    wp (createFromInt64 v : Run t (JSBigInt t))
      (fun r _ => r.WellFormed ↔ (Command.createFromInt64 v).Trims t) (fun _ => False) s := by
  have htwo := two_le_maxLength (t := t)
  by_cases hw : t.digitBits = 64
  · refine wp_post (createFromInt64_wide_wp hw v) ?_
    intro r _ hr
    exact iff_of_true ⟨hr.canonical, by have := hr.length_le; omega⟩ (.inl hw)
  have hw32 := t.digitBits_cases.resolve_right hw
  by_cases h0 : v = 0
  · unfold createFromInt64
    rw [if_pos h0]
    exact wp_post (createZero_wp rfl) fun r _ hr =>
      iff_of_true ⟨hr.canonical, hr.length_le⟩ (.inr (.inl h0))
  · refine wp_post (createFromInt64_narrow_wp hw32 h0) ?_
    rintro r _ ⟨-, hl, hc⟩
    constructor
    · intro hr
      exact .inr (.inr (hc.mp hr.canonical))
    · rintro (h | h | h)
      · exact absurd h hw
      · exact absurd h h0
      · exact ⟨hc.mpr h, by omega⟩

theorem parsed_wellFormed {val : Option Int} {mode : ErrorParseMode} {o : Option (JSBigInt t)}
    (h : Parsed val mode o) : ∀ r, o = some r → r.WellFormed := by
  rintro r rfl
  obtain ⟨v, -, hr⟩ := h
  exact ⟨hr.canonical, hr.length_le⟩

theorem some_wp {m : Run t (JSBigInt t)} (h : Produces m) :
    wp (some <$> m) (fun o _ => ∀ r, o = some r → r.WellFormed) (fun _ => True) s := by
  rw [wp_map]
  refine wp_post (h s) ?_
  rintro r _ hr _ ⟨⟩
  exact hr

variable (hp : ∀ x ∈ pool, x.WellFormed)

include hp

theorem unary_wp {op : JSBigInt t → Run t (JSBigInt t)} {i : Nat}
    (h : ∀ x, x.WellFormed → Produces (op x)) :
    wp (unary pool i op) (fun o _ => ∀ r, o = some r → r.WellFormed) (fun _ => True) s := by
  unfold unary
  cases hi : pool[i]? with
  | none => rintro r ⟨⟩
  | some x => exact some_wp (h x (hp x (mem_of_getElem? hi)))

theorem binary_wp {op : JSBigInt t → JSBigInt t → Run t (JSBigInt t)} {i j : Nat}
    (h : ∀ x y, x.WellFormed → y.WellFormed → Produces (op x y)) :
    wp (binary pool i j op) (fun o _ => ∀ r, o = some r → r.WellFormed) (fun _ => True) s := by
  unfold binary
  cases hi : pool[i]? with
  | none => rintro r ⟨⟩
  | some x =>
    cases hj : pool[j]? with
    | none => rintro r ⟨⟩
    | some y =>
      exact some_wp (h x y (hp x (mem_of_getElem? hi)) (hp y (mem_of_getElem? hj)))

/-- One step: from well-formed operands every operation that trims gives a well-formed cell. -/
theorem evaluate_wp {c : Command} (hc : c.Trims t) :
    wp (evaluate pool c) (fun o _ => ∀ r, o = some r → r.WellFormed) (fun _ => True) s := by
  have hone := le_trans one_le_two (two_le_maxLength (t := t))
  cases c with
  | createFromInt32 v =>
    exact some_wp (produces_of_denotes (fun _ => False) hone (fun _ => createFromInt32_wp v))
  | createFromUInt32 v =>
    exact some_wp (produces_of_denotes (fun _ => False) hone (fun _ => createFromUInt32_wp v))
  | createFromInt64 v =>
    refine some_wp (fun s => wp_mono (createFromInt64_wellFormed_wp v) ?_ (fun _ _ => trivial))
    exact fun r _ hr => hr.mpr hc
  | createFromBool v =>
    exact some_wp (produces_of_denotes (fun _ => False) hone (fun _ => createFromBool_wp v))
  | parseInt text mode =>
    exact wp_mono (parseInt_wp text) (fun o _ ho => parsed_wellFormed ho) (fun _ _ => trivial)
  | parseIntWithRadix exec text radix mode sign =>
    exact wp_mono (parseIntFrom_wp (Nat.zero_le _) radix.2) (fun o _ ho => parsed_wellFormed ho)
      (fun _ _ => trivial)
  | unaryMinus x =>
    exact unary_wp hp (fun x hx =>
      produces_of_denotes (fun _ => False) hx.length_le (fun _ => unaryMinus_wp hx.canonical))
  | bitwiseNot x =>
    exact unary_wp hp (fun x hx =>
      produces_of_denotes _ (max_le hx.length_le le_rfl) (fun _ => bitwiseNot_wp hx.canonical))
  | add x y =>
    exact binary_wp hp (fun x y hx hy =>
      produces_of_denotes _ (max_length_le hx hy) (fun _ => add_wp hx.canonical hy.canonical))
  | sub x y =>
    exact binary_wp hp (fun x y hx hy =>
      produces_of_denotes _ (max_length_le hx hy) (fun _ => sub_wp hx.canonical hy.canonical))
  | multiply x y =>
    exact binary_wp hp (fun x y hx hy =>
      produces_of_denotes _ (max_length_le hx hy) (fun _ => multiply_wp hx.canonical hy.canonical))
  | divide x y => exact binary_wp hp (fun _ _ => divide_produces)
  | remainder x y => exact binary_wp hp (fun _ _ => remainder_produces)
  | bitwiseAnd x y =>
    exact binary_wp hp (fun x y hx hy =>
      produces_of_denotes _ (max_length_le hx hy)
        (fun _ => bitwiseAnd_wp hx.canonical hy.canonical))
  | bitwiseOr x y =>
    exact binary_wp hp (fun x y hx hy =>
      produces_of_denotes _ (max_length_le hx hy) (fun _ => bitwiseOr_wp hx.canonical hy.canonical))
  | bitwiseXor x y =>
    exact binary_wp hp (fun x y hx hy =>
      produces_of_denotes _ (max_length_le hx hy)
        (fun _ => bitwiseXor_wp hx.canonical hy.canonical))
  | leftShift x y => exact binary_wp hp (fun _ _ => leftShift_produces)
  | signedRightShift x y => exact binary_wp hp (fun _ _ => signedRightShift_produces)

end Operations

section Runs

variable {pool : List (JSBigInt t)}

theorem step_wellFormed {s : Step t} (hp : ∀ x ∈ pool, x.WellFormed)
    (hs : s.command.Trims t) : ∀ x ∈ step pool s, x.WellFormed := by
  have h := evaluate_wp (s := s.heap) hp hs
  unfold step
  split
  · next r _ hr =>
    intro x hx
    rcases mem_append.mp hx with hx | hx
    · exact hp x hx
    · rw [mem_singleton.mp hx]
      exact wp_ok h hr r rfl
  · exact hp

/-- Cells are never taken back. -/
theorem mem_step {s : Step t} {x : JSBigInt t} (hx : x ∈ pool) : x ∈ step pool s := by
  unfold step
  split
  · exact mem_append_left _ hx
  · exact hx

theorem mem_foldl_step {x : JSBigInt t} (steps : List (Step t)) :
    ∀ {pool : List (JSBigInt t)}, x ∈ pool → x ∈ steps.foldl step pool := by
  induction steps with
  | nil => exact fun hx => hx
  | cons s steps ih => exact fun hx => ih (mem_step hx)

/-- A step that leaves a leading zero behind does return. -/
theorem step_not_wellFormed (pool : List (JSBigInt t)) {s : Step t} (hs : ¬ s.command.Trims t) :
    ∃ x ∈ step pool s, ¬ x.WellFormed := by
  obtain ⟨command, heap⟩ := s
  cases command with
  | createFromInt64 v =>
    obtain ⟨r, s', hr, hiff⟩ := wp_returns (createFromInt64_wellFormed_wp (s := heap) v)
    have he : evaluate pool (.createFromInt64 v) heap = .ok (some r, s') := by
      change (some <$> createFromInt64 v) heap = _
      simp only [Functor.map, StateT.map, hr]
      rfl
    refine ⟨r, ?_, fun h => hs (hiff.mp h)⟩
    rw [step, he]
    exact mem_append_right _ (mem_singleton_self r)
  | _ => exact absurd trivial hs

/-- A run keeps every cell well formed exactly when each of its steps trims. -/
theorem run_wellFormed_iff (steps : List (Step t)) :
    ∀ {pool : List (JSBigInt t)}, (∀ x ∈ pool, x.WellFormed) →
      ((∀ x ∈ steps.foldl step pool, x.WellFormed) ↔ ∀ s ∈ steps, s.command.Trims t) := by
  induction steps with
  | nil =>
    intro pool hp
    exact iff_of_true hp (fun s hs => absurd hs not_mem_nil)
  | cons s steps ih =>
    intro pool hp
    rw [foldl_cons, forall_mem_cons]
    by_cases hs : s.command.Trims t
    · rw [ih (step_wellFormed hp hs)]
      exact ⟨fun h => ⟨hs, h⟩, fun h => h.2⟩
    · obtain ⟨x, hx, hbad⟩ := step_not_wellFormed pool hs
      exact iff_of_false (fun h => hbad (h x (mem_foldl_step steps hx))) (fun h => hs h.1)

/-- What a caller relies on: every cell is canonical and within the length limit, `equals` is
equality of integers and `compare` their order. -/
structure Consistent (pool : List (JSBigInt t)) : Prop where
  canonical : ∀ x ∈ pool, x.Canonical
  length_le : ∀ x ∈ pool, x.length ≤ t.maxLength
  equals_exact : ∀ x ∈ pool, ∀ y ∈ pool, ∀ heap,
    wp (equals x y) (fun b _ => b = true ↔ x.toInt = y.toInt) (fun _ => False) heap
  compare_exact : ∀ x ∈ pool, ∀ y ∈ pool, ∀ heap,
    wp (compare x y) (fun r _ => r = .of x.toInt y.toInt) (fun _ => False) heap

theorem consistent_iff : Consistent pool ↔ ∀ x ∈ pool, x.WellFormed := by
  constructor
  · intro h x hx
    exact ⟨h.canonical x hx, h.length_le x hx⟩
  intro h
  refine ⟨fun x hx => (h x hx).canonical, fun x hx => (h x hx).length_le, ?_, ?_⟩
  · intro x hx y hy heap
    exact equals_wp (h x hx).canonical (h y hy).canonical
  · intro x hx y hy heap
    exact compare_wp (h x hx).canonical (h y hy).canonical

/-- A sequence of operations is consistent exactly when every cell it makes from an `int64_t`
fills the digits it is given. -/
theorem run_consistent_iff (steps : List (Step t)) :
    Consistent (run steps) ↔ ∀ s ∈ steps, s.command.Trims t := by
  rw [consistent_iff]
  exact run_wellFormed_iff steps (fun x hx => absurd hx not_mem_nil)

/-- With 32-bit digits `BigInt(-3000000000)` is not equal to `-3000000000n`. -/
theorem run_createFromInt64_untrimmed :
    let heap : Heap ⟨false, false, false⟩ := ⟨0, fun _ _ => 0⟩
    run [⟨.createFromInt64 (-3000000000), heap⟩, ⟨.createFromUInt32 3000000000, heap⟩,
        ⟨.unaryMinus 1, heap⟩] =
      [⟨true, [3000000000, 0]⟩, ⟨false, [3000000000]⟩, ⟨true, [3000000000]⟩] ∧
    (equals (t := ⟨false, false, false⟩) ⟨true, [3000000000, 0]⟩ ⟨true, [3000000000]⟩ heap).map
      Prod.fst = .ok false ∧
    toInt (t := ⟨false, false, false⟩) ⟨true, [3000000000, 0]⟩ =
      toInt (t := ⟨false, false, false⟩) ⟨true, [3000000000]⟩ := by
  decide

end Runs

end JavaScriptCore.Runtime.JSBigInt
