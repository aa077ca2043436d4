import Mathlib.Data.Prod.Lex
import Mathlib.Tactic.Linarith

/-!
# Comparing media times

`wtf/MediaTime.cpp:79-88, 356-448`. A finite time is a fraction, and two of them are compared by
shortcuts, by a checked product and by the whole and remaining parts. The shortcut for equal values
is that of positive ones, and the product of remaining parts is not checked.
-/

namespace JavaScriptCore.Wtf

/-- A time that is not stored as a double, with the flags that `compare` reads. -/
structure MediaTime where
  timeValue : BitVec 64
  timeScale : BitVec 32
  valid : Bool
  positiveInfinite : Bool
  negativeInfinite : Bool
  indefinite : Bool
  deriving DecidableEq, Repr

namespace MediaTime

def positiveInfiniteTime : MediaTime := ⟨0, 1, true, true, false, false⟩

def negativeInfiniteTime : MediaTime := ⟨-1, 1, true, false, true, false⟩

def indefiniteTime : MediaTime := ⟨0, 1, true, false, false, true⟩

def invalidTime : MediaTime := ⟨-1, 1, false, false, false, false⟩

/-- The constructor with a value, a scale and the flag `Valid`. -/
def create (value : BitVec 64) (scale : BitVec 32) : MediaTime :=
  if scale ≠ 0 then ⟨value, scale, true, false, false, false⟩
  else if value.toInt < 0 then negativeInfiniteTime else positiveInfiniteTime

/-- `safeMultiply` of two `int64_t`. -/
def safeMultiply (lhs rhs : Int) : Option Int :=
  if -2 ^ 63 ≤ lhs * rhs ∧ lhs * rhs < 2 ^ 63 then some (lhs * rhs) else none

def compareFactors (lhsFactor rhsFactor : Int) : Ordering :=
  if lhsFactor = rhsFactor then .eq else if lhsFactor < rhsFactor then .lt else .gt

/-- The whole parts, and the remaining ones multiplied in `int64_t`. -/
def compareParts (v s v' s' : Int) : Ordering :=
  if v.tdiv s > v'.tdiv s' then .gt
  else if v.tdiv s < v'.tdiv s' then .lt
  else compareFactors ((v.tmod s * s').bmod (2 ^ 64)) ((v'.tmod s' * s).bmod (2 ^ 64))

/-- `v` and `s` are the value and the scale on the left, `v'` and `s'` those on the right. -/
def compareFinite (v s v' s' : Int) : Ordering :=
  if decide (v < 0) ≠ decide (v' < 0) then if v < 0 then .lt else .gt
  else if v = 0 ∧ v' = 0 then .eq
  else if s = s' then compareFactors v v'
  else if v = v' then if s < s' then .gt else .lt
  else if 0 ≤ v ∧ v < v' ∧ s' < s then .lt
  else if 0 ≤ v ∧ v' < v ∧ s < s' then .gt
  else if v < 0 ∧ v < v' ∧ s < s' then .lt
  else if v < 0 ∧ v' < v ∧ s' < s then .gt
  else match safeMultiply v s', safeMultiply v' s with
    | some lhsFactor, some rhsFactor => compareFactors lhsFactor rhsFactor
    | _, _ => compareParts v s v' s'

def compare (lhs rhs : MediaTime) : Ordering :=
  if lhs.positiveInfinite && rhs.positiveInfinite || lhs.negativeInfinite && rhs.negativeInfinite ||
      lhs.indefinite && rhs.indefinite then .eq
  else if !(lhs.valid || rhs.valid) then .eq
  else if !(lhs.valid && rhs.valid) then if lhs.valid then .lt else .gt
  else if lhs.negativeInfinite || rhs.negativeInfinite then
    if lhs.negativeInfinite then .lt else .gt
  else if lhs.positiveInfinite || rhs.positiveInfinite then
    if lhs.positiveInfinite then .gt else .lt
  else if lhs.indefinite || rhs.indefinite then if lhs.indefinite then .gt else .lt
  else compareFinite lhs.timeValue.toInt lhs.timeScale.toNat rhs.timeValue.toInt rhs.timeScale.toNat

/-! ## Fractions -/

section

variable {v s v' s' : Int}

theorem compareFactors_eq (x y : Int) : compareFactors x y = cmp x y := by
  rw [compareFactors]
  obtain h | h | h := lt_trichotomy x y
  · rw [if_neg h.ne, if_pos h, h.cmp_eq_lt]
  · rw [if_pos h, h.cmp_eq_eq]
  · rw [if_neg h.ne', if_neg h.not_gt, h.cmp_eq_gt]

/-- A greater whole part outweighs the remaining parts, which have one sign. -/
theorem cross_lt {q r q' r' : Int} (hs : 0 < s) (hs' : 0 < s') (hq : q < q')
    (hr : 0 ≤ r' ∧ r < s ∨ r ≤ 0 ∧ -s' < r') : (s * q + r) * s' < (s' * q' + r') * s := by
  have hp : s * s' * 1 ≤ s * s' * (q' - q) :=
    mul_le_mul_of_nonneg_left (by omega) (mul_pos hs hs').le
  have hm : r * s' < (s' + r') * s := by
    obtain ⟨h', h⟩ | ⟨h, h'⟩ := hr
    · calc r * s' < s * s' := mul_lt_mul_of_pos_right h hs'
        _ = s' * s := mul_comm _ _
        _ ≤ (s' + r') * s := mul_le_mul_of_nonneg_right (by omega) hs.le
    · calc r * s' ≤ 0 := mul_nonpos_of_nonpos_of_nonneg h hs'.le
        _ < (s' + r') * s := mul_pos (by omega) hs
  linarith

/-- The sign of a remaining part is that of the value. -/
theorem tmod_bounds (hs : 0 < s) :
    (0 ≤ v → 0 ≤ v.tmod s) ∧ (v < 0 → v.tmod s ≤ 0) ∧ -s < v.tmod s ∧ v.tmod s < s := by
  have hl := Int.tmod_lt_of_pos v hs
  have hn := Int.tmod_lt_of_pos (-v) hs
  rw [Int.neg_tmod] at hn
  refine ⟨Int.tmod_nonneg s, fun h => ?_, by omega, hl⟩
  have := Int.tmod_nonneg s (show 0 ≤ -v by omega)
  rw [Int.neg_tmod] at this
  omega

/-- The values and scales for which `compare` comes to the whole and remaining parts. -/
def ReachesParts (v s v' s' : Int) : Prop :=
  (v < 0 ↔ v' < 0) ∧ s ≠ s' ∧ v ≠ v' ∧ (0 ≤ v → (v < v' ↔ s < s')) ∧
    (v < 0 → (v < v' ↔ s' < s)) ∧ (safeMultiply v s' = none ∨ safeMultiply v' s = none)

/-- Where the remaining parts are compared, their products fit in an `int64_t`. -/
def PartsFit (v s v' s' : Int) : Prop :=
  ReachesParts v s v' s' → v.tdiv s = v'.tdiv s' →
    (safeMultiply (v.tmod s) s').isSome ∧ (safeMultiply (v'.tmod s') s).isSome

theorem PartsFit.symm (h : PartsFit v s v' s') : PartsFit v' s' v s := by
  intro hr hq
  obtain ⟨hsign, hs, hv, hpos, hneg, hover⟩ := hr
  exact (h ⟨hsign.symm, hs.symm, hv.symm, by omega, by omega, hover.symm⟩ hq.symm).symm

theorem bmod_product {x y : Int} (h : (safeMultiply x y).isSome) :
    (x * y).bmod (2 ^ 64) = x * y := by
  rw [safeMultiply] at h
  split_ifs at h with hfit
  · exact Int.bmod_eq_of_le (by omega) (by omega)
  · cases h

theorem compareParts_eq (hs : 0 < s) (hs' : 0 < s') (hfit : PartsFit v s v' s')
    (hr : ReachesParts v s v' s') : compareParts v s v' s' = cmp (v * s') (v' * s) := by
  have hsign := hr.1
  obtain ⟨hn, hz, hb⟩ := tmod_bounds (v := v) hs
  obtain ⟨hn', hz', hb'⟩ := tmod_bounds (v := v') hs'
  have hv := Int.mul_tdiv_add_tmod v s
  have hv' := Int.mul_tdiv_add_tmod v' s'
  rw [compareParts]
  obtain h | hq | h := lt_trichotomy (v.tdiv s) (v'.tdiv s')
  · have hlt := @cross_lt _ _ _ (v.tmod s) _ (v'.tmod s') hs hs' h (by omega)
    rw [hv, hv'] at hlt
    rw [if_neg h.not_gt, if_pos h, hlt.cmp_eq_lt]
  · obtain ⟨hl, hl'⟩ := hfit hr hq
    rw [if_neg hq.not_gt, if_neg hq.not_lt, bmod_product hl, bmod_product hl', compareFactors_eq]
    nth_rewrite 2 [← hv]
    nth_rewrite 2 [← hv']
    rw [add_mul, add_mul, hq, mul_right_comm, mul_right_comm s', mul_comm s, cmp_add_left]
  · have hlt := @cross_lt _ _ _ (v'.tmod s') _ (v.tmod s) hs' hs h (by omega)
    rw [hv, hv'] at hlt
    rw [if_pos h, hlt.cmp_eq_gt]

theorem compareFinite_eq (hs : 0 < s) (hs' : 0 < s') (hfit : PartsFit v s v' s')
    (hv : v = v' → v < 0 → s = s') : compareFinite v s v' s' = cmp (v * s') (v' * s) := by
  have lt (h : v * s' < v' * s) : .lt = cmp (v * s') (v' * s) := h.cmp_eq_lt.symm
  have gt (h : v' * s < v * s') : .gt = cmp (v * s') (v' * s) := h.cmp_eq_gt.symm
  rw [compareFinite]
  generalize ho : cmp (v * s') (v' * s) = o at lt gt ⊢
  split_ifs with hsign hneg hzero hscale hvalue hless h1 h2 h3 h4
  · have hn : 0 ≤ v' := by simpa [hneg] using hsign
    exact lt ((mul_neg_of_neg_of_pos hneg hs').trans_le (mul_nonneg hn hs.le))
  · have hn : v' < 0 := by simpa [hneg] using hsign
    exact gt ((mul_neg_of_neg_of_pos hn hs).trans_le (mul_nonneg (not_lt.mp hneg) hs'.le))
  · rw [← ho, hzero.1, hzero.2, zero_mul, zero_mul, cmp_self_eq_eq]
  · rw [← ho, compareFactors_eq, hscale, cmp_mul_pos_right hs']
  · exact gt (hvalue ▸ mul_lt_mul_of_pos_left hless (by omega))
  · exact lt (hvalue ▸ mul_lt_mul_of_pos_left (by omega) (by omega))
  · exact lt ((mul_le_mul_of_nonneg_left h1.2.2.le h1.1).trans_lt
      (mul_lt_mul_of_pos_right h1.2.1 hs))
  · exact gt ((mul_lt_mul_of_pos_right h2.2.1 hs).trans_le
      (mul_le_mul_of_nonneg_left h2.2.2.le h2.1))
  · exact lt ((mul_lt_mul_of_neg_left h3.2.2 h3.1).trans (mul_lt_mul_of_pos_right h3.2.1 hs))
  · exact gt ((mul_lt_mul_of_pos_right h4.2.1 hs).trans (mul_lt_mul_of_neg_left h4.2.2 h4.1))
  · split
    · rename_i hl hr
      rw [safeMultiply, Option.ite_none_right_eq_some] at hl hr
      rw [← ho, compareFactors_eq, ← Option.some.inj hl.2, ← Option.some.inj hr.2]
    · rename_i hnone
      have hover : safeMultiply v s' = none ∨ safeMultiply v' s = none := by
        cases hl : safeMultiply v s' with
        | none => exact .inl rfl
        | some l => exact .inr (Option.eq_none_iff_forall_ne_some.mpr fun r hr => hnone l r hl hr)
      exact ho ▸ compareParts_eq hs hs' hfit
        ⟨by simpa using hsign, hscale, hvalue, by omega, by omega, hover⟩

/-- Of two equal negative values, the one with the smaller scale is found greater and is less. -/
theorem compareFinite_negative (hv : v < 0) (hne : s ≠ s') :
    compareFinite v s v s' ≠ cmp (v * s') (v * s) := by
  rw [compareFinite, if_neg (by simp), if_neg (by omega), if_neg hne, if_pos rfl]
  by_cases hless : s < s'
  · rw [if_pos hless, (mul_lt_mul_of_neg_left hless hv).cmp_eq_lt]
    decide
  · rw [if_neg hless, (mul_lt_mul_of_neg_left (show s' < s by omega) hv).cmp_eq_gt]
    decide

theorem cmp_div {s s' : Nat} (hs : 0 < s) (hs' : 0 < s') :
    cmp ((v : ℚ) / s) (v' / s') = cmp (v * s') (v' * s) := by
  have hn : (s : ℚ) ≠ 0 := by positivity
  have hn' : (s' : ℚ) ≠ 0 := by positivity
  have hp : (0 : ℚ) < s * s' := by positivity
  rw [← cmp_mul_pos_right hp, ← mul_assoc, div_mul_cancel₀ _ hn, mul_comm (s : ℚ), ← mul_assoc,
    div_mul_cancel₀ _ hn', ← (Int.cast_strictMono (R := ℚ)).cmp_map_eq,
    Int.cast_mul, Int.cast_mul]
  rfl

end

/-! ## The order of times -/

/-- One kind of time each, the finite ones with a scale. -/
structure WellFormed (time : MediaTime) : Prop where
  kind : [!time.valid, time.positiveInfinite, time.negativeInfinite, time.indefinite].count true ≤ 1
  scale : time.valid = true → time.timeScale ≠ 0

theorem wellFormed_create (value : BitVec 64) (scale : BitVec 32) :
    WellFormed (create value scale) := by
  rw [create]
  split_ifs with hs hn
  · exact ⟨Nat.zero_le _, fun _ => hs⟩
  · exact ⟨by decide, by decide⟩
  · exact ⟨by decide, by decide⟩

/-- Before the finite times, among them, or after them. -/
def level (time : MediaTime) : Nat :=
  if !time.valid then 4 else if time.positiveInfinite then 3 else if time.indefinite then 2
  else if time.negativeInfinite then 0 else 1

def rank (time : MediaTime) : Nat ×ₗ ℚ :=
  toLex (time.level, if time.level = 1 then time.timeValue.toInt / time.timeScale.toNat else 0)

/-- If both times are finite, no product of their remaining parts overflows. -/
def NoOverflow (lhs rhs : MediaTime) : Prop :=
  lhs.level = 1 → rhs.level = 1 →
    PartsFit lhs.timeValue.toInt lhs.timeScale.toNat rhs.timeValue.toInt rhs.timeScale.toNat

/-- If both times are finite, equal negative values have equal scales. -/
def Comparable (lhs rhs : MediaTime) : Prop :=
  lhs.level = 1 → rhs.level = 1 →
    lhs.timeValue = rhs.timeValue → lhs.timeValue.toInt < 0 → lhs.timeScale = rhs.timeScale

variable {a b c : MediaTime}

theorem Comparable.symm (h : Comparable a b) : Comparable b a :=
  fun hb ha hv hn => (h ha hb hv.symm (hv ▸ hn)).symm

theorem NoOverflow.symm (h : NoOverflow a b) : NoOverflow b a := fun hb ha => (h ha hb).symm

theorem WellFormed.scale_pos (h : WellFormed a) (hf : a.level = 1) :
    0 < a.timeScale.toNat := by
  cases hv : a.valid with
  | false => simp [level, hv] at hf
  | true =>
    exact Nat.pos_of_ne_zero fun hz => h.scale hv (BitVec.eq_of_toNat_eq hz)

theorem cmp_toLex (k k' : Nat) (x y : ℚ) :
    cmp (toLex (k, x)) (toLex (k', y)) = (cmp k k').then (cmp x y) := by
  rcases lt_trichotomy k k' with h | rfl | h
  · rw [h.cmp_eq_lt]
    exact (Prod.Lex.toLex_lt_toLex.mpr (.inl h)).cmp_eq_lt
  · have hm : StrictMono fun z : ℚ => toLex (k, z) := fun z z' h =>
      Prod.Lex.toLex_lt_toLex.mpr (.inr ⟨rfl, h⟩)
    rw [cmp_self_eq_eq]
    exact hm.cmp_map_eq x y
  · rw [h.cmp_eq_gt]
    exact (Prod.Lex.toLex_lt_toLex.mpr (.inl h)).cmp_eq_gt

theorem compare_eq_then (ha : WellFormed a) (hb : WellFormed b) :
    compare a b = (cmp a.level b.level).then (if a.level = 1 then compareFinite a.timeValue.toInt
      a.timeScale.toNat b.timeValue.toInt b.timeScale.toNat else .eq) := by
  obtain ⟨v, s, valid, positive, negative, indefinite⟩ := a
  obtain ⟨v', s', valid', positive', negative', indefinite'⟩ := b
  have hk := ha.kind
  have hk' := hb.kind
  dsimp only at hk hk'
  -- the kinds of `a`, and for each of them those of `b`
  cases valid <;> cases positive <;> cases negative <;> cases indefinite <;>
    first | exact absurd hk (by decide) | skip
  all_goals
    cases valid' <;> cases positive' <;> cases negative' <;> cases indefinite' <;>
      first | exact absurd hk' (by decide) | rfl

theorem compare_eq_cmp_iff (ha : WellFormed a) (hb : WellFormed b) (hfit : NoOverflow a b) :
    compare a b = cmp a.rank b.rank ↔ Comparable a b := by
  rw [compare_eq_then ha hb, rank, rank, cmp_toLex]
  by_cases hl : a.level = b.level
  · rw [hl, cmp_self_eq_eq, Ordering.eq_then, Ordering.eq_then]
    by_cases hf : b.level = 1
    · have hs := ha.scale_pos (hl.trans hf)
      have hs' := hb.scale_pos hf
      rw [if_pos hf, if_pos hf, if_pos hf, cmp_div hs hs']
      constructor
      · intro h _ _ hv hn
        by_contra hne
        rw [← hv] at h
        exact compareFinite_negative hn (mod_cast fun h => hne (BitVec.eq_of_toNat_eq h)) h
      · intro h
        refine compareFinite_eq (mod_cast hs) (mod_cast hs') (hfit (hl.trans hf) hf) fun hv hn => ?_
        exact_mod_cast congrArg BitVec.toNat (h (hl.trans hf) hf (BitVec.eq_of_toInt_eq hv) hn)
    · rw [if_neg hf, if_neg hf, if_neg hf, cmp_self_eq_eq]
      exact iff_of_true rfl fun _ h => absurd h hf
  · refine iff_of_true ?_ fun h h' => absurd (h.trans h'.symm) hl
    rcases lt_or_gt_of_ne hl with h | h
    · rw [h.cmp_eq_lt]
      rfl
    · rw [h.cmp_eq_gt]
      rfl

/-- Finite times are in the order of their fractions, and with the other times in one order, exactly
if no two equal negative values have different scales. -/
theorem compare_order (a b c : MediaTime) (ha : WellFormed a) (hb : WellFormed b)
    (hc : WellFormed c) (hab : NoOverflow a b) (hbc : NoOverflow b c) (hac : NoOverflow a c) :
    (compare a b = cmp a.rank b.rank ↔ Comparable a b) ∧
      (Comparable a b → compare b a = (compare a b).swap) ∧
      (Comparable a b → Comparable b c → Comparable a c →
        compare a b ≠ .gt → compare b c ≠ .gt → compare a c ≠ .gt) := by
  refine ⟨compare_eq_cmp_iff ha hb hab, fun h => ?_, fun h h' h'' => ?_⟩
  · rw [(compare_eq_cmp_iff ha hb hab).mpr h, (compare_eq_cmp_iff hb ha hab.symm).mpr h.symm,
      cmp_swap]
  · rw [(compare_eq_cmp_iff ha hb hab).mpr h, (compare_eq_cmp_iff hb hc hbc).mpr h',
      (compare_eq_cmp_iff ha hc hac).mpr h'', Ne, Ne, Ne, cmp_eq_gt_iff, cmp_eq_gt_iff,
      cmp_eq_gt_iff, not_lt, not_lt, not_lt]
    exact le_trans

/-- Two times with the greatest scales, whose products are checked, and the end of time. -/
theorem compare_order_checked :
    let a := create 1 4294967295
    let b := create 2 4294967294
    compare a b = .lt ∧ (compare a b = cmp a.rank b.rank ↔ Comparable a b) ∧
      (Comparable a b → Comparable b positiveInfiniteTime → Comparable a positiveInfiniteTime →
        compare a b ≠ .gt → compare b positiveInfiniteTime ≠ .gt →
        compare a positiveInfiniteTime ≠ .gt) := by
  intro a b
  have h := compare_order a b positiveInfiniteTime (wellFormed_create ..) (wellFormed_create ..)
    ⟨by decide, by decide⟩ (fun _ _ hr => absurd hr.2.2.2.2.2 (by decide))
    (fun _ h => absurd h (by decide)) (fun _ h => absurd h (by decide))
  exact ⟨by decide, h.1, h.2.2⟩

/-- Minus one comes after minus one half, and a product of remaining parts overflows. -/
theorem compare_wrong :
    compare (create (-1) 1) (create (-1) 2) = .gt ∧
      cmp (create (-1) 1).rank (create (-1) 2).rank = .lt ∧
      compare (create 4611686021648613374 4294967295)
        (create 4611686016279904257 4294967294) = .lt ∧
      cmp (create 4611686021648613374 4294967295).rank
        (create 4611686016279904257 4294967294).rank = .gt := by
  decide +kernel

end MediaTime

end JavaScriptCore.Wtf
