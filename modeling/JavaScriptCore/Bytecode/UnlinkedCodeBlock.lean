import JavaScriptCore.ProgramLogic.Simulation
import Mathlib.Algebra.Group.Int.Defs
import Mathlib.Algebra.Group.Nat.Defs
import Mathlib.Data.List.Induction

/-!
# Source positions of bytecode

`bytecode/ExpressionRangeInfo.h:32-106` and `bytecode/UnlinkedCodeBlock.cpp:123-267`: the table that
leads from the offset of an instruction to the expression it belongs to. The entries are records of
bit fields. A line and a column that do not fit into the field of the position go to a vector beside
the table, and the field has their index. The vectors are lists here; a value of the type `int` is
an integer, and an assignment to a bit field takes it modulo the width of the field.
-/

namespace JavaScriptCore.Bytecode

open JavaScriptCore.ProgramLogic List Nat

inductive PositionMode where
  | fatLineMode
  | fatColumnMode
  | fatLineAndColumnMode
  deriving DecidableEq, Repr

structure ExpressionRangeInfo where
  instructionOffset : Nat
  startOffset : Nat
  divotPoint : Nat
  endOffset : Nat
  mode : PositionMode
  position : Nat
  deriving DecidableEq, Repr

/-- What is recorded for an instruction and what a query returns. -/
structure ExpressionRange where
  divot : Int
  startOffset : Int
  endOffset : Int
  line : Nat
  column : Nat
  deriving DecidableEq, Repr

def maxOffset : Int := 2 ^ 7 - 1

def maxDivot : Int := 2 ^ 25 - 1

/-- The two encodings into the thirty bits of the position: a line above a column. -/
def encodePosition (lineBits columnBits line column : Nat) : Nat :=
  ((line &&& (2 ^ lineBits - 1)) <<< columnBits ||| (column &&& (2 ^ columnBits - 1))) % 2 ^ 30

def decodePosition (lineBits columnBits position : Nat) : Nat × Nat :=
  ((position >>> columnBits) &&& (2 ^ lineBits - 1), position &&& (2 ^ columnBits - 1))

def encodeFatLineMode (line column : Nat) : Nat := encodePosition 22 8 line column

def encodeFatColumnMode (line column : Nat) : Nat := encodePosition 8 22 line column

def decodeFatLineMode (position : Nat) : Nat × Nat := decodePosition 22 8 position

def decodeFatColumnMode (position : Nat) : Nat × Nat := decodePosition 8 22 position

/-- The overflow rules at the start of `addExpressionInfo`. -/
def ExpressionRange.clearOverflow (range : ExpressionRange) : ExpressionRange :=
  if range.divot > maxDivot then { range with divot := 0, startOffset := 0, endOffset := 0 }
  else if range.startOffset > maxOffset then { range with startOffset := 0, endOffset := 0 }
  else if range.endOffset > maxOffset then { range with endOffset := 0 }
  else range

/-- What the bit fields keep of it. -/
def ExpressionRange.inFields (range : ExpressionRange) : ExpressionRange :=
  { range with
    divot := range.divot % 2 ^ 25
    startOffset := range.startOffset % 2 ^ 7
    endOffset := range.endOffset % 2 ^ 7 }

def positionMode (line column : Nat) : PositionMode :=
  if line ≤ 2 ^ 22 - 1 ∧ column ≤ 2 ^ 8 - 1 then .fatLineMode
  else if line ≤ 2 ^ 8 - 1 ∧ column ≤ 2 ^ 22 - 1 then .fatColumnMode
  else .fatLineAndColumnMode

structure UnlinkedCodeBlock where
  expressionInfo : List ExpressionRangeInfo := []
  /-- Pairs of a line and a column. -/
  expressionInfoFatPositions : List (Nat × Nat) := []

namespace UnlinkedCodeBlock

/-- The position of an entry, and the fat positions with it. -/
def encode (fatPositions : List (Nat × Nat)) (line column : Nat) : Nat × List (Nat × Nat) :=
  match positionMode line column with
  | .fatLineMode => (encodeFatLineMode line column, fatPositions)
  | .fatColumnMode => (encodeFatColumnMode line column, fatPositions)
  | .fatLineAndColumnMode => (fatPositions.length % 2 ^ 30, fatPositions ++ [(line, column)])

def addExpressionInfo (block : UnlinkedCodeBlock) (instructionOffset : Nat)
    (range : ExpressionRange) : UnlinkedCodeBlock :=
  let kept := range.clearOverflow.inFields
  let encoded := encode block.expressionInfoFatPositions range.line range.column
  { expressionInfo := block.expressionInfo ++
      [{ instructionOffset := instructionOffset % 2 ^ 25
         divotPoint := kept.divot.toNat
         startOffset := kept.startOffset.toNat
         endOffset := kept.endOffset.toNat
         mode := positionMode range.line range.column
         position := encoded.1 }]
    expressionInfoFatPositions := encoded.2 }

/-- Nothing where the index is not one of the vector. -/
def getLineAndColumn (fatPositions : List (Nat × Nat)) (info : ExpressionRangeInfo) :
    Option (Nat × Nat) :=
  match info.mode with
  | .fatLineMode => some (decodeFatLineMode info.position)
  | .fatColumnMode => some (decodeFatColumnMode info.position)
  | .fatLineAndColumnMode => fatPositions[info.position]?

/-- The loop of the search, for what it asks of the entry in the middle. -/
def searchFrom (isNotAbove : Nat → Bool) (low high : Nat) : Nat :=
  if low < high then
    let mid := low + (high - low) / 2
    if isNotAbove mid then searchFrom isNotAbove (mid + 1) high
    else searchFrom isNotAbove low mid
  else low
termination_by high - low

/-- What is read from the entry before `low`. -/
def expressionRangeBefore (block : UnlinkedCodeBlock) (low : Nat) : Option ExpressionRange := do
  let info ← block.expressionInfo[(if low = 0 then 1 else low) - 1]?
  let (line, column) ← getLineAndColumn block.expressionInfoFatPositions info
  return ⟨info.divotPoint, info.startOffset, info.endOffset, line, column⟩

def expressionRangeForBytecodeOffset (block : UnlinkedCodeBlock) (bytecodeOffset : Nat) :
    Option ExpressionRange :=
  if block.expressionInfo.isEmpty then some ⟨0, 0, 0, 0, 0⟩
  else block.expressionRangeBefore (searchFrom
    (fun mid => block.expressionInfo[mid]?.any (·.instructionOffset ≤ bytecodeOffset))
    0 block.expressionInfo.length)

end UnlinkedCodeBlock

/-- An offset and what is recorded for it. -/
abbrev Addition := Nat × ExpressionRange

def UnlinkedCodeBlock.ofAdditions (additions : List Addition) : UnlinkedCodeBlock :=
  additions.foldl (fun block addition => block.addExpressionInfo addition.1 addition.2) {}

/-- The addition that a query is for: the one with the greatest offset not above it, the latest of
those with this offset, or the first of all if every offset is above it. -/
def IsSelected (additions : List Addition) (query index : Nat) : Prop :=
  (index = 0 ∧ ∀ addition ∈ additions, query < addition.1) ∨
    ∃ addition, additions[index]? = some addition ∧ addition.1 ≤ query ∧
      ∀ other addition', additions[other]? = some addition' → addition'.1 ≤ query →
        addition'.1 ≤ addition.1 ∧ (addition'.1 = addition.1 → other ≤ index)

/-- No value is negative. -/
abbrev ExpressionRange.Unsigned (range : ExpressionRange) : Prop :=
  0 ≤ range.divot ∧ 0 ≤ range.startOffset ∧ 0 ≤ range.endOffset

theorem decodePosition_encodePosition {lb cb line column : Nat}
    (hb : lb + cb = 30) (hl : line < 2 ^ lb) (hc : column < 2 ^ cb) :
    decodePosition lb cb (encodePosition lb cb line column) = (line, column) := by
  have hj : line <<< cb ||| column = line * 2 ^ cb + column := by
    rw [← shiftLeft_add_eq_or_of_lt hc, shiftLeft_eq]
  have hf : line * 2 ^ cb + column < 2 ^ 30 := by
    calc line * 2 ^ cb + column < (line + 1) * 2 ^ cb := by
          rw [succ_mul]
          omega
      _ ≤ 2 ^ lb * 2 ^ cb := mul_le_mul_right _ hl
      _ = 2 ^ 30 := by rw [← pow_add, hb]
  simp only [encodePosition, decodePosition, and_two_pow_sub_one_eq_mod,
    mod_eq_of_lt hl, mod_eq_of_lt hc, hj, mod_eq_of_lt hf,
    shiftRight_eq_div_pow, mul_add_mod_of_lt hc, Prod.mk.injEq, and_true]
  rw [Nat.mul_comm, mul_add_div (Nat.two_pow_pos _), div_eq_of_lt hc, Nat.add_zero, mod_eq_of_lt hl]

theorem searchFrom_spec {hna : Nat → Bool} {low high : Nat} (hle : low ≤ high)
    (hs : ∀ i j, i ≤ j → j < high → hna j = true → hna i = true) :
    low ≤ UnlinkedCodeBlock.searchFrom hna low high ∧
      UnlinkedCodeBlock.searchFrom hna low high ≤ high ∧
      ∀ i, low ≤ i → i < high →
        (hna i = true ↔ i < UnlinkedCodeBlock.searchFrom hna low high) := by
  fun_induction UnlinkedCodeBlock.searchFrom hna low high with
  | case1 low high hlt mid hmid ih =>
    obtain ⟨hlow, hh, hf⟩ := ih (by omega) hs
    refine ⟨by omega, hh, fun i hi hi' => ?_⟩
    by_cases hb : i ≤ mid
    · exact iff_of_true (hs i mid hb (by omega) hmid) (by omega)
    · exact hf i (by omega) hi'
  | case2 low high hlt mid hmid ih =>
    obtain ⟨hlow, hh, hf⟩ := ih (by omega) fun i j hij hj => hs i j hij (by omega)
    refine ⟨hlow, by omega, fun i hi hi' => ?_⟩
    by_cases hb : i < mid
    · exact hf i hi hb
    · exact iff_of_false (fun h => hmid (hs mid i (by omega) hi' h)) (by omega)
  | case3 low high hge =>
    exact ⟨Nat.le_refl _, hle, fun i hi hi' => by omega⟩

open ExpressionRange

variable (range : ExpressionRange)

theorem clearOverflow_lt : range.clearOverflow.divot < 2 ^ 25 ∧
    range.clearOverflow.startOffset < 2 ^ 7 ∧ range.clearOverflow.endOffset < 2 ^ 7 ∧
    range.clearOverflow.line = range.line ∧ range.clearOverflow.column = range.column := by
  unfold clearOverflow maxDivot maxOffset
  split_ifs <;> grind

/-- The overflow rules leave what fits into the fields, unless it is negative. -/
theorem inFields_clearOverflow_iff :
    range.clearOverflow.inFields = range.clearOverflow ↔ range.clearOverflow.Unsigned := by
  obtain ⟨hd, hs, he, -⟩ := clearOverflow_lt range
  generalize range.clearOverflow = kept at *
  cases kept
  simp only [inFields, ExpressionRange.Unsigned, mk.injEq, and_true] at *
  omega

namespace UnlinkedCodeBlock

variable {fat : List (Nat × Nat)}

theorem encode_spec (hlen : fat.length < 2 ^ 30) (line column : Nat) :
    ∃ more, (encode fat line column).2 = fat ++ more ∧ more.length ≤ 1 ∧
      ∀ info : ExpressionRangeInfo, info.mode = positionMode line column →
        info.position = (encode fat line column).1 →
          getLineAndColumn (fat ++ more) info = some (line, column) := by
  unfold encode getLineAndColumn positionMode
  split_ifs with hl hc
  case' neg =>
    refine ⟨[(line, column)], rfl, Nat.le_refl _, fun info hm hp => ?_⟩
    rw [hm, hp]
    rw [mod_eq_of_lt hlen, List.getElem?_concat_length]
  all_goals
    refine ⟨[], (append_nil _).symm, zero_le _, fun info hm hp => ?_⟩
    rw [hm, hp]
    exact congrArg some (decodePosition_encodePosition rfl (by omega) (by omega))

/-- An entry of the table for an addition. -/
structure Records (fatPositions : List (Nat × Nat)) (info : ExpressionRangeInfo)
    (addition : Addition) : Prop where
  offset : info.instructionOffset = addition.1
  divot : (info.divotPoint : Int) = addition.2.clearOverflow.inFields.divot
  startOffset : (info.startOffset : Int) = addition.2.clearOverflow.inFields.startOffset
  endOffset : (info.endOffset : Int) = addition.2.clearOverflow.inFields.endOffset
  position : getLineAndColumn fatPositions info = some (addition.2.line, addition.2.column)

variable {ad : Addition}

theorem Records.append {info : ExpressionRangeInfo} (h : Records fat info ad)
    (more : List (Nat × Nat)) : Records (fat ++ more) info ad := by
  refine { h with position := ?_ }
  have hp := h.position
  unfold getLineAndColumn at hp ⊢
  cases hm : info.mode <;> simp only [hm] at hp ⊢
  · exact hp
  · exact hp
  · rw [List.getElem?_append_left (List.getElem?_eq_some_iff.mp hp).1, hp]

/-- The block holds one entry for each addition, in their order. -/
structure Holds (additions : List Addition) (block : UnlinkedCodeBlock) : Prop where
  records : List.Forall₂ (Records block.expressionInfoFatPositions) block.expressionInfo additions
  length : block.expressionInfoFatPositions.length ≤ additions.length

variable {ads : List Addition}

theorem Holds.addExpressionInfo {block : UnlinkedCodeBlock}
    (h : Holds ads block) (ho : ad.1 < 2 ^ 25) (hlen : ads.length < 2 ^ 30) :
    Holds (ads ++ [ad]) (block.addExpressionInfo ad.1 ad.2) := by
  obtain ⟨more, hm, hone, hp⟩ := encode_spec (Nat.lt_of_le_of_lt h.length hlen)
    ad.2.line ad.2.column
  unfold UnlinkedCodeBlock.addExpressionInfo
  constructor
  · dsimp only
    rw [hm]
    refine rel_append (h.records.imp fun _ _ hr => hr.append more)
      (.cons ⟨mod_eq_of_lt ho, ?_, ?_, ?_, hp _ rfl rfl⟩ .nil)
    all_goals dsimp only [inFields]; omega
  · simp only [hm, length_append, length_singleton]
    exact Nat.add_le_add h.length hone

theorem holds_ofAdditions (hos : ∀ ad ∈ ads, ad.1 < 2 ^ 25) (hlen : ads.length ≤ 2 ^ 30) :
    Holds ads (ofAdditions ads) := by
  induction ads using reverseRecOn with
  | nil => exact ⟨.nil, Nat.le_refl _⟩
  | append_singleton ads ad ih =>
    rw [length_append, length_singleton] at hlen
    rw [forall_mem_append] at hos
    rw [ofAdditions, foldl_append]
    exact (ih hos.1 (by omega)).addExpressionInfo (hos.2 ad (by simp)) hlen

section Queries

variable {ads : List Addition} {block : UnlinkedCodeBlock} {low query : Nat}

theorem isSelected_before (hs : ads.Pairwise (·.1 ≤ ·.1))
    (hf : ∀ i (hi : i < ads.length), ads[i].1 ≤ query ↔ i < low)
    (hix : low - 1 < ads.length) : IsSelected ads query (low - 1) := by
  by_cases hz : low = 0
  · refine .inl ⟨by omega, fun ad hmem => ?_⟩
    obtain ⟨i, hi, rfl⟩ := getElem_of_mem hmem
    have hnot := (hf i hi).not
    omega
  · refine .inr ⟨_, List.getElem?_eq_getElem hix, (hf _ hix).mpr (by omega), ?_⟩
    intro other addition' ho hle
    obtain ⟨hb, rfl⟩ := List.getElem?_eq_some_iff.mp ho
    have hbe := (hf other hb).mp hle
    refine ⟨?_, fun _ => by omega⟩
    obtain heq | hlt : other = low - 1 ∨ other < low - 1 := by omega
    · exact Nat.le_of_eq (by simp only [heq])
    · exact pairwise_iff_getElem.mp hs _ _ hb hix hlt

theorem expressionRangeBefore_eq (h : Holds ads block) (ha : ads[low - 1]? = some ad) :
    block.expressionRangeBefore low = some ad.2.clearOverflow.inFields := by
  obtain ⟨info, hi, -, hd, hs, he, hp⟩ := forall₂_getElem? h.records ha
  obtain ⟨-, -, -, hl, hc⟩ := clearOverflow_lt ad.2
  have hlow : (if low = 0 then 1 else low) - 1 = low - 1 := by
    split_ifs <;> omega
  rw [expressionRangeBefore, hlow, hi]
  simp only [Option.bind_eq_bind, Option.bind_some, hp, hd, hs, he, ← hl, ← hc]
  rfl

/-- For additions in the order of their offsets the search finds the one that a query is for. It
returns its line and column, and the rest as the overflow rules and the widths of the fields leave
it. The widths change nothing exactly if none of the values is negative. -/
theorem expressionRange_eq_iff (additions : List Addition)
    (hs : additions.Pairwise (·.1 ≤ ·.1)) (ho : ∀ addition ∈ additions, addition.1 < 2 ^ 25)
    (hlen : additions.length ≤ 2 ^ 30) (query : Nat) :
    (additions = [] →
      (ofAdditions additions).expressionRangeForBytecodeOffset query = some ⟨0, 0, 0, 0, 0⟩) ∧
    (additions ≠ [] → ∃ index addition, additions[index]? = some addition ∧
      IsSelected additions query index ∧
      (ofAdditions additions).expressionRangeForBytecodeOffset query
        = some addition.2.clearOverflow.inFields ∧
      (addition.2.clearOverflow.inFields = addition.2.clearOverflow ↔
        addition.2.clearOverflow.Unsigned)) := by
  refine ⟨fun hnil => hnil ▸ rfl, fun hne => ?_⟩
  have hh := holds_ofAdditions ho hlen
  generalize ofAdditions additions = block at hh ⊢
  have hl := hh.records.length_eq
  have hp := length_pos_iff.mpr hne
  -- what the search asks of an entry is what it could ask of the addition
  have ha : ∀ i (hi : i < additions.length),
      (block.expressionInfo[i]?.any (·.instructionOffset ≤ query) = true ↔
        additions[i].1 ≤ query) := by
    intro i hi
    obtain ⟨info, hin, ho, -⟩ := forall₂_getElem? hh.records (List.getElem?_eq_getElem hi)
    rw [hin, Option.any_some, decide_eq_true_iff, ho]
  obtain ⟨-, hhi, hf⟩ := @searchFrom_spec
    (fun mid => block.expressionInfo[mid]?.any (·.instructionOffset ≤ query)) 0
    block.expressionInfo.length (zero_le _) fun i j hij hj hle => by
      obtain rfl | hlt := Nat.eq_or_lt_of_le hij
      · exact hle
      · rw [hl] at hj
        rw [ha j hj] at hle
        have hi := Nat.lt_trans hlt hj
        exact (ha i hi).mpr (Nat.le_trans (pairwise_iff_getElem.mp hs i j hi hj hlt) hle)
  rw [expressionRangeForBytecodeOffset, if_neg fun he => by
    rw [isEmpty_iff_length_eq_zero] at he
    omega]
  generalize searchFrom _ 0 block.expressionInfo.length = low at hhi hf ⊢
  rw [hl] at hhi hf
  have hix : low - 1 < additions.length := by omega
  exact ⟨low - 1, additions[low - 1], List.getElem?_eq_getElem hix,
    isSelected_before hs (fun i hi => (ha i hi).symm.trans (hf i (zero_le _) hi)) hix,
    expressionRangeBefore_eq hh (List.getElem?_eq_getElem hix), inFields_clearOverflow_iff _⟩

/-- The second of three additions is found; its end offset is too large to be kept. -/
theorem expressionRange_eq_iff_of_endOffset :
    (ofAdditions [(1, ⟨3, 1, 1, 4, 1⟩), (3, ⟨7, 2, 200, 5, 300⟩), (9, ⟨8, 0, 0, 6, 1⟩)]
      ).expressionRangeForBytecodeOffset 4 = some ⟨7, 2, 0, 5, 300⟩ := by
  obtain ⟨-, found⟩ := expressionRange_eq_iff
    [(1, ⟨3, 1, 1, 4, 1⟩), (3, ⟨7, 2, 200, 5, 300⟩), (9, ⟨8, 0, 0, 6, 1⟩)]
    (by decide) (by decide) (by decide) 4
  obtain ⟨index, addition, ha, hselected, hr, -⟩ := found (by simp)
  obtain ⟨-, hall⟩ | ⟨_, ha', hle, hgreatest⟩ := hselected
  · exact absurd (hall _ (.head _)) (by decide)
  -- offset 9 is too far, and offset 1 is not the greatest
  obtain ⟨hnear, -⟩ := hgreatest 1 _ rfl (by decide)
  cases ha.symm.trans ha'
  match index, ha with
  | 0, rfl => exact absurd hnear (by decide)
  | 1, rfl => exact hr
  | 2, rfl => exact absurd hle (by decide)

/-- A divot that is negative is returned as the greatest one. -/
theorem negative_divot_not_returned :
    (ofAdditions [(0, ⟨-1, 0, 0, 1, 1⟩)]).expressionRangeForBytecodeOffset 0
        = some ⟨33554431, 0, 0, 1, 1⟩ ∧
      clearOverflow ⟨-1, 0, 0, 1, 1⟩ = ⟨-1, 0, 0, 1, 1⟩ := by
  have hs (p : Nat → Bool) (hp : p 0 = true) : searchFrom p 0 1 = 1 := by
    simp [searchFrom, hp]
  exact ⟨(congrArg (expressionRangeBefore _) (hs _ rfl)).trans (by decide), by decide⟩

end Queries

end UnlinkedCodeBlock

end JavaScriptCore.Bytecode
