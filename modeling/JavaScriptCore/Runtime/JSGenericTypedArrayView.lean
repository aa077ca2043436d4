import Mathlib.Algebra.Group.Nat.Defs
import JavaScriptCore.ProgramLogic.ParallelAssignment

/-!
# Copying between typed arrays

`runtime/JSGenericTypedArrayViewInlines.h:159-313`. Views of one buffer may overlap, and so may
those of two buffers that share their memory. Elements of one type are moved by `memmove`, and those
of different sizes in one buffer go through a buffer of their own. Elements of one size are copied
in place, upwards or downwards as the views begin before or after each other; the offsets, which
also decide where the copied ranges begin, are not looked at, so that some copies read elements that
they have already written. Between two buffers it is always upwards.
-/

namespace JavaScriptCore.Runtime

open ProgramLogic List Nat

inductive TypedArrayType where
  | int8 | uint8 | uint8Clamped | int16 | uint16 | int32 | uint32 | float32 | float64
  deriving DecidableEq, Repr

def TypedArrayType.elementSize : TypedArrayType → Nat
  | .int8 | .uint8 | .uint8Clamped => 1
  | .int16 | .uint16 => 2
  | .int32 | .uint32 | .float32 => 4
  | .float64 => 8

/-- The bytes of a native value. -/
abbrev Native := List (BitVec 8)

/-- `OtherAdaptor::convertTo<Adaptor>`, on the bytes of native values. No conversion maps all values
to one. -/
structure Conversion where
  convertTo : (source target : TypedArrayType) → Native → Native
  length_convertTo : ∀ source target x, x.length = source.elementSize →
    (convertTo source target x).length = target.elementSize
  same : ∀ type x, convertTo type type x = x
  distinguishes : ∀ source target, ∃ x y, x.length = source.elementSize ∧
    y.length = source.elementSize ∧ convertTo source target x ≠ convertTo source target y

/-- A byte of memory: a storage that buffers and views have in common, and a position there. -/
abbrev Location := Nat × Nat

abbrev Memory := Location → BitVec 8

/-- A `JSGenericTypedArrayView`, with the number of its `existingBuffer` if it has one; `byteOffset`
is where its `vector()` points to in the storage. Its elements are aligned, and a storage has less
than `2 ^ 31` bytes. -/
structure TypedArrayView where
  type : TypedArrayType
  buffer : Option Nat
  storage : Nat
  byteOffset : Nat
  length : Nat
  aligned : byteOffset % type.elementSize = 0
  fits : byteOffset + length * type.elementSize < 2 ^ 31

inductive CopyType where
  | leftToRight | unordered
  deriving DecidableEq

inductive CopyOutcome where
  | done (memory : Memory)
  | rangeError (message : String)
  /-- A `RELEASE_ASSERT` that fails. -/
  | crash

namespace TypedArrayView

def hasArrayBuffer (view : TypedArrayView) : Bool := view.buffer.isSome

/-- Where an element begins in the storage. -/
def elementOffset (view : TypedArrayView) (i : Nat) : Nat :=
  view.byteOffset + i * view.type.elementSize

def getIndexQuicklyAsNativeValue (memory : Memory) (view : TypedArrayView) (i : Nat) : Native :=
  (range view.type.elementSize).map fun k => memory (view.storage, view.elementOffset i + k)

def setIndexQuicklyToNativeValue (memory : Memory) (view : TypedArrayView) (i : Nat)
    (value : Native) : Memory := fun (storage, k) =>
  if storage = view.storage ∧ view.elementOffset i ≤ k ∧
      k < view.elementOffset i + view.type.elementSize then
    value.getD (k - view.elementOffset i) 0
  else memory (storage, k)

def canAccessRangeQuickly (view : TypedArrayView) (offset length : Nat) : Bool :=
  offset ≤ view.length && (offset + length) % 2 ^ 32 ≤ view.length &&
    (offset + length) % 2 ^ 32 ≥ offset

section

variable (conversion : Conversion) (target source : TypedArrayView) (offset otherOffset : Nat)

/-- The body of the loops that copy in place. -/
def copyElement (i : Nat) (memory : Memory) : Memory :=
  setIndexQuicklyToNativeValue memory target (offset + i)
    (conversion.convertTo source.type target.type
      (getIndexQuicklyAsNativeValue memory source (i + otherOffset)))

/-- The second loop of the copy through a buffer. -/
def writeElement (transferBuffer : Nat → Native) (i : Nat) (memory : Memory) : Memory :=
  setIndexQuicklyToNativeValue memory target (offset + i) (transferBuffer i)

def setWithSpecificType (memory : Memory) (length : Nat) (type : CopyType) : CopyOutcome :=
  let length := min length source.length
  if !source.canAccessRangeQuickly otherOffset length then .crash
  else if !target.canAccessRangeQuickly offset length then
    .rangeError "Range consisting of offset and length are out of bounds"
  else if !target.hasArrayBuffer || !source.hasArrayBuffer || target.buffer ≠ source.buffer ||
      (target.type.elementSize = source.type.elementSize &&
        target.byteOffset ≤ source.byteOffset) ||
      type = .leftToRight then
    .done (assign (copyElement conversion target source offset otherOffset) (range length)
      memory)
  else if target.type.elementSize = source.type.elementSize then
    .done (assign (copyElement conversion target source offset otherOffset)
      (range length).reverse memory)
  else
    let transferBuffer (i : Nat) := conversion.convertTo source.type target.type
      (getIndexQuicklyAsNativeValue memory source (i + otherOffset))
    .done (assign (writeElement target offset transferBuffer) (range length).reverse memory)

/-- `memmove` of `size` bytes. -/
def memmove (memory : Memory) (to_ from_ : Location) (size : Nat) : Memory := fun (storage, k) =>
  if storage = to_.1 ∧ to_.2 ≤ k ∧ k < to_.2 + size then memory (from_.1, from_.2 + (k - to_.2))
  else memory (storage, k)

/-- `set`, where `object` is a typed array. -/
def set (memory : Memory) (length : Nat) (type : CopyType) : CopyOutcome :=
  if source.type = target.type then
    let length := min length source.length
    if !source.canAccessRangeQuickly otherOffset length then .crash
    else if !target.canAccessRangeQuickly offset length then
      .rangeError "Range consisting of offset and length are out of bounds"
    else
      .done (memmove memory (target.storage, target.elementOffset offset)
        (source.storage, source.elementOffset otherOffset)
        (length * target.type.elementSize % 2 ^ 32))
  else setWithSpecificType conversion target source offset otherOffset memory length type

/-! ## What a copy is to do -/

/-- The memory with the elements copied from what the source held before. -/
def copied (memory : Memory) (length : Nat) : Memory := fun (storage, k) =>
  let first := target.elementOffset offset
  let size := target.type.elementSize
  if storage = target.storage ∧ first ≤ k ∧ k < first + length * size then
    (conversion.convertTo source.type target.type (getIndexQuicklyAsNativeValue memory source
      (otherOffset + (k - first) / size))).getD ((k - first) % size) 0
  else memory (storage, k)

end

/-! ## Elements -/

section

/-- The bytes of an element. -/
def element (view : TypedArrayView) (i : Nat) : Set Location :=
  {l | l.1 = view.storage ∧ view.elementOffset i ≤ l.2 ∧
    l.2 < view.elementOffset i + view.type.elementSize}

theorem elementSize_pos (type : TypedArrayType) : 0 < type.elementSize := by
  cases type <;> decide

theorem elementOffset_add (view : TypedArrayView) (i j : Nat) :
    view.elementOffset (i + j) = view.elementOffset i + j * view.type.elementSize := by
  rw [elementOffset, elementOffset, Nat.add_mul, Nat.add_assoc]

variable {v : TypedArrayView} {i j : Nat}

theorem disjoint_element {w : TypedArrayView}
    (h : v.storage = w.storage → v.elementOffset i + v.type.elementSize ≤ w.elementOffset j ∨
      w.elementOffset j + w.type.elementSize ≤ v.elementOffset i) :
    Disjoint (v.element i) (w.element j) := by
  rw [Set.disjoint_left]
  rintro l ⟨hst, hlow, hh⟩ ⟨hst', hl', hh'⟩
  omega

theorem elementOffset_lt (h : i < j) :
    v.elementOffset i + v.type.elementSize ≤ v.elementOffset j := by
  rw [elementOffset, elementOffset, Nat.add_assoc, ← succ_mul]
  exact Nat.add_le_add_left (Nat.mul_le_mul_right _ h) _

theorem disjoint_element_self (v : TypedArrayView) (h : i ≠ j) :
    Disjoint (v.element i) (v.element j) := by
  refine disjoint_element fun _ => ?_
  obtain hij | hij := Nat.lt_or_gt_of_ne h
  · exact .inl (elementOffset_lt hij)
  · exact .inr (elementOffset_lt hij)

variable (mem : Memory)

theorem length_getIndex (v : TypedArrayView) (i : Nat) :
    (getIndexQuicklyAsNativeValue mem v i).length = v.type.elementSize := by
  simp [getIndexQuicklyAsNativeValue]

theorem getIndex_congr {mem memory' : Memory} (h : ∀ l ∈ v.element i, mem l = memory' l) :
    getIndexQuicklyAsNativeValue mem v i = getIndexQuicklyAsNativeValue memory' v i := by
  refine map_congr_left fun k hk => h _ ⟨rfl, Nat.le_add_right _ _, ?_⟩
  exact Nat.add_lt_add_left (mem_range.mp hk) _

theorem setIndex_of_mem (val : Native) {l : Location} (h : l ∈ v.element i) :
    setIndexQuicklyToNativeValue mem v i val l = val.getD (l.2 - v.elementOffset i) 0 :=
  if_pos h

theorem setIndex_of_not_mem (val : Native) {l : Location} (h : l ∉ v.element i) :
    setIndexQuicklyToNativeValue mem v i val l = mem l :=
  if_neg h

/-- An element that was written is read back. -/
theorem getIndex_of_written {mem : Memory} {val : Native} (hlen : val.length = v.type.elementSize)
    (h : ∀ l ∈ v.element i, mem l = val.getD (l.2 - v.elementOffset i) 0) :
    getIndexQuicklyAsNativeValue mem v i = val := by
  refine ext_getElem (by rw [length_getIndex, hlen]) fun k hk hk' => ?_
  rw [length_getIndex] at hk
  simp only [getIndexQuicklyAsNativeValue, getElem_map, getElem_range]
  rw [h _ ⟨rfl, Nat.le_add_right _ _, Nat.add_lt_add_left hk _⟩]
  simp [hk']

end

/-! ## Copies in any order -/

section

variable {conversion : Conversion} {target source : TypedArrayView} {offset otherOffset : Nat}

theorem footprint_copyElement : Footprint (copyElement conversion target source offset otherOffset)
    (fun i => target.element (offset + i)) (fun i => source.element (i + otherOffset)) where
  frame _ _ _ hl := setIndex_of_not_mem _ _ hl
  determined i m m' h l hl := by
    rw [copyElement, copyElement, setIndex_of_mem _ _ hl, setIndex_of_mem _ _ hl, getIndex_congr h]

theorem footprint_writeElement (transferBuffer : Nat → Native) : Footprint
    (writeElement target offset transferBuffer) (fun i => target.element (offset + i))
    (fun _ => ∅) where
  frame _ _ _ hl := setIndex_of_not_mem _ _ hl
  determined i m m' _ l hl := by
    rw [writeElement, writeElement, setIndex_of_mem _ _ hl, setIndex_of_mem _ _ hl]

variable {len : Nat} {l : Location}

/-- The elements of the copied range. -/
theorem mem_element_iff :
    (l.1 = target.storage ∧ target.elementOffset offset ≤ l.2 ∧
        l.2 < target.elementOffset offset + len * target.type.elementSize) ↔
      ∃ i < len, l ∈ target.element (offset + i) := by
  have hpos := elementSize_pos target.type
  constructor
  · rintro ⟨hst, hlow, hh⟩
    refine ⟨(l.2 - target.elementOffset offset) / target.type.elementSize, ?_, hst, ?_, ?_⟩
    · rw [Nat.div_lt_iff_lt_mul hpos]
      omega
    · have := div_mul_le_self (l.2 - target.elementOffset offset) target.type.elementSize
      rw [elementOffset_add]
      omega
    · have := lt_div_mul_add (a := l.2 - target.elementOffset offset) hpos
      rw [elementOffset_add]
      omega
  · rintro ⟨i, hi, hst, hlow, hh⟩
    rw [elementOffset_add] at hlow hh
    have := Nat.mul_le_mul_right target.type.elementSize (succ_le_of_lt hi)
    rw [succ_mul] at this
    exact ⟨hst, by omega, by omega⟩

variable (mem : Memory)

theorem copied_of_mem {i : Nat} (hi : i < len) (hl : l ∈ target.element (offset + i)) :
    copied conversion target source offset otherOffset mem len l =
      copyElement conversion target source offset otherOffset i mem l := by
  rw [copyElement, setIndex_of_mem _ _ hl]
  refine (if_pos (mem_element_iff.mpr ⟨i, hi, hl⟩)).trans ?_
  obtain ⟨_, hlow, hh⟩ := hl
  rw [elementOffset_add] at hlow hh ⊢
  obtain ⟨r, hr⟩ := Nat.exists_eq_add_of_le hlow
  have hlt : r < target.type.elementSize := by omega
  have hix : l.2 - target.elementOffset offset = r + target.type.elementSize * i := by
    rw [mul_comm]
    omega
  rw [hix, add_mul_div_left _ _ (elementSize_pos _), div_eq_of_lt hlt, add_mul_mod_self_left,
    mod_eq_of_lt hlt, zero_add, add_comm otherOffset, hr, Nat.add_sub_cancel_left]

theorem copied_of_not_mem (hl : ∀ i < len, l ∉ target.element (offset + i)) :
    copied conversion target source offset otherOffset mem len l = mem l :=
  if_neg fun h => by
    obtain ⟨i, hi, hmem⟩ := mem_element_iff.mp h
    exact hl i hi hmem

/-- Assignments to the elements that are independent in their order, each of which writes what the
copy is to write, make up the copy. -/
theorem assign_eq_copied {step : Nat → Memory → Memory} {reads : Nat → Set Location}
    (hf : Footprint step (fun i => target.element (offset + i)) reads) {order : List Nat}
    (hin : Independent (fun i => target.element (offset + i)) reads order)
    (ho : ∀ i, i ∈ order ↔ i < len) {mem : Memory}
    (hs : ∀ i, ∀ l ∈ target.element (offset + i), step i mem l =
      copyElement conversion target source offset otherOffset i mem l) :
    assign step order mem = copied conversion target source offset otherOffset mem len := by
  funext l
  by_cases h : ∃ i < len, l ∈ target.element (offset + i)
  · obtain ⟨i, hi, hl⟩ := h
    rw [hf.assign_parallel hin ((ho i).mpr hi) hl, hs i l hl, copied_of_mem mem hi hl]
  · have hn : ∀ i < len, l ∉ target.element (offset + i) := fun i hi hl => h ⟨i, hi, hl⟩
    rw [copied_of_not_mem mem hn, hf.assign_frame (fun i hi => hn i ((ho i).mp hi))]

/-- Copied upwards, in place. -/
theorem assign_range_eq_copied (h : ∀ i j, i < j → j < len →
      Disjoint (target.element (offset + i)) (source.element (j + otherOffset))) :
    assign (copyElement conversion target source offset otherOffset) (range len) mem =
      copied conversion target source offset otherOffset mem len := by
  refine assign_eq_copied footprint_copyElement ?_ (fun i => mem_range) fun _ _ _ => rfl
  refine pairwise_lt_range.imp_of_mem fun {i j} _ hj hij => ⟨?_, ?_⟩
  · exact disjoint_element_self target (by omega)
  · exact h i j hij (mem_range.mp hj)

/-- Copied downwards, in place. -/
theorem assign_reverse_eq_copied (h : ∀ i j, j < i → i < len →
      Disjoint (target.element (offset + i)) (source.element (j + otherOffset))) :
    assign (copyElement conversion target source offset otherOffset) (range len).reverse
        mem =
      copied conversion target source offset otherOffset mem len := by
  refine assign_eq_copied footprint_copyElement ?_ (by simp) fun _ _ _ => rfl
  rw [Independent, pairwise_reverse]
  refine pairwise_lt_range.imp_of_mem fun {i j} _ hj hij => ⟨?_, ?_⟩
  · exact disjoint_element_self target (by omega)
  · exact h j i hij (mem_range.mp hj)

/-- Copied through a buffer. -/
theorem assign_transfer_eq_copied :
    assign (writeElement target offset fun i => conversion.convertTo source.type target.type
        (getIndexQuicklyAsNativeValue mem source (i + otherOffset))) (range len).reverse mem =
      copied conversion target source offset otherOffset mem len := by
  refine assign_eq_copied (footprint_writeElement _) ?_ (by simp) fun _ _ _ => rfl
  rw [Independent, pairwise_reverse]
  refine pairwise_lt_range.imp fun {i j} hij => ⟨?_, Set.disjoint_empty _⟩
  exact disjoint_element_self target (by omega)

theorem memmove_eq_copied (ht : source.type = target.type) :
    memmove mem (target.storage, target.elementOffset offset)
        (source.storage, source.elementOffset otherOffset) (len * target.type.elementSize) =
      copied conversion target source offset otherOffset mem len := by
  funext l
  by_cases h : l.1 = target.storage ∧ target.elementOffset offset ≤ l.2 ∧
      l.2 < target.elementOffset offset + len * target.type.elementSize
  · refine (if_pos h).trans (Eq.trans ?_ (if_pos h).symm)
    have hlt := mod_lt (l.2 - target.elementOffset offset) (elementSize_pos target.type)
    have hsum := div_add_mod' (l.2 - target.elementOffset offset) target.type.elementSize
    rw [ht, conversion.same, getIndexQuicklyAsNativeValue, ht]
    simp [List.getElem?_range hlt, elementOffset_add, ht, add_assoc, hsum]
  · exact (if_neg h).trans (if_neg h).symm

end

/-! ## Copies in the wrong order -/

section

variable {conversion : Conversion} {target source : TypedArrayView} {offset otherOffset : Nat}

theorem getIndex_setIndex_self (mem : Memory) (v : TypedArrayView) (i : Nat) {val : Native}
    (h : val.length = v.type.elementSize) :
    getIndexQuicklyAsNativeValue (setIndexQuicklyToNativeValue mem v i val) v i = val :=
  getIndex_of_written h fun _ hl => setIndex_of_mem mem val hl

theorem getIndex_setIndex_of_ne (mem : Memory) (v : TypedArrayView) {i j : Nat} (val : Native)
    (h : i ≠ j) :
    getIndexQuicklyAsNativeValue (setIndexQuicklyToNativeValue mem v i val) v j =
      getIndexQuicklyAsNativeValue mem v j :=
  getIndex_congr fun _ hl => setIndex_of_not_mem mem val
    fun hl' => Set.disjoint_left.mp (disjoint_element_self v h) hl' hl

variable (conversion target source) in
/-- A value that is converted to another one than `z` is. -/
theorem exists_convertTo_ne (z : Native) : ∃ y, y.length = source.type.elementSize ∧
    conversion.convertTo source.type target.type y ≠
      conversion.convertTo source.type target.type z := by
  obtain ⟨x, y, hx, hy, hne⟩ := conversion.distinguishes source.type target.type
  by_cases h : conversion.convertTo source.type target.type x =
      conversion.convertTo source.type target.type z
  · exact ⟨y, hy, fun heq => hne (h.trans heq.symm)⟩
  · exact ⟨x, hx, h⟩

/-- Where the element that is copied at its turn has been written before, some memory is copied
wrongly. -/
theorem exists_assign_ne {front back : List Nat} {first j len : Nat} (hf : first ∈ front)
    (hin : Independent (fun i => target.element (offset + i))
      (fun i => source.element (i + otherOffset)) front)
    (hb : ∀ i ∈ back, i ≠ j) (hne : first ≠ j) (hj : j < len)
    (hsa : source.element (j + otherOffset) = target.element (offset + first))
    (ho : source.elementOffset (j + otherOffset) = target.elementOffset (offset + first))
    (hsize : source.type.elementSize = target.type.elementSize) :
    ∃ mem, assign (copyElement conversion target source offset otherOffset)
        (front ++ j :: back) mem ≠
      copied conversion target source offset otherOffset mem len := by
  obtain ⟨x, _, hx, -⟩ := conversion.distinguishes source.type target.type
  have hz := conversion.length_convertTo source.type target.type x hx
  obtain ⟨y, hy, hd⟩ := exists_convertTo_ne conversion target source
    (conversion.convertTo source.type target.type x)
  -- the first element holds `x`, and the one that is overwritten holds `y`
  let mem := setIndexQuicklyToNativeValue
    (setIndexQuicklyToNativeValue (fun _ => 0) source (first + otherOffset) x)
    source (j + otherOffset) y
  have hr : getIndexQuicklyAsNativeValue mem source (first + otherOffset) = x := by
    rw [getIndex_setIndex_of_ne _ _ _ (by omega), getIndex_setIndex_self _ _ _ hx]
  have hre : getIndexQuicklyAsNativeValue mem source (j + otherOffset) = y :=
    getIndex_setIndex_self _ _ _ hy
  have hs : getIndexQuicklyAsNativeValue
      (assign (copyElement conversion target source offset otherOffset) front mem) source
      (j + otherOffset) = conversion.convertTo source.type target.type x := by
    refine getIndex_of_written (hz.trans hsize.symm) fun l hl => ?_
    rw [hsa] at hl
    rw [footprint_copyElement.assign_parallel hin hf hl, copyElement,
      setIndex_of_mem _ _ hl, hr, ho]
  refine ⟨mem, fun heq => hd ?_⟩
  have hlen := conversion.length_convertTo source.type target.type y hy
  have hlen' := conversion.length_convertTo source.type target.type
    (conversion.convertTo source.type target.type x) (hz.trans hsize.symm)
  refine ext_getElem (hlen.trans hlen'.symm) fun k hk hk' => ?_
  have hl : (target.storage, target.elementOffset (offset + j) + k) ∈ target.element (offset + j) :=
    ⟨rfl, Nat.le_add_right _ _, Nat.add_lt_add_left (hlen ▸ hk) _⟩
  have hw := congrFun heq (target.storage, target.elementOffset (offset + j) + k)
  rw [footprint_copyElement.assign_split hl
      (fun i hi => disjoint_element_self target (by have := hb i hi; omega)),
    copied_of_mem mem hj hl, copyElement, copyElement, setIndex_of_mem _ _ hl,
    setIndex_of_mem _ _ hl, hs, hre, Nat.add_sub_cancel_left] at hw
  simpa [getD_eq_getElem?_getD, hk, hk'] using hw.symm

/-- The copy of an element to one of another type begins with the first, whatever the offsets. -/
def GoesUp (target source : TypedArrayView) : Prop :=
  ¬(target.buffer.isSome ∧ target.buffer = source.buffer) ∨
    target.type.elementSize = source.type.elementSize ∧ target.byteOffset ≤ source.byteOffset

instance (target source : TypedArrayView) : Decidable (GoesUp target source) :=
  inferInstanceAs (Decidable (¬_ ∨ _))

/-- The views have different types and one storage. If their elements have one size, the copied
range that begins later, and in the other, is copied in the direction that overwrites it; otherwise
some element is written before one is read that it overlaps. -/
def WrongDirection (target source : TypedArrayView) (offset otherOffset length : Nat) : Prop :=
  source.type ≠ target.type ∧ target.storage = source.storage ∧
    if target.type.elementSize = source.type.elementSize then
      let size := target.type.elementSize
      let to_ := target.elementOffset offset
      let from_ := source.elementOffset otherOffset
      GoesUp target source ∧ from_ < to_ ∧ to_ < from_ + length * size ∨
        ¬GoesUp target source ∧ to_ < from_ ∧ from_ < to_ + length * size
    else GoesUp target source ∧ ∃ i j, i < j ∧ j < length ∧
      ¬Disjoint (target.element (offset + i)) (source.element (j + otherOffset))

theorem elementOffset_mod (v : TypedArrayView) (i : Nat) :
    v.elementOffset i % v.type.elementSize = 0 := by
  rw [elementOffset, add_mul_mod_self_right, v.aligned]

/-- The distance of two elements of one size, in elements. -/
theorem exists_distance_of_lt {v w : TypedArrayView} {i j len : Nat}
    (hsize : v.type.elementSize = w.type.elementSize) (hlt : v.elementOffset i < w.elementOffset j)
    (hlen : w.elementOffset j < v.elementOffset i + len * v.type.elementSize) :
    ∃ q, 0 < q ∧ q < len ∧ w.elementOffset j = v.elementOffset (i + q) := by
  have hv := dvd_of_mod_eq_zero (elementOffset_mod v i)
  have hw := dvd_of_mod_eq_zero (elementOffset_mod w j)
  rw [← hsize] at hw
  obtain ⟨q, hq⟩ := Nat.dvd_sub hw hv
  have hq' : w.elementOffset j = v.elementOffset i + q * v.type.elementSize := by
    rw [Nat.mul_comm]
    omega
  refine ⟨q, Nat.pos_of_ne_zero ?_, ?_, by rw [elementOffset_add, hq']⟩
  · rintro rfl
    omega
  · rw [hq'] at hlen
    exact Nat.lt_of_mul_lt_mul_right (Nat.lt_of_add_lt_add_left hlen)

section

variable {len : Nat} (hsize : target.type.elementSize = source.type.elementSize)

include hsize

theorem disjoint_up (h : target.elementOffset offset ≤ source.elementOffset otherOffset ∨
      source.elementOffset otherOffset + len * target.type.elementSize ≤
        target.elementOffset offset) (i j : Nat) (hij : i < j) (hj : j < len) :
    Disjoint (target.element (offset + i)) (source.element (j + otherOffset)) := by
  have hs := Nat.mul_le_mul_right target.type.elementSize (succ_le_of_lt hij)
  have hl := Nat.mul_le_mul_right target.type.elementSize (succ_le_of_lt hj)
  rw [succ_mul] at hs hl
  refine disjoint_element fun _ => ?_
  rw [add_comm j, elementOffset_add, elementOffset_add, ← hsize]
  omega

theorem disjoint_down (h : source.elementOffset otherOffset ≤ target.elementOffset offset ∨
      target.elementOffset offset + len * target.type.elementSize ≤
        source.elementOffset otherOffset) (i j : Nat) (hji : j < i) (hi : i < len) :
    Disjoint (target.element (offset + i)) (source.element (j + otherOffset)) := by
  rw [add_comm, add_comm j]
  exact (disjoint_up hsize.symm (hsize ▸ h) j i hji hi).symm

variable (hst : target.storage = source.storage)

include hst

theorem element_eq {i j : Nat} (h : target.elementOffset i = source.elementOffset j) :
    source.element j = target.element i := by
  rw [element, element, hst, h, hsize]

/-- Copied upwards, where the source begins before the target and reaches into it. -/
theorem exists_range_ne (hlt : source.elementOffset otherOffset < target.elementOffset offset)
    (hr : target.elementOffset offset <
      source.elementOffset otherOffset + len * target.type.elementSize) :
    ∃ mem, assign (copyElement conversion target source offset otherOffset) (range len) mem ≠
      copied conversion target source offset otherOffset mem len := by
  obtain ⟨q, hpos, hq, heq⟩ := exists_distance_of_lt hsize.symm hlt (hsize ▸ hr)
  obtain ⟨front, back, hsp⟩ := append_of_mem (mem_range.mpr hq)
  have hs := pairwise_lt_range (n := len)
  rw [hsp, pairwise_append, pairwise_cons] at hs
  obtain ⟨hf, ⟨hb, _⟩, hbe⟩ := hs
  have hz : 0 ∈ front := by
    have hmem : 0 ∈ front ++ q :: back := by
      rw [← hsp, mem_range]
      omega
    rw [mem_append, mem_cons] at hmem
    obtain hmem | hmem | hmem := hmem
    · exact hmem
    · omega
    · exact absurd (hb 0 hmem) (Nat.not_lt_zero _)
  rw [hsp]
  refine exists_assign_ne hz ?_ (fun i hi => Nat.ne_of_gt (hb i hi)) (Nat.ne_of_lt hpos) hq
    (element_eq hsize hst ?_) ?_ hsize.symm
  · refine hf.imp_of_mem fun {i j} hi hj hij => ⟨disjoint_element_self _ (by omega), ?_⟩
    -- what is written lies `q` elements further on than what is read
    refine disjoint_element fun _ => .inr ?_
    have hlt : j + otherOffset < otherOffset + q := by
      have := hbe j hj q mem_cons_self
      omega
    have := elementOffset_lt (v := source) hlt
    rw [elementOffset_add target, heq]
    omega
  · rw [Nat.add_zero, Nat.add_comm q, heq]
  · rw [Nat.add_zero, Nat.add_comm q, heq]

/-- Copied downwards, where the target begins before the source and reaches into it. -/
theorem exists_reverse_ne (hlt : target.elementOffset offset < source.elementOffset otherOffset)
    (hrc : source.elementOffset otherOffset <
      target.elementOffset offset + len * target.type.elementSize) :
    ∃ mem, assign (copyElement conversion target source offset otherOffset)
        (range len).reverse mem ≠
      copied conversion target source offset otherOffset mem len := by
  obtain ⟨q, hpos, hq, heq⟩ := exists_distance_of_lt hsize hlt hrc
  have hr : ∀ i,
      source.elementOffset (i + otherOffset) = target.elementOffset (offset + q + i) := by
    intro i
    rw [Nat.add_comm i, elementOffset_add, elementOffset_add, heq, hsize]
  have hj : len - 1 - q < len := by omega
  obtain ⟨front, back, hsp⟩ := append_of_mem (mem_reverse.mpr (mem_range.mpr hj))
  have hs := pairwise_reverse.mpr (pairwise_lt_range (n := len))
  rw [hsp, pairwise_append, pairwise_cons] at hs
  obtain ⟨hfr, ⟨hb, _⟩, hbe⟩ := hs
  have hmem : ∀ i, i ∈ front ++ (len - 1 - q) :: back ↔ i < len := by
    intro i
    rw [← hsp, mem_reverse, mem_range]
  have hf : len - 1 ∈ front := by
    have hl := (hmem (len - 1)).mpr (by omega)
    rw [mem_append, mem_cons] at hl
    obtain hl | hl | hl := hl
    · exact hl
    · omega
    · have := hb _ hl
      omega
  rw [hsp]
  refine exists_assign_ne hf ?_ (fun i hi => Nat.ne_of_lt (hb i hi)) (by omega) hj
    (element_eq hsize hst ?_) ?_ hsize.symm
  · refine hfr.imp_of_mem fun {i j} hi hj hij => ⟨disjoint_element_self _ (by omega), ?_⟩
    -- what is read lies `q` elements further on than what is written
    refine disjoint_element fun _ => .inl ?_
    rw [hr]
    refine elementOffset_lt ?_
    have hi := (hmem i).mp (mem_append_left _ hi)
    have hj := hbe j hj _ mem_cons_self
    omega
  · rw [hr]
    congr 1
    omega
  · rw [hr]
    congr 1
    omega

theorem range_copied_iff : (∀ mem, assign (copyElement conversion target source offset otherOffset)
        (range len) mem =
          copied conversion target source offset otherOffset mem len) ↔
      ¬(source.elementOffset otherOffset < target.elementOffset offset ∧
        target.elementOffset offset <
          source.elementOffset otherOffset + len * target.type.elementSize) := by
  constructor
  · rintro hall ⟨hlt, hr⟩
    exact absurd hall (not_forall.mpr (exists_range_ne hsize hst hlt hr))
  · intro h mem
    exact assign_range_eq_copied mem (disjoint_up hsize (by omega))

theorem reverse_copied_iff :
    (∀ mem, assign (copyElement conversion target source offset otherOffset)
        (range len).reverse mem =
          copied conversion target source offset otherOffset mem len) ↔
      ¬(target.elementOffset offset < source.elementOffset otherOffset ∧
        source.elementOffset otherOffset <
          target.elementOffset offset + len * target.type.elementSize) := by
  constructor
  · rintro hall ⟨hlt, hr⟩
    exact absurd hall (not_forall.mpr (exists_reverse_ne hsize hst hlt hr))
  · intro h mem
    exact assign_reverse_eq_copied mem (disjoint_down hsize (by omega))

end

theorem canAccessRangeQuickly_of_le {v : TypedArrayView} {offset len : Nat}
    (h : offset + len ≤ v.length) : v.canAccessRangeQuickly offset len = true := by
  have hf := v.fits
  have hle := Nat.le_mul_of_pos_right v.length (elementSize_pos v.type)
  have hmod : (offset + len) % 2 ^ 32 = offset + len := mod_eq_of_lt (by omega)
  simp only [canAccessRangeQuickly, hmod, Bool.and_eq_true, decide_eq_true_eq]
  omega

section

variable {len : Nat} (htarget : offset + len ≤ target.length)
  (hsource : otherOffset + len ≤ source.length) (mem : Memory)

include htarget hsource

theorem set_of_type_eq (ht : source.type = target.type) :
    set conversion target source offset otherOffset mem len .unordered =
      .done (copied conversion target source offset otherOffset mem len) := by
  have hlen : min len source.length = len := Nat.min_eq_left (by omega)
  have hf := target.fits
  have hmul := Nat.mul_le_mul_right target.type.elementSize htarget
  rw [Nat.add_mul] at hmul
  have hmod : len * target.type.elementSize % 2 ^ 32 = len * target.type.elementSize :=
    mod_eq_of_lt (by omega)
  simp only [set, ht, if_true, hlen, canAccessRangeQuickly_of_le hsource,
    canAccessRangeQuickly_of_le htarget, hmod]
  rw [memmove_eq_copied mem ht]
  rfl

/-- Which of the copies is made, of views that have different types. -/
theorem set_of_type_ne (ht : source.type ≠ target.type) :
    set conversion target source offset otherOffset mem len .unordered = .done
      (if GoesUp target source then
        assign (copyElement conversion target source offset otherOffset) (range len) mem
      else if target.type.elementSize = source.type.elementSize then
        assign (copyElement conversion target source offset otherOffset) (range len).reverse mem
      else copied conversion target source offset otherOffset mem len) := by
  have hlen : min len source.length = len := min_eq_left (by omega)
  have hup : (!target.hasArrayBuffer || !source.hasArrayBuffer || target.buffer ≠ source.buffer ||
      (target.type.elementSize = source.type.elementSize &&
        target.byteOffset ≤ source.byteOffset) || CopyType.unordered = .leftToRight) = true ↔
      GoesUp target source := by
    simp only [hasArrayBuffer, GoesUp]
    grind
  simp only [set, setWithSpecificType, ht, if_false, hlen, canAccessRangeQuickly_of_le hsource,
    canAccessRangeQuickly_of_le htarget, assign_transfer_eq_copied, hup, Bool.not_true,
    Bool.false_eq_true]
  split_ifs <;> rfl

end

/-- An unordered copy stores what the source held before the call, whatever the memory holds, if it
does not go in the wrong direction; and only then, for elements of one size or in one buffer. -/
theorem set_copied_iff (conversion : Conversion) {target source : TypedArrayView}
    {offset otherOffset length : Nat} (htarget : offset + length ≤ target.length)
    (hsource : otherOffset + length ≤ source.length) :
    (¬WrongDirection target source offset otherOffset length → ∀ memory,
      set conversion target source offset otherOffset memory length .unordered =
        .done (copied conversion target source offset otherOffset memory length)) ∧
    (target.type.elementSize = source.type.elementSize ∨ target.buffer.isSome ∧
        target.buffer = source.buffer →
      WrongDirection target source offset otherOffset length → ∃ memory,
        set conversion target source offset otherOffset memory length .unordered ≠
          .done (copied conversion target source offset otherOffset memory length)) := by
  by_cases htype : source.type = target.type
  · exact ⟨fun _ memory => set_of_type_eq htarget hsource memory htype,
      fun _ h => absurd htype h.1⟩
  simp only [set_of_type_ne htarget hsource _ htype, ne_eq, CopyOutcome.done.injEq, ← not_forall]
  by_cases hstorage : target.storage = source.storage
  swap
  · have hdisjoint (i j : Nat) : Disjoint (target.element i) (source.element j) :=
      disjoint_element fun h => absurd h hstorage
    refine ⟨fun _ memory => ?_, fun _ h => absurd h.2.1 hstorage⟩
    rw [assign_range_eq_copied memory fun _ _ _ _ => hdisjoint _ _,
      assign_reverse_eq_copied memory fun _ _ _ _ => hdisjoint _ _]
    simp
  simp only [WrongDirection, ne_eq, htype, not_false_eq_true, hstorage, true_and]
  by_cases hsize : target.type.elementSize = source.type.elementSize
  · by_cases hup : GoesUp target source
    · simp only [hup, hsize, if_true, true_and, not_true_eq_false, false_and, or_false]
      rw [range_copied_iff hsize hstorage, hsize]
      exact ⟨id, fun _ => not_not.mpr⟩
    · simp only [hup, hsize, if_true, if_false, true_and, not_false_eq_true, false_and, false_or]
      rw [reverse_copied_iff hsize hstorage, hsize]
      exact ⟨id, fun _ => not_not.mpr⟩
  · by_cases hup : GoesUp target source
    · simp only [hup, hsize, if_true, if_false, true_and, false_or]
      refine ⟨fun h memory => assign_range_eq_copied memory fun i j hij hj => ?_, fun h => ?_⟩
      · by_contra hne
        exact h ⟨i, j, hij, hj, hne⟩
      · exact absurd (hup.resolve_right fun h' => hsize h'.1) (not_not.mpr h)
    · simp [hup, hsize]

/-- The conversions between unsigned integers: bytes are cut off, or zeros added. -/
def zeroExtending : Conversion where
  convertTo source target x :=
    if source = target then x else (x ++ replicate 8 0).take target.elementSize
  length_convertTo source target x hx := by
    split_ifs with h
    · rw [hx, h]
    · rw [length_take_of_le]
      rw [length_append, length_replicate]
      cases target <;> simp [TypedArrayType.elementSize]
  same type x := if_pos rfl
  distinguishes source target := by
    refine ⟨replicate source.elementSize 0, 1 :: replicate (source.elementSize - 1) 0,
      by simp, ?_, ?_⟩
    · have := elementSize_pos source
      simp
      omega
    · cases source <;> cases target <;> decide

/-- Copied down by one element, in one buffer: the bytes 1, 2, 3 become 2, 3, 3. -/
theorem set_copied_down :
    let target : TypedArrayView := ⟨.int8, some 0, 0, 0, 3, by decide, by decide⟩
    let source : TypedArrayView := ⟨.uint8, some 0, 0, 0, 3, by decide, by decide⟩
    let memory : Memory := fun (_, k) => .ofNat 8 (k + 1)
    set zeroExtending target source 0 1 memory 2 .unordered =
        .done (copied zeroExtending target source 0 1 memory 2) ∧
      (range 3).map (fun k => copied zeroExtending target source 0 1 memory 2 (0, k)) =
        [2, 3, 3] :=
  ⟨(set_copied_iff zeroExtending (by decide) (by decide)).1
    (by simp [WrongDirection, GoesUp, elementOffset, TypedArrayType.elementSize]) _, by decide⟩

/-- Copied up by one element, in one buffer: the bytes 1, 2, 3 become 1, 1, 1 instead of 1, 1, 2.
The same in two buffers that share their memory, although there the target begins after the source.
-/
theorem set_overwrites_source :
    let target : TypedArrayView := ⟨.int8, some 0, 0, 0, 3, by decide, by decide⟩
    let source : TypedArrayView := ⟨.uint8, some 0, 0, 0, 3, by decide, by decide⟩
    let target' : TypedArrayView := ⟨.int8, some 1, 0, 1, 2, by decide, by decide⟩
    let memory : Memory := fun (_, k) => .ofNat 8 (k + 1)
    (∃ memory', set zeroExtending target source 1 0 memory 2 .unordered = .done memory' ∧
      memory' (0, 2) = 1 ∧ copied zeroExtending target source 1 0 memory 2 (0, 2) = 2) ∧
    ∃ memory', set zeroExtending target' source 0 0 memory 2 .unordered = .done memory' ∧
      memory' (0, 2) = 1 ∧ copied zeroExtending target' source 0 0 memory 2 (0, 2) = 2 := by
  refine ⟨⟨_, rfl, ?_, ?_⟩, ⟨_, rfl, ?_, ?_⟩⟩ <;> decide

end

end TypedArrayView

end JavaScriptCore.Runtime
