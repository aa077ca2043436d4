import JavaScriptCore.Json.Grammar
import JavaScriptCore.Runtime.JSBigInt.CompareToDouble

/-!
# `Array.prototype.sort`

`builtins/ArrayPrototype.js:383-638` on an ordinary array: its elements and its named properties
are writable, configurable data properties, and its prototypes have no indexed properties. The
comparator and the conversion to strings are pure, so that a call of either is its result.

A property key is an array index or else a name. What the sort reads of a name is whether the
number it converts to is below the length, and whether a fresh object finds something truthy under
it on its prototype; both are left open. `length` itself, which no array index names, never
converts to a number below it, and is left out of the names of the array.
-/

namespace JavaScriptCore.ArrayPrototype

open Json JavaScriptCore.Runtime

-- the default value is `undefined`
variable {Value : Type}

/-! ## Arrays -/

@[ext] structure ArrayObject (Value : Type) where
  elements : Nat → Option Value
  named : List (Text × Value)
  length : Nat
  bounded : ∀ i, length ≤ i → elements i = none

namespace ArrayObject

/-- An array of holes. -/
def holes (length : Nat) : ArrayObject Value := ⟨fun _ => none, [], length, fun _ _ => rfl⟩

def ofList (values : List Value) : ArrayObject Value :=
  ⟨fun i => values[i]?, [], values.length, fun _ h => List.getElem?_eq_none h⟩

/-- Reading a hole gives `undefined`. -/
def get [Inhabited Value] (array : ArrayObject Value) (i : Nat) : Value :=
  (array.elements i).getD default

def put (array : ArrayObject Value) (i : Nat) (value : Value) : ArrayObject Value where
  elements j := if j = i then some value else array.elements j
  named := array.named
  length := max array.length (i + 1)
  bounded := by
    intro j hj
    rw [if_neg (by omega)]
    exact array.bounded j (by omega)

def delete (array : ArrayObject Value) (i : Nat) : ArrayObject Value where
  elements j := if j = i then none else array.elements j
  named := array.named
  length := array.length
  bounded := by
    intro j hj
    split
    · rfl
    · exact array.bounded j hj

def has (array : ArrayObject Value) (i : Nat) : Bool := (array.elements i).isSome

end ArrayObject

/-! ## Compaction -/

inductive PropertyKey where
  | index (i : Nat)
  | name (s : Text)
  deriving DecidableEq, Repr

/-- What compaction sees of the world around the array. -/
structure Environment (Value : Type) where
  /-- The named properties of each prototype. -/
  prototypes : List (List (Text × Value))
  /-- `ToNumber(name) < length`. -/
  nameBelow : Text → Nat → Bool
  /-- The value a fresh object inherits under this name is truthy. -/
  freshTruthy : Text → Bool

def PropertyKey.below (env : Environment Value) (length : Nat) : PropertyKey → Bool
  | .index i => i < length
  | .name s => env.nameBelow s length

/-- `Object.getOwnPropertyNames`. -/
def ArrayObject.ownPropertyNames (array : ArrayObject Value) : List PropertyKey :=
  ((List.range array.length).filter array.has).map .index ++ array.named.map (.name ·.1)

def ArrayObject.getKey [Inhabited Value] (env : Environment Value) (array : ArrayObject Value) :
    PropertyKey → Value
  | .index i => array.get i
  | .name s => (((array.named :: env.prototypes).map (·.lookup s)).findSome? id).getD default

def ArrayObject.deleteKey (array : ArrayObject Value) : PropertyKey → ArrayObject Value
  | .index i => array.delete i
  | .name s => { array with named := array.named.filter (·.1 ≠ s) }

structure SparseState (Value : Type) where
  array : ArrayObject Value
  seen : PropertyKey → Bool
  valueCount : Nat
  undefinedCount : Nat

section

variable [DecidableEq Value] [Inhabited Value] (env : Environment Value)

/-- The body of the loop over the property names of one object. -/
def SparseState.visit (length : Nat) (s : SparseState Value) (index : PropertyKey) :
    SparseState Value :=
  if index.below env length = false then s
  else if s.seen index then s
  else
    let seen := fun key => if key = index then true else s.seen key
    let value := s.array.getKey env index
    let array := s.array.deleteKey index
    if value = default then { s with array, seen, undefinedCount := s.undefinedCount + 1 }
    else { s with array := array.put s.valueCount value, seen, valueCount := s.valueCount + 1 }

def deleteFrom (start : Nat) : Nat → ArrayObject Value → ArrayObject Value
  | 0, array => array
  | count + 1, array => deleteFrom (start + 1) count (array.delete start)

def fillUndefined (start : Nat) : Nat → ArrayObject Value → ArrayObject Value
  | 0, array => array
  | count + 1, array => fillUndefined (start + 1) count (array.put start default)

def compactSparse (array : ArrayObject Value) (dst src length : Nat) : ArrayObject Value × Nat :=
  let array := deleteFrom dst (src - dst) array
  let names := array.ownPropertyNames ++ env.prototypes.flatMap (·.map (.name ·.1))
  let fresh : PropertyKey → Bool
    | .index _ => false
    | .name s => env.freshTruthy s
  let s := names.foldl (SparseState.visit env length) ⟨array, fresh, 0, 0⟩
  (fillUndefined s.valueCount s.undefinedCount s.array, s.valueCount)

/-- The loop of `compactSlow` over `src`, of which `remaining` rounds are left. -/
def compactSlowFrom (length : Nat) : Nat → ArrayObject Value → (src dst holeCount : Nat) →
    ArrayObject Value × Nat
  | 0, array, _, valueCount, holeCount =>
    let undefinedCount := length - valueCount - holeCount
    let array := fillUndefined valueCount undefinedCount array
    (deleteFrom (valueCount + undefinedCount) (length - (valueCount + undefinedCount)) array,
      valueCount)
  | remaining + 1, array, src, dst, holeCount =>
    if array.has src = false then
      let holeCount := holeCount + 1
      if holeCount < 256 then compactSlowFrom length remaining array (src + 1) dst holeCount
      else compactSparse env array dst src length
    else
      let value := array.get src
      if value = default then compactSlowFrom length remaining array (src + 1) dst holeCount
      else compactSlowFrom length remaining (array.put dst value) (src + 1) (dst + 1) holeCount

def compactSlow (array : ArrayObject Value) (length : Nat) : ArrayObject Value × Nat :=
  compactSlowFrom env length length array 0 0 0

def compact (array : ArrayObject Value) (length : Nat) : ArrayObject Value × Nat :=
  if (List.range array.length).any (fun i => array.get i = default) then
    compactSlow env array length
  else (array, length)

end

/-! ## Merge sort -/

/-- What a comparator returns: a boolean, or a number in either of its representations. -/
inductive ComparisonResult where
  | boolean (value : Bool)
  | int32 (value : Int)
  | double (value : DoubleBits)
  deriving DecidableEq, Repr

/-- The test on the comparison of the right element with the left one. -/
def ComparisonResult.takesRight : ComparisonResult → Bool
  | .boolean value => !value
  | .int32 value => value < 0
  | .double value => value.isNegative

section

variable {α : Type} [Inhabited α] (comparator : α → α → ComparisonResult)

/-- The loop of `merge`, of which `remaining` rounds are left. -/
def mergeFrom (src : ArrayObject α) (leftEnd rightEnd : Nat) :
    Nat → (dstIndex left right : Nat) → ArrayObject α → ArrayObject α
  | 0, _, _, _, dst => dst
  | remaining + 1, dstIndex, left, right, dst =>
    if right < rightEnd ∧
        (left ≥ leftEnd ∨ (comparator (src.get right) (src.get left)).takesRight = true) then
      mergeFrom src leftEnd rightEnd remaining (dstIndex + 1) left (right + 1)
        (dst.put dstIndex (src.get right))
    else
      mergeFrom src leftEnd rightEnd remaining (dstIndex + 1) (left + 1) right
        (dst.put dstIndex (src.get left))

def merge (dst src : ArrayObject α) (srcIndex srcEnd width : Nat) : ArrayObject α :=
  let left := srcIndex
  let leftEnd := min (left + width) srcEnd
  let right := leftEnd
  let rightEnd := min (right + width) srcEnd
  mergeFrom comparator src leftEnd rightEnd (rightEnd - left) left left right dst

/-- One pass of `mergeSort`, from the block at `srcIndex` on. -/
def mergePass (src : ArrayObject α) (valueCount width : Nat) (hwidth : 0 < width)
    (srcIndex : Nat) (dst : ArrayObject α) : ArrayObject α :=
  if srcIndex < valueCount then
    mergePass src valueCount width hwidth (srcIndex + 2 * width)
      (merge comparator dst src srcIndex valueCount width)
  else dst
termination_by valueCount - srcIndex
decreasing_by omega

/-- The passes of `mergeSort` from some width on; the flag says whether `src` is the array. -/
def mergePasses (valueCount width : Nat) (hwidth : 0 < width) (srcIsArray : Bool)
    (src dst : ArrayObject α) : Bool × ArrayObject α × ArrayObject α :=
  if width < valueCount then
    let dst := mergePass comparator src valueCount width hwidth 0 dst
    mergePasses valueCount (width * 2) (mul_pos hwidth (by decide)) (!srcIsArray) dst src
  else (srcIsArray, src, dst)
termination_by valueCount - width
decreasing_by omega

/-- The values of `values`, written from some position on. -/
def writeValues (array : ArrayObject α) (start : Nat) : List α → ArrayObject α
  | [] => array
  | value :: values => writeValues (array.put start value) (start + 1) values

def mergeSort (array : ArrayObject α) (valueCount : Nat) : ArrayObject α :=
  match mergePasses comparator valueCount 1 one_pos true array (.holes valueCount) with
  | (true, src, _) => src
  | (false, src, array) => writeValues array 0 ((List.range valueCount).map src.get)

end

/-! ## Bucket sort -/

structure Entry (Value : Type) where
  string : Text
  value : Value
  deriving Inhabited

/-- From some position on, at which both strings are still to be compared. -/
def compareFrom : Text → Text → Option Int
  | a :: as, b :: bs => if a = b then compareFrom as bs else some (a - b)
  | _, _ => none

def stringComparator (a b : Entry Value) : ComparisonResult :=
  .int32 ((compareFrom a.string b.string).getD (a.string.length - b.string.length))

section

variable [Inhabited Value]

/-- The entries that are not exhausted at some depth, by their character there. -/
structure Buckets (Value : Type) where
  bucket : Nat → List (Entry Value)
  length : Nat

def Buckets.add (buckets : Buckets Value) (c : Nat) (entry : Entry Value) : Buckets Value where
  bucket d := if d = c then buckets.bucket c ++ [entry] else buckets.bucket d
  length := max buckets.length (c + 1)

/-- The loop that fills the buckets, and writes what is exhausted. -/
def distribute (depth : Nat) : List (Entry Value) → ArrayObject Value → Nat → Buckets Value →
    ArrayObject Value × Nat × Buckets Value
  | [], array, dst, buckets => (array, dst, buckets)
  | entry :: bucket, array, dst, buckets =>
    if entry.string.length = depth then
      distribute depth bucket (array.put dst entry.value) (dst + 1) buckets
    else match entry.string[depth]? with
      | some c => distribute depth bucket array dst (buckets.add c entry)
      -- `charCodeAt` gives NaN, which is no index of an array
      | none => distribute depth bucket array dst buckets

def bucketSort (array : ArrayObject Value) (dst : Nat) (bucket : List (Entry Value)) (depth : Nat) :
    ArrayObject Value × Nat :=
  if _h : bucket.length < 32 ∨ depth > 32 then
    let sorted := mergeSort stringComparator (.ofList bucket) bucket.length
    (writeValues array dst ((List.range bucket.length).map fun i => (sorted.get i).value),
      dst + bucket.length)
  else
    let (array, dst, buckets) := distribute depth bucket array dst ⟨fun _ => [], 0⟩
    (List.range buckets.length).foldl (fun (array, dst) i =>
      if (buckets.bucket i).isEmpty then (array, dst)
      else bucketSort array dst (buckets.bucket i) (depth + 1)) (array, dst)
termination_by 33 - depth
decreasing_by omega

end

/-! ## The function -/

/-- The argument of `sort`. -/
inductive SortArgument (Value : Type) where
  | function (comparator : Value → Value → ComparisonResult)
  | undefined
  | other

section

variable [DecidableEq Value] [Inhabited Value] (env : Environment Value) (toString : Value → Text)

def comparatorSort (array : ArrayObject Value) (length : Nat)
    (comparator : Value → Value → ComparisonResult) : ArrayObject Value :=
  let (array, valueCount) := compact env array length
  mergeSort comparator array valueCount

def stringSort (array : ArrayObject Value) (length : Nat) : ArrayObject Value :=
  let (array, valueCount) := compact env array length
  let strings := (List.range valueCount).map fun i => ⟨toString (array.get i), array.get i⟩
  (bucketSort array 0 strings 0).1

def sort (comparator : SortArgument Value) (array : ArrayObject Value) :
    Except String (ArrayObject Value) :=
  let sortFunction : Except String (ArrayObject Value → Nat → ArrayObject Value) :=
    match comparator with
    | .function comparator => .ok fun array length => comparatorSort env array length comparator
    | .undefined => .ok fun array length => stringSort env toString array length
    | .other => .error
      "Array.prototype.sort requires the comparsion function be a function or undefined"
  do
    let sortFunction ← sortFunction
    return if array.length < 2 then array else sortFunction array array.length

end

end JavaScriptCore.ArrayPrototype
