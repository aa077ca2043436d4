import JavaScriptCore.ProgramLogic.Computation
import JavaScriptCore.Runtime.RegExpObject

/-!
# Splitting at matches

`runtime/RegExpPrototype.cpp:491-723` and `builtins/RegExpPrototype.js:442-536`. The built-in
function tries a sticky match at one position after the other. The native one searches for the next
match; it runs its loop up to a hundred thousand pieces, then once more without storing anything, to
see how many pieces there will be, and then again from where it stopped.

`limit` is the number after its conversion, `0xFFFFFFFF` for undefined.
-/

namespace JavaScriptCore.Runtime.RegExpPrototype

open Json (Text)
open ProgramLogic Budgeted
open StringPrototype (Match substring)

/-! ## The native function -/

inductive SplitControl where
  | continueSplit
  | abortSplit
  deriving DecidableEq, Repr

/-- The two positions, and what the functions that are passed change. -/
structure Split (σ : Type) where
  position : Nat
  matchPosition : Nat
  captured : σ

/-- The arguments of `push`: whether there is a piece, where it begins, how long it is. -/
structure Piece where
  isDefined : Bool
  start : Nat
  length : Nat

section

variable {σ : Type}

/-- Pushes one piece after the other, until one of the calls aborts. -/
def pushAll (push : Piece → σ → σ × SplitControl) : List Piece → σ → σ × SplitControl
  | [], captured => (captured, .continueSplit)
  | piece :: pieces, captured =>
    match push piece captured with
    | (captured, .abortSplit) => (captured, .abortSplit)
    | (captured, .continueSplit) => pushAll push pieces captured

/-- The groups of a match. -/
def captures (numberOfCaptures : Nat) (m : Match) : List Piece :=
  (List.range numberOfCaptures).map fun i =>
    let sub := m.ovector (2 * (i + 1))
    ⟨sub ≥ 0, sub.toNat, (m.ovector (2 * (i + 1) + 1) - sub).toNat⟩

variable (regExp : RegExp) (input : Text) (control : σ → SplitControl)
  (push : Piece → σ → σ × SplitControl)

/-- One round of the loop: the next round, or the end of the loop. -/
def genericSplitRound (s : Split σ) : Split σ ⊕ Split σ :=
  let inputSize := input.length
  if s.matchPosition < inputSize then
    if control s.captured = .abortSplit then .inr s
    else
      match regExp.matchFrom input s.matchPosition with
      | none =>
        if !regExp.sticky then .inr s
        else .inl { s with
          matchPosition := advanceStringIndex input inputSize s.matchPosition regExp.unicode }
      | some m =>
        if m.start ≥ inputSize then .inr s
        else
          let matchPosition := m.start
          let matchEnd := m.stop
          if matchEnd = s.position then
            .inl { s with
              matchPosition := advanceStringIndex input inputSize matchPosition regExp.unicode }
          else
            match push ⟨true, s.position, matchPosition - s.position⟩ s.captured with
            | (captured, .abortSplit) => .inr { s with matchPosition, captured }
            | (captured, .continueSplit) =>
              match pushAll push (captures regExp.numSubpatterns m) captured with
              | (captured, .abortSplit) => .inr ⟨matchEnd, matchPosition, captured⟩
              | (captured, .continueSplit) => .inl ⟨matchEnd, matchEnd, captured⟩
  else .inr s

def genericSplit (s : Split σ) : Budgeted (Split σ) :=
  Budgeted.loop (fun s => pure (genericSplitRound regExp input control push s)) s

end

inductive SplitResult where
  | outOfMemory
  | array (elements : List (Option Text))
  deriving DecidableEq, Repr

def maxSizeForDirectPath : Nat := 100000

/-- `MAX_STORAGE_VECTOR_LENGTH`. -/
def maxStorageVectorLength : Nat := 0x10000000

def Piece.text (input : Text) (piece : Piece) : Option Text :=
  if piece.isDefined then some (substring input piece.start piece.length) else none

/-- What is left after `position`. -/
def remaining (input : Text) (position : Nat) : Option Text :=
  some (substring input position (input.length - position))

/-- `push` of the direct path and of the second phase. -/
def store (input : Text) (limit : Nat) (piece : Piece) (result : List (Option Text)) :
    List (Option Text) × SplitControl :=
  let result := result ++ [piece.text input]
  (result, if result.length ≥ limit then .abortSplit else .continueSplit)

/-- `push` of the dry run. -/
def count (resultLength limit : Nat) (_ : Piece) (dryRunCount : Nat) : Nat × SplitControl :=
  (dryRunCount + 1,
    if resultLength + (dryRunCount + 1) ≥ limit then .abortSplit else .continueSplit)

def regExpProtoFuncSplitFast (regExp : RegExp) (input : Text) (limit : Nat) :
    Budgeted SplitResult :=
  if limit = 0 then pure (.array [])
  else if input.isEmpty then
    pure (.array (if (regExp.matchFrom input 0).isNone then [some input] else []))
  else do
    let direct ← genericSplit regExp input
      (fun result => if result.length ≥ maxSizeForDirectPath then .abortSplit else .continueSplit)
      (store input limit) ⟨0, 0, []⟩
    let result := direct.captured
    if result.length ≥ limit then return .array result
    if result.length < maxSizeForDirectPath then
      return .array (result ++ [remaining input direct.position])
    let dryRun ← genericSplit regExp input
      (fun dryRunCount =>
        if result.length + dryRunCount > maxStorageVectorLength then .abortSplit
        else .continueSplit)
      (count result.length limit) ⟨direct.position, direct.matchPosition, 0⟩
    if result.length + dryRun.captured > maxStorageVectorLength then return .outOfMemory
    let second ← genericSplit regExp input (fun _ => .continueSplit) (store input limit)
      ⟨direct.position, direct.matchPosition, result⟩
    let result := second.captured
    if result.length ≥ limit then return .array result
    return .array (result ++ [remaining input second.position])

/-! ## The built-in function -/

structure Splitting where
  splitter : RegExpObject
  position : Nat
  matchPosition : Nat
  result : List (Option Text)

/-- The loop over the captures: the array, and whether it is full. -/
def putCaptures (limit : Nat) : List (Option Text) → List (Option Text) → List (Option Text) × Bool
  | [], result => (result, false)
  | nextCapture :: captures, result =>
    let result := result ++ [nextCapture]
    if result.length = limit then (result, true) else putCaptures limit captures result

def splitRound (input : Input) (unicodeMatching : Bool) (limit : Nat) (s : Splitting) :
    Splitting ⊕ Except Exception (List (Option Text)) :=
  let size := input.length
  if s.matchPosition < size then
    match s.splitter.setLastIndex s.matchPosition >>= fun splitter => splitter.execInline input with
    | .error exception => .inr (.error exception)
    | .ok (none, splitter) =>
      .inl { s with
        splitter
        matchPosition := advanceStringIndex input.characters size s.matchPosition unicodeMatching }
    | .ok (some found, splitter) =>
      let endPosition := min (toLength (number splitter.lastIndex)) size
      if endPosition = s.position then
        .inl { s with
          splitter
          matchPosition :=
            advanceStringIndex input.characters size s.matchPosition unicodeMatching }
      else
        let result := s.result ++
          [some (substring input.characters s.position (s.matchPosition - s.position))]
        if result.length = limit then .inr (.ok result)
        else
          match putCaptures limit (found.elements.drop 1) result with
          | (result, true) => .inr (.ok result)
          | (result, false) => .inl ⟨splitter, endPosition, endPosition, result⟩
  else .inr (.ok (s.result ++ [some (substring input.characters s.position size)]))

def splitLoop (input : Input) (unicodeMatching : Bool) (limit : Nat) (s : Splitting) :
    Budgeted (Except Exception (List (Option Text))) :=
  Budgeted.loop (fun s => pure (splitRound input unicodeMatching limit s)) s

/-- `[Symbol.split]`, from the construction of the splitter on. -/
def split (splitter : RegExpObject) (input : Input) (unicodeMatching : Bool) (limit : Nat) :
    Budgeted (Except Exception (List (Option Text))) :=
  if limit = 0 then pure (.ok [])
  else if input.length = 0 then
    pure ((splitter.execInline input).map fun (found, _) =>
      if found.isSome then [] else [some input.characters])
  else splitLoop input unicodeMatching limit ⟨splitter, 0, 0, []⟩

end JavaScriptCore.Runtime.RegExpPrototype
