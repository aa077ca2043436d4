import JavaScriptCore.Runtime.RegExpPrototype.Match

/-!
# Replacing matches

`runtime/StringPrototype.cpp:298-473, 481-726`, for a replacement that is a string, and
`builtins/RegExpPrototype.js:145-310`. The native function collects the ranges of the source that
stay and what stands between them; the built-in one collects the matches first, and has its own
routine for the references of the replacement. Whether characters take eight bits or sixteen, and
running out of memory, is left out.
-/

namespace JavaScriptCore.Runtime.StringReplace

open Json (Text)
open ProgramLogic Budgeted
open StringPrototype (Match substring find dollar isASCIIDigit substituteBackreferences)

/-! ## The native function -/

structure StringRange where
  position : Nat
  length : Nat
  deriving DecidableEq, Repr

def StringRange.text (source : Text) (range : StringRange) : Text :=
  substring source range.position range.length

/-- A single range that stays. -/
def spliceOne (source : Text) (range : StringRange) : Text :=
  if range.position ≤ 0 ∧ range.length ≥ source.length then source
  else substring source range.position (min source.length range.length)

def jsSpliceSubstrings (source : Text) : List StringRange → Text
  | [range] => spliceOne source range
  | ranges => ranges.flatMap (StringRange.text source)

/-- The loop over ranges and separators, which take turns. -/
def interleave (source : Text) : List StringRange → List Text → Text
  | [], separators => separators.flatten
  | range :: ranges, [] => range.text source ++ interleave source ranges []
  | range :: ranges, separator :: separators =>
    range.text source ++ separator ++ interleave source ranges separators

def jsSpliceSubstringsWithSeparators (source : Text) : List StringRange → List Text → Text
  | [range], [] => spliceOne source range
  | ranges, separators => interleave source ranges separators

/-- `lastIndex`, `startPosition`, and what has been collected. -/
structure Search where
  lastIndex : Nat
  startPosition : Nat
  sourceRanges : List StringRange
  replacements : List Text

/-- The two positions after a match, and whether the loop is left. -/
def Search.moveOn (s : Search) (sourceLen : Nat) (result : Match) : Search × Bool :=
  let s := { s with lastIndex := result.stop, startPosition := result.stop }
  if result.empty then
    ({ s with startPosition := s.startPosition + 1 }, s.startPosition + 1 > sourceLen)
  else (s, false)

/-- The range that is left behind the last match. -/
def Search.last (s : Search) (sourceLen : Nat) : List StringRange :=
  if s.lastIndex < sourceLen then s.sourceRanges ++ [⟨s.lastIndex, sourceLen - s.lastIndex⟩]
  else s.sourceRanges

def removeRound (regExp : RegExp) (source : Text) (s : Search) : Search ⊕ Search :=
  match regExp.matchFrom source s.startPosition with
  | none => .inr s
  | some result =>
    let s := if s.lastIndex < result.start then
        { s with
          sourceRanges := s.sourceRanges ++ [⟨s.lastIndex, result.start - s.lastIndex⟩] }
      else s
    match s.moveOn source.length result with
    | (s, true) => .inr s
    | (s, false) => .inl s

def removeUsingRegExpSearch (regExp : RegExp) (source : Text) : Budgeted Text := do
  let s ← Budgeted.loop (fun s => pure (removeRound regExp source s)) ⟨0, 0, [], []⟩
  if s.lastIndex = 0 then return source
  return jsSpliceSubstrings source (s.last source.length)

/-- The text that stands for a match. -/
def substituted (replacementString : Text) (result : Match) : Text :=
  (substituteBackreferences [] result replacementString).get (by
    rw [StringPrototype.substituteBackreferences_eq]
    rfl)

def replaceRound (regExp : RegExp) (source replacementString : Text) (s : Search) :
    Search ⊕ Search :=
  match regExp.matchFrom source s.startPosition with
  | none => .inr s
  | some result =>
    let replLen := replacementString.length
    let s := if s.lastIndex < result.start ∨ replLen ≠ 0 then
        { s with
          sourceRanges := s.sourceRanges ++ [⟨s.lastIndex, result.start - s.lastIndex⟩]
          replacements := s.replacements ++
            [if replLen ≠ 0 then substituted replacementString result else []] }
      else s
    match s.moveOn source.length result with
    | (s, true) => .inr s
    | (s, false) => if regExp.global then .inl s else .inr s

def replaceUsingRegExpSearch (regExpObject : RegExpObject) (string : Input)
    (replacementString : Text) : Budgeted (Except Exception Text) :=
  let source := string.characters
  let regExp := regExpObject.regExp
  let search : Budgeted (Except Exception Text) := do
    let s ← Budgeted.loop (fun s => pure (replaceRound regExp source replacementString s))
      ⟨0, 0, [], []⟩
    if s.lastIndex = 0 ∧ s.replacements.isEmpty then return .ok source
    return .ok (jsSpliceSubstringsWithSeparators source (s.last source.length) s.replacements)
  if regExp.global then
    match regExpObject.setLastIndex 0 with
    | .error exception => pure (.error exception)
    | .ok _ =>
      if replacementString.isEmpty then do
        return .ok (← removeUsingRegExpSearch regExp source)
      else search
  else search

/-! ## The built-in function -/

/-- The arguments of `getSubstitution` but the replacement. `captures` begins with a hole, unless
it is empty. -/
structure Substitution where
  matched : Text
  str : Text
  position : Nat
  captures : List (Option Text)

namespace Substitution

variable (s : Substitution)

/-- The `default` of the `switch`, for a digit: what is appended, and how many characters of the
reference there are behind the `$`. -/
def digit (ch : Nat) (rest : Text) : Text × Nat :=
  let m := s.captures.length
  let n := ch - 0x30
  if n > m then ([], 1)
  else
    let (n, length) := match rest with
      | nextChCode :: _ =>
        if isASCIIDigit nextChCode ∧ 10 * n + nextChCode - 0x30 ≤ m then
          (10 * n + nextChCode - 0x30, 2)
        else (n, 1)
      | [] => (n, 1)
    if n = 0 then ([], length) else (((s.captures[n]?).getD none).getD [], length)

/-- What is appended for a `$` in front of `text`, and how many characters belong to it. -/
def dollarForm : Text → Text × Nat
  | [] => ([dollar], 0)
  | ch :: rest =>
    if ch = dollar then ([dollar], 1)
    else if ch = 0x26 then (s.matched, 1)
    else if ch = 0x60 then (if s.position > 0 then s.str.take s.position else [], 1)
    else if ch = 0x27 then
      let tailPos := s.position + s.matched.length
      (if tailPos < s.str.length then s.str.drop tailPos else [], 1)
    else if isASCIIDigit ch then s.digit ch rest
    else ([dollar], 0)

/-- The loop, `none` if it does not end. -/
def loop (replacement : Text) : Nat → Nat → Text → Option Text
  | 0, _, _ => none
  | fuel + 1, lastStart, result =>
    match find replacement dollar lastStart with
    | none => some (result ++ replacement.drop lastStart)
    | some start =>
      let (appended, length) := s.dollarForm (replacement.drop (start + 1))
      loop replacement fuel (start + 1 + length)
        (result ++ substring replacement lastStart (start - lastStart) ++ appended)

def getSubstitution (replacement : Text) : Option Text :=
  s.loop replacement (replacement.length + 1) 0 []

end Substitution

/-- A round of the loop that collects the results. -/
def collectRound (str : Input) (global unicode : Bool) (s : RegExpObject × List MatchesArray) :
    (RegExpObject × List MatchesArray) ⊕ Except Exception (List MatchesArray) :=
  let (regexp, resultList) := s
  match regexp.execInline str with
  | .error exception => .inr (.error exception)
  | .ok (none, _) => .inr (.ok resultList)
  | .ok (some result, regexp) =>
    let resultList := resultList ++ [result]
    if !global then .inr (.ok resultList)
    else
      let matchStr := (result.elements.headD none).getD []
      let regexp : Except Exception RegExpObject :=
        if matchStr.isEmpty then
          regexp.setLastIndex (advanceStringIndex str.characters str.length
            (toLength (number regexp.lastIndex)) unicode)
        else .ok regexp
      match regexp with
      | .error exception => .inr (.error exception)
      | .ok regexp => .inl (regexp, resultList)

/-- `captures`: the groups from index one on, so that an array of them begins with a hole. -/
def capturesOf (result : MatchesArray) : List (Option Text) :=
  match result.elements.drop 1 with
  | [] => []
  | captures => none :: captures

/-- The second loop: `accumulatedResult`, `nextSourcePosition` and `lastPosition`. -/
def accumulate (str replace : Text) : List MatchesArray → Text → Nat → Nat → Option Text
  | [], accumulatedResult, nextSourcePosition, _ =>
    some (if nextSourcePosition ≥ str.length then accumulatedResult
      else accumulatedResult ++ str.drop nextSourcePosition)
  | result :: resultList, accumulatedResult, nextSourcePosition, lastPosition => do
    let matched := (result.elements.headD none).getD []
    let position := min result.index str.length
    let captures := capturesOf result
    let replacement ← (Substitution.mk matched str position captures).getSubstitution replace
    if position ≥ nextSourcePosition ∧ position ≥ lastPosition then
      accumulate str replace resultList
        (accumulatedResult ++ substring str nextSourcePosition (position - nextSourcePosition) ++
          replacement)
        (position + matched.length) position
    else accumulate str replace resultList accumulatedResult nextSourcePosition lastPosition

/-- `[Symbol.replace]`. -/
def replace (regexp : RegExpObject) (str : Input) (replace : Text) :
    Budgeted (Except Exception (Option Text)) :=
  let global := regexp.regExp.global
  let unicode := global && regexp.regExp.unicode
  match if global then regexp.setLastIndex 0 else .ok regexp with
  | .error exception => pure (.error exception)
  | .ok regexp => do
    let resultList ← Budgeted.loop (fun s => pure (collectRound str global unicode s)) (regexp, [])
    return resultList.map fun resultList => accumulate str.characters replace resultList [] 0 0

end JavaScriptCore.Runtime.StringReplace
