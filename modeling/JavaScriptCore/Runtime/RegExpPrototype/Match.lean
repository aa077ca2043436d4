import JavaScriptCore.Runtime.RegExpPrototype.SplitSpec

/-!
# All matches of a global expression

`runtime/RegExpObjectInlines.h:129-223`, `runtime/RegExpObject.cpp:177-206` and
`builtins/RegExpPrototype.js:86-123`. Both loops go on from the end of a match, or one code point
after an empty one: `matchSlow` through `lastIndex`, `collectMatches` with the index in a variable,
which beyond a hundred thousand matches first counts the rest.
-/

namespace JavaScriptCore.Runtime.RegExpPrototype

open Json (Text)
open ProgramLogic Budgeted List
open StringPrototype (Match substring)

/-! ## The native function -/

inductive MatchList where
  | null
  | outOfMemory
  | array (elements : List Text)
  deriving DecidableEq, Repr

/-- The match, and the array so far. -/
structure Collecting where
  result : Match
  array : List Text

section

variable (regExp : RegExp) (s : Text) (fixEnd : Nat → Nat)

/-- `end`, fixed after an empty match. -/
def endOf (result : Match) : Nat := if result.empty then fixEnd result.stop else result.stop

/-- `iterate`: the next match, and the array with this one. -/
def iterate (c : Collecting) : Option Match × List Text :=
  (regExp.matchFrom s (endOf fixEnd c.result),
    c.array ++ [substring s c.result.start (c.result.stop - c.result.start)])

/-- A round of the direct path, which ends with the array or where the rest is to be counted. -/
def directRound (c : Collecting) : Collecting ⊕ (List Text ⊕ Collecting) :=
  if c.array.length ≥ maxSizeForDirectPath then .inr (.inr c)
  else
    match iterate regExp s fixEnd c with
    | (some result, array) => .inl ⟨result, array⟩
    | (none, array) => .inr (.inl array)

/-- A round of the count, which ends with whether there is room. -/
def countRound (arrayLength : Nat) (c : Match × Nat) : (Match × Nat) ⊕ Bool :=
  let (result, matchCount) := c
  if arrayLength + matchCount > maxStorageVectorLength then .inr false
  else
    match regExp.matchFrom s (endOf fixEnd result) with
    | some result => .inl (result, matchCount + 1)
    | none => .inr true

def storeRound (c : Collecting) : Collecting ⊕ List Text :=
  match iterate regExp s fixEnd c with
  | (some result, array) => .inl ⟨result, array⟩
  | (none, array) => .inr array

def collectMatches : Budgeted MatchList :=
  match regExp.matchFrom s 0 with
  | none => pure .null
  | some result => do
    match ← Budgeted.loop (fun c => pure (directRound regExp s fixEnd c)) ⟨result, []⟩ with
    | .inl array => return .array array
    | .inr saved =>
      let room ← Budgeted.loop (fun c => pure (countRound regExp s fixEnd saved.array.length c))
        (saved.result, 0)
      if !room then return .outOfMemory
      let array ← Budgeted.loop (fun c => pure (storeRound regExp s fixEnd c)) saved
      return .array array

end

def matchGlobal (object : RegExpObject) (string : Input) : Budgeted (Except Exception MatchList) :=
  match object.setLastIndex 0 with
  | .error exception => pure (.error exception)
  | .ok object => do
    let s := string.characters
    let fixEnd := if object.regExp.unicode then advanceStringUnicode s string.length else (· + 1)
    return .ok (← collectMatches object.regExp s fixEnd)

/-! ## The built-in function -/

def maximumReasonableMatchSize : Nat := 100000000

def matchSlowRound (str : Input) (unicode : Bool) (s : RegExpObject × List Text) :
    (RegExpObject × List Text) ⊕ Except Exception MatchList :=
  let (regexp, resultList) := s
  match regexp.execInline str with
  | .error exception => .inr (.error exception)
  | .ok (none, _) => .inr (.ok (if resultList.isEmpty then .null else .array resultList))
  | .ok (some result, regexp) =>
    if resultList.length > maximumReasonableMatchSize then .inr (.ok .outOfMemory)
    else
      -- the first element of the array is a string
      let resultString := (result.elements.headD none).getD []
      let regexp : Except Exception RegExpObject :=
        if resultString.isEmpty then
          regexp.setLastIndex (advanceStringIndex str.characters str.length
            (toLength (number regexp.lastIndex)) unicode)
        else .ok regexp
      match regexp with
      | .error exception => .inr (.error exception)
      | .ok regexp => .inl (regexp, resultList ++ [resultString])

def matchSlowLoop (str : Input) (unicode : Bool) (s : RegExpObject × List Text) :
    Budgeted (Except Exception MatchList) :=
  Budgeted.loop (fun s => pure (matchSlowRound str unicode s)) s

/-- `matchSlow`, for a global expression. -/
def matchSlow (regexp : RegExpObject) (str : Input) : Budgeted (Except Exception MatchList) :=
  match regexp.setLastIndex 0 with
  | .error exception => pure (.error exception)
  | .ok regexp => matchSlowLoop str regexp.regExp.unicode (regexp, [])

/-! ## What both do -/

/-- Where both loops go on after a match. -/
def next (regExp : RegExp) (s : Text) (m : Match) : Nat :=
  endOf (fun index => advanceStringIndex s s.length index regExp.unicode) m

/-- What both return for the matches. -/
def matchList (s : Text) : List Match → MatchList
  | [] => .null
  | m :: ms => .array ((m :: ms).map fun m => substring s m.start (m.stop - m.start))

variable {regExp : RegExp} {s : Text}

theorem lt_next (st : Nat) (m : Match) (h : regExp.matchFrom s st = some m) :
    st < next regExp s m := by
  have hle := RegExp.le_start h
  have hs := m.start_le_stop
  have hlt := lt_advanceStringIndex s s.length m.stop regExp.unicode
  rw [next, endOf, Match.empty]
  split_ifs with hne
  · omega
  · have : m.start ≠ m.stop := by simpa using hne
    omega

/-! ## The native loops -/

section

variable {fixEnd : Nat → Nat}

/-- The text of a match. -/
def matched (s : Text) (m : Match) : Text := substring s m.start (m.stop - m.start)

theorem iterate_eq (hfix : ∀ m, endOf fixEnd m = next regExp s m) (c : Collecting) :
    iterate regExp s fixEnd c =
      (regExp.matchFrom s (next regExp s c.result), c.array ++ [matched s c.result]) := by
  rw [iterate, hfix]
  rfl

/-- Where the direct path ends: with all matches, or in front of those that are still to be
stored. -/
def DirectPath (regExp : RegExp) (s : Text) (array : List Text) (ms : List Match) :
    List Text ⊕ Collecting → Prop
  | .inl result => result = array ++ ms.map (matched s)
  | .inr saved => ∃ done rest, ms = done ++ saved.result :: rest ∧
      saved.array = array ++ done.map (matched s) ∧
      regExp.Sequence s (next regExp s) (next regExp s saved.result) rest

variable {ms : List Match} (hfix : ∀ m, endOf fixEnd m = next regExp s m)

include hfix

variable {m : Match}

theorem yields_directRound
    (h : regExp.Sequence s (next regExp s) (next regExp s m) ms) (array : List Text) :
    Yields (Budgeted.loop (fun c => pure (directRound regExp s fixEnd c)) ⟨m, array⟩)
      (DirectPath regExp s array (m :: ms)) := by
  induction ms generalizing m array with
  | nil =>
    obtain ⟨hn⟩ := h
    by_cases hm : array.length ≥ maxSizeForDirectPath
    · refine yields_loop_inr (if_pos hm) ⟨[], [], rfl, by simp, .done hn⟩
    · have hs : directRound regExp s fixEnd ⟨m, array⟩ = .inr (.inl (array ++ [matched s m])) := by
        rw [directRound, if_neg hm, iterate_eq hfix, hn]
      exact yields_loop_inr hs rfl
  | cons m' ms ih =>
    have hr := h
    obtain _ | ⟨hma, hmo⟩ := h
    by_cases hm : array.length ≥ maxSizeForDirectPath
    · exact yields_loop_inr (if_pos hm) ⟨[], m' :: ms, rfl, by simp, hr⟩
    have hs : directRound regExp s fixEnd ⟨m, array⟩ = .inl ⟨m', array ++ [matched s m]⟩ := by
      rw [directRound, if_neg hm, iterate_eq hfix, hma]
    refine yields_loop_inl hs ((ih hmo (array ++ [matched s m])).mono fun res hall => ?_)
    cases res with
    | inl res =>
      rw [DirectPath] at hall ⊢
      rw [hall, append_assoc, singleton_append]
      rfl
    | inr saved =>
      obtain ⟨done, rest, hsp, ha, hse⟩ := hall
      refine ⟨m :: done, rest, ?_, ?_, hse⟩
      · rw [cons_append, hsp]
      · rw [ha, map_cons, append_assoc, singleton_append]

theorem yields_countRound (alen : Nat)
    (h : regExp.Sequence s (next regExp s) (next regExp s m) ms) (mc : Nat) :
    Yields (Budgeted.loop (fun c => pure (countRound regExp s fixEnd alen c))
      (m, mc)) (fun room => room = false →
        maxStorageVectorLength < alen + mc + ms.length) := by
  induction ms generalizing m mc with
  | nil =>
    obtain ⟨hn⟩ := h
    by_cases hm : alen + mc > maxStorageVectorLength
    · exact yields_loop_inr (if_pos hm) fun _ => hm
    · refine yields_loop_inr (a := true) ?_ fun hr => nomatch hr
      rw [countRound, if_neg hm, hfix, hn]
  | cons m' ms ih =>
    obtain _ | ⟨hma, hmo⟩ := h
    rw [length_cons]
    by_cases hm : alen + mc > maxStorageVectorLength
    · exact yields_loop_inr (if_pos hm) fun _ => by omega
    have hs : countRound regExp s fixEnd alen (m, mc) = .inl (m', mc + 1) := by
      rw [countRound, if_neg hm, hfix, hma]
    refine yields_loop_inl hs ((ih hmo (mc + 1)).mono fun room hr hf => ?_)
    have := hr hf
    omega

theorem yields_storeRound
    (h : regExp.Sequence s (next regExp s) (next regExp s m) ms) (array : List Text) :
    Yields (Budgeted.loop (fun c => pure (storeRound regExp s fixEnd c)) ⟨m, array⟩)
      (· = array ++ (m :: ms).map (matched s)) := by
  induction ms generalizing m array with
  | nil =>
    obtain ⟨hn⟩ := h
    refine yields_loop_inr (a := array ++ [matched s m]) ?_ rfl
    rw [storeRound, iterate_eq hfix, hn]
  | cons m' ms ih =>
    obtain _ | ⟨hm, hmo⟩ := h
    have hs : storeRound regExp s fixEnd ⟨m, array⟩ = .inl ⟨m', array ++ [matched s m]⟩ := by
      rw [storeRound, iterate_eq hfix, hm]
    refine yields_loop_inl hs ((ih hmo (array ++ [matched s m])).mono fun res hall => ?_)
    rw [hall, append_assoc, singleton_append]
    rfl

theorem yields_collectMatches (h : regExp.Sequence s (next regExp s) 0 ms) :
    Yields (collectMatches regExp s fixEnd) (fun res =>
      res = .outOfMemory ∧ maxStorageVectorLength < ms.length ∨ res = matchList s ms) := by
  rw [collectMatches]
  obtain hn | @⟨_, m, ms, hm, hre⟩ := h
  · rw [hn]
    exact yields_pure (.inr rfl)
  simp only [hm]
  apply yields_bind
  refine (yields_directRound hfix hre []).mono fun res hr => ?_
  cases res with
  | inl array =>
    refine yields_pure (.inr ?_)
    rw [hr]
    rfl
  | inr saved =>
    obtain ⟨done, rest, hsp, ha, hs⟩ := hr
    rw [nil_append] at ha
    have hlen : ms.length + 1 = saved.array.length + (rest.length + 1) := by
      rw [ha, length_map, ← length_cons, ← length_cons, ← length_append, ← hsp, length_cons]
    apply yields_bind
    refine (yields_countRound hfix saved.array.length hs 0).mono fun room hro => ?_
    cases room with
    | false =>
      have := hro rfl
      refine yields_pure (.inl ⟨rfl, ?_⟩)
      rw [length_cons]
      omega
    | true =>
      apply yields_bind
      refine (yields_storeRound hfix hs saved.array).mono fun array hall => ?_
      refine yields_pure (.inr ?_)
      rw [hall, ha, ← map_append, ← hsp]
      rfl

end

/-! ## The built-in loop -/

variable {m : Match}

theorem isEmpty_matched {st : Nat} (h : regExp.matchFrom s st = some m) :
    (matched s m).isEmpty = m.empty := by
  have hs := RegExp.stop_le h
  have hle := m.start_le_stop
  rw [Bool.eq_iff_iff, isEmpty_iff_length_eq_zero, matched, substring, length_take,
    length_drop, Match.empty, decide_eq_true_iff]
  omega

theorem next_le {st : Nat} (h : regExp.matchFrom s st = some m) :
    next regExp s m ≤ s.length + 1 := by
  have hs := RegExp.stop_le h
  have hc := advanceStringIndex_cases s s.length m.stop regExp.unicode
  rw [next, endOf]
  split <;> omega

/-- A round that finds a match stores it, and sets `lastIndex` to where the loop goes on. -/
theorem matchSlowRound_found {re : RegExpObject} {str : Input} {st : Nat}
    (hm : re.regExp.matchFrom str.characters st = some m)
    (hs : re.StartsAt st) {rl : List Text} (hr : ¬rl.length > maximumReasonableMatchSize) :
    matchSlowRound str re.regExp.unicode (re, rl) =
      .inl ({ re with lastIndex := jsNumber (next re.regExp str.characters m) },
        rl ++ [matched str.characters m]) := by
  have hb : str.characters.length ≤ 0x7FFFFFFF := str.bounded
  have hsp := RegExp.stop_le hm
  have hl := (RegExpObject.toLength_jsNumber (show m.stop ≤ 0x80000000 by omega)).1
  have hf : ((createRegExpMatchesArray re.regExp.numSubpatterns m).elements.headD
      none).getD [] = matched str.characters m := by
    rw [← RegExp.source_eq hm]
    rfl
  simp only [matchSlowRound, hs.execInline, hm, Option.map_some, Option.elim_some, hr,
    if_false, hf, isEmpty_matched hm, hl, hs.setLastIndex, next, endOf]
  cases m.empty <;> rfl

theorem yields_matchSlowLoop {re : RegExpObject} {str : Input} {st : Nat} {ms : List Match}
    (hs : re.StartsAt st)
    (h : re.regExp.Sequence str.characters (next re.regExp str.characters) st ms) (rl : List Text) :
    Yields (matchSlowLoop str re.regExp.unicode (re, rl)) (fun res =>
      res = .ok .outOfMemory ∧ maximumReasonableMatchSize < rl.length + ms.length ∨
        res = .ok (if (rl ++ ms.map (matched str.characters)).isEmpty then .null
          else .array (rl ++ ms.map (matched str.characters)))) := by
  induction ms generalizing st re rl with
  | nil =>
    obtain ⟨hn⟩ := h
    have hst : matchSlowRound str re.regExp.unicode (re, rl) =
        .inr (.ok (if rl.isEmpty then .null else .array rl)) := by
      simp [matchSlowRound, hs.execInline, hn]
    exact yields_loop_inr hst (.inr (by simp))
  | cons m ms ih =>
    obtain _ | ⟨hm, hre⟩ := h
    rw [length_cons]
    by_cases hma : rl.length > maximumReasonableMatchSize
    · have hst : matchSlowRound str re.regExp.unicode (re, rl) = .inr (.ok .outOfMemory) := by
        simp [matchSlowRound, hs.execInline, hm, hma]
      exact yields_loop_inr hst (.inl ⟨rfl, by omega⟩)
    have hle := next_le hm
    have hb : str.characters.length ≤ 0x7FFFFFFF := str.bounded
    have hl := ih (hs.goOn (show next re.regExp str.characters m ≤ _ by omega)) hre
      (rl ++ [matched str.characters m])
    refine yields_loop_inl (matchSlowRound_found hm hs hma) (hl.mono fun res hr => ?_)
    rw [length_append, length_singleton, append_assoc, singleton_append] at hr
    rw [map_cons]
    exact hr.imp_left fun ⟨hme, hlen⟩ => ⟨hme, by omega⟩

/-! ## Agreement -/

/-- The native function returns the array of the built-in one, or one of them runs out of memory:
the native one for more matches than an array can hold, the built-in one for more than it finds
reasonable. -/
theorem match_eq (obj : RegExpObject) (string : Input) (hg : obj.regExp.global = true)
    (hw : obj.lastIndexIsWritable = true) :
    ∃ ms : List Match,
      Yields (matchSlow obj string) (fun res =>
        res = .ok .outOfMemory ∧ maximumReasonableMatchSize < ms.length ∨
          res = .ok (matchList string.characters ms)) ∧
      Yields (matchGlobal obj string) (fun res =>
        res = .ok .outOfMemory ∧ maxStorageVectorLength < ms.length ∨
          res = .ok (matchList string.characters ms)) := by
  obtain ⟨ms, hms⟩ : ∃ ms, obj.regExp.Sequence string.characters
      (next obj.regExp string.characters) 0 ms := RegExp.exists_sequence lt_next 0
  have hf : obj.regExp.globalOrSticky = true := by simp [RegExp.globalOrSticky, hg]
  have hset : obj.setLastIndex 0 = .ok { obj with lastIndex := jsNumber 0 } := if_pos hw
  refine ⟨ms, ?_, ?_⟩
  · rw [matchSlow, hset]
    have hl := @yields_matchSlowLoop { obj with lastIndex := jsNumber 0 } string 0 ms
      ⟨hf, hw, RegExpObject.toLength_jsNumber (Nat.zero_le _)⟩ hms []
    rw [nil_append, length_nil, Nat.zero_add] at hl
    cases ms <;> exact hl
  · rw [matchGlobal, hset]
    apply yields_bind
    have hfix : ∀ m, endOf (if obj.regExp.unicode then
        advanceStringUnicode string.characters string.length else (· + 1)) m =
          next obj.regExp string.characters m := by
      intro m
      cases hu : obj.regExp.unicode <;>
        simp [next, endOf, advanceStringIndex, hu, Input.length]
    refine (yields_collectMatches hfix hms).mono fun res hr => yields_pure ?_
    obtain ⟨rfl, hlen⟩ | rfl := hr
    · exact .inl ⟨rfl, hlen⟩
    · exact .inr rfl

/-- For every pattern, the native functions for splitting and for all matches return what the
built-in ones return, wherever neither runs out of memory. -/
theorem split_and_match_agree (pattern : Pattern) (global sticky : Bool) (input : Input)
    (limit : Nat) (lastIndex : JSBigInt.NumberValue) :
    (∃ elements,
      Yields (split ⟨pattern.regExp global true, jsNumber 0, true⟩ input pattern.unicode limit)
        (· = .ok elements) ∧
      Yields (regExpProtoFuncSplitFast (pattern.regExp global sticky) input.characters limit)
        (fun result => result = .outOfMemory ∧ maxStorageVectorLength < elements.length ∨
          result = .array elements)) ∧
    ∃ ms : List Match,
      Yields (matchSlow ⟨pattern.regExp true sticky, lastIndex, true⟩ input) (fun result =>
        result = .ok .outOfMemory ∧ maximumReasonableMatchSize < ms.length ∨
          result = .ok (matchList input.characters ms)) ∧
      Yields (matchGlobal ⟨pattern.regExp true sticky, lastIndex, true⟩ input) (fun result =>
        result = .ok .outOfMemory ∧ maxStorageVectorLength < ms.length ∨
          result = .ok (matchList input.characters ms)) :=
  ⟨split_eq pattern global sticky input limit,
    match_eq ⟨pattern.regExp true sticky, lastIndex, true⟩ input rfl rfl⟩

end JavaScriptCore.Runtime.RegExpPrototype
