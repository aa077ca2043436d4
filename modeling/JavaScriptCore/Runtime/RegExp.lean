import JavaScriptCore.Runtime.StringPrototype

/-!
# Regular expressions

What a `RegExp` is to the code around it: its flags, its groups, and `RegExp::match`, which from an
index of an input on finds a match or fails (`runtime/RegExp.h`, `runtime/MatchResult.h`,
`runtime/RegExpMatchesArray.h:61-160`). The matcher itself is given. A `Pattern` knows the matches
that begin at an index; the search built from it tries one index after the other.
-/

namespace JavaScriptCore.Runtime

open Json (Text)

/-! ## Matches -/

namespace StringPrototype.Match

variable (m : Match)

def start : Nat := (m.ovector 0).toNat

def stop : Nat := (m.ovector 1).toNat

/-- `MatchResult::empty`. -/
def empty : Bool := m.start = m.stop

/-- A group as it is put into arrays: undefined if it took no part in the match. -/
def group (k : Nat) : Option Text :=
  if m.ovector (2 * k) < 0 then none
  else some (substring m.source (m.ovector (2 * k)).toNat
    (m.ovector (2 * k + 1) - m.ovector (2 * k)).toNat)

theorem start_le_stop : m.start ≤ m.stop := by
  have hr := m.ranges 0 (Nat.zero_le _)
  simp only [Nat.mul_zero, Nat.zero_add] at hr
  rw [start, stop]
  omega

theorem stop_le_length : m.stop ≤ m.source.length := by
  have hr := m.ranges 0 (Nat.zero_le _)
  have hm := m.matched
  simp only [Nat.mul_zero, Nat.zero_add] at hr
  rw [stop]
  omega

theorem group_zero : m.group 0 = some (substring m.source m.start (m.stop - m.start)) := by
  have hr := m.ranges 0 (Nat.zero_le _)
  have hm := m.matched
  simp only [Nat.mul_zero, Nat.zero_add] at hr
  rw [group, if_neg (by simpa using hm), start, stop]
  congr 2
  simp only [Nat.mul_zero, Nat.zero_add]
  omega

end StringPrototype.Match

/-! ## Expressions -/

open StringPrototype (Match substring)

/-- `RegExp`. -/
structure RegExp extends StringPrototype.RegExp where
  global : Bool
  sticky : Bool
  unicode : Bool
  /-- `RegExp::match`. -/
  matchFrom : Text → Nat → Option Match
  found : ∀ input index m, matchFrom input index = some m →
    m.source = input ∧ m.reg = some toRegExp ∧ index ≤ m.start ∧ (sticky = true → m.start = index)

namespace RegExp

variable {regExp : RegExp} {input : Text} {i : Nat} {m : Match}

def globalOrSticky (regExp : RegExp) : Bool := regExp.global || regExp.sticky

variable (h : regExp.matchFrom input i = some m)

include h

theorem le_start : i ≤ m.start := (regExp.found input i m h).2.2.1

theorem source_eq : m.source = input := (regExp.found input i m h).1

theorem stop_le : m.stop ≤ input.length := regExp.source_eq h ▸ m.stop_le_length

omit h

theorem matchFrom_beyond (regExp : RegExp) (h : input.length < i) :
    regExp.matchFrom input i = none := by
  cases hm : regExp.matchFrom input i with
  | none => rfl
  | some m =>
    have hs := le_start hm
    have hsp := stop_le hm
    have hle := m.start_le_stop
    omega

end RegExp

/-- The matches of a loop that goes on after each match from the index `next`. -/
inductive RegExp.Sequence (regExp : RegExp) (input : Text) (next : Match → Nat) :
    Nat → List Match → Prop where
  | done {start : Nat} : regExp.matchFrom input start = none →
    RegExp.Sequence regExp input next start []
  | found {start : Nat} {m : Match} {ms : List Match} : regExp.matchFrom input start = some m →
    RegExp.Sequence regExp input next (next m) ms →
    RegExp.Sequence regExp input next start (m :: ms)

namespace RegExp

variable {regExp : RegExp} {input : Text} {next : Match → Nat} {start : Nat} {ms : List Match}

/-- A loop that always moves on comes to an end. -/
theorem exists_sequence
    (hn : ∀ start m, regExp.matchFrom input start = some m → start < next m) (start : Nat) :
    ∃ ms, regExp.Sequence input next start ms := by
  generalize hl : input.length + 1 - start = left
  induction left using Nat.strongRecOn generalizing start with
  | ind left ih =>
    cases hm : regExp.matchFrom input start with
    | none => exact ⟨[], .done hm⟩
    | some m =>
      have hlt := hn start m hm
      have hle := le_start hm
      have hs := stop_le hm
      have := m.start_le_stop
      obtain ⟨ms, hms⟩ := ih (input.length + 1 - next m) (by omega) (next m) rfl
      exact ⟨m :: ms, .found hm hms⟩

/-- Matches follow each other without overlapping. -/
theorem Sequence.ordered (hn : ∀ m : Match, m.stop ≤ next m)
    (h : regExp.Sequence input next start ms) :
    (∀ m ∈ ms, start ≤ m.start) ∧ ms.Pairwise (fun m m' => m.stop ≤ m'.start) := by
  induction h with
  | done => exact ⟨fun _ hm => (nomatch hm), .nil⟩
  | @found start m ms hma _ ih =>
    have hle := le_start hma
    have hs := m.start_le_stop
    have hn := hn m
    refine ⟨fun m' hm' => ?_, .cons (fun m' hm' => Nat.le_trans hn (ih.1 m' hm')) ih.2⟩
    obtain rfl | hm' := List.mem_cons.mp hm'
    · exact hle
    · have := ih.1 m' hm'
      omega

end RegExp

/-- What `createRegExpMatchesArray` makes: the elements, and `index`. -/
structure MatchesArray where
  index : Nat
  elements : List (Option Text)
  deriving DecidableEq, Repr

def createRegExpMatchesArray (numSubpatterns : Nat) (m : Match) : MatchesArray where
  index := m.start
  elements := some (substring m.source m.start (m.stop - m.start)) ::
    (List.range numSubpatterns).map fun i => m.group (i + 1)

/-! ## Code points -/

/-- `advanceStringUnicode`. -/
def advanceStringUnicode (s : Text) (length currentIndex : Nat) : Nat :=
  if currentIndex + 1 ≥ length then currentIndex + 1
  else
    let first := s.getD currentIndex 0
    if first < 0xD800 ∨ first > 0xDBFF then currentIndex + 1
    else
      let second := s.getD (currentIndex + 1) 0
      if second < 0xDC00 ∨ second > 0xDFFF then currentIndex + 1 else currentIndex + 2

/-- `advanceStringIndex` of `RegExpPrototype.cpp`, and of `RegExpPrototype.js` with the length of
the string. -/
def advanceStringIndex (str : Text) (strSize index : Nat) (isUnicode : Bool) : Nat :=
  if !isUnicode then index + 1 else advanceStringUnicode str strSize index

theorem advanceStringIndex_cases (str : Text) (strSize i : Nat) (uni : Bool) :
    advanceStringIndex str strSize i uni = i + 1 ∨
      advanceStringIndex str strSize i uni = i + 2 ∧ i + 1 < strSize := by
  simp only [advanceStringIndex, advanceStringUnicode]
  repeat' split
  all_goals first | exact .inl rfl | exact .inr ⟨rfl, by omega⟩

theorem lt_advanceStringIndex (str : Text) (strSize i : Nat) (uni : Bool) :
    i < advanceStringIndex str strSize i uni := by
  have h := advanceStringIndex_cases str strSize i uni
  omega

/-! ## Searching -/

/-- The matches that begin at an index. -/
structure Pattern extends StringPrototype.RegExp where
  unicode : Bool
  matchAt : Text → Nat → Option Match
  found : ∀ input index m, matchAt input index = some m →
    m.source = input ∧ m.reg = some toRegExp ∧ m.start = index

namespace Pattern

/-- The first match from `index` on, in at most so many steps of `AdvanceStringIndex`. -/
def searchWithin (pattern : Pattern) (input : Text) : Nat → Nat → Option Match
  | 0, _ => none
  | steps + 1, index =>
    match pattern.matchAt input index with
    | some m => some m
    | none => pattern.searchWithin input steps
        (advanceStringIndex input input.length index pattern.unicode)

/-- The first match from `index` on. -/
def search (pattern : Pattern) (input : Text) (index : Nat) : Option Match :=
  pattern.searchWithin input (input.length + 1 - index) index

variable {pat : Pattern} {input : Text} {i : Nat} {m : Match}

theorem matchAt_beyond (h : input.length < i) : pat.matchAt input i = none := by
  cases hm : pat.matchAt input i with
  | none => rfl
  | some m =>
    obtain ⟨hs, _, hsta⟩ := pat.found input i m hm
    have hsp := hs ▸ m.stop_le_length
    have hle := m.start_le_stop
    omega

theorem searchWithin_beyond {steps : Nat} (h : input.length < i) :
    pat.searchWithin input steps i = none := by
  induction steps generalizing i with
  | zero => rfl
  | succ steps ih =>
    have hlt := lt_advanceStringIndex input input.length i pat.unicode
    simp only [searchWithin, matchAt_beyond h]
    exact ih (by omega)

/-- More steps than there are indices left change nothing. -/
theorem searchWithin_eq_search {steps : Nat} (h : input.length + 1 - i ≤ steps) :
    pat.searchWithin input steps i = pat.search input i := by
  have hc : ∀ {steps steps' i : Nat}, input.length + 1 - i ≤ steps → input.length + 1 - i ≤ steps' →
      pat.searchWithin input steps i = pat.searchWithin input steps' i := by
    intro steps
    induction steps with
    | zero =>
      intro steps' i h _
      rw [searchWithin_beyond (by omega), searchWithin_beyond (by omega)]
    | succ steps ih =>
      intro steps' i h h'
      cases steps' with
      | zero => rw [searchWithin_beyond (by omega), searchWithin_beyond (by omega)]
      | succ steps' =>
        have hlt := lt_advanceStringIndex input input.length i pat.unicode
        simp only [searchWithin]
        rw [ih (by omega) (show _ ≤ steps' by omega)]
  exact hc h (Nat.le_refl _)

theorem search_some (hm : pat.matchAt input i = some m) :
    pat.search input i = some m := by
  have hle : i ≤ input.length := by
    by_contra hgt
    rw [matchAt_beyond (by omega)] at hm
    cases hm
  rw [search, show input.length + 1 - i = input.length - i + 1 by omega, searchWithin, hm]

theorem search_none (h : pat.matchAt input i = none) :
    pat.search input i =
      pat.search input (advanceStringIndex input input.length i pat.unicode) := by
  have hlt := lt_advanceStringIndex input input.length i pat.unicode
  have hs : input.length + 1 - i ≤ input.length + 1 - i + 1 := Nat.le_succ _
  rw [← searchWithin_eq_search hs, searchWithin, h]
  exact searchWithin_eq_search (by omega)

theorem search_nil (pat : Pattern) : pat.search [] 0 = pat.matchAt [] 0 := by
  cases hm : pat.matchAt [] 0 with
  | none => rw [search_none hm, search, searchWithin_beyond (lt_advanceStringIndex _ _ 0 _)]
  | some m => rw [search_some hm]

theorem search_found (pat : Pattern) (input : Text) (i : Nat) (m : Match)
    (h : pat.search input i = some m) :
    m.source = input ∧ m.reg = some pat.toRegExp ∧ i ≤ m.start := by
  rw [search] at h
  generalize input.length + 1 - i = steps at h
  induction steps generalizing i with
  | zero => cases h
  | succ steps ih =>
    rw [searchWithin] at h
    cases hm : pat.matchAt input i with
    | some m' =>
      rw [hm] at h
      cases h
      obtain ⟨hs, hreg, hsta⟩ := pat.found input i m hm
      exact ⟨hs, hreg, Nat.le_of_eq hsta.symm⟩
    | none =>
      rw [hm] at h
      obtain ⟨hs, hreg, hsta⟩ := ih _ h
      have hlt := lt_advanceStringIndex input input.length i pat.unicode
      exact ⟨hs, hreg, by omega⟩

/-- A regular expression of the pattern: a sticky one matches at the index only. -/
def regExp (pattern : Pattern) (global sticky : Bool) : RegExp where
  toRegExp := pattern.toRegExp
  global := global
  sticky := sticky
  unicode := pattern.unicode
  matchFrom input index :=
    if sticky then pattern.matchAt input index else pattern.search input index
  found := by
    intro input index m h
    cases sticky with
    | true =>
      obtain ⟨hsource, hreg, hstart⟩ := pattern.found input index m h
      exact ⟨hsource, hreg, Nat.le_of_eq hstart.symm, fun _ => hstart⟩
    | false =>
      obtain ⟨hsource, hreg, hstart⟩ := pattern.search_found input index m h
      exact ⟨hsource, hreg, hstart, fun hsticky => nomatch hsticky⟩

@[simp] theorem regExp_unicode (global sticky : Bool) :
    (pat.regExp global sticky).unicode = pat.unicode := rfl

@[simp] theorem regExp_numSubpatterns (global sticky : Bool) :
    (pat.regExp global sticky).numSubpatterns = pat.numSubpatterns := rfl

theorem inRange_nil : ∀ group ∈ ([] : List (Text × Nat)), 1 ≤ group.2 ∧ group.2 ≤ 0 :=
  fun _ h => absurd h List.not_mem_nil

/-- What a pattern without groups has. -/
def noGroups : StringPrototype.RegExp := ⟨0, [], inRange_nil⟩

/-- The bounds of a match without groups. -/
def bounds (start stop k : Nat) : Int := if k = 0 then start else stop

theorem bounds_matched (start stop : Nat) : 0 ≤ bounds start stop 0 := Int.natCast_nonneg start

theorem bounds_ranges {input : Text} {start stop : Nat} (hle : start ≤ stop)
    (hs : stop ≤ input.length) :
    ∀ k ≤ (some noGroups).elim 0 StringPrototype.RegExp.numSubpatterns,
      bounds start stop (2 * k) = -1 ∨ 0 ≤ bounds start stop (2 * k) ∧
          bounds start stop (2 * k) ≤ bounds start stop (2 * k + 1) ∧
          bounds start stop (2 * k + 1) ≤ input.length := by
  intro k hk
  rw [Nat.le_zero.mp hk]
  exact .inr ⟨bounds_matched start stop, Int.ofNat_le.mpr hle, Int.ofNat_le.mpr hs⟩

/-- A match without groups. -/
def whole (input : Text) (start stop : Nat) (hle : start ≤ stop) (hstop : stop ≤ input.length) :
    Match :=
  ⟨input, some noGroups, bounds start stop, bounds_matched start stop, bounds_ranges hle hstop⟩

theorem lt_length_of_getElem? {input : Text} {i c : Nat} (h : input[i]? = some c) :
    i < input.length := (List.getElem?_eq_some_iff.mp h).1

/-- One character at an index. -/
def matchCharacter (c : Nat) (input : Text) (index : Nat) : Option Match :=
  if h : input[index]? = some c then
    some (whole input index (index + 1) (Nat.le_succ index) (lt_length_of_getElem? h))
  else none

theorem matchCharacter_found (c : Nat) (input : Text) (i : Nat) (m : Match)
    (h : matchCharacter c input i = some m) :
    m.source = input ∧ m.reg = some noGroups ∧ m.start = i := by
  rw [matchCharacter] at h
  split at h
  · cases h
    exact ⟨rfl, rfl, rfl⟩
  · cases h

/-- The pattern that is one character, without groups. -/
def character (c : Nat) : Pattern := ⟨noGroups, false, matchCharacter c, matchCharacter_found c⟩

end Pattern

end JavaScriptCore.Runtime
