import JavaScriptCore.Runtime.StringPrototype.Replace

/-!
# Where both ways of replacing agree

Both keep what stands between the matches and put a text in the place of each: `splice`. They differ
in the matches: the native function starts at zero even if the expression is sticky and not global,
and goes on one character after an empty match, where the built-in function goes on one code point
after it. And they differ in the texts: the built-in function drops a reference to a group that is
not there, counts one group too many, and knows no named ones.
-/

namespace JavaScriptCore.Runtime.StringReplace

open Json (Text)
open ProgramLogic Budgeted List RegExpObject
open StringPrototype (Match Token substring find find_some find_none dollar isASCIIDigit
  substituteBackreferences substituteBackreferences_eq substring_append_drop render render_eq_iff
  NothingLost expandFrom_eq length_render_le written_capture)
open RegExpPrototype (endOf next next_le matched isEmpty_matched)

/-- The source with a text in the place of each match, from a position on. -/
def splice (source : Text) (f : Match → Text) : Nat → List Match → Text
  | position, [] => source.drop position
  | position, m :: ms =>
    substring source position (m.start - position) ++ f m ++ splice source f m.stop ms

section

variable {src : Text} {f g : Match → Text} {ms : List Match}
  (h : ∀ m ∈ ms, (f m).length ≤ (g m).length) (position : Nat)

include h

theorem length_splice_le :
    (splice src f position ms).length ≤ (splice src g position ms).length := by
  induction ms generalizing position with
  | nil => exact Nat.le_refl _
  | cons m ms ih =>
    rw [forall_mem_cons] at h
    have := ih h.2 m.stop
    simp only [splice, length_append]
    omega

/-- Where no text is longer than another, nothing makes up for a text that is shorter. -/
theorem splice_eq_iff :
    splice src f position ms = splice src g position ms ↔ ∀ m ∈ ms, f m = g m := by
  induction ms generalizing position with
  | nil => simp [splice]
  | cons m ms ih =>
    rw [forall_mem_cons] at h ⊢
    rw [← ih h.2 m.stop, splice, splice, append_assoc, append_assoc, append_cancel_left_eq]
    constructor
    · intro heq
      have hlen := congrArg length heq
      have hle : (splice src f m.stop ms).length ≤ (splice src g m.stop ms).length :=
        length_splice_le h.2 m.stop
      rw [length_append, length_append] at hlen
      exact append_inj heq (by omega)
    · rintro ⟨hm, hms⟩
      rw [hm, hms]

end

/-! ## Ranges -/

section

variable {src : Text}

open StringRange

theorem spliceOne_eq (range : StringRange) : spliceOne src range = range.text src := by
  rw [spliceOne, text, substring, substring]
  split_ifs with h
  · rw [Nat.le_zero.mp h.1, drop_zero, take_of_length_le h.2]
  · rw [take_eq_take_iff, length_drop]
    omega

variable (ranges : List StringRange)

theorem jsSpliceSubstrings_eq :
    jsSpliceSubstrings src ranges = ranges.flatMap (text src) := by
  unfold jsSpliceSubstrings
  split
  · rw [spliceOne_eq, flatMap_singleton]
  · rfl

theorem jsSpliceSubstringsWithSeparators_eq (seps : List Text) :
    jsSpliceSubstringsWithSeparators src ranges seps = interleave src ranges seps := by
  unfold jsSpliceSubstringsWithSeparators
  split
  · rw [spliceOne_eq, interleave, interleave, flatten_nil, append_nil]
  · rfl

theorem interleave_append {ranges : List StringRange} {seps : List Text}
    (h : ranges.length = seps.length) (more : List StringRange) (others : List Text) :
    interleave src (ranges ++ more) (seps ++ others) =
      interleave src ranges seps ++ interleave src more others := by
  induction ranges generalizing seps with
  | nil =>
    rw [length_nil] at h
    rw [eq_nil_of_length_eq_zero h.symm]
    rfl
  | cons range ranges ih =>
    cases seps with
    | nil => simp at h
    | cons separator seps =>
      rw [length_cons, length_cons, Nat.add_right_cancel_iff] at h
      rw [cons_append, cons_append, interleave, interleave, ih h, ← append_assoc]

theorem text_last (lastIndex : Nat) :
    (if lastIndex < src.length then [mk lastIndex (src.length - lastIndex)]
      else []).flatMap (text src) = src.drop lastIndex := by
  split_ifs with h
  · rw [flatMap_singleton, text, substring, take_of_length_le]
    rw [length_drop]
  · rw [flatMap_nil, drop_of_length_le (by omega)]

theorem Search.last_eq (s : Search) (sl : Nat) : s.last sl = s.sourceRanges ++
    if s.lastIndex < sl then [⟨s.lastIndex, sl - s.lastIndex⟩] else [] := by
  rw [last]
  split
  · rfl
  · rw [append_nil]

theorem interleave_nil :
    interleave src ranges [] = ranges.flatMap (text src) := by
  induction ranges with
  | nil => rfl
  | cons range ranges ih => rw [interleave, ih, flatMap_cons]

/-- The range in front of a match, which is left out if it is empty. -/
theorem text_before (lastIndex st : Nat) :
    (if lastIndex < st then [mk lastIndex (st - lastIndex)] else []).flatMap
      (text src) = substring src lastIndex (st - lastIndex) := by
  split_ifs with h
  · rw [flatMap_singleton, text]
  · rw [flatMap_nil, substring, show st - lastIndex = 0 by omega, take_zero]

end

/-! ## The native loops -/

/-- Where the native loops go on after a match. -/
def nativeNext (m : Match) : Nat := endOf (· + 1) m

/-- Whether the native loops are left after a match. -/
def atEnd (source : Text) (m : Match) : Bool := m.empty && decide (source.length < m.stop + 1)

theorem Search.moveOn_eq (s : Search) (src : Text) (m : Match) :
    s.moveOn src.length m =
      ({ s with lastIndex := m.stop, startPosition := nativeNext m }, atEnd src m) := by
  rw [moveOn, nativeNext, endOf, atEnd]
  cases m.empty <;> simp

section

variable {regExp : RegExp} {src : Text}

variable {ms : List Match}

/-- A loop that is left after a match would not find another. -/
theorem sequence_atEnd {m : Match}
    (h : regExp.Sequence src nativeNext (nativeNext m) ms) (hend : atEnd src m = true) :
    ms = [] := by
  rw [atEnd, Bool.and_eq_true, decide_eq_true_iff] at hend
  obtain _ | ⟨hm, _⟩ := h
  · rfl
  have hn : regExp.matchFrom src (nativeNext m) = none := by
    apply regExp.matchFrom_beyond
    rw [nativeNext, endOf, if_pos hend.1]
    exact hend.2
  rw [hn] at hm
  cases hm

theorem le_nativeNext (m : Match) : m.stop ≤ nativeNext m := by
  rw [nativeNext, endOf]
  split <;> omega

/-- What a round does with a match: `collect` takes it in, and its text is `f`. -/
structure Collects (regExp : RegExp) (source : Text) (f : Match → Text)
    (round : Search → Search ⊕ Search) (collect : Search → Match → Search)
    (text : Search → Text) (Inv : Search → Prop) : Prop where
  done : ∀ s, regExp.matchFrom source s.startPosition = none → round s = .inr s
  found : ∀ s m, regExp.matchFrom source s.startPosition = some m →
    round s = if atEnd source m then .inr (collect s m) else .inl (collect s m)
  lastIndex : ∀ s m, (collect s m).lastIndex = m.stop
  startPosition : ∀ s m, (collect s m).startPosition = nativeNext m
  text : ∀ s m, Inv s → text (collect s m) =
    text s ++ substring source s.lastIndex (m.start - s.lastIndex) ++ f m
  inv : ∀ s m, Inv s → s.lastIndex ≤ m.start → Inv (collect s m)

variable {s : Search}

/-- A loop of such rounds takes in all matches. -/
theorem Collects.yields {f : Match → Text} {round : Search → Search ⊕ Search}
    {collect : Search → Match → Search} {text : Search → Text} {Inv : Search → Prop}
    (h : Collects regExp src f round collect text Inv)
    (hms : regExp.Sequence src nativeNext s.startPosition ms)
    (hp : s.lastIndex ≤ s.startPosition) (hinv : Inv s) :
    Yields (Budgeted.loop (fun s => pure (round s)) s) (fun s' => Inv s' ∧
      text s' ++ src.drop s'.lastIndex = text s ++ splice src f s.lastIndex ms) := by
  induction ms generalizing s with
  | nil =>
    obtain ⟨hn⟩ := hms
    exact yields_loop_inr (h.done s hn) ⟨hinv, rfl⟩
  | cons m ms ih =>
    obtain _ | ⟨hm, hr⟩ := hms
    have hle := RegExp.le_start hm
    have hc := h.inv s m hinv (Nat.le_trans hp hle)
    have hs := h.found s m hm
    have ht : text s ++ splice src f s.lastIndex (m :: ms) =
        text (collect s m) ++ splice src f (collect s m).lastIndex ms := by
      rw [splice, h.text s m hinv, h.lastIndex]
      simp
    rw [ht]
    cases hend : atEnd src m with
    | true =>
      rw [hend] at hs
      rw [sequence_atEnd hr hend]
      exact yields_loop_inr hs ⟨hc, rfl⟩
    | false =>
      rw [hend] at hs
      refine yields_loop_inl hs (ih ?_ ?_ hc)
      · rw [h.startPosition]
        exact hr
      · rw [h.startPosition, h.lastIndex]
        exact le_nativeNext m

/-! ### Removing -/

def removed (s : Search) (m : Match) : Search :=
  ⟨m.stop, nativeNext m, s.sourceRanges ++
    (if s.lastIndex < m.start then [⟨s.lastIndex, m.start - s.lastIndex⟩] else []),
    s.replacements⟩

theorem removeRound_collects (regExp : RegExp) (src : Text) :
    Collects regExp src (fun _ => []) (removeRound regExp src) removed
      (fun s => s.sourceRanges.flatMap (StringRange.text src))
      (fun s => s.lastIndex = 0 → s.sourceRanges = []) where
  done s h := by rw [removeRound, h]
  found s m h := by
    rw [removeRound, h]
    simp only [Search.moveOn_eq]
    cases atEnd src m <;> by_cases hlt : s.lastIndex < m.start <;> simp [hlt, removed]
  lastIndex _ _ := rfl
  startPosition _ _ := rfl
  text s m _ := by rw [removed, flatMap_append, text_before, append_nil]
  inv s m hinv hle hs := by
    have hs : m.stop = 0 := hs
    have := m.start_le_stop
    rw [removed, hinv (by omega), if_neg (by omega), append_nil]

theorem yields_removeUsingRegExpSearch (h : regExp.Sequence src nativeNext 0 ms) :
    Yields (removeUsingRegExpSearch regExp src) (· = splice src (fun _ => []) 0 ms) := by
  rw [removeUsingRegExpSearch]
  apply yields_bind
  refine ((removeRound_collects regExp src).yields (s := ⟨0, 0, [], []⟩) h (Nat.le_refl 0)
    fun _ => rfl).mono fun s ⟨hinv, ht⟩ => ?_
  rw [flatMap_nil, nil_append] at ht
  split_ifs with hz
  · rw [hinv hz, hz, flatMap_nil, nil_append, drop_zero] at ht
    exact yields_pure ht
  · apply yields_pure
    rw [jsSpliceSubstrings_eq, s.last_eq, flatMap_append, text_last, ht]

/-! ### Replacing -/

/-- The text for a match, in the place of which nothing is put for an empty replacement. -/
def nativeText (replacementString : Text) (m : Match) : Text :=
  if replacementString.length ≠ 0 then substituted replacementString m else []

def replaced (replacementString : Text) (s : Search) (m : Match) : Search :=
  let keep := s.lastIndex < m.start ∨ replacementString.length ≠ 0
  ⟨m.stop, nativeNext m,
    s.sourceRanges ++ (if keep then [⟨s.lastIndex, m.start - s.lastIndex⟩] else []),
    s.replacements ++ if keep then [nativeText replacementString m] else []⟩

variable (rep : Text)

theorem replaceRound_found {m : Match} (h : regExp.matchFrom src s.startPosition = some m) :
    replaceRound regExp src rep s =
      if atEnd src m ∨ regExp.global = false then .inr (replaced rep s m)
      else .inl (replaced rep s m) := by
  rw [replaceRound, h]
  simp only [Search.moveOn_eq]
  by_cases hk : s.lastIndex < m.start ∨ rep.length ≠ 0
  · simp only [if_pos hk, replaced, nativeText]
    cases atEnd src m <;> cases regExp.global <;> simp
  · simp only [if_neg hk, replaced, append_nil]
    cases atEnd src m <;> cases regExp.global <;> simp

theorem text_replaced (m : Match) (hlen : s.sourceRanges.length = s.replacements.length) :
    interleave src (replaced rep s m).sourceRanges (replaced rep s m).replacements =
      interleave src s.sourceRanges s.replacements ++
        substring src s.lastIndex (m.start - s.lastIndex) ++ nativeText rep m := by
  rw [replaced, interleave_append hlen, append_assoc]
  congr 1
  split_ifs with hk
  · simp [interleave, StringRange.text]
  · rw [not_or, not_not] at hk
    rw [nativeText, if_neg (not_not.mpr hk.2), show m.start - s.lastIndex = 0 by omega]
    rfl

theorem length_replaced (m : Match) (hlen : s.sourceRanges.length = s.replacements.length) :
    (replaced rep s m).sourceRanges.length = (replaced rep s m).replacements.length := by
  rw [replaced]
  split <;> simp [hlen]

theorem replaceRound_collects (hg : regExp.global = true) (src rep : Text) :
    Collects regExp src (nativeText rep) (replaceRound regExp src rep) (replaced rep)
      (fun s => interleave src s.sourceRanges s.replacements)
      (fun s => s.sourceRanges.length = s.replacements.length) where
  done s h := by rw [replaceRound, h]
  found s m h := by
    rw [replaceRound_found rep h]
    simp [hg]
  lastIndex _ _ := rfl
  startPosition _ _ := rfl
  text _ m hlen := text_replaced rep m hlen
  inv _ m hlen _ := length_replaced rep m hlen

/-- The matches that are replaced. -/
def Replaces (regExp : RegExp) (source : Text) (next : Match → Nat) (ms : List Match) : Prop :=
  if regExp.global then regExp.Sequence source next 0 ms
  else ms = (regExp.matchFrom source 0).toList

theorem yields_replaceRound (h : Replaces regExp src nativeNext ms) :
    Yields (Budgeted.loop (fun s => pure (replaceRound regExp src rep s))
      ⟨0, 0, [], []⟩) (fun s => s.sourceRanges.length = s.replacements.length ∧
        interleave src s.sourceRanges s.replacements ++ src.drop s.lastIndex =
          splice src (nativeText rep) 0 ms) := by
  rw [Replaces] at h
  cases hg : regExp.global with
  | true =>
    rw [hg, if_pos rfl] at h
    exact (replaceRound_collects hg src rep).yields (s := ⟨0, 0, [], []⟩) h (Nat.le_refl 0) rfl
  | false =>
    rw [hg, if_neg Bool.false_ne_true] at h
    cases hm : regExp.matchFrom src 0 with
    | none =>
      rw [h, hm]
      have hs : replaceRound regExp src rep ⟨0, 0, [], []⟩ =
          .inr ⟨0, 0, [], []⟩ := by simp only [replaceRound, hm]
      exact yields_loop_inr hs ⟨rfl, rfl⟩
    | some m =>
      rw [h, hm]
      have hs := replaceRound_found rep (s := ⟨0, 0, [], []⟩) hm
      rw [if_pos (.inr hg)] at hs
      refine yields_loop_inr hs ⟨length_replaced rep m rfl, ?_⟩
      rw [text_replaced rep m rfl, append_assoc]
      simp only [interleave, flatten_nil, nil_append, Option.toList_some, splice, append_assoc]
      rfl

end

theorem nativeText_nil : nativeText [] = fun _ => [] := by
  funext m
  exact if_neg (not_not.mpr rfl)

variable (rep : Text)

theorem yields_replaceUsingRegExpSearch {reo : RegExpObject} {string : Input}
    {ms : List Match} (h : Replaces reo.regExp string.characters nativeNext ms) :
    Yields (replaceUsingRegExpSearch reo string rep) (· =
      if reo.regExp.global ∧ reo.lastIndexIsWritable = false then
        .error (.typeError readonlyPropertyWriteError)
      else .ok (splice string.characters (nativeText rep) 0 ms)) := by
  have hs : Yields (do
      let s ← Budgeted.loop (fun s => pure (replaceRound reo.regExp string.characters
        rep s)) ⟨0, 0, [], []⟩
      if s.lastIndex = 0 ∧ s.replacements.isEmpty then return .ok string.characters
      return .ok (jsSpliceSubstringsWithSeparators string.characters
        (s.last string.characters.length) s.replacements)) (· = (.ok (splice string.characters
          (nativeText rep) 0 ms) : Except Exception Text)) := by
    apply yields_bind
    refine (yields_replaceRound rep h).mono fun s ⟨hlen, ht⟩ => ?_
    split_ifs with hn
    · apply yields_pure
      have hr := List.isEmpty_iff.mp hn.2
      rw [hr, length_nil] at hlen
      rw [← ht, hn.1, hr, eq_nil_of_length_eq_zero hlen]
      rfl
    · apply yields_pure
      have hl := @interleave_append string.characters _ _ hlen
        (if s.lastIndex < string.characters.length then
          [⟨s.lastIndex, string.characters.length - s.lastIndex⟩] else []) []
      rw [append_nil, interleave_nil, text_last, ht] at hl
      rw [jsSpliceSubstringsWithSeparators_eq, s.last_eq, hl]
  rw [replaceUsingRegExpSearch]
  cases hg : reo.regExp.global with
  | false => simpa [hg] using hs
  | true =>
    cases hw : reo.lastIndexIsWritable with
    | false =>
      simp only [setLastIndex, hw, Bool.false_eq_true, if_false, if_true, and_self]
      exact yields_pure rfl
    | true =>
      simp only [setLastIndex, hw, if_true, Bool.true_eq_false, and_false, if_false]
      split_ifs with he
      · rw [Replaces, hg, if_pos rfl] at h
        apply yields_bind
        refine (yields_removeUsingRegExpSearch h).mono fun text ht => yields_pure ?_
        rw [List.isEmpty_iff.mp he, nativeText_nil, ht]
      · exact hs

/-! ## The texts -/

namespace Substitution

variable (s : Substitution)

/-- What `getSubstitution` writes, after the first `n` characters, which belong to a reference. -/
def expandFrom : Nat → Text → Text
  | _, [] => []
  | n + 1, _ :: text => expandFrom n text
  | 0, c :: text =>
    if c = dollar then (s.dollarForm text).1 ++ expandFrom (s.dollarForm text).2 text
    else c :: expandFrom 0 text

theorem expandFrom_eq_drop (n : Nat) (text : Text) :
    s.expandFrom n text = s.expandFrom 0 (text.drop n) := by
  induction text generalizing n with
  | nil => cases n <;> rfl
  | cons c text ih =>
    cases n with
    | zero => rfl
    | succ n => exact ih n

theorem expandFrom_literals {front : Text} (h : ∀ c ∈ front, c ≠ dollar) (text : Text) :
    s.expandFrom 0 (front ++ text) = front ++ s.expandFrom 0 text := by
  induction front with
  | nil => rfl
  | cons c front ih =>
    rw [forall_mem_cons] at h
    rw [cons_append, expandFrom, if_neg h.1, ih h.2, cons_append]

theorem loop_eq {rep : Text} {fuel ls : Nat} (hfu : rep.length - ls < fuel) (result : Text) :
    s.loop rep fuel ls result = some (result ++ s.expandFrom 0 (rep.drop ls)) := by
  induction fuel generalizing ls result with
  | zero => exact absurd hfu (Nat.not_lt_zero _)
  | succ fuel ih =>
    rw [loop]
    cases hf : find rep dollar ls with
    | none =>
      have hl := s.expandFrom_literals (find_none hf) []
      rw [append_nil] at hl
      simp [hl, expandFrom]
    | some st =>
      obtain ⟨front, back, hsp, rfl, hfr⟩ := find_some hf
      have hb : rep.drop (ls + front.length + 1) = back := by
        rw [Nat.add_assoc, ← drop_drop, hsp, drop_append]
        simp
      have hk : substring rep ls (ls + front.length - ls) = front := by
        rw [substring, hsp, Nat.add_sub_cancel_left, take_left]
      have hlen := congrArg length hsp
      rw [length_drop, length_append, length_cons] at hlen
      simp only [hb, hk]
      rw [ih (by omega), hsp, s.expandFrom_literals hfr, expandFrom, if_pos rfl,
        s.expandFrom_eq_drop (s.dollarForm back).2, ← hb, drop_drop]
      simp

theorem getSubstitution_eq :
    s.getSubstitution rep = some (s.expandFrom 0 rep) :=
  s.loop_eq (Nat.lt_succ_of_le (Nat.sub_le _ _)) []

end Substitution

/-- The arguments of `getSubstitution` for a match. -/
def substitution (m : Match) : Substitution where
  matched := matched m.source m
  str := m.source
  position := m.start
  captures := capturesOf (createRegExpMatchesArray m.groups m)

/-! ### References that both know -/

/-- How many characters there are to a reference by digits to one of the groups. References to
other groups are not known, nor is one that the number of a group could follow that is one too
large. -/
def knownDigit (groups d : Nat) : Option Nat := if 1 ≤ d ∧ d ≤ groups then some 1 else none

def knownDigits (groups d : Nat) : Text → Option Nat
  | c :: _ =>
    if isASCIIDigit c then
      let twoDigits := 10 * d + (c - 0x30)
      if 1 ≤ twoDigits ∧ twoDigits ≤ groups then some 2
      else if twoDigits = groups + 1 then none
      else knownDigit groups d
    else knownDigit groups d
  | [] => knownDigit groups d

/-- Whether a group has a name. -/
def hasNames (m : Match) : Bool := m.reg.any StringPrototype.RegExp.hasNamedCaptures

/-- How many characters belong to a `$` in front of a text, `none` for what is not known to both:
the digits of other groups, and names. -/
def known (m : Match) : Text → Option Nat
  | [] => some 0
  | c :: text =>
    if c = dollar ∨ c = 0x26 ∨ c = 0x60 ∨ c = 0x27 then some 1
    else if isASCIIDigit c then knownDigits m.groups (c - 0x30) text
    else if c = 0x3C ∧ hasNames m ∧ 0x3E ∈ text then none
    else some 0

/-- A replacement has only references that both functions know. -/
def plainFrom (m : Match) : Nat → Text → Bool
  | _, [] => true
  | n + 1, _ :: text => plainFrom m n text
  | 0, c :: text =>
    if c = dollar then
      match known m text with
      | some n => plainFrom m n text
      | none => false
    else plainFrom m 0 text

def Plain (m : Match) (replacement : Text) : Prop := plainFrom m 0 replacement = true

instance (m : Match) (replacement : Text) : Decidable (Plain m replacement) :=
  inferInstanceAs (Decidable (_ = true))

/-- No reference is by a name. -/
def Unnamed (m : Match) (replacement : Text) : Prop :=
  hasNames m = true → ¬[dollar, 0x3C] <:+: replacement

section

variable {m : Match}

theorem getD_group (k : Nat) : (m.group k).getD [] = m.capture k := by
  rw [← written_capture, Match.group]
  split <;> split <;> first | rfl | omega

theorem captures_eq (h : 1 ≤ m.groups) : (substitution m).captures =
    none :: (range m.groups).map fun i => m.group (i + 1) := by
  simp only [substitution, capturesOf, createRegExpMatchesArray, drop_one, tail_cons]
  cases hc : (range m.groups).map fun i => m.group (i + 1) with
  | nil =>
    have := congrArg length hc
    simp at this
    omega
  | cons => rfl

theorem length_captures (m : Match) : m.groups = 0 ∧ (substitution m).captures.length = 0 ∨
    1 ≤ m.groups ∧ (substitution m).captures.length = m.groups + 1 := by
  by_cases hg : 1 ≤ m.groups
  · rw [captures_eq hg, length_cons, length_map, length_range]
    exact .inr ⟨hg, rfl⟩
  · have hz : m.groups = 0 := by omega
    exact .inl ⟨hz, by simp [substitution, capturesOf, createRegExpMatchesArray, hz]⟩

/-- What a number stands for: the text of a group, or nothing. -/
def numbered (m : Match) (k : Nat) : Text := if 1 ≤ k ∧ k ≤ m.groups then m.capture k else []

theorem captured_eq (m : Match) (k length : Nat) :
    (if k = 0 then ([], length)
      else ((((substitution m).captures[k]?).getD none).getD [], length)) =
        (numbered m k, length) := by
  rw [numbered]
  by_cases hk : 1 ≤ k ∧ k ≤ m.groups
  · obtain ⟨k, rfl⟩ := Nat.exists_eq_add_of_le' hk.1
    rw [if_neg (by omega), if_pos hk, captures_eq (by omega), List.getElem?_cons_succ,
      List.getElem?_map, List.getElem?_range (by omega)]
    exact congrArg (·, length) (getD_group (k + 1))
  · rw [if_neg hk]
    split_ifs with hz
    · rfl
    · have hlen := length_captures m
      rw [getElem?_eq_none (by omega)]
      rfl

variable {n : Nat} {text : Text}

/-- Two digits are taken if their number is not above the length of the captures. -/
theorem digit_eq (m : Match) (c : Nat) (text : Text) : (substitution m).digit c text =
    match text with
    | c' :: _ =>
      if isASCIIDigit c' = true ∧
          10 * (c - 0x30) + (c' - 0x30) ≤ (substitution m).captures.length then
        (numbered m (10 * (c - 0x30) + (c' - 0x30)), 2)
      else (numbered m (c - 0x30), 1)
    | [] => (numbered m (c - 0x30), 1) := by
  have hlen := length_captures m
  have hone : (if c - 0x30 > (substitution m).captures.length then ([], 1)
      else if c - 0x30 = 0 then ([], 1)
      else ((((substitution m).captures[c - 0x30]?).getD none).getD [], 1)) =
        (numbered m (c - 0x30), 1) := by
    rw [captured_eq]
    split_ifs with hgt
    · rw [numbered, if_neg (by omega)]
    · rfl
  cases text with
  | nil => exact hone
  | cons c' text =>
    simp only [Substitution.digit]
    by_cases hdg : isASCIIDigit c' = true
    · have hr : 0x30 ≤ c' ∧ c' ≤ 0x39 := by simpa [isASCIIDigit] using hdg
      rw [show 10 * (c - 0x30) + c' - 0x30 = 10 * (c - 0x30) + (c' - 0x30) by omega]
      by_cases htwo : 10 * (c - 0x30) + (c' - 0x30) ≤ (substitution m).captures.length
      · simp only [if_pos (And.intro hdg htwo), captured_eq]
        rw [if_neg (by omega)]
      · simp only [htwo, and_false, if_false]
        exact hone
    · simp only [hdg, Bool.false_eq_true, false_and, if_false]
      exact hone

/-- A reference to a group is the same to both. Digits that are not known are dropped by
`getSubstitution`, of which the language keeps all, or takes the first for a group and keeps the
second. -/
theorem digit_cases (m : Match) (c : Nat) (text : Text) :
    (∃ k n, knownDigits m.groups (c - 0x30) text = some n ∧
      (substitution m).digit c text = (m.capture k, n) ∧
      m.digits (c - 0x30) text = some (m.capture k, n)) ∨
    knownDigits m.groups (c - 0x30) text = none ∧
      ∃ k, (substitution m).digit c text = ([], k + 1) ∧
        (∀ d ∈ text.take k, isASCIIDigit d = true) ∧ (m.digits (c - 0x30) text = none ∨
          (∃ written, m.digits (c - 0x30) text = some (written, 1)) ∧ text.take k ≠ []) := by
  rw [digit_eq]
  have hlen := length_captures m
  generalize c - 0x30 = d
  have hone : (∃ k n, knownDigit m.groups d = some n ∧ (numbered m d, 1) = (m.capture k, n) ∧
      m.oneDigit d = some (m.capture k, n)) ∨ knownDigit m.groups d = none ∧
        numbered m d = [] ∧ m.oneDigit d = none := by
    by_cases hd : 1 ≤ d ∧ d ≤ m.groups
    · exact .inl ⟨d, 1, if_pos hd, congrArg (·, 1) (if_pos hd), if_pos hd⟩
    · exact .inr ⟨if_neg hd, if_neg hd, if_neg hd⟩
  have hfirst (h : knownDigit m.groups d = none ∧ numbered m d = [] ∧ m.oneDigit d = none) :
      knownDigit m.groups d = none ∧ ∃ k, (numbered m d, 1) = ([], k + 1) ∧
        (∀ d ∈ text.take k, isASCIIDigit d = true) ∧ (m.oneDigit d = none ∨
          (∃ written, m.oneDigit d = some (written, 1)) ∧ text.take k ≠ []) :=
    ⟨h.1, 0, congrArg (·, 1) h.2.1, by simp, .inl h.2.2⟩
  cases text with
  | nil => exact hone.imp_right hfirst
  | cons c' text =>
    rw [knownDigits, Match.digits]
    by_cases hdg : isASCIIDigit c' = true
    · simp only [hdg, true_and, if_true]
      obtain ⟨two, htwo⟩ : ∃ two, two = 10 * d + (c' - 0x30) := ⟨_, rfl⟩
      simp only [← htwo]
      by_cases hgroup : 1 ≤ two ∧ two ≤ m.groups
      · refine .inl ⟨two, 2, if_pos hgroup, ?_, if_pos hgroup⟩
        rw [if_pos (by omega), numbered, if_pos hgroup]
      simp only [if_neg hgroup]
      by_cases hle : two ≤ (substitution m).captures.length
      · have hd : two ≠ m.groups + 1 → d = 0 := by omega
        refine .inr ⟨?_, 1, ?_, by simpa using hdg, ?_⟩
        · rw [knownDigit]
          split_ifs <;> first | rfl | omega
        · rw [if_pos hle, numbered, if_neg hgroup]
        · rw [Match.oneDigit]
          split_ifs <;> simp
      · simp only [if_neg hle]
        by_cases hlast : two = m.groups + 1
        · rw [if_pos hlast]
          have hd : ¬(1 ≤ d ∧ d ≤ m.groups) := by omega
          exact .inr ⟨rfl, (hfirst ⟨if_neg hd, if_neg hd, if_neg hd⟩).2⟩
        · rw [if_neg hlast]
          exact hone.imp_right hfirst
    · simp only [hdg, Bool.false_eq_true, false_and, if_false]
      exact hone.imp_right hfirst

theorem matched_eq (m : Match) : matched m.source m = m.capture 0 := by
  rw [← getD_group, Match.group_zero]
  rfl

theorem length_matched (m : Match) : (matched m.source m).length = m.stop - m.start := by
  have hs := m.stop_le_length
  rw [matched, substring, length_take, length_drop]
  omega

theorem take_position (m : Match) :
    (if (substitution m).position > 0 then (substitution m).str.take (substitution m).position
      else []) = m.source.take (m.ovector 0).toNat := by
  split_ifs with hz
  · rfl
  · rw [show (m.ovector 0).toNat = 0 from Nat.le_zero.mp (Nat.le_of_not_lt hz), take_zero]

theorem drop_tailPos (m : Match) :
    (if (substitution m).position + (substitution m).matched.length < (substitution m).str.length
      then (substitution m).str.drop ((substitution m).position + (substitution m).matched.length)
      else []) = m.source.drop (m.ovector 1).toNat := by
  have hstop : (substitution m).position + (substitution m).matched.length = m.stop := by
    have := m.start_le_stop
    show m.start + (matched m.source m).length = m.stop
    rw [length_matched]
    omega
  rw [hstop]
  split_ifs with hlt
  · rfl
  · exact (drop_of_length_le (Nat.le_of_not_lt hlt)).symm

/-- A form that both know is the same to both. -/
theorem dollarForm_of_known (h : known m text = some n) :
    m.reference text = some ((substitution m).dollarForm text) ∧
        ((substitution m).dollarForm text).2 = n ∨
      m.reference text = none ∧ (substitution m).dollarForm text = ([dollar], 0) ∧ n = 0 := by
  cases text with
  | nil =>
    cases h
    exact .inr ⟨rfl, rfl, rfl⟩
  | cons c text =>
    rw [known] at h
    rw [Match.reference, Substitution.dollarForm]
    split_ifs at h with hs hdg ho
    · cases h
      obtain rfl | rfl | rfl | rfl := hs
      · exact .inl (by simp)
      · exact .inl (by simp [dollar, substitution, matched_eq])
      · exact .inl (by simp [dollar, take_position])
      · exact .inl (by simp [dollar, drop_tailPos])
    · obtain ⟨k, _, hk, hf, hdi⟩ | ⟨hk, -⟩ := digit_cases m c text
      · cases hk.symm.trans h
        rw [not_or, not_or, not_or] at hs
        exact .inl (by simp [hs, hdg, hf, hdi])
      · cases hk.symm.trans h
    · cases h
      rw [not_or, not_or, not_or] at hs
      refine .inr ⟨?_, by simp [hs, hdg]⟩
      simp only [hs, hdg, Bool.false_eq_true, if_false]
      split_ifs with hlt
      · cases hr : m.reg with
        | none => rfl
        | some reg =>
          cases hn : reg.hasNamedCaptures with
          | false => simp [hn]
          | true =>
            have hno : 0x3E ∉ text := fun hin => ho ⟨hlt, by simp [hasNames, hr, hn], hin⟩
            have hf : text.findIdx? (· == 0x3E) = none := by
              rw [findIdx?_eq_none_iff]
              intro d hd
              simpa using fun h : d = 0x3E => hno (h ▸ hd)
            simp [Match.named, hf]
      · rfl

/-- A replacement that both know has the same text for both. -/
theorem expandFrom_of_plain (h : plainFrom m n text = true) :
    m.expandFrom n text = (substitution m).expandFrom n text := by
  induction text generalizing n with
  | nil => cases n <;> rfl
  | cons c text ih =>
    cases n with
    | succ n => exact ih h
    | zero =>
      rw [plainFrom] at h
      rw [Match.expandFrom, Substitution.expandFrom]
      split_ifs at h with hc
      · rw [if_pos hc, if_pos hc]
        cases hk : known m text with
        | none => simp [hk] at h
        | some n =>
          simp only [hk] at h
          obtain ⟨href, rfl⟩ | ⟨href, hf, rfl⟩ := dollarForm_of_known hk
          · simp [href, ih h]
          · simp [href, hf, ih h, hc]
      · rw [if_neg hc, if_neg hc, ih h]

/-! ### Other references -/

theorem isASCIIDigit_ne {c : Nat} (h : isASCIIDigit c = true) : c ≠ dollar := by
  rintro rfl
  cases h

theorem expandFrom_take (h : ∀ c ∈ text.take n, c ≠ dollar) :
    m.expandFrom 0 text = text.take n ++ m.expandFrom n text := by
  induction text generalizing n with
  | nil => cases n <;> rfl
  | cons c text ih =>
    cases n with
    | zero => rfl
    | succ n =>
      rw [take_succ_cons, forall_mem_cons] at h
      simp only [Match.expandFrom, if_neg h.1, ih h.2, take_succ_cons, cons_append]

/-- Without names, what is not known are digits. -/
theorem digit_of_known_none (hn : Unnamed m (dollar :: text)) (h : known m text = none) :
    ∃ c rest, text = c :: rest ∧ isASCIIDigit c = true ∧
      knownDigits m.groups (c - 0x30) rest = none ∧
      (substitution m).dollarForm text = (substitution m).digit c rest ∧
      m.reference text = m.digits (c - 0x30) rest := by
  cases text with
  | nil => cases h
  | cons c rest =>
    rw [known] at h
    split_ifs at h with hs hdg ho
    · simp only [not_or] at hs
      refine ⟨c, rest, rfl, hdg, h, ?_, ?_⟩
      · simp [Substitution.dollarForm, hs, hdg]
      · simp [Match.reference, hs, hdg]
    · obtain ⟨rfl, hnames, _⟩ := ho
      exact absurd ⟨[], rest, rfl⟩ (hn hnames)

/-- Without names, `getSubstitution` writes less than the language asks for unless it knows all
references. -/
theorem length_expandFrom (hn : Unnamed m text) :
    ((substitution m).expandFrom n text).length + (if plainFrom m n text then 0 else 1) ≤
      (m.expandFrom n text).length := by
  induction text generalizing n with
  | nil => cases n <;> simp [Substitution.expandFrom, plainFrom]
  | cons c text ih =>
    have hu : Unnamed m text := fun h hin => hn h (hin.trans (suffix_cons c text).isInfix)
    have ih n := @ih n hu
    cases n with
    | succ n => exact ih n
    | zero =>
      rw [Substitution.expandFrom, Match.expandFrom, plainFrom]
      by_cases hc : c = dollar
      · simp only [if_pos hc]
        cases hk : known m text with
        | some n =>
          have := ih n
          obtain ⟨href, rfl⟩ | ⟨href, hf, rfl⟩ := dollarForm_of_known hk
          · simp only [href, length_append]
            omega
          · simp only [href, hf, length_append, length_cons, length_nil]
            omega
        | none =>
          obtain ⟨d, rest, rfl, hd, hu, hform, href⟩ := digit_of_known_none (hc ▸ hn) hk
          obtain ⟨_, _, hknown, -⟩ | ⟨-, k, hdi, hdigits, hwritten⟩ := digit_cases m d rest
          · cases hknown.symm.trans hu
          have hle := ih (k + 1)
          have hrest := expandFrom_take (m := m) (n := k) fun c hc => isASCIIDigit_ne (hdigits c hc)
          have hlen := congrArg length hrest
          simp only [hform, hdi, href, nil_append, Match.expandFrom] at hle ⊢
          rw [length_append] at hlen
          obtain hnot | ⟨⟨written, hw⟩, hne⟩ := hwritten
          · rw [hnot]
            simp only [if_neg (isASCIIDigit_ne hd), length_cons]
            simp
            omega
          · have hpos := length_pos_iff.mpr hne
            rw [hw]
            simp only [length_append, Match.expandFrom]
            simp
            omega
      · simp only [if_neg hc, length_cons]
        have := ih 0
        omega

/-! ### Both texts -/

variable {rep : Text}

theorem nativeText_eq (m : Match) : nativeText rep m = render [] (m.tokens rep) := by
  have hs := @substituteBackreferences_eq m rep []
  rw [nil_append] at hs
  rw [nativeText]
  split_ifs with he
  · simp only [substituted, hs, Option.get_some]
  · rw [eq_nil_of_length_eq_zero (not_not.mp he)]
    rfl

/-- The text of the built-in function. -/
def builtinText (replacement : Text) (m : Match) : Text := (substitution m).expandFrom 0 replacement

theorem nativeText_of_nothingLost (h : NothingLost (m.tokens rep)) :
    nativeText rep m = m.expandFrom 0 rep := by
  rw [nativeText_eq, expandFrom_eq]
  exact (render_eq_iff [] (m.tokens rep)).mpr ⟨fun h => absurd rfl h, h⟩

/-- Either the native function loses nothing and no reference is by a name, or all references are
known: what one function drops is not made up for by what the other one drops. -/
def OneSided (replacement : Text) (ms : List Match) : Prop :=
  (∀ m ∈ ms, NothingLost (m.tokens replacement) ∧ Unnamed m replacement) ∨
    ∀ m ∈ ms, Plain m replacement

theorem splice_texts_eq_iff (src : Text) {ms : List Match} (h : OneSided rep ms) :
    splice src (nativeText rep) 0 ms = splice src (builtinText rep) 0 ms ↔
      ∀ m ∈ ms, NothingLost (m.tokens rep) ∧ Plain m rep := by
  obtain h | h := h
  · have hle : ∀ m ∈ ms, (builtinText rep m).length + (if plainFrom m 0 rep then 0 else 1) ≤
        (nativeText rep m).length := by
      intro m hm
      rw [nativeText_of_nothingLost (h m hm).1]
      exact length_expandFrom (h m hm).2
    rw [eq_comm, splice_eq_iff fun m hm => Nat.le_of_add_right_le (hle m hm)]
    refine forall₂_congr fun m hm => ?_
    constructor
    · intro heq
      have := hle m hm
      rw [heq] at this
      refine ⟨(h m hm).1, ?_⟩
      by_contra hp
      rw [if_neg (show ¬plainFrom m 0 rep = true from hp)] at this
      omega
    · rintro ⟨hl, hp⟩
      rw [nativeText_of_nothingLost hl, expandFrom_of_plain hp]
      rfl
  · have heq : ∀ m ∈ ms, builtinText rep m = (m.tokens rep).flatMap Token.text := by
      intro m hm
      rw [builtinText, ← expandFrom_of_plain (h m hm), expandFrom_eq]
      rfl
    rw [splice_eq_iff]
    · refine forall₂_congr fun m hm => ?_
      rw [heq m hm, nativeText_eq, ← nil_append (flatMap _ _), render_eq_iff]
      simp [h m hm]
    · intro m hm
      have := length_render_le [] (m.tokens rep)
      rw [heq m hm, nativeText_eq]
      simpa using this

end

/-! ## The built-in function -/

section

variable {re : RegExpObject} {str : Input}

abbrev arrayOf (regexp : RegExpObject) (m : Match) : MatchesArray :=
  createRegExpMatchesArray regexp.regExp.numSubpatterns m

theorem collectRound_found {st : Nat} {m : Match}
    (hm : re.regExp.matchFrom str.characters st = some m)
    (hs : re.StartsAt st) (rl : List MatchesArray) :
    collectRound str true re.regExp.unicode (re, rl) =
      .inl ({ re with lastIndex := jsNumber (next re.regExp str.characters m) },
        rl ++ [arrayOf re m]) := by
  have hb : str.characters.length ≤ 0x7FFFFFFF := str.bounded
  have hsp := RegExp.stop_le hm
  have hl := (toLength_jsNumber (show m.stop ≤ 0x80000000 by omega)).1
  have hf : ((arrayOf re m).elements.headD none).getD [] = matched str.characters m := by
    rw [← RegExp.source_eq hm]
    rfl
  simp only [collectRound, hs.execInline, hm, Option.map_some, Option.elim_some, Bool.not_true,
    Bool.false_eq_true, if_false, hf, isEmpty_matched hm, hl, hs.setLastIndex,
    RegExpPrototype.next, endOf]
  cases m.empty <;> rfl

theorem yields_collectRound {st : Nat} {ms : List Match} (hs : re.StartsAt st)
    (h : re.regExp.Sequence str.characters (next re.regExp str.characters) st ms)
    (rl : List MatchesArray) :
    Yields (Budgeted.loop (fun s => pure (collectRound str true re.regExp.unicode s))
      (re, rl)) (· = .ok (rl ++ ms.map (arrayOf re))) := by
  induction ms generalizing st re rl with
  | nil =>
    obtain ⟨hn⟩ := h
    have hst : collectRound str true re.regExp.unicode (re, rl) = .inr (.ok rl) := by
      simp [collectRound, hs.execInline, hn]
    exact yields_loop_inr hst (by simp)
  | cons m ms ih =>
    obtain _ | ⟨hm, hre⟩ := h
    have hle := next_le hm
    have hb : str.characters.length ≤ 0x7FFFFFFF := str.bounded
    have hl := ih (hs.goOn (show next re.regExp str.characters m ≤ _ by omega)) hre
      (rl ++ [arrayOf re m])
    refine yields_loop_inl (collectRound_found hm hs rl) (hl.mono fun result hr => ?_)
    rw [hr, append_assoc, singleton_append, map_cons]

/-- The second loop splices. -/
theorem accumulate_eq (replace : Text) {ms : List Match}
    (hms : ∀ m ∈ ms, m.source = str.characters ∧ m.groups = re.regExp.numSubpatterns)
    {p q : Nat} (hq : q ≤ p) (ho : (∀ m ∈ ms, p ≤ m.start) ∧
      ms.Pairwise (fun m m' => m.stop ≤ m'.start)) (acc : Text) :
    accumulate str.characters replace (ms.map (arrayOf re)) acc p q =
      some (acc ++ splice str.characters (builtinText replace) p ms) := by
  induction ms generalizing p q acc with
  | nil =>
    rw [map_nil, accumulate, splice]
    split_ifs with hend
    · rw [drop_of_length_le hend, append_nil]
    · rfl
  | cons m ms ih =>
    rw [forall_mem_cons] at hms
    obtain ⟨hsta, hp⟩ := ho
    rw [forall_mem_cons] at hsta
    rw [pairwise_cons] at hp
    obtain ⟨hsrc, hg⟩ := hms.1
    have hlen := m.stop_le_length
    have hle := m.start_le_stop
    have hmin : min (arrayOf re m).index str.characters.length = m.start := by
      rw [← hsrc]
      exact Nat.min_eq_left (Nat.le_trans hle hlen)
    have hm : ((arrayOf re m).elements.headD none).getD [] = matched m.source m := rfl
    have hs : Substitution.mk (matched m.source m) str.characters m.start
        (capturesOf (arrayOf re m)) = substitution m := by
      rw [← hsrc, substitution, hg]
    have hsp : m.start + (matched m.source m).length = m.stop := by
      rw [length_matched]
      omega
    rw [map_cons, accumulate]
    simp only [hmin, hm, hs, Substitution.getSubstitution_eq, bind, Option.bind, hsp]
    rw [if_pos ⟨hsta.1, Nat.le_trans hq hsta.1⟩, ih hms.2 hle ⟨hp.1, hp.2⟩, splice]
    simp [builtinText]

end

/-! ## Agreement -/

/-- The built-in function finds the matches of the native one: after each, a global search goes on
with the same match from one character as from one code point after an empty one, and a search that
is not global and sticky finds from `lastIndex` what it finds from zero. -/
structure SameMatches (regexp : RegExpObject) (str : Input) (ms : List Match) : Prop where
  goesOn : regexp.regExp.global = true → regexp.lastIndexIsWritable = true → ∀ m ∈ ms,
    regexp.regExp.matchFrom str.characters (next regexp.regExp str.characters m) =
      regexp.regExp.matchFrom str.characters (nativeNext m)
  starts : regexp.regExp.global = false → regexp.regExp.sticky = true →
    (regexp.attempt str).map Prod.fst = .ok (regexp.regExp.matchFrom str.characters 0)

section

variable {re : RegExpObject} {str : Input} {rep : Text} {ms : List Match} {regExp : RegExp}
    {src : Text}

theorem sequence_congr {f g : Match → Nat} {st : Nat} (hms : regExp.Sequence src f st ms)
    (h : ∀ m ∈ ms, regExp.matchFrom src (g m) = regExp.matchFrom src (f m)) :
    regExp.Sequence src g st ms := by
  induction hms with
  | done hn => exact .done hn
  | found hm hr ih =>
    rw [forall_mem_cons] at h
    refine .found hm ?_
    cases ih h.2 with
    | done hn => exact .done (h.1.trans hn)
    | found hm' hr' => exact .found (h.1.trans hm') hr'

theorem lt_nativeNext (st : Nat) (m : Match)
    (h : regExp.matchFrom src st = some m) : st < nativeNext m := by
  have hle := RegExp.le_start h
  have hs := m.start_le_stop
  rw [nativeNext, endOf, Match.empty]
  split_ifs with he
  · omega
  · have : m.start ≠ m.stop := by simpa using he
    omega

theorem exists_replaces (regExp : RegExp) (src : Text) :
    ∃ ms, Replaces regExp src nativeNext ms := by
  unfold Replaces
  cases regExp.global with
  | true => exact RegExp.exists_sequence lt_nativeNext 0
  | false => exact ⟨_, rfl⟩

theorem Replaces.found {next : Match → Nat} (h : Replaces regExp src next ms) :
    ∀ m ∈ ms, ∃ i, regExp.matchFrom src i = some m := by
  rw [Replaces] at h
  split at h
  · generalize 0 = st at h
    induction h with
    | done => exact fun _ hm => (nomatch hm)
    | found hma _ ih => exact forall_mem_cons.mpr ⟨⟨_, hma⟩, ih⟩
  · rw [h]
    exact fun m hm => ⟨0, Option.mem_toList.mp hm⟩

theorem Replaces.ordered (h : Replaces regExp src nativeNext ms) :
    (∀ m ∈ ms, 0 ≤ m.start) ∧ ms.Pairwise (fun m m' => m.stop ≤ m'.start) := by
  refine ⟨fun _ _ => Nat.zero_le _, ?_⟩
  rw [Replaces] at h
  split at h
  · exact (h.ordered le_nativeNext).2
  · rw [h]
    cases regExp.matchFrom src 0 <;> simp

/-- A single search of an expression that is not global. -/
theorem SameMatches.execInline (h : SameMatches re str ms) (hg : re.regExp.global = false) :
    ∃ after, re.execInline str =
      .ok ((re.regExp.matchFrom str.characters 0).map (arrayOf re), after) := by
  have ha : (re.attempt str).map Prod.fst = .ok (re.regExp.matchFrom str.characters 0) := by
    cases hs : re.regExp.sticky with
    | true => exact h.starts hg hs
    | false =>
      have hf : re.regExp.globalOrSticky = false := by simp [RegExp.globalOrSticky, hg, hs]
      rw [attempt, hf]
      rfl
  rw [(inline_eq _ _).1]
  cases hat : re.attempt str with
  | error e =>
    rw [hat] at ha
    cases ha
  | ok result =>
    rw [hat] at ha
    obtain ⟨found, after⟩ := result
    cases ha
    exact ⟨after, rfl⟩

theorem yields_replace (h : SameMatches re str ms)
    (hms : Replaces re.regExp str.characters nativeNext ms) (rep : Text) :
    Yields (replace re str rep) (· =
      if re.regExp.global ∧ re.lastIndexIsWritable = false then
        .error (.typeError readonlyPropertyWriteError)
      else .ok (some (splice str.characters (builtinText rep) 0 ms))) := by
  have hfo : ∀ m ∈ ms, m.source = str.characters ∧ m.groups = re.regExp.numSubpatterns := by
    intro m hm
    obtain ⟨i, hma⟩ := hms.found m hm
    obtain ⟨hs, hreg, _⟩ := re.regExp.found _ _ _ hma
    exact ⟨hs, by rw [Match.groups, hreg]; rfl⟩
  have ha := accumulate_eq rep hfo (Nat.le_refl 0) hms.ordered []
  rw [nil_append] at ha
  rw [replace]
  cases hg : re.regExp.global with
  | true =>
    cases hw : re.lastIndexIsWritable with
    | false =>
      simp only [setLastIndex, hw, Bool.false_eq_true, if_false, if_true, and_self]
      exact yields_pure rfl
    | true =>
      have hset : re.setLastIndex 0 = .ok { re with lastIndex := jsNumber 0 } := if_pos hw
      simp only [hset, if_true, Bool.true_eq_false, and_false, if_false, Bool.true_and]
      rw [Replaces, hg, if_pos rfl] at hms
      have hf : re.regExp.globalOrSticky = true := by simp [RegExp.globalOrSticky, hg]
      have hl := @yields_collectRound { re with lastIndex := jsNumber 0 } str 0 ms
        ⟨hf, hw, toLength_jsNumber (Nat.zero_le _)⟩ (sequence_congr hms (h.goesOn hg hw)) []
      apply yields_bind
      refine hl.mono fun result hr => yields_pure ?_
      rw [hr, nil_append, ← ha]
      rfl
  | false =>
    obtain ⟨after, he⟩ := h.execInline hg
    rw [Replaces, hg, if_neg Bool.false_ne_true] at hms
    have hst : collectRound str false false (re, []) = .inr (.ok (ms.map (arrayOf re))) := by
      rw [hms, collectRound]
      simp only [he]
      cases re.regExp.matchFrom str.characters 0 <;> rfl
    apply yields_bind
    refine yields_loop_inr hst (yields_pure ?_)
    rw [← ha]
    rfl

/-- Both functions return the same text, or throw the same. -/
def Agree (regexp : RegExpObject) (str : Input) (replacement : Text) : Prop :=
  ∃ result : Except Exception Text,
    Yields (replaceUsingRegExpSearch regexp str replacement) (· = result) ∧
    Yields (replace regexp str replacement) (· = result.map some)

end

/-- The native function replaces some matches. Where the built-in one finds the same, they agree if
and only if for every match that is replaced no text is lost and all references are known to both;
what is lost and what is unknown is considered one at a time. -/
theorem replace_eq_iff (regexp : RegExpObject) (str : Input) (replacement : Text) :
    (∃ ms, Replaces regexp.regExp str.characters nativeNext ms) ∧
    ∀ ms, Replaces regexp.regExp str.characters nativeNext ms → SameMatches regexp str ms →
      OneSided replacement ms →
      (Agree regexp str replacement ↔
        ((regexp.regExp.global = true → regexp.lastIndexIsWritable = true) →
          ∀ m ∈ ms, NothingLost (m.tokens replacement) ∧ Plain m replacement)) := by
  refine ⟨exists_replaces _ _, fun ms hms hsame hone => ?_⟩
  have hnative := yields_replaceUsingRegExpSearch replacement hms
  have hbuiltin := yields_replace hsame hms replacement
  rw [← splice_texts_eq_iff str.characters hone]
  by_cases hthrows : regexp.regExp.global = true ∧ regexp.lastIndexIsWritable = false
  · rw [if_pos hthrows] at hnative hbuiltin
    refine iff_of_true ⟨_, hnative, hbuiltin⟩ fun hwritable => ?_
    rw [hwritable hthrows.1] at hthrows
    cases hthrows.2
  · rw [if_neg hthrows] at hnative hbuiltin
    have hwritable : regexp.regExp.global = true → regexp.lastIndexIsWritable = true := by
      simpa using hthrows
    constructor
    · rintro ⟨result, hresult, hresult'⟩ _
      obtain ⟨_, _, _, rfl, rfl⟩ := hnative.and hresult
      obtain ⟨_, _, _, rfl, heq⟩ := hbuiltin.and hresult'
      simpa [Except.map] using heq.symm
    · intro heq
      rw [← heq hwritable] at hbuiltin
      exact ⟨_, hnative, hbuiltin⟩

/-- `/a/g` on `aba`, with `$&$&`. -/
theorem replace_eq_doubled :
    Agree ⟨(Pattern.character 0x61).regExp true false, .int32 0, true⟩
      ⟨[0x61, 0x62, 0x61], by decide⟩ [dollar, 0x26, dollar, 0x26] := by
  have hplain : ∀ m, Plain m [dollar, 0x26, dollar, 0x26] := fun _ => rfl
  have hlost : ∀ m : Match, NothingLost (m.tokens [dollar, 0x26, dollar, 0x26]) := by
    intro m front c back heq
    have hin : Token.literal c ∈ m.tokens [dollar, 0x26, dollar, 0x26] := by simp [heq]
    simp [Match.tokens, Match.tokensFrom, Match.reference, dollar] at hin
  have hms : RegExp.Sequence ((Pattern.character 0x61).regExp true false) [0x61, 0x62, 0x61]
      nativeNext 0 _ := .found rfl (.found rfl (.done rfl))
  refine ((replace_eq_iff _ _ _).2 ?ms ?found ?same (.inr fun m _ => hplain m)).mpr fun _ m _ =>
    ⟨hlost m, hplain m⟩
  case found => exact hms
  case same => exact ⟨fun _ _ _ _ => rfl, fun h => absurd h.symm Bool.false_ne_true⟩

/-- Nothing, at any index. -/
def matchNothing (input : Text) (index : Nat) : Option Match :=
  if h : index ≤ input.length then
    some (Pattern.whole input index index (Nat.le_refl index) h)
  else none

theorem matchNothing_found (input : Text) (i : Nat) (m : Match)
    (h : matchNothing input i = some m) :
    m.source = input ∧ m.reg = some Pattern.noGroups ∧ m.start = i := by
  rw [matchNothing] at h
  split at h
  · cases h
    exact ⟨rfl, rfl, rfl⟩
  · cases h

/-- The empty expression with the unicode flag. -/
def emptyPattern : Pattern := ⟨Pattern.noGroups, true, matchNothing, matchNothing_found⟩

/-- What `(?<n>a)` has. -/
theorem inRange_named : ∀ group ∈ [(([0x6E] : Text), 1)], 1 ≤ group.2 ∧ group.2 ≤ 1 := by
  decide

def namedGroup : StringPrototype.RegExp := ⟨1, [([0x6E], 1)], inRange_named⟩

theorem named_ranges : ∀ k ≤ (some namedGroup).elim 0 StringPrototype.RegExp.numSubpatterns,
    ((2 * k % 2 : Nat) : Int) = -1 ∨ 0 ≤ ((2 * k % 2 : Nat) : Int) ∧
      ((2 * k % 2 : Nat) : Int) ≤ ((2 * k + 1) % 2 : Nat) ∧
      (((2 * k + 1) % 2 : Nat) : Int) ≤ ([0x61] : Text).length := by
  intro k _
  simp

/-- `(?<n>a)` on `a`. -/
def namedMatch : Match :=
  ⟨[0x61], some namedGroup, fun k => (k % 2 : Nat), Int.le_refl 0, named_ranges⟩

def matchNamed (input : Text) (index : Nat) : Option Match :=
  if input = [0x61] ∧ index = 0 then some namedMatch else none

theorem matchNamed_found (input : Text) (i : Nat) (m : Match) (h : matchNamed input i = some m) :
    m.source = input ∧ m.reg = some namedGroup ∧ m.start = i := by
  rw [matchNamed] at h
  split_ifs at h with hin
  cases h
  exact ⟨hin.1.symm, rfl, hin.2.symm⟩

def namedPattern : Pattern := ⟨namedGroup, false, matchNamed, matchNamed_found⟩

/-- On `a`: `/a/` with `$1`, and with `x$<`, and `/(?<n>a)/` with `$<n>`. `/a/y` with a `lastIndex`
of one on `ba` with `c`, and `/(?:)/gu` on a surrogate pair with `-`. -/
theorem replace_disagrees :
    let a := Pattern.character 0x61
    let letter : Input := ⟨[0x61], by decide⟩
    let letters : Input := ⟨[0x62, 0x61], by decide⟩
    let pair : Input := ⟨[0xD800, 0xDC00], by decide⟩
    let name : Text := [dollar, 0x3C, 0x6E, 0x3E]
    (Yields (replaceUsingRegExpSearch ⟨a.regExp false false, .int32 0, true⟩ letter
        [dollar, 0x31]) (· = .ok [dollar, 0x31]) ∧
      Yields (replace ⟨a.regExp false false, .int32 0, true⟩ letter [dollar, 0x31])
        (· = .ok (some []))) ∧
    (Yields (replaceUsingRegExpSearch ⟨a.regExp false false, .int32 0, true⟩ letter
        [0x78, dollar, 0x3C]) (· = .ok [dollar, 0x3C]) ∧
      Yields (replace ⟨a.regExp false false, .int32 0, true⟩ letter [0x78, dollar, 0x3C])
        (· = .ok (some [0x78, dollar, 0x3C]))) ∧
    (Yields (replaceUsingRegExpSearch ⟨namedPattern.regExp false false, .int32 0, true⟩ letter
        name) (· = .ok [0x61]) ∧
      Yields (replace ⟨namedPattern.regExp false false, .int32 0, true⟩ letter name)
        (· = .ok (some name))) ∧
    (Yields (replaceUsingRegExpSearch ⟨a.regExp false true, .int32 1, true⟩ letters [0x63])
        (· = .ok [0x62, 0x61]) ∧
      Yields (replace ⟨a.regExp false true, .int32 1, true⟩ letters [0x63])
        (· = .ok (some [0x62, 0x63]))) ∧
    Yields (replaceUsingRegExpSearch ⟨emptyPattern.regExp true false, .int32 0, true⟩ pair [0x2D])
        (· = .ok [0x2D, 0xD800, 0x2D, 0xDC00, 0x2D]) ∧
      Yields (replace ⟨emptyPattern.regExp true false, .int32 0, true⟩ pair [0x2D])
        (· = .ok (some [0x2D, 0xD800, 0xDC00, 0x2D])) := by
  refine ⟨⟨⟨9, _, ?_, rfl⟩, ⟨9, _, ?_, rfl⟩⟩, ⟨⟨9, _, ?_, rfl⟩, ⟨9, _, ?_, rfl⟩⟩,
    ⟨⟨9, _, ?_, rfl⟩, ⟨9, _, ?_, rfl⟩⟩, ⟨⟨9, _, ?_, rfl⟩, ⟨9, _, ?_, rfl⟩⟩, ⟨9, _, ?_, rfl⟩,
    ⟨9, _, ?_, rfl⟩⟩ <;> rfl

end JavaScriptCore.Runtime.StringReplace
