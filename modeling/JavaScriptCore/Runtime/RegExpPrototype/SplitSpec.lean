import JavaScriptCore.Runtime.RegExpPrototype.Split

/-!
# Both ways to split give the same pieces

`Splits` says what is pushed from two positions on when a match is tried at every position. The
search of the native function passes over positions without a match in one round; when it finds
nothing before the end, nothing more is pushed from there. A phase that stops stops in front of the
pieces it has not pushed, so that the next one can go on with them.
-/

namespace JavaScriptCore.Runtime.RegExpPrototype

open Json (Text)
open ProgramLogic Budgeted List Piece RegExpObject
open StringPrototype (Match substring)

/-- The pieces from `position` and `matchPosition` on, and where the last one begins. -/
inductive Splits (pattern : Pattern) (input : Text) : Nat → Nat → List Piece → Nat → Prop where
  | done {p q : Nat} : input.length ≤ q → Splits pattern input p q [] p
  /-- There is no match, or only the empty one at the end of the last. -/
  | advance {p q : Nat} {pieces : List Piece} {last : Nat} : q < input.length →
    (∀ m, pattern.matchAt input q = some m → m.stop = p) →
    Splits pattern input p (advanceStringIndex input input.length q pattern.unicode) pieces last →
    Splits pattern input p q pieces last
  | cut {p q : Nat} {m : Match} {pieces : List Piece} {last : Nat} : q < input.length →
    pattern.matchAt input q = some m → m.stop ≠ p →
    Splits pattern input m.stop m.stop pieces last →
    Splits pattern input p q
      (⟨true, p, q - p⟩ :: (captures pattern.numSubpatterns m ++ pieces)) last

variable {pat : Pattern} {inp : Text}

/-- Rounds left: an empty match away from the end of the last one is cut off first, and passed over
then. -/
def rounds (input : Text) (p q : Nat) : Nat := 2 * (input.length - q) + if p = q then 0 else 1

theorem exists_splits {p q : Nat} (h : p ≤ q) :
    ∃ pcs last, Splits pat inp p q pcs last := by
  generalize hr : rounds inp p q = n
  induction n using Nat.strongRecOn generalizing p q with
  | ind n ih =>
    rw [rounds] at hr
    by_cases hq : q < inp.length
    · have hlt := lt_advanceStringIndex inp inp.length q pat.unicode
      have ha : (∀ m, pat.matchAt inp q = some m → m.stop = p) →
          ∃ pcs last, Splits pat inp p q pcs last := by
        intro hn
        obtain ⟨pcs, last, hre⟩ := ih _ (by rw [← hr, rounds]; split <;> split <;> omega)
          (show p ≤ advanceStringIndex inp inp.length q pat.unicode by omega) rfl
        exact ⟨pcs, last, .advance hq hn hre⟩
      cases hm : pat.matchAt inp q with
      | none => exact ha (by simp [hm])
      | some m =>
        by_cases hs : m.stop = p
        · exact ha (by simp [hm, hs])
        · obtain ⟨_, _, hsta⟩ := pat.found inp q m hm
          have hle := m.start_le_stop
          obtain ⟨pcs, last, hre⟩ := ih (rounds inp m.stop m.stop)
            (by rw [← hr, rounds, if_pos rfl]; split <;> omega) (le_refl _) rfl
          exact ⟨_, last, .cut hq hm hs hre⟩
    · exact ⟨[], p, .done (by omega)⟩

variable {pcs : List Piece} {last : Nat}

theorem Splits.of_length_le {p q : Nat} (h : Splits pat inp p q pcs last) (hq : inp.length ≤ q) :
    pcs = [] ∧ last = p := by
  cases h with
  | done => exact ⟨rfl, rfl⟩
  | advance hlt => omega
  | cut hlt => omega

/-- What is pushed from the position that a search finds. -/
theorem Splits.search {p q : Nat} (h : Splits pat inp p q pcs last) :
    match pat.search inp q with
    | none => pcs = [] ∧ last = p
    | some m =>
      if m.start ≥ inp.length then pcs = [] ∧ last = p
      else pat.matchAt inp m.start = some m ∧ Splits pat inp p m.start pcs last := by
  induction h with
  | @done p q hq =>
    cases hse : pat.search inp q with
    | none => exact ⟨rfl, rfl⟩
    | some m =>
      have hs := (pat.search_found inp q m hse).2.2
      simp [le_trans hq hs]
  | @advance p q pcs last hq hn hr ih =>
    cases hm : pat.matchAt inp q with
    | none =>
      rw [Pattern.search_none hm]
      exact ih
    | some m =>
      obtain ⟨_, _, hs⟩ := pat.found inp q m hm
      rw [Pattern.search_some hm]
      simp only [hs, ge_iff_le, Nat.not_le.mpr hq, if_false]
      exact ⟨hm, .advance hq hn hr⟩
  | @cut p q m pcs last hq hm hsp hr _ =>
    obtain ⟨_, _, hs⟩ := pat.found inp q m hm
    rw [Pattern.search_some hm]
    simp only [hs, ge_iff_le, Nat.not_le.mpr hq, if_false]
    exact ⟨hm, .cut hq hm hsp hr⟩

/-! ## Pushing -/

section

variable {σ : Type} {push : Piece → σ → σ × SplitControl}

theorem pushAll_append_of_abort {rest : List Piece} {cpd cpd' : σ}
    (h : pushAll push pcs cpd = (cpd', .abortSplit)) :
    pushAll push (pcs ++ rest) cpd = (cpd', .abortSplit) := by
  induction pcs generalizing cpd with
  | nil => cases h
  | cons piece pcs ih =>
    rw [cons_append, pushAll]
    rw [pushAll] at h
    split at h
    · rw [← h]
    · exact ih h

theorem pushAll_append_of_continue {rest : List Piece} {cpd cpd' : σ}
    (h : pushAll push pcs cpd = (cpd', .continueSplit)) :
    pushAll push (pcs ++ rest) cpd = pushAll push rest cpd' := by
  induction pcs generalizing cpd with
  | nil =>
    cases h
    rfl
  | cons piece pcs ih =>
    rw [cons_append, pushAll]
    rw [pushAll] at h
    split at h
    · cases h
    · exact ih h

end

variable {res : List (Option Text)} {limit : Nat}

theorem pushAll_store (pcs : List Piece) (h : res.length < limit) :
    pushAll (store inp limit) pcs res =
      if res.length + pcs.length < limit then (res ++ pcs.map (text inp), .continueSplit)
      else ((res ++ pcs.map (text inp)).take limit, .abortSplit) := by
  induction pcs generalizing res with
  | nil => simp [pushAll, h]
  | cons piece pcs ih =>
    have hlen : (res ++ [piece.text inp]).length = res.length + 1 := length_append
    have hp : res ++ (piece :: pcs).map (text inp) =
        res ++ [piece.text inp] ++ pcs.map (text inp) := by simp
    rw [hp, pushAll, store, length_cons]
    by_cases hf : (res ++ [piece.text inp]).length ≥ limit
    · rw [if_pos hf, if_neg (by omega), take_append_of_le_length hf, take_of_length_le (by omega)]
    · rw [if_neg hf]
      simp only
      rw [ih (by omega), hlen, add_assoc, add_comm 1]

theorem pushAll_count_le {rlen : Nat} (pcs : List Piece) {dry : Nat} (h : rlen + dry < limit) :
    (pushAll (count rlen limit) pcs dry).1 ≤ dry + pcs.length ∧
      rlen + (pushAll (count rlen limit) pcs dry).1 ≤ limit := by
  induction pcs generalizing dry with
  | nil => exact ⟨le_refl _, le_of_lt h⟩
  | cons piece pcs ih =>
    rw [pushAll, count, length_cons]
    split_ifs with hf
    · simp only
      omega
    · simp only
      have := ih (show rlen + (dry + 1) < limit by omega)
      omega

/-! ## The native loop -/

section

variable {σ : Type} {control : σ → SplitControl} {push : Piece → σ → σ × SplitControl}
  {global sticky : Bool}

/-- Where the loop stops: a call of `push` aborted, or everything so far was pushed and either
nothing is left or the loop was told to stop. -/
def Stops (pattern : Pattern) (input : Text) (control : σ → SplitControl)
    (push : Piece → σ → σ × SplitControl) (pieces : List Piece) (last : Nat) (captured : σ)
    (s : Split σ) : Prop :=
  pushAll push pieces captured = (s.captured, .abortSplit) ∨
    ∃ pushed rest, pieces = pushed ++ rest ∧
      pushAll push pushed captured = (s.captured, .continueSplit) ∧
      Splits pattern input s.position s.matchPosition rest last ∧ s.position ≤ s.matchPosition ∧
      (rest = [] ∧ s.position = last ∨ control s.captured = .abortSplit)

theorem Stops.append {pushed rest : List Piece} {cpd cpd' : σ} {s : Split σ}
    (h : Stops pat inp control push rest last cpd' s)
    (hp : pushAll push pushed cpd = (cpd', .continueSplit)) :
    Stops pat inp control push (pushed ++ rest) last cpd s := by
  obtain ha | ⟨more, left, rfl, hm, hs⟩ := h
  · exact .inl ((pushAll_append_of_continue hp).trans ha)
  · refine .inr ⟨pushed ++ more, left, (append_assoc ..).symm, ?_, hs⟩
    rw [pushAll_append_of_continue hp, hm]

theorem yields_round {regExp : RegExp} {s : Split σ} {post : Split σ → Prop}
    (h : match genericSplitRound regExp inp control push s with
      | .inl s => Yields (genericSplit regExp inp control push s) post
      | .inr s => post s) :
    Yields (genericSplit regExp inp control push s) post := by
  apply yields_loop
  apply yields_pure
  revert h
  cases genericSplitRound regExp inp control push s <;> exact id

/-- The rest of a round that has found a match. -/
theorem yields_found {p q : Nat} {m : Match} {cpd : σ}
    (hq : q < inp.length) (hc : control cpd ≠ .abortSplit) (hpq : p ≤ q)
    (hfo : (pat.regExp global sticky).matchFrom inp q = some m)
    (hle : q ≤ m.start) (hlt : m.start < inp.length) (hm : pat.matchAt inp m.start = some m)
    (h : Splits pat inp p m.start pcs last)
    (ih : ∀ p' q' pieces' cpd', rounds inp p' q' < rounds inp p q → p' ≤ q' →
      Splits pat inp p' q' pieces' last →
      Yields (genericSplit (pat.regExp global sticky) inp control push ⟨p', q', cpd'⟩)
        (Stops pat inp control push pieces' last cpd')) :
    Yields (genericSplit (pat.regExp global sticky) inp control push ⟨p, q, cpd⟩)
      (Stops pat inp control push pcs last cpd) := by
  have hsp := m.start_le_stop
  apply yields_round
  simp only [genericSplitRound, hq, if_true, hc, if_false, hfo, ge_iff_le, Nat.not_le.mpr hlt]
  cases h with
  | done hge => omega
  | advance _ hsa hr =>
    simp only [hsa m hm, if_true, Pattern.regExp_unicode]
    have hmo := lt_advanceStringIndex inp inp.length m.start pat.unicode
    have hf : rounds inp p (advanceStringIndex inp inp.length m.start pat.unicode) <
        rounds inp p q := by
      rw [rounds, rounds]
      split <;> split <;> omega
    exact ih p _ pcs cpd hf (by omega) hr
  | @cut _ _ m' pcs _ _ hm' hne hr =>
    obtain rfl : m = m' := Option.some.inj (hm.symm.trans hm')
    simp only [hne, if_false]
    cases hpu : push ⟨true, p, m.start - p⟩ cpd with
    | mk captured₁ first =>
      cases first with
      | abortSplit =>
        refine .inl ?_
        rw [pushAll, hpu]
      | continueSplit =>
        simp only [Pattern.regExp_numSubpatterns]
        cases hp : pushAll push (captures pat.numSubpatterns m) captured₁ with
        | mk captured₂ second =>
          cases second with
          | abortSplit =>
            refine .inl ?_
            rw [pushAll, hpu]
            exact pushAll_append_of_abort hp
          | continueSplit =>
            have hpus : pushAll push
                (⟨true, p, m.start - p⟩ :: captures pat.numSubpatterns m) cpd =
                  (captured₂, .continueSplit) := by
              rw [pushAll, hpu]
              exact hp
            have hf : rounds inp m.stop m.stop < rounds inp p q := by
              rw [rounds, rounds, if_pos rfl]
              split <;> omega
            refine (ih _ _ _ captured₂ hf (le_refl _) hr).mono fun s hs => ?_
            rw [← cons_append]
            exact hs.append hpus

theorem yields_genericSplit {p q : Nat} (h : Splits pat inp p q pcs last) (hpq : p ≤ q) (cpd : σ) :
    Yields (genericSplit (pat.regExp global sticky) inp control push ⟨p, q, cpd⟩)
      (Stops pat inp control push pcs last cpd) := by
  generalize hro : rounds inp p q = n
  induction n using Nat.strongRecOn generalizing p q pcs cpd with
  | ind n ih =>
    subst hro
    by_cases hq : q < inp.length
    · by_cases hc : control cpd = .abortSplit
      · apply yields_round
        simp only [genericSplitRound, hq, if_true, hc]
        exact .inr ⟨[], pcs, rfl, rfl, h, hpq, .inr hc⟩
      have hr : ∀ p' q' pieces' cpd', rounds inp p' q' < rounds inp p q → p' ≤ q' →
          Splits pat inp p' q' pieces' last →
          Yields (genericSplit (pat.regExp global sticky) inp control push ⟨p', q', cpd'⟩)
            (Stops pat inp control push pieces' last cpd') :=
        fun p' q' pieces' cpd' hfe hle hsp =>
          ih _ hfe hsp hle cpd' rfl
      cases sticky with
      | true =>
        cases hm : pat.matchAt inp q with
        | none =>
          have hn : (pat.regExp global true).matchFrom inp q = none := hm
          apply yields_round
          simp only [genericSplitRound, hq, if_true, hc, if_false, hn, Pattern.regExp_unicode]
          have hmo := lt_advanceStringIndex inp inp.length q pat.unicode
          have hfe : rounds inp p (advanceStringIndex inp inp.length q pat.unicode) <
              rounds inp p q := by
            rw [rounds, rounds]
            split <;> split <;> omega
          cases h with
          | done hge => omega
          | advance _ _ ha => exact hr p _ pcs cpd hfe (by omega) ha
          | cut _ hso => rw [hm] at hso; cases hso
        | some m =>
          obtain ⟨_, _, hsta⟩ := pat.found inp q m hm
          exact yields_found hq hc hpq hm (le_of_eq hsta.symm) (by omega)
            (by rw [hsta, hm]) (hsta.symm ▸ h) hr
      | false =>
        have hs := h.search
        cases hf : pat.search inp q with
        | none =>
          have hn : (pat.regExp global false).matchFrom inp q = none := hf
          rw [hf] at hs
          obtain ⟨rfl, rfl⟩ := hs
          apply yields_round
          simp only [genericSplitRound, hq, if_true, hc, if_false, hn]
          exact .inr ⟨[], [], rfl, rfl, h, hpq, .inl ⟨rfl, rfl⟩⟩
        | some m =>
          have hso : (pat.regExp global false).matchFrom inp q = some m := hf
          have hle := (pat.search_found inp q m hf).2.2
          rw [hf] at hs
          by_cases hlt : m.start < inp.length
          · simp only [ge_iff_le, Nat.not_le.mpr hlt, if_false] at hs
            exact yields_found hq hc hpq hso hle hlt hs.1 hs.2 hr
          simp only [ge_iff_le, Nat.not_lt.mp hlt, if_true] at hs
          obtain ⟨rfl, rfl⟩ := hs
          apply yields_round
          simp only [genericSplitRound, hq, if_true, hc, if_false, hso, ge_iff_le,
            Nat.not_lt.mp hlt]
          exact .inr ⟨[], [], rfl, rfl, h, hpq, .inl ⟨rfl, rfl⟩⟩
    · obtain ⟨rfl, rfl⟩ := h.of_length_le (by omega)
      apply yields_round
      simp only [genericSplitRound, hq, if_false]
      exact .inr ⟨[], [], rfl, rfl, h, hpq, .inl ⟨rfl, rfl⟩⟩

end

/-! ## The built-in loop -/

theorem text_captures (n : Nat) (m : Match) :
    (createRegExpMatchesArray n m).elements.drop 1 = (captures n m).map (text m.source) := by
  rw [createRegExpMatchesArray, captures, drop_one, tail_cons, map_map]
  refine map_congr_left fun i _ => ?_
  simp only [Match.group, Function.comp_apply, text]
  by_cases hsub : m.ovector (2 * (i + 1)) < 0
  · rw [if_pos hsub, if_neg (by simpa using hsub)]
  · rw [if_neg hsub, if_pos (by simpa using hsub)]

theorem putCaptures_eq (more : List (Option Text)) (h : res.length < limit) :
    putCaptures limit more res = if res.length + more.length < limit then (res ++ more, false)
      else ((res ++ more).take limit, true) := by
  induction more generalizing res with
  | nil => simp [putCaptures, h]
  | cons nc more ih =>
    have hlen : (res ++ [nc]).length = res.length + 1 := length_append
    have hp : res ++ nc :: more = res ++ [nc] ++ more := by simp
    rw [hp, putCaptures, length_cons]
    by_cases hf : (res ++ [nc]).length = limit
    · simp only [hf, if_true]
      rw [if_neg (by omega), take_append_of_le_length (le_of_eq hf.symm),
        take_of_length_le (le_of_eq hf)]
    · simp only [hf, if_false]
      rw [ih (by omega), hlen, add_assoc, add_comm 1]

section

variable {spl : RegExpObject} {inp : Input} {global : Bool}

/-- A sticky match at the position that `lastIndex` was set to. -/
theorem execInline_setLastIndex (hr : spl.regExp = pat.regExp global true)
    (hw : spl.lastIndexIsWritable = true) {q : Nat} (hq : q < inp.length) :
    (spl.setLastIndex q >>= fun spl => spl.execInline inp) =
      .ok ((pat.matchAt inp.characters q).map (createRegExpMatchesArray pat.numSubpatterns),
        { spl with
          lastIndex := jsNumber ((pat.matchAt inp.characters q).elim 0 Match.stop) }) := by
  have hb : inp.length ≤ 0x7FFFFFFF := inp.bounded
  have hs : spl.regExp.globalOrSticky = true := by
    rw [hr]
    cases global <;> rfl
  have hm : spl.regExp.matchFrom inp.characters q = pat.matchAt inp.characters q := by rw [hr]; rfl
  have he := @RegExpObject.StartsAt.execInline { spl with lastIndex := jsNumber q } inp q
    ⟨hs, hw, toLength_jsNumber (show q ≤ 0x80000000 by omega)⟩
  rw [show spl.setLastIndex q = .ok { spl with lastIndex := jsNumber q } from
    if_pos hw]
  refine he.trans ?_
  rw [hm, hr]
  rfl

theorem yields_splitRound {s : Splitting} {post : Except Exception (List (Option Text)) → Prop}
    (h : match splitRound inp pat.unicode limit s with
      | .inl s => Yields (splitLoop inp pat.unicode limit s) post
      | .inr res => post res) :
    Yields (splitLoop inp pat.unicode limit s) post := by
  apply yields_loop
  apply yields_pure
  revert h
  cases splitRound inp pat.unicode limit s <;> exact id

theorem yields_split {p q : Nat} (h : Splits pat inp.characters p q pcs last)
    (hl : res.length < limit) (hr : spl.regExp = pat.regExp global true)
    (hw : spl.lastIndexIsWritable = true) :
    Yields (splitLoop inp pat.unicode limit ⟨spl, p, q, res⟩)
      (· = .ok ((res ++ pcs.map (text inp.characters) ++
        [remaining inp.characters last]).take limit)) := by
  have hb : inp.length ≤ 0x7FFFFFFF := inp.bounded
  -- `lastIndex` after a match
  have hend : ∀ {q : Nat} {m : Match}, pat.matchAt inp.characters q = some m →
      min (toLength (number (jsNumber m.stop))) inp.length = m.stop := by
    intro q m hm
    have hle : m.stop ≤ inp.length := by
      rw [Input.length, ← (pat.found inp.characters q m hm).1]
      exact m.stop_le_length
    rw [(toLength_jsNumber (show m.stop ≤ 0x80000000 by omega)).1, min_eq_left hle]
  induction h generalizing res spl with
  | @done p q hq =>
    apply yields_splitRound
    have hs : ¬q < inp.length := Nat.not_lt.mpr hq
    simp only [splitRound, hs, if_false]
    rw [map_nil, append_nil, remaining, take_of_length_le]
    · simp [substring, Input.length]
    · rw [length_append, length_singleton]
      exact hl
  | @advance p q pcs last hq hn hre ih =>
    have hs : q < inp.length := hq
    apply yields_splitRound
    simp only [splitRound, hs, if_true, execInline_setLastIndex hr hw hs]
    cases hm : pat.matchAt inp.characters q with
    | none => exact ih hl hr hw
    | some m =>
      have hsa := hend hm
      rw [hn m hm] at hsa
      simp only [Option.map_some, Option.elim_some, hn m hm, hsa, if_true]
      exact ih hl hr hw
  | @cut p q m pcs last hq hm hsp hre ih =>
    have hs : q < inp.length := hq
    have hsrc := (pat.found inp.characters q m hm).1
    apply yields_splitRound
    simp only [splitRound, hs, if_true, execInline_setLastIndex hr hw hs, hm,
      Option.map_some, Option.elim_some, hend hm, hsp, if_false, text_captures, hsrc]
    -- the piece in front of the match
    generalize hfi : res ++ [some (substring inp.characters p (q - p))] = first
    have hlen : first.length = res.length + 1 := by rw [← hfi, length_append]; rfl
    have hp : res ++ map (text inp.characters)
          (⟨true, p, q - p⟩ :: (captures pat.numSubpatterns m ++ pcs)) ++
          [remaining inp.characters last] =
        first ++ (captures pat.numSubpatterns m).map (text inp.characters) ++
          (pcs.map (text inp.characters) ++ [remaining inp.characters last]) := by
      rw [← hfi]
      simp [text]
    rw [hp]
    by_cases hf : first.length = limit
    · simp only [hf, if_true]
      rw [append_assoc, take_append_of_le_length (le_of_eq hf.symm),
        take_of_length_le (le_of_eq hf)]
    simp only [hf, if_false]
    rw [putCaptures_eq _ (show first.length < limit by omega)]
    split_ifs with hro
    · rw [← append_assoc]
      refine ih ?_ hr hw
      rw [length_append]
      exact hro
    · refine congrArg Except.ok (take_append_of_le_length ?_).symm
      rw [length_append]
      omega

end

/-! ## The native function -/

section

variable {global sticky : Bool} {limit : Nat}

/-- A phase that stores what it pushes. -/
theorem stops_store {control : List (Option Text) → SplitControl}
    {s : Split (List (Option Text))} (hl : res.length < limit)
    (h : Stops pat inp control (store inp limit) pcs last res s) :
    limit ≤ s.captured.length ∧
        s.captured = (res ++ pcs.map (text inp) ++ [remaining inp last]).take limit ∨
      s.captured.length < limit ∧ ∃ pushed rest, pcs = pushed ++ rest ∧
        s.captured = res ++ pushed.map (text inp) ∧
        Splits pat inp s.position s.matchPosition rest last ∧
        s.position ≤ s.matchPosition ∧
        (rest = [] ∧ s.position = last ∨ control s.captured = .abortSplit) := by
  obtain ha | ⟨pushed, rest, rfl, hp, hs⟩ := h
  · rw [pushAll_store pcs hl] at ha
    split at ha
    · exact nomatch (Prod.mk.inj ha).2
    rename_i hf
    have hlo : limit ≤ (res ++ pcs.map (text inp)).length := by
      rw [length_append, length_map]
      omega
    have hc := (Prod.mk.inj ha).1
    rw [take_append_of_le_length hlo, ← hc, length_take]
    exact .inl ⟨by omega, rfl⟩
  · rw [pushAll_store pushed hl] at hp
    split_ifs at hp with hr
    · have hc := (Prod.mk.inj hp).1
      refine .inr ⟨?_, pushed, rest, rfl, hc.symm, hs⟩
      rw [← hc, length_append, length_map]
      exact hr
    · exact nomatch (Prod.mk.inj hp).2

theorem yields_regExpProtoFuncSplitFast
    (h : Splits pat inp 0 0 pcs last) (hl : 0 < limit) (hi : inp ≠ []) :
    Yields (regExpProtoFuncSplitFast (pat.regExp global sticky) inp limit) (fun res =>
      let elements := (pcs.map (text inp) ++ [remaining inp last]).take limit
      res = .outOfMemory ∧ maxStorageVectorLength < elements.length ∨
        res = .array elements) := by
  rw [regExpProtoFuncSplitFast, if_neg (by omega), if_neg (by simpa using hi)]
  apply yields_bind
  refine (yields_genericSplit h (le_refl 0) []).mono fun direct hdi => ?_
  obtain ⟨hf, hc⟩ | ⟨hro, pushed, rest, rfl, hc, hr, hle, hwhy⟩ := stops_store hl hdi
  · rw [if_pos hf]
    exact yields_pure (.inr (hc ▸ rfl))
  rw [nil_append] at hc
  rw [if_neg (by omega)]
  split_ifs with hd
  · obtain ⟨rfl, rfl⟩ | ha := hwhy
    · refine yields_pure (.inr ?_)
      rw [append_nil, ← hc, take_of_length_le]
      rw [length_append, length_singleton]
      exact hro
    · rw [if_neg (by omega)] at ha
      cases ha
  · apply yields_bind
    refine (yields_genericSplit hr hle 0).mono fun dryRun hdr => ?_
    have hct : dryRun.captured ≤ rest.length ∧
        direct.captured.length + dryRun.captured ≤ limit := by
      obtain ha | ⟨more, left, rfl, hmo, _⟩ := hdr
      · have hle := pushAll_count_le rest (show direct.captured.length + 0 < limit by omega)
        rw [ha] at hle
        exact ⟨le_trans hle.1 (by omega), hle.2⟩
      · have hle := pushAll_count_le more (show direct.captured.length + 0 < limit by omega)
        rw [hmo] at hle
        rw [length_append]
        exact ⟨le_trans hle.1 (by omega), hle.2⟩
    have hlen : direct.captured.length = pushed.length := by rw [hc, length_map]
    split_ifs with hm
    · refine yields_pure (.inl ⟨rfl, ?_⟩)
      rw [length_take, length_append, length_map, length_append]
      omega
    · apply yields_bind
      refine (yields_genericSplit hr hle direct.captured).mono fun second hs => ?_
      have hall : (pushed ++ rest).map (text inp) = direct.captured ++ rest.map (text inp) := by
        rw [map_append, hc]
      rw [hall]
      obtain ⟨hf, hc'⟩ | ⟨hr', pushed', rest', rfl, hc', _, _, hw'⟩ := stops_store hro hs
      · rw [if_pos hf]
        exact yields_pure (.inr (by rw [hc']))
      rw [if_neg (by omega)]
      obtain ⟨rfl, rfl⟩ | ha := hw'
      · refine yields_pure (.inr ?_)
        rw [append_nil, ← hc', take_of_length_le]
        rw [length_append, length_singleton]
        exact hr'
      · cases ha

/-- The native function returns the array of the built-in one, or runs out of memory for more
pieces than an array can hold. -/
theorem split_eq (pat : Pattern) (global sticky : Bool) (inp : Input) (limit : Nat) :
    ∃ elements, Yields (split ⟨pat.regExp global true, jsNumber 0, true⟩ inp pat.unicode limit)
        (· = .ok elements) ∧
      Yields (regExpProtoFuncSplitFast (pat.regExp global sticky) inp.characters limit)
        (fun res => res = .outOfMemory ∧ maxStorageVectorLength < elements.length ∨
          res = .array elements) := by
  by_cases hl : limit = 0
  · rw [split, regExpProtoFuncSplitFast, if_pos hl, if_pos hl]
    exact ⟨[], yields_pure rfl, yields_pure (.inr rfl)⟩
  by_cases he : inp.characters = []
  · have hlen : inp.length = 0 := by rw [Input.length, he]; rfl
    obtain ⟨hi, hneg⟩ := toLength_jsNumber (Nat.zero_le 0x80000000)
    have hs : (pat.regExp global true).globalOrSticky = true := by cases global <;> rfl
    have hm : (pat.regExp global true).matchFrom [] 0 = pat.matchAt [] 0 := rfl
    have hf : (pat.regExp global sticky).matchFrom [] 0 = pat.matchAt [] 0 := by
      cases sticky with
      | true => rfl
      | false => exact pat.search_nil
    rw [split, regExpProtoFuncSplitFast, if_neg hl, if_neg hl, if_pos hlen, he,
      if_pos isEmpty_nil, hf]
    refine ⟨_, yields_pure ?_, yields_pure (.inr rfl)⟩
    cases hfo : pat.matchAt [] 0 <;>
      simp [(inline_eq _ _).1, attempt, hs, hi, hneg, he,
        hm, hfo, setLastIndex, bind, Except.bind, pure, Except.pure, Except.map]
  · obtain ⟨pcs, last, h⟩ : ∃ pcs last, Splits pat inp.characters 0 0 pcs last :=
      exists_splits (Nat.le_refl 0)
    have hlen : inp.length ≠ 0 := by
      rw [Input.length]
      exact fun hnil => he (eq_nil_of_length_eq_zero hnil)
    refine ⟨_, ?_, yields_regExpProtoFuncSplitFast h (Nat.pos_of_ne_zero hl) he⟩
    rw [split, if_neg hl, if_neg hlen]
    exact yields_split h (Nat.pos_of_ne_zero hl) rfl rfl

end

end JavaScriptCore.Runtime.RegExpPrototype
