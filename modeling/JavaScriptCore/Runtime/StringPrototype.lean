import JavaScriptCore.Json.Grammar

/-!
# Backreferences in a replacement text

`runtime/StringPrototype.cpp:187-296`. The loop goes from one `$` to the next; `offset` is the end
of what has been written, and the text from there to the `$` is written together with the reference
that follows it. The branch for `$<` in a regular expression without named groups moves `offset`
past the two characters without writing what was pending, so that the text between the last
reference and such a `$<` is lost.
-/

namespace JavaScriptCore.Runtime.StringPrototype

open List Option

open Json (Text)

/-- What the loop asks of a `RegExp`. `m_captureGroupNames` is empty when no group has a name. -/
structure RegExp where
  numSubpatterns : Nat
  namedGroupToParenIndex : List (Text × Nat)
  inRange : ∀ group ∈ namedGroupToParenIndex, 1 ≤ group.2 ∧ group.2 ≤ numSubpatterns

def RegExp.hasNamedCaptures (reg : RegExp) : Bool := !reg.namedGroupToParenIndex.isEmpty

def RegExp.subpatternForName (reg : RegExp) (groupName : Text) : Nat :=
  (reg.namedGroupToParenIndex.lookup groupName).getD 0

/-- A match: where the groups of `ovector` begin and end in `source`, `-1` for a group that took no
part in it. -/
structure Match where
  source : Text
  reg : Option RegExp
  ovector : Nat → Int
  matched : 0 ≤ ovector 0
  ranges : ∀ k ≤ reg.elim 0 RegExp.numSubpatterns, ovector (2 * k) = -1 ∨
    0 ≤ ovector (2 * k) ∧ ovector (2 * k) ≤ ovector (2 * k + 1) ∧
      ovector (2 * k + 1) ≤ source.length

/-- `$`. -/
def dollar : Nat := 0x24

def isASCIIDigit (c : Nat) : Bool := 0x30 ≤ c && c ≤ 0x39

def substring (s : Text) (start length : Nat) : Text := (s.drop start).take length

/-- The first `c` from `start` on. -/
def find (s : Text) (c start : Nat) : Option Nat :=
  ((s.drop start).findIdx? (· == c)).map (start + ·)

/-- `i`, `offset` and `result` of the loop. -/
structure State where
  i : Nat
  offset : Nat
  result : Text

/-- The body of the loop after the choice of a reference: what is pending is written, and then the
reference. -/
def State.write (s : State) (replacement source : Text) (backrefStart backrefLength : Int)
    (advance : Nat) : State where
  i := s.i + 1 + advance
  offset := s.i + 1 + advance + 1
  result := s.result ++ substring replacement s.offset (s.i - s.offset) ++
    if backrefStart ≥ 0 then substring source backrefStart.toNat backrefLength.toNat else []

/-- The branch for `$<`. -/
def namedReference (m : Match) (reg : RegExp) (replacement : Text) (s : State) : State :=
  if !reg.hasNamedCaptures then
    { s with offset := s.i + 2, result := s.result ++ substring replacement s.i 2 }
  else
    match find replacement 0x3E (s.i + 2) with
    | none => s
    | some closingBracket =>
      let nameLength := closingBracket - s.i - 2
      let backrefIndex := reg.subpatternForName (substring replacement (s.i + 2) nameLength)
      if backrefIndex = 0 ∨ backrefIndex > reg.numSubpatterns then
        s.write replacement m.source 0 0 (nameLength + 1)
      else
        s.write replacement m.source (m.ovector (2 * backrefIndex))
          (m.ovector (2 * backrefIndex + 1) - m.ovector (2 * backrefIndex)) (nameLength + 1)

/-- The group and `advance` for a digit, or zero for the group. -/
def digitReference (reg : RegExp) (replacement : Text) (i ref : Nat) : Nat × Nat :=
  let backrefIndex := ref - 0x30
  if backrefIndex > reg.numSubpatterns then (0, 0)
  else
    match replacement[i + 2]? with
    | some ref =>
      if isASCIIDigit ref then
        let twoDigits := 10 * backrefIndex + ref - 0x30
        if twoDigits > reg.numSubpatterns then (twoDigits / 10, 0) else (twoDigits, 1)
      else (backrefIndex, 0)
    | none => (backrefIndex, 0)

/-- The body of the loop, `none` for `break`. -/
def body (m : Match) (replacement : Text) (s : State) : Option State :=
  match replacement[s.i + 1]? with
  | none => none
  | some ref =>
    if ref = dollar then
      some ⟨s.i + 1, s.i + 2, s.result ++ substring replacement s.offset (s.i + 1 - s.offset)⟩
    else if ref = 0x26 then
      some (s.write replacement m.source (m.ovector 0) (m.ovector 1 - m.ovector 0) 0)
    else if ref = 0x60 then
      some (s.write replacement m.source 0 (m.ovector 0) 0)
    else if ref = 0x27 then
      some (s.write replacement m.source (m.ovector 1) (m.source.length - m.ovector 1) 0)
    else
      match m.reg with
      | none => some s
      | some reg =>
        if ref = 0x3C then some (namedReference m reg replacement s)
        else if isASCIIDigit ref then
          let (backrefIndex, advance) := digitReference reg replacement s.i ref
          if backrefIndex = 0 then some s
          else
            some (s.write replacement m.source (m.ovector (2 * backrefIndex))
              (m.ovector (2 * backrefIndex + 1) - m.ovector (2 * backrefIndex)) advance)
        else some s

/-- The `do`-`while` loop, and the text that is left. -/
def loop (m : Match) (replacement : Text) : Nat → State → Option Text
  | 0, _ => none
  | fuel + 1, s =>
    let finish (s : State) := s.result ++ replacement.drop s.offset
    match body m replacement s with
    | none => some (finish s)
    | some s =>
      match find replacement dollar (s.i + 1) with
      | none => some (finish s)
      | some i => loop m replacement fuel { s with i }

/-- `none` is a loop that does not end. -/
def substituteBackreferences (result : Text) (m : Match) (replacement : Text) : Option Text :=
  match find replacement dollar 0 with
  | none => some (result ++ replacement)
  | some i => loop m replacement (replacement.length + 1) ⟨i, 0, result⟩

/-! ## The references of the language -/

namespace Match

variable (m : Match)

def groups : Nat := m.reg.elim 0 RegExp.numSubpatterns

/-- The text of a group, empty for one that took no part in the match. -/
def capture (k : Nat) : Text :=
  if m.ovector (2 * k) < 0 then []
  else (m.source.take (m.ovector (2 * k + 1)).toNat).drop (m.ovector (2 * k)).toNat

/-- A group by one digit. -/
def oneDigit (d : Nat) : Option (Text × Nat) :=
  if 1 ≤ d ∧ d ≤ m.groups then some (m.capture d, 1) else none

/-- A group by two digits if there is one of that number, and else by the first. -/
def digits (d : Nat) : Text → Option (Text × Nat)
  | c :: _ =>
    if isASCIIDigit c ∧ 1 ≤ 10 * d + (c - 0x30) ∧ 10 * d + (c - 0x30) ≤ m.groups then
      some (m.capture (10 * d + (c - 0x30)), 2)
    else m.oneDigit d
  | [] => m.oneDigit d

/-- A group by its name, up to the `>`. -/
def named (reg : RegExp) (text : Text) : Option (Text × Nat) :=
  (text.findIdx? (· == 0x3E)).map fun k =>
    (((reg.namedGroupToParenIndex.lookup (text.take k)).map m.capture).getD [], k + 2)

/-- What the reference stands for that begins after a `$`, and the number of its characters from
there on. -/
def reference : Text → Option (Text × Nat)
  | [] => none
  | c :: text =>
    if c = dollar then some ([dollar], 1)
    else if c = 0x26 then some (m.capture 0, 1)
    else if c = 0x60 then some (m.source.take (m.ovector 0).toNat, 1)
    else if c = 0x27 then some (m.source.drop (m.ovector 1).toNat, 1)
    else if isASCIIDigit c then m.digits (c - 0x30) text
    else if c = 0x3C then
      match m.reg with
      | some reg => if reg.hasNamedCaptures then m.named reg text else none
      | none => none
    else none

/-- The text with its references replaced, after the first `n` characters, which belong to a
reference. -/
def expandFrom : Nat → Text → Text
  | _, [] => []
  | n + 1, _ :: text => expandFrom n text
  | 0, c :: text =>
    if c = dollar then
      match m.reference text with
      | some (written, n) => written ++ expandFrom n text
      | none => c :: expandFrom 0 text
    else c :: expandFrom 0 text

def expand (text : Text) : Text := m.expandFrom 0 text

end Match

/-! ## What the loop writes -/

/-- How the loop takes a replacement text apart. -/
inductive Token where
  | literal (c : Nat)
  | reference (written : Text)
  /-- `$<` where no group has a name. -/
  | openBracket

namespace Match

variable (m : Match)

/-- Whether `<`, after a `$`, is one that no name follows. -/
def opens (text : Text) : Bool :=
  text.head? = some 0x3C && m.reg.any fun reg => !reg.hasNamedCaptures

def tokensFrom : Nat → Text → List Token
  | _, [] => []
  | n + 1, _ :: text => tokensFrom n text
  | 0, c :: text =>
    if c = dollar then
      match m.reference text with
      | some (written, n) => .reference written :: tokensFrom n text
      | none =>
        if m.opens text then .openBracket :: tokensFrom 1 text
        else .literal c :: tokensFrom 0 text
    else .literal c :: tokensFrom 0 text

def tokens (text : Text) : List Token := m.tokensFrom 0 text

end Match

/-- The text of a token as the language has it. -/
def Token.text : Token → Text
  | .literal c => [c]
  | .reference written => written
  | .openBracket => [dollar, 0x3C]

/-- What is written for the tokens, with literals kept back until a reference. -/
def render : Text → List Token → Text
  | pending, [] => pending
  | pending, .literal c :: tokens => render (pending ++ [c]) tokens
  | pending, .reference written :: tokens => pending ++ written ++ render [] tokens
  | _, .openBracket :: tokens => [dollar, 0x3C] ++ render [] tokens

section

variable (m : Match)

theorem tokensFrom_eq_drop (n : Nat) (text : Text) :
    m.tokensFrom n text = m.tokensFrom 0 (text.drop n) := by
  induction text generalizing n with
  | nil => cases n <;> rfl
  | cons c text ih =>
    cases n with
    | zero => rfl
    | succ n => exact ih n

theorem tokensFrom_literals {front : Text} (h : ∀ c ∈ front, c ≠ dollar) (text : Text) :
    m.tokensFrom 0 (front ++ text) = front.map .literal ++ m.tokensFrom 0 text := by
  induction front with
  | nil => rfl
  | cons c front ih =>
    rw [forall_mem_cons] at h
    rw [cons_append, Match.tokensFrom, if_neg h.1, ih h.2, map_cons, cons_append]

theorem render_literals (pd front : Text) (toks : List Token) :
    render pd (front.map .literal ++ toks) = render (pd ++ front) toks := by
  induction front generalizing pd with
  | nil => simp
  | cons c front ih =>
    rw [map_cons, cons_append, render, ih, append_assoc, singleton_append]

/-- The tokens write what the language asks for. -/
theorem expandFrom_eq (n : Nat) (text : Text) :
    m.expandFrom n text = (m.tokensFrom n text).flatMap Token.text := by
  induction text generalizing n with
  | nil => cases n <;> rfl
  | cons c text ih =>
    cases n with
    | succ n => exact ih n
    | zero =>
      rw [Match.expandFrom, Match.tokensFrom]
      by_cases hc : c = dollar
      · rw [if_pos hc, if_pos hc]
        cases href : m.reference text with
        | some found => simp [ih, Token.text]
        | none =>
          by_cases ho : m.opens text
          · -- the `<` stands for itself when its turn comes
            cases text with
            | nil => simp [Match.opens] at ho
            | cons d text =>
              obtain rfl : d = 0x3C := by
                simp only [Match.opens, head?_cons, some.injEq, Bool.and_eq_true,
                  decide_eq_true_eq] at ho
                exact ho.1
              have hs := ih 1
              rw [Match.expandFrom] at hs
              simp only [ho, if_true, flatMap_cons, Token.text]
              rw [← hs, Match.expandFrom, if_neg (by decide), hc]
              rfl
          · simp [ho, ih, Token.text]
      · rw [if_neg hc, if_neg hc]
        simp [ih, Token.text]

end

/-! ## The body of the loop -/

section

variable {m : Match} {rep text : Text} {s : State}

/-- What the body does with the `$` it is at. -/
def next (m : Match) (replacement text : Text) (s : State) : State :=
  match m.reference text with
  | some (written, n) => ⟨s.i + n, s.i + n + 1,
      s.result ++ substring replacement s.offset (s.i - s.offset) ++ written⟩
  | none =>
    if m.opens text then { s with offset := s.i + 2, result := s.result ++ [dollar, 0x3C] } else s

theorem write_eq {bs bl : Int} {written : Text} (advance : Nat)
    (h : (if bs ≥ 0 then substring m.source bs.toNat bl.toNat
      else []) = written) :
    s.write rep m.source bs bl advance =
      ⟨s.i + (advance + 1), s.i + (advance + 1) + 1,
        s.result ++ substring rep s.offset (s.i - s.offset) ++ written⟩ := by
  rw [State.write, h, Nat.add_assoc, Nat.add_comm 1 advance]

theorem written_capture (k : Nat) :
    (if m.ovector (2 * k) ≥ 0 then substring m.source (m.ovector (2 * k)).toNat
      (m.ovector (2 * k + 1) - m.ovector (2 * k)).toNat else []) = m.capture k := by
  rw [Match.capture]
  by_cases h : m.ovector (2 * k) < 0
  · rw [if_pos h, if_neg (by omega)]
  · rw [if_neg h, if_pos (by omega), substring, drop_take]
    congr 1
    omega

theorem substring_append (s : Text) {i j k : Nat} (hij : i ≤ j) (hjk : j ≤ k) :
    substring s i (j - i) ++ substring s j (k - j) = substring s i (k - i) := by
  rw [substring, substring, substring, show k - i = (j - i) + (k - j) by omega, take_add,
    drop_drop, show i + (j - i) = j by omega]

theorem drop_after (h : rep.drop s.i = dollar :: text) (k : Nat) :
    rep.drop (s.i + 1 + k) = text.drop k := by
  rw [Nat.add_assoc, ← drop_drop, h, Nat.add_comm 1 k, drop_succ_cons]

theorem getElem?_after (h : rep.drop s.i = dollar :: text) (k : Nat) :
    rep[s.i + 1 + k]? = text[k]? := by
  rw [← List.getElem?_drop, drop_after h 0, drop_zero]

theorem written_named (reg : RegExp) (name : Text) (advance : Nat) :
    (if reg.subpatternForName name = 0 ∨ reg.subpatternForName name > reg.numSubpatterns then
        s.write rep m.source 0 0 advance
      else
        s.write rep m.source (m.ovector (2 * reg.subpatternForName name))
          (m.ovector (2 * reg.subpatternForName name + 1) -
            m.ovector (2 * reg.subpatternForName name)) advance) =
      ⟨s.i + (advance + 1), s.i + (advance + 1) + 1,
        s.result ++ substring rep s.offset (s.i - s.offset) ++
          ((reg.namedGroupToParenIndex.lookup name).map m.capture).getD []⟩ := by
  rw [RegExp.subpatternForName]
  cases hl : reg.namedGroupToParenIndex.lookup name with
  | none => exact write_eq advance rfl
  | some k =>
    obtain ⟨front, back, hsp, _⟩ := lookup_eq_some_iff.mp hl
    have hr := reg.inRange (name, k) (by simp [hsp])
    simp only [getD_some, map_some]
    rw [if_neg (by omega)]
    exact write_eq advance (written_capture k)

theorem namedReference_eq {reg : RegExp} (h : rep.drop s.i = dollar :: 0x3C :: text)
    (hreg : m.reg = some reg) :
    namedReference m reg rep s = next m rep (0x3C :: text) s := by
  have href : m.reference (0x3C :: text) =
      if reg.hasNamedCaptures then m.named reg text else none := by
    simp [Match.reference, dollar, isASCIIDigit, hreg]
  have ho : m.opens (0x3C :: text) = !reg.hasNamedCaptures := by
    simp [Match.opens, hreg]
  have hr : rep.drop (s.i + 2) = text := drop_after h 1
  rw [namedReference, next, href, ho]
  cases reg.hasNamedCaptures with
  | false => simp [substring, h]
  | true =>
    rw [find, hr, Match.named]
    cases hf : text.findIdx? (· == 0x3E) with
    | none => simp
    | some k =>
      have hlen : s.i + 2 + k - s.i - 2 = k := by omega
      simp only [Bool.not_true, Bool.false_eq_true, if_false, map_some, if_true, hlen,
        substring, hr]
      exact written_named reg (text.take k) (k + 1)

/-- The group that the digits name, and how many there are. -/
theorem digits_eq {reg : RegExp} {c : Nat} (h : rep.drop s.i = dollar :: c :: text)
    (hreg : m.reg = some reg) :
    m.digits (c - 0x30) text = if (digitReference reg rep s.i c).1 = 0 then none
      else some (m.capture (digitReference reg rep s.i c).1,
        (digitReference reg rep s.i c).2 + 1) := by
  have hg : m.groups = reg.numSubpatterns := by simp [Match.groups, hreg]
  have hget : rep[s.i + 2]? = text.head? := by
    rw [show s.i + 2 = s.i + 1 + 1 from rfl, getElem?_after h]
    cases text <;> rfl
  have hone : m.oneDigit (c - 0x30) = if c - 0x30 > reg.numSubpatterns ∨ c - 0x30 = 0 then none
      else some (m.capture (c - 0x30), 1) := by
    rw [Match.oneDigit, hg]
    split <;> split <;> first | rfl | omega
  rw [digitReference, hget]
  cases text with
  | nil =>
    rw [Match.digits, hone, head?_nil]
    by_cases hl : c - 0x30 > reg.numSubpatterns <;> by_cases hz : c - 0x30 = 0 <;>
      simp [hl, hz]
  | cons d text =>
    rw [Match.digits, hone, hg, head?_cons]
    cases hd : isASCIIDigit d with
    | false =>
      by_cases hl : c - 0x30 > reg.numSubpatterns <;> by_cases hz : c - 0x30 = 0 <;>
        simp [hd, hl, hz]
    | true =>
      have hr : 0x30 ≤ d ∧ d ≤ 0x39 := by simpa [isASCIIDigit] using hd
      grind

theorem body_eq (h : rep.drop s.i = dollar :: text) (hof : s.offset ≤ s.i) :
    body m rep s = if text = [] then none else some (next m rep text s) := by
  have hget : rep[s.i + 1]? = text.head? := by
    rw [← Nat.add_zero (s.i + 1), getElem?_after h]
    cases text <;> rfl
  rw [body, hget]
  cases text with
  | nil => rfl
  | cons c text =>
    rw [if_neg (cons_ne_nil c text), head?_cons]
    by_cases hd : c = dollar
    · have hp := substring_append rep hof (Nat.le_add_right s.i 1)
      rw [Nat.add_sub_cancel_left, show substring rep s.i 1 = [dollar] by
        simp [substring, h]] at hp
      simp [hd, next, Match.reference, ← hp]
    by_cases hm : c = 0x26
    · subst hm
      simp [next, Match.reference, dollar, write_eq 0 (written_capture 0)]
    by_cases hb : c = 0x60
    · subst hb
      have hw : (if (0 : Int) ≥ 0 then
          substring m.source (0 : Int).toNat (m.ovector 0).toNat else []) =
          m.source.take (m.ovector 0).toNat := by
        simp [substring]
      simp [next, Match.reference, dollar, write_eq 0 hw]
    by_cases haf : c = 0x27
    · subst haf
      have hr := m.ranges 0 (Nat.zero_le _)
      have hma := m.matched
      have hw : (if m.ovector 1 ≥ 0 then substring m.source (m.ovector 1).toNat
          (m.source.length - m.ovector 1).toNat else []) = m.source.drop (m.ovector 1).toNat := by
        rw [if_pos (by simp at hr; omega), substring, take_of_length_le]
        rw [length_drop]
        omega
      simp [next, Match.reference, dollar, write_eq 0 hw]
    have href : m.reference (c :: text) = if isASCIIDigit c then m.digits (c - 0x30) text
        else if c = 0x3C then match m.reg with
          | some reg => if reg.hasNamedCaptures then m.named reg text else none
          | none => none
        else none := by
      rw [Match.reference, if_neg hd, if_neg hm, if_neg hb, if_neg haf]
    simp only [hd, hm, hb, haf, if_false]
    cases hreg : m.reg with
    | none =>
      have hdi : m.digits (c - 0x30) text = none := by
        have hg : m.groups = 0 := by simp [Match.groups, hreg]
        have hone : m.oneDigit (c - 0x30) = none := by
          rw [Match.oneDigit, hg, if_neg (by omega)]
        cases text with
        | nil => exact hone
        | cons d text => rw [Match.digits, hg, if_neg (fun hc => by omega), hone]
      simp [next, href, hreg, hdi, Match.opens]
    | some reg =>
      by_cases ho : c = 0x3C
      · subst ho
        simp [namedReference_eq h hreg]
      have hop : m.opens (c :: text) = false := by simp [Match.opens, ho]
      cases hdg : isASCIIDigit c with
      | false => simp [next, href, hdg, ho, hop]
      | true =>
        rw [hdg, if_pos rfl, digits_eq h hreg] at href
        simp only [ho, if_false, if_true, next, href]
        by_cases hz : (digitReference reg rep s.i c).1 = 0
        · simp [hz, hop]
        · simp only [hz, if_false]
          rw [write_eq _ (written_capture _)]

end

/-! ## The loop -/

section

variable {m : Match} {rep : Text}

variable {c start : Nat}

theorem find_some {s : Text} {i : Nat} (h : find s c start = some i) :
    ∃ front back, s.drop start = front ++ c :: back ∧ i = start + front.length ∧
      ∀ x ∈ front, x ≠ c := by
  rw [find, map_eq_some_iff] at h
  obtain ⟨k, hk, rfl⟩ := h
  obtain ⟨hlt, hc, hb⟩ := findIdx?_eq_some_iff_getElem.mp hk
  refine ⟨(s.drop start).take k, (s.drop start).drop (k + 1), ?_, ?_, ?_⟩
  · rw [← beq_iff_eq.mp hc, getElem_cons_drop, take_append_drop]
  · rw [length_take_of_le (Nat.le_of_lt hlt)]
  · intro x hx heq
    obtain ⟨j, hj, hxj⟩ := getElem_of_mem hx
    rw [length_take] at hj
    rw [getElem_take] at hxj
    exact hb j (by omega) (by simp [hxj, heq])

theorem find_none {s : Text} (h : find s c start = none) : ∀ x ∈ s.drop start, x ≠ c := by
  rw [find, map_eq_none_iff, findIdx?_eq_none_iff] at h
  intro x hx
  simpa using h x hx

theorem find_succ {s text : Text} {d : Nat} (h : s.drop start = d :: text) (hd : d ≠ c) :
    find s c start = find s c (start + 1) := by
  have hr : s.drop (start + 1) = text := by
    rw [← List.drop_drop, h, List.drop_one, List.tail_cons]
  rw [find, find, h, hr, List.findIdx?_cons, if_neg (by simpa using hd), Option.map_map]
  congr 1
  funext k
  simp only [Function.comp_apply]
  omega

/-- The rest of a round, from a position where no reference is open. -/
def continueAt (m : Match) (replacement : Text) (fuel : Nat) (s : State) : Option Text :=
  match find replacement dollar (s.i + 1) with
  | none => some (s.result ++ replacement.drop s.offset)
  | some i => loop m replacement fuel { s with i }

theorem loop_succ (fuel : Nat) (s : State) : loop m rep (fuel + 1) s =
    match body m rep s with
    | none => some (s.result ++ rep.drop s.offset)
    | some s => continueAt m rep fuel s := rfl

theorem substring_append_drop (s : Text) {i j : Nat} (h : i ≤ j) :
    substring s i (j - i) ++ s.drop j = s.drop i := by
  rw [substring, show s.drop j = (s.drop i).drop (j - i) by rw [drop_drop]; congr 1; omega,
    take_append_drop]

/-- What the loop is to write from a state at a `$`. -/
def Writes (m : Match) (replacement : Text) (fuel : Nat) : Prop :=
  ∀ s text, replacement.drop s.i = dollar :: text → s.offset ≤ s.i →
    replacement.length < s.i + fuel → loop m replacement fuel s =
      some (s.result ++ render (substring replacement s.offset (s.i - s.offset))
        (m.tokensFrom 0 (replacement.drop s.i)))

theorem continueAt_eq {fuel q : Nat} {s : State} (ih : Writes m rep fuel)
    (hfd : find rep dollar (s.i + 1) = find rep dollar q) (ho : s.offset ≤ q)
    (hfu : rep.length < q + fuel) :
    continueAt m rep fuel s =
      some (s.result ++ render (substring rep s.offset (q - s.offset))
        (m.tokensFrom 0 (rep.drop q))) := by
  rw [continueAt, hfd]
  cases hi : find rep dollar q with
  | none =>
    have ht := tokensFrom_literals m (find_none hi) []
    rw [append_nil] at ht
    rw [ht, render_literals, Match.tokensFrom, render, substring_append_drop _ ho]
  | some i =>
    obtain ⟨front, back, hsp, rfl, hf⟩ := find_some hi
    have hd : rep.drop (q + front.length) = dollar :: back := by
      rw [← drop_drop, hsp, drop_left]
    have hp : substring rep s.offset (q - s.offset) ++ front =
        substring rep s.offset (q + front.length - s.offset) := by
      rw [← substring_append rep ho (Nat.le_add_right q front.length), Nat.add_sub_cancel_left]
      simp [substring, hsp]
    have hrun := ih { s with i := q + front.length } back hd (by simp; omega) (by simp; omega)
    rw [hsp, tokensFrom_literals m hf, render_literals, hp, ← hd]
    exact hrun

theorem writes (fuel : Nat) : Writes m rep fuel := by
  induction fuel with
  | zero =>
    intro s text h _ hf
    have := congrArg length h
    simp at this
    omega
  | succ fuel ih =>
    intro s text h hof hf
    rw [loop_succ, body_eq h hof, h, Match.tokensFrom, if_pos rfl]
    have hd : rep.drop (s.i + 1) = text := drop_after h 0
    by_cases he : text = []
    · subst he
      have href : m.reference [] = none := rfl
      have ho : m.opens [] = false := rfl
      rw [← substring_append_drop rep hof, h]
      simp [href, ho, render, Match.tokensFrom]
    rw [if_neg he]
    cases href : m.reference text with
    | some found =>
      obtain ⟨written, n⟩ := found
      simp only [next, href]
      have hr : text.drop n = rep.drop (s.i + n + 1) := by
        rw [← hd, drop_drop]
        congr 1
        omega
      rw [continueAt_eq (q := s.i + n + 1) ih rfl (Nat.le_refl _) (by omega), render,
        tokensFrom_eq_drop m n text, hr]
      simp [substring]
    | none =>
      cases ho : m.opens text with
      | true =>
        cases text with
        | nil => exact absurd rfl he
        | cons c rest =>
          obtain rfl : c = 0x3C := by
            simp only [Match.opens, head?_cons, some.injEq, Bool.and_eq_true,
              decide_eq_true_eq] at ho
            exact ho.1
          simp only [next, href, ho, if_true]
          have hr : rep.drop (s.i + 2) = rest := drop_after h 1
          rw [continueAt_eq (s := ⟨s.i, s.i + 2, _⟩) (q := s.i + 2) ih
            (find_succ hd (by decide)) (Nat.le_refl _) (by omega), render,
            tokensFrom_eq_drop m 1, drop_one, tail_cons, hr]
          simp [substring]
      | false =>
        simp only [next, href, ho, Bool.false_eq_true, if_false]
        have hp := substring_append rep hof (Nat.le_add_right s.i 1)
        rw [Nat.add_sub_cancel_left, show substring rep s.i 1 = [dollar] by
          simp [substring, h]] at hp
        rw [continueAt_eq (q := s.i + 1) ih rfl (by omega) (by omega), render, hp, hd]

theorem substituteBackreferences_eq (result : Text) :
    substituteBackreferences result m rep = some (result ++ render [] (m.tokens rep)) := by
  rw [substituteBackreferences, Match.tokens]
  cases hi : find rep dollar 0 with
  | none =>
    have ht := tokensFrom_literals m (find_none hi) []
    rw [append_nil, drop_zero] at ht
    rw [ht, render_literals, Match.tokensFrom, render, nil_append]
  | some i =>
    obtain ⟨front, back, hsp, rfl, hf⟩ := find_some hi
    rw [drop_zero] at hsp
    have hd : rep.drop (0 + front.length) = dollar :: back := by
      rw [Nat.zero_add, hsp, drop_left]
    have hrun := writes (m := m) (rep.length + 1) ⟨0 + front.length, 0, result⟩ back hd
      (Nat.zero_le _) (by simp only; omega)
    refine hrun.trans ?_
    conv_rhs => rw [hsp, tokensFrom_literals m hf, render_literals]
    simp [substring, hsp]

end

/-! ## Where text is lost -/

/-- No `$<` without a name comes right after a literal character. -/
def NothingLost (tokens : List Token) : Prop :=
  ∀ front c back, tokens ≠ front ++ .literal c :: .openBracket :: back

theorem nothingLost_cons (token : Token) (toks : List Token) :
    NothingLost (token :: toks) ↔
      ((∃ c, token = .literal c) → toks.head? ≠ some .openBracket) ∧ NothingLost toks := by
  constructor
  · intro h
    refine ⟨?_, fun front c back heq => h (token :: front) c back (by rw [heq, cons_append])⟩
    rintro ⟨c, rfl⟩ hh
    obtain ⟨back, rfl⟩ := head?_eq_some_iff.mp hh
    exact h [] c back rfl
  · rintro ⟨hh, h⟩ front c back heq
    cases front with
    | nil =>
      obtain ⟨rfl, rfl⟩ := cons.inj heq
      exact hh ⟨c, rfl⟩ rfl
    | cons _ front => exact h front c back (cons.inj heq).2

theorem length_render_le (pd : Text) (toks : List Token) :
    (render pd toks).length ≤ pd.length + (toks.flatMap Token.text).length := by
  induction toks generalizing pd with
  | nil => simp [render]
  | cons token toks ih =>
    cases token with
    | literal c =>
      have := ih (pd ++ [c])
      simp only [render, flatMap_cons, Token.text, length_append] at this ⊢
      omega
    | reference written =>
      have := ih []
      simp only [render, flatMap_cons, Token.text, length_append, length_nil] at this ⊢
      omega
    | openBracket =>
      have := ih []
      simp only [render, flatMap_cons, Token.text, length_append, length_nil] at this ⊢
      omega

theorem render_eq_iff (pd : Text) (toks : List Token) :
    render pd toks = pd ++ toks.flatMap Token.text ↔
      (pd ≠ [] → toks.head? ≠ some .openBracket) ∧ NothingLost toks := by
  induction toks generalizing pd with
  | nil => simp [render, NothingLost]
  | cons token toks ih =>
    rw [nothingLost_cons, flatMap_cons, ← append_assoc]
    cases token with
    | literal c =>
      rw [render, Token.text, ih]
      simp
    | reference written =>
      rw [render, Token.text, append_cancel_left_eq, ← nil_append (flatMap _ _), ih]
      simp
    | openBracket =>
      cases pd with
      | nil =>
        rw [render, Token.text, nil_append, append_cancel_left_eq, ← nil_append (flatMap _ _), ih]
        simp
      | cons c pd =>
        -- the pending text is missing from what is written
        refine iff_of_false (fun heq => ?_) (by simp)
        have hlen := congrArg length heq
        have hle := length_render_le [] toks
        simp only [render, Token.text, length_append, length_cons, length_nil] at hlen hle
        omega

/-- The replacement text is expanded as the language has it if and only if no `$<`, where the
regular expression has no named groups, comes right after a literal character. -/
theorem substituteBackreferences_expand_iff (result : Text) (m : Match) (replacement : Text) :
    substituteBackreferences result m replacement = some (result ++ m.expand replacement) ↔
      NothingLost (m.tokens replacement) := by
  rw [substituteBackreferences_eq, Match.expand, expandFrom_eq, some.injEq,
    append_cancel_left_eq, ← Match.tokens, ← nil_append (flatMap _ _), render_eq_iff]
  simp

/-- The `a` of `a$<` is lost. -/
theorem substituteBackreferences_loses_text :
    let m : Match := ⟨[0x78], some ⟨0, [], fun _ h => nomatch h⟩, fun k => k, Int.le_refl 0,
      fun _ h => Nat.le_zero.mp h ▸ .inr ⟨Int.le_refl 0, Int.zero_le_ofNat 1, Int.le_refl 1⟩⟩
    substituteBackreferences [] m [0x61, dollar, 0x3C] = some [dollar, 0x3C] ∧
      m.expand [0x61, dollar, 0x3C] = [0x61, dollar, 0x3C] := by
  decide

end JavaScriptCore.Runtime.StringPrototype
