import JavaScriptCore.Runtime.JSONObject.Stringifier

/-!
# What the stringifier writes

`text` is the text of a value by recursion on the value. The machine with its stack of holders
writes exactly that, unless the builder overflows; `demand` bounds the room it asks for,
members that are rolled back included.
-/

namespace JavaScriptCore.Stringifier

open Json ProgramLogic Budgeted Wtf State List

variable {Double : Type}

/-! ## The text of a value -/

/-- Members with such a value are left out. -/
def Value.dropped : Value Double → Bool
  | .undefined | .symbol | .function => true
  | _ => false

def repeated (gap : Text) (depth : Nat) : Text := (replicate depth gap).flatten

def newLine (gap : Text) (depth : Nat) : Text :=
  if gap.isEmpty then [] else 0x0A :: repeated gap depth

def afterColon (gap : Text) : Text := if gap.isEmpty then [] else [0x20]

def separator (first : Bool) : Text := if first then [] else [0x2C]

section

variable (format : NumberFormat Double) (gap : Text)

mutual

/-- The text of a value at some depth; of a dropped one, what stands for it in an array. -/
def text (depth : Nat) : Value Double → Text
  | .undefined | .null | .symbol | .bigInt | .function => null
  | .boolean b => if b then true_ else false_
  | .int32 n => numberToStringSigned n
  | .double d => if format.isFinite d then format.ecmaScriptNumber d else null
  | .string s => quoted s.characters
  | .array _ vs =>
    0x5B :: elementsText (depth + 1) true vs ++
      (if vs.isEmpty then [] else newLine gap depth) ++ [0x5D]
  | .object _ ms =>
    0x7B :: membersText (depth + 1) true ms ++
      (if ms.all (·.2.dropped) then [] else newLine gap depth) ++ [0x7D]

def elementsText (depth : Nat) (first : Bool) : List (Value Double) → Text
  | [] => []
  | v :: vs =>
    separator first ++ newLine gap depth ++ text depth v ++ elementsText depth false vs

def membersText (depth : Nat) (first : Bool) : List (WTFString × Value Double) → Text
  | [] => []
  | (name, v) :: ms =>
    if v.dropped then membersText depth first ms
    else
      separator first ++ newLine gap depth ++ quoted name.characters ++ [0x3A] ++ afterColon gap ++
        text depth v ++ membersText depth false ms

end

mutual

/-- Room enough for the text of a value and for all that is rolled back on the way. -/
def demand (depth : Nat) : Value Double → Nat
  | .string s => 2 + s.characters.length * 6
  | .array _ vs => 2 + (newLine gap depth).length + demandElements (depth + 1) vs
  | .object _ ms => 2 + (newLine gap depth).length + demandMembers (depth + 1) ms
  | v => (text format gap depth v).length

def demandElements (depth : Nat) : List (Value Double) → Nat
  | [] => 0
  | v :: vs => 1 + (newLine gap depth).length + demand depth v + demandElements depth vs

def demandMembers (depth : Nat) : List (WTFString × Value Double) → Nat
  | [] => 0
  | (name, v) :: ms =>
    3 + (newLine gap depth).length + (2 + name.characters.length * 6) + demand depth v +
      demandMembers depth ms

end

end

mutual

/-- No exception is thrown below these cells, and no method called. -/
def Value.Writable (above : List Nat) : Value Double → Prop
  | .bigInt => False
  | .array cell vs => cell ∉ above ∧ WritableElements (cell :: above) vs
  | .object cell ms =>
    cell ∉ above ∧ (Value.object cell ms).callsToJSON = false ∧ WritableMembers (cell :: above) ms
  | _ => True

def WritableElements (above : List Nat) : List (Value Double) → Prop
  | [] => True
  | v :: vs => v.Writable above ∧ WritableElements above vs

def WritableMembers (above : List Nat) : List (WTFString × Value Double) → Prop
  | [] => True
  | (_, v) :: ms => v.Writable above ∧ WritableMembers above ms

end

/-! ## Numerals -/

theorem isDigit_digit {n : Nat} (h : n < 10) : isDigit (n + 0x30) = true := by
  simp [isDigit]
  omega

theorem numberToStringImpl_integer (n : Nat) (written : Text) :
    ∃ ds, numberToStringImpl n written = ds ++ written ∧ Integer ds ∧ decimal ds = n := by
  induction n using Nat.strongRecOn generalizing written with
  | ind n ih =>
    rw [numberToStringImpl]
    split
    · rename_i hl
      refine ⟨[n % 10 + 0x30], rfl, ?_, ?_⟩
      · by_cases hz : n = 0
        · subst hz
          exact .zero
        · exact .digits (by omega) (by omega) (by simp)
      · simp [decimal]
        omega
    · rename_i hm
      obtain ⟨ds, heq, hin, hd⟩ := ih (n / 10) (by omega) ((n % 10 + 0x30) :: written)
      refine ⟨ds ++ [n % 10 + 0x30], by rw [heq]; simp, ?_, ?_⟩
      · cases hin with
        | zero => exact absurd hd.symm hm
        | digits hlo hhi hds =>
          refine .digits hlo hhi fun c hc => ?_
          obtain hc | hc := mem_append.mp hc
          · exact hds c hc
          · obtain rfl := mem_singleton.mp hc
            exact isDigit_digit (by omega)
      · rw [LiteralParser.decimal_append, hd]
        omega

theorem numberToStringSigned_integer (n : Int) :
    ∃ ds, numberToStringSigned n = (if n < 0 then [0x2D] else []) ++ ds ∧ Integer ds ∧
      decimal ds = n.natAbs := by
  obtain ⟨ds, heq, hds⟩ := numberToStringImpl_integer n.natAbs []
  rw [append_nil] at heq
  refine ⟨ds, ?_, hds⟩
  rw [numberToStringSigned, heq]
  split <;> rfl

/-! ## Indentation -/

@[simp] theorem repeated_length (gap : Text) (depth : Nat) :
    (repeated gap depth).length = depth * gap.length := by
  simp [repeated]

theorem repeated_add (gap : Text) (m n : Nat) :
    repeated gap (m + n) = repeated gap m ++ repeated gap n := by
  rw [repeated, replicate_add, flatten_append, repeated, repeated]

theorem take_repeated (gap : Text) {m n : Nat} (h : m ≤ n) :
    (repeated gap n).take (m * gap.length) = repeated gap m := by
  obtain ⟨k, rfl⟩ := Nat.exists_eq_add_of_le h
  rw [repeated_add, take_left' (repeated_length gap m)]

/-! ## States -/

section

variable {format : NumberFormat Double} {gap : Text} {holders : List (Holder Double)}
  {depth room : Nat} {t : Text} {s : State Double}

/-- The state in which `t` is written, at some depth. -/
structure Holds (gap : Text) (holders : List (Holder Double)) (depth : Nat) (t : Text)
    (s : State Double) : Prop where
  holderStack : s.holderStack = holders
  indent : s.indent = repeated gap depth
  repeatedGap : ∃ m, depth ≤ m ∧ s.repeatedGap = repeated gap m
  characters : s.builder.characters = t
  fits : s.builder.hasOverflowed = false
  buffered : s.builder.Buffered

/-- Like `Holds`, unless the builder has overflowed, which takes more than this much room. -/
def Reached (gap : Text) (room : Nat) (holders : List (Holder Double)) (depth : Nat) (t : Text)
    (s : State Double) : Prop :=
  Holds gap holders depth t s ∨ s.builder.hasOverflowed = true ∧ 2 ^ 30 < room

theorem Holds.reached (h : Holds gap holders depth t s) (room : Nat) :
    Reached gap room holders depth t s := .inl h

variable (h : Reached gap room holders depth t s)

include h in
theorem Reached.append (x : Text) (hr : t.length + x.length ≤ room) :
    Reached gap room holders depth (t ++ x) (s.append x) := by
  obtain ⟨hs, hi, hgap, hc, hf, hb⟩ | ⟨ho, hlg⟩ := h
  · by_cases hx : x = []
    · subst hx
      refine .inl ⟨hs, hi, hgap, ?_, ?_, hb.append []⟩ <;>
        simp [State.append, StringBuilder.append, hf, hc]
    by_cases hl : t.length + x.length > maxLength
    · refine .inr ⟨?_, ?_⟩
      · simp [State.append, StringBuilder.append, hx, hf, hc, hl, StringBuilder.didOverflow]
      · have : 2 ^ 30 < maxLength := by decide
        omega
    · refine .inl ⟨hs, hi, hgap, ?_, ?_, hb.append x⟩ <;>
        simp [State.append, StringBuilder.append, StringBuilder.inBuffer, hx, hf, hc, hl]
  · exact .inr ⟨by simp [State.append, StringBuilder.append, ho], hlg⟩

variable (string : WTFString)

include h in
theorem Reached.appendQuoted (hr : t.length + (2 + string.characters.length * 6) ≤ room) :
    Reached gap room holders depth (t ++ quoted string.characters) (s.appendQuoted string) := by
  obtain ⟨hs, hi, hgap, rfl, hf, hb⟩ | ⟨ho, hlg⟩ := h
  · by_cases hl : s.builder.characters.length + (2 + string.characters.length * 6) ≤ 2 ^ 30
    · obtain ⟨hb', hf', hc'⟩ := hb.appendQuotedJSONString string hf hl
      exact .inl ⟨hs, hi, hgap, hc', hf', hb'⟩
    · refine .inr ⟨?_, by omega⟩
      rw [State.appendQuoted, StringBuilder.appendQuotedJSONString_eq hf, if_neg hl]
      rfl
  · exact .inr ⟨by simp [State.appendQuoted, StringBuilder.appendQuotedJSONString, ho], hlg⟩

theorem Reached.resize {x : Text} (h : Reached gap room holders depth (t ++ x) s) :
    Reached gap room holders depth t (s.resize t.length) := by
  obtain ⟨hs, hi, hgap, hc, hf, hb⟩ | ⟨ho, hl⟩ := h
  · refine .inl ⟨hs, hi, hgap, ?_, ?_, hb.resize (by simp [hc])⟩
    · simp only [State.resize, StringBuilder.resize]
      split <;> simp_all
    · simp only [State.resize, StringBuilder.resize]
      split <;> simp [hf]
  · exact .inr ⟨by simp [State.resize, StringBuilder.resize, ho], hl⟩

include h in
theorem Reached.startNewLine (hr : t.length + (newLine gap depth).length ≤ room) :
    Reached gap room holders depth (t ++ newLine gap depth) (s.startNewLine gap) := by
  rw [State.startNewLine]
  rw [newLine] at hr ⊢
  split
  · simpa using h
  rename_i hgap
  rw [if_neg hgap, length_cons] at hr
  have hi : s.builder.hasOverflowed = true ∨ s.indent = repeated gap depth :=
    h.elim (fun h => .inr h.indent) (fun h => .inl h.1)
  have hl := h.append [0x0A] (by rw [length_singleton]; omega)
  obtain ho | hi := hi
  · refine .inr ⟨?_, ?_⟩
    · simp [State.append, StringBuilder.append, ho]
    · exact h.elim (fun h => absurd h.fits (by simp [ho])) (·.2)
  · rw [hi]
    have := hl.append (repeated gap depth) (by simp at hr ⊢; omega)
    simpa using this

theorem separator_length_le (first : Bool) : (separator first).length ≤ 1 := by
  cases first <;> decide

theorem afterColon_length_le (gap : Text) : (afterColon gap).length ≤ 1 := by
  rw [afterColon]
  split <;> decide

include h in
theorem Reached.separated (first : Bool) (hr : t.length + 1 ≤ room) :
    Reached gap room holders depth (t ++ separator first)
    (if first then s else s.append [0x2C]) := by
  cases first with
  | true => simpa [separator] using h
  | false => exact h.append [0x2C] hr

include h in
theorem Reached.indented : Reached gap room holders (depth + 1) t (s.indented gap) := by
  obtain ⟨hs, hi, ⟨m, hm, hgap⟩, hc, hf, hb⟩ | ⟨ho, hl⟩ := h
  · have hmo : ∃ m, depth + 1 ≤ m ∧ (s.indented gap).repeatedGap = repeated gap m := by
      simp only [State.indented, hi, hgap, repeated_length]
      split
      · rename_i hlo
        obtain rfl : depth = m := by
          by_contra hne
          have : (depth + 1) * gap.length ≤ m * gap.length := Nat.mul_le_mul_right _ (by omega)
          rw [Nat.succ_mul] at this
          omega
        exact ⟨depth + 1, Nat.le_refl _, by rw [repeated_add]; simp [repeated]⟩
      · rename_i hsh
        by_cases hle : depth + 1 ≤ m
        · exact ⟨m, hle, rfl⟩
        · obtain rfl : depth = m := by omega
          have he : gap = [] := length_eq_zero_iff.mp (by omega)
          exact ⟨depth + 1, Nat.le_refl _, by simp [repeated, he]⟩
    refine .inl ⟨hs, ?_, hmo, hc, hf, hb⟩
    obtain ⟨m, hm, hgap⟩ := hmo
    have ht := take_repeated gap hm
    rw [← hgap] at ht
    rw [← ht]
    simp [State.indented, hi, Nat.succ_mul]
  · exact .inr ⟨ho, hl⟩

theorem Reached.unindented (h : Reached gap room holders (depth + 1) t s) :
    Reached gap room holders depth t (s.unindented gap) := by
  obtain ⟨hs, hi, ⟨m, hm, hgap⟩, hc, hf, hb⟩ | ⟨ho, hl⟩ := h
  · refine .inl ⟨hs, ?_, ⟨m, by omega, hgap⟩, hc, hf, hb⟩
    have ht := take_repeated gap (Nat.le_of_succ_le hm)
    simp [State.unindented, hi, hgap, Nat.succ_mul, ht]
  · exact .inr ⟨ho, hl⟩

include h in
theorem Reached.withHolders (ho' : List (Holder Double)) :
    Reached gap room ho' depth t { s with holderStack := ho' } := by
  obtain ⟨-, hi, hgap, hc, hf, hb⟩ | h := h
  · exact .inl ⟨rfl, hi, hgap, hc, hf, hb⟩
  · exact .inr h

/-! ## Runs -/

/-- What holds when the machine goes on from here. -/
def Goes (format : NumberFormat Double) (gap : Text) (post : Outcome → Prop) :
    State Double ⊕ Outcome → Prop
  | .inl s => Yields (run format gap s) post
  | .inr outcome => post outcome

variable {post : Outcome → Prop}

theorem yields_run (h : Goes format gap post (s.step format gap)) :
    Yields (run format gap s) post := by
  apply yields_loop
  apply yields_pure
  revert h
  cases s.step format gap <;> exact id

@[simp] theorem append_hasOverflowed (x : Text) (h : s.builder.hasOverflowed = true) :
    (s.append x).builder.hasOverflowed = true := by
  simp [append, StringBuilder.append, h]

theorem openHolder_overflowed (holder : Holder Double) (h : s.builder.hasOverflowed = true) :
    (s.openHolder gap holder).2.builder.hasOverflowed = true := by
  unfold openHolder
  split
  · split <;> simp [indented, h]
  · exact h

/-- Once the builder has overflowed, every holder is given up. -/
theorem goes_overflowed (holder : Holder Double) (rest : List (Holder Double))
    (ho : s.builder.hasOverflowed = true) (hp : post .outOfMemory) :
    Goes format gap post (proceed (s.appendOpened format gap holder rest)) := by
  simp [appendOpened, ho, proceed, Goes, outcome, pure, Except.pure, hp]

theorem yields_overflowed (ho : s.builder.hasOverflowed = true) (hp : post .outOfMemory) :
    Yields (run format gap s) post := by
  apply yields_run
  rw [step]
  split
  · simp [Goes, outcome, ho, hp]
  · exact goes_overflowed _ _ (openHolder_overflowed _ ho) hp

include h in
theorem Reached.yields (hf : 2 ^ 30 < room → post .outOfMemory)
    (hn : ∀ s, Holds gap holders depth t s → Yields (run format gap s) post) :
    Yields (run format gap s) post := by
  obtain h | ⟨ho, hl⟩ := h
  · exact hn s h
  · exact yields_overflowed ho (hf hl)

/-! ## What is written -/

/-- Wherever the value may stand, its text is appended. -/
def Appends (format : NumberFormat Double) (gap : Text) (v : Value Double) : Prop :=
  ∀ (isArray : Bool) (rollBackPoint : Nat) (holders : List (Holder Double)) {depth room : Nat}
    {t : Text} {s : State Double} {post : Outcome → Prop},
    v.Writable (holders.map Holder.cell) → (v.dropped = true → isArray = true) →
    Reached gap room holders depth t s → t.length + demand format gap depth v ≤ room →
    (2 ^ 30 < room → post .outOfMemory) →
    (∀ s, Holds gap holders depth (t ++ text format gap depth v) s →
      Yields (run format gap s) post) →
    ∃ s', finishProperty rollBackPoint <$> s.appendStringifiedValue format v isArray = .ok s' ∧
      Yields (run format gap s') post

/-- What closes an array or an object, in which something may have been written. -/
def closing (gap : Text) (depth : Nat) (empty : Bool) (bracket : Nat) : Text :=
  (if empty then [] else newLine gap depth) ++ [bracket]

/-- In an array of which these elements are left, they are appended, and it is closed. -/
def AppendsElements (format : NumberFormat Double) (gap : Text) (vs : List (Value Double)) : Prop :=
  ∀ {values : List (Value Double)} {cell index : Nat} {holders rest : List (Holder Double)}
    {depth room : Nat} {t : Text} {s : State Double} {post : Outcome → Prop},
    WritableElements (cell :: rest.map Holder.cell) vs → index ≤ values.length →
    values.drop index = vs → (index ≠ 0 → t.getLast? ≠ some 0x7B) →
    Reached gap room holders (depth + 1) t s →
    t.length + demandElements format gap (depth + 1) vs + (newLine gap depth).length + 1 ≤ room →
    (2 ^ 30 < room → post .outOfMemory) →
    (∀ s, Holds gap rest depth (t ++ elementsText format gap (depth + 1) (index == 0) vs ++
      closing gap depth values.isEmpty 0x5D) s → Yields (run format gap s) post) →
    Goes format gap post
      (proceed (s.appendOpened format gap ⟨cell, .elements values, index, values.length⟩ rest))

/-- In an object of which these members are left, they are appended, and it is closed. The brace
that opens it is the last character as long as no member is written. -/
def AppendsMembers (format : NumberFormat Double) (gap : Text)
    (ms : List (WTFString × Value Double)) : Prop :=
  ∀ (first : Bool) {members : List (WTFString × Value Double)} {cell index : Nat}
    {holders rest : List (Holder Double)} {depth room : Nat} {t : Text}
    {s : State Double} {post : Outcome → Prop},
    WritableMembers (cell :: rest.map Holder.cell) ms → index ≤ members.length →
    members.drop index = ms → (t.getLast? = some 0x7B ↔ first = true) →
    (members = [] → first = true) → Reached gap room holders (depth + 1) t s →
    t.length + demandMembers format gap (depth + 1) ms + (newLine gap depth).length + 1 ≤ room →
    (2 ^ 30 < room → post .outOfMemory) →
    (∀ s, Holds gap rest depth (t ++ membersText format gap (depth + 1) first ms ++
      closing gap depth (first && ms.all (·.2.dropped)) 0x7D) s → Yields (run format gap s) post) →
    Goes format gap post
      (proceed (s.appendOpened format gap ⟨cell, .members members, index, members.length⟩ rest))

theorem appendElement_eq (s : State Double) (i : Nat) (v : Value Double) :
    s.appendElement format gap i v =
      finishProperty 0 <$>
        ((if i == 0 then s else s.append [0x2C]).startNewLine gap).appendStringifiedValue
          format v true := by
  simp [appendElement]

/-- The state in which the value of a member is appended. -/
def State.named (gap : Text) (name : WTFString) (s : State Double) : State Double :=
  let s := if s.builder.characters.getLast? = some 0x7B then s else s.append [0x2C]
  let s := ((s.startNewLine gap).appendQuoted name).append [0x3A]
  if gap.isEmpty then s else s.append [0x20]

theorem appendMember_eq (s : State Double) (name : WTFString) (v : Value Double) :
    s.appendMember format gap name v =
      finishProperty s.builder.characters.length <$>
        (s.named gap name).appendStringifiedValue format v false := by
  simp [appendMember, named]

theorem Holds.named {first : Bool} (h : Holds gap holders depth t s) (room : Nat)
    (hf : t.getLast? = some 0x7B ↔ first = true) (name : WTFString)
    (hr : t.length + 3 + (newLine gap depth).length + (2 + name.characters.length * 6) ≤ room) :
    Reached gap room holders depth
      (t ++ (separator first ++ newLine gap depth ++ quoted name.characters ++ [0x3A] ++
        afterColon gap)) (s.named gap name) := by
  have hs := separator_length_le first
  have hq := quoted_length name.units
  have hc := (((((h.reached room).separated first (by omega)).startNewLine
    (by simp only [length_append]; omega)).appendQuoted name
    (by simp only [length_append]; omega)).append [0x3A]
    (by simp only [length_append, length_singleton]; omega))
  simp only [State.named, h.characters, hf, afterColon, ← append_assoc]
  by_cases hgap : gap.isEmpty = true
  · simp only [hgap, if_true, append_nil]
    exact hc
  · simp only [hgap, Bool.false_eq_true, if_false]
    apply hc.append
    simp only [length_append, length_singleton]
    omega

theorem appendStringifiedValue_dropped {v : Value Double} (h : v.dropped = true)
    (s : State Double) :
    s.appendStringifiedValue format v false = .ok (.failedDueToUndefinedOrSymbolValue, s) := by
  cases v <;> first | rfl | cases h

/-- No text ends in the brace that opens an object. -/
theorem text_ends (format : NumberFormat Double) (gap : Text) (depth : Nat) (v : Value Double) :
    ∃ x c, text format gap depth v = x ++ [c] ∧ c ≠ 0x7B := by
  have hd {c : Nat} (h : isDigit c = true) : c ≠ 0x7B := by
    rintro rfl
    cases h
  have hn : ∃ x c, null = x ++ [c] ∧ c ≠ 0x7B := ⟨[0x6E, 0x75, 0x6C], 0x6C, rfl, by decide⟩
  cases v with
  | undefined | null | symbol | bigInt | function => exact hn
  | boolean b =>
    cases b with
    | true => exact ⟨[0x74, 0x72, 0x75], 0x65, rfl, by decide⟩
    | false => exact ⟨[0x66, 0x61, 0x6C, 0x73], 0x65, rfl, by decide⟩
  | int32 n =>
    obtain ⟨ds, heq, hin, -⟩ := numberToStringSigned_integer n
    have hne : ds ≠ [] := by
      rintro rfl
      cases hin
    rw [text, heq, ← dropLast_append_getLast hne, ← append_assoc]
    exact ⟨_, _, rfl, hd (LiteralParser.integer_digits hin _ (getLast_mem hne))⟩
  | double d =>
    rw [text]
    split_ifs with hf
    · obtain ⟨x, c, heq, hc⟩ := format.endsInDigit d hf
      exact ⟨x, c, heq, hd hc⟩
    · exact hn
  | string string => exact ⟨_, 0x22, rfl, by decide⟩
  | array cell vs => exact ⟨_, 0x5D, rfl, by decide⟩
  | object cell ms => exact ⟨_, 0x7D, rfl, by decide⟩

theorem append_text_getLast (format : NumberFormat Double) (gap : Text) (depth : Nat)
    (v : Value Double) (t : Text) : (t ++ text format gap depth v).getLast? ≠ some 0x7B := by
  obtain ⟨x, c, heq, hc⟩ := text_ends format gap depth v
  rw [heq, ← append_assoc, getLast?_concat]
  simpa using hc

mutual

theorem text_length_le (format : NumberFormat Double) (gap : Text) (depth : Nat) :
    ∀ v : Value Double, (text format gap depth v).length ≤ demand format gap depth v
  | .undefined | .null | .boolean _ | .int32 _ | .double _ | .symbol | .bigInt | .function =>
    Nat.le_refl _
  | .string string => by
    have := quoted_length string.units
    rw [demand, text]
    omega
  | .array _ vs => by
    have := elementsText_length_le format gap (depth + 1) true vs
    rw [demand, text]
    split <;> simp only [length_append, length_cons, length_nil] <;> omega
  | .object _ ms => by
    have := membersText_length_le format gap (depth + 1) true ms
    rw [demand, text]
    split <;> simp only [length_append, length_cons, length_nil] <;> omega

theorem elementsText_length_le (format : NumberFormat Double) (gap : Text) (depth : Nat)
    (first : Bool) : ∀ vs : List (Value Double),
      (elementsText format gap depth first vs).length ≤ demandElements format gap depth vs
  | [] => Nat.le_refl _
  | v :: vs => by
    have := text_length_le format gap depth v
    have := elementsText_length_le format gap depth false vs
    have := separator_length_le first
    rw [demandElements, elementsText]
    simp only [length_append]
    omega

theorem membersText_length_le (format : NumberFormat Double) (gap : Text) (depth : Nat)
    (first : Bool) : ∀ ms : List (WTFString × Value Double),
      (membersText format gap depth first ms).length ≤ demandMembers format gap depth ms
  | [] => Nat.le_refl _
  | (name, v) :: ms => by
    have := text_length_le format gap depth v
    have := membersText_length_le format gap depth first ms
    have := membersText_length_le format gap depth false ms
    have := separator_length_le first
    have := afterColon_length_le gap
    have := quoted_length name.units
    rw [demandMembers, membersText]
    split
    · omega
    · simp only [length_append, length_singleton]
      omega

end

variable {v : Value Double} {cell : Nat} {holder : Holder Double} {rest : List (Holder Double)}

theorem appends_of_append {x : Text} (ht : ∀ depth, text format gap depth v = x)
    (hde : ∀ depth, demand format gap depth v = x.length)
    (h : ∀ (s : State Double) isArray rb, (v.dropped = true → isArray = true) →
      finishProperty rb <$> s.appendStringifiedValue format v isArray =
        .ok (s.append x)) : Appends format gap v := by
  intro isArray rb holders depth room t s post _ hd hr hro hf hn
  rw [ht] at hn
  rw [hde] at hro
  exact ⟨_, h s isArray rb hd, (hr.append x hro).yields hf hn⟩

theorem appends_string : Appends format gap (.string string) := by
  intro isArray rb holders depth room t s post _ _ hr hro hf hn
  refine ⟨s.appendQuoted string, rfl, ?_⟩
  rw [demand] at hro
  rw [text] at hn
  exact (hr.appendQuoted string hro).yields hf hn

/-- A new holder, in the state in which its first step begins. -/
theorem pushHolder_eq (cts : Contents Double) (rb : Nat)
    (h : Holds gap holders depth t s) (hce : cell ∉ holders.map Holder.cell) :
    finishProperty rb <$> s.pushHolder cell cts =
      .ok { s with holderStack := ⟨cell, cts, 0, 0⟩ :: holders } := by
  have hc : s.holderStack.any (fun holder => holder.cell == cell) = false := by
    rw [h.holderStack, any_eq_false]
    intro holder hmem heq
    exact hce (mem_map.mpr ⟨holder, hmem, by simpa using heq⟩)
  simp only [pushHolder, h.fits, hc, Bool.false_eq_true, if_false]
  rw [h.holderStack]
  rfl

/-- A container is appended once its holder's steps append it. -/
theorem pushed {rb : Nat} {cts : Contents Double} {post : Outcome → Prop}
    (hr : Reached gap room holders depth t s) (hc : cell ∉ holders.map Holder.cell)
    (hf : 2 ^ 30 < room → post .outOfMemory) (hs : ∀ s : State Double,
      Holds gap (⟨cell, cts, 0, 0⟩ :: holders) depth t s → Goes format gap post
          (proceed (s.appendNextProperty format gap ⟨cell, cts, 0, 0⟩ holders))) :
    ∃ s', finishProperty rb <$> s.pushHolder cell cts = .ok s' ∧
      Yields (run format gap s') post := by
  obtain hh | ⟨ho, hl⟩ := hr
  · refine ⟨_, pushHolder_eq cts rb hh hc, yields_run ?_⟩
    apply hs
    exact ⟨rfl, hh.indent, hh.repeatedGap, hh.characters, hh.fits, hh.buffered⟩
  · -- no holder is pushed
    exact ⟨s.append null, by simp [pushHolder, ho, finishProperty, Functor.map, Except.map],
      yields_overflowed (append_hasOverflowed null ho) (hf hl)⟩

variable {vs : List (Value Double)}

theorem appends_array (cell : Nat)
    (h : AppendsElements format gap vs) : Appends format gap (.array cell vs) := by
  intro isArray rb holders depth room t s post hw _ hr hro hf hn
  obtain ⟨hc, hvs⟩ := hw
  rw [demand] at hro
  refine pushed hr hc hf fun s hs => ?_
  have ho := ((hs.reached room).append [0x5B] (by rw [length_singleton]; omega)).indented
  refine h hvs (Nat.zero_le _) rfl (fun h => absurd rfl h) ho ?_ hf fun s hs => hn s ?_
  · rw [length_append, length_singleton]
    omega
  · simpa [text, closing] using hs

variable {ms : List (WTFString × Value Double)}

theorem appends_object (cell : Nat)
    (h : AppendsMembers format gap ms) : Appends format gap (.object cell ms) := by
  intro isArray rb holders depth room t s post hw _ hr hro hf hn
  obtain ⟨hc, ht, hms⟩ := hw
  rw [demand] at hro
  simp only [appendStringifiedValue, ht]
  refine pushed hr hc hf fun s hs => ?_
  have ho := ((hs.reached room).append [0x7B] (by rw [length_singleton]; omega)).indented
  refine h true hms (Nat.zero_le _) rfl (by simp) (fun _ => rfl) ho ?_ hf fun s hs => hn s ?_
  · rw [length_append, length_singleton]
    omega
  · rw [Bool.true_and] at hs
    simpa [text, closing] using hs

theorem closeHolder_reached (holder : Holder Double) {empty : Bool}
    (h : Reached gap room holders (depth + 1) t s)
    (he : holder.size ≠ 0 ∧ t.getLast? ≠ some 0x7B ↔ empty = false)
    (hr : t.length + (newLine gap depth).length + 1 ≤ room) :
    Reached gap room holders depth
      (t ++ closing gap depth empty (if holder.isArray then 0x5D else 0x7D))
      (s.closeHolder gap holder) := by
  have hb := h.unindented
  rw [closeHolder, closing]
  obtain hh | ⟨ho, hl⟩ := hb
  · simp only [hh.characters, he]
    cases empty with
    | true =>
      simp only [Bool.true_eq_false, if_false, if_true, nil_append]
      exact Reached.append (.inl hh) _ (by rw [length_singleton]; omega)
    | false =>
      rw [← append_assoc]
      apply (Reached.startNewLine (.inl hh) (by omega)).append
      simp only [length_append, length_singleton]
      omega
  · refine .inr ⟨append_hasOverflowed _ ?_, hl⟩
    split
    · simp [startNewLine]
      split <;> simp [ho]
    · exact ho

/-- The last step of a holder. -/
theorem goes_closing (empty : Bool)
    (hr : Reached gap room holders (depth + 1) t s) (hi : holder.index = holder.size)
    (he : holder.size ≠ 0 ∧ t.getLast? ≠ some 0x7B ↔ empty = false)
    (hro : t.length + (newLine gap depth).length + 1 ≤ room)
    (hf : 2 ^ 30 < room → post .outOfMemory) (hn : ∀ s, Holds gap rest depth
      (t ++ closing gap depth empty (if holder.isArray then 0x5D else 0x7D)) s →
        Yields (run format gap s) post) :
    Goes format gap post (proceed (s.appendOpened format gap holder rest)) := by
  obtain hh | ⟨ho, hl⟩ := hr
  · have hc := closeHolder_reached holder ((hh.reached room).withHolders (holder :: rest)) he hro
    have hop : s.appendOpened format gap holder rest =
        .ok (false, closeHolder gap { s with holderStack := holder :: rest } holder) := by
      simp [appendOpened, hh.fits, hi, pure, Except.pure]
    rw [hop, proceed]
    obtain hc | ⟨ho, hl⟩ := hc
    · rw [if_neg (by simp [hc.fits])]
      apply hn
      exact ⟨by simp [hc.holderStack], hc.indent, hc.repeatedGap, hc.characters, hc.fits,
        hc.buffered⟩
    · rw [if_pos ho, outcome, if_pos ho]
      exact hf hl
  · exact goes_overflowed _ _ ho (hf hl)

/-- A later step of a holder, which is open. -/
theorem yields_opened (hs : Holds gap (holder :: rest) depth t s) (hi : holder.index ≠ 0)
    (h : Goes format gap post (proceed (s.appendOpened format gap holder rest))) :
    Yields (run format gap s) post := by
  apply yields_run
  rw [step, hs.holderStack]
  simpa only [appendNextProperty, openHolder, if_neg hi] using h

theorem appendsElements_nil : AppendsElements format gap [] := by
  intro vs cell i holders rest depth room t s post _ hi hd hl hr hro hf hn
  have hlen : i = vs.length := by
    have := drop_eq_nil_iff.mp hd
    omega
  rw [demandElements] at hro
  apply goes_closing vs.isEmpty hr hlen _ hro hf
  · rw [elementsText, append_nil] at hn
    exact hn
  · cases vs with
    | nil => simp
    | cons v vs => exact ⟨fun _ => rfl, fun _ => ⟨by simp, hl (by simp [hlen])⟩⟩

/-- The step of a holder that appends its next property. -/
theorem goes_property (property : State Double → Except Failure (State Double))
    (hr : Reached gap room holders depth t s) (hf : 2 ^ 30 < room → post .outOfMemory)
    (ho : ∀ s : State Double, s.builder.hasOverflowed = false →
      s.appendOpened format gap holder rest = (true, ·) <$>
        property { s with holderStack := { holder with index := holder.index + 1 } :: rest })
    (hp : ∀ s, Holds gap ({ holder with index := holder.index + 1 } :: rest) depth t s →
      ∃ s', property s = .ok s' ∧ Yields (run format gap s') post) :
    Goes format gap post (proceed (s.appendOpened format gap holder rest)) := by
  obtain hh | ⟨hov, hl⟩ := hr
  · obtain ⟨s', hs', hy⟩ := hp
      { s with holderStack := { holder with index := holder.index + 1 } :: rest }
      ⟨rfl, hh.indent, hh.repeatedGap, hh.characters, hh.fits, hh.buffered⟩
    rw [ho s hh.fits, hs']
    exact hy
  · exact goes_overflowed _ _ hov (hf hl)

theorem appendsElements_cons (hv : Appends format gap v) (hvs : AppendsElements format gap vs) :
    AppendsElements format gap (v :: vs) := by
  intro vals cell i holders rest depth room t s post hwr hi hd hla hr hro hf hn
  obtain ⟨hw, hws⟩ := hwr
  have hlt : i < vals.length := by
    by_contra hle
    rw [drop_eq_nil_of_le (by omega)] at hd
    cases hd
  rw [drop_eq_getElem_cons hlt] at hd
  obtain ⟨hget, hre⟩ := cons.inj hd
  rw [demandElements] at hro
  refine goes_property (fun s => s.appendElement format gap i v) hr hf ?_ ?_
  · intro s hft
    have hne : i ≠ vals.length := Nat.ne_of_lt hlt
    simp [appendOpened, hft, hne, List.getElem?_eq_getElem hlt, hget]
  intro s hs
  have hse := separator_length_le (i == 0)
  have ht := text_length_le format gap (depth + 1) v
  have hl := ((hs.reached room).separated (i == 0)
    (by omega)).startNewLine (by rw [length_append]; omega)
  rw [appendElement_eq]
  refine hv true 0 (⟨cell, .elements vals, i + 1, vals.length⟩ :: rest) hw (fun _ => rfl) hl ?_
    hf fun s hs => ?_
  · simp only [length_append]
    omega
  · refine yields_opened hs (Nat.succ_ne_zero i) ?_
    refine hvs hws hlt hre (fun _ => append_text_getLast _ _ _ _ _) (.inl hs) ?_ hf ?_
    · simp only [length_append]
      omega
    · simpa [elementsText] using hn

theorem appendsMembers_nil : AppendsMembers format gap [] := by
  intro first members cell i holders rest depth room t s post _ hi hd hf hno hr hro hfu hn
  have hlen : i = members.length := by
    have := drop_eq_nil_iff.mp hd
    omega
  rw [demandMembers] at hro
  apply goes_closing first hr hlen _ hro hfu
  · simpa [membersText, Holder.isArray] using hn
  · rw [ne_eq, ne_eq, hf, length_eq_zero_iff]
    cases first <;> simp_all

theorem appendsMembers_cons {name : WTFString} (hv : Appends format gap v)
    (hms : AppendsMembers format gap ms) : AppendsMembers format gap ((name, v) :: ms) := by
  intro first members cell i holders rest depth room t s post hwr hi hdr hfi hno hr hro hf hnx
  obtain ⟨hw, hws⟩ := hwr
  have hlt : i < members.length := by
    by_contra hle
    rw [drop_eq_nil_of_le (by omega)] at hdr
    cases hdr
  rw [drop_eq_getElem_cons hlt] at hdr
  obtain ⟨hget, hre⟩ := cons.inj hdr
  rw [demandMembers] at hro
  refine goes_property (fun s => s.appendMember format gap name v) hr hf ?_ ?_
  · intro s hft
    have hne : i ≠ members.length := Nat.ne_of_lt hlt
    simp [appendOpened, hft, hne, List.getElem?_eq_getElem hlt, hget]
  intro s hs
  have hn := hs.named room hfi name (by omega)
  rw [appendMember_eq, hs.characters]
  by_cases hd : v.dropped = true
  · refine ⟨_, by rw [appendStringifiedValue_dropped hd]; rfl, ?_⟩
    refine hn.resize.yields hf fun s hs => ?_
    refine yields_opened hs (Nat.succ_ne_zero i) ?_
    refine hms first hws hlt hre hfi (fun h => by simp [h] at hlt) (.inl hs) (by omega) hf ?_
    simpa [membersText, hd] using hnx
  · have ht := text_length_le format gap (depth + 1) v
    have hse := separator_length_le first
    have haf := afterColon_length_le gap
    have hq := quoted_length name.units
    refine hv false t.length (⟨cell, .members members, i + 1, members.length⟩ :: rest) hw
      (fun h => absurd h hd) hn ?_ hf fun s hs => ?_
    · simp only [length_append, length_singleton]
      omega
    refine yields_opened hs (Nat.succ_ne_zero i) ?_
    refine hms false hws hlt hre ?_ (fun h => by simp [h] at hlt) (.inl hs) ?_
      hf ?_
    · exact ⟨fun h => absurd h (append_text_getLast _ _ _ _ _),
        fun h => absurd h Bool.false_ne_true⟩
    · simp only [length_append, length_singleton]
      omega
    · simpa [membersText, hd] using hnx

mutual

theorem appends : ∀ v : Value Double, Appends format gap v
  | .undefined | .symbol | .function =>
    appends_of_append (fun _ => rfl) (fun _ => rfl) fun _ _ _ h => by
      rw [h rfl]
      rfl
  | .null => appends_of_append (fun _ => rfl) (fun _ => rfl) fun _ _ _ _ => rfl
  | .boolean _ => appends_of_append (fun _ => rfl) (fun _ => rfl) fun _ _ _ _ => rfl
  | .int32 _ => appends_of_append (fun _ => rfl) (fun _ => rfl) fun _ _ _ _ => rfl
  | .double _ => appends_of_append (fun _ => rfl) (fun _ => rfl) fun _ _ _ _ => rfl
  | .string string => appends_string string
  | .bigInt => fun _ _ _ _ _ _ _ _ hw => hw.elim
  | .array cell vs => appends_array cell (appendsElements vs)
  | .object cell ms => appends_object cell (appendsMembers ms)

theorem appendsElements : ∀ vs : List (Value Double), AppendsElements format gap vs
  | [] => appendsElements_nil
  | v :: vs => appendsElements_cons (appends v) (appendsElements vs)

theorem appendsMembers : ∀ ms : List (WTFString × Value Double), AppendsMembers format gap ms
  | [] => appendsMembers_nil
  | (_, v) :: ms => appendsMembers_cons (appends v) (appendsMembers ms)

end

theorem appendStringifiedValue_succeeded {result : StringifyResult}
    {s' : State Double} (hf : s.builder.hasOverflowed = false) (hk : v.dropped = false)
    (h : s.appendStringifiedValue format v false = .ok (result, s')) : result = .succeeded := by
  have hp {cell : Nat} {cts : Contents Double}
      (h : s.pushHolder cell cts = .ok (result, s')) : result = .succeeded := by
    rw [pushHolder, if_neg (by simp [hf])] at h
    split at h <;> cases h
    rfl
  unfold appendStringifiedValue at h
  split at h
  · cases h
  · cases v with
    | undefined | symbol | function => cases hk
    | null | boolean | int32 | double | string => cases h; rfl
    | bigInt => cases h
    | array | object => exact hp h

/-- `JSON.stringify` gives the text of the value, unless that asks for too much room. -/
theorem stringify_text (hw : v.Writable []) (hk : v.dropped = false) :
    Yields (stringify format gap v) fun outcome =>
      outcome = .text (text format gap 0 v) ∨
        outcome = .outOfMemory ∧ 2 ^ 30 < demand format gap 0 v := by
  have hsta : Holds gap ([] : List (Holder Double)) 0 [] ⟨[], [], [], .empty⟩ :=
    ⟨rfl, rfl, ⟨0, Nat.le_refl 0, rfl⟩, rfl, rfl, rfl, rfl, fun _ => ⟨rfl, rfl⟩,
      fun h => absurd rfl h⟩
  have hend (s : State Double) (hs : Holds gap [] 0 (text format gap 0 v) s) :
      Yields (run format gap s) fun outcome => outcome = .text (text format gap 0 v) ∨
        outcome = .outOfMemory ∧ 2 ^ 30 < demand format gap 0 v := by
    apply yields_run
    rw [step, hs.holderStack]
    exact .inl (by simp [outcome, StringBuilder.toString, hs.fits, hs.characters,
      hs.buffered.string])
  have ha : Appends format gap v := appends v
  obtain ⟨s', hs', hy⟩ := ha false 0 [] hw (fun h => by rw [hk] at h; cases h)
    (hsta.reached (demand format gap 0 v)) (by simp) (fun hl => .inr ⟨rfl, hl⟩) hend
  rw [stringify]
  cases hr : appendStringifiedValue format
      (⟨[], [], [], .empty⟩ : State Double) v false with
  | error failure =>
    rw [hr] at hs'
    cases hs'
  | ok r =>
    obtain ⟨result, s⟩ := r
    obtain rfl := appendStringifiedValue_succeeded rfl hk hr
    rw [hr] at hs'
    cases hs'
    exact hy

/-- A value that is dropped has no text. -/
theorem stringify_dropped (h : v.dropped = true) :
    Yields (stringify format gap v) (· = .undefined) := by
  rw [stringify, appendStringifiedValue_dropped h]
  exact yields_pure rfl

end

end JavaScriptCore.Stringifier
