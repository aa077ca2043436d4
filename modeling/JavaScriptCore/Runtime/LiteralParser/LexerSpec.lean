import JavaScriptCore.Runtime.LiteralParser.Lexer

/-!
# The strict lexer against the lexical grammar

A string token is exactly a string literal, and a number token a number, as far as possible:
a number that is followed by nothing that could continue it is read to its end.
-/

namespace JavaScriptCore.LiteralParser

open Json List

variable {Double : Type}

/-! ## Strings -/

section Strings

variable {ct : CharType}

/-- What `lexString` skips over in strict mode. -/
abbrev isSafe (charType : CharType) : Nat → Bool := isSafeStringCharacter charType .strictJSON 0x22

theorem isSafe_iff (c : Nat) : isSafe ct c = true ↔ 0x20 ≤ c ∧ c ≠ 0x5C ∧ c ≠ 0x22 := by
  simp [isSafeStringCharacter, and_assoc]

theorem isSafe_quote : isSafe ct 0x22 = false := by simp [isSafeStringCharacter]

variable {s r x : Text}

theorem lexEscape_iff {e c : Nat} : lexEscape .strictJSON (e :: s) = .ok (c, r) ↔
      (ShortEscape e c ∧ s = r) ∨
      ∃ a b f d, e = 0x75 ∧ s = a :: b :: f :: d :: r ∧ isHexDigit a = true ∧
        isHexDigit b = true ∧ isHexDigit f = true ∧ isHexDigit d = true ∧
        c = hexValue a * 0x1000 + hexValue b * 0x100 + hexValue f * 0x10 + hexValue d := by
  constructor
  · intro h
    simp only [lexEscape] at h
    split at h
    case h_9 =>
      split at h
      · split at h
        · rename_i hhex
          cases h
          simp only [Bool.and_eq_true] at hhex
          exact .inr ⟨_, _, _, _, rfl, rfl, hhex.1.1.1, hhex.1.1.2, hhex.1.2, hhex.2, rfl⟩
        · cases h
      · cases h
    case h_10 => simp at h
    all_goals cases h; exact .inl ⟨by constructor, rfl⟩
  · rintro (⟨he, rfl⟩ | ⟨a, b, f, d, rfl, rfl, ha, hb, hf, hd, rfl⟩)
    · cases he <;> rfl
    · simp [lexEscape, ha, hb, hf, hd]

/-- An escape sequence is read as one character. -/
theorem characters_escape_iff : Characters (0x5C :: s) x (0x22 :: r) ↔
      ∃ c after y, lexEscape .strictJSON s = .ok (c, after) ∧ x = c :: y ∧
        Characters after y (0x22 :: r) := by
  constructor
  · intro h
    cases h with
    | plain _ _ hne _ => exact absurd rfl hne
    | escape he hr => exact ⟨_, _, _, lexEscape_iff.mpr (.inl ⟨he, rfl⟩), rfl, hr⟩
    | hex ha hb hc hd hr =>
      exact ⟨_, _, _, lexEscape_iff.mpr (.inr ⟨_, _, _, _, rfl, rfl, ha, hb, hc, hd, rfl⟩), rfl, hr⟩
  · rintro ⟨c, after, y, hlex, rfl, hr⟩
    cases s with
    | nil => cases hlex
    | cons e s =>
      obtain ⟨he, rfl⟩ | ⟨a, b, f, d, rfl, rfl, ha, hb, hf, hd, rfl⟩ := lexEscape_iff.mp hlex
      · exact .escape he hr
      · exact .hex ha hb hf hd hr

/-- The characters of a literal begin with what `lexString` skips over. -/
theorem characters_run_iff (ct : CharType) : Characters s x (0x22 :: r) ↔
      ∃ y, x = s.takeWhile (isSafe ct) ++ y ∧
        Characters (s.dropWhile (isSafe ct)) y (0x22 :: r) := by
  induction s generalizing x with
  | nil => simp
  | cons c s ih =>
    by_cases hs : isSafe ct c = true
    · obtain ⟨hlow, hes, hq⟩ := (isSafe_iff c).mp hs
      rw [takeWhile_cons_of_pos hs, dropWhile_cons_of_pos hs]
      constructor
      · intro h
        cases h with
        | nil => exact absurd rfl hq
        | plain _ _ _ hr =>
          obtain ⟨y, rfl, hy⟩ := ih.mp hr
          exact ⟨y, rfl, hy⟩
        | escape _ _ => exact absurd rfl hes
        | hex _ _ _ _ _ => exact absurd rfl hes
      · rintro ⟨y, rfl, hy⟩
        exact .plain hlow hq hes (ih.mpr ⟨y, rfl, hy⟩)
    · rw [takeWhile_cons_of_neg hs, dropWhile_cons_of_neg hs]
      simp

/-- Where no run can be continued, a literal ends or an escape begins. -/
theorem characters_stop (h : Characters s x (0x22 :: r)) (hs : ∀ c ∈ s.head?, isSafe ct c = false) :
    (s = 0x22 :: r ∧ x = []) ∨ ∃ after, s = 0x5C :: after := by
  cases h with
  | nil => exact .inl ⟨rfl, rfl⟩
  | plain hlow hq hes _ =>
    have := hs _ rfl
    rw [(isSafe_iff _).mpr ⟨hlow, hes, hq⟩] at this
    cases this
  | escape _ _ => exact .inr ⟨_, rfl⟩
  | hex _ _ _ _ _ => exact .inr ⟨_, rfl⟩

theorem head_dropWhile {p : Nat → Bool} (s : Text) : ∀ c ∈ (s.dropWhile p).head?, p c = false := by
  intro c hc
  have h := head?_dropWhile_not p s
  rw [Option.mem_def.mp hc] at h
  exact h

/-- The text a string token has so far. -/
def decoded (builder run : Text) : Text := if builder.isEmpty then run else builder

/-- One round of the loop in strict mode. -/
theorem lexStringSlow_round (bld run rest : Text) :
    (lexStringSlow ct .strictJSON 0x22 bld run rest : Lexed Double) =
      match lexEscaped .strictJSON bld run rest with
      | .error (rest, message) => .fail rest message
      | .ok (builder', rest', moved) =>
        if moved = true ∧ rest' ≠ [] ∧ rest'.head? ≠ some 0x22 then
          lexStringSlow ct .strictJSON 0x22
            (if builder'.isEmpty then builder' else builder' ++ rest'.takeWhile (isSafe ct))
            (rest'.takeWhile (isSafe ct)) (rest'.dropWhile (isSafe ct))
        else finishString 0x22 builder' run rest' := by
  rw [lexStringSlow]
  split
  · rename_i h
    rw [h]
  · rename_i h
    simp [h]

theorem lexStringSlow_complete {rest : Text} (bld run : Text)
    (hsp : ∀ c ∈ rest.head?, isSafe ct c = false) (h : Characters rest x (0x22 :: r)) :
    (lexStringSlow ct .strictJSON 0x22 bld run rest : Lexed Double) =
      .ok (.string (decoded bld run ++ x)) r := by
  induction hlen : rest.length using Nat.strongRecOn generalizing bld run rest x with
  | ind n ih =>
  subst hlen
  rw [lexStringSlow_round]
  obtain ⟨rfl, rfl⟩ | ⟨after, rfl⟩ := characters_stop h hsp
  · -- at the terminator the loop ends
    cases bld <;> simp [lexEscaped, finishString, decoded]
  obtain ⟨c, next, y, hlex, rfl, hy⟩ := characters_escape_iff.mp h
  have hb : ((if bld.isEmpty then run else bld) ++ [c]).isEmpty = false := by simp
  simp only [lexEscaped, hlex, ne_eq, reduceCtorEq, not_false_eq_true, if_true, true_and,
    hb, Bool.false_eq_true, if_false]
  by_cases hq : next.head? = some 0x22
  · -- the escape was the last character
    have hs' : ∀ c ∈ next.head?, isSafe ct c = false := by
      rw [hq]
      rintro _ ⟨⟩
      exact isSafe_quote
    obtain ⟨rfl, rfl⟩ | ⟨after', rfl⟩ := characters_stop hy hs'
    · simp [finishString, decoded]
    · cases hq
  · have hne : next ≠ [] := by
      rintro rfl
      cases hy
    rw [if_pos ⟨hne, hq⟩]
    obtain ⟨z, rfl, hz⟩ := (characters_run_iff ct).mp hy
    have hs : (next.dropWhile (isSafe ct)).length < (0x5C :: after).length :=
      Nat.lt_of_le_of_lt (dropWhile_sublist _).length_le (Nat.lt_succ_of_lt (lexEscape_length hlex))
    rw [ih _ hs _ _ (head_dropWhile next) hz rfl]
    simp [decoded]

/-- A character that neither continues a run, nor ends or escapes, begins no literal. -/
theorem lexEscaped_cases (bld run rest : Text) :
    (∃ failure, lexEscaped .strictJSON bld run rest = .error failure) ∨
    (∃ after c next, rest = 0x5C :: after ∧ lexEscape .strictJSON after = .ok (c, next) ∧
      lexEscaped .strictJSON bld run rest = .ok (decoded bld run ++ [c], next, true)) ∨
    (rest.head? ≠ some 0x5C ∧
      lexEscaped .strictJSON bld run rest = .ok (bld, rest, !run.isEmpty)) := by
  unfold lexEscaped
  split
  · rename_i after
    rw [if_pos (by decide)]
    split
    · exact .inl ⟨_, rfl⟩
    · exact .inr (.inl ⟨_, _, _, rfl, ‹_›, rfl⟩)
  · rename_i hne
    refine .inr (.inr ⟨?_, rfl⟩)
    intro hh
    obtain ⟨after, rfl⟩ := head?_eq_some_iff.mp hh
    exact hne after rfl

/-- What lexing of a string may leave: an error, or the rest of a literal read to its end. -/
def StringOutcome (before rest : Text) (lexed : Lexed Double) : Prop :=
  lexed.token = .error ∨
    ∃ x, lexed.token = .string (before ++ x) ∧ Characters rest x (0x22 :: lexed.rest)

theorem finishString_outcome (bld run rest : Text) :
    StringOutcome (decoded bld run) rest (finishString 0x22 bld run rest : Lexed Double) := by
  unfold finishString
  split
  · exact .inl rfl
  split
  · exact .inl rfl
  rename_i c after hq
  obtain rfl : c = 0x22 := by simpa using hq
  refine .inr ⟨[], ?_, ?_⟩
  · rw [decoded, append_nil]
    split <;> rfl
  · split <;> exact .nil _

theorem lexStringSlow_outcome {rest : Text} (bld run : Text)
    (hsp : ∀ c ∈ rest.head?, isSafe ct c = false) :
    StringOutcome (decoded bld run) rest
      (lexStringSlow ct .strictJSON 0x22 bld run rest : Lexed Double) := by
  induction hlen : rest.length using Nat.strongRecOn generalizing bld run rest with
  | ind n ih =>
  subst hlen
  rw [lexStringSlow_round]
  obtain ⟨failure, hlex⟩ | ⟨after, c, next, rfl, hes, hlex⟩ | ⟨hh, hlex⟩ :=
    lexEscaped_cases bld run rest
  · rw [hlex]
    exact .inl rfl
  · have hb : (decoded bld run ++ [c]).isEmpty = false := by simp
    simp only [hlex, hb, true_and]
    split
    · have hs : (next.dropWhile (isSafe ct)).length < (0x5C :: after).length :=
        Nat.lt_of_le_of_lt (dropWhile_sublist _).length_le
          (Nat.lt_succ_of_lt (lexEscape_length hes))
      obtain he | ⟨z, ht, hz⟩ := ih _ hs (decoded bld run ++ [c] ++ next.takeWhile (isSafe ct))
        (next.takeWhile (isSafe ct)) (head_dropWhile next) rfl
      · exact .inl he
      · refine .inr ⟨c :: (next.takeWhile (isSafe ct) ++ z), ?_, ?_⟩
        · simpa [decoded] using ht
        · exact characters_escape_iff.mpr
            ⟨c, next, _, hes, rfl, (characters_run_iff ct).mpr ⟨z, rfl, hz⟩⟩
    · obtain he | ⟨z, ht, hz⟩ := finishString_outcome (decoded bld run ++ [c]) run next
      · exact .inl he
      · refine .inr ⟨c :: z, ?_, ?_⟩
        · simpa [decoded] using ht
        · exact characters_escape_iff.mpr ⟨c, next, z, hes, rfl, hz⟩
  · simp only [hlex]
    split
    · -- a second round stops where the first did
      rename_i ha
      obtain ⟨-, hne, hq⟩ := ha
      obtain ⟨c, t, rfl⟩ := exists_cons_of_ne_nil hne
      have hc : ¬isSafe ct c = true := by simp [hsp c rfl]
      rw [takeWhile_cons_of_neg hc, dropWhile_cons_of_neg hc, lexStringSlow_round]
      obtain ⟨failure, hlex⟩ | ⟨after, d, next, heq, -⟩ | ⟨-, hlex⟩ :=
        lexEscaped_cases (if bld.isEmpty then bld else bld ++ []) [] (c :: t)
      · rw [hlex]
        exact .inl rfl
      · cases heq
        exact absurd rfl hh
      · simp only [hlex, isEmpty_nil, Bool.not_true, Bool.false_eq_true, false_and, if_false]
        have hf : c ≠ 0x22 := fun h => hq (congrArg some h)
        simp only [finishString, hf, ne_eq, not_false_eq_true, if_true]
        exact .inl rfl
    · exact finishString_outcome bld run rest

/-- `lexString` behind a quotation mark reads exactly the string literals. -/
theorem lexString_complete (h : Characters s x (0x22 :: r)) :
    (lexString ct .strictJSON 0x22 s : Lexed Double) = .ok (.string x) r := by
  obtain ⟨y, rfl, hy⟩ := (characters_run_iff ct).mp h
  rw [lexString]
  split_ifs with hq
  · obtain ⟨after, haf⟩ := head?_eq_some_iff.mp hq
    obtain ⟨heq, rfl⟩ | ⟨after', heq⟩ := characters_stop hy (head_dropWhile s)
    · rw [heq, append_nil, tail_cons]
    · rw [heq] at hq
      cases hq
  · exact lexStringSlow_complete [] _ (head_dropWhile s) hy

theorem lexString_outcome (s : Text) :
    StringOutcome [] s (lexString ct .strictJSON 0x22 s : Lexed Double) := by
  rw [lexString]
  split_ifs with hq
  · obtain ⟨after, haf⟩ := head?_eq_some_iff.mp hq
    refine .inr ⟨_, rfl, (characters_run_iff ct).mpr ⟨[], (append_nil _).symm, ?_⟩⟩
    rw [haf]
    exact .nil _
  · have hs : StringOutcome (s.takeWhile (isSafe ct)) (s.dropWhile (isSafe ct))
        (lexStringSlow ct .strictJSON 0x22 [] (s.takeWhile (isSafe ct))
          (s.dropWhile (isSafe ct)) : Lexed Double) :=
      lexStringSlow_outcome [] _ (head_dropWhile s)
    obtain he | ⟨z, ht, hz⟩ := hs
    · exact .inl he
    · exact .inr ⟨_, ht, (characters_run_iff ct).mpr ⟨z, rfl, hz⟩⟩

end Strings

/-! ## Numbers -/

section Numbers

/-- Nothing that could continue a number. -/
def NumberEnd (r : Text) : Prop := ∀ c ∈ r.head?, isDigit c = false ∧ c ≠ 0x2E ∧ c ≠ 0x65 ∧ c ≠ 0x45

theorem between_append (t r : Text) : between (t ++ r) r = t := by simp [between]

variable {r i minus e : Text}

theorem dropWhile_digits {ds : Text} (hds : ∀ c ∈ ds, isDigit c = true)
    (hr : ∀ c ∈ r.head?, isDigit c = false) : (ds ++ r).dropWhile isDigit = r := by
  rw [dropWhile_append_of_pos hds]
  cases r with
  | nil => rfl
  | cons c r => exact dropWhile_cons_of_neg (by simp [hr c rfl])

theorem decimal_lt {ds : Text} (h : ∀ c ∈ ds, isDigit c = true) : decimal ds < 10 ^ ds.length := by
  suffices haux : ∀ n, ds.foldl (fun n c => n * 10 + (c - 0x30)) n < (n + 1) * 10 ^ ds.length by
    simpa only [decimal, Nat.zero_add, Nat.one_mul] using haux 0
  induction ds with
  | nil => simp
  | cons c ds ih =>
    intro n
    have hc : c ≤ 0x39 := by
      have := h c (by simp)
      simp only [isDigit, Bool.and_eq_true, decide_eq_true_eq] at this
      exact this.2
    have hs := ih (fun d hd => h d (mem_cons_of_mem c hd)) (n * 10 + (c - 0x30))
    calc (c :: ds).foldl (fun n c => n * 10 + (c - 0x30)) n
        < (n * 10 + (c - 0x30) + 1) * 10 ^ ds.length := hs
      _ ≤ ((n + 1) * 10) * 10 ^ ds.length := Nat.mul_le_mul_right _ (by omega)
      _ = (n + 1) * 10 ^ (c :: ds).length := by rw [length_cons, Nat.pow_succ', Nat.mul_assoc]

theorem integer_digits (h : Integer i) : ∀ c ∈ i, isDigit c = true := by
  cases h with
  | zero => simp [isDigit]
  | digits hlo hhi hds =>
    intro c hc
    obtain rfl | hc := mem_cons.mp hc
    · simp only [isDigit, Bool.and_eq_true, decide_eq_true_eq]
      omega
    · exact hds c hc

variable (cv : Conversion Double)

theorem number_of_exponent {t : Text} (h : 0x2E ∈ t ∨ 0x65 ∈ t ∨ 0x45 ∈ t) :
    cv.number t = cv.parseDouble t := by
  rw [Conversion.number, if_neg (by tauto)]

/-- An integer has its exact value on both paths. -/
theorem number_of_integer (hm : minus = [] ∨ minus = [0x2D])
    (hi : Integer i) (hlen : (minus ++ i).length ≤ 9) :
    cv.number (minus ++ i) = shortInteger cv (minus ++ i) ∧
      cv.number (minus ++ i) = cv.parseDouble (minus ++ i) := by
  have hp : ∀ c ∈ minus ++ i, c ≠ 0x2E ∧ c ≠ 0x65 ∧ c ≠ 0x45 := by
    intro c hc
    obtain hc | hc := mem_append.mp hc
    · obtain rfl | rfl := hm
      · cases hc
      · obtain rfl := mem_singleton.mp hc
        decide
    · have := integer_digits hi c hc
      simp only [isDigit, Bool.and_eq_true, decide_eq_true_eq] at this
      omega
  have hs : (minus ++ i).length ≤ 9 ∧ 0x2E ∉ minus ++ i ∧ 0x65 ∉ minus ++ i ∧ 0x45 ∉ minus ++ i :=
    ⟨hlen, fun h => (hp _ h).1 rfl, fun h => (hp _ h).2.1 rfl, fun h => (hp _ h).2.2 rfl⟩
  have hsm : decimal i < 2 ^ 53 := by
    refine Nat.lt_of_lt_of_le (decimal_lt (integer_digits hi)) ?_
    refine Nat.le_trans (Nat.pow_le_pow_right (by decide) ?_) (by decide : 10 ^ 9 ≤ 2 ^ 53)
    rw [length_append] at hlen
    omega
  rw [Conversion.number, if_pos hs]
  obtain rfl | rfl := hm
  · have hh : i.head? ≠ some 0x2D := by
      cases hi with
      | zero => simp
      | digits hlo _ _ =>
        intro h
        cases h
        omega
    simp [shortInteger, Conversion.ofSigned, hh, cv.parseDouble_natural hi hsm]
  · by_cases hz : decimal i = 0 <;>
      simp [shortInteger, Conversion.ofSigned, cv.parseDouble_negative hi hsm, hz]

theorem lexExponent_complete (start : Text) (he : Exponent e) (hr : NumberEnd r) :
    lexExponent cv start (e ++ r) = .ok (.number (cv.parseDouble (between start r))) r := by
  cases he with
  | none =>
    cases r with
    | nil => rfl
    | cons c r =>
      obtain ⟨-, -, he, hE⟩ := hr c rfl
      simp [lexExponent, he, hE]
  | @digits e d sign ds he hs hd hds =>
    have hdr : (ds ++ r).dropWhile isDigit = r := dropWhile_digits hds fun c hc => (hr c hc).1
    have hdn : ¬(d = 0x2D ∨ d = 0x2B) := by
      rintro (rfl | rfl) <;> simp [isDigit] at hd
    obtain rfl | rfl | rfl := hs <;> simp [lexExponent, skipSign, he, hd, hdr, hdn]

/-- What lexing of a number may leave: an error, or a number read to its end. -/
def NumberOutcome (conversion : Conversion Double) (s : Text) (lexed : Lexed Double) : Prop :=
  lexed.token = .error ∨
    ∃ t, Number t ∧ s = t ++ lexed.rest ∧ lexed.token = .number (conversion.number t)

theorem exists_digits (s : Text) :
    ∃ ds, (∀ c ∈ ds, isDigit c = true) ∧ s = ds ++ s.dropWhile isDigit :=
  ⟨s.takeWhile isDigit, fun _ hc => mem_takeWhile_imp hc, takeWhile_append_dropWhile.symm⟩

theorem skipSign_spec (s : Text) :
    ∃ sign, (sign = [] ∨ sign = [0x2B] ∨ sign = [0x2D]) ∧ s = sign ++ skipSign s := by
  unfold skipSign
  split
  · split_ifs with hc
    · obtain rfl | rfl := hc
      · exact ⟨_, .inr (.inr rfl), rfl⟩
      · exact ⟨_, .inr (.inl rfl), rfl⟩
    · exact ⟨_, .inl rfl, rfl⟩
  · exact ⟨_, .inl rfl, rfl⟩

theorem lexExponent_outcome (start rest : Text) : (lexExponent cv start rest).token = .error ∨
      ∃ e r, Exponent e ∧ rest = e ++ r ∧
        lexExponent cv start rest = .ok (.number (cv.parseDouble (between start r))) r := by
  unfold lexExponent
  split
  · rename_i e after
    split_ifs with he
    · obtain ⟨sign, hsg, haf⟩ := skipSign_spec after
      split
      · rename_i d digits hs
        rw [hs] at haf
        split_ifs with hd
        · obtain ⟨ds, hds, heq⟩ := exists_digits digits
          refine .inr ⟨e :: (sign ++ d :: ds), _, .digits he hsg hd hds, ?_, rfl⟩
          rw [haf, cons_append, append_assoc, cons_append, ← heq]
        · exact .inl rfl
      · exact .inl rfl
    · exact .inr ⟨[], _, .none, rfl, rfl⟩
  · exact .inr ⟨[], _, .none, rfl, rfl⟩

theorem lexFraction_of_ne {c : Nat} (start after : Text) (hc : c ≠ 0x2E) :
    lexFraction cv start (c :: after) =
      if (c ≠ 0x65 ∧ c ≠ 0x45) ∧ (between start (c :: after)).length ≤ 9 then
        .ok (.number (shortInteger cv (between start (c :: after)))) (c :: after)
      else lexExponent cv start (c :: after) := by
  unfold lexFraction
  split
  · rename_i heq
    cases heq
    exact absurd rfl hc
  · rename_i heq
    cases heq
    rfl
  · rename_i heq
    cases heq

/-- An integer's value does not depend on the path that is taken. -/
theorem number_eq_parseDouble (hm : minus = [] ∨ minus = [0x2D])
    (hi : Integer i) : cv.number (minus ++ i) = cv.parseDouble (minus ++ i) := by
  by_cases hlen : (minus ++ i).length ≤ 9
  · exact (number_of_integer cv hm hi hlen).2
  · rw [Conversion.number, if_neg fun h => hlen h.1]

theorem exponent_head (he : Exponent e) (hr : NumberEnd r) :
    ∀ c ∈ (e ++ r).head?, isDigit c = false ∧ c ≠ 0x2E := by
  cases he with
  | none =>
    intro c hc
    exact ⟨(hr c hc).1, (hr c hc).2.1⟩
  | digits he =>
    rintro c ⟨⟩
    obtain rfl | rfl := he <;> decide

theorem lexFraction_complete {f : Text} (hm : minus = [] ∨ minus = [0x2D])
    (hi : Integer i) (hf : Fraction f) (he : Exponent e) (hr : NumberEnd r) :
    lexFraction cv (minus ++ i ++ f ++ e ++ r) (f ++ e ++ r) =
      .ok (.number (cv.number (minus ++ i ++ f ++ e))) r := by
  cases hf with
  | none =>
    simp only [append_nil, nil_append]
    cases he with
    | none =>
      simp only [append_nil, nil_append]
      cases r with
      | nil =>
        have hx := lexExponent_complete cv (minus ++ i ++ []) .none hr
        rw [between_append, ← number_eq_parseDouble cv hm hi] at hx
        exact hx
      | cons c r =>
        obtain ⟨-, hdot, he, hE⟩ := hr c rfl
        rw [lexFraction_of_ne cv _ _ hdot, between_append]
        split_ifs with hs
        · rw [(number_of_integer cv hm hi hs.2).1]
        · have hx := lexExponent_complete cv (minus ++ i ++ c :: r) .none hr
          rw [between_append, ← number_eq_parseDouble cv hm hi] at hx
          exact hx
    | @digits e d sign ds hl hsg hd hds =>
      have hdot : e ≠ 0x2E := by
        rintro rfl
        simp at hl
      have hx := lexExponent_complete cv
        (minus ++ i ++ e :: (sign ++ d :: ds) ++ r) (.digits hl hsg hd hds) hr
      rw [between_append, ← number_of_exponent cv (by obtain rfl | rfl := hl <;> simp)] at hx
      rw [cons_append, lexFraction_of_ne cv _ _ hdot, if_neg (by tauto)]
      exact hx
  | @digits d ds hd hds =>
    have hh := exponent_head he hr
    have hdr : (ds ++ (e ++ r)).dropWhile isDigit = e ++ r :=
      dropWhile_digits hds fun c hc => (hh c hc).1
    have hx := lexExponent_complete cv (minus ++ i ++ 0x2E :: d :: ds ++ e ++ r) he hr
    rw [between_append, ← number_of_exponent cv (by simp)] at hx
    simpa only [lexFraction, cons_append, append_assoc, hd, if_true, hdr] using hx

theorem lexNumber_complete {t : Text} (h : Number t) (hr : NumberEnd r) :
    lexNumber cv (t ++ r) = .ok (.number (cv.number t)) r := by
  obtain ⟨minus, i, f, e, rfl, hm, hi, hf, he⟩ := h
  have hfr := lexFraction_complete cv hm hi hf he hr
  have hu : (if (minus ++ i ++ f ++ e ++ r).head? = some 0x2D
      then (minus ++ i ++ f ++ e ++ r).tail else minus ++ i ++ f ++ e ++ r) =
        i ++ (f ++ e ++ r) := by
    obtain rfl | rfl := hm
    · have hh : (i ++ (f ++ e ++ r)).head? ≠ some 0x2D := by
        cases hi with
        | zero => simp
        | digits hlo _ _ =>
          intro h
          cases h
          omega
      simp only [nil_append, append_assoc] at hh ⊢
      rw [if_neg hh]
    · simp
  rw [lexNumber, hu]
  cases hi with
  | zero => exact hfr
  | @digits d ds hlo hhi hds =>
    have hne : d ≠ 0x30 := by omega
    have hre : ∀ c ∈ (f ++ e ++ r).head?, isDigit c = false := by
      intro c hc
      cases hf with
      | none => exact (exponent_head he hr c hc).1
      | digits => cases hc; rfl
    rw [cons_append]
    simp only [hne, if_false, hlo, hhi, and_self, if_true, dropWhile_digits hds hre]
    exact hfr

theorem lexFraction_outcome (rest : Text) (hm : minus = [] ∨ minus = [0x2D]) (hi : Integer i) :
    NumberOutcome cv (minus ++ i ++ rest) (lexFraction cv (minus ++ i ++ rest) rest) := by
  -- a number without a fraction, behind the exponent
  have hx : NumberOutcome cv (minus ++ i ++ rest) (lexExponent cv (minus ++ i ++ rest) rest) := by
    obtain her | ⟨e, r, he, rfl, hlex⟩ := lexExponent_outcome cv (minus ++ i ++ rest) rest
    · exact .inl her
    rw [hlex]
    refine .inr ⟨minus ++ i ++ e, ⟨minus, i, [], e, by simp, hm, hi, .none, he⟩, ?_, ?_⟩
    · simp [Lexed.ok]
    rw [Lexed.ok, ← append_assoc, between_append]
    cases he with
    | none => rw [append_nil, number_eq_parseDouble cv hm hi]
    | digits hl =>
      rw [number_of_exponent]
      right
      obtain rfl | rfl := hl <;> simp
  unfold lexFraction
  split
  · split
    · rename_i d digits
      split_ifs with hd
      · obtain ⟨ds, hds, heq⟩ := exists_digits digits
        obtain her | ⟨e, r, he, hr, hlex⟩ := lexExponent_outcome cv
          (minus ++ i ++ 0x2E :: d :: digits) (digits.dropWhile isDigit)
        · exact .inl her
        rw [hlex]
        have ht : minus ++ i ++ 0x2E :: d :: digits = minus ++ i ++ 0x2E :: d :: ds ++ e ++ r := by
          rw [heq, hr]
          simp
        refine .inr ⟨minus ++ i ++ 0x2E :: d :: ds ++ e,
          ⟨minus, i, _, e, rfl, hm, hi, .digits hd hds, he⟩, ht, ?_⟩
        rw [Lexed.ok, ht, between_append, number_of_exponent cv (by simp)]
      · exact .inl rfl
    · exact .inl rfl
  · rename_i c after _
    split_ifs with hs
    · refine .inr ⟨minus ++ i, ⟨minus, i, [], [], by simp, hm, hi, .none, .none⟩, rfl, ?_⟩
      rw [between_append] at hs ⊢
      rw [(number_of_integer cv hm hi hs.2).1, Lexed.ok]
    · exact hx
  · exact hx

theorem lexNumber_outcome (s : Text) : NumberOutcome cv s (lexNumber cv s) := by
  obtain ⟨minus, unsigned, hm, hs, hu⟩ : ∃ minus unsigned,
      (minus = [] ∨ minus = [0x2D]) ∧ s = minus ++ unsigned ∧
      (if s.head? = some 0x2D then s.tail else s) = unsigned := by
    split_ifs with hh
    · obtain ⟨t, rfl⟩ := head?_eq_some_iff.mp hh
      exact ⟨[0x2D], t, .inr rfl, rfl, rfl⟩
    · exact ⟨[], s, .inl rfl, rfl, rfl⟩
  rw [lexNumber, hu, hs]
  split
  · rename_i c digits
    split
    · rename_i hc
      subst hc
      have := lexFraction_outcome cv digits hm .zero
      simpa using this
    · split_ifs with hc
      · obtain ⟨ds, hds, heq⟩ := exists_digits digits
        have := lexFraction_outcome cv (digits.dropWhile isDigit) hm (.digits hc.1 hc.2 hds)
        rw [append_assoc, cons_append, ← heq] at this
        exact this
      · exact .inl rfl
  · exact .inl rfl

end Numbers

/-! ## Tokens -/

section Tokens

variable (ct : CharType) (cv : Conversion Double)

def Punctuator.code : Punctuator → Nat
  | .lBracket => 0x5B
  | .rBracket => 0x5D
  | .lBrace => 0x7B
  | .rBrace => 0x7D
  | .colon => 0x3A
  | .lParen => 0x28
  | .rParen => 0x29
  | .comma => 0x2C
  | .dot => 0x2E
  | .assign => 0x3D
  | .semi => 0x3B

/-- The phrase a token of the strict lexer stands for, in front of `r`. -/
def Reads (conversion : Conversion Double) (s r : Text) : Token Double → Prop
  | .punctuator type => s = type.code :: r
  | .string x => StringLiteral s x r
  | .number v => ∃ t, Number t ∧ s = t ++ r ∧ v = conversion.number t
  | .true => s = 0x74 :: 0x72 :: 0x75 :: 0x65 :: r
  | .false => s = 0x66 :: 0x61 :: 0x6C :: 0x73 :: 0x65 :: r
  | .null => s = 0x6E :: 0x75 :: 0x6C :: 0x6C :: r
  | .endOfText => s = [] ∧ r = []
  | .identifier _ => True
  | .error => True

theorem whiteSpace_dropWhile (s : Text) : WhiteSpace s (s.dropWhile isWhiteSpace) := by
  induction s with
  | nil => exact .none []
  | cons c s ih =>
    by_cases hc : isWhiteSpace c = true
    · rw [dropWhile_cons_of_pos hc]
      exact .unit hc ih
    · rw [dropWhile_cons_of_neg hc]
      exact .none _

variable {s t : Text} {c : Nat}

theorem dropWhile_of_whiteSpace (h : WhiteSpace s t) :
    s.dropWhile isWhiteSpace = t.dropWhile isWhiteSpace := by
  induction h with
  | none s => rfl
  | unit hc _ ih => rw [dropWhile_cons_of_pos hc, ih]

theorem lex_whiteSpace (h : WhiteSpace s t) :
    lex ct .strictJSON cv s = lex ct .strictJSON cv t := by
  rw [lex, lex, dropWhile_of_whiteSpace h]

theorem tokenTypes_punctuator {type : Punctuator}
    (h : tokenTypesOfLatin1Characters c = .punctuator type) : c = type.code := by
  unfold tokenTypesOfLatin1Characters at h
  repeat' split at h
  all_goals cases h
  all_goals rfl

theorem tokenTypes_string (h : tokenTypesOfLatin1Characters c = .string) : c = 0x22 ∨ c = 0x27 := by
  unfold tokenTypesOfLatin1Characters at h
  split at h
  · assumption
  · repeat' split at h
    all_goals cases h

theorem lexToken_reads (s : Text) :
    Reads cv s (lexToken ct .strictJSON cv s).rest (lexToken ct .strictJSON cv s).token := by
  unfold lexToken
  split
  · exact ⟨rfl, rfl⟩
  rename_i c rest
  split
  · split
    · rename_i hty
      split
      · trivial
      rename_i hq
      obtain rfl : c = 0x22 := (tokenTypes_string hty).resolve_right fun h => hq ⟨h, rfl⟩
      have ho : StringOutcome [] rest
          (lexString ct .strictJSON 0x22 rest : Lexed Double) := lexString_outcome rest
      obtain he | ⟨x, htk, hx⟩ := ho
      · rw [he]
        trivial
      · rw [htk]
        exact .quoted hx
    · split <;> first | rfl | trivial
    · obtain he | ⟨t, ht, hs, htk⟩ := lexNumber_outcome cv (c :: rest)
      · rw [he]
        trivial
      · rw [htk]
        exact ⟨t, ht, hs, rfl⟩
    · trivial
    · rename_i hty
      exact congrArg (· :: rest) (tokenTypes_punctuator hty)
  · trivial

theorem lex_reads (s : Text) :
    ∃ t, WhiteSpace s t ∧ Reads cv t (lex ct .strictJSON cv s).rest
      (lex ct .strictJSON cv s).token :=
  ⟨_, whiteSpace_dropWhile s, lexToken_reads ct cv _⟩

theorem number_head (h : Number t) : ∃ c rest, t = c :: rest ∧ (c = 0x2D ∨ isDigit c = true) := by
  obtain ⟨minus, i, f, e, rfl, rfl | rfl, hi, -, -⟩ := h
  · cases hi with
    | zero => exact ⟨_, _, rfl, .inr rfl⟩
    | digits hlo hhi _ =>
      refine ⟨_, _, rfl, .inr ?_⟩
      simp only [isDigit, Bool.and_eq_true, decide_eq_true_eq]
      omega
  · exact ⟨_, _, rfl, .inl rfl⟩

theorem lexToken_number (rest : Text) (hc : c = 0x2D ∨ isDigit c = true) :
    lexToken ct .strictJSON cv (c :: rest) = lexNumber cv (c :: rest) := by
  have hr : c = 0x2D ∨ 0x30 ≤ c ∧ c ≤ 0x39 := by simpa [isDigit] using hc
  have ht : tokenTypesOfLatin1Characters c = .number := by
    unfold tokenTypesOfLatin1Characters
    rw [if_neg (by omega), if_neg (by simp [isASCIIAlpha]; omega), if_pos hc]
  have hl : c < 256 := by omega
  unfold lexToken
  simp [hl, ht]

/-- A token the parser of values can use. -/
def Token.IsLiteral : Token Double → Prop
  | .identifier _ | .error => False
  | _ => True

/-- The lexer finds every phrase that it has a token for. -/
theorem lex_complete (token : Token Double) {r : Text} (h : Reads cv s r token)
    (hl : token.IsLiteral) (hr : ∀ v, token = .number v → NumberEnd r) :
    lex ct .strictJSON cv s = .ok token r := by
  cases token with
  | punctuator type =>
    subst h
    cases type <;> rfl
  | string x =>
    cases h with
    | quoted hx => exact lexString_complete hx
  | number v =>
    obtain ⟨t, ht, rfl, rfl⟩ := h
    obtain ⟨c, rest, rfl, hc⟩ := number_head ht
    have hs : ¬isWhiteSpace c = true := by
      have hra : c = 0x2D ∨ 0x30 ≤ c ∧ c ≤ 0x39 := by simpa [isDigit] using hc
      simp only [isWhiteSpace, Bool.or_eq_true, beq_iff_eq]
      omega
    rw [lex, cons_append, dropWhile_cons_of_neg hs,
      lexToken_number ct cv _ hc, ← cons_append, lexNumber_complete cv ht (hr _ rfl)]
  | «true» => subst h; rfl
  | «false» => subst h; rfl
  | null => subst h; rfl
  | endOfText =>
    obtain ⟨rfl, rfl⟩ := h
    rfl
  | identifier x => cases hl
  | error => cases hl

end Tokens

end JavaScriptCore.LiteralParser
