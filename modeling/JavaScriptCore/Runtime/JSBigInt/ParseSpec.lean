import JavaScriptCore.Runtime.JSBigInt.Parse

/-!
# What parsing accepts

The grammar of ECMAScript's StringToBigInt is stated on its own (`StringIntegerLiteral`).
The parser is first shown to compute a function of the character list (`readString`),
which keeps its order of work: spaces, prefix or sign, zeros, trailing spaces, digits.
That function is then compared with the grammar.
-/

namespace JavaScriptCore.Runtime.JSBigInt

open JavaScriptCore.ProgramLogic JavaScriptCore.Numeral List

variable {t : Target}

section Numerals

/-- The value of an ASCII letter or digit, letters in either case. -/
def charValue (c : UChar) : Option Nat :=
  if 48 ≤ c.toNat ∧ c.toNat ≤ 57 then some (c.toNat - 48)
  else if 97 ≤ c.toNat ∧ c.toNat ≤ 122 then some (c.toNat - 87)
  else if 65 ≤ c.toNat ∧ c.toNat ≤ 90 then some (c.toNat - 55)
  else none

/-- The characters are digits of the radix; continues the value `n`. -/
def numeralFrom (radix : Nat) : Nat → List UChar → Option Nat
  | n, [] => some n
  | n, c :: cs =>
    match charValue c with
    | some d => if d < radix then numeralFrom radix (n * radix + d) cs else none
    | none => none

def numeral (radix : Nat) (cs : List UChar) : Option Nat := numeralFrom radix 0 cs

theorem parseDigit_eq {rdx : Nat} (hr : 2 ≤ rdx ∧ rdx ≤ 36) (c : UChar) :
    parseDigit rdx c = (charValue c).filter (· < rdx) := by
  unfold parseDigit charValue
  have h0 : '0'.toNat = 48 := rfl
  have ha : 'a'.toNat = 97 := rfl
  have hA : 'A'.toNat = 65 := rfl
  simp only [h0, ha, hA]
  split_ifs <;> simp [Option.filter] <;> omega

/-- Leading zeros do not change a numeral. -/
theorem numeral_append_of_zeros {rdx : Nat} (hr : 0 < rdx) (cs : List UChar) :
    ∀ zs : List UChar, (∀ z ∈ zs, z = 0x30) → numeral rdx (zs ++ cs) = numeral rdx cs
  | [], _ => rfl
  | z :: zs, h => by
    have hz : z = 0x30 := h z (by simp)
    have hv : charValue z = some 0 := by rw [hz]; rfl
    have ih := numeral_append_of_zeros hr cs zs (fun y hy => h y (by simp [hy]))
    unfold numeral at ih ⊢
    simp only [cons_append, numeralFrom, hv, if_pos hr, zero_mul, add_zero]
    exact ih

end Numerals

section Allocation

/-- The table's estimate for `count` characters does not fit the longest BigInt. -/
def TooLong (t : Target) (radix count : Nat) : Prop :=
  t.maxLength * t.digitBits * 32 < maxBitsPerCharTable.getD radix 0 * count

instance (t : Target) (radix count : Nat) : Decidable (TooLong t radix count) :=
  inferInstanceAs (Decidable (_ < _))

/-- The table rounds `32 * log2 radix` up. -/
theorem radix_pow_le_table {rdx : Nat} (h : 2 ≤ rdx ∧ rdx ≤ 36) :
    rdx ^ 32 ≤ 2 ^ maxBitsPerCharTable.getD rdx 0 ∧
      32 ≤ maxBitsPerCharTable.getD rdx 0 ∧ maxBitsPerCharTable.getD rdx 0 ≤ 166 := by
  obtain ⟨h2, h36⟩ := h
  interval_cases rdx <;> decide

theorem radix_pow_le {rdx n bits : Nat} (h : 2 ≤ rdx ∧ rdx ≤ 36)
    (hb : maxBitsPerCharTable.getD rdx 0 * n ≤ bits * 32) : rdx ^ n ≤ 2 ^ bits := by
  refine (Nat.pow_le_pow_iff_left (show (32 : Nat) ≠ 0 by decide)).mp ?_
  calc
    (rdx ^ n) ^ 32 = (rdx ^ 32) ^ n := by rw [← pow_mul, ← pow_mul, mul_comm]
    _ ≤ (2 ^ maxBitsPerCharTable.getD rdx 0) ^ n := Nat.pow_le_pow_left (radix_pow_le_table h).1 n
    _ = 2 ^ (maxBitsPerCharTable.getD rdx 0 * n) := (pow_mul _ _ _).symm
    _ ≤ 2 ^ (bits * 32) := Nat.pow_le_pow_right (by decide) hb
    _ = (2 ^ bits) ^ 32 := pow_mul _ _ _

/-- The estimate leaves room for every numeral of `count` digits, its last carry included. -/
theorem allocateFor_wp {s : Heap t} {exec : Bool} {rdx count : Nat} (hr : 2 ≤ rdx ∧ rdx ≤ 36) :
    wp (allocateFor exec rdx count) (fun o _ => match o with
        | some r => ¬ TooLong t rdx count ∧ r.length ≤ t.maxLength ∧ (0 < count → 0 < r.length) ∧
            rdx ^ count ≤ (2 ^ t.digitBits) ^ r.length
        | none => exec = false ∧ TooLong t rdx count)
      (fun e => e = .outOfMemoryError ∧ exec = true ∧ TooLong t rdx count) s := by
  obtain ⟨-, hlo, hhi⟩ := radix_pow_le_table hr
  unfold allocateFor TooLong
  have hro : bitsPerCharTableMultiplier - 1 = 31 := by decide
  have hs : ∀ n : Nat, n >>> bitsPerCharTableShift = n / 32 :=
    fun n => Nat.shiftRight_eq_div_pow n 5
  simp only [hro, hs]
  generalize hb : maxBitsPerCharTable.getD rdx 0 = b at hlo hhi
  have hmax : t.maxLength * t.digitBits = 2 ^ 20 := by
    rcases t.digitBits_cases with hw | hw <;> simp [Target.maxLength, hw]
  rw [hmax]
  generalize hbi : (b * count + 31) / 32 = bits
  split_ifs with hf he
  · rw [wp_map]
    refine wp_createWithLengthUnchecked (fun r s' _ hl => ?_)
    have hpow : rdx ^ count ≤ 2 ^ bits := radix_pow_le hr (by rw [hb]; omega)
    have hco : bits ≤ t.digitBits * r.length := by
      rw [hl]
      rcases t.digitBits_cases with hw | hw <;> rw [hw] <;> omega
    refine ⟨?_, by omega, fun hc => ?_, ?_⟩
    · have := Nat.mul_le_mul_right t.digitBits hf.2.2
      rw [hmax] at this
      rcases t.digitBits_cases with hw | hw <;> rw [hw] at this <;> omega
    · have : 32 * 1 ≤ b * count := Nat.mul_le_mul hlo hc
      rcases t.digitBits_cases with hw | hw <;> rw [hw] at hl hco <;> omega
    · rw [← pow_mul]
      exact le_trans hpow (Nat.pow_le_pow_right (by decide) hco)
  all_goals
    simp only [wp_throw, wp_pure, true_and, he]
    by_contra hlong
    apply hf
    refine ⟨?_, ?_, ?_⟩
    · rw [Nat.le_div_iff_mul_le (by omega), Nat.mul_comm]
      rcases t.digitBits_cases with hw | hw <;> rw [hw] <;> omega
    · unfold Target.maxInt
      omega
    · rcases t.digitBits_cases with hw | hw <;> rw [hw] at hmax ⊢ <;> omega

end Allocation

section Reading

/-- The characters that are read as digits. -/
def significant (rest : List UChar) : List UChar :=
  (rest.dropWhile (· = 0x30)).rdropWhile isStrWhiteSpace

/-- What `parseIntFrom` makes of the characters from its start index on. -/
def readRest (radix : Nat) (sign : ParseIntSign) (parseMode : ParseIntMode) (rest : List UChar) :
    Option Int :=
  if parseMode ≠ .allowEmptyString ∧ rest = [] then none
  else (numeral radix (significant rest)).map (signed (sign = .signed))

/-- A text that reads as `value` gave `o`. -/
def Parsed (value : Option Int) (mode : ErrorParseMode) (o : Option (JSBigInt t)) : Prop :=
  match o with
  | some r => ∃ v, value = some v ∧ Denotes v t.maxLength r
  | none => mode = .ignoreExceptions ∧ value = none

/-- A text that reads as `value` gave the exception `e`. -/
def Refused (exec : Bool) (value : Option Int) (mode : ErrorParseMode) (tooLong : Prop)
    (e : Exception) : Prop :=
  if exec then
    (e = .syntaxError "Failed to parse String to BigInt" ∧ mode = .throwExceptions ∧
      value = none) ∨ (e = .outOfMemoryError ∧ tooLong)
  else e = .nullDereference ∧ (value = none ∨ tooLong)

variable {s : Heap t} {exec : Bool} {mode : ErrorParseMode}

theorem parseFailure_wp {tooLong : Prop} :
    wp (parseFailure exec mode : Run t (Option (JSBigInt t))) (fun o _ => Parsed none mode o)
      (Refused exec none mode tooLong) s := by
  unfold parseFailure
  cases mode with
  | throwExceptions =>
    cases exec with
    | true =>
      exact .inl ⟨rfl, rfl, rfl⟩
    | false =>
      exact ⟨rfl, .inl rfl⟩
  | ignoreExceptions => exact ⟨rfl, rfl⟩

variable {rdx : Nat}

/-- The digit loop computes the numeral when there is room for one of that length. -/
theorem parseDigits_wp {exc : Exception → Prop} (hra : 2 ≤ rdx ∧ rdx ≤ 36) :
    ∀ {cs : List UChar} {p : Nat} {r : JSBigInt t} {s : Heap t},
      (r.magnitude + 1) * rdx ^ cs.length ≤ (2 ^ t.digitBits) ^ r.length →
      wp (parseDigits rdx cs p r) (fun (p', r') _ => r'.length = r.length ∧
          match numeralFrom rdx r.magnitude cs with
          | some n => p' = p + cs.length ∧ r'.magnitude = n
          | none => p' < p + cs.length) exc s
  | [], p, r, s, _ => by
    simp only [parseDigits, wp_pure, numeralFrom, length_nil]
    exact ⟨trivial, by omega, trivial⟩
  | c :: cs, p, r, s, hf => by
    have hrad := radix_gt t
    simp only [parseDigits, numeralFrom, parseDigit_eq hra]
    cases hc : charValue c with
    | none =>
      simp only [Option.filter_none, wp_pure, length_cons]
      exact ⟨trivial, by omega⟩
    | some d =>
      by_cases hd : d < rdx
      · simp only [Option.filter_some, hd, decide_true, if_true, wp_bind]
        have hr : (BitVec.ofNat t.digitBits rdx).toNat = rdx := Nat.mod_eq_of_lt (by omega)
        have hdig : (BitVec.ofNat t.digitBits d).toNat = d := Nat.mod_eq_of_lt (by omega)
        have hs : (r.magnitude * rdx + d + 1) * rdx ^ cs.length ≤ (2 ^ t.digitBits) ^ r.length := by
          refine le_trans ?_ hf
          rw [length_cons, pow_succ', ← mul_assoc, add_mul r.magnitude]
          exact Nat.mul_le_mul_right _ (by omega)
        have hone : 1 ≤ rdx ^ cs.length := Nat.pow_pos (by omega)
        have hnow := Nat.mul_le_mul_left (r.magnitude * rdx + d + 1) hone
        refine wp_post (inplaceMultiplyAdd_wp (by rw [hr, hdig]; omega)) ?_
        rintro r' s' ⟨-, hl, hm⟩
        rw [hr, hdig] at hm
        rw [← hm, ← hl] at hs
        refine wp_post (parseDigits_wp hra hs) ?_
        rintro ⟨p', r''⟩ s'' ⟨hl', hre⟩
        rw [hm] at hre
        refine ⟨by rw [hl', hl], ?_⟩
        simp only [length_cons]
        split at hre
        · exact ⟨by omega, hre.2⟩
        · omega
      · simp only [Option.filter_some, hd, decide_false, Bool.false_eq_true, if_false, wp_pure,
          length_cons]
        exact ⟨trivial, by omega⟩

variable (test : UChar → Bool)

theorem drop_skipWhile (data : List UChar) (p : Nat) :
    data.drop (skipWhile test data p) = (data.drop p).dropWhile test := by
  rw [skipWhile, ← drop_drop]
  generalize data.drop p = l
  induction l with
  | nil => rfl
  | cons c l ih =>
    cases hc : test c
    · simp [hc]
    · simp [hc, ih]

variable {data : List UChar}

theorem skipWhile_le {p : Nat} (hp : p ≤ data.length) :
    skipWhile test data p ≤ data.length := by
  have h := (takeWhile_sublist test (l := data.drop p)).length_le
  rw [length_drop] at h
  unfold skipWhile
  omega

variable {sign : ParseIntSign} {pm : ParseIntMode}

theorem parseIntFrom_wp {st : Nat} (hs : st ≤ data.length) (hra : 2 ≤ rdx ∧ rdx ≤ 36) :
    wp (parseIntFrom exec data st rdx mode sign pm : Run t _)
      (fun o _ => Parsed (readRest rdx sign pm (data.drop st)) mode o)
      (Refused exec (readRest rdx sign pm (data.drop st)) mode
        (TooLong t rdx (significant (data.drop st)).length)) s := by
  have hem : st = data.length ↔ data.drop st = [] := by
    rw [drop_eq_nil_iff]
    omega
  unfold parseIntFrom
  simp only [hem]
  by_cases hg : pm ≠ .allowEmptyString ∧ data.drop st = []
  · have hrd : readRest rdx sign pm (data.drop st) = none := if_pos hg
    simp only [if_pos hg, hrd]
    simpa using parseFailure_wp
  have hrd : readRest rdx sign pm (data.drop st) =
      (numeral rdx (significant (data.drop st))).map (signed (sign = .signed)) :=
    if_neg hg
  simp only [if_neg hg, hrd, drop_skipWhile]
  generalize hp : skipWhile (· = 0x30) data st = p
  have hch : (data.take (p + (significant (data.drop st)).length)).drop p =
      significant (data.drop st) := by
    rw [drop_take, Nat.add_sub_cancel_left, ← hp, drop_skipWhile]
    exact (prefix_iff_eq_take.mp <| rdropWhile_prefix _ _).symm
  simp only [show ((data.drop st).dropWhile (· = 0x30)).rdropWhile isStrWhiteSpace =
    significant (data.drop st) from rfl, hch]
  generalize hbo : significant (data.drop st) = body at hch
  by_cases hnil : p = p + body.length
  · have hb : body = [] := eq_nil_of_length_eq_zero (by omega)
    simp only [if_pos hnil]
    exact wp_seq (createZero_wp rfl) fun r _ hr =>
      ⟨0, by simp [hb, numeral, numeralFrom], hr⟩
  · simp only [if_neg hnil, wp_bind, Nat.add_sub_cancel_left]
    refine wp_mono (allocateFor_wp hra) ?_ ?_
    · rintro (_ | r) s' hr
      · obtain ⟨rfl, hlo⟩ := hr
        exact ⟨rfl, .inr hlo⟩
      obtain ⟨-, hmax, hpos, hro⟩ := hr
      refine wp_seq (parseDigits_wp hra (by simpa using hro)) ?_
      rintro ⟨p', r'⟩ s'' ⟨hl, hre⟩
      rw [magnitude_initializeWithZero] at hre
      rw [length_initializeWithZero] at hl
      cases hn : numeral rdx body with
      | some n =>
        rw [show numeralFrom rdx 0 body = some n from hn] at hre
        obtain ⟨hp', hm⟩ := hre
        simp only [if_pos hp', wp_bind]
        have hbd : n < (2 ^ t.digitBits) ^ t.maxLength := by
          have hlt := r'.magnitude_lt
          rw [hm] at hlt
          exact lt_of_lt_of_le hlt (Nat.pow_le_pow_right (radix_pos t) (by omega))
        refine wp_post (signAndTrim_wp (by omega) hm hbd) (fun c _ hc => ?_)
        exact ⟨_, rfl, hc⟩
      | none =>
        rw [show numeralFrom rdx 0 body = none from hn] at hre
        simp only [if_neg (show p' ≠ p + body.length by simp only at hre; omega)]
        exact parseFailure_wp
    · rintro e ⟨rfl, rfl, hlo⟩
      exact .inr ⟨rfl, hlo⟩

/-- What stands before the digits: the radix and sign it sets, whether digits may then be
missing, and how many characters it takes. -/
structure Lead where
  radix : Nat
  sign : ParseIntSign
  parseMode : ParseIntMode
  width : Nat

def radixLetter (c : UChar) : Option Nat :=
  if c = 0x62 ∨ c = 0x42 then some 2
  else if c = 0x78 ∨ c = 0x58 then some 16
  else if c = 0x6F ∨ c = 0x4F then some 8
  else none

/-- The radix of an unsigned prefix `0b`, `0x` or `0o`. -/
def prefixRadix : List UChar → Option Nat
  | z :: c :: _ => if z = 0x30 then radixLetter c else none
  | _ => none

def lead (text : List UChar) : Lead :=
  match prefixRadix text with
  | some radix => ⟨radix, .unsigned, .disallowEmptyString, 2⟩
  | none =>
    if text.head? = some 0x2B then ⟨10, .unsigned, .allowEmptyString, 1⟩
    else if text.head? = some 0x2D then ⟨10, .signed, .allowEmptyString, 1⟩
    else ⟨10, .unsigned, .allowEmptyString, 0⟩

/-- What `parseInt` makes of a string. -/
def readString (text : List UChar) : Option Int :=
  let text := text.dropWhile isStrWhiteSpace
  readRest (lead text).radix (lead text).sign (lead text).parseMode
    (text.drop (lead text).width)

/-- The characters `parseInt` allocates for. -/
def significantOf (text : List UChar) : List UChar :=
  significant ((text.dropWhile isStrWhiteSpace).drop
    (lead (text.dropWhile isStrWhiteSpace)).width)

theorem or_twoPow_eq_iff {w : Nat} (c l : BitVec w) (k : Nat) (hl : l.getLsbD k = true) :
    c ||| BitVec.twoPow w k = l ↔ c = l ∨ c = l &&& ~~~BitVec.twoPow w k := by
  constructor
  · rintro rfl
    by_cases hk : c.getLsbD k = true
    · refine .inl (BitVec.eq_of_getLsbD_eq (fun i hi => ?_))
      by_cases h : i = k
      · subst h
        simp [hk]
      · simp [h, hi]
    · refine .inr (BitVec.eq_of_getLsbD_eq (fun i hi => ?_))
      by_cases h : i = k
      · subst h
        simp [hk]
      · simp [h, hi]
  · rintro (rfl | rfl) <;> refine BitVec.eq_of_getLsbD_eq (fun i hi => ?_)
    all_goals
      by_cases h : i = k
      · subst h
        simp [hl, hi]
      · simp [h, hi]

theorem isASCIIAlphaCaselessEqual_iff (c lower : UChar) {letter : Char}
    (hl : lower.toNat = letter.toNat) (h5 : lower.getLsbD 5 = true) :
    isASCIIAlphaCaselessEqual c letter = true ↔ c = lower ∨ c = lower &&& ~~~0x20 := by
  simp only [isASCIIAlphaCaselessEqual, decide_eq_true_eq]
  rw [← hl, BitVec.toNat_inj]
  exact or_twoPow_eq_iff c lower 5 h5

theorem radixLetter_eq (c : UChar) :
    radixLetter c = if isASCIIAlphaCaselessEqual c 'b' then some 2
      else if isASCIIAlphaCaselessEqual c 'x' then some 16
      else if isASCIIAlphaCaselessEqual c 'o' then some 8
      else none := by
  have hb : isASCIIAlphaCaselessEqual c 'b' = true ↔ c = 0x62 ∨ c = 0x42 :=
    isASCIIAlphaCaselessEqual_iff c 0x62 rfl rfl
  have hx : isASCIIAlphaCaselessEqual c 'x' = true ↔ c = 0x78 ∨ c = 0x58 :=
    isASCIIAlphaCaselessEqual_iff c 0x78 rfl rfl
  have ho : isASCIIAlphaCaselessEqual c 'o' = true ↔ c = 0x6F ∨ c = 0x4F :=
    isASCIIAlphaCaselessEqual_iff c 0x6F rfl rfl
  simp only [radixLetter, hb, hx, ho]

theorem Denotes.setSign {b : Bool} {n bound : Nat} {r : JSBigInt t}
    (h : Denotes (signed b n) bound r) (hz : r.length ≠ 0) :
    Denotes (signed b n) bound (r.setSign b) := by
  refine ⟨⟨fun h0 => absurd h0 hz, h.canonical.top_nonzero⟩, ?_, h.length_le⟩
  rw [toInt_setSign, ← natAbs_toInt, h.toInt_eq, natAbs_signed]

/-- The sign is put on a second time, which changes nothing. -/
theorem resign_parsed
    {rest : List UChar} {o : Option (JSBigInt t)} (h : Parsed (readRest rdx sign pm rest) mode o) :
    Parsed (readRest rdx sign pm rest) mode (o.map fun result =>
      if result.isZero then result else result.setSign (sign = .signed)) := by
  cases o with
  | none => exact h
  | some r =>
    obtain ⟨v, hv, hr⟩ := h
    refine ⟨v, hv, ?_⟩
    by_cases hz : r.isZero = true
    · simpa [hz] using hr
    · simp only [hz, Bool.false_eq_true, if_false]
      unfold readRest at hv
      split_ifs at hv
      obtain ⟨n, -, rfl⟩ := Option.map_eq_some_iff.mp hv
      exact hr.setSign (fun h0 => hz ((isZero_iff r).mpr h0))

variable (text : List UChar)

theorem lead_radix : 2 ≤ (lead text).radix ∧ (lead text).radix ≤ 36 := by
  unfold lead
  split
  · next rdx h =>
    unfold prefixRadix radixLetter at h
    split at h
    · split_ifs at h <;> cases h <;> decide
    · cases h
  · split_ifs <;> decide

theorem lead_width : (lead text).width ≤ text.length := by
  unfold lead
  split
  · next rdx h =>
    unfold prefixRadix at h
    split at h
    · simp
    · cases h
  · cases text with
    | nil => simp
    | cons c cs => split_ifs <;> simp

theorem lead_parseMode (h : (lead text).width = 0) : (lead text).parseMode = .allowEmptyString := by
  unfold lead at h ⊢
  split at h
  · cases h
  · split_ifs <;> rfl

/-- The tests for a prefix are tests on the characters after the spaces. -/
theorem parseInt_eq : (parseInt text mode : Run t _) =
      let p := skipWhile isStrWhiteSpace text 0
      match prefixRadix (text.drop p) with
      | some rdx => parseIntFrom true text (p + 2) rdx mode .unsigned .disallowEmptyString
      | none =>
        let (p, sign) :=
          if (text.drop p).head? = some 0x2B then (p + 1, ParseIntSign.unsigned)
          else if (text.drop p).head? = some 0x2D then (p + 1, ParseIntSign.signed)
          else (p, ParseIntSign.unsigned)
        parseIntFrom true text p 10 mode sign .allowEmptyString >>= fun result =>
          pure (result.map fun result =>
            if result.isZero then result else result.setSign (sign = .signed)) := by
  unfold parseInt
  generalize hp : skipWhile isStrWhiteSpace text 0 = p
  have hh : text[p]? = (text.drop p).head? := by simp [head?_drop]
  have hn : text.getD (p + 1) 0 = (text.drop p).getD 1 0 := by simp [getD]
  have hlen : p + 1 < text.length ↔ 1 < (text.drop p).length := by
    rw [length_drop]
    omega
  simp only [hh, hn, hlen]
  generalize text.drop p = rest
  rcases rest with _ | ⟨z, _ | ⟨c, cs⟩⟩
  · rfl
  · rfl
  · simp only [length_cons, head?_cons, Option.some.injEq, prefixRadix, radixLetter_eq]
    simp only [show 1 < cs.length + 1 + 1 by omega, true_and,
      show (z :: c :: cs).getD 1 0 = c from rfl]
    by_cases hz : z = 0x30
    · simp only [hz, if_true]
      split_ifs <;> rfl
    · simp only [hz, if_false]

theorem parseInt_wp : wp (parseInt text mode : Run t _) (fun o _ => Parsed (readString text) mode o)
      (Refused true (readString text) mode

    (TooLong t (lead (text.dropWhile isStrWhiteSpace)).radix (significantOf text).length)) s := by
  have hs := skipWhile_le isStrWhiteSpace (Nat.zero_le text.length)
  have hd := drop_skipWhile isStrWhiteSpace text 0
  rw [drop_zero] at hd
  have hr := lead_radix (text.dropWhile isStrWhiteSpace)
  have hw := lead_width (text.dropWhile isStrWhiteSpace)
  rw [parseInt_eq]
  unfold readString significantOf
  generalize skipWhile isStrWhiteSpace text 0 = p at hs hd
  rw [← hd] at hr hw ⊢
  rw [length_drop] at hw
  unfold lead at hr hw ⊢
  dsimp only
  cases hp : prefixRadix (text.drop p) with
  | some rdx =>
    rw [hp] at hr hw
    rw [drop_drop]
    exact parseIntFrom_wp (by dsimp only at hw; omega) hr
  | none =>
    rw [hp] at hw
    simp only [wp_bind, wp_pure]
    split_ifs at hw ⊢ <;> rw [drop_drop]
    all_goals
      dsimp only at hw
      exact wp_post (parseIntFrom_wp (by omega) (by decide)) (fun o _ ho => resign_parsed ho)

end Reading

section Grammar

/-- StrWhiteSpace removed at both ends. -/
def strip (text : List UChar) : List UChar :=
  (text.dropWhile isStrWhiteSpace).rdropWhile isStrWhiteSpace

/-- The texts StringToBigInt accepts once stripped, with the integer each denotes. -/
inductive StringIntegerLiteral : List UChar → Int → Prop
  | empty : StringIntegerLiteral [] 0
  | decimal {cs : List UChar} {n : Nat} (hcs : cs ≠ []) (hn : numeral 10 cs = some n) :
      StringIntegerLiteral cs n
  | plus {cs : List UChar} {n : Nat} (hcs : cs ≠ []) (hn : numeral 10 cs = some n) :
      StringIntegerLiteral (0x2B :: cs) n
  | minus {cs : List UChar} {n : Nat} (hcs : cs ≠ []) (hn : numeral 10 cs = some n) :
      StringIntegerLiteral (0x2D :: cs) (-n)
  | prefixed {c : UChar} {radix : Nat} {cs : List UChar} {n : Nat}
      (hc : radixLetter c = some radix) (hcs : cs ≠ []) (hn : numeral radix cs = some n) :
      StringIntegerLiteral (0x30 :: c :: cs) n

/-- The grammar's value as a function: after a sign or prefix the digits must not be missing. -/
def literalValue (text : List UChar) : Option Int :=
  if (lead text).width ≠ 0 ∧ text.drop (lead text).width = [] then none
  else (numeral (lead text).radix (text.drop (lead text).width)).map
    (signed ((lead text).sign = .signed))

variable {c : UChar} {rdx : Nat} {text : List UChar}

theorem charValue_of_radixLetter (h : radixLetter c = some rdx) :
    (charValue c).filter (· < 10) = none ∧ isStrWhiteSpace c = false := by
  unfold radixLetter at h
  split_ifs at h with hb hx ho
  · rcases hb with rfl | rfl <;> decide
  · rcases hx with rfl | rfl <;> decide
  · rcases ho with rfl | rfl <;> decide

theorem prefixRadix_eq_some (h : prefixRadix text = some rdx) :
    ∃ c cs, text = 0x30 :: c :: cs ∧ radixLetter c = some rdx := by
  unfold prefixRadix at h
  split at h
  · next z c cs =>
    split_ifs at h with hz
    exact ⟨c, cs, by rw [hz], h⟩
  · cases h

theorem lead_prefixed (h : radixLetter c = some rdx) (cs : List UChar) :
    lead (0x30 :: c :: cs) = ⟨rdx, .unsigned, .disallowEmptyString, 2⟩ := by
  simp [lead, prefixRadix, h]

variable (cs : List UChar)

theorem lead_plus :
    lead (0x2B :: cs) = ⟨10, .unsigned, .allowEmptyString, 1⟩ := by
  cases cs <;> rfl

theorem lead_minus : lead (0x2D :: cs) = ⟨10, .signed, .allowEmptyString, 1⟩ := by
  cases cs <;> rfl

/-- The four ways a text can begin. -/
theorem lead_cases (text : List UChar) :
    (∃ c cs rdx, text = 0x30 :: c :: cs ∧ radixLetter c = some rdx) ∨
      (∃ cs, text = 0x2B :: cs) ∨ (∃ cs, text = 0x2D :: cs) ∨
      lead text = ⟨10, .unsigned, .allowEmptyString, 0⟩ := by
  cases hp : prefixRadix text with
  | some rdx =>
    obtain ⟨c, cs, ht, hc⟩ := prefixRadix_eq_some hp
    exact .inl ⟨c, cs, rdx, ht, hc⟩
  | none =>
    by_cases hpl : text.head? = some 0x2B
    · obtain ⟨cs, hcs⟩ := head?_eq_some_iff.mp hpl
      exact .inr (.inl ⟨cs, hcs⟩)
    · by_cases hm : text.head? = some 0x2D
      · obtain ⟨cs, hcs⟩ := head?_eq_some_iff.mp hm
        exact .inr (.inr (.inl ⟨cs, hcs⟩))
      · exact .inr (.inr (.inr (by simp only [lead, hp, if_neg hpl, if_neg hm])))

/-- A sign or a prefix is no decimal numeral. -/
theorem lead_of_numeral {n : Nat} (h : numeral 10 text = some n) :
    lead text = ⟨10, .unsigned, .allowEmptyString, 0⟩ := by
  rcases lead_cases text with ⟨c, cs, rdx, rfl, hc⟩ | ⟨cs, rfl⟩ | ⟨cs, rfl⟩ | hl
  · have hch := (charValue_of_radixLetter hc).1
    have hz : charValue 0x30 = some 0 := rfl
    simp only [numeral, numeralFrom, hz, show 0 < 10 by decide, if_true] at h
    cases hv : charValue c with
    | none => simp [hv] at h
    | some d =>
      rw [hv, Option.filter_some] at hch
      split_ifs at hch with hd
      rw [decide_eq_true_eq] at hd
      simp [hv, hd] at h
  · cases h
  · cases h
  · exact hl

theorem stringIntegerLiteral_iff (text : List UChar) (v : Int) :
    StringIntegerLiteral text v ↔ literalValue text = some v := by
  unfold literalValue
  constructor
  · intro h
    cases h with
    | empty => rfl
    | decimal hcs hn => simp [lead_of_numeral hn, hn]
    | plus hcs hn =>
      rw [lead_plus]
      simp [hcs, hn]
    | minus hcs hn =>
      rw [lead_minus]
      simp [hcs, hn]
    | prefixed hc hcs hn =>
      rw [lead_prefixed hc]
      simp [hcs, hn]
  · intro h
    rcases lead_cases text with ⟨c, cs, rdx, rfl, hc⟩ | ⟨cs, rfl⟩ | ⟨cs, rfl⟩ | hl
    · rw [lead_prefixed hc] at h
      split_ifs at h with hcs
      obtain ⟨n, hn, rfl⟩ := Option.map_eq_some_iff.mp h
      exact .prefixed hc (fun h0 => hcs ⟨Nat.succ_ne_zero 1, h0⟩) hn
    · rw [lead_plus] at h
      split_ifs at h with hcs
      obtain ⟨n, hn, rfl⟩ := Option.map_eq_some_iff.mp h
      exact .plus (fun h0 => hcs ⟨by decide, h0⟩) hn
    · rw [lead_minus] at h
      split_ifs at h with hcs
      obtain ⟨n, hn, rfl⟩ := Option.map_eq_some_iff.mp h
      exact .minus (fun h0 => hcs ⟨by decide, h0⟩) hn
    · rw [hl] at h
      split_ifs at h with hcs
      obtain ⟨n, hn, rfl⟩ := Option.map_eq_some_iff.mp h
      cases text with
      | nil =>
        cases hn
        exact .empty
      | cons c cs => exact .decimal (by simp) hn

theorem rdropWhile_append_of_not {p : UChar → Bool} {zs : List UChar} (hzs : ∀ z ∈ zs, p z = false)
    (cs : List UChar) : (zs ++ cs).rdropWhile p = zs ++ cs.rdropWhile p := by
  induction cs using reverseRecOn with
  | nil =>
    rw [append_nil, rdropWhile_nil, append_nil, rdropWhile_eq_self_iff]
    intro hne
    simp [hzs _ (getLast_mem hne)]
  | append_singleton cs c ih =>
    rw [← append_assoc]
    by_cases hc : p c = true
    · rw [rdropWhile_concat_pos _ _ _ hc, rdropWhile_concat_pos _ _ _ hc, ih]
    · rw [rdropWhile_concat_neg _ _ _ hc, rdropWhile_concat_neg _ _ _ hc, append_assoc]

theorem eq_zero_of_mem_takeWhile {rest : List UChar} {z : UChar}
    (h : z ∈ rest.takeWhile (· = 0x30)) : z = 0x30 := by
  simpa using mem_takeWhile_imp h

/-- The parser drops leading zeros before trailing spaces; the grammar does not see the zeros. -/
theorem rdropWhile_eq_zeros_append (rest : List UChar) :
    rest.rdropWhile isStrWhiteSpace = rest.takeWhile (· = 0x30) ++ significant rest := by
  conv_lhs => rw [← takeWhile_append_dropWhile (p := (· = (0x30 : UChar))) (l := rest)]
  refine rdropWhile_append_of_not (fun z hz => ?_) _
  rw [eq_zero_of_mem_takeWhile hz]
  decide

theorem numeral_significant (hr : 0 < rdx) (rest : List UChar) :
    numeral rdx (significant rest) = numeral rdx (rest.rdropWhile isStrWhiteSpace) := by
  rw [rdropWhile_eq_zeros_append]
  exact (numeral_append_of_zeros hr _ _ (fun z => eq_zero_of_mem_takeWhile)).symm

theorem rdropWhile_prefixed (h : radixLetter c = some rdx) (cs : List UChar) :
    (0x30 :: c :: cs).rdropWhile isStrWhiteSpace = 0x30 :: c :: cs.rdropWhile isStrWhiteSpace := by
  have hzs : ∀ z ∈ [0x30, c], isStrWhiteSpace z = false := by
    intro z hz
    rcases mem_pair.mp hz with rfl | rfl
    · decide
    · exact (charValue_of_radixLetter h).2
  exact rdropWhile_append_of_not hzs cs

theorem rdropWhile_cons (h : isStrWhiteSpace c = false) (cs : List UChar) :
    (c :: cs).rdropWhile isStrWhiteSpace = c :: cs.rdropWhile isStrWhiteSpace := by
  have hzs : ∀ z ∈ [c], isStrWhiteSpace z = false := by simpa using h
  exact rdropWhile_append_of_not hzs cs

/-- Trailing spaces hide neither a sign nor a prefix. -/
theorem lead_rdropWhile (text : List UChar) :
    lead (text.rdropWhile isStrWhiteSpace) = lead text ∧
      (text.rdropWhile isStrWhiteSpace).drop (lead text).width =
        (text.drop (lead text).width).rdropWhile isStrWhiteSpace := by
  rcases lead_cases text with ⟨c, cs, rdx, rfl, hc⟩ | ⟨cs, rfl⟩ | ⟨cs, rfl⟩ | hl
  · rw [rdropWhile_prefixed hc, lead_prefixed hc, lead_prefixed hc]
    exact ⟨rfl, rfl⟩
  · rw [rdropWhile_cons (by decide), lead_plus, lead_plus]
    exact ⟨rfl, rfl⟩
  · rw [rdropWhile_cons (by decide), lead_minus, lead_minus]
    exact ⟨rfl, rfl⟩
  · rw [hl]
    refine ⟨?_, rfl⟩
    -- what the stripped text begins with, the text itself begins with
    obtain ⟨tail, ht⟩ := rdropWhile_prefix isStrWhiteSpace text
    rcases lead_cases (text.rdropWhile isStrWhiteSpace) with
      ⟨c, cs, rdx, hs, hc⟩ | ⟨cs, hs⟩ | ⟨cs, hs⟩ | hl'
    · rw [← ht, hs, cons_append, cons_append, lead_prefixed hc] at hl
      cases hl
    · rw [← ht, hs, cons_append, lead_plus] at hl
      cases hl
    · rw [← ht, hs, cons_append, lead_minus] at hl
      cases hl
    · exact hl'

/-- A sign with nothing after it. -/
def LoneSign (text : List UChar) : Prop := strip text = [0x2B] ∨ strip text = [0x2D]

/-- A radix prefix with nothing but spaces after it, and at least one. -/
def BarePrefixThenSpace (text : List UChar) : Prop :=
  prefixRadix (strip text) ≠ none ∧ (strip text).length = 2 ∧
    text.getLast?.any isStrWhiteSpace = true

instance (text : List UChar) : Decidable (LoneSign text) := inferInstanceAs (Decidable (_ ∨ _))

instance (text : List UChar) : Decidable (BarePrefixThenSpace text) :=
  inferInstanceAs (Decidable (_ ∧ _))

/-- The digits are missing and the parser does not notice. -/
def DigitsMissed (text : List UChar) : Prop :=
  let text := text.dropWhile isStrWhiteSpace
  (lead text).width ≠ 0 ∧ (text.drop (lead text).width).rdropWhile isStrWhiteSpace = [] ∧
    ¬ ((lead text).parseMode ≠ .allowEmptyString ∧ text.drop (lead text).width = [])

theorem readString_of_digitsMissed (h : DigitsMissed text) :
    readString text = some 0 ∧ literalValue (strip text) = none ∧ significantOf text = [] := by
  obtain ⟨hw, hnil, hg⟩ := h
  have hr := lead_radix (text.dropWhile isStrWhiteSpace)
  obtain ⟨hl, hd⟩ := lead_rdropWhile (text.dropWhile isStrWhiteSpace)
  refine ⟨?_, ?_, ?_⟩
  · unfold readString readRest
    rw [if_neg hg, numeral_significant (by omega), hnil]
    simp [numeral, numeralFrom]
  · unfold literalValue strip
    rw [hl, hd, if_pos ⟨hw, hnil⟩]
  · rw [rdropWhile_eq_zeros_append] at hnil
    exact (append_eq_nil_iff.mp hnil).2

theorem readString_of_not_digitsMissed (h : ¬ DigitsMissed text) :
    readString text = literalValue (strip text) := by
  have hr := lead_radix (text.dropWhile isStrWhiteSpace)
  obtain ⟨hl, hd⟩ := lead_rdropWhile (text.dropWhile isStrWhiteSpace)
  unfold DigitsMissed at h
  unfold readString readRest literalValue strip
  dsimp only at h ⊢
  rw [hl, hd, numeral_significant (by omega)]
  have hmo := lead_parseMode (text.dropWhile isStrWhiteSpace)
  generalize lead (text.dropWhile isStrWhiteSpace) = l at *
  generalize (text.dropWhile isStrWhiteSpace).drop l.width = rest at *
  by_cases hg : l.parseMode ≠ .allowEmptyString ∧ rest = []
  · have hnil : rest.rdropWhile isStrWhiteSpace = [] := by rw [hg.2, rdropWhile_nil]
    rw [if_pos hg, if_pos ⟨fun h0 => hg.1 (hmo h0), hnil⟩]
  · rw [if_neg hg, if_neg (fun hm => h ⟨hm.1, hm.2, hg⟩)]

theorem getLast?_dropWhile (h : text.dropWhile isStrWhiteSpace ≠ []) :
    (text.dropWhile isStrWhiteSpace).getLast? = text.getLast? := by
  conv_rhs => rw [← takeWhile_append_dropWhile (p := isStrWhiteSpace) (l := text)]
  rw [getLast?_append_of_ne_nil _ h]

theorem prefixRadix_sign (h : c ≠ 0x30) (cs : List UChar) : prefixRadix (c :: cs) = none := by
  cases cs with
  | nil => rfl
  | cons d cs => exact if_neg h

theorem digitsMissed_iff (text : List UChar) :
    DigitsMissed text ↔ LoneSign text ∨ BarePrefixThenSpace text := by
  unfold DigitsMissed LoneSign BarePrefixThenSpace strip
  have hla : text.dropWhile isStrWhiteSpace ≠ [] → _ := getLast?_dropWhile
  dsimp only
  generalize text.dropWhile isStrWhiteSpace = rest at hla
  rcases lead_cases rest with ⟨c, cs, rdx, rfl, hc⟩ | ⟨cs, rfl⟩ | ⟨cs, rfl⟩ | hl
  · rw [lead_prefixed hc, rdropWhile_prefixed hc, ← hla (by simp)]
    constructor
    · rintro ⟨-, hnil, hg⟩
      have hcs : cs ≠ [] := fun h0 => hg ⟨by simp, by simp [h0]⟩
      simp only [drop_succ_cons, drop_zero] at hnil
      have hs := rdropWhile_eq_nil_iff.mp hnil (cs.getLast hcs) (getLast_mem hcs)
      refine .inr ⟨by simp [prefixRadix, hc], by simp [hnil], ?_⟩
      simpa [getLast?_eq_some_getLast, getLast_cons, hcs] using hs
    · rintro ((h | h) | ⟨-, hlen, hs⟩)
      · cases h
      · cases h
      · have hnil : cs.rdropWhile isStrWhiteSpace = [] := by simpa using hlen
        refine ⟨by simp, by simpa using hnil, ?_⟩
        rintro ⟨-, h0⟩
        have hcs : cs = [] := by simpa using h0
        simp [hcs, (charValue_of_radixLetter hc).2] at hs
  · rw [lead_plus, rdropWhile_cons (by decide), prefixRadix_sign (by decide)]
    simp
  · rw [lead_minus, rdropWhile_cons (by decide), prefixRadix_sign (by decide)]
    simp
  · have hl' := (lead_rdropWhile rest).1
    rw [hl] at hl'
    rw [hl]
    refine iff_of_false (fun h => h.1 rfl) ?_
    rintro ((h | h) | ⟨hl, -⟩)
    · rw [h] at hl'
      cases hl'
    · rw [h] at hl'
      cases hl'
    · obtain ⟨rdx, hr⟩ := Option.ne_none_iff_exists'.mp hl
      obtain ⟨c, cs, hst, hc⟩ := prefixRadix_eq_some hr
      rw [hst, lead_prefixed hc] at hl'
      cases hl'

end Grammar

section Results

/-- On every heap, parsing returns the canonical BigInt of the literal the stripped text is,
and fails when it is none. Memory runs out only for digits too many for the longest BigInt. -/
def ParsesExactly (t : Target) (text : List UChar) (mode : ErrorParseMode) : Prop :=
  ∀ heap,
    wp (parseInt text mode : Run t _)
      (fun o _ => match o with
        | some r => r.Canonical ∧ StringIntegerLiteral (strip text) r.toInt
        | none => mode = .ignoreExceptions ∧ ∀ v, ¬ StringIntegerLiteral (strip text) v)
      (fun e =>
        (e = .syntaxError "Failed to parse String to BigInt" ∧ mode = .throwExceptions ∧
          ∀ v, ¬ StringIntegerLiteral (strip text) v) ∨
        (e = .outOfMemoryError ∧
          TooLong t (lead (text.dropWhile isStrWhiteSpace)).radix (significantOf text).length))
      heap

theorem not_literal_of_none {text : List UChar} (h : literalValue text = none) (v : Int) :
    ¬ StringIntegerLiteral text v := by
  rw [stringIntegerLiteral_iff, h]
  simp

/-- Exactly two kinds of text are read as zero though they are no literal: a sign that no digit
follows, and a prefix `0x`, `0o` or `0b` with only white space behind it. -/
theorem parsesExactly_iff (t : Target) (text : List UChar) (mode : ErrorParseMode) :
    ParsesExactly t text mode ↔ ¬ LoneSign text ∧ ¬ BarePrefixThenSpace text := by
  rw [← not_or, ← digitsMissed_iff]
  constructor
  · intro hexact hmissed
    obtain ⟨hread, hliteral, hnone⟩ := readString_of_digitsMissed hmissed
    -- zero is returned: it is no refusal, and no characters are too many
    have h := wp_and (hexact ⟨0, fun _ _ => 0⟩) (parseInt_wp text)
    rw [hread, hnone] at h
    obtain ⟨o, s', -, hclaim, hparsed⟩ := wp_returns (wp_mono h (fun _ _ h => h) (by
      rintro e ⟨-, ⟨-, -, h0⟩ | ⟨-, hlong⟩⟩
      · cases h0
      · exact Nat.not_lt_zero _ hlong))
    cases o with
    | none => cases hparsed.2
    | some r => exact not_literal_of_none hliteral _ hclaim.2
  · intro hmissed heap
    have hread := readString_of_not_digitsMissed hmissed
    refine wp_mono (parseInt_wp text) ?_ ?_
    · rintro (_ | r) _ h
      · exact ⟨h.1, not_literal_of_none (hread ▸ h.2)⟩
      · obtain ⟨v, hv, hr⟩ := h
        refine ⟨hr.canonical, (stringIntegerLiteral_iff _ _).mpr ?_⟩
        rw [← hread, hv, hr.toInt_eq]
    · rintro e (⟨he, hmode, hnone⟩ | hlong)
      · exact .inl ⟨he, hmode, not_literal_of_none (hread ▸ hnone)⟩
      · exact .inr hlong

/-- A minus sign alone parses to zero. -/
theorem parseInt_lone_sign :
    (parseInt [0x2D] .throwExceptions (⟨0, fun _ _ => 0⟩ : Heap ⟨true, true, true⟩)).map Prod.fst =
        .ok (some ⟨false, []⟩) ∧
      ∀ v, ¬ StringIntegerLiteral (strip [0x2D]) v :=
  ⟨by decide, not_literal_of_none (by decide)⟩

end Results

end JavaScriptCore.Runtime.JSBigInt
