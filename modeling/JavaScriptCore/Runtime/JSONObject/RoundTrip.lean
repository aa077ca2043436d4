import JavaScriptCore.Runtime.JSONObject.StringifierSpec

/-!
# What is stringified parses back

The text of a plain value is a document of the grammar, and the strict parser builds from it the
value in which what has no JSON is dropped or replaced. A gap of spaces only adds white space
outside strings.
-/

namespace JavaScriptCore.Stringifier

open Json LiteralParser ProgramLogic Budgeted Wtf List

variable {Double : Type}

/-! ## Plain values -/

/-- The order in which an object enumerates its properties: indices ascending, then names. -/
def Before (key other : Text) : Prop :=
  match parseIndex other with
  | some index => ∃ i, parseIndex key = some i ∧ i < index
  | none => key ≠ other

mutual

/-- The leaves have integers as their only numbers, and objects enumerate as objects do. -/
def Value.Plain : Value Double → Prop
  | .double _ | .bigInt => False
  | .int32 n => -2 ^ 31 ≤ n ∧ n < 2 ^ 31
  | .array _ vs => PlainElements vs
  | .object _ ms => (ms.map (·.1.characters)).Pairwise Before ∧ PlainMembers ms
  | _ => True

def PlainElements : List (Value Double) → Prop
  | [] => True
  | v :: vs => v.Plain ∧ PlainElements vs

def PlainMembers : List (WTFString × Value Double) → Prop
  | [] => True
  | (_, v) :: ms => v.Plain ∧ PlainMembers ms

end

section

variable (conversion : Conversion Double)

mutual

/-- The value that parsing the text of a plain value builds. -/
def kept : Value Double → JSValue Double
  | .boolean b => .boolean b
  | .int32 n => .number (conversion.ofInt n)
  | .string s => .string s.characters
  | .array _ vs => .array (keptElements vs)
  | .object _ ms => .object none (keptMembers ms)
  | _ => .null

def keptElements : List (Value Double) → List (JSValue Double)
  | [] => []
  | v :: vs => kept v :: keptElements vs

def keptMembers : List (WTFString × Value Double) → List (Text × JSValue Double)
  | [] => []
  | (name, v) :: ms =>
    if v.dropped then keptMembers ms else (name.characters, kept v) :: keptMembers ms

end

end

mutual

/-- The phrase of which the text of a plain value is a derivation. -/
def phrase : Value Double → Phrase
  | .boolean b => .boolean b
  | .int32 n => .number (numberToStringSigned n)
  | .string s => .string s.characters
  | .array _ vs => .array (phraseElements vs)
  | .object _ ms => .object (phraseMembers ms)
  | _ => .null

def phraseElements : List (Value Double) → List Phrase
  | [] => []
  | v :: vs => phrase v :: phraseElements vs

def phraseMembers : List (WTFString × Value Double) → List (Text × Phrase)
  | [] => []
  | (name, v) :: ms =>
    if v.dropped then phraseMembers ms else (name.characters, phrase v) :: phraseMembers ms

end

/-! ## Derivations -/

section

variable {fmt : NumberFormat Double} {gap : Text}

def Blank (t : Text) : Prop := ∀ c ∈ t, isWhiteSpace c = true

theorem Blank.whiteSpace {t : Text} (h : Blank t) (r : Text) : WhiteSpace (t ++ r) r := by
  induction t with
  | nil => exact .none r
  | cons c t ih =>
    exact .unit (h c mem_cons_self) (ih fun d hd => h d (mem_cons_of_mem c hd))

theorem blank_newLine (hgap : Blank gap) (d : Nat) : Blank (newLine gap d) := by
  intro c hc
  rw [newLine] at hc
  split at hc
  · cases hc
  · obtain rfl | hc := mem_cons.mp hc
    · rfl
    · obtain ⟨t, ht, hct⟩ := mem_flatten.mp hc
      rw [eq_of_mem_replicate ht] at hct
      exact hgap c hct

theorem blank_afterColon : Blank (afterColon gap) := by
  intro c hc
  rw [afterColon] at hc
  split at hc
  · cases hc
  · obtain rfl := mem_singleton.mp hc
    rfl

theorem numberToStringSigned_number (n : Int) : Number (numberToStringSigned n) := by
  obtain ⟨ds, heq, hin, -⟩ := numberToStringSigned_integer n
  refine ⟨if n < 0 then [0x2D] else [], ds, [], [], by simp [heq], ?_, hin, .none, .none⟩
  split
  · exact .inr rfl
  · exact .inl rfl

def Derives (format : NumberFormat Double) (gap : Text) (v : Value Double) : Prop :=
  v.Plain → ∀ depth r, Json.Value (text format gap depth v ++ r) (phrase v) r

variable {w : Text} {ms : List (WTFString × Value Double)}

/-- Behind an element, whatever is left of an array derives. -/
theorem derives_elements (hgap : Blank gap) (d : Nat) {v : Value Double}
    {vs : List (Value Double)} (hv : Derives fmt gap v) (hvs : ∀ v ∈ vs, Derives fmt gap v)
    (hpl : v.Plain) (hp : PlainElements vs) (hw : Blank w) (r : Text) :
    Elements (newLine gap d ++ (text fmt gap d v ++
      (elementsText fmt gap d false vs ++ (w ++ 0x5D :: r))))
      (phrase v :: phraseElements vs) (0x5D :: r) := by
  induction vs generalizing v with
  | nil =>
    exact .one ⟨(blank_newLine hgap d).whiteSpace _, hv hpl d _, hw.whiteSpace _⟩
  | cons v' vs ih =>
    refine .cons ⟨(blank_newLine hgap d).whiteSpace _, hv hpl d _, ?_⟩
      (ih (hvs v' mem_cons_self) (fun u hu => hvs u (mem_cons_of_mem v' hu)) hp.1 hp.2)
    simp only [elementsText, separator, append_assoc, Bool.false_eq_true, if_false]
    exact .none _

theorem derives_member (hgap : Blank gap) (d : Nat) (name : WTFString) {v : Value Double}
    (hv : Derives fmt gap v) (hp : v.Plain) {u r : Text} (hu : WhiteSpace u r) :
    Member ((newLine gap d ++ quoted name.characters ++ [0x3A] ++ afterColon gap ++
      text fmt gap d v) ++ u) name.characters (phrase v) r := by
  simp only [append_assoc, singleton_append]
  exact ⟨(blank_newLine hgap d).whiteSpace _, quoted_literal name.units _, .none _,
    blank_afterColon.whiteSpace _, hv hp d _, hu⟩

/-- Behind a member, whatever is left of an object derives. -/
theorem derives_members (hgap : Blank gap) (d : Nat) {s key : Text} {j : Phrase}
    (hme : ∀ {u r}, WhiteSpace u r → Member (s ++ u) key j r)
    (hms : ∀ m ∈ ms, Derives fmt gap m.2) (hp : PlainMembers ms) (hw : Blank w) (r : Text) :
    Members (s ++ (membersText fmt gap d false ms ++ (w ++ 0x7D :: r)))
      ((key, j) :: phraseMembers ms) (0x7D :: r) := by
  induction ms generalizing s key j with
  | nil => exact .one (hme (hw.whiteSpace _))
  | cons m ms ih =>
    obtain ⟨name, v⟩ := m
    have hr := fun m hm => hms m (mem_cons_of_mem _ hm)
    rw [membersText, phraseMembers]
    split_ifs with hd
    · exact ih hme hr hp.2
    have hn := ih (derives_member hgap d name (hms (name, v) mem_cons_self) hp.1) hr hp.2
    refine .cons (hme ?_) hn
    simp only [separator, append_assoc, Bool.false_eq_true, if_false]
    exact .none _

theorem membersText_all_dropped (fmt : NumberFormat Double) (gap : Text) (d : Nat)
    (first : Bool) (h : ms.all (·.2.dropped) = true) :
    membersText fmt gap d first ms = [] ∧ phraseMembers ms = [] := by
  induction ms with
  | nil => exact ⟨rfl, rfl⟩
  | cons m ms ih =>
    obtain ⟨name, v⟩ := m
    rw [all_cons, Bool.and_eq_true] at h
    rw [membersText, phraseMembers, if_pos h.1, if_pos h.1]
    exact ih h.2

/-- The members of an object of which some are kept. -/
theorem derives_someMembers (hgap : Blank gap) (d : Nat)
    (hms : ∀ m ∈ ms, Derives fmt gap m.2) (hp : PlainMembers ms)
    (hs : ¬ms.all (·.2.dropped) = true) (hw : Blank w) (r : Text) :
    Members (membersText fmt gap d true ms ++ (w ++ 0x7D :: r)) (phraseMembers ms) (0x7D :: r) := by
  induction ms with
  | nil => exact absurd rfl hs
  | cons m ms ih =>
    obtain ⟨name, v⟩ := m
    have hr := fun m hm => hms m (mem_cons_of_mem _ hm)
    rw [membersText, phraseMembers]
    split_ifs with hd
    · refine ih hr hp.2 fun hall => hs ?_
      rw [all_cons, hall, Bool.and_true, hd]
    · have hmembers := derives_members hgap d
        (derives_member hgap d name (hms (name, v) mem_cons_self) hp.1)
        hr hp.2 hw r
      simpa [separator] using hmembers

theorem derives_array (hgap : Blank gap) {cell : Nat} {vs : List (Value Double)}
    (hvs : ∀ v ∈ vs, Derives fmt gap v) : Derives fmt gap (.array cell vs) := by
  intro hp d r
  cases vs with
  | nil => exact .emptyArray (.none _)
  | cons v vs =>
    have hes := derives_elements hgap (d + 1) (hvs v mem_cons_self)
      (fun u hu => hvs u (mem_cons_of_mem v hu)) hp.1 hp.2 (blank_newLine hgap d) r
    have := Json.Value.array hes
    simpa [text, elementsText, separator, phrase, phraseElements] using this

theorem derives_object (hgap : Blank gap) {cell : Nat}
    (hms : ∀ m ∈ ms, Derives fmt gap m.2) : Derives fmt gap (.object cell ms) := by
  intro hpl d r
  rw [text, phrase]
  split_ifs with hall
  · obtain ⟨ht, hp⟩ := membersText_all_dropped fmt gap (d + 1) true hall
    rw [ht, hp]
    exact .emptyObject (.none _)
  · have := Json.Value.object (derives_someMembers hgap (d + 1) hms hpl.2 hall
      (blank_newLine hgap d) r)
    simpa using this

mutual

theorem derives (hgap : Blank gap) : ∀ v : Value Double, Derives fmt gap v
  | .undefined | .null | .symbol | .function => fun _ _ r => .null r
  | .boolean true => fun _ _ r => .true r
  | .boolean false => fun _ _ r => .false r
  | .int32 n => fun _ _ r => .number r (numberToStringSigned_number n)
  | .double _ | .bigInt => fun hp => hp.elim
  | .string s => fun _ _ r => .string (quoted_literal s.units r)
  | .array _ vs => derives_array hgap (derivesElements hgap vs)
  | .object _ ms => derives_object hgap (derivesMembers hgap ms)

theorem derivesElements (hgap : Blank gap) :
    ∀ vs : List (Value Double), ∀ v ∈ vs, Derives fmt gap v
  | [] => by simp
  | v :: vs => forall_mem_cons.mpr ⟨derives hgap v, derivesElements hgap vs⟩

theorem derivesMembers (hgap : Blank gap) :
    ∀ ms : List (WTFString × Value Double), ∀ m ∈ ms, Derives fmt gap m.2
  | [] => by simp
  | (_, v) :: ms => forall_mem_cons.mpr ⟨derives hgap v, derivesMembers hgap ms⟩

end

end

/-! ## What is built -/

section

variable {conversion : Conversion Double}

theorem conversion_int32 {n : Int} (hlo : -2 ^ 31 ≤ n) (hhi : n < 2 ^ 31) :
    conversion.number (numberToStringSigned n) = conversion.ofInt n := by
  obtain ⟨ds, heq, hin, hd⟩ := numberToStringSigned_integer n
  have hsm : decimal ds < 2 ^ 53 := by omega
  rw [heq, Conversion.number]
  by_cases hneg : n < 0
  · have hn : -(decimal ds : Int) = n := by omega
    have hne : decimal ds ≠ 0 := by omega
    simp only [if_pos hneg, singleton_append, head?_cons, if_true, tail_cons,
      Conversion.ofSigned, conversion.parseDouble_negative hin hsm, if_neg hne, hn]
    split <;> rfl
  · have hn : (decimal ds : Int) = n := by omega
    have hh : ds.head? ≠ some 0x2D := by
      cases hin with
      | zero => simp
      | digits hlo _ _ =>
        intro h
        cases h
        omega
    simp only [if_neg hneg, nil_append, if_neg hh, Conversion.ofSigned,
      conversion.parseDouble_natural hin hsm, hn]
    split <;> rfl

theorem putProperty_append {α : Type} {name : Text} (value : α) {ps : List (Text × α)}
    (h : ∀ p ∈ ps, Before p.1 name) :
    putProperty name value ps = ps ++ [(name, value)] := by
  unfold putProperty
  unfold Before at h
  split
  · rename_i index hix
    simp only [hix] at h
    induction ps with
    | nil => rfl
    | cons p ps ih =>
      obtain ⟨i, hi, hlt⟩ := h p mem_cons_self
      simp only [putDirectIndex, hi, if_pos hlt, cons_append]
      rw [ih fun q hq => h q (mem_cons_of_mem p hq)]
  · rename_i hn
    simp only [hn] at h
    induction ps with
    | nil => rfl
    | cons p ps ih =>
      simp only [putDirect, if_neg (h p mem_cons_self), cons_append]
      rw [ih fun q hq => h q (mem_cons_of_mem p hq)]

mutual

theorem evaluate_phrase :
    ∀ v : Value Double, v.Plain → evaluate conversion (phrase v) = kept conversion v
  | .undefined, _ | .null, _ | .boolean _, _ | .string _, _ | .symbol, _ | .function, _ => rfl
  | .int32 n, hp => by
    rw [phrase, kept, evaluate, conversion_int32 hp.1 hp.2]
  | .double _, hp | .bigInt, hp => hp.elim
  | .array _ vs, hp => by rw [phrase, kept, evaluate, evaluate_phraseElements vs hp]
  | .object _ ms, hp => by
    rw [phrase, kept, evaluate, evaluate_phraseMembers ms [] hp.2 hp.1 (by simp), nil_append]

theorem evaluate_phraseElements : ∀ vs : List (Value Double), PlainElements vs →
    evaluateElements conversion (phraseElements vs) = keptElements conversion vs
  | [], _ => rfl
  | v :: vs, hp => by
    rw [phraseElements, keptElements, evaluateElements, evaluate_phrase v hp.1,
      evaluate_phraseElements vs hp.2]

/-- Each member that is kept comes last. -/
theorem evaluate_phraseMembers : ∀ (ms : List (WTFString × Value Double))
    (ps : List (Text × JSValue Double)), PlainMembers ms →
    (ms.map (·.1.characters)).Pairwise Before →
    (∀ p ∈ ps, ∀ m ∈ ms, Before p.1 m.1.characters) →
    evaluateMembers conversion (phraseMembers ms) ps = ps ++ keptMembers conversion ms
  | [], ps, _, _, _ => (append_nil ps).symm
  | (name, v) :: ms, ps, hpl, ho, hb => by
    rw [map_cons, pairwise_cons] at ho
    rw [phraseMembers, keptMembers]
    split
    · exact evaluate_phraseMembers ms ps hpl.2 ho.2
        fun p hp m hm => hb p hp m (mem_cons_of_mem _ hm)
    rw [evaluateMembers, evaluate_phrase v hpl.1,
      putProperty_append _ fun p hp => hb p hp (name, v) mem_cons_self,
      evaluate_phraseMembers ms _ hpl.2 ho.2 ?_, append_assoc, singleton_append]
    intro p hp m hm
    obtain hp | hp := mem_append.mp hp
    · exact hb p hp m (mem_cons_of_mem _ hm)
    · obtain rfl := mem_singleton.mp hp
      exact ho.1 _ (mem_map.mpr ⟨m, hm, rfl⟩)

end

end

/-! ## The gap -/

/-- Removes the white space outside strings. -/
def stripWhiteSpace : (inString : Bool) → Text → Text
  | _, [] => []
  | false, c :: r =>
    if isWhiteSpace c then stripWhiteSpace false r else c :: stripWhiteSpace (c == 0x22) r
  | true, [c] => [c]
  | true, c :: d :: r =>
    if c = 0x5C then c :: d :: stripWhiteSpace true r
    else c :: stripWhiteSpace (c != 0x22) (d :: r)

theorem strip_blank {w : Text} (h : Blank w) (r : Text) :
    stripWhiteSpace false (w ++ r) = stripWhiteSpace false r := by
  induction w with
  | nil => rfl
  | cons c w ih =>
    rw [cons_append, stripWhiteSpace, if_pos (h c mem_cons_self)]
    exact ih fun d hd => h d (mem_cons_of_mem c hd)

/-- Characters that are neither white space nor quotes stay. -/
theorem strip_plain {x : Text} (h : ∀ c ∈ x, isWhiteSpace c = false ∧ c ≠ 0x22) (r : Text) :
    stripWhiteSpace false (x ++ r) = x ++ stripWhiteSpace false r := by
  induction x with
  | nil => rfl
  | cons c x ih =>
    obtain ⟨hs, hq⟩ := h c mem_cons_self
    rw [cons_append, stripWhiteSpace, if_neg (by simp [hs]),
      beq_eq_false_iff_ne.mpr hq, ih fun d hd => h d (mem_cons_of_mem c hd),
      cons_append]

theorem strip_unit {c : Nat} (hq : c ≠ 0x22) (hes : c ≠ 0x5C) (r : Text) :
    stripWhiteSpace true (c :: r) = c :: stripWhiteSpace true r := by
  cases r with
  | nil => simp [stripWhiteSpace]
  | cons d r => rw [stripWhiteSpace, if_neg hes, bne_iff_ne.mpr hq]

theorem hexDigit_bounds {n : Nat} (h : n < 16) : hexDigit n ≠ 0x22 ∧ hexDigit n ≠ 0x5C := by
  revert n
  decide

theorem strip_hexEscape {c : Nat} (hc : c < 2 ^ 16) (r : Text) :
    stripWhiteSpace true (hexEscape c ++ r) = hexEscape c ++ stripWhiteSpace true r := by
  have hd {n : Nat} (hn : n < 16) (r : Text) :
      stripWhiteSpace true (hexDigit n :: r) = hexDigit n :: stripWhiteSpace true r :=
    strip_unit (hexDigit_bounds hn).1 (hexDigit_bounds hn).2 r
  simp only [hexEscape, upperNibbleToLowercaseASCIIHexDigit, lowerNibbleToLowercaseASCIIHexDigit,
    cons_append, nil_append]
  rw [stripWhiteSpace, if_pos rfl, hd (by omega), hd (by omega), hd (by omega), hd (by omega)]

theorem strip_written {s w : Text} (h : Wtf.Written s w) (r : Text) :
    stripWhiteSpace true (w ++ 0x22 :: r) = w ++ 0x22 :: stripWhiteSpace false r := by
  induction h with
  | nil => cases r <;> rfl
  | plain _ hq hes _ _ ih =>
    rw [cons_append, strip_unit hq hes, ih]
    rfl
  | escape _ _ ih =>
    rw [cons_append, cons_append, stripWhiteSpace, if_pos rfl, ih]
    rfl
  | hex hc _ ih => rw [append_assoc, strip_hexEscape hc, ih, append_assoc]
  | pair hl ht _ ih =>
    have hp {c : Nat} (h : 0xD800 ≤ c) (r : Text) :
        stripWhiteSpace true (c :: r) = c :: stripWhiteSpace true r :=
      strip_unit (by omega) (by omega) r
    simp only [isLead, isTrail, Bool.and_eq_true, decide_eq_true_eq] at hl ht
    rw [cons_append, cons_append, hp hl.1, hp (by omega), ih]
    rfl

theorem strip_quoted (string : WTFString) (r : Text) :
    stripWhiteSpace false (quoted string.characters ++ r) =
      quoted string.characters ++ stripWhiteSpace false r := by
  rw [quoted, append_assoc, cons_append, stripWhiteSpace, if_neg (by decide)]
  have := strip_written (written string.units) r
  simpa using this

theorem strip_char {c : Nat} (r : Text) (hs : isWhiteSpace c = false) (hq : c ≠ 0x22) :
    stripWhiteSpace false (c :: r) = c :: stripWhiteSpace false r :=
  strip_plain (x := [c]) (by simp [hs, hq]) r

theorem strip_numeral (n : Int) (r : Text) :
    stripWhiteSpace false (numberToStringSigned n ++ r) =
      numberToStringSigned n ++ stripWhiteSpace false r := by
  obtain ⟨ds, heq, hin, -⟩ := numberToStringSigned_integer n
  rw [heq]
  apply strip_plain
  intro c hc
  obtain hc | hc := mem_append.mp hc
  · split at hc
    · obtain rfl := mem_singleton.mp hc
      decide
    · cases hc
  · have hd : 0x30 ≤ c ∧ c ≤ 0x39 := by
      simpa [isDigit] using integer_digits hin c hc
    refine ⟨?_, by omega⟩
    simp only [isWhiteSpace, Bool.or_eq_false_iff, beq_eq_false_iff_ne]
    omega

section

variable {fmt : NumberFormat Double} {gap : Text}

theorem newLine_nil (d : Nat) : newLine [] d = [] := rfl

theorem strip_separator (first : Bool) (r : Text) :
    stripWhiteSpace false (separator first ++ r) = separator first ++ stripWhiteSpace false r := by
  cases first <;> rfl

theorem blank_ite (hgap : Blank gap) (d : Nat) (p : Prop) [Decidable p] :
    Blank (if p then [] else newLine gap d) := by
  split
  · intro c hc
    cases hc
  · exact blank_newLine hgap d

mutual

theorem strip_text (hgap : Blank gap) (d d' : Nat) : ∀ (v : Value Double) (r : Text),
    v.Plain → stripWhiteSpace false (text fmt gap d v ++ r) =
      text fmt [] d' v ++ stripWhiteSpace false r
  | .undefined, r, _ | .null, r, _ | .symbol, r, _ | .function, r, _ =>
    strip_plain (x := null) (by decide) r
  | .boolean b, r, _ => strip_plain (x := if b then true_ else false_) (by cases b <;> decide) r
  | .int32 n, r, _ => strip_numeral n r
  | .double _, _, hp | .bigInt, _, hp => hp.elim
  | .string s, r, _ => strip_quoted s r
  | .array _ vs, r, hp => by
    simp only [text, cons_append, append_assoc, nil_append]
    rw [strip_char _ (by decide) (by decide), strip_elements hgap (d + 1) (d' + 1) true vs _ hp,
      strip_blank (blank_ite hgap d _), strip_char _ (by decide) (by decide), newLine_nil, ite_self,
      nil_append]
  | .object _ ms, r, hp => by
    simp only [text, cons_append, append_assoc, nil_append]
    rw [strip_char _ (by decide) (by decide), strip_members hgap (d + 1) (d' + 1) true ms _ hp.2,
      strip_blank (blank_ite hgap d _), strip_char _ (by decide) (by decide), newLine_nil, ite_self,
      nil_append]

theorem strip_elements (hgap : Blank gap) (d d' : Nat) (first : Bool) :
    ∀ (vs : List (Value Double)) (r : Text), PlainElements vs →
      stripWhiteSpace false (elementsText fmt gap d first vs ++ r) =
        elementsText fmt [] d' first vs ++ stripWhiteSpace false r
  | [], _, _ => rfl
  | v :: vs, r, hp => by
    simp only [elementsText, append_assoc]
    rw [strip_separator, strip_blank (blank_newLine hgap d), strip_text hgap d d' v _ hp.1,
      strip_elements hgap d d' false vs r hp.2, newLine_nil, nil_append]

theorem strip_members (hgap : Blank gap) (d d' : Nat) (first : Bool) :
    ∀ (ms : List (WTFString × Value Double)) (r : Text), PlainMembers ms →
      stripWhiteSpace false (membersText fmt gap d first ms ++ r) =
        membersText fmt [] d' first ms ++ stripWhiteSpace false r
  | [], _, _ => rfl
  | (name, v) :: ms, r, hp => by
    rw [membersText, membersText]
    split
    · exact strip_members hgap d d' first ms r hp.2
    · simp only [append_assoc, cons_append, nil_append]
      rw [strip_separator, strip_blank (blank_newLine hgap d), strip_quoted,
        strip_char _ (by decide) (by decide), strip_blank blank_afterColon,
        strip_text hgap d d' v _ hp.1, strip_members hgap d d' false ms r hp.2]
      rfl

end

/-- For a plain value and a gap of spaces, the text parses back to what is kept of the value, and
the text without a gap is the same text without the white space. -/
theorem stringify_roundTrip (charType : CharType) (conversion : Conversion Double)
    (format : NumberFormat Double) (v : Value Double) (spaces : Nat) (hwritable : v.Writable [])
    (hplain : v.Plain) :
    if v.dropped then
      Yields (stringify format (replicate spaces 0x20) v) (· = .undefined)
    else
      ∃ t, Yields (stringify format (replicate spaces 0x20) v) (fun outcome =>
          outcome = .text t ∨ outcome = .outOfMemory ∧
            2 ^ 30 < demand format (replicate spaces 0x20) 0 v) ∧
        Yields (tryLiteralParse charType .strictJSON conversion t)
          (· = .value (kept conversion v)) ∧
        Yields (stringify format [] v) (fun outcome =>
          outcome = .text (stripWhiteSpace false t) ∨
            outcome = .outOfMemory ∧ 2 ^ 30 < demand format [] 0 v) := by
  have hgap : Blank (replicate spaces 0x20) := by
    intro c hc
    rw [eq_of_mem_replicate hc]
    rfl
  split
  · rename_i hdropped
    exact stringify_dropped hdropped
  rename_i hkept
  rw [Bool.not_eq_true] at hkept
  refine ⟨text format (replicate spaces 0x20) 0 v, stringify_text hwritable hkept, ?_, ?_⟩
  · have hderives : Derives format (replicate spaces 0x20) v := derives hgap v
    have hvalue := hderives hplain 0 []
    rw [append_nil] at hvalue
    rw [← evaluate_phrase v hplain]
    exact tryLiteralParse_complete (.inl ⟨.none _, hvalue, .none _⟩)
  · have hstrip : stripWhiteSpace false (text format (replicate spaces 0x20) 0 v ++ []) =
        text format [] 0 v ++ [] := strip_text hgap 0 0 v [] hplain
    rw [append_nil, append_nil] at hstrip
    rw [hstrip]
    exact stringify_text hwritable hkept

end

/-- A member that is dropped between two that are not, and an element that becomes null. -/
theorem stringify_roundTrip_members :
    let name (c : Nat) (h : c < 2 ^ 8) : WTFString :=
      ⟨[c], true, by simp; omega, fun _ => by simpa using h⟩
    let v : Value Int := .object 0
      [(name 0x61 (by decide), .int32 (-3)), (name 0x62 (by decide), .undefined),
        (name 0x63 (by decide), .array 1 [.function, .object 2 []])]
    let format : NumberFormat Int := ⟨fun _ => false, fun _ => [], by simp⟩
    ∃ t, Yields (stringify format [0x20] v) (· = .text t) ∧
      Yields (tryLiteralParse .lchar .strictJSON integerConversion t)
        (· = .value (.object none [([0x61], .number (-3)),
          ([0x63], .array [.null, .object none []])])) := by
  intro name v format
  have hwritable : v.Writable [] := by
    simp [v, Value.Writable, WritableMembers, WritableElements, Value.callsToJSON, name, toJSONName]
  have hplain : v.Plain := by
    simp [v, Value.Plain, PlainMembers, PlainElements, name, Before, parseIndex, isDigit]
  obtain ⟨t, htext, hparse, -⟩ :=
    stringify_roundTrip .lchar integerConversion format v 1 hwritable hplain
  refine ⟨t, htext.mono fun outcome h => h.resolve_right fun hlarge => ?_, hparse⟩
  have hsmall : demand format [0x20] 0 v ≤ 2 ^ 30 := by
    simp [v, demand, demandMembers, demandElements, text, newLine, repeated, numberToStringSigned,
      numberToStringImpl, name, null]
  exact absurd hlarge.2 (Nat.not_lt.mpr hsmall)

end JavaScriptCore.Stringifier
