import Mathlib.Data.Nat.Digits.Lemmas
import JavaScriptCore.Runtime.LiteralParser.ParserSpec

/-!
# Strict parsing of a whole text

`JSON.parse` without a reviver: `tryLiteralParse` in strict mode. What it accepts is a value of
the grammar, optionally followed by one semicolon, and what it returns is the tree the text
denotes.
-/

namespace JavaScriptCore.LiteralParser

open Json ProgramLogic Budgeted List

variable {Double : Type}

/-! ## Property lists -/

/-- The digits of an index, as `Nat.digits` has them. -/
def indexDigits (name : Text) : List Nat := name.reverse.map (· - 0x30)

theorem decimal_append (ds : Text) (c : Nat) :
    decimal (ds ++ [c]) = decimal ds * 10 + (c - 0x30) := by
  simp [decimal]

theorem decimal_eq_ofDigits (ds : Text) : decimal ds = Nat.ofDigits 10 (indexDigits ds) := by
  induction ds using reverseRecOn with
  | nil => rfl
  | append_singleton ds c ih =>
    rw [decimal_append, ih, indexDigits, indexDigits, reverse_append, reverse_singleton,
      singleton_append, map_cons, Nat.ofDigits_cons]
    omega

variable {index : Nat} {a : Text} {α : Type}

theorem parseIndexFrom_eq_some {v : Nat} {rest : Text} (h : parseIndexFrom v rest = some index) :
    (∀ c ∈ rest, isDigit c = true) ∧ index = rest.foldl (fun n c => n * 10 + (c - 0x30)) v := by
  induction rest generalizing v with
  | nil =>
    rw [parseIndexFrom] at h
    split at h
    · cases h
      simp
    · cases h
  | cons c rest ih =>
    rw [parseIndexFrom] at h
    split at h
    · cases h
    split at h
    · cases h
    rename_i hdg
    dsimp only at h
    split at h
    · cases h
    obtain ⟨hr, rfl⟩ := ih h
    refine ⟨?_, rfl⟩
    intro d hd
    obtain rfl | hd := mem_cons.mp hd
    · simpa using hdg
    · exact hr d hd

/-- An index is written in decimal, without leading zeros. -/
theorem parseIndex_eq_some {name : Text} (h : parseIndex name = some index) :
    Integer name ∧ index = decimal name := by
  cases name with
  | nil => cases h
  | cons c rest =>
    rw [parseIndex] at h
    split at h
    · cases h
    split at h
    · cases h
    rename_i hd hz
    obtain ⟨hr, rfl⟩ := parseIndexFrom_eq_some h
    refine ⟨?_, by simp [decimal]⟩
    have hc : 0x30 ≤ c ∧ c ≤ 0x39 := by simpa [isDigit] using hd
    by_cases hc0 : c = 0x30
    · obtain rfl : rest = [] := by
        by_contra hne
        exact hz ⟨hc0, hne⟩
      subst hc0
      exact .zero
    · exact .digits (by omega) hc.2 hr

theorem integer_digits_valid (ha : Integer a) : ∀ d ∈ indexDigits a, d < 10 := by
  intro d hd
  obtain ⟨c, hc, rfl⟩ := mem_map.mp hd
  have hr : 0x30 ≤ c ∧ c ≤ 0x39 := by
    simpa [isDigit] using integer_digits ha c (mem_reverse.mp hc)
  omega

theorem indexDigits_injective {b : Text} (ha : Integer a) (hb : Integer b)
    (h : indexDigits a = indexDigits b) : a = b := by
  have hco {t : Text} (ht : Integer t) : (indexDigits t).reverse.map (· + 0x30) = t := by
    rw [indexDigits, ← map_reverse, reverse_reverse, map_map]
    refine (map_congr_left fun c hc => ?_).trans (map_id t)
    have hr : 0x30 ≤ c ∧ c ≤ 0x39 := by simpa [isDigit] using integer_digits ht c hc
    simp only [Function.comp_apply, id_eq]
    omega
  rw [← hco ha, ← hco hb, h]

theorem digits_decimal {d : Nat} {ds : Text} (hd : 0x31 ≤ d) (h : Integer (d :: ds)) :
    Nat.digits 10 (decimal (d :: ds)) = indexDigits (d :: ds) := by
  rw [decimal_eq_ofDigits]
  refine Nat.digits_ofDigits 10 (by decide) _ (integer_digits_valid h) fun hne => ?_
  simp only [indexDigits, getLast_map, getLast_reverse, head_cons]
  omega

theorem decimal_ne_zero {d : Nat} {ds : Text} (hd : 0x31 ≤ d) (h : Integer (d :: ds)) :
    decimal (d :: ds) ≠ 0 := by
  intro hz
  have := digits_decimal hd h
  rw [hz, Nat.digits_zero] at this
  simp [indexDigits] at this

/-- Different names are different indices. -/
theorem integer_injective {b : Text} (ha : Integer a) (hb : Integer b)
    (h : decimal a = decimal b) : a = b := by
  cases ha with
  | zero =>
    cases hb with
    | zero => rfl
    | digits hlo hhi hds => exact absurd h.symm (decimal_ne_zero hlo (.digits hlo hhi hds))
  | digits hlo hhi hds =>
    have ha := Integer.digits hlo hhi hds
    cases hb with
    | zero => exact absurd h (decimal_ne_zero hlo ha)
    | digits hlo' hhi' hds' =>
      have hb := Integer.digits hlo' hhi' hds'
      apply indexDigits_injective ha hb
      rw [← digits_decimal hlo ha, ← digits_decimal hlo' hb, h]

theorem lookup_pair (k key : Text) (v : α) (ps : List (Text × α)) : ((k, v) :: ps).lookup key =
      if key = k then some v else ps.lookup key := by
  rw [lookup_cons]
  split_ifs with h
  · rw [beq_iff_eq.mpr h]
  · rw [beq_eq_false_iff_ne.mpr h]

theorem lookup_putDirect (name : Text) (v : α) (ps : List (Text × α)) (key : Text) :
    (putDirect name v ps).lookup key = if key = name then some v else ps.lookup key := by
  induction ps with
  | nil => rw [putDirect, lookup_pair]
  | cons p ps ih =>
    obtain ⟨k, old⟩ := p
    rw [putDirect]
    split
    · rename_i h
      subst h
      rw [lookup_pair, lookup_pair]
      split <;> rfl
    · rename_i h
      rw [lookup_pair, lookup_pair, ih]
      by_cases hk : key = k
      · subst hk
        rw [if_pos rfl, if_neg h, if_pos rfl]
      · rw [if_neg hk, if_neg hk]

theorem lookup_putDirectIndex {name : Text}
    (hn : parseIndex name = some index) (v : α) (ps : List (Text × α)) (key : Text) :
    (putDirectIndex name index v ps).lookup key = if key = name then some v else ps.lookup key := by
  induction ps with
  | nil => rw [putDirectIndex, lookup_pair]
  | cons p ps ih =>
    obtain ⟨k, old⟩ := p
    rw [putDirectIndex]
    split
    · rename_i other ho
      split
      · have hne : k ≠ name := by
          rintro rfl
          rw [hn] at ho
          cases ho
          omega
        rw [lookup_pair, lookup_pair, ih]
        by_cases hk : key = k
        · subst hk
          rw [if_pos rfl, if_neg hne, if_pos rfl]
        · rw [if_neg hk, if_neg hk]
      · split
        · rename_i heq
          subst heq
          obtain ⟨ha, hda⟩ := parseIndex_eq_some ho
          obtain ⟨hb, hdb⟩ := parseIndex_eq_some hn
          obtain rfl := integer_injective ha hb (hda.symm.trans hdb)
          rw [lookup_pair, lookup_pair]
          split <;> rfl
        · rw [lookup_pair]
    · rw [lookup_pair]

theorem lookup_putProperty (name : Text) (v : α) (ps : List (Text × α)) (key : Text) :
    (putProperty name v ps).lookup key = if key = name then some v else ps.lookup key := by
  unfold putProperty
  split
  · rename_i hi
    exact lookup_putDirectIndex hi v ps key
  · exact lookup_putDirect name v ps key

/-! ## The tree of a value -/

mutual

/-- What a value stands for: prototypes and the order of properties are left out. -/
def JSValue.tree : JSValue Double → Meaning Double
  | .null => .null
  | .boolean b => .boolean b
  | .number v => .number v
  | .string s => .string s
  | .array vs => .array (treeElements vs)
  | .object _ properties => .object fun key => (treeProperties properties).lookup key

def treeElements : List (JSValue Double) → List (Meaning Double)
  | [] => []
  | v :: vs => v.tree :: treeElements vs

def treeProperties : List (Text × JSValue Double) → List (Text × Meaning Double)
  | [] => []
  | (key, v) :: properties => (key, v.tree) :: treeProperties properties

end

theorem lookup_treeProperties (ps : List (Text × JSValue Double)) (key : Text) :
    (treeProperties ps).lookup key = (ps.lookup key).map JSValue.tree := by
  induction ps with
  | nil => rfl
  | cons p ps ih =>
    obtain ⟨k, v⟩ := p
    rw [treeProperties, lookup_pair, lookup_pair, ih]
    split <;> rfl

theorem lookup_append {α : Type} (key : Text) (ps qs : List (Text × α)) :
    (ps ++ qs).lookup key = (ps.lookup key).or (qs.lookup key) := by
  induction ps with
  | nil => rfl
  | cons p ps ih =>
    obtain ⟨k, v⟩ := p
    rw [cons_append, lookup_pair, lookup_pair, ih]
    split <;> rfl

mutual

theorem evaluate_tree (cv : Conversion Double) :
    ∀ j : Phrase, (evaluate cv j).tree = j.denote cv.number
  | .null | .boolean _ | .number _ | .string _ => rfl
  | .array js => by
    rw [evaluate, JSValue.tree, Phrase.denote, evaluateElements_tree cv js]
  | .object ms => by
    rw [evaluate, JSValue.tree, Phrase.denote]
    congr 1
    funext key
    rw [lookup_treeProperties, evaluateMembers_lookup cv ms []]
    simp

theorem evaluateElements_tree (cv : Conversion Double) :
    ∀ js : List Phrase, treeElements (evaluateElements cv js) = denoteElements cv.number js
  | [] => rfl
  | j :: js => by
    rw [evaluateElements, treeElements, denoteElements, evaluate_tree cv j,
      evaluateElements_tree cv js]

/-- The last member with a key wins, and every key that has none is left as it was. -/
theorem evaluateMembers_lookup (cv : Conversion Double) :
    ∀ (ms : List (Text × Phrase)) (ps : List (Text × JSValue Double)) {key : Text},
      ((evaluateMembers cv ms ps).lookup key).map JSValue.tree =
        ((denoteMembers cv.number ms).reverse.lookup key).or ((ps.lookup key).map JSValue.tree)
  | [], ps, key => by simp [evaluateMembers, denoteMembers]
  | (k, j) :: ms, ps, key => by
    rw [evaluateMembers, evaluateMembers_lookup cv ms, denoteMembers, reverse_cons,
      lookup_append, Option.or_assoc, lookup_putProperty, lookup_pair, lookup_nil]
    split_ifs with h
    · rw [Option.map_some, evaluate_tree cv j, Option.some_or]
    · rw [Option.none_or]

end

/-! ## Whole texts -/

section

variable {ct : CharType} {cv : Conversion Double}

variable {text r : Text} {j : Phrase}

theorem yields_tryLiteralParse {v : JSValue Double} {post : Outcome Double → Prop}
    (h : Delivers ct cv text v r) (hp : ∀ lexer, At ct cv lexer r →
      post (Parsed.result ct .strictJSON cv ⟨.value v, lexer⟩)) :
    Yields (tryLiteralParse ct .strictJSON cv text) post := by
  apply yields_bind
  apply h _ _ rfl (at_next _)
  intro lexer hat
  exact yields_pure (hp lexer hat)

theorem lexes_end (ct : CharType) (cv : Conversion Double) {s : Text} :
    (lex ct .strictJSON cv s).token = .endOfText ↔ WhiteSpace s [] := by
  constructor
  · intro h
    have hlex : Lexes ct cv s .endOfText _ := ⟨h, rfl⟩
    obtain ⟨t, hs, rfl, -⟩ := hlex.reads
    exact hs
  · intro h
    rw [lex_whiteSpace ct cv h]
    rfl

theorem lexes_semi (ct : CharType) (cv : Conversion Double) {s : Text} :
    Lexes ct cv s (.punctuator .semi) r ↔ WhiteSpace s (0x3B :: r) :=
  ⟨Lexes.whiteSpace, lexes_punctuator .semi⟩

theorem skipSemi_end_iff {lexer : Lexer Double} (hat : At ct cv lexer r) :
    (lexer.skipSemi ct .strictJSON cv).currentToken = .endOfText ↔
      WhiteSpace r [] ∨ ∃ u, WhiteSpace r (0x3B :: u) ∧ WhiteSpace u [] := by
  simp only [← lexes_end ct cv, ← lexes_semi ct cv, Lexes, ← hat.token, ← hat.input]
  unfold Lexer.skipSemi
  split
  · rename_i hs
    simp [hs, Lexer.next]
  · rename_i hs
    refine ⟨.inl, ?_⟩
    rintro (hend | ⟨u, ⟨h, -⟩, -⟩)
    · exact hend
    · exact absurd h hs

variable (parsed : Parsed Double)

theorem result_value_iff (w : JSValue Double) :
    parsed.result ct .strictJSON cv = .value w ↔
      (parsed.lexer.skipSemi ct .strictJSON cv).currentToken = .endOfText ∧
        parsed.outcome = .value w := by
  unfold Parsed.result
  dsimp only
  split <;> simp_all

theorem result_crash_iff :
    parsed.result ct .strictJSON cv = .crash ↔ parsed.outcome = .crash := by
  unfold Parsed.result
  dsimp only
  split <;> simp_all

/-- A document, or one that a semicolon follows. -/
def Accepted (text : Text) (j : Phrase) : Prop :=
  Document text j ∨ ∃ r, Element text j (0x3B :: r) ∧ WhiteSpace r []

theorem accepted_iff (text : Text) (j : Phrase) :
    Accepted text j ↔ ∃ t r, WhiteSpace text t ∧ Value t j r ∧
      (WhiteSpace r [] ∨ ∃ u, WhiteSpace r (0x3B :: u) ∧ WhiteSpace u []) := by
  constructor
  · rintro (⟨ht, hv, hr⟩ | ⟨u, ⟨ht, hv, hr⟩, hu⟩)
    · exact ⟨_, _, ht, hv, .inl hr⟩
    · exact ⟨_, _, ht, hv, .inr ⟨u, hr, hu⟩⟩
  · rintro ⟨t, r, ht, hv, hr | ⟨u, hr, hu⟩⟩
    · exact .inl ⟨ht, hv, hr⟩
    · exact .inr ⟨u, ⟨ht, hv, hr⟩, hu⟩

theorem tryLiteralParse_complete (h : Accepted text j) :
    Yields (tryLiteralParse ct .strictJSON cv text) (· = .value (evaluate cv j)) := by
  obtain ⟨t, r, ht, hv, hr⟩ := (accepted_iff text j).mp h
  have hend : NumberEnd r := by
    obtain hr | ⟨u, hr, -⟩ := hr
    · exact numberEnd_of_whiteSpace hr (by rintro c ⟨⟩)
    · exact numberEnd_of_whiteSpace hr (numberEnd_punctuator .semi u (by decide))
  apply yields_tryLiteralParse ((value_delivered hv hend).of_whiteSpace ht)
  intro lexer hat
  exact (result_value_iff _ _).mpr ⟨(skipSemi_end_iff hat).mpr hr, rfl⟩

theorem tryLiteralParse_sound (ct : CharType) (cv : Conversion Double) (text : Text) :
    Yields (tryLiteralParse ct .strictJSON cv text) fun out =>
      out ≠ .crash ∧ ∀ v, out = .value v → ∃ j, Accepted text j ∧ v = evaluate cv j := by
  obtain ⟨t, j, r, ht, hv, -, hd⟩ | hf := (parse_total ct cv text).1
  · apply yields_tryLiteralParse hd
    intro lexer hat
    refine ⟨fun h => (nomatch (result_crash_iff _).mp h), fun v hva => ?_⟩
    obtain ⟨hend, ho⟩ := (result_value_iff _ _).mp hva
    cases ho
    exact ⟨j, (accepted_iff text j).mpr ⟨t, r, ht, hv, (skipSemi_end_iff hat).mp hend⟩, rfl⟩
  · apply yields_bind
    refine (hf _ rfl (at_next _)).mono fun parsed hp => yields_pure ?_
    obtain ⟨message, hm⟩ := hp
    refine ⟨fun h => ?_, fun v hva => ?_⟩
    · rw [(result_crash_iff _).mp h] at hm
      cases hm
    · rw [((result_value_iff _ _).mp hva).2] at hm
      cases hm

/-- The tree of what is returned. -/
def Outcome.tree : Outcome Double → Option (Meaning Double)
  | .value v => some v.tree
  | .failure _ | .crash => none

/-- On this text the strict parser is right: it succeeds exactly on a document, with the tree that
the document denotes. -/
def Faithful (charType : CharType) (conversion : Conversion Double) (text : Text) : Prop :=
  Yields (tryLiteralParse charType .strictJSON conversion text) fun outcome =>
    outcome ≠ .crash ∧
      ∀ tree, outcome.tree = some tree ↔
        ∃ j, Document text j ∧ tree = j.denote conversion.number

theorem Outcome.tree_eq_some {out : Outcome Double} {tree : Meaning Double} :
    out.tree = some tree ↔ ∃ v, out = .value v ∧ v.tree = tree := by
  cases out <;> simp [Outcome.tree]

/-- The token behind the value at the front of a text. -/
theorem yields_token_behind (ct : CharType) {t : Text} {token : Token Double}
    (ht : WhiteSpace text t) (hv : Value t j r) (hr : NumberEnd r)
    (htk : (lex ct .strictJSON cv r).token = token) :
    Yields (parse ct .strictJSON cv
      ⟨.startParseExpression, Lexer.next ct .strictJSON cv ⟨text, .error, []⟩,
        [], none, [], []⟩) (fun parsed => parsed.lexer.currentToken = token) := by
  apply (value_delivered hv hr).of_whiteSpace ht _ _ rfl (at_next _)
  intro lexer hat
  exact hat.token.trans htk

/-- No document is also a document that a semicolon follows: the machine has one run. -/
theorem document_not_followed (ct : CharType) (cv : Conversion Double) {j' : Phrase}
    (h : Document text j) (h' : Element text j' (0x3B :: r)) :
    False := by
  obtain ⟨ht, hv, hu⟩ := h
  obtain ⟨ht', hv', hu'⟩ := h'
  have hend := yields_token_behind ct ht hv
    (numberEnd_of_whiteSpace hu (by rintro c ⟨⟩)) ((lexes_end ct cv).mpr hu)
  have hs := yields_token_behind ct ht' hv'
    (numberEnd_of_whiteSpace hu' (numberEnd_punctuator .semi r (by decide)))
    ((lexes_semi ct cv).mpr hu').1
  obtain ⟨-, parsed, -, h, h'⟩ := hend.and hs
  rw [h] at h'
  cases h'

/-- The strict parser takes more than the JSON grammar exactly where a semicolon follows the value,
with only white space behind it. -/
theorem faithful_iff (charType : CharType) (conversion : Conversion Double) (text : Text) :
    Faithful charType conversion text ↔ ¬∃ j r, Element text j (0x3B :: r) ∧ WhiteSpace r [] := by
  constructor
  · rintro h ⟨j, r, helement, hr⟩
    have hvalue : Yields (tryLiteralParse charType .strictJSON conversion text)
        (· = .value (evaluate conversion j)) := tryLiteralParse_complete (.inr ⟨r, helement, hr⟩)
    obtain ⟨-, outcome, -, ⟨-, htree⟩, houtcome⟩ := h.and hvalue
    obtain ⟨j', hdocument, -⟩ := (htree (evaluate conversion j).tree).mp
      (Outcome.tree_eq_some.mpr ⟨_, houtcome, rfl⟩)
    exact document_not_followed charType conversion hdocument helement
  · intro h
    obtain ⟨n, outcome, hrun, hcrash, hsound⟩ := tryLiteralParse_sound charType conversion text
    refine ⟨n, outcome, hrun, hcrash, fun tree => ?_⟩
    rw [Outcome.tree_eq_some]
    constructor
    · rintro ⟨v, hv, rfl⟩
      obtain ⟨j, hdocument | ⟨r, helement, hr⟩, rfl⟩ := hsound v hv
      · exact ⟨j, hdocument, evaluate_tree conversion j⟩
      · exact absurd ⟨j, r, helement, hr⟩ h
    · rintro ⟨j, hdocument, rfl⟩
      exact ⟨_, (tryLiteralParse_complete (.inl hdocument)).of_run hrun, evaluate_tree conversion j⟩

end

/-- Numbers without fractions and exponents are their values. -/
def integerConversion : Conversion Int where
  ofInt n := n
  negativeZero := 0
  parseDouble t := if t.head? = some 0x2D then -(decimal t.tail : Int) else decimal t
  parseDouble_natural := by
    intro ds h _
    have hhead : ds.head? ≠ some 0x2D := by
      cases h with
      | zero => simp
      | digits hlo _ _ =>
        intro h
        cases h
        omega
    rw [if_neg hhead]
  parseDouble_negative := by
    intro ds _ _
    split <;> simp_all

/-- `1;` is no document, but it is parsed. -/
theorem tryLiteralParse_semicolon :
    (tryLiteralParse .lchar .strictJSON integerConversion [0x31, 0x3B]).run 2 =
        some (.value (.number 1)) ∧
      ¬∃ j, Document [0x31, 0x3B] j := by
  refine ⟨rfl, ?_⟩
  rintro ⟨j, h⟩
  have hnumber : Number [0x31] :=
    ⟨[], [0x31], [], [], rfl, .inl rfl, .digits (by decide) (by decide) (by simp), .none, .none⟩
  exact document_not_followed .lchar integerConversion h ⟨.none _, .number [0x3B] hnumber, .none _⟩

end JavaScriptCore.LiteralParser
