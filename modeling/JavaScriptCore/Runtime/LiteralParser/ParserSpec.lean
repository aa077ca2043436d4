import JavaScriptCore.Runtime.LiteralParser.LexerSpec
import JavaScriptCore.Runtime.LiteralParser.Parser

/-!
# The strict parser against the grammar

`Delivers s v r` says that the machine, about to read an expression at `s`, completes the value
`v` and stops in front of `r`; the stacks below are never looked at. The pieces compose as the
grammar does. From them come both directions: every derivation is delivered, and at every
position the machine either delivers a derivation or reports an error.
-/

namespace JavaScriptCore.LiteralParser

open Json ProgramLogic Budgeted Machine List

variable {Double : Type}

/-! ## The value of a phrase -/

mutual

/-- The value the parser builds. -/
def evaluate (conversion : Conversion Double) : Phrase → JSValue Double
  | .null => .null
  | .boolean b => .boolean b
  | .number t => .number (conversion.number t)
  | .string s => .string s
  | .array js => .array (evaluateElements conversion js)
  | .object ms => .object none (evaluateMembers conversion ms [])

def evaluateElements (conversion : Conversion Double) : List Phrase → List (JSValue Double)
  | [] => []
  | j :: js => evaluate conversion j :: evaluateElements conversion js

def evaluateMembers (conversion : Conversion Double) :
    List (Text × Phrase) → List (Text × JSValue Double) → List (Text × JSValue Double)
  | [], properties => properties
  | (key, j) :: ms, properties =>
    evaluateMembers conversion ms (putProperty key (evaluate conversion j) properties)

end

section

variable {ct : CharType} {cv : Conversion Double}

/-- The token at `s`, and what remains behind it. -/
def Lexes (charType : CharType) (conversion : Conversion Double) (s : Text)
    (token : Token Double) (r : Text) : Prop :=
  (lex charType .strictJSON conversion s).token = token ∧
    (lex charType .strictJSON conversion s).rest = r

/-- The lexer has read the token at `s`. -/
structure At (charType : CharType) (conversion : Conversion Double) (lexer : Lexer Double)
    (s : Text) : Prop where
  token : lexer.currentToken = (lex charType .strictJSON conversion s).token
  input : lexer.input = (lex charType .strictJSON conversion s).rest

theorem at_next (lexer : Lexer Double) :
    At ct cv (lexer.next ct .strictJSON cv) lexer.input := ⟨rfl, rfl⟩

variable {s r t u w key x : Text} {token : Token Double} {m : Machine Double}
  {post : Parsed Double → Prop} {v : JSValue Double} {elements : List (JSValue Double)}
  {objectStack : List (Container Double)} {properties : List (Text × JSValue Double)}
  {vis : Bool} {identifierStack : List Text} {j : Phrase} {type : Punctuator}

theorem At.lexed {lexer : Lexer Double} (h : At ct cv lexer s) (hlex : Lexes ct cv s token r) :
    lexer.currentToken = token ∧ lexer.input = r := by
  rw [h.token, h.input]
  exact hlex

/-- What holds when the machine goes on from here. -/
def Runs (charType : CharType) (conversion : Conversion Double) (post : Parsed Double → Prop) :
    Next Double → Prop
  | .inl m => Yields (parse charType .strictJSON conversion m) post
  | .inr parsed => post parsed

theorem yields_parse (h : Runs ct cv post (m.step ct .strictJSON cv)) :
    Yields (parse ct .strictJSON cv m) post := by
  apply yields_loop
  apply yields_pure
  revert h
  cases m.step ct .strictJSON cv <;> exact id

/-- From an expression at `s` the machine completes `v` in front of `r`. -/
def Delivers (charType : CharType) (conversion : Conversion Double) (s : Text)
    (v : JSValue Double) (r : Text) : Prop :=
  ∀ (m : Machine Double) (post : Parsed Double → Prop), m.state = .startParseExpression →
    At charType conversion m.lexer s →
    (∀ lexer, At charType conversion lexer r →
      Runs charType conversion post { m with lexer, lastValue := some v }.leave) →
    Yields (parse charType .strictJSON conversion m) post

def Failed (parsed : Parsed Double) : Prop := ∃ message, parsed.outcome = .failure message

def Fails (charType : CharType) (conversion : Conversion Double) (s : Text) : Prop :=
  ∀ (m : Machine Double), m.state = .startParseExpression → At charType conversion m.lexer s →
    Yields (parse charType .strictJSON conversion m) Failed

/-- The elements of an array behind its opening bracket or a comma, up to its end. -/
def DeliversElements (charType : CharType) (conversion : Conversion Double) (s : Text)
    (vs : List (JSValue Double)) (r : Text) : Prop :=
  ∀ (m : Machine Double) (post : Parsed Double → Prop) elements objectStack,
    m.state = .doParseArrayStartExpression → m.lexer.input = s →
    m.objectStack = .array elements :: objectStack →
    (∀ lexer, At charType conversion lexer r →
      Runs charType conversion post
        { m with lexer, objectStack, lastValue := some (.array (elements ++ vs)) }.leave) →
    Yields (parse charType .strictJSON conversion m) post

/-- The members of an object from a property name on, up to its end. -/
def DeliversMembers (charType : CharType) (conversion : Conversion Double) (s : Text)
    (put : List (Text × JSValue Double) → List (Text × JSValue Double)) (r : Text) : Prop :=
  ∀ (m : Machine Double) (post : Parsed Double → Prop) properties visited objectStack,
    At charType conversion m.lexer s →
    m.objectStack = .object none properties visited :: objectStack →
    (∀ lexer, At charType conversion lexer r →
      Runs charType conversion post
        { m with lexer, objectStack, lastValue := some (.object none (put properties)) }.leave) →
    ∀ expectedName expectedColon, Runs charType conversion post
      (m.propertyName charType .strictJSON conversion expectedName expectedColon)

/-- The value of a token that is one. -/
def literalValue : Token Double → Option (JSValue Double)
  | .null => some .null
  | .true => some (.boolean true)
  | .false => some (.boolean false)
  | .number v => some (.number v)
  | .string x => some (.string x)
  | _ => none

theorem parseExpression_value (hv : literalValue token = some v)
    (ht : m.lexer.currentToken = token) :
    m.parseExpression ct .strictJSON cv = m.literal ct .strictJSON cv v := by
  cases token <;> cases hv <;> simp only [parseExpression, ht]

theorem delivers_literal (hlex : Lexes ct cv s token r) (hv : literalValue token = some v) :
    Delivers ct cv s v r := by
  intro m post hs hat hr
  obtain ⟨ht, hi⟩ := hat.lexed hlex
  apply yields_parse
  rw [step, hs]
  simp only [parseExpression_value hv ht, literal]
  apply hr
  rw [← hi]
  exact at_next m.lexer

/-! ## Arrays -/

theorem parseArrayStart_of_ne
    (h : (m.next ct .strictJSON cv).lexer.currentToken ≠ .punctuator .rBracket) :
    m.parseArrayStart ct .strictJSON cv =
      .inl { m.next ct .strictJSON cv with
        stateStack := .doParseArrayEndExpression :: m.stateStack
        state := .startParseExpression } := by
  unfold parseArrayStart
  dsimp only
  split
  · exact absurd ‹_› h
  · exact absurd ‹_› h
  · rfl

variable (hfirst : (lex ct .strictJSON cv s).token ≠ .punctuator .rBracket)

include hfirst in
/-- One element: the machine comes to the end state with its value. -/
theorem yields_element (hv : Delivers ct cv s v t) (hs : m.state = .doParseArrayStartExpression)
    (hi : m.lexer.input = s) (hr : ∀ lexer, At ct cv lexer t →
      Runs ct cv post ({ m with lexer, lastValue := some v }.parseArrayEnd ct .strictJSON cv)) :
    Yields (parse ct .strictJSON cv m) post := by
  subst hi
  apply yields_parse
  rw [step, hs]
  rw [parseArrayStart_of_ne hfirst]
  apply hv _ _ rfl (at_next m.lexer)
  intro lexer hat
  apply yields_parse
  exact hr lexer hat

section

variable (hstack : m.objectStack = .array elements :: objectStack) (hl : m.lastValue = some v)

include hstack hl

theorem parseArrayEnd_close (ht : m.lexer.currentToken = .punctuator .rBracket) :
    m.parseArrayEnd ct .strictJSON cv = { m.next ct .strictJSON cv with
        lastValue := some (.array (elements ++ [v])), objectStack }.leave := by
  simp only [parseArrayEnd, hstack, hl, ht, close, Machine.next, Container.value]

theorem parseArrayEnd_comma (ht : m.lexer.currentToken = .punctuator .comma) :
    m.parseArrayEnd ct .strictJSON cv =
      .inl { m with objectStack := .array (elements ++ [v]) :: objectStack
                    state := .doParseArrayStartExpression } := by
  simp only [parseArrayEnd, hstack, hl, ht]

/-- Behind an element comes a bracket or a comma. -/
theorem parseArrayEnd_fails (hco : m.lexer.currentToken ≠ .punctuator .comma)
    (hc : m.lexer.currentToken ≠ .punctuator .rBracket) :
    Runs ct cv Failed (m.parseArrayEnd ct .strictJSON cv) := by
  simp only [parseArrayEnd, hstack, hl]
  exact ⟨_, rfl⟩

end

include hfirst in
theorem deliversElements_one (hv : Delivers ct cv s v t)
    (hc : Lexes ct cv t (.punctuator .rBracket) r) :
    DeliversElements ct cv s [v] r := by
  intro m post elements objectStack hs hi hstack hr
  apply yields_element hfirst hv hs hi
  intro lexer hat
  obtain ⟨ht, hn⟩ := hat.lexed hc
  rw [parseArrayEnd_close (m := { m with lexer, lastValue := some v }) hstack rfl ht]
  apply hr
  rw [← hn]
  exact at_next lexer

variable {vs : List (JSValue Double)}

include hfirst in
theorem deliversElements_cons (hv : Delivers ct cv s v t)
    (hc : Lexes ct cv t (.punctuator .comma) u) (hvs : DeliversElements ct cv u vs r) :
    DeliversElements ct cv s (v :: vs) r := by
  intro m post elements objectStack hs hi hstack hr
  apply yields_element hfirst hv hs hi
  intro lexer hat
  obtain ⟨ht, hn⟩ := hat.lexed hc
  rw [parseArrayEnd_comma (m := { m with lexer, lastValue := some v }) hstack rfl ht]
  apply hvs _ _ _ _ rfl hn rfl
  rw [append_assoc]
  exact hr

theorem yields_array (hs : m.state = .startParseExpression) (hat : At ct cv m.lexer s)
    (hopen : Lexes ct cv s (.punctuator .lBracket) r) (hr : Yields (parse ct .strictJSON cv
      { m with state := .doParseArrayStartExpression
               objectStack := .array [] :: m.objectStack }) post) :
    Yields (parse ct .strictJSON cv m) post := by
  obtain ⟨ht, -⟩ := hat.lexed hopen
  apply yields_parse
  simp only [step, hs, parseExpression, ht]
  apply yields_parse
  exact hr

variable (hopen : Lexes ct cv s (.punctuator .lBracket) t)

include hopen in
theorem delivers_array (hvs : DeliversElements ct cv t vs r) :
    Delivers ct cv s (.array vs) r := by
  intro m post hs hat hr
  apply yields_array hs hat hopen
  exact hvs _ _ [] m.objectStack rfl (hat.lexed hopen).2 rfl hr

include hopen in
theorem delivers_emptyArray (hc : Lexes ct cv t (.punctuator .rBracket) r) :
    Delivers ct cv s (.array []) r := by
  intro m post hs hat hr
  obtain ⟨ht, rfl⟩ := hat.lexed hopen
  apply yields_array hs hat hopen
  obtain ⟨ht', hi'⟩ := (at_next m.lexer).lexed hc
  apply yields_parse
  simp only [step, parseArrayStart, Machine.next, ht, ht', close]
  apply hr
  rw [← hi']
  exact at_next _

/-! ## Objects -/

/-- One member: the machine comes to the end state with its name and value. -/
theorem runs_member (hat : At ct cv m.lexer s) (hkey : Lexes ct cv s (.string key) t)
    (hc : Lexes ct cv t (.punctuator .colon) u) (hv : Delivers ct cv u v w)
    (hr : ∀ lexer, At ct cv lexer w →
      Runs ct cv post
        ({ m with lexer, lastValue := some v
                  identifierStack := key :: m.identifierStack }.parseObjectEnd ct .strictJSON
          cv)) (hen hcl : String) :
    Runs ct cv post (m.propertyName ct .strictJSON cv hen hcl) := by
  obtain ⟨ht, rfl⟩ := hat.lexed hkey
  obtain ⟨ht', rfl⟩ := (at_next m.lexer).lexed hc
  simp only [propertyName, ht, property, Machine.next, ht']
  apply hv _ _ rfl (at_next _)
  intro lexer hat
  apply yields_parse
  exact hr lexer hat

section

variable (hstack : m.objectStack = .object none properties vis :: objectStack)
  (hn : m.identifierStack = key :: identifierStack) (hl : m.lastValue = some v)

include hstack hn hl

theorem parseObjectEnd_close (ht : m.lexer.currentToken = .punctuator .rBrace) :
    m.parseObjectEnd ct .strictJSON cv = { m.next ct .strictJSON cv with
        lastValue := some (.object none (putProperty key v properties))
        objectStack, identifierStack }.leave := by
  simp [parseObjectEnd, hstack, hn, hl, ht, close, Machine.next, Container.value]

theorem parseObjectEnd_comma (ht : m.lexer.currentToken = .punctuator .comma) :
    m.parseObjectEnd ct .strictJSON cv =
      .inl { m with
        objectStack := .object none (putProperty key v properties) vis :: objectStack
        identifierStack, state := .doParseObjectStartExpression } := by
  simp [parseObjectEnd, hstack, hn, hl, ht]

theorem parseObjectEnd_fails (hco : m.lexer.currentToken ≠ .punctuator .comma)
    (hc : m.lexer.currentToken ≠ .punctuator .rBrace) :
    Runs ct cv Failed (m.parseObjectEnd ct .strictJSON cv) := by
  simp only [parseObjectEnd, hstack, hn, hl, ne_eq, not_true_eq_false, false_and, if_false]
  exact ⟨_, rfl⟩

end

variable (hkey : Lexes ct cv s (.string key) t)

include hkey in
theorem deliversMembers_one (hc : Lexes ct cv t (.punctuator .colon) u) (hv : Delivers ct cv u v w)
    (hcl : Lexes ct cv w (.punctuator .rBrace) r) :
    DeliversMembers ct cv s (putProperty key v) r := by
  intro m post properties vis objectStack hat hstack hr
  apply runs_member hat hkey hc hv
  intro lexer hat'
  obtain ⟨ht, hn⟩ := hat'.lexed hcl
  rw [parseObjectEnd_close (m := { m with lexer, lastValue := some v
                                          identifierStack := key :: m.identifierStack })
    hstack rfl rfl ht]
  apply hr
  rw [← hn]
  exact at_next lexer

variable {put : List (Text × JSValue Double) → List (Text × JSValue Double)}

include hkey in
theorem deliversMembers_cons (hc : Lexes ct cv t (.punctuator .colon) u) (hv : Delivers ct cv u v w)
    (hco : Lexes ct cv w (.punctuator .comma) x) (hms : DeliversMembers ct cv x put r) :
    DeliversMembers ct cv s (fun ps => put (putProperty key v ps)) r := by
  intro m post properties vis objectStack hat hstack hr
  apply runs_member hat hkey hc hv
  intro lexer hat'
  obtain ⟨ht, rfl⟩ := hat'.lexed hco
  rw [parseObjectEnd_comma (m := { m with lexer, lastValue := some v
                                          identifierStack := key :: m.identifierStack })
    hstack rfl rfl ht]
  apply yields_parse
  exact hms
    (next ct .strictJSON cv
      { m with lexer, lastValue := some v, state := .doParseObjectStartExpression
               objectStack := .object none (putProperty key v properties) vis :: objectStack })
    _ _ vis objectStack (at_next lexer) rfl hr _ _

theorem yields_object (hs : m.state = .startParseExpression) (hat : At ct cv m.lexer s)
    (hopen : Lexes ct cv s (.punctuator .lBrace) t)
    (hr : Runs ct cv post ({ m with state := .startParseObject }.parseObject ct .strictJSON cv)) :
    Yields (parse ct .strictJSON cv m) post := by
  obtain ⟨ht, -⟩ := hat.lexed hopen
  apply yields_parse
  simp only [step, hs, parseExpression, ht]
  apply yields_parse
  exact hr

theorem parseObject_of_ne (h : (lex ct .strictJSON cv m.lexer.input).token ≠ .punctuator .rBrace) :
    m.parseObject ct .strictJSON cv = (next ct .strictJSON cv
        { m with objectStack := .object none [] false :: m.objectStack }).propertyName ct
        .strictJSON cv "Expected '\x7d'"
        "Expected ':' before value in object property definition" := by
  unfold parseObject
  dsimp only
  split
  · exact absurd ‹_› h
  · rfl

theorem delivers_object (hopen : Lexes ct cv s (.punctuator .lBrace) t)
    (hfirst : (lex ct .strictJSON cv t).token ≠ .punctuator .rBrace)
    (hms : DeliversMembers ct cv t put r) :
    Delivers ct cv s (.object none (put [])) r := by
  intro m post hs hat hr
  obtain ⟨-, rfl⟩ := hat.lexed hopen
  apply yields_object hs hat hopen
  rw [parseObject_of_ne (m := { m with state := .startParseObject }) hfirst]
  exact hms
    (next ct .strictJSON cv
      { m with state := .startParseObject
               objectStack := .object none [] false :: m.objectStack })
    _ [] false m.objectStack (at_next m.lexer) rfl hr _ _

theorem delivers_emptyObject (hopen : Lexes ct cv s (.punctuator .lBrace) t)
    (hc : Lexes ct cv t (.punctuator .rBrace) r) :
    Delivers ct cv s (.object none []) r := by
  intro m post hs hat hr
  obtain ⟨-, rfl⟩ := hat.lexed hopen
  obtain ⟨ht, rfl⟩ := (at_next m.lexer).lexed hc
  apply yields_object hs hat hopen
  simp only [parseObject, Machine.next, ht, close]
  exact hr _ (at_next _)

/-! ## Every derivation is delivered -/

theorem numberEnd_of_whiteSpace (h : WhiteSpace u r) (hr : NumberEnd r) : NumberEnd u := by
  cases h with
  | none => exact hr
  | unit hc _ =>
    rintro c ⟨⟩
    simp only [isWhiteSpace, Bool.or_eq_true, beq_iff_eq] at hc
    simp only [isDigit, Bool.and_eq_false_iff, decide_eq_false_iff_not]
    omega

theorem numberEnd_punctuator (type : Punctuator) (r : Text) (h : type ≠ .dot) :
    NumberEnd (type.code :: r) := by
  rintro c ⟨⟩
  cases type <;> first | exact absurd rfl h | decide

theorem lexes_complete (token : Token Double) (h : Reads cv s r token)
    (hl : token.IsLiteral) (hr : ∀ v, token = .number v → NumberEnd r) :
    Lexes ct cv s token r := by
  rw [Lexes, lex_complete ct cv token h hl hr]
  exact ⟨rfl, rfl⟩

theorem lexes_punctuator (type : Punctuator) (h : WhiteSpace s (type.code :: r)) :
    Lexes ct cv s (.punctuator type) r := by
  rw [Lexes, lex_whiteSpace ct cv h]
  exact lexes_complete _ rfl trivial (by rintro v ⟨⟩)

theorem lexes_stringLiteral (hs : WhiteSpace s t) (h : StringLiteral t x r) :
    Lexes ct cv s (.string x) r := by
  rw [Lexes, lex_whiteSpace ct cv hs]
  exact lexes_complete _ h trivial (by rintro v ⟨⟩)

/-- No value begins with a closing bracket. -/
theorem value_first (h : Value s j r) :
    ∃ c t, s = c :: t ∧ isWhiteSpace c = false ∧ c ≠ 0x5D ∧ c ≠ 0x7D := by
  cases h with
  | number _ ht =>
    obtain ⟨c, t, rfl, hc⟩ := number_head ht
    refine ⟨c, _, rfl, ?_⟩
    have hr : c = 0x2D ∨ 0x30 ≤ c ∧ c ≤ 0x39 := by simpa [isDigit] using hc
    simp only [isWhiteSpace, Bool.or_eq_false_iff, beq_eq_false_iff_ne]
    omega
  | string hs =>
    cases hs
    exact ⟨_, _, rfl, by decide⟩
  | _ => exact ⟨_, _, rfl, by decide⟩

theorem lex_ne_punctuator (h : ∀ t, ¬WhiteSpace s (type.code :: t)) :
    (lex ct .strictJSON cv s).token ≠ .punctuator type := by
  intro ht
  obtain ⟨t, hs, hr⟩ := lex_reads ct cv s
  rw [ht] at hr
  rw [hr] at hs
  exact h _ hs

theorem whiteSpace_head {c d : Nat} (h : WhiteSpace s (c :: t))
    (h' : WhiteSpace s (d :: r)) (hc : isWhiteSpace c = false) (hd : isWhiteSpace d = false) :
    c = d := by
  have heq := (dropWhile_of_whiteSpace h).symm.trans (dropWhile_of_whiteSpace h')
  rw [dropWhile_cons_of_neg (by simp [hc]), dropWhile_cons_of_neg (by simp [hd])] at heq
  exact (cons.inj heq).1

theorem lex_value_ne (hs : WhiteSpace s t)
    (h : Value t j r) (ht : type = .rBracket ∨ type = .rBrace) :
    (lex ct .strictJSON cv s).token ≠ .punctuator type := by
  apply lex_ne_punctuator
  intro u hu
  obtain ⟨c, t, rfl, hc, hb, hbr⟩ := value_first h
  obtain rfl | rfl := ht
  · exact hb (whiteSpace_head hs hu hc rfl)
  · exact hbr (whiteSpace_head hs hu hc rfl)

theorem Delivers.of_whiteSpace (hs : WhiteSpace s t)
    (h : Delivers ct cv t v r) : Delivers ct cv s v r := by
  intro m post hst hat hr
  refine h m post hst ?_ hr
  exact ⟨by rw [hat.token, lex_whiteSpace ct cv hs], by rw [hat.input, lex_whiteSpace ct cv hs]⟩

/-- A member is read as a name, a colon, and a value that is delivered. -/
def DeliversMember (charType : CharType) (conversion : Conversion Double) (s key : Text)
    (v : JSValue Double) (r : Text) : Prop :=
  ∃ t u w, Lexes charType conversion s (.string key) t ∧
    Lexes charType conversion t (.punctuator .colon) u ∧
    Delivers charType conversion u v w ∧ WhiteSpace w r

theorem value_delivered (h : Value s j r) :
    NumberEnd r → Delivers ct cv s (evaluate cv j) r := by
  -- one motive for each kind of phrase
  refine @Value.rec (fun s j r _ => NumberEnd r → Delivers ct cv s (evaluate cv j) r)
    (fun s j r _ => NumberEnd r →
      (lex ct .strictJSON cv s).token ≠ .punctuator .rBracket ∧
        ∃ u, Delivers ct cv s (evaluate cv j) u ∧ WhiteSpace u r)
    (fun s js e _ => ∀ r, e = 0x5D :: r → DeliversElements ct cv s (evaluateElements cv js) r)
    (fun s key j r _ => NumberEnd r → DeliversMember ct cv s key (evaluate cv j) r)
    (fun s ms e _ => ∀ r, e = 0x7D :: r →
      (lex ct .strictJSON cv s).token ≠ .punctuator .rBrace ∧
        DeliversMembers ct cv s (evaluateMembers cv ms) r)
    ?null ?true ?false ?number ?string ?emptyArray ?array ?emptyObject ?object ?element ?oneElement
    ?consElement ?member ?oneMember ?consMember s j r h
  case null =>
    intro r _
    exact delivers_literal (lexes_complete .null rfl trivial (by rintro v ⟨⟩)) rfl
  case «true» =>
    intro r _
    exact delivers_literal (lexes_complete .true rfl trivial (by rintro v ⟨⟩)) rfl
  case «false» =>
    intro r _
    exact delivers_literal (lexes_complete .false rfl trivial (by rintro v ⟨⟩)) rfl
  case number =>
    intro t r ht hr
    exact delivers_literal (lexes_complete (.number _) ⟨_, ht, rfl, rfl⟩ trivial fun _ _ => hr) rfl
  case string =>
    intro s x r hs _
    exact delivers_literal (lexes_stringLiteral (.none _) hs) rfl
  case emptyArray =>
    intro s r hcl _
    exact delivers_emptyArray (lexes_punctuator .lBracket (.none _))
      (lexes_punctuator .rBracket hcl)
  case array =>
    intro s r js _ ih _
    exact delivers_array (lexes_punctuator .lBracket (.none _)) (ih r rfl)
  case emptyObject =>
    intro s r hcl _
    exact delivers_emptyObject (lexes_punctuator .lBrace (.none _)) (lexes_punctuator .rBrace hcl)
  case object =>
    intro s r ms _ ih _
    obtain ⟨hfirst, hms⟩ := ih r rfl
    exact delivers_object (lexes_punctuator .lBrace (.none _)) hfirst hms
  case element =>
    intro s t u r j hs hv hu ih hr
    exact ⟨lex_value_ne hs hv (.inl rfl), u,
      (ih (numberEnd_of_whiteSpace hu hr)).of_whiteSpace hs, hu⟩
  case oneElement =>
    rintro s _ j _ ih r rfl
    obtain ⟨hfirst, u, hva, hu⟩ := ih (numberEnd_punctuator .rBracket r (by decide))
    exact deliversElements_one hfirst hva (lexes_punctuator .rBracket hu)
  case consElement =>
    rintro s t e j js _ _ ih ihs r rfl
    obtain ⟨hfirst, u, hva, hu⟩ := ih (numberEnd_punctuator .comma t (by decide))
    exact deliversElements_cons hfirst hva (lexes_punctuator .comma hu) (ihs r rfl)
  case member =>
    intro s t u v r key j hs hkey hc _ ih hr
    obtain ⟨-, w, hva, hw⟩ := ih hr
    exact ⟨_, _, w, lexes_stringLiteral hs hkey, lexes_punctuator .colon hc, hva, hw⟩
  case oneMember =>
    rintro s _ key j _ ih r rfl
    obtain ⟨t, u, w, hkey, hc, hva, hw⟩ := ih (numberEnd_punctuator .rBrace r (by decide))
    refine ⟨by rw [hkey.1]; rintro ⟨⟩, ?_⟩
    exact deliversMembers_one hkey hc hva (lexes_punctuator .rBrace hw)
  case consMember =>
    rintro s x e key j ms _ _ ih ihs r rfl
    obtain ⟨t, u, w, hkey, hc, hva, hw⟩ := ih (numberEnd_punctuator .comma x (by decide))
    refine ⟨by rw [hkey.1]; rintro ⟨⟩, ?_⟩
    exact deliversMembers_cons hkey hc hva (lexes_punctuator .comma hw) (ihs r rfl).2

/-! ## Nothing else is accepted -/

/-- Behind an opening bracket or a comma: no elements that end in a bracket. -/
def FailsElements (charType : CharType) (conversion : Conversion Double) (s : Text) : Prop :=
  ∀ (m : Machine Double) elements objectStack, m.state = .doParseArrayStartExpression →
    m.lexer.input = s → m.objectStack = .array elements :: objectStack →
    ((lex charType .strictJSON conversion s).token ≠ .punctuator .rBracket ∨
      m.lexer.currentToken = .punctuator .comma) →
    Yields (parse charType .strictJSON conversion m) Failed

def FailsMembers (charType : CharType) (conversion : Conversion Double) (s : Text) : Prop :=
  ∀ (m : Machine Double) properties visited objectStack, At charType conversion m.lexer s →
    m.objectStack = .object none properties visited :: objectStack →
    ∀ expectedName expectedColon, Runs charType conversion Failed
      (m.propertyName charType .strictJSON conversion expectedName expectedColon)

def ExpressionTotal (charType : CharType) (conversion : Conversion Double) (s : Text) : Prop :=
  (∃ t j r, WhiteSpace s t ∧ Value t j r ∧ r.length < s.length ∧
    Delivers charType conversion s (evaluate conversion j) r) ∨ Fails charType conversion s

def ElementsTotal (charType : CharType) (conversion : Conversion Double) (s : Text) : Prop :=
  (∃ js r, Elements s js (0x5D :: r) ∧ r.length < s.length ∧
    DeliversElements charType conversion s (evaluateElements conversion js) r) ∨
  FailsElements charType conversion s

def MembersTotal (charType : CharType) (conversion : Conversion Double) (s : Text) : Prop :=
  (∃ ms r, Members s ms (0x7D :: r) ∧ r.length < s.length ∧
    DeliversMembers charType conversion s (evaluateMembers conversion ms) r) ∨
  FailsMembers charType conversion s

theorem whiteSpace_length (h : WhiteSpace s t) : t.length ≤ s.length := by
  induction h with
  | none s => exact le_refl _
  | unit _ _ ih => exact Nat.le_succ_of_le ih

theorem characters_length (h : Characters s x r) : r.length ≤ s.length := by
  induction h with
  | nil s => exact le_refl _
  | plain | escape | hex => simp only [length_cons]; omega

theorem reads_length (h : Reads cv s r token)
    (hl : token.IsLiteral) (hend : token ≠ .endOfText) : r.length < s.length := by
  cases token with
  | punctuator type =>
    subst h
    exact Nat.lt_succ_self _
  | string x =>
    cases h with
    | quoted hx =>
      have := characters_length hx
      simp only [length_cons] at this ⊢
      omega
  | number v =>
    obtain ⟨t, ht, rfl, -⟩ := h
    obtain ⟨c, u, rfl, -⟩ := number_head ht
    simp only [cons_append, length_cons, length_append]
    omega
  | «true» | «false» | null =>
    subst h
    simp only [length_cons]
    omega
  | endOfText => exact absurd rfl hend
  | identifier x => cases hl
  | error => cases hl

/-- What the lexer finds is in the text. -/
theorem Lexes.reads (h : Lexes ct cv s token r) :
    ∃ t, WhiteSpace s t ∧ Reads cv t r token := by
  obtain ⟨rfl, rfl⟩ := h
  exact lex_reads ct cv s

theorem Lexes.length (h : Lexes ct cv s token r)
    (hl : token.IsLiteral) (hend : token ≠ .endOfText) : r.length < s.length := by
  obtain ⟨t, hs, hr⟩ := h.reads
  exact lt_of_lt_of_le (reads_length hr hl hend) (whiteSpace_length hs)

theorem Lexes.whiteSpace
    (h : Lexes ct cv s (.punctuator type) r) : WhiteSpace s (type.code :: r) := by
  obtain ⟨t, hs, rfl⟩ := h.reads
  exact hs

theorem Lexes.length_punctuator (h : Lexes ct cv s (.punctuator type) r) : r.length < s.length :=
  h.length trivial (by rintro ⟨⟩)

theorem value_of_reads (h : Reads cv s r token) (hv : literalValue token = some v) :
    ∃ j, Value s j r ∧ evaluate cv j = v := by
  cases token with
  | null =>
    subst h
    cases hv
    exact ⟨_, .null r, rfl⟩
  | «true» =>
    subst h
    cases hv
    exact ⟨_, .true r, rfl⟩
  | «false» =>
    subst h
    cases hv
    exact ⟨_, .false r, rfl⟩
  | number =>
    obtain ⟨t, ht, rfl, rfl⟩ := h
    cases hv
    exact ⟨_, .number r ht, rfl⟩
  | string =>
    cases hv
    exact ⟨_, .string h, rfl⟩
  | _ => cases hv

theorem expressionTotal_value (hlex : Lexes ct cv s token r) (hv : literalValue token = some v) :
    ExpressionTotal ct cv s := by
  obtain ⟨t, hs, hr⟩ := hlex.reads
  obtain ⟨j, hj, rfl⟩ := value_of_reads hr hv
  refine .inl ⟨t, j, r, hs, hj, hlex.length ?_ ?_, delivers_literal hlex hv⟩
  · cases token <;> trivial
  · rintro rfl
    cases hv

theorem expressionTotal_fails (hlex : Lexes ct cv s token r)
    (hst : ∀ m : Machine Double, m.lexer.currentToken = token →
      ∃ message, m.parseExpression ct .strictJSON cv =
        .inr ⟨.failure message, m.lexer⟩) :
    ExpressionTotal ct cv s := by
  refine .inr fun m hs hat => ?_
  obtain ⟨message, hm⟩ := hst m (hat.lexed hlex).1
  apply yields_parse
  rw [step, hs]
  rw [hm]
  exact ⟨message, rfl⟩

include hopen in
theorem expressionTotal_array (hes : ElementsTotal ct cv t) :
    ExpressionTotal ct cv s := by
  have hlen := hopen.length_punctuator
  by_cases hc : (lex ct .strictJSON cv t).token = .punctuator .rBracket
  · have he : Lexes ct cv t (.punctuator .rBracket) _ := ⟨hc, rfl⟩
    exact .inl ⟨_, .array [], _, hopen.whiteSpace, .emptyArray he.whiteSpace,
      lt_trans he.length_punctuator hlen,
      delivers_emptyArray hopen he⟩
  · obtain ⟨js, r, hjs, hr, hd⟩ | hf := hes
    · exact .inl ⟨_, .array js, r, hopen.whiteSpace, .array hjs, lt_trans hr hlen,
        delivers_array hopen hd⟩
    · refine .inr fun m hs hat => yields_array hs hat hopen ?_
      exact hf _ [] m.objectStack rfl (hat.lexed hopen).2 rfl (.inl hc)

theorem expressionTotal_object (hopen : Lexes ct cv s (.punctuator .lBrace) t)
    (hmembers : MembersTotal ct cv t) : ExpressionTotal ct cv s := by
  have hlen := hopen.length_punctuator
  by_cases hc : (lex ct .strictJSON cv t).token = .punctuator .rBrace
  · have he : Lexes ct cv t (.punctuator .rBrace) _ := ⟨hc, rfl⟩
    exact .inl ⟨_, .object [], _, hopen.whiteSpace, .emptyObject he.whiteSpace,
      lt_trans he.length_punctuator hlen,
      delivers_emptyObject hopen he⟩
  · obtain ⟨ms, r, hms, hr, hd⟩ | hf := hmembers
    · exact .inl ⟨_, .object ms, r, hopen.whiteSpace, .object hms, lt_trans hr hlen,
        delivers_object hopen hc hd⟩
    refine .inr fun m hs hat => yields_object hs hat hopen ?_
    obtain ⟨-, rfl⟩ := hat.lexed hopen
    rw [parseObject_of_ne (m := { m with state := .startParseObject }) hc]
    exact hf (next ct .strictJSON cv
      { m with state := .startParseObject
               objectStack := .object none [] false :: m.objectStack })
      [] false m.objectStack (at_next m.lexer) rfl _ _

theorem expression_total (s : Text) (hes : ∀ t, t.length < s.length → ElementsTotal ct cv t)
    (hms : ∀ t, t.length < s.length → MembersTotal ct cv t) :
    ExpressionTotal ct cv s := by
  obtain ⟨token, r, hlex⟩ : ∃ token r, Lexes ct cv s token r := ⟨_, _, rfl, rfl⟩
  cases token with
  | punctuator type =>
    cases type with
    | lBracket => exact expressionTotal_array hlex (hes _ hlex.length_punctuator)
    | lBrace => exact expressionTotal_object hlex (hms _ hlex.length_punctuator)
    | _ =>
      exact expressionTotal_fails hlex fun m hm =>
        ⟨_, by simp only [parseExpression, hm, fail]; rfl⟩
  | string | number | «true» | «false» | null => exact expressionTotal_value hlex rfl
  | endOfText | error | identifier =>
    exact expressionTotal_fails hlex fun m hm =>
      ⟨_, by simp only [parseExpression, hm, fail]; rfl⟩

theorem elements_total (s : Text) (he : ExpressionTotal ct cv s)
    (hes : ∀ t, t.length < s.length → ElementsTotal ct cv t) :
    ElementsTotal ct cv s := by
  by_cases hfirst : (lex ct .strictJSON cv s).token = .punctuator .rBracket
  · -- a bracket behind a comma
    refine .inr fun m elements objectStack hs hi hstack hne => ?_
    have hc := hne.resolve_left fun h => h hfirst
    subst hi
    obtain ⟨ht, -⟩ := (at_next m.lexer).lexed ⟨hfirst, rfl⟩
    apply yields_parse
    simp only [step, hs, parseArrayStart, Machine.next, ht, hc]
    exact ⟨_, rfl⟩
  obtain ⟨t, j, r, hsp, hv, hr, hd⟩ | hf := he
  · by_cases hcl : (lex ct .strictJSON cv r).token = .punctuator .rBracket
    · have hlex : Lexes ct cv r (.punctuator .rBracket) _ := ⟨hcl, rfl⟩
      exact .inl ⟨[j], _, .one ⟨hsp, hv, hlex.whiteSpace⟩,
        lt_trans hlex.length_punctuator hr,
        deliversElements_one hfirst hd hlex⟩
    by_cases hc : (lex ct .strictJSON cv r).token = .punctuator .comma
    · have hlex : Lexes ct cv r (.punctuator .comma) _ := ⟨hc, rfl⟩
      have hsh := lt_trans hlex.length_punctuator hr
      obtain ⟨js, u, hjs, hu, hre⟩ | hf := hes _ hsh
      · exact .inl ⟨j :: js, u, .cons ⟨hsp, hv, hlex.whiteSpace⟩ hjs,
          lt_trans hu hsh, deliversElements_cons hfirst hd hlex hre⟩
      refine .inr fun m elements objectStack hs hi hstack _ => ?_
      apply yields_element hfirst hd hs hi
      intro lexer hat
      obtain ⟨ht, hn⟩ := hat.lexed hlex
      rw [parseArrayEnd_comma (m := { m with lexer, lastValue := _ }) hstack rfl ht]
      exact hf _ _ objectStack rfl hn rfl (.inr ht)
    · refine .inr fun m elements objectStack hs hi hstack _ => ?_
      apply yields_element hfirst hd hs hi
      intro lexer hat
      rw [← hat.token] at hcl hc
      exact parseArrayEnd_fails (m := { m with lexer, lastValue := _ }) hstack rfl hc hcl
  · refine .inr fun m elements objectStack hs hi hstack _ => ?_
    subst hi
    apply yields_parse
    rw [step, hs]
    rw [parseArrayStart_of_ne hfirst]
    exact hf _ rfl (at_next m.lexer)

theorem failsMembers_of_token (h : ∀ x, (lex ct .strictJSON cv s).token ≠ .string x) :
    FailsMembers ct cv s := by
  intro m properties vis objectStack hat _ hen hcl
  simp only [← hat.token] at h
  unfold propertyName
  split
  · exact absurd ‹_› (h _)
  · exact ⟨_, rfl⟩
  · exact ⟨_, rfl⟩

include hkey in
theorem failsMembers_of_colon (h : (lex ct .strictJSON cv t).token ≠ .punctuator .colon) :
    FailsMembers ct cv s := by
  intro m properties vis objectStack hat _ hen hcl
  obtain ⟨ht, rfl⟩ := hat.lexed hkey
  rw [propertyName, ht]
  unfold property
  dsimp only
  split
  · exact absurd ‹_› h
  · exact ⟨_, rfl⟩

include hkey in
theorem failsMembers_of_value (hc : Lexes ct cv t (.punctuator .colon) u)
    (h : Fails ct cv u) : FailsMembers ct cv s := by
  intro m properties vis objectStack hat _ hen hcl
  obtain ⟨ht, rfl⟩ := hat.lexed hkey
  obtain ⟨ht', rfl⟩ := (at_next m.lexer).lexed hc
  simp only [propertyName, ht, property, Machine.next, ht']
  exact h _ rfl (at_next _)

theorem members_total (s : Text) (he : ∀ t, t.length < s.length → ExpressionTotal ct cv t)
    (hmembers : ∀ t, t.length < s.length → MembersTotal ct cv t) :
    MembersTotal ct cv s := by
  by_cases hs : ∃ key, (lex ct .strictJSON cv s).token = .string key
  swap
  · exact .inr (failsMembers_of_token fun x hx => hs ⟨x, hx⟩)
  obtain ⟨key, hkey⟩ := hs
  replace hkey : Lexes ct cv s (.string key) _ := ⟨hkey, rfl⟩
  obtain ⟨t, hsp, hl⟩ := hkey.reads
  have ht := hkey.length trivial (by rintro ⟨⟩)
  by_cases hc : (lex ct .strictJSON cv (lex ct .strictJSON cv s).rest).token = .punctuator .colon
  swap
  · exact .inr (failsMembers_of_colon hkey hc)
  replace hc : Lexes ct cv _ (.punctuator .colon) _ := ⟨hc, rfl⟩
  have hu := lt_trans hc.length_punctuator ht
  obtain ⟨v, j, w, hv, hva, hw, hd⟩ | hf := he _ hu
  swap
  · exact .inr (failsMembers_of_value hkey hc hf)
  have member {r : Text} (h : WhiteSpace w r) : Member s key j r :=
    ⟨hsp, hl, hc.whiteSpace, hv, hva, h⟩
  by_cases hcl : (lex ct .strictJSON cv w).token = .punctuator .rBrace
  · have hlex : Lexes ct cv w (.punctuator .rBrace) _ := ⟨hcl, rfl⟩
    exact .inl ⟨[(key, j)], _, .one (member hlex.whiteSpace),
      lt_trans (lt_trans hlex.length_punctuator hw) hu,
      deliversMembers_one hkey hc hd hlex⟩
  by_cases hco : (lex ct .strictJSON cv w).token = .punctuator .comma
  · have hlex : Lexes ct cv w (.punctuator .comma) _ := ⟨hco, rfl⟩
    have hsh := lt_trans (lt_trans hlex.length_punctuator hw) hu
    obtain ⟨ms, r, hms, hr, hre⟩ | hf := hmembers _ hsh
    · exact .inl ⟨(key, j) :: ms, r, .cons (member hlex.whiteSpace) hms, lt_trans hr hsh,
        deliversMembers_cons hkey hc hd hlex hre⟩
    refine .inr fun m properties vis objectStack hat hstack _ _ => ?_
    apply runs_member hat hkey hc hd
    intro lexer hat'
    obtain ⟨htk, hn⟩ := hat'.lexed hlex
    rw [parseObjectEnd_comma
      (m := { m with lexer, lastValue := _, identifierStack := key :: m.identifierStack })
      hstack rfl rfl htk]
    apply yields_parse
    exact hf
      (next ct .strictJSON cv
        { m with lexer, lastValue := _, state := .doParseObjectStartExpression
                 objectStack := .object none (putProperty key _ properties) vis :: objectStack })
      _ vis objectStack (hn ▸ at_next lexer) rfl _ _
  · refine .inr fun m properties vis objectStack hat hstack _ _ => ?_
    apply runs_member hat hkey hc hd
    intro lexer hat'
    rw [← hat'.token] at hcl hco
    exact parseObjectEnd_fails
      (m := { m with lexer, lastValue := _, identifierStack := key :: m.identifierStack })
      hstack rfl rfl hco hcl

/-- At every position the machine delivers a value of the grammar or reports an error. -/
theorem parse_total (ct : CharType) (cv : Conversion Double) (s : Text) :
    ExpressionTotal ct cv s ∧ ElementsTotal ct cv s ∧ MembersTotal ct cv s := by
  induction hlen : s.length using Nat.strongRecOn generalizing s with
  | ind n ih =>
  subst hlen
  have he := expression_total s (fun t ht => (ih _ ht t rfl).2.1) fun t ht => (ih _ ht t rfl).2.2
  exact ⟨he, elements_total s he fun t ht => (ih _ ht t rfl).2.1,
    members_total s (fun t ht => (ih _ ht t rfl).1) fun t ht => (ih _ ht t rfl).2.2⟩

end

end JavaScriptCore.LiteralParser
