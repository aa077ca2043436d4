import JavaScriptCore.ProgramLogic.Computation
import JavaScriptCore.Runtime.LiteralParser.Lexer

/-!
# The state machine of the literal parser

`runtime/LiteralParser.cpp:818-1113`, `runtime/LiteralParser.h:111-120` and
`runtime/Identifier.h:34-77`: the `while` loop over `ParserState` with its three stacks. One
round of the loop is one step; a `goto` is a step to the state of its label, a `break` pops
`stateStack`.

An object is the list of its own properties in the order in which they are enumerated: indices
ascending, then names in the order of their creation. Not modelled: running out of memory, and
`makeIdentifier`, whose caches return the identifier of the characters they are given.
-/

namespace JavaScriptCore.LiteralParser

open Json ProgramLogic

variable {Double : Type}

inductive JSValue (Double : Type) where
  | null
  | boolean (value : Bool)
  | number (value : Double)
  | string (value : Text)
  | array (elements : List (JSValue Double))
  /-- No prototype of its own stands for `Object.prototype`. -/
  | object (prototype : Option (JSValue Double)) (properties : List (Text × JSValue Double))

/-! ## Property names -/

/-- `isIndex`. -/
def isIndex (index : Nat) : Bool := index != 0xFFFFFFFF

/-- The loop of `parseIndex`, whose arithmetic is that of `uint32_t`. -/
def parseIndexFrom (value : Nat) : Text → Option Nat
  | [] => if isIndex value then some value else none
  | c :: rest =>
    if value > 0xFFFFFFFF / 10 then none
    else if isDigit c = false then none
    else
      let newValue := value * 10 + (c - 0x30)
      if newValue ≥ 2 ^ 32 then none else parseIndexFrom newValue rest

def parseIndex : Text → Option Nat
  | [] => none
  | c :: rest =>
    if isDigit c = false then none
    else if c = 0x30 ∧ rest ≠ [] then none
    else parseIndexFrom (c - 0x30) rest

/-- A named property is overwritten in place, or comes last. -/
def putDirect {α : Type} (name : Text) (value : α) : List (Text × α) → List (Text × α)
  | [] => [(name, value)]
  | (key, old) :: properties =>
    if key = name then (key, value) :: properties
    else (key, old) :: putDirect name value properties

/-- An indexed property is overwritten in place, or comes before all larger indices and all
names. -/
def putDirectIndex {α : Type} (name : Text) (index : Nat) (value : α) :
    List (Text × α) → List (Text × α)
  | [] => [(name, value)]
  | (key, old) :: properties =>
    match parseIndex key with
    | some other =>
      if other < index then (key, old) :: putDirectIndex name index value properties
      else if other = index then (key, value) :: properties
      else (name, value) :: (key, old) :: properties
    | none => (name, value) :: (key, old) :: properties

/-- The two ways in which the parser defines a property. -/
def putProperty {α : Type} (name : Text) (value : α) (properties : List (Text × α)) :
    List (Text × α) :=
  match parseIndex name with
  | some index => putDirectIndex name index value properties
  | none => putDirect name value properties

/-- `__proto__`. -/
def underscoreProto : Text := [0x5F, 0x5F, 0x70, 0x72, 0x6F, 0x74, 0x6F, 0x5F, 0x5F]

/-! ## The machine -/

inductive ParserState where
  | startParseObject | startParseArray | startParseExpression
  | startParseStatement | startParseStatementEndStatement
  | doParseObjectStartExpression | doParseObjectEndExpression
  | doParseArrayStartExpression | doParseArrayEndExpression
  deriving DecidableEq, Repr

/-- An entry of `objectStack`. An object knows whether `visitedUnderscoreProto` holds it. -/
inductive Container (Double : Type) where
  | array (elements : List (JSValue Double))
  | object (prototype : Option (JSValue Double)) (properties : List (Text × JSValue Double))
      (visitedUnderscoreProto : Bool)

def Container.value : Container Double → JSValue Double
  | .array elements => .array elements
  | .object prototype properties _ => .object prototype properties

/-- Assigning `__proto__` sets the prototype to an object or null and ignores other values. -/
def putUnderscoreProto (prototype : Option (JSValue Double)) :
    JSValue Double → Option (JSValue Double)
  | value@(.null) | value@(.array _) | value@(.object _ _) => some value
  | .boolean _ | .number _ | .string _ => prototype

structure Lexer (Double : Type) where
  /-- From `m_ptr` to `m_end`. -/
  input : Text
  currentToken : Token Double
  lexErrorMessage : Message

structure Machine (Double : Type) where
  state : ParserState
  lexer : Lexer Double
  objectStack : List (Container Double)
  /-- The empty `JSValue` until the first value is complete. -/
  lastValue : Option (JSValue Double)
  stateStack : List ParserState
  identifierStack : List Text

/-- What is returned: a value, the empty value and a message, or a failed assertion. -/
inductive Outcome (Double : Type) where
  | value (value : JSValue Double)
  | failure (message : Message)
  | crash

def Outcome.ofValue : Option (JSValue Double) → Outcome Double
  | some last => .value last
  | none => .failure []

structure Parsed (Double : Type) where
  outcome : Outcome Double
  lexer : Lexer Double

abbrev Next (Double : Type) := Machine Double ⊕ Parsed Double

section

variable (charType : CharType) (mode : ParserMode) (conversion : Conversion Double)

def Lexer.next (lexer : Lexer Double) : Lexer Double :=
  let lexed := lex charType mode conversion lexer.input
  ⟨lexed.rest, lexed.token, lexed.lexErrorMessage.getD lexer.lexErrorMessage⟩

def Machine.next (m : Machine Double) : Machine Double :=
  { m with lexer := m.lexer.next charType mode conversion }

def Machine.fail (m : Machine Double) (text : String) : Next Double :=
  .inr ⟨.failure [.text text], m.lexer⟩

def Machine.crash (m : Machine Double) : Next Double := .inr ⟨.crash, m.lexer⟩

/-- What follows the `switch`. -/
def Machine.leave (m : Machine Double) : Next Double :=
  match m.stateStack with
  | [] => .inr ⟨.ofValue m.lastValue, m.lexer⟩
  | state :: stateStack => .inl { m with state, stateStack }

/-- A complete value behind which the next token is read. -/
def Machine.literal (m : Machine Double) (value : JSValue Double) : Next Double :=
  { m.next charType mode conversion with lastValue := some value }.leave

/-- The closing bracket of the innermost container. -/
def Machine.close (m : Machine Double) : Next Double :=
  match m.objectStack with
  | container :: objectStack =>
    { m.next charType mode conversion with lastValue := some container.value, objectStack }.leave
  | [] => m.crash

/-- A property name has been read: the colon, and the value from its first token on. -/
def Machine.property (m : Machine Double) (name : Text) (message : String) : Next Double :=
  let m := { m with identifierStack := name :: m.identifierStack }.next charType mode conversion
  match m.lexer.currentToken with
  | .punctuator .colon =>
    .inl { m.next charType mode conversion with
      stateStack := .doParseObjectEndExpression :: m.stateStack
      state := .startParseExpression }
  | _ => m.fail message

/-- The token of a property name, which in the lenient modes may be an identifier. -/
def Machine.propertyName (m : Machine Double) (expectedName expectedColon : String) :
    Next Double :=
  match m.lexer.currentToken with
  | .string name => m.property charType mode conversion name expectedColon
  | .identifier name =>
    if mode ≠ .strictJSON then m.property charType mode conversion name expectedColon
    else m.fail expectedName
  | _ => m.fail expectedName

def Machine.parseArrayStart (m : Machine Double) : Next Double :=
  let lastToken := m.lexer.currentToken
  let m := m.next charType mode conversion
  match m.lexer.currentToken, lastToken with
  | .punctuator .rBracket, .punctuator .comma =>
    m.fail "Unexpected comma at the end of array expression"
  | .punctuator .rBracket, _ => m.close charType mode conversion
  | _, _ =>
    .inl { m with stateStack := .doParseArrayEndExpression :: m.stateStack
                  state := .startParseExpression }

def Machine.parseArrayEnd (m : Machine Double) : Next Double :=
  match m.objectStack, m.lastValue with
  | .array elements :: objectStack, some value =>
    let m := { m with objectStack := .array (elements ++ [value]) :: objectStack }
    match m.lexer.currentToken with
    | .punctuator .comma => .inl { m with state := .doParseArrayStartExpression }
    | .punctuator .rBracket => m.close charType mode conversion
    | _ => m.fail "Expected ']'"
  | _, _ => m.crash

def Machine.parseObject (m : Machine Double) : Next Double :=
  let m := { m with objectStack := .object none [] false :: m.objectStack }.next charType mode
    conversion
  match m.lexer.currentToken with
  | .punctuator .rBrace => m.close charType mode conversion
  | _ => m.propertyName charType mode conversion "Expected '\x7d'"
      "Expected ':' before value in object property definition"

def Machine.parseObjectStart (m : Machine Double) : Next Double :=
  (m.next charType mode conversion).propertyName charType mode conversion
    "Property name must be a string literal" "Expected ':'"

def Machine.parseObjectEnd (m : Machine Double) : Next Double :=
  match m.objectStack, m.identifierStack, m.lastValue with
  | .object prototype properties visited :: objectStack, name :: identifierStack, some value =>
    let proceed (container : Container Double) : Next Double :=
      let m := { m with objectStack := container :: objectStack, identifierStack }
      match m.lexer.currentToken with
      | .punctuator .comma => .inl { m with state := .doParseObjectStartExpression }
      | .punctuator .rBrace => m.close charType mode conversion
      | _ => m.fail "Expected '\x7d'"
    if mode ≠ .strictJSON ∧ name = underscoreProto then
      if visited then m.fail "Attempted to redefine __proto__ property"
      else proceed (.object (putUnderscoreProto prototype value) properties true)
    else proceed (.object prototype (putProperty name value properties) visited)
  | _, _, _ => m.crash

/-- The texts of an unexpected token. -/
def Punctuator.unexpected : Punctuator → String
  | .lBracket => "Unexpected token '['"
  | .rBracket => "Unexpected token ']'"
  | .lBrace => "Unexpected token '\x7b'"
  | .rBrace => "Unexpected token '\x7d'"
  | .colon => "Unexpected token ':'"
  | .lParen => "Unexpected token '('"
  | .rParen => "Unexpected token ')'"
  | .comma => "Unexpected token ','"
  | .dot => "Unexpected token '.'"
  | .assign => "Unexpected token '='"
  | .semi => "Unexpected token ';'"

def Machine.parseExpression (m : Machine Double) : Next Double :=
  match m.lexer.currentToken with
  | .punctuator .lBracket => .inl { m with state := .startParseArray }
  | .punctuator .lBrace => .inl { m with state := .startParseObject }
  | .string value => m.literal charType mode conversion (.string value)
  | .number value => m.literal charType mode conversion (.number value)
  | .null => m.literal charType mode conversion .null
  | .true => m.literal charType mode conversion (.boolean true)
  | .false => m.literal charType mode conversion (.boolean false)
  | .punctuator type => m.fail type.unexpected
  | .identifier name =>
    .inr ⟨.failure [.text "Unexpected identifier \"", .characters name, .text "\""], m.lexer⟩
  | .endOfText => m.fail "Unexpected EOF"
  | .error => m.fail "Could not parse value expression"

def Machine.parseStatement (m : Machine Double) : Next Double :=
  match m.lexer.currentToken with
  | .punctuator .lBracket | .number _ | .string _ => .inl { m with state := .startParseExpression }
  | .punctuator .lParen =>
    .inl { m.next charType mode conversion with
      stateStack := .startParseStatementEndStatement :: m.stateStack
      state := .startParseExpression }
  | .punctuator type => m.fail type.unexpected
  | .identifier _ => m.fail "Unexpected identifier"
  | .true => m.fail "Unexpected token 'true'"
  | .false => m.fail "Unexpected token 'false'"
  | .null => m.fail "Unexpected token 'null'"
  | .endOfText => m.fail "Unexpected EOF"
  | .error => m.fail "Could not parse statement"

def Machine.parseStatementEnd (m : Machine Double) : Next Double :=
  match m.lexer.currentToken with
  | .punctuator .rParen =>
    let m := m.next charType mode conversion
    match m.lexer.currentToken with
    | .endOfText => .inr ⟨.ofValue m.lastValue, m.lexer⟩
    | _ => m.fail "Unexpected content at end of JSON literal"
  | _ => .inr ⟨.failure [], m.lexer⟩

def Machine.step (m : Machine Double) : Next Double :=
  match m.state with
  | .startParseArray =>
    .inl { m with objectStack := .array [] :: m.objectStack, state := .doParseArrayStartExpression }
  | .doParseArrayStartExpression => m.parseArrayStart charType mode conversion
  | .doParseArrayEndExpression => m.parseArrayEnd charType mode conversion
  | .startParseObject => m.parseObject charType mode conversion
  | .doParseObjectStartExpression => m.parseObjectStart charType mode conversion
  | .doParseObjectEndExpression => m.parseObjectEnd charType mode conversion
  | .startParseExpression => m.parseExpression charType mode conversion
  | .startParseStatement => m.parseStatement charType mode conversion
  | .startParseStatementEndStatement => m.parseStatementEnd charType mode conversion

def parse (m : Machine Double) : Budgeted (Parsed Double) :=
  Budgeted.loop (fun m => pure (m.step charType mode conversion)) m

/-- `getErrorMessage`. -/
def getErrorMessage (lexErrorMessage parseErrorMessage : Message) : Message :=
  if ¬lexErrorMessage.isEmpty then .text "JSON Parse error: " :: lexErrorMessage
  else if ¬parseErrorMessage.isEmpty then .text "JSON Parse error: " :: parseErrorMessage
  else [.text "JSON Parse error: Unable to parse JSON string"]

/-- In every mode one semicolon may follow the value. -/
def Lexer.skipSemi (lexer : Lexer Double) : Lexer Double :=
  match lexer.currentToken with
  | .punctuator .semi => lexer.next charType mode conversion
  | _ => lexer

/-- What `tryLiteralParse` makes of what `parse` leaves. -/
def Parsed.result (parsed : Parsed Double) : Outcome Double :=
  let lexer := parsed.lexer.skipSemi charType mode conversion
  match lexer.currentToken, parsed.outcome with
  | .endOfText, .value value => .value value
  | _, .value _ => .failure (getErrorMessage lexer.lexErrorMessage [])
  | _, .failure message => .failure (getErrorMessage lexer.lexErrorMessage message)
  | _, .crash => .crash

def tryLiteralParse (text : Text) : Budgeted (Outcome Double) := do
  let lexer := Lexer.next charType mode conversion ⟨text, .error, []⟩
  let state := if mode = .strictJSON then .startParseExpression else .startParseStatement
  let parsed ← parse charType mode conversion ⟨state, lexer, [], none, [], []⟩
  return parsed.result charType mode conversion

end

end JavaScriptCore.LiteralParser
