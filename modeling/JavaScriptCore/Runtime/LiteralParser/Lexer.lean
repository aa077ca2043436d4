import Mathlib.Data.List.TakeWhile
import JavaScriptCore.Json.Grammar

/-!
# The lexer of the literal parser

`runtime/LiteralParser.cpp:45-51, 178-816` and `runtime/LiteralParser.h:55-58, 140-205`.

The input is what stands from `m_ptr` to `m_end`. A token carries what the union of
`LiteralParserToken` holds for its type; `m_builder` keeps its contents between tokens, but
they are read before the next token is lexed, so a token owns its text. Doubles are those of
a `Conversion`, whose `parseDouble` is the one of `wtf/dtoa.h`.
-/

namespace JavaScriptCore.LiteralParser

open Json

inductive ParserMode where
  | strictJSON | nonStrictJSON | jsonp
  deriving DecidableEq, Repr

/-- The two instances of the template. -/
inductive CharType where
  | lchar | uchar
  deriving DecidableEq, Repr

inductive Punctuator where
  | lBracket | rBracket | lBrace | rBrace | colon | lParen | rParen | comma | dot | assign | semi
  deriving DecidableEq, Repr

inductive Token (Double : Type) where
  | punctuator (type : Punctuator)
  | string (value : Text)
  | identifier (value : Text)
  | number (value : Double)
  | true | false | null
  | endOfText
  | error

/-- An error text, with characters of the input where the source inserts them. -/
inductive MessagePart where
  | text (value : String)
  | characters (value : Text)
  deriving DecidableEq, Repr

abbrev Message := List MessagePart

variable {Double : Type}

/-- What one call of a lexing function leaves: the token, `m_ptr`, and the error message if it
sets one. -/
structure Lexed (Double : Type) where
  token : Token Double
  rest : Text
  lexErrorMessage : Option Message

def Lexed.ok (token : Token Double) (rest : Text) : Lexed Double := ⟨token, rest, none⟩

def Lexed.fail (rest : Text) (message : Message) : Lexed Double := ⟨.error, rest, some message⟩

inductive LatinType where
  | string | identifier | number | punctuator (type : Punctuator) | error
  deriving DecidableEq, Repr

def isASCIIAlpha (c : Nat) : Bool := (0x41 ≤ c && c ≤ 0x5A) || (0x61 ≤ c && c ≤ 0x7A)

/-- `TokenTypesOfLatin1Characters`. -/
def tokenTypesOfLatin1Characters (c : Nat) : LatinType :=
  if c = 0x22 ∨ c = 0x27 then .string
  else if c = 0x24 ∨ c = 0x5F ∨ isASCIIAlpha c then .identifier
  else if c = 0x2D ∨ isDigit c then .number
  else match c with
    | 0x28 => .punctuator .lParen
    | 0x29 => .punctuator .rParen
    | 0x2C => .punctuator .comma
    | 0x2E => .punctuator .dot
    | 0x3A => .punctuator .colon
    | 0x3B => .punctuator .semi
    | 0x3D => .punctuator .assign
    | 0x5B => .punctuator .lBracket
    | 0x5D => .punctuator .rBracket
    | 0x7B => .punctuator .lBrace
    | 0x7D => .punctuator .rBrace
    | _ => .error

/-- The characters from `start` up to `ptr`, both positions of one text. -/
def between (start ptr : Text) : Text := start.take (start.length - ptr.length)

def isIdentifierPart (charType : CharType) (c : Nat) : Bool :=
  isASCIIAlpha c || isDigit c || c == 0x5F || c == 0x24 ||
    (charType == .uchar && (c == 0x200C || c == 0x200D))

def lexIdentifier (charType : CharType) (start : Text) : Lexed Double :=
  .ok (.identifier (start.takeWhile (isIdentifierPart charType)))
    (start.dropWhile (isIdentifierPart charType))

/-- The two overloads of `isSafeStringCharacter`, at both character sets. -/
def isSafeStringCharacter (charType : CharType) (mode : ParserMode) (terminator c : Nat) : Bool :=
  (0x20 ≤ c && (charType == .lchar || mode == .strictJSON || c ≤ 0xFF) && c != 0x5C &&
      c != terminator) ||
    (c == 0x9 && mode != .strictJSON)

def unterminated (rest : Text) : Lexed Double := .fail rest [.text "Unterminated string"]

/-- The `switch` on the character after a reverse solidus: what is appended to `m_builder`, and
`m_ptr` after it. -/
def lexEscape (mode : ParserMode) : Text → Except (Text × Message) (Nat × Text)
  | [] => .error ([], [.text "Unterminated string"])
  | e :: rest =>
    match e with
    | 0x22 => .ok (0x22, rest)
    | 0x5C => .ok (0x5C, rest)
    | 0x2F => .ok (0x2F, rest)
    | 0x62 => .ok (0x08, rest)
    | 0x66 => .ok (0x0C, rest)
    | 0x6E => .ok (0x0A, rest)
    | 0x72 => .ok (0x0D, rest)
    | 0x74 => .ok (0x09, rest)
    | 0x75 =>
      match rest with
      | a :: b :: c :: d :: after =>
        if isHexDigit a && isHexDigit b && isHexDigit c && isHexDigit d then
          -- `convertUnicode`
          .ok (hexValue a * 0x1000 + hexValue b * 0x100 + hexValue c * 0x10 + hexValue d, after)
        else
          .error (e :: rest, [.text "\"\\", .characters [e, a, b, c, d],
            .text "\" is not a valid unicode escape"])
      | _ => .error (e :: rest, [.text "\\u must be followed by 4 hex digits"])
    | _ =>
      if e = 0x27 ∧ mode ≠ .strictJSON then .ok (0x27, rest)
      else .error (e :: rest, [.text "Invalid escape character ", .characters [e]])

theorem lexEscape_length {mode : ParserMode} {s rest : Text} {c : Nat}
    (h : lexEscape mode s = .ok (c, rest)) : rest.length < s.length := by
  unfold lexEscape at h
  grind

/-- What follows the loop of `lexStringSlow`. An empty builder means that no escape was seen,
and that the token is the run itself. -/
def finishString (terminator : Nat) (builder run rest : Text) : Lexed Double :=
  match rest with
  | [] => unterminated []
  | c :: after =>
    if c ≠ terminator then unterminated rest
    else if builder.isEmpty then .ok (.string run) after
    else .ok (.string builder) after

/-- The `if` at the label `slowPathBegin`: the builder, `m_ptr`, and whether `m_ptr` has moved
away from `runStart`. `run` is what stands between the two. -/
def lexEscaped (mode : ParserMode) (builder run rest : Text) :
    Except (Text × Message) (Text × Text × Bool) :=
  match rest with
  | 0x5C :: after =>
    if mode ≠ .nonStrictJSON then
      match lexEscape mode after with
      | .error failure => .error failure
      | .ok (c, after) => .ok ((if builder.isEmpty then run else builder) ++ [c], after, true)
    else .ok (builder, rest, !run.isEmpty)
  | _ => .ok (builder, rest, !run.isEmpty)

theorem lexEscaped_progress {mode : ParserMode} {builder run rest builder' rest' : Text}
    {moved : Bool} (h : lexEscaped mode builder run rest = .ok (builder', rest', moved)) :
    rest'.length < rest.length ∨ rest' = rest ∧ moved = !run.isEmpty := by
  unfold lexEscaped at h
  split at h
  · split at h
    · split at h
      · cases h
      · rename_i heq
        cases h
        exact .inl (Nat.lt_succ_of_lt (lexEscape_length heq))
    · cases h
      exact .inr ⟨rfl, rfl⟩
  · cases h
    exact .inr ⟨rfl, rfl⟩

/-- The loop of `lexStringSlow`, entered at the label `slowPathBegin`. -/
def lexStringSlow (charType : CharType) (mode : ParserMode) (terminator : Nat)
    (builder run rest : Text) : Lexed Double :=
  match _h : lexEscaped mode builder run rest with
  | .error (rest, message) => .fail rest message
  | .ok (builder', rest', moved) =>
    if _again : mode ≠ .nonStrictJSON ∧ moved = true ∧ rest' ≠ [] ∧
        rest'.head? ≠ some terminator then
      let run' := rest'.takeWhile (isSafeStringCharacter charType mode terminator)
      lexStringSlow charType mode terminator
        (if builder'.isEmpty then builder' else builder' ++ run') run'
        (rest'.dropWhile (isSafeStringCharacter charType mode terminator))
    else finishString terminator builder' run rest'
termination_by 2 * rest.length + if run.isEmpty then 0 else 1
decreasing_by
  have hcut := congrArg List.length
    (List.takeWhile_append_dropWhile (p := isSafeStringCharacter charType mode terminator)
      (l := rest'))
  rw [List.length_append] at hcut
  obtain hlt | ⟨rfl, hmoved⟩ := lexEscaped_progress _h
  · split <;> split <;> omega
  rw [_again.2.1] at hmoved
  have hrun : run.isEmpty = false := by simpa using hmoved.symm
  rw [hrun]
  split
  · rw [if_neg Bool.false_ne_true]
    omega
  · rename_i hne
    have : 0 < (rest'.takeWhile (isSafeStringCharacter charType mode terminator)).length :=
      List.length_pos_of_ne_nil (by simpa using hne)
    rw [if_neg Bool.false_ne_true]
    omega

/-- Entered behind the opening quote. -/
def lexString (charType : CharType) (mode : ParserMode) (terminator : Nat) (start : Text) :
    Lexed Double :=
  let run := start.takeWhile (isSafeStringCharacter charType mode terminator)
  let rest := start.dropWhile (isSafeStringCharacter charType mode terminator)
  if rest.head? = some terminator then .ok (.string run) rest.tail
  else lexStringSlow charType mode terminator [] run rest

/-- `[-+]?`. -/
def skipSign : Text → Text
  | c :: rest => if c = 0x2D ∨ c = 0x2B then rest else c :: rest
  | [] => []

def exponentError : Message :=
  [.text "Exponent symbols should be followed by an optional '+' or '-' and then by at least one number"]

/-- `([eE][+-]? [0-9]+)?`, and the conversion that follows. -/
def lexExponent (conversion : Conversion Double) (start rest : Text) : Lexed Double :=
  let finish (rest : Text) : Lexed Double :=
    .ok (.number (conversion.parseDouble (between start rest))) rest
  match rest with
  | e :: after =>
    if e = 0x65 ∨ e = 0x45 then
      match skipSign after with
      | d :: digits =>
        if isDigit d then finish (digits.dropWhile isDigit) else .fail (d :: digits) exponentError
      | [] => .fail [] exponentError
    else finish rest
  | [] => finish rest

/-- The conversion of at most nine characters. Nine digits fit `int32_t`. -/
def shortInteger (conversion : Conversion Double) (text : Text) : Double :=
  let negative := text.head? = some 0x2D
  let result := decimal (if negative then text.tail else text)
  if ¬negative then conversion.ofInt result
  else if result = 0 then conversion.negativeZero else conversion.ofInt (-result)

/-- `('.' [0-9]+)?`, or a short integer that something follows. -/
def lexFraction (conversion : Conversion Double) (start rest : Text) : Lexed Double :=
  match rest with
  | 0x2E :: after =>
    match after with
    | d :: digits =>
      if isDigit d then lexExponent conversion start (digits.dropWhile isDigit)
      else .fail after [.text "Invalid digits after decimal point"]
    | [] => .fail [] [.text "Invalid digits after decimal point"]
  | c :: _ =>
    if (c ≠ 0x65 ∧ c ≠ 0x45) ∧ (between start rest).length ≤ 9 then
      .ok (.number (shortInteger conversion (between start rest))) rest
    else lexExponent conversion start rest
  | [] => lexExponent conversion start rest

def lexNumber (conversion : Conversion Double) (start : Text) : Lexed Double :=
  let unsigned := if start.head? = some 0x2D then start.tail else start
  match unsigned with
  | c :: digits =>
    if c = 0x30 then lexFraction conversion start digits
    else if 0x31 ≤ c ∧ c ≤ 0x39 then lexFraction conversion start (digits.dropWhile isDigit)
    else .fail unsigned [.text "Invalid number"]
  | [] => .fail [] [.text "Invalid number"]

/-- `lex`, behind the white space. -/
def lexToken (charType : CharType) (mode : ParserMode) (conversion : Conversion Double) :
    Text → Lexed Double
  | [] => .ok .endOfText []
  | c :: rest =>
    if c < 256 then
      match tokenTypesOfLatin1Characters c with
      | .string =>
        if c = 0x27 ∧ mode = .strictJSON then
          .fail (c :: rest) [.text "Single quotes (\') are not allowed in JSON"]
        else lexString charType mode c rest
      | .identifier =>
        match c, rest with
        | 0x74, 0x72 :: 0x75 :: 0x65 :: after => .ok .true after
        | 0x66, 0x61 :: 0x6C :: 0x73 :: 0x65 :: after => .ok .false after
        | 0x6E, 0x75 :: 0x6C :: 0x6C :: after => .ok .null after
        | _, _ => lexIdentifier charType (c :: rest)
      | .number => lexNumber conversion (c :: rest)
      | .error => unrecognized c rest
      | .punctuator type => .ok (.punctuator type) rest
    else unrecognized c rest
where
  unrecognized (c : Nat) (rest : Text) : Lexed Double :=
    .fail (c :: rest) [.text "Unrecognized token '", .characters [c], .text "'"]

def lex (charType : CharType) (mode : ParserMode) (conversion : Conversion Double) (input : Text) :
    Lexed Double :=
  lexToken charType mode conversion (input.dropWhile isWhiteSpace)

end JavaScriptCore.LiteralParser
