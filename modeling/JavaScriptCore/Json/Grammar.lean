import Mathlib.Algebra.Group.Nat.Defs
import Mathlib.Data.List.Basic

/-!
# The JSON grammar of ECMA-404

Texts are lists of UTF-16 code units. Each relation takes a text to what remains of it once
the phrase is read, so that `Value text j rest` reads: `text` is a value `j` followed by
`rest`. A `Phrase` keeps what the grammar sees: the text of a number, and every member of an
object in order, repeated keys included. `denote` says what that stands for.
-/

namespace JavaScriptCore.Json

abbrev Text := List Nat

def isWhiteSpace (c : Nat) : Bool := c == 0x20 || c == 0x9 || c == 0xA || c == 0xD

def isDigit (c : Nat) : Bool := 0x30 ≤ c && c ≤ 0x39

def isHexDigit (c : Nat) : Bool := isDigit c || (0x41 ≤ c && c ≤ 0x46) || (0x61 ≤ c && c ≤ 0x66)

def hexValue (c : Nat) : Nat :=
  if c ≤ 0x39 then c - 0x30 else if c ≤ 0x46 then c - 0x41 + 10 else c - 0x61 + 10

/-- The number a run of decimal digits denotes. -/
def decimal (digits : Text) : Nat := digits.foldl (fun n c => n * 10 + (c - 0x30)) 0

inductive Phrase where
  | null
  | boolean (value : Bool)
  | number (text : Text)
  | string (value : Text)
  | array (elements : List Phrase)
  | object (members : List (Text × Phrase))

/-! ## Lexical grammar -/

inductive WhiteSpace : Text → Text → Prop where
  | none (s : Text) : WhiteSpace s s
  | unit {c : Nat} {s r : Text} : isWhiteSpace c = true → WhiteSpace s r → WhiteSpace (c :: s) r

inductive Integer : Text → Prop where
  | zero : Integer [0x30]
  | digits {d : Nat} {ds : Text} : 0x31 ≤ d → d ≤ 0x39 → (∀ c ∈ ds, isDigit c = true) →
      Integer (d :: ds)

inductive Fraction : Text → Prop where
  | none : Fraction []
  | digits {d : Nat} {ds : Text} : isDigit d = true → (∀ c ∈ ds, isDigit c = true) →
      Fraction (0x2E :: d :: ds)

inductive Exponent : Text → Prop where
  | none : Exponent []
  | digits {e d : Nat} {sign ds : Text} : (e = 0x65 ∨ e = 0x45) →
      (sign = [] ∨ sign = [0x2B] ∨ sign = [0x2D]) → isDigit d = true →
      (∀ c ∈ ds, isDigit c = true) → Exponent (e :: (sign ++ d :: ds))

/-- `-? integer fraction? exponent?`. -/
def Number (text : Text) : Prop :=
  ∃ minus integer fraction exponent, text = minus ++ integer ++ fraction ++ exponent ∧
    (minus = [] ∨ minus = [0x2D]) ∧ Integer integer ∧ Fraction fraction ∧ Exponent exponent

/-- The escapes of one character, and the character. -/
inductive ShortEscape : Nat → Nat → Prop where
  | quotation : ShortEscape 0x22 0x22
  | reverseSolidus : ShortEscape 0x5C 0x5C
  | solidus : ShortEscape 0x2F 0x2F
  | backspace : ShortEscape 0x62 0x08
  | formFeed : ShortEscape 0x66 0x0C
  | lineFeed : ShortEscape 0x6E 0x0A
  | carriageReturn : ShortEscape 0x72 0x0D
  | tabulation : ShortEscape 0x74 0x09

/-- The characters between the quotes, and what they stand for. -/
inductive Characters : Text → Text → Text → Prop where
  | nil (s : Text) : Characters s [] s
  | plain {c : Nat} {s x r : Text} : 0x20 ≤ c → c ≠ 0x22 → c ≠ 0x5C → Characters s x r →
      Characters (c :: s) (c :: x) r
  | escape {e c : Nat} {s x r : Text} : ShortEscape e c → Characters s x r →
      Characters (0x5C :: e :: s) (c :: x) r
  | hex {a b c d : Nat} {s x r : Text} : isHexDigit a = true → isHexDigit b = true →
      isHexDigit c = true → isHexDigit d = true → Characters s x r →
      Characters (0x5C :: 0x75 :: a :: b :: c :: d :: s)
        ((hexValue a * 0x1000 + hexValue b * 0x100 + hexValue c * 0x10 + hexValue d) :: x) r

inductive StringLiteral : Text → Text → Text → Prop where
  | quoted {s x r : Text} : Characters s x (0x22 :: r) → StringLiteral (0x22 :: s) x r

/-! ## Values -/

mutual

inductive Value : Text → Phrase → Text → Prop where
  | null (r : Text) : Value (0x6E :: 0x75 :: 0x6C :: 0x6C :: r) .null r
  | true (r : Text) : Value (0x74 :: 0x72 :: 0x75 :: 0x65 :: r) (.boolean true) r
  | false (r : Text) : Value (0x66 :: 0x61 :: 0x6C :: 0x73 :: 0x65 :: r) (.boolean false) r
  | number {t : Text} (r : Text) : Number t → Value (t ++ r) (.number t) r
  | string {s x r : Text} : StringLiteral s x r → Value s (.string x) r
  | emptyArray {s r : Text} : WhiteSpace s (0x5D :: r) → Value (0x5B :: s) (.array []) r
  | array {s r : Text} {js : List Phrase} : Elements s js (0x5D :: r) →
      Value (0x5B :: s) (.array js) r
  | emptyObject {s r : Text} : WhiteSpace s (0x7D :: r) → Value (0x7B :: s) (.object []) r
  | object {s r : Text} {ms : List (Text × Phrase)} : Members s ms (0x7D :: r) →
      Value (0x7B :: s) (.object ms) r

/-- A value between white space. -/
inductive Element : Text → Phrase → Text → Prop where
  | mk {s t u r : Text} {j : Phrase} : WhiteSpace s t → Value t j u → WhiteSpace u r → Element s j r

inductive Elements : Text → List Phrase → Text → Prop where
  | one {s r : Text} {j : Phrase} : Element s j r → Elements s [j] r
  | cons {s t r : Text} {j : Phrase} {js : List Phrase} : Element s j (0x2C :: t) →
      Elements t js r →
      Elements s (j :: js) r

inductive Member : Text → Text → Phrase → Text → Prop where
  | mk {s t u v r key : Text} {j : Phrase} : WhiteSpace s t → StringLiteral t key u →
      WhiteSpace u (0x3A :: v) → Element v j r → Member s key j r

inductive Members : Text → List (Text × Phrase) → Text → Prop where
  | one {s r key : Text} {j : Phrase} : Member s key j r → Members s [(key, j)] r
  | cons {s t r key : Text} {j : Phrase} {ms : List (Text × Phrase)} : Member s key j (0x2C :: t) →
      Members t ms r → Members s ((key, j) :: ms) r

end

/-- The whole text is one value surrounded by white space. -/
def Document (text : Text) (j : Phrase) : Prop := Element text j []

/-! ## Meaning -/

/-- The tree a text denotes: an object is what it maps each key to. -/
inductive Meaning (Double : Type) where
  | null
  | boolean (value : Bool)
  | number (value : Double)
  | string (value : Text)
  | array (elements : List (Meaning Double))
  | object (property : Text → Option (Meaning Double))

variable {Double : Type}

mutual

def Phrase.denote (number : Text → Double) : Phrase → Meaning Double
  | .null => .null
  | .boolean b => .boolean b
  | .number t => .number (number t)
  | .string s => .string s
  | .array js => .array (denoteElements number js)
  -- of several members with one key the last counts
  | .object ms => .object fun key => (denoteMembers number ms).reverse.lookup key

def denoteElements (number : Text → Double) : List Phrase → List (Meaning Double)
  | [] => []
  | j :: js => j.denote number :: denoteElements number js

def denoteMembers (number : Text → Double) : List (Text × Phrase) → List (Text × Meaning Double)
  | [] => []
  | (key, j) :: ms => (key, j.denote number) :: denoteMembers number ms

end

/-- Doubles as far as JSON needs them: integers and the negative zero, and a conversion of
decimal texts that is exact on the integers a double represents. -/
structure Conversion (Double : Type) where
  ofInt : Int → Double
  negativeZero : Double
  parseDouble : Text → Double
  parseDouble_natural : ∀ {ds : Text}, Integer ds → decimal ds < 2 ^ 53 →
    parseDouble ds = ofInt (decimal ds)
  parseDouble_negative : ∀ {ds : Text}, Integer ds → decimal ds < 2 ^ 53 →
    parseDouble (0x2D :: ds) = if decimal ds = 0 then negativeZero else ofInt (-decimal ds)

namespace Conversion

/-- The double for an integer written with or without a minus sign. -/
def ofSigned (conversion : Conversion Double) (negative : Bool) (n : Nat) : Double :=
  if negative then
    if n = 0 then conversion.negativeZero else conversion.ofInt (-n)
  else conversion.ofInt n

/-- Short integers have their exact value, every other number what the conversion gives. -/
def number (conversion : Conversion Double) (text : Text) : Double :=
  if text.length ≤ 9 ∧ 0x2E ∉ text ∧ 0x65 ∉ text ∧ 0x45 ∉ text then
    if text.head? = some 0x2D then conversion.ofSigned true (decimal text.tail)
    else conversion.ofSigned false (decimal text)
  else conversion.parseDouble text

end Conversion

end JavaScriptCore.Json
