import JavaScriptCore.Wtf.StringBuilderJSON

/-!
# The JSON stringifier

`runtime/JSONObject.cpp:84-131, 177-200, 259-290, 323-597` and
`wtf/text/IntegerToStringConversion.h:33-57`: `Stringifier` without a replacer, on values made
of plain objects and arrays. An object or array has the address of its cell, as the search for
cycles compares cells; the members of an object are its enumerable own properties in order. A
hole of an array reads as undefined.

One call of `appendNextProperty` is one step. Left out: replacers, boxed primitives, accessors,
proxies, prototypes with indexed or `toJSON` properties, and failing allocations; a call of a
`toJSON` method ends the model's run.
-/

namespace JavaScriptCore.Stringifier

open Json ProgramLogic Wtf

variable {Double : Type}

inductive Value (Double : Type) where
  | undefined
  | null
  | boolean (value : Bool)
  | int32 (value : Int)
  | double (value : Double)
  | string (value : WTFString)
  | symbol
  | bigInt
  | function
  | array (cell : Nat) (elements : List (Value Double))
  | object (cell : Nat) (members : List (WTFString × Value Double))

/-- Doubles as the stringifier sees them. -/
structure NumberFormat (Double : Type) where
  isFinite : Double → Bool
  ecmaScriptNumber : Double → Text
  endsInDigit : ∀ d, isFinite d = true →
    ∃ t c, ecmaScriptNumber d = t ++ [c] ∧ isDigit c = true

/-- The loop of `numberToStringImpl`, from the least significant digit. -/
def numberToStringImpl (number : Nat) (written : Text) : Text :=
  let written := (number % 10 + 0x30) :: written
  if h : number / 10 = 0 then written else numberToStringImpl (number / 10) written
termination_by number
decreasing_by omega

def numberToStringSigned (number : Int) : Text :=
  if number < 0 then 0x2D :: numberToStringImpl number.natAbs [] else
    numberToStringImpl number.natAbs []

/-! ## State -/

inductive Contents (Double : Type) where
  | elements (values : List (Value Double))
  | members (members : List (WTFString × Value Double))

structure Holder (Double : Type) where
  cell : Nat
  contents : Contents Double
  index : Nat
  size : Nat

def Holder.isArray (holder : Holder Double) : Bool :=
  match holder.contents with
  | .elements _ => true
  | .members _ => false

structure State (Double : Type) where
  holderStack : List (Holder Double)
  repeatedGap : Text
  indent : Text
  builder : StringBuilder

inductive StringifyResult where
  | failed | succeeded | failedDueToUndefinedOrSymbolValue
  deriving DecidableEq, Repr

/-- A pending exception, or a call of a `toJSON` method. -/
inductive Failure where
  | typeError (message : String)
  | callsToJSON

def null : Text := [0x6E, 0x75, 0x6C, 0x6C]

def true_ : Text := [0x74, 0x72, 0x75, 0x65]

def false_ : Text := [0x66, 0x61, 0x6C, 0x73, 0x65]

def toJSONName : Text := [0x74, 0x6F, 0x4A, 0x53, 0x4F, 0x4E]

def Value.isCallable : Value Double → Bool
  | .function => true
  | _ => false

/-- Whether `toJSON` finds a method to call. -/
def Value.callsToJSON : Value Double → Bool
  | .object _ members =>
    match members.find? (fun m => m.1.characters == toJSONName) with
    | some (_, method) => method.isCallable
    | none => false
  | _ => false

def State.append (s : State Double) (text : Text) : State Double :=
  { s with builder := s.builder.append text }

def State.appendQuoted (s : State Double) (string : WTFString) : State Double :=
  { s with builder := s.builder.appendQuotedJSONString string true }

def State.resize (s : State Double) (size : Nat) : State Double :=
  { s with builder := s.builder.resize size }

section

variable (format : NumberFormat Double) (gap : Text)

def State.indented (s : State Double) : State Double :=
  let newSize := s.indent.length + gap.length
  let repeatedGap := if newSize > s.repeatedGap.length then s.repeatedGap ++ gap else s.repeatedGap
  { s with repeatedGap, indent := repeatedGap.take newSize }

def State.unindented (s : State Double) : State Double :=
  { s with indent := s.repeatedGap.take (s.indent.length - gap.length) }

def State.startNewLine (s : State Double) : State Double :=
  if gap.isEmpty then s else (s.append [0x0A]).append s.indent

/-- Cycle detection, and the new holder. -/
def State.pushHolder (s : State Double) (cell : Nat) (contents : Contents Double) :
    Except Failure (StringifyResult × State Double) :=
  if s.builder.hasOverflowed then .ok (.failed, s)
  else if s.holderStack.any (fun holder => holder.cell == cell) then
    .error (.typeError "JSON.stringify cannot serialize cyclic structures.")
  else .ok (.succeeded, { s with holderStack := ⟨cell, contents, 0, 0⟩ :: s.holderStack })

/-- `appendStringifiedValue` up to the loop that follows the outermost call. -/
def State.appendStringifiedValue (s : State Double) (value : Value Double) (holderIsArray : Bool) :
    Except Failure (StringifyResult × State Double) :=
  if value.callsToJSON then .error .callsToJSON
  else match value with
    | .undefined | .symbol =>
      if holderIsArray then .ok (.failed, s) else .ok (.failedDueToUndefinedOrSymbolValue, s)
    | .null => .ok (.succeeded, s.append null)
    | .boolean b => .ok (.succeeded, s.append (if b then true_ else false_))
    | .string string => .ok (.succeeded, s.appendQuoted string)
    | .int32 n => .ok (.succeeded, s.append (numberToStringSigned n))
    | .double d =>
      .ok (.succeeded, s.append (if format.isFinite d then format.ecmaScriptNumber d else null))
    | .bigInt => .error (.typeError "JSON.stringify cannot serialize BigInt.")
    | .function =>
      if holderIsArray then .ok (.succeeded, s.append null)
      else .ok (.failedDueToUndefinedOrSymbolValue, s)
    | .array cell elements => s.pushHolder cell (.elements elements)
    | .object cell members => s.pushHolder cell (.members members)

/-- What `appendNextProperty` does with the result of a value. -/
def finishProperty (rollBackPoint : Nat) :
    StringifyResult × State Double → State Double
  | (.failed, s) => s.append null
  | (.succeeded, s) => s
  | (.failedDueToUndefinedOrSymbolValue, s) => s.resize rollBackPoint

/-- The separator, the line and the value of an array element. -/
def State.appendElement (s : State Double) (index : Nat) (value : Value Double) :
    Except Failure (State Double) :=
  let s := if index = 0 then s else s.append [0x2C]
  let s := s.startNewLine gap
  return finishProperty 0 (← s.appendStringifiedValue format value true)

/-- The separator, the line, the name and the value of a member. -/
def State.appendMember (s : State Double) (name : WTFString) (value : Value Double) :
    Except Failure (State Double) :=
  let rollBackPoint := s.builder.characters.length
  let s := if s.builder.characters.getLast? = some 0x7B then s else s.append [0x2C]
  let s := (s.startNewLine gap).appendQuoted name
  let s := s.append [0x3A]
  let s := if gap.isEmpty then s else s.append [0x20]
  return finishProperty rollBackPoint (← s.appendStringifiedValue format value false)

/-- The first call for a holder: its size, and the opening bracket. -/
def State.openHolder (s : State Double) (holder : Holder Double) : Holder Double × State Double :=
  if holder.index = 0 then
    match holder.contents with
    | .elements values =>
      ({ holder with size := values.length }, (s.append [0x5B]).indented gap)
    | .members members =>
      ({ holder with size := members.length }, (s.append [0x7B]).indented gap)
  else (holder, s)

/-- The last call for a holder. -/
def State.closeHolder (s : State Double) (holder : Holder Double) : State Double :=
  let s := s.unindented gap
  let s := if holder.size ≠ 0 ∧ s.builder.characters.getLast? ≠ some 0x7B
    then s.startNewLine gap else s
  s.append [if holder.isArray then 0x5D else 0x7D]

/-- `appendNextProperty` behind its first call's part, for the innermost holder, below which
`rest` stands: whether there may be more, and the state. -/
def State.appendOpened (s : State Double) (holder : Holder Double) (rest : List (Holder Double)) :
    Except Failure (Bool × State Double) :=
  let s := { s with holderStack := holder :: rest }
  if s.builder.hasOverflowed then return (false, s)
  else if holder.index = holder.size then return (false, s.closeHolder gap holder)
  else
    let s := { s with holderStack := { holder with index := holder.index + 1 } :: rest }
    match holder.contents with
    | .elements values =>
      return (true, ← s.appendElement format gap holder.index
        (values[holder.index]?.getD .undefined))
    | .members members =>
      match members[holder.index]? with
      | some (name, value) => return (true, ← s.appendMember format gap name value)
      | none => return (true, s)

def State.appendNextProperty (s : State Double) (holder : Holder Double)
    (rest : List (Holder Double)) : Except Failure (Bool × State Double) :=
  let (holder, s) := s.openHolder gap holder
  s.appendOpened format gap holder rest

/-- What `JSON.stringify` returns or throws. -/
inductive Outcome where
  | text (value : Text)
  | undefined
  | outOfMemory
  | failure (failure : Failure)

def State.outcome (s : State Double) : Outcome :=
  if s.builder.hasOverflowed then .outOfMemory else .text s.builder.toString.1

/-- What the loops at the end of the outermost `appendStringifiedValue` do after a call. -/
def proceed : Except Failure (Bool × State Double) → State Double ⊕ Outcome
  | .error failure => .inr (.failure failure)
  | .ok (true, s) => .inl s
  | .ok (false, s) =>
    if s.builder.hasOverflowed then .inr s.outcome
    else .inl { s with holderStack := s.holderStack.tail }

def State.step (s : State Double) : State Double ⊕ Outcome :=
  match s.holderStack with
  | [] => .inr s.outcome
  | holder :: rest => proceed (s.appendNextProperty format gap holder rest)

def run (s : State Double) : Budgeted Outcome := Budgeted.loop (fun s => pure (s.step format gap)) s

def stringify (value : Value Double) : Budgeted Outcome :=
  let s : State Double := ⟨[], [], [], .empty⟩
  match s.appendStringifiedValue format value false with
  | .error failure => pure (.failure failure)
  | .ok (.succeeded, s) => run format gap s
  | .ok (_, s) => pure (if s.builder.hasOverflowed then .outOfMemory else .undefined)

end

end JavaScriptCore.Stringifier
