import JavaScriptCore.Runtime.JSONObject.Stringifier

/-!
# The walker of `JSON.parse`

`runtime/JSONObject.cpp:606-797`: `Walker::walk`, a depth-first walk with five stacks in the place
of recursion. One round through a `case` is one step; a `goto` is a step to the state of its label,
a `break` pops `stateStack`.

The members of an object are its own properties in the order in which they are enumerated. The
container on top of `markedStack` is changed in place; its holder gets it back when its walk is
over, through the reviver. The reviver is a function of the key and the value: the holder, which the
source passes as `this`, and exceptions are left out.
-/

namespace JavaScriptCore.Walker

open Json ProgramLogic Budgeted LiteralParser Stringifier

variable {Leaf : Type}

/-- A leaf is a value the walker does not look into. A hole of an array is `none`. -/
inductive Value (Leaf : Type) where
  | undefined
  | leaf (value : Leaf)
  | array (elements : List (Option (Value Leaf)))
  | object (members : List (Text × Value Leaf))

/-- The entries of `markedStack`. -/
inductive Container (Leaf : Type) where
  | array (elements : List (Option (Value Leaf)))
  | object (members : List (Text × Value Leaf))

inductive WalkerState where
  | stateUnknown
  | arrayStartState | arrayStartVisitMember | arrayEndVisitMember
  | objectStartState | objectStartVisitMember | objectEndVisitMember
  deriving DecidableEq, Repr

/-- A call of the reviver. -/
abbrev Call (Leaf : Type) := Text × Value Leaf

/-- The top of each stack comes first. -/
structure Machine (Leaf : Type) where
  state : WalkerState
  inValue : Value Leaf
  outValue : Value Leaf
  propertyStack : List (List Text)
  indexStack : List Nat
  markedStack : List (Container Leaf)
  arrayLengthStack : List Nat
  stateStack : List WalkerState
  calls : List (Call Leaf)

/-- What is returned: a value, an exception, or nothing after a failed assertion. -/
inductive Outcome (Leaf : Type) where
  | value (value : Value Leaf)
  | stackOverflow
  | crash

/-- With the calls of the reviver, in order. -/
structure Walked (Leaf : Type) where
  outcome : Outcome Leaf
  calls : List (Call Leaf)

abbrev Next (Leaf : Type) := Machine Leaf ⊕ Walked Leaf

def maximumFilterRecursion : Nat := 40000

/-! ## Properties -/

/-- `getIndexQuickly` or `getOwnPropertySlotByIndex`. -/
def getIndex (elements : List (Option (Value Leaf))) (index : Nat) : Value Leaf :=
  ((elements[index]?).getD none).getD .undefined

/-- `deletePropertyByIndex` or `putDirectIndex`, for an index below the length. -/
def filterIndex (elements : List (Option (Value Leaf))) (index : Nat) :
    Value Leaf → List (Option (Value Leaf))
  | .undefined => elements.set index none
  | filteredValue => elements.set index (some filteredValue)

/-- `getOwnPropertySlot`. -/
def getOwn (members : List (Text × Value Leaf)) (name : Text) : Value Leaf :=
  (members.lookup name).getD .undefined

/-- `put`: an own property is overwritten in place. -/
def put (members : List (Text × Value Leaf)) (name : Text) (value : Value Leaf) :
    List (Text × Value Leaf) :=
  if members.any (·.1 == name) then
    members.map fun member => if member.1 = name then (name, value) else member
  else putProperty name value members

/-- `deleteProperty` or `put`. -/
def filterOwn (members : List (Text × Value Leaf)) (name : Text) :
    Value Leaf → List (Text × Value Leaf)
  | .undefined => members.filter (·.1 ≠ name)
  | filteredValue => put members name filteredValue

/-! ## The machine -/

section

variable (reviver : Text → Value Leaf → Value Leaf)

def Machine.crash (m : Machine Leaf) : Next Leaf := .inr ⟨.crash, m.calls⟩

/-- What follows the `switch`, and the last call when the loop is left. -/
def Machine.leave (m : Machine Leaf) : Next Leaf :=
  match m.stateStack with
  | [] => .inr ⟨.value (reviver [] m.outValue), m.calls ++ [([], m.outValue)]⟩
  | state :: stateStack => .inl { m with state, stateStack }

def Machine.arrayStart (m : Machine Leaf) : Next Leaf :=
  if m.markedStack.length > maximumFilterRecursion then .inr ⟨.stackOverflow, m.calls⟩
  else
    match m.inValue with
    | .array elements =>
      .inl { m with
        markedStack := .array elements :: m.markedStack
        arrayLengthStack := elements.length :: m.arrayLengthStack
        indexStack := 0 :: m.indexStack
        state := .arrayStartVisitMember }
    | _ => m.crash

def Machine.arrayVisit (m : Machine Leaf) : Next Leaf :=
  match m.markedStack, m.indexStack, m.arrayLengthStack with
  | .array elements :: markedStack, index :: indexStack, arrayLength :: arrayLengthStack =>
    if index = arrayLength then
      { m with outValue := .array elements, markedStack, indexStack, arrayLengthStack }.leave
        reviver
    else
      let inValue := getIndex elements index
      match inValue with
      | .array _ | .object _ =>
        .inl { m with
          inValue
          stateStack := .arrayEndVisitMember :: m.stateStack
          state := .stateUnknown }
      | _ => .inl { m with inValue, outValue := inValue, state := .arrayEndVisitMember }
  | _, _, _ => m.crash

def Machine.arrayEnd (m : Machine Leaf) : Next Leaf :=
  match m.markedStack, m.indexStack with
  | .array elements :: markedStack, index :: indexStack =>
    let name := numberToStringImpl index []
    let filteredValue := reviver name m.outValue
    .inl { m with
      calls := m.calls ++ [(name, m.outValue)]
      markedStack := .array (filterIndex elements index filteredValue) :: markedStack
      indexStack := (index + 1) :: indexStack
      state := .arrayStartVisitMember }
  | _, _ => m.crash

def Machine.objectStart (m : Machine Leaf) : Next Leaf :=
  if m.markedStack.length > maximumFilterRecursion then .inr ⟨.stackOverflow, m.calls⟩
  else
    match m.inValue with
    | .object members =>
      .inl { m with
        markedStack := .object members :: m.markedStack
        indexStack := 0 :: m.indexStack
        propertyStack := members.map (·.1) :: m.propertyStack
        state := .objectStartVisitMember }
    | _ => m.crash

def Machine.objectVisit (m : Machine Leaf) : Next Leaf :=
  match m.markedStack, m.indexStack, m.propertyStack with
  | .object members :: markedStack, index :: indexStack, properties :: propertyStack =>
    match properties[index]? with
    | none =>
      { m with outValue := .object members, markedStack, indexStack, propertyStack }.leave reviver
    | some name =>
      let inValue := getOwn members name
      match inValue with
      | .array _ | .object _ =>
        .inl { m with
          inValue
          stateStack := .objectEndVisitMember :: m.stateStack
          state := .stateUnknown }
      | _ => .inl { m with inValue, outValue := inValue, state := .objectEndVisitMember }
  | _, _, _ => m.crash

def Machine.objectEnd (m : Machine Leaf) : Next Leaf :=
  match m.markedStack, m.indexStack, m.propertyStack with
  | .object members :: markedStack, index :: indexStack, properties :: _ =>
    match properties[index]? with
    | none => m.crash
    | some name =>
      let filteredValue := reviver name m.outValue
      .inl { m with
        calls := m.calls ++ [(name, m.outValue)]
        markedStack := .object (filterOwn members name filteredValue) :: markedStack
        indexStack := (index + 1) :: indexStack
        state := .objectStartVisitMember }
  | _, _, _ => m.crash

def Machine.unknown (m : Machine Leaf) : Next Leaf :=
  match m.inValue with
  | .array _ => .inl { m with state := .arrayStartState }
  | .object _ => .inl { m with state := .objectStartState }
  | inValue => { m with outValue := inValue }.leave reviver

def Machine.step (m : Machine Leaf) : Next Leaf :=
  match m.state with
  | .arrayStartState => m.arrayStart
  | .arrayStartVisitMember => m.arrayVisit reviver
  | .arrayEndVisitMember => m.arrayEnd reviver
  | .objectStartState => m.objectStart
  | .objectStartVisitMember => m.objectVisit reviver
  | .objectEndVisitMember => m.objectEnd reviver
  | .stateUnknown => m.unknown reviver

def Machine.run (m : Machine Leaf) : Budgeted (Walked Leaf) :=
  Budgeted.loop (fun m => pure (m.step reviver)) m

/-- `outValue` is `jsNull()` at the beginning. -/
def walk (null : Leaf) (unfiltered : Value Leaf) : Budgeted (Walked Leaf) :=
  Machine.run reviver
    { state := .stateUnknown
      inValue := unfiltered
      outValue := .leaf null
      propertyStack := []
      indexStack := []
      markedStack := []
      arrayLengthStack := []
      stateStack := []
      calls := [] }

end

end JavaScriptCore.Walker
