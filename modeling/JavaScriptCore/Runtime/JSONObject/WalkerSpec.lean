import JavaScriptCore.Runtime.JSONObject.Walker

/-!
# The walk is the recursive one

ECMAScript defines what a reviver does to a tree by recursion (`InternalizeJSONProperty`). The five
stacks of the walker hold, for every container that is being walked, what the recursion has bound
there; from the state in which a value is looked at, the machine makes the calls of the recursion,
in its order, and goes on with its value.
-/

namespace JavaScriptCore.Walker

open Json ProgramLogic Budgeted LiteralParser Stringifier List

variable {Leaf : Type}

/-! ## The recursive definition -/

/-- An element that the reviver made undefined is deleted. -/
def element : Value Leaf → Option (Value Leaf)
  | .undefined => none
  | value => some value

/-- A member that the reviver made undefined is deleted. -/
def member (name : Text) : Value Leaf → List (Text × Value Leaf)
  | .undefined => []
  | value => [(name, value)]

section

variable (reviver : Text → Value Leaf → Value Leaf)

/-- The call for a property, after those for the members of its value. -/
def property (name : Text) (value : List (Call Leaf) × Value Leaf) :
    List (Call Leaf) × Value Leaf :=
  (value.1 ++ [(name, value.2)], reviver name value.2)

mutual

/-- The calls for the members of a value, and the value with its members revived. -/
def internalizeMembers : Value Leaf → List (Call Leaf) × Value Leaf
  | .undefined => ([], .undefined)
  | .leaf value => ([], .leaf value)
  | .array elements =>
    let revived := internalizeElements 0 elements
    (revived.1, .array revived.2)
  | .object members =>
    let revived := internalizeOwn members
    (revived.1, .object revived.2)

def internalizeElements (index : Nat) :
    List (Option (Value Leaf)) → List (Call Leaf) × List (Option (Value Leaf))
  | [] => ([], [])
  | none :: elements =>
    let first := property reviver (numberToStringImpl index []) ([], .undefined)
    let rest := internalizeElements (index + 1) elements
    (first.1 ++ rest.1, element first.2 :: rest.2)
  | some value :: elements =>
    let first := property reviver (numberToStringImpl index []) (internalizeMembers value)
    let rest := internalizeElements (index + 1) elements
    (first.1 ++ rest.1, element first.2 :: rest.2)

def internalizeOwn :
    List (Text × Value Leaf) → List (Call Leaf) × List (Text × Value Leaf)
  | [] => ([], [])
  | (name, value) :: members =>
    let first := property reviver name (internalizeMembers value)
    let rest := internalizeOwn members
    (first.1 ++ rest.1, member name first.2 ++ rest.2)

end

/-- `InternalizeJSONProperty` of ECMAScript. -/
def internalizeJSONProperty (name : Text) (value : Value Leaf) : List (Call Leaf) × Value Leaf :=
  property reviver name (internalizeMembers reviver value)

end

mutual

/-- The keys below a value, those of the members of a member before its own. -/
def Value.postOrder : Value Leaf → List Text
  | .undefined | .leaf _ => []
  | .array elements => postOrderElements 0 elements
  | .object members => postOrderOwn members

def postOrderElements (index : Nat) : List (Option (Value Leaf)) → List Text
  | [] => []
  | none :: elements => numberToStringImpl index [] :: postOrderElements (index + 1) elements
  | some value :: elements =>
    value.postOrder ++ numberToStringImpl index [] :: postOrderElements (index + 1) elements

def postOrderOwn : List (Text × Value Leaf) → List Text
  | [] => []
  | (name, value) :: members => value.postOrder ++ name :: postOrderOwn members

end

mutual

/-- How many containers contain each other. -/
def Value.depth : Value Leaf → Nat
  | .undefined | .leaf _ => 0
  | .array elements => depthElements elements + 1
  | .object members => depthOwn members + 1

def depthElements : List (Option (Value Leaf)) → Nat
  | [] => 0
  | none :: elements => depthElements elements
  | some value :: elements => max value.depth (depthElements elements)

def depthOwn : List (Text × Value Leaf) → Nat
  | [] => 0
  | (_, value) :: members => max value.depth (depthOwn members)

end

mutual

/-- The keys of an object are distinct. -/
def Value.WellFormed : Value Leaf → Prop
  | .undefined | .leaf _ => True
  | .array elements => WellFormedElements elements
  | .object members => (members.map (·.1)).Nodup ∧ WellFormedOwn members

def WellFormedElements : List (Option (Value Leaf)) → Prop
  | [] => True
  | none :: elements => WellFormedElements elements
  | some value :: elements => value.WellFormed ∧ WellFormedElements elements

def WellFormedOwn : List (Text × Value Leaf) → Prop
  | [] => True
  | (_, value) :: members => value.WellFormed ∧ WellFormedOwn members

end

section

variable {reviver : Text → Value Leaf → Value Leaf}

mutual

theorem keys_internalizeMembers (value : Value Leaf) :
    (internalizeMembers reviver value).1.map (·.1) = value.postOrder := by
  cases value with
  | undefined => rw [internalizeMembers, Value.postOrder, map_nil]
  | leaf value => rw [internalizeMembers, Value.postOrder, map_nil]
  | array es =>
    rw [internalizeMembers, Value.postOrder]
    exact keys_internalizeElements 0 es
  | object ms =>
    rw [internalizeMembers, Value.postOrder]
    exact keys_internalizeOwn ms

theorem keys_internalizeElements (i : Nat) (es : List (Option (Value Leaf))) :
    (internalizeElements reviver i es).1.map (·.1) = postOrderElements i es := by
  match es with
  | [] => rw [internalizeElements, postOrderElements, map_nil]
  | none :: es =>
    rw [internalizeElements, postOrderElements]
    simp only [property, nil_append, singleton_append, map_cons]
    rw [keys_internalizeElements (i + 1) es]
  | some value :: es =>
    rw [internalizeElements, postOrderElements]
    simp only [property, append_assoc, singleton_append, map_append, map_cons]
    rw [keys_internalizeElements (i + 1) es, keys_internalizeMembers value]

theorem keys_internalizeOwn (ms : List (Text × Value Leaf)) :
    (internalizeOwn reviver ms).1.map (·.1) = postOrderOwn ms := by
  match ms with
  | [] => rw [internalizeOwn, postOrderOwn, map_nil]
  | (name, value) :: ms =>
    rw [internalizeOwn, postOrderOwn]
    simp only [property, append_assoc, singleton_append, map_append, map_cons]
    rw [keys_internalizeOwn ms, keys_internalizeMembers value]

end

/-! ## Members of the container on top -/

theorem filterIndex_append (done : List (Option (Value Leaf))) (first : Option (Value Leaf))
    (rest : List (Option (Value Leaf))) (fv : Value Leaf) :
    filterIndex (done ++ first :: rest) done.length fv = done ++ element fv :: rest := by
  cases fv <;> simp [filterIndex, element]

variable {name : Text} {value : Value Leaf} {m : Machine Leaf} {post : Walked Leaf → Prop}
  {es : List (Option (Value Leaf))} {markedStack : List (Container Leaf)} {i : Nat}
  {indexStack : List Nat} {ms : List (Text × Value Leaf)}

/-- The names of the members already walked are not those of the others. -/
theorem getOwn_append {done rest : List (Text × Value Leaf)}
    (h : name ∉ done.map (·.1)) : getOwn (done ++ (name, value) :: rest) name = value := by
  have hd : done.lookup name = none := by
    rw [lookup_eq_none_iff]
    intro member hm
    exact bne_iff_ne.mpr fun heq => h (mem_map.mpr ⟨member, hm, heq.symm⟩)
  rw [getOwn, lookup_append, hd]
  simp

theorem filterOwn_append {done rest : List (Text × Value Leaf)}
    (hd : name ∉ done.map (·.1)) (hr : name ∉ rest.map (·.1)) (fv : Value Leaf) :
    filterOwn (done ++ (name, value) :: rest) name fv = done ++ member name fv ++ rest := by
  have hne : ∀ ms : List (Text × Value Leaf), name ∉ ms.map (·.1) →
      ∀ member ∈ ms, member.1 ≠ name := by
    intro ms hms member hm heq
    exact hms (mem_map.mpr ⟨member, hm, heq⟩)
  have hmap : ∀ (ms : List (Text × Value Leaf)) (new : Value Leaf), name ∉ ms.map (·.1) →
      ms.map (fun member => if member.1 = name then (name, new) else member) = ms := by
    intro ms new hms
    rw [map_congr_left fun member hm => if_neg (hne ms hms member hm)]
    exact map_id' ms
  have hput : ∀ new, put (done ++ (name, value) :: rest) name new =
      done ++ (name, new) :: rest := by
    intro new
    rw [put, if_pos (by simp), map_append, map_cons, if_pos rfl, hmap _ _ hd, hmap _ _ hr]
  cases fv with
  | undefined =>
    rw [filterOwn, member, append_nil, filter_append, filter_cons_of_neg (by simp),
      filter_eq_self.mpr, filter_eq_self.mpr]
    · exact fun member hm => decide_eq_true (hne rest hr member hm)
    · exact fun member hm => decide_eq_true (hne done hd member hm)
  | leaf _ | array _ | object _ => simp [filterOwn, member, hput]

/-! ## The machine -/

/-- What holds when the machine goes on from here. -/
def Runs (reviver : Text → Value Leaf → Value Leaf) (post : Walked Leaf → Prop) :
    Next Leaf → Prop
  | .inl m => Yields (m.run reviver) post
  | .inr walked => post walked

theorem yields_run (h : Runs reviver post (m.step reviver)) : Yields (m.run reviver) post := by
  apply yields_loop
  apply yields_pure
  revert h
  cases m.step reviver <;> exact id

/-- From the state in which a value is looked at, the machine makes the calls for its members and
leaves with the revived value. -/
def Delivers (reviver : Text → Value Leaf → Value Leaf) (value : Value Leaf) : Prop :=
  ∀ (m : Machine Leaf) (post : Walked Leaf → Prop), m.state = .stateUnknown → m.inValue = value →
    m.markedStack.length + value.depth ≤ maximumFilterRecursion + 1 →
    (∀ state inValue, Runs reviver post
      ({ m with
        state, inValue
        outValue := (internalizeMembers reviver value).2
        calls := m.calls ++ (internalizeMembers reviver value).1 }.leave reviver)) →
    Yields (m.run reviver) post

theorem delivers_leaf (h : ∀ m : Machine Leaf, m.inValue = value →
      m.unknown reviver = { m with outValue := value }.leave reviver)
    (hms : internalizeMembers reviver value = ([], value)) : Delivers reviver value := by
  intro m post hs hin _ hr
  apply yields_run
  rw [Machine.step, hs]
  rw [h m hin]
  have := hr m.state m.inValue
  rw [hms, append_nil] at this
  exact this

/-- The next element is looked at, and the machine comes back for its call. -/
theorem yields_visit_element {als : List Nat} {arrayLength : Nat}
    (hva : Delivers reviver value) (hs : m.state = .arrayStartVisitMember)
    (hm : m.markedStack = .array es :: markedStack) (hi : m.indexStack = i :: indexStack)
    (hlen : m.arrayLengthStack = arrayLength :: als) (hne : i ≠ arrayLength)
    (hget : getIndex es i = value)
    (hd : markedStack.length + 1 + value.depth ≤ maximumFilterRecursion + 1)
    (hr : ∀ inValue, Yields (Machine.run reviver { m with
        state := .arrayEndVisitMember, inValue
        outValue := (internalizeMembers reviver value).2
        calls := m.calls ++ (internalizeMembers reviver value).1 }) post) :
    Yields (m.run reviver) post := by
  obtain ⟨_, _, _, _, _, _, _, _, _⟩ := m
  cases hs
  cases hm
  cases hi
  cases hlen
  apply yields_run
  simp only [Machine.step, Machine.arrayVisit, if_neg hne, hget]
  cases value with
  | undefined | leaf _ =>
    have hv := hr
    simp only [internalizeMembers, append_nil] at hv
    exact hv _
  | array _ | object _ => exact hva _ post rfl rfl hd fun _ inValue => hr inValue

/-- The call for an element. -/
theorem yields_end_element (hs : m.state = .arrayEndVisitMember)
    (hm : m.markedStack = .array es :: markedStack) (hi : m.indexStack = i :: indexStack)
    (hr : Yields (Machine.run reviver { m with
        state := .arrayStartVisitMember
        calls := m.calls ++ [(numberToStringImpl i [], m.outValue)]
        markedStack := .array (filterIndex es i
          (reviver (numberToStringImpl i []) m.outValue)) :: markedStack
        indexStack := (i + 1) :: indexStack }) post) :
    Yields (m.run reviver) post := by
  obtain ⟨_, _, _, _, _, _, _, _, _⟩ := m
  cases hs
  cases hm
  cases hi
  exact yields_run hr

/-- The next member is looked at, and the machine comes back for its call. -/
theorem yields_visit_member {ps : List Text} {pstk : List (List Text)}
    (hva : Delivers reviver value) (hs : m.state = .objectStartVisitMember)
    (hm : m.markedStack = .object ms :: markedStack) (hi : m.indexStack = i :: indexStack)
    (hps : m.propertyStack = ps :: pstk) (hn : ps[i]? = some name) (hget : getOwn ms name = value)
    (hd : markedStack.length + 1 + value.depth ≤ maximumFilterRecursion + 1)
    (hr : ∀ inValue, Yields (Machine.run reviver { m with
        state := .objectEndVisitMember, inValue
        outValue := (internalizeMembers reviver value).2
        calls := m.calls ++ (internalizeMembers reviver value).1 }) post) :
    Yields (m.run reviver) post := by
  obtain ⟨_, _, _, _, _, _, _, _, _⟩ := m
  cases hs
  cases hm
  cases hi
  cases hps
  apply yields_run
  simp only [Machine.step, Machine.objectVisit, hn, hget]
  cases value with
  | undefined | leaf _ =>
    have hv := hr
    simp only [internalizeMembers, append_nil] at hv
    exact hv _
  | array _ | object _ => exact hva _ post rfl rfl hd fun _ inValue => hr inValue

/-- The call for a member. -/
theorem yields_end_member {ps : List Text} {pstk : List (List Text)}
    (hs : m.state = .objectEndVisitMember) (hm : m.markedStack = .object ms :: markedStack)
    (hi : m.indexStack = i :: indexStack) (hps : m.propertyStack = ps :: pstk)
    (hn : ps[i]? = some name) (hr : Yields (Machine.run reviver { m with
        state := .objectStartVisitMember
        calls := m.calls ++ [(name, m.outValue)]
        markedStack := .object (filterOwn ms name (reviver name m.outValue)) :: markedStack
        indexStack := (i + 1) :: indexStack }) post) :
    Yields (m.run reviver) post := by
  obtain ⟨_, _, _, _, _, _, _, _, _⟩ := m
  cases hs
  cases hm
  cases hi
  cases hps
  apply yields_run
  simp only [Machine.step, Machine.objectEnd, hn]
  exact hr

/-- From the state in which the next element is visited, the machine makes the calls for the
remaining elements and leaves with the array. -/
def DeliversElements (reviver : Text → Value Leaf → Value Leaf)
    (elements : List (Option (Value Leaf))) : Prop :=
  ∀ (m : Machine Leaf) (post : Walked Leaf → Prop) done markedStack indexStack arrayLengthStack,
    m.state = .arrayStartVisitMember → m.markedStack = .array (done ++ elements) :: markedStack →
    m.indexStack = done.length :: indexStack →
    m.arrayLengthStack = (done.length + elements.length) :: arrayLengthStack →
    markedStack.length + 1 + depthElements elements ≤ maximumFilterRecursion + 1 →
    (∀ state inValue, Runs reviver post
      ({ m with
        state, inValue, markedStack, indexStack, arrayLengthStack
        outValue := .array (done ++ (internalizeElements reviver done.length elements).2)
        calls := m.calls ++ (internalizeElements reviver done.length elements).1 }.leave
          reviver)) →
    Yields (m.run reviver) post

theorem deliversElements_nil : DeliversElements reviver [] := by
  intro m post done markedStack indexStack als hs hm hi hlen _ hr
  obtain ⟨_, _, _, _, _, _, _, _, _⟩ := m
  cases hs
  cases hm
  cases hi
  cases hlen
  apply yields_run
  have hl := hr
  simp only [internalizeElements, append_nil] at hl
  simp only [Machine.step, Machine.arrayVisit, append_nil, length_nil, Nat.add_zero, if_true]
  exact hl _ _

/-- A hole reads as undefined. -/
theorem deliversElements_cons {first : Option (Value Leaf)}
    (hf : Delivers reviver (first.getD .undefined)) (hes : DeliversElements reviver es)
    (hi : ∀ i, internalizeElements reviver i (first :: es) =
      let value := property reviver (numberToStringImpl i [])
        (internalizeMembers reviver (first.getD .undefined))
      let rest := internalizeElements reviver (i + 1) es
      (value.1 ++ rest.1, element value.2 :: rest.2))
    (hd : depthElements (first :: es) =
      max (first.getD .undefined).depth (depthElements es)) :
    DeliversElements reviver (first :: es) := by
  intro m post done markedStack indexStack als hs hm hix hlen hle hr
  rw [hd] at hle
  refine yields_visit_element hf hs hm hix hlen (by simp) (by simp [getIndex]) (by omega)
    fun inValue => ?_
  refine yields_end_element rfl hm hix ?_
  refine hes _ post (done ++ [element (reviver (numberToStringImpl done.length [])
      (internalizeMembers reviver (first.getD .undefined)).2)]) markedStack indexStack
    als rfl ?_ ?_ ?_ (by omega) fun state inValue => ?_
  · simp [filterIndex_append]
  · rw [length_append, length_singleton]
  · rw [hlen, length_append, length_cons, length_singleton, Nat.add_assoc, Nat.add_comm 1]
  · have hl := hr state inValue
    rw [hi done.length] at hl
    simpa [property] using hl

/-- From the state in which the next member is visited, the machine makes the calls for the
remaining members and leaves with the object. -/
def DeliversOwn (reviver : Text → Value Leaf → Value Leaf) (members : List (Text × Value Leaf)) :
    Prop :=
  ∀ (m : Machine Leaf) (post : Walked Leaf → Prop) walked done markedStack indexStack propertyStack,
    m.state = .objectStartVisitMember → m.markedStack = .object (done ++ members) :: markedStack →
    m.indexStack = length walked :: indexStack →
    m.propertyStack = (walked ++ members.map (·.1)) :: propertyStack →
    (∀ name ∈ members.map (·.1), name ∉ done.map (·.1)) →
    markedStack.length + 1 + depthOwn members ≤ maximumFilterRecursion + 1 →
    (∀ state inValue, Runs reviver post
      ({ m with
        state, inValue, markedStack, indexStack, propertyStack
        outValue := .object (done ++ (internalizeOwn reviver members).2)
        calls := m.calls ++ (internalizeOwn reviver members).1 }.leave reviver)) →
    Yields (m.run reviver) post

theorem deliversOwn_nil : DeliversOwn reviver [] := by
  intro m post walked done markedStack indexStack pstk hs hm hi hps _ _ hr
  obtain ⟨_, _, _, _, _, _, _, _, _⟩ := m
  cases hs
  cases hm
  cases hi
  cases hps
  apply yields_run
  have hl := hr
  simp only [internalizeOwn, append_nil] at hl
  simp only [Machine.step, Machine.objectVisit, map_nil, append_nil,
    List.getElem?_eq_none (Nat.le_refl walked.length)]
  exact hl _ _

theorem deliversOwn_cons (hv : Delivers reviver value) (hms : DeliversOwn reviver ms)
    (hna : name ∉ ms.map (·.1)) : DeliversOwn reviver ((name, value) :: ms) := by
  intro m post walked done markedStack indexStack pstk hs hm hi hps hd hde hr
  rw [depthOwn] at hde
  have hn : name ∉ done.map (·.1) := hd name mem_cons_self
  have hget : (walked ++ ((name, value) :: ms).map (·.1))[walked.length]? = some name := by
    simp
  refine yields_visit_member hv hs hm hi hps hget (getOwn_append hn) (by omega) fun inValue => ?_
  refine yields_end_member rfl hm hi hps hget ?_
  refine hms _ post (walked ++ [name])
    (done ++ member name (reviver name (internalizeMembers reviver value).2)) markedStack indexStack
    pstk rfl ?_ ?_ ?_ ?_ (by omega) fun state inValue => ?_
  · simp only [filterOwn_append hn hna]
  · rw [length_append, length_singleton]
  · rw [hps, append_assoc]
    rfl
  · intro other ho
    rw [map_append, mem_append]
    rintro (hold | hnew)
    · exact hd other (mem_cons_of_mem _ ho) hold
    · obtain rfl : other = name := by
        cases hres : reviver name (internalizeMembers reviver value).2 <;>
          simp_all [member]
      exact hna ho
  · have hl := hr state inValue
    rw [internalizeOwn] at hl
    simpa [property] using hl

mutual

theorem delivers (value : Value Leaf) (h : value.WellFormed) : Delivers reviver value := by
  match value with
  | .undefined => exact delivers_leaf (fun m hm => by rw [Machine.unknown, hm]) (by
      rw [internalizeMembers])
  | .leaf value => exact delivers_leaf (fun m hm => by rw [Machine.unknown, hm]) (by
      rw [internalizeMembers])
  | .array es =>
    rw [Value.WellFormed] at h
    intro m post hs hin hd hr
    obtain ⟨_, _, _, _, _, _, _, _, _⟩ := m
    cases hs
    cases hin
    rw [Value.depth] at hd
    rw [internalizeMembers] at hr
    refine yields_run (yields_run ?_)
    simp only at hd
    rw [Machine.step]
    simp only [Machine.arrayStart]
    rw [if_neg (by omega)]
    exact deliversElements es h _ post [] _ _ _ rfl rfl rfl (by simp) (by omega) hr
  | .object ms =>
    rw [Value.WellFormed] at h
    intro m post hs hin hd hr
    obtain ⟨_, _, _, _, _, _, _, _, _⟩ := m
    cases hs
    cases hin
    rw [Value.depth] at hd
    rw [internalizeMembers] at hr
    refine yields_run (yields_run ?_)
    simp only at hd
    rw [Machine.step]
    simp only [Machine.objectStart]
    rw [if_neg (by omega)]
    exact deliversOwn ms h.2 h.1 _ post [] [] _ _ _ rfl rfl rfl rfl (by simp) (by omega) hr

theorem deliversElements (es : List (Option (Value Leaf)))
    (h : WellFormedElements es) : DeliversElements reviver es := by
  match es with
  | [] => exact deliversElements_nil
  | none :: es =>
    rw [WellFormedElements] at h
    refine deliversElements_cons (delivers .undefined trivial) (deliversElements es h)
      (fun i => ?_) ?_
    · rw [internalizeElements, Option.getD_none, internalizeMembers]
    · rw [depthElements, Option.getD_none, Value.depth, Nat.zero_max]
  | some value :: es =>
    rw [WellFormedElements] at h
    refine deliversElements_cons (delivers value h.1) (deliversElements es h.2) (fun i => ?_) ?_
    · rw [internalizeElements, Option.getD_some]
    · rw [depthElements, Option.getD_some]

theorem deliversOwn (ms : List (Text × Value Leaf)) (h : WellFormedOwn ms)
    (hnd : (ms.map (·.1)).Nodup) : DeliversOwn reviver ms := by
  match ms with
  | [] => exact deliversOwn_nil
  | (name, value) :: ms =>
    rw [WellFormedOwn] at h
    rw [map_cons, nodup_cons] at hnd
    exact deliversOwn_cons (delivers value h.1) (deliversOwn ms h.2 hnd.2) hnd.1

end

/-- The walk of a tree that is nested at most so deeply makes the calls of the recursive
definition, one for every key below the root in post-order and one for the empty key, and returns
its value. -/
theorem walk_eq_internalizeJSONProperty (reviver : Text → Value Leaf → Value Leaf) (null : Leaf)
    (unfiltered : Value Leaf) (h : unfiltered.WellFormed)
    (hdepth : unfiltered.depth ≤ maximumFilterRecursion + 1) :
    Yields (walk reviver null unfiltered) (fun walked =>
      walked.outcome = .value (internalizeJSONProperty reviver [] unfiltered).2 ∧
        walked.calls = (internalizeJSONProperty reviver [] unfiltered).1 ∧
        walked.calls.map (·.1) = unfiltered.postOrder ++ [[]]) := by
  refine delivers unfiltered h _ _ rfl rfl (by simpa using hdepth) fun state inValue => ?_
  refine ⟨rfl, rfl, ?_⟩
  rw [map_append, nil_append, keys_internalizeMembers]
  rfl

/-- `[1, {"b": 2}]` -/
def nested : Value Nat := .array [some (.leaf 1), some (.object [([0x62], .leaf 2)])]

/-- Drops the members named `b`. -/
def dropB (name : Text) (value : Value Nat) : Value Nat :=
  if name = [0x62] then .undefined else value

theorem walk_nested : Yields (walk dropB 0 nested) (fun walked =>
    walked.outcome = .value (.array [some (.leaf 1), some (.object [])]) ∧
      walked.calls.map (·.1) = [[0x30], [0x62], [0x31], []]) := by
  refine (walk_eq_internalizeJSONProperty dropB 0 nested ?_ ?_).mono fun walked hwalked => ?_
  · simp [nested, Value.WellFormed, WellFormedElements, WellFormedOwn]
  · simp [nested, Value.depth, depthElements, depthOwn, maximumFilterRecursion]
  · obtain ⟨houtcome, _, hkeys⟩ := hwalked
    constructor
    · rw [houtcome]
      simp [internalizeJSONProperty, nested, internalizeMembers, internalizeElements,
        internalizeOwn, property, dropB, element, member, numberToStringImpl]
    · rw [hkeys]
      simp [nested, Value.postOrder, postOrderElements, postOrderOwn, numberToStringImpl]

end

end JavaScriptCore.Walker
