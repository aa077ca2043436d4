import JavaScriptCore.ProgramLogic.Interleaving

/-!
# `LockAlgorithm`

`wtf/LockAlgorithm.h` and `wtf/LockAlgorithmInlines.h`, for threads that take turns at the word, one
access at a time. `ParkingLot` gives a queue of threads behind a lock of its own: `compareAndPark`
compares and enqueues under that lock, and `unparkOne` dequeues a thread and runs the callback under
it. A weak compare-and-swap may fail for no reason, and whoever asks `ParkingLot` may be told of
threads that are not there.
-/

namespace JavaScriptCore.Wtf

/-- An instance of the template: the word has `w` bits. The bits lie in the byte that `unlockSlow`
reads, and no hook changes them. -/
structure LockAlgorithm (w : Nat) where
  heldIndex : Nat
  parkedIndex : Nat
  lockHook : BitVec w → BitVec w
  unlockHook : BitVec w → BitVec w
  parkHook : BitVec w → BitVec w
  handoffHook : BitVec w → BitVec w
  heldIndex_lt : heldIndex < w ∧ heldIndex < 8
  parkedIndex_lt : parkedIndex < w ∧ parkedIndex < 8
  index_ne : heldIndex ≠ parkedIndex
  hooks_keep : ∀ hook ∈ [lockHook, unlockHook, parkHook, handoffHook], ∀ v,
    (hook v).getLsbD heldIndex = v.getLsbD heldIndex ∧
      (hook v).getLsbD parkedIndex = v.getLsbD parkedIndex

namespace LockAlgorithm

variable {w : Nat}

def isHeldBit (a : LockAlgorithm w) : BitVec w := .twoPow w a.heldIndex

def hasParkedBit (a : LockAlgorithm w) : BitVec w := .twoPow w a.parkedIndex

def mask (a : LockAlgorithm w) : BitVec w := a.isHeldBit ||| a.hasParkedBit

/-- `value & isHeldBit` as a condition. -/
def isHeld (a : LockAlgorithm w) (value : BitVec w) : Bool := value &&& a.isHeldBit != 0

/-- `value & hasParkedBit` as a condition. -/
def hasParked (a : LockAlgorithm w) (value : BitVec w) : Bool := value &&& a.hasParkedBit != 0

/-! ## Instances -/

/-- `EmptyLockHooks`. -/
def withoutHooks (heldIndex parkedIndex : Nat) (hheld : heldIndex < 8) (hparked : parkedIndex < 8)
    (hne : heldIndex ≠ parkedIndex) : LockAlgorithm 8 where
  heldIndex := heldIndex
  parkedIndex := parkedIndex
  lockHook := id
  unlockHook := id
  parkHook := id
  handoffHook := id
  heldIndex_lt := ⟨hheld, hheld⟩
  parkedIndex_lt := ⟨hparked, hparked⟩
  index_ne := hne
  hooks_keep := by simp

/-- `DefaultLockAlgorithm` of `wtf/Lock.h`. -/
def defaultLockAlgorithm : LockAlgorithm 8 := withoutHooks 0 1 (by decide) (by decide) (by decide)

/-- `IndexingTypeLockAlgorithm` of `runtime/IndexingType.h`. -/
def indexingTypeLockAlgorithm : LockAlgorithm 8 :=
  withoutHooks 6 7 (by decide) (by decide) (by decide)

theorem getLsbD_add_countUnit (v : BitVec 32) :
    (v + 4#32).getLsbD 0 = v.getLsbD 0 ∧ (v + 4#32).getLsbD 1 = v.getLsbD 1 := by
  simp only [BitVec.getLsbD, BitVec.toNat_add, BitVec.toNat_ofNat, Nat.testBit_zero,
    Nat.testBit_succ, decide_eq_decide]
  omega

/-- `ExclusiveAlgorithm` of `wtf/CountingLock.h`: locking counts. -/
def exclusiveAlgorithm : LockAlgorithm 32 where
  heldIndex := 0
  parkedIndex := 1
  lockHook := fun value => value + 4#32
  unlockHook := id
  parkHook := id
  handoffHook := id
  heldIndex_lt := by decide
  parkedIndex_lt := by decide
  index_ne := by decide
  hooks_keep := by
    simp only [List.mem_cons, List.not_mem_nil, or_false, forall_eq_or_imp, forall_eq, id_eq]
    exact ⟨getLsbD_add_countUnit, by simp, by simp, by simp⟩

/-! ## Threads -/

inductive Fairness where
  | unfair
  | fair
  deriving DecidableEq, Repr

inductive Token where
  | bargingOpportunity
  | directHandoff
  deriving DecidableEq, Repr

/-- Where a thread is, with its local variables. `relock` says whether an unlock is the first half
of `safepointSlow`. `wasUnparked` says whether the last call of `compareAndPark` returned because
the thread was unparked. -/
inductive PC (w : Nat) (T : Type) where
  | outside
  | inside
  | lockFastAssumingZero
  | lockFast
  | lockFastCAS (oldValue : BitVec w)
  | lockSlow (spinCount : Nat) (wasUnparked : Bool)
  | lockSlowBarge (currentValue : BitVec w) (spinCount : Nat) (wasUnparked : Bool)
  | lockSlowSetParked (currentValue : BitVec w) (spinCount : Nat) (wasUnparked : Bool)
  | lockSlowPark (currentValue : BitVec w) (spinCount : Nat) (wasUnparked : Bool)
  | parked (spinCount : Nat)
  | unparked (token : Token) (spinCount : Nat)
  | tryLock
  | tryLockCAS (currentValue : BitVec w)
  | safepoint
  | unlockFastAssumingZero (fairness : Fairness)
  | unlockFast (fairness : Fairness) (relock : Bool)
  | unlockFastCAS (oldValue : BitVec w) (fairness : Fairness) (relock : Bool)
  | unlockSlow (fairness : Fairness) (relock : Bool)
  | unlockSlowCAS (oldByteValue : BitVec w) (fairness : Fairness) (relock : Bool)
  | unparkOne (fairness : Fairness) (relock : Bool)
  | handoff (thread : T) (relock : Bool)
  | handoffCAS (oldValue : BitVec w) (thread : T) (relock : Bool)
  | release (thread : Option T) (mayHaveMoreThreads relock : Bool)
  | releaseCAS (oldValue : BitVec w) (thread : Option T) (mayHaveMoreThreads relock : Bool)
  | callbackDone (thread : Option T) (token : Token) (relock : Bool)
  | signal (thread : Option T) (token : Token) (relock : Bool)
  | crashed

/-- The word, the queue of `ParkingLot` for its address, and the thread that has locked it. -/
structure State (w : Nat) (T : Type) where
  word : BitVec w
  queue : List T
  queueLock : Option T
  pc : T → PC w T

inductive Operation where
  | lock
  | lockAssumingZero
  | tryLock
  | unlock
  | unlockAssumingZero (fairness : Fairness)
  | unlockFairly
  | safepoint
  deriving DecidableEq, Repr

/-- What the program does not decide: the next operation of the thread, whether a compare-and-swap
fails although the values agree, and what `ParkingLot` reports. -/
structure Choice where
  operation : Operation
  spurious : Bool
  moreThreads : Bool
  timeToBeFair : Bool
  deriving DecidableEq, Repr

/-! ## Accesses -/

/-- One access of a thread to what is shared, and where it goes from there. -/
inductive Access (w : Nat) (T : Type) where
  | goto (next : PC w T)
  | load (next : BitVec w → PC w T)
  | compareExchangeWeak (expected desired : BitVec w) (success failure : PC w T)
  | compareAndPark (expected : BitVec w) (sleep changed : PC w T)
  | dequeue (next : Option T → Bool → PC w T)
  | unlockQueue (next : PC w T)
  | wake (thread : Option T) (token : Token) (next : PC w T)
  | stuck

section

variable {T : Type} (a : LockAlgorithm w)

/-- An operation is called outside the lock, or by the thread inside. -/
def begin : Operation → PC w T → Access w T
  | .lock, .outside => .goto .lockFast
  | .lockAssumingZero, .outside => .goto .lockFastAssumingZero
  | .tryLock, .outside => .goto .tryLock
  | .unlock, .inside => .goto (.unlockFast .unfair false)
  | .unlockAssumingZero fairness, .inside => .goto (.unlockFastAssumingZero fairness)
  | .unlockFairly, .inside => .goto (.unlockFast .fair false)
  | .safepoint, .inside => .goto .safepoint
  | _, _ => .stuck

/-- After an unlock. -/
def unlocked (relock : Bool) : PC w T := if relock then .lockFast else .outside

/-- The two checks before `compareAndPark`. -/
def needToPark (currentValue : BitVec w) (spinCount : Nat) (wasUnparked : Bool) : PC w T :=
  if !a.isHeld currentValue then .crashed
  else if !a.hasParked currentValue then .crashed
  else .lockSlowPark currentValue spinCount wasUnparked

def spinLimit : Nat := 40

/-- A round of `lockSlow`, after the load. -/
def lockSlowRound (spinCount : Nat) (wasUnparked : Bool) (currentValue : BitVec w) : PC w T :=
  if !a.isHeld currentValue then .lockSlowBarge currentValue spinCount wasUnparked
  else if !a.hasParked currentValue && spinCount < spinLimit then
    .lockSlow (spinCount + 1) wasUnparked
  else if !a.hasParked currentValue then .lockSlowSetParked currentValue spinCount wasUnparked
  else a.needToPark currentValue spinCount wasUnparked

/-- `uint8_t oldByteValue = lock.load()`. -/
def oldByteValue (value : BitVec w) : BitVec w := (value.setWidth 8).setWidth w

/-- A round of `unlockSlow`, after the load. -/
def unlockSlowRound (fairness : Fairness) (relock : Bool) (value : BitVec w) : PC w T :=
  if oldByteValue value &&& a.mask ≠ a.isHeldBit ∧ oldByteValue value &&& a.mask ≠ a.mask then
    .crashed
  else if oldByteValue value &&& a.mask = a.isHeldBit then
    .unlockSlowCAS (oldByteValue value) fairness relock
  else .unparkOne fairness relock

/-- The callback of `unlockSlow`: hand the lock over, or release it. -/
def callback (fairness : Fairness) (relock timeToBeFair : Bool) (thread : Option T)
    (mayHaveMoreThreads : Bool) : PC w T :=
  match thread with
  | some thread =>
    if fairness = .fair ∨ timeToBeFair then .handoff thread relock
    else .release (some thread) mayHaveMoreThreads relock
  | none => .release none mayHaveMoreThreads relock

def handoffRound (thread : T) (relock : Bool) (value : BitVec w) : PC w T :=
  if a.handoffHook value = value then .callbackDone (some thread) .directHandoff relock
  else .handoffCAS value thread relock

/-- The word that the callback leaves when it releases the lock. -/
def releasedValue (mayHaveMoreThreads : Bool) (value : BitVec w) : BitVec w :=
  if mayHaveMoreThreads then a.unlockHook (value &&& ~~~a.mask) ||| a.hasParkedBit
  else a.unlockHook (value &&& ~~~a.mask)

/-- The program: the access that a thread makes next. -/
def access (choice : Choice) : PC w T → Access w T
  | .outside => begin choice.operation .outside
  | .inside => begin choice.operation .inside
  | .lockFastAssumingZero =>
    .compareExchangeWeak 0 (a.lockHook a.isHeldBit) .inside (.lockSlow 0 false)
  | .lockFast => .load fun value => if a.isHeld value then .lockSlow 0 false else .lockFastCAS value
  | .lockFastCAS oldValue =>
    .compareExchangeWeak oldValue (a.lockHook (oldValue ||| a.isHeldBit)) .inside .lockFast
  | .lockSlow spinCount wasUnparked => .load (a.lockSlowRound spinCount wasUnparked)
  | .lockSlowBarge currentValue spinCount wasUnparked =>
    .compareExchangeWeak currentValue (a.lockHook (currentValue ||| a.isHeldBit)) .inside
      (.lockSlow spinCount wasUnparked)
  | .lockSlowSetParked currentValue spinCount wasUnparked =>
    let newValue := a.parkHook (currentValue ||| a.hasParkedBit)
    .compareExchangeWeak currentValue newValue (a.needToPark newValue spinCount wasUnparked)
      (.lockSlow spinCount wasUnparked)
  | .lockSlowPark currentValue spinCount _ =>
    .compareAndPark currentValue (.parked spinCount) (.lockSlow spinCount false)
  | .parked _ => .stuck
  | .unparked .directHandoff _ => .load fun value => if a.isHeld value then .inside else .crashed
  | .unparked .bargingOpportunity spinCount => .goto (.lockSlow spinCount true)
  | .tryLock => .load fun value => if a.isHeld value then .outside else .tryLockCAS value
  | .tryLockCAS currentValue =>
    .compareExchangeWeak currentValue (a.lockHook (currentValue ||| a.isHeldBit)) .inside .tryLock
  | .safepoint => .load fun value => if a.hasParked value then .unlockFast .fair true else .inside
  | .unlockFastAssumingZero fairness =>
    .compareExchangeWeak a.isHeldBit (a.unlockHook 0) .outside (.unlockSlow fairness false)
  | .unlockFast fairness relock => .load fun value =>
    if value &&& a.mask ≠ a.isHeldBit then .unlockSlow fairness relock
    else .unlockFastCAS value fairness relock
  | .unlockFastCAS oldValue fairness relock =>
    .compareExchangeWeak oldValue (a.unlockHook (oldValue &&& ~~~a.isHeldBit)) (unlocked relock)
      (.unlockFast fairness relock)
  | .unlockSlow fairness relock => .load (a.unlockSlowRound fairness relock)
  | .unlockSlowCAS oldByteValue fairness relock =>
    .compareExchangeWeak oldByteValue (a.unlockHook (oldByteValue &&& ~~~a.isHeldBit))
      (unlocked relock) (.unlockSlow fairness relock)
  | .unparkOne fairness relock => .dequeue (callback fairness relock choice.timeToBeFair)
  | .handoff thread relock => .load (a.handoffRound thread relock)
  | .handoffCAS oldValue thread relock =>
    .compareExchangeWeak oldValue (a.handoffHook oldValue)
      (.callbackDone (some thread) .directHandoff relock) (.handoff thread relock)
  | .release thread mayHaveMoreThreads relock =>
    .load fun value => .releaseCAS value thread mayHaveMoreThreads relock
  | .releaseCAS oldValue thread mayHaveMoreThreads relock =>
    .compareExchangeWeak oldValue (a.releasedValue mayHaveMoreThreads oldValue)
      (.callbackDone thread .bargingOpportunity relock) (.release thread mayHaveMoreThreads relock)
  | .callbackDone thread token relock => .unlockQueue (.signal thread token relock)
  | .signal thread token relock => .wake thread token (unlocked relock)
  | .crashed => .stuck

end

section

variable {T : Type} [DecidableEq T]

/-- A dequeued thread goes on from `compareAndPark`. -/
def PC.unpark (token : Token) : PC w T → PC w T
  | .parked spinCount => .unparked token spinCount
  | pc => pc

def State.goto (s : State w T) (t : T) (next : PC w T) : State w T :=
  { s with pc := Function.update s.pc t next }

/-- What the access does. A thread that needs the lock of the queue waits until it is free. -/
def perform (s : State w T) (t : T) (choice : Choice) : Access w T → Option (State w T)
  | .goto next => some (s.goto t next)
  | .load next => some (s.goto t (next s.word))
  | .compareExchangeWeak expected desired success failure =>
    if s.word = expected ∧ !choice.spurious then some { s.goto t success with word := desired }
    else some (s.goto t failure)
  | .compareAndPark expected sleep changed =>
    if s.queueLock ≠ none then none
    else if s.word = expected then some { s.goto t sleep with queue := s.queue ++ [t] }
    else some (s.goto t changed)
  | .dequeue next =>
    if s.queueLock ≠ none then none
    else
      -- `mayHaveMoreThreads` is never false by mistake, and false if nothing was dequeued
      match s.queue with
      | [] => some { s.goto t (next none false) with queueLock := some t }
      | u :: queue =>
        some { s.goto t (next (some u) (!queue.isEmpty || choice.moreThreads)) with
          queue := queue, queueLock := some t }
  | .unlockQueue next => some { s.goto t next with queueLock := none }
  | .wake thread token next =>
    match thread with
    | none => some (s.goto t next)
    | some u => some ((s.goto u ((s.pc u).unpark token)).goto t next)
  | .stuck => none

def step (a : LockAlgorithm w) (s : State w T) (turn : T × Choice) : Option (State w T) :=
  perform s turn.1 turn.2 (a.access turn.2 (s.pc turn.1))

end

/-- Nobody has come near the lock; the other bits of the word are anything. -/
def initial {T : Type} (value : BitVec w) : State w T where
  word := value
  queue := []
  queueLock := none
  pc := fun _ => .outside

end LockAlgorithm

end JavaScriptCore.Wtf
