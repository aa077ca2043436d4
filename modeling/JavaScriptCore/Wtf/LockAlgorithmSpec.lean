import JavaScriptCore.Wtf.LockAlgorithm

/-!
# At most one thread holds the lock, and no waiter is forgotten

From the access that takes the lock to the one that gives it up, a thread owns it; a handoff passes
the ownership on when the other thread is woken. The held bit says that somebody owns the lock. The
parked bit is set while a thread is in the queue. If nobody owns the lock then, the thread that was
dequeued when it was released has been woken and has not gone back to sleep, or is still to be
woken by the unlock in progress.
-/

namespace JavaScriptCore.Wtf.LockAlgorithm

open JavaScriptCore.ProgramLogic List Option

variable {w : Nat}

/-! ## The two bits -/

section

variable (a : LockAlgorithm w) (v : BitVec w)

theorem and_twoPow_ne_zero {i : Nat} (hi : i < w) :
    (v &&& BitVec.twoPow w i != 0) = v.getLsbD i := by
  rw [BitVec.and_twoPow]
  cases v.getLsbD i with
  | true =>
    have hne : BitVec.twoPow w i ≠ 0#w := by
      intro hz
      have hbit := congrArg (BitVec.getLsbD · i) hz
      simp [hi] at hbit
    simpa using hne
  | false => simp

theorem isHeld_eq : a.isHeld v = v.getLsbD a.heldIndex := and_twoPow_ne_zero v a.heldIndex_lt.1

theorem hasParked_eq : a.hasParked v = v.getLsbD a.parkedIndex :=
  and_twoPow_ne_zero v a.parkedIndex_lt.1

theorem getLsbD_isHeldBit (i : Nat) : a.isHeldBit.getLsbD i = decide (a.heldIndex = i) := by
  simp [isHeldBit, a.heldIndex_lt.1]

theorem getLsbD_hasParkedBit (i : Nat) : a.hasParkedBit.getLsbD i = decide (a.parkedIndex = i) := by
  simp [hasParkedBit, a.parkedIndex_lt.1]

@[simp] theorem isHeld_lock : a.isHeld (v ||| a.isHeldBit) = true := by
  simp [isHeld_eq, getLsbD_isHeldBit]

@[simp] theorem hasParked_lock : a.hasParked (v ||| a.isHeldBit) = a.hasParked v := by
  simp [hasParked_eq, getLsbD_isHeldBit, a.index_ne]

@[simp] theorem isHeld_park : a.isHeld (v ||| a.hasParkedBit) = a.isHeld v := by
  simp [isHeld_eq, getLsbD_hasParkedBit, a.index_ne.symm]

@[simp] theorem hasParked_park : a.hasParked (v ||| a.hasParkedBit) = true := by
  simp [hasParked_eq, getLsbD_hasParkedBit]

@[simp] theorem isHeld_unlock : a.isHeld (v &&& ~~~a.isHeldBit) = false := by
  simp [isHeld_eq, getLsbD_isHeldBit]

@[simp] theorem isHeld_clear : a.isHeld (v &&& ~~~a.mask) = false := by
  simp [isHeld_eq, mask, getLsbD_isHeldBit]

theorem hasParked_isHeldBit : a.hasParked a.isHeldBit = false := by
  simp [hasParked_eq, getLsbD_isHeldBit, a.index_ne]

@[simp] theorem isHeld_zero : a.isHeld 0 = false := by simp [isHeld]

theorem hook_bits {hook : BitVec w → BitVec w}
    (h : hook ∈ [a.lockHook, a.unlockHook, a.parkHook, a.handoffHook]) :
    a.isHeld (hook v) = a.isHeld v ∧ a.hasParked (hook v) = a.hasParked v := by
  rw [isHeld_eq, isHeld_eq, hasParked_eq, hasParked_eq]
  exact a.hooks_keep hook h v

@[simp] theorem lockHook_bits : a.isHeld (a.lockHook v) = a.isHeld v ∧
    a.hasParked (a.lockHook v) = a.hasParked v := a.hook_bits v (by simp)

@[simp] theorem isHeld_unlockHook : a.isHeld (a.unlockHook v) = a.isHeld v :=
  (a.hook_bits v (by simp)).1

@[simp] theorem parkHook_bits : a.isHeld (a.parkHook v) = a.isHeld v ∧
    a.hasParked (a.parkHook v) = a.hasParked v := a.hook_bits v (by simp)

@[simp] theorem handoffHook_bits : a.isHeld (a.handoffHook v) = a.isHeld v ∧
    a.hasParked (a.handoffHook v) = a.hasParked v := a.hook_bits v (by simp)

@[simp] theorem isHeld_oldByteValue : a.isHeld (oldByteValue v) = a.isHeld v := by
  simp [isHeld_eq, oldByteValue, a.heldIndex_lt.1, a.heldIndex_lt.2]

@[simp] theorem hasParked_oldByteValue : a.hasParked (oldByteValue v) = a.hasParked v := by
  simp [hasParked_eq, oldByteValue, a.parkedIndex_lt.1, a.parkedIndex_lt.2]

theorem and_mask : v &&& a.mask = (if a.isHeld v then a.isHeldBit else 0#w) |||
      (if a.hasParked v then a.hasParkedBit else 0#w) := by
  rw [isHeld_eq, hasParked_eq, mask, BitVec.and_or_distrib_left, isHeldBit, hasParkedBit,
    BitVec.and_twoPow, BitVec.and_twoPow]

theorem hasParked_of_and_mask (h : v &&& a.mask = a.isHeldBit) : a.hasParked v = false := by
  have hbit := congrArg (BitVec.getLsbD · a.parkedIndex) h
  simpa [hasParked_eq, mask, getLsbD_isHeldBit, getLsbD_hasParkedBit, a.index_ne] using hbit

theorem and_mask_of_held (hh : a.isHeld v = true) :
    v &&& a.mask = if a.hasParked v then a.mask else a.isHeldBit := by
  rw [and_mask, hh]
  cases a.hasParked v with
  | true => rfl
  | false => simp

end

/-! ## What a thread has to do with the lock -/

variable {T : Type}

namespace PC

def owns : PC w T → Bool
  | inside | safepoint | unlockFastAssumingZero _ | unlockFast _ _ | unlockFastCAS _ _ _
  | unlockSlow _ _ | unlockSlowCAS _ _ _ | unparkOne _ _ | handoff _ _ | handoffCAS _ _ _
  | release _ _ _ | releaseCAS _ _ _ _ | unparked .directHandoff _
  | callbackDone _ .directHandoff _ | signal _ .directHandoff _ => true
  | _ => false

/-- The thread that it has dequeued and is going to wake. -/
def waking : PC w T → Option T
  | handoff thread _ | handoffCAS _ thread _ => some thread
  | release thread _ _ | releaseCAS _ thread _ _ | callbackDone thread _ _ | signal thread _ _ =>
    thread
  | _ => none

def locksQueue : PC w T → Bool
  | handoff _ _ | handoffCAS _ _ _ | release _ _ _ | releaseCAS _ _ _ _ | callbackDone _ _ _ => true
  | _ => false

def isParked : PC w T → Bool
  | parked _ => true
  | _ => false

/-- Woken without the lock, and still trying to take it. -/
def woken : PC w T → Bool
  | unparked .bargingOpportunity _ | lockSlow _ true | lockSlowBarge _ _ true => true
  | _ => false

def role (p : PC w T) : Bool × Option T × Bool × Bool :=
  (p.owns, p.waking, p.locksQueue, p.isParked)

theorem role_eq {p : PC w T} {owns locksQueue isParked : Bool} {waking : Option T} :
    p.role = (owns, waking, locksQueue, isParked) ↔ p.owns = owns ∧ p.waking = waking ∧
      p.locksQueue = locksQueue ∧ p.isParked = isParked := by
  simp [role]

/-- What a thread knows of its local variables, of the word and of the queue. -/
def Asserts (a : LockAlgorithm w) (word : BitVec w) (queue : List T) : PC w T → Prop
  | lockFastCAS value | tryLockCAS value | lockSlowBarge value _ _ => a.isHeld value = false
  | lockSlowSetParked value _ _ => a.isHeld value = true
  | lockSlowPark value _ _ => a.isHeld value = true ∧ a.hasParked value = true
  | unlockFastCAS value _ _ | unlockSlowCAS value _ _ => a.hasParked value = false
  | unparkOne _ _ | handoff _ _ | handoffCAS _ _ _ => a.hasParked word = true
  | release thread mayHaveMoreThreads _ | releaseCAS _ thread mayHaveMoreThreads _ =>
    (mayHaveMoreThreads = false → queue = []) ∧ (thread = none → mayHaveMoreThreads = false)
  | callbackDone thread token _ | signal thread token _ => token = .directHandoff → thread ≠ none
  | crashed => False
  | _ => True

end PC

structure Inv (a : LockAlgorithm w) (s : State w T) : Prop where
  held : a.isHeld s.word = true ↔ ∃ t, (s.pc t).owns = true
  unique : ∀ t u, (s.pc t).owns = true → (s.pc u).owns = true → t = u
  nodup : s.queue.Nodup
  parked : ∀ u, (s.pc u).isParked = true ↔ u ∈ s.queue ∨ ∃ t, (s.pc t).waking = some u
  dequeued : ∀ t u, (s.pc t).waking = some u → u ∉ s.queue
  waking : ∀ t t' u, (s.pc t).waking = some u → (s.pc t').waking = some u → t = t'
  queueLock : ∀ t, s.queueLock = some t ↔ (s.pc t).locksQueue = true
  parkedBit : s.queue ≠ [] → a.hasParked s.word = true
  progress : s.queue ≠ [] → a.isHeld s.word = true ∨ (∃ t, (s.pc t).woken = true) ∨
    ∃ t, (s.pc t).waking ≠ none
  asserts : ∀ t, (s.pc t).Asserts a s.word s.queue

theorem inv_initial (a : LockAlgorithm w) {val : BitVec w} (hh : a.isHeld val = false) :
    Inv a (initial val : State w T) where
  held := by simp [initial, hh, PC.owns]
  unique := by simp [initial, PC.owns]
  nodup := nodup_nil
  parked := by simp [initial, PC.isParked, PC.waking]
  dequeued := by simp [initial]
  waking := by simp [initial, PC.waking]
  queueLock := by simp [initial, PC.locksQueue]
  parkedBit h := absurd rfl h
  progress h := absurd rfl h
  asserts _ := trivial

/-- Only the owner knows anything of the word or the queue. -/
theorem PC.asserts_of_not_owns {a : LockAlgorithm w} {word : BitVec w} {queue : List T} {p : PC w T}
    (h : p.Asserts a word queue) (ho : p.owns = false) (word' : BitVec w) (queue' : List T) :
    p.Asserts a word' queue' := by
  cases p <;> first | exact h | cases ho

/-- What a thread knows stays true when a bit is set, and the queue matters to the one that has
locked it. -/
theorem PC.asserts_mono {a : LockAlgorithm w} {word word' : BitVec w} {queue queue' : List T}
    {p : PC w T} (h : p.Asserts a word queue)
    (hp : a.hasParked word = true → a.hasParked word' = true)
    (hq : p.locksQueue = true → queue' = queue) : p.Asserts a word' queue' := by
  cases p <;> first | exact h | exact hp h | (rw [hq rfl]; exact h)

/-! ## What a step can do -/

section

variable [DecidableEq T]

/-- The kinds of steps, with all that the invariant needs to know of them. -/
inductive Effect (a : LockAlgorithm w) (s : State w T) (t : T) : State w T → Prop where
  | move (next : PC w T) (word : BitVec w)
      (howns : next.owns = (s.pc t).owns) (hwaking : next.waking = (s.pc t).waking)
      (hlocks : next.locksQueue = (s.pc t).locksQueue)
      (hparked : next.isParked = (s.pc t).isParked)
      (hwoken : (s.pc t).woken = true → next.woken = true ∨ a.isHeld s.word = true)
      (hheld : a.isHeld word = a.isHeld s.word)
      (hbit : a.hasParked s.word = true → a.hasParked word = true)
      (hasserts : next.Asserts a word s.queue) :
      Effect a s t { s.goto t next with word := word }
  | acquire (word : BitVec w) (hfree : a.isHeld s.word = false) (hheld : a.isHeld word = true)
      (hbit : a.hasParked word = a.hasParked s.word) (hwaking : (s.pc t).waking = none)
      (hlocks : (s.pc t).locksQueue = false) (hparked : (s.pc t).isParked = false) :
      Effect a s t { s.goto t .inside with word := word }
  | release (next : PC w T) (word : BitVec w) (howns : (s.pc t).owns = true)
      (howns' : next.owns = false) (hwaking : next.waking = (s.pc t).waking)
      (hlocks : next.locksQueue = (s.pc t).locksQueue)
      (hparked : next.isParked = (s.pc t).isParked)
      (hheld : a.isHeld word = false)
      (hbit : s.queue ≠ [] → a.hasParked word = true ∧ next.waking ≠ none)
      (hasserts : next.Asserts a word s.queue) :
      Effect a s t { s.goto t next with word := word }
  | park (spinCount : Nat) (howns : (s.pc t).owns = false) (hwaking : (s.pc t).waking = none)
      (hlocks : (s.pc t).locksQueue = false) (hparked : (s.pc t).isParked = false)
      (hfree : s.queueLock = none) (hheld : a.isHeld s.word = true)
      (hbit : a.hasParked s.word = true) :
      Effect a s t { s.goto t (.parked spinCount) with queue := s.queue ++ [t] }
  | dequeue (next : PC w T) (thread : Option T) (queue : List T)
      (hqueue : s.queue = thread.toList ++ queue) (howns : (s.pc t).owns = true)
      (howns' : next.owns = true) (hwaking : (s.pc t).waking = none)
      (hwaking' : next.waking = thread) (hlocks : next.locksQueue = true)
      (hparked : (s.pc t).isParked = false) (hparked' : next.isParked = false)
      (hfree : s.queueLock = none) (hasserts : next.Asserts a s.word queue) :
      Effect a s t { s.goto t next with queue := queue, queueLock := some t }
  | unlockQueue (next : PC w T) (howns : next.owns = (s.pc t).owns)
      (hwaking : next.waking = (s.pc t).waking) (hlocks : (s.pc t).locksQueue = true)
      (hlocks' : next.locksQueue = false) (hparked : next.isParked = (s.pc t).isParked)
      (hwoken : (s.pc t).woken = false)
      (hasserts : next.Asserts a s.word s.queue) :
      Effect a s t { s.goto t next with queueLock := none }
  | wake (u : T) (token : Token) (spinCount : Nat) (next : PC w T)
      (hwaking : (s.pc t).waking = some u) (hu : s.pc u = .parked spinCount)
      (howns : (s.pc t).owns = (PC.unparked token spinCount : PC w T).owns)
      (hlocks : (s.pc t).locksQueue = false)
      (hparked : (s.pc t).isParked = false)
      (hnext : next = .lockFast ∨ next = .outside) :
      Effect a s t ((s.goto u (.unparked token spinCount)).goto t next)

variable {a : LockAlgorithm w} {s s' : State w T} {t : T} {choice : Choice}

variable {p next failure : PC w T} {expected word : BitVec w} {u : T}

/-- A step that leaves the word alone. -/
theorem Effect.stay (hpc : s.pc t = p) (hr : next.role = p.role)
    (hwk : p.woken = true → next.woken = true ∨ a.isHeld s.word = true)
    (ha : next.Asserts a s.word s.queue) : Effect a s t (s.goto t next) := by
  subst hpc
  obtain ⟨ho, hw, hl, hp⟩ := PC.role_eq.mp hr
  exact .move next s.word ho hw hl hp hwk rfl id ha

/-- A step of a thread that nobody counts on. -/
theorem Effect.quiet (hpc : s.pc t = p) (hr : next.role = p.role) (hw : p.woken = false)
    (ha : next.Asserts a s.word s.queue) : Effect a s t (s.goto t next) :=
  .stay hpc hr (fun h => absurd (hw.symm.trans h) Bool.false_ne_true) ha

theorem compareExchangeWeak_cases {desired : BitVec w} {success : PC w T}
    (h : perform s t choice (.compareExchangeWeak expected desired success failure) = some s') :
    s.word = expected ∧ s' = { s.goto t success with word := desired } ∨
      s' = s.goto t failure := by
  rw [perform] at h
  split_ifs at h with ha
  · exact .inl ⟨ha.1, (some.inj h).symm⟩
  · exact .inr (some.inj h).symm

/-- Taking the lock: by `lockFast`, by barging, or by `tryLock`. -/
theorem acquire_effect (hpc : s.pc t = p) (h : perform s t choice (.compareExchangeWeak expected
      (a.lockHook (expected ||| a.isHeldBit)) .inside failure) = some s')
    (he : a.isHeld expected = false)
    (hr : p.role = (false, none, false, false)) (hr' : failure.role = p.role)
    (hwk : p.woken = true → failure.woken = true)
    (ha : failure.Asserts a s.word s.queue) : Effect a s t s' := by
  obtain ⟨hw, rfl⟩ | rfl := compareExchangeWeak_cases h
  · subst hpc
    obtain ⟨-, hwa, hl, hp⟩ := PC.role_eq.mp hr
    exact .acquire _ (hw ▸ he) (by simp) (by simp [hw]) hwa hl hp
  · exact .stay hpc hr' (fun h => .inl (hwk h)) ha

/-- Releasing a lock for which nobody is parked. -/
theorem release_effect (hinv : Inv a s) {relock : Bool}
    (hpc : s.pc t = p) (h : perform s t choice (.compareExchangeWeak expected
      (a.unlockHook (expected &&& ~~~a.isHeldBit)) (unlocked relock) failure) = some s')
    (he : a.hasParked expected = false)
    (hr : p.role = (true, none, false, false)) (hr' : failure.role = p.role)
    (hwk : p.woken = false) (ha : failure.Asserts a s.word s.queue) : Effect a s t s' := by
  obtain ⟨hwo, rfl⟩ | rfl := compareExchangeWeak_cases h
  · subst hpc
    have hu : (unlocked relock : PC w T).role = (false, none, false, false) := by
      cases relock <;> rfl
    obtain ⟨ho, hw, hl, hp⟩ := PC.role_eq.mp hr
    obtain ⟨ho', hw', hl', hp'⟩ := PC.role_eq.mp hu
    refine .release _ _ ho ho' (hw'.trans hw.symm) (hl'.trans hl.symm)
      (hp'.trans hp.symm) (by simp) ?_ (by cases relock <;> trivial)
    intro hq
    have hbit := hinv.parkedBit hq
    rw [hwo, he] at hbit
    cases hbit
  · exact .quiet hpc hr' hwk ha

omit [DecidableEq T] in
/-- Before `compareAndPark` both bits of the value are set, so the checks pass. -/
theorem needToPark_eq {val : BitVec w} (hh : a.isHeld val = true)
    (hp : a.hasParked val = true) (spin : Nat) (wu : Bool) :
    (a.needToPark val spin wu : PC w T) = .lockSlowPark val spin wu := by
  simp [needToPark, hh, hp]

/-- The thread is at this point, where what it relies on holds, and this is its step. -/
structure Performs (a : LockAlgorithm w) (s : State w T) (t : T) (choice : Choice) (p : PC w T)
    (s' : State w T) : Prop where
  pc : s.pc t = p
  asserts : p.Asserts a s.word s.queue
  performed : perform s t choice (a.access choice p) = some s'

variable {cv oldValue : BitVec w} {spin : Nat} {wu more relock : Bool} {fairness : Fairness}
  {thread : Option T} {token : Token}

/-- A round of `lockSlow`, which spins, tries to take the lock, or goes on to park. -/
theorem lockSlow_effect (h : Performs a s t choice (.lockSlow spin wu) s') : Effect a s t s' := by
  obtain ⟨hpc, ha, h⟩ := h
  rw [access, perform] at h
  cases h
  rw [lockSlowRound]
  cases hh : a.isHeld s.word with
  | false =>
    refine .stay hpc rfl (fun hwk => .inl ?_) hh
    cases wu with
    | true => rfl
    | false => cases hwk
  | true =>
    -- the lock is held, so nobody has to remember that this thread was woken
    simp only [Bool.not_true, Bool.false_eq_true, ↓reduceIte]
    split
    · exact .stay hpc rfl (fun _ => .inr hh) trivial
    split_ifs with hp
    · exact .stay hpc rfl (fun _ => .inr hh) hh
    · rw [Bool.not_eq_true', Bool.not_eq_false] at hp
      rw [needToPark_eq hh hp]
      exact .stay hpc rfl (fun _ => .inr hh) ⟨hh, hp⟩

theorem setParked_effect (h : Performs a s t choice (.lockSlowSetParked cv spin wu) s') :
    Effect a s t s' := by
  obtain ⟨hpc, ha, h⟩ := h
  have hh : a.isHeld (a.parkHook (cv ||| a.hasParkedBit)) = true := by
    rw [(a.parkHook_bits _).1, isHeld_park]
    exact ha
  have hp : a.hasParked (a.parkHook (cv ||| a.hasParkedBit)) = true := by simp
  rw [access, needToPark_eq hh hp] at h
  obtain ⟨hw, rfl⟩ | rfl := compareExchangeWeak_cases h
  · have hw' : a.isHeld s.word = true := by rw [hw]; exact ha
    exact .move _ _ (hpc ▸ rfl) (hpc ▸ rfl) (hpc ▸ rfl) (hpc ▸ rfl)
      (fun _ => .inr hw') (hh.trans hw'.symm) (fun _ => hp) ⟨hh, hp⟩
  · exact .quiet hpc rfl rfl trivial

theorem compareAndPark_effect (h : Performs a s t choice (.lockSlowPark cv spin wu) s') :
    Effect a s t s' := by
  obtain ⟨hpc, ha, h⟩ := h
  rw [access, perform] at h
  split at h
  · cases h
  rename_i hf
  split_ifs at h with hw
  · cases h
    exact .park spin (hpc ▸ rfl) (hpc ▸ rfl) (hpc ▸ rfl) (hpc ▸ rfl) (not_not.mp hf) (hw ▸ ha.1)
      (hw ▸ ha.2)
  · cases h
    exact .quiet hpc rfl rfl trivial

theorem unlockSlow_effect (hinv : Inv a s)
    (h : Performs a s t choice (.unlockSlow fairness relock) s') : Effect a s t s' := by
  obtain ⟨hpc, ha, h⟩ := h
  -- the owner finds one of the two values that `unlockSlow` expects
  have hh : a.isHeld s.word = true := hinv.held.mpr ⟨t, hpc ▸ rfl⟩
  rw [access, perform] at h
  cases h
  have hma := a.and_mask_of_held (oldByteValue s.word) (by simp [hh])
  rw [unlockSlowRound]
  cases hp : a.hasParked s.word with
  | false =>
    rw [hasParked_oldByteValue, hp, if_neg Bool.false_ne_true] at hma
    rw [if_neg (fun hbad => hbad.1 hma), if_pos hma]
    exact .quiet hpc rfl rfl (by simpa [PC.Asserts] using hp)
  | true =>
    rw [hasParked_oldByteValue, hp, if_pos rfl] at hma
    rw [if_neg (fun hbad => hbad.2 hma), if_neg fun heq => ?_]
    · exact .quiet hpc rfl rfl hp
    · simpa [hp] using a.hasParked_of_and_mask _ heq

/-- The queue is locked, and its first thread is taken out if there is one. -/
theorem unparkOne_effect (h : Performs a s t choice (.unparkOne fairness relock) s') :
    Effect a s t s' := by
  obtain ⟨hpc, ha, h⟩ := h
  rw [access, perform] at h
  split at h
  · cases h
  rename_i hf
  split at h
  · rename_i hq
    cases h
    exact .dequeue (.release none false relock) none s.queue rfl (hpc ▸ rfl) rfl
      (hpc ▸ rfl) rfl rfl (hpc ▸ rfl) rfl (not_not.mp hf)
      ⟨fun _ => hq, fun _ => rfl⟩
  · rename_i u queue hq
    cases h
    rw [callback]
    split
    · exact .dequeue _ (some u) queue hq (hpc ▸ rfl) rfl (hpc ▸ rfl) rfl rfl
        (hpc ▸ rfl) rfl (not_not.mp hf) ha
    · refine .dequeue _ (some u) queue hq (hpc ▸ rfl) rfl (hpc ▸ rfl) rfl rfl
        (hpc ▸ rfl) rfl (not_not.mp hf) ⟨fun hm => ?_, fun hn => nomatch hn⟩
      rw [Bool.or_eq_false_iff, Bool.not_eq_false', List.isEmpty_iff] at hm
      exact hm.1

theorem releaseCAS_effect (h : Performs a s t choice (.releaseCAS oldValue thread more relock) s') :
    Effect a s t s' := by
  obtain ⟨hpc, ha, h⟩ := h
  obtain ⟨hw, rfl⟩ | rfl := compareExchangeWeak_cases h
  · refine .release _ _ (hpc ▸ rfl) rfl (hpc ▸ rfl) (hpc ▸ rfl)
      (hpc ▸ rfl) ?_ ?_ (fun h => nomatch h)
    · rw [releasedValue]
      split <;> simp
    intro hq
    obtain ⟨he, hn⟩ := ha
    have hm : more = true := by
      by_contra hm
      exact hq (he (by simpa using hm))
    refine ⟨by simp [releasedValue, hm], fun ht => ?_⟩
    rw [hn ht] at hm
    cases hm
  · exact .quiet hpc rfl rfl ha

/-- Here a thread that was taken out of the queue is woken. -/
theorem signal_effect (hinv : Inv a s)
    (h : Performs a s t choice (.signal thread token relock) s') : Effect a s t s' := by
  obtain ⟨hpc, ha, h⟩ := h
  cases thread with
  | none =>
    cases h
    have htk : token = .bargingOpportunity := by
      cases token with
      | bargingOpportunity => rfl
      | directHandoff => exact absurd rfl (ha rfl)
    subst htk
    cases relock with
    | true => exact .quiet hpc rfl rfl trivial
    | false => exact .quiet hpc rfl rfl trivial
  | some u =>
    have hwa : (s.pc t).waking = some u := by rw [hpc]; rfl
    have hu := (hinv.parked u).mpr (.inr ⟨t, hwa⟩)
    cases hpcu : s.pc u with
    | parked spin =>
      cases h
      rw [hpcu, PC.unpark]
      refine .wake u token spin _ hwa hpcu ?_ (hpc ▸ rfl) (hpc ▸ rfl) ?_
      · rw [hpc]
        cases token <;> rfl
      · cases relock with
        | true => exact .inl rfl
        | false => exact .inr rfl
    | _ =>
      rw [hpcu] at hu
      cases hu

theorem step_effect (hinv : Inv a s) (h : a.step s (t, choice) = some s') : Effect a s t s' := by
  have ha := hinv.asserts t
  change perform s t choice (a.access choice (s.pc t)) = some s' at h
  obtain ⟨p, hpc⟩ : ∃ p, s.pc t = p := ⟨_, rfl⟩
  rw [hpc] at h ha
  cases p with
  | outside | inside =>
    rw [access] at h
    generalize choice.operation = operation at h
    cases operation <;> cases h
    all_goals exact .quiet hpc rfl rfl trivial
  | lockFastAssumingZero =>
    rw [access, ← BitVec.zero_or (x := a.isHeldBit)] at h
    exact acquire_effect hpc h a.isHeld_zero rfl rfl (fun h => nomatch h) trivial
  | lockFast =>
    rw [access, perform] at h
    cases h
    cases hh : a.isHeld s.word with
    | true => exact .quiet hpc rfl rfl trivial
    | false => exact .quiet hpc rfl rfl hh
  | lockFastCAS oldValue =>
    exact acquire_effect hpc h ha rfl rfl (fun h => nomatch h) trivial
  | lockSlow spin wu =>
    exact lockSlow_effect ⟨hpc, ha, h⟩
  | lockSlowBarge cv spin wu =>
    refine acquire_effect hpc h ha rfl rfl (fun hwk => ?_) trivial
    cases wu with
    | true => rfl
    | false => cases hwk
  | lockSlowSetParked cv spin wu =>
    exact setParked_effect ⟨hpc, ha, h⟩
  | lockSlowPark cv spin wu =>
    exact compareAndPark_effect ⟨hpc, ha, h⟩
  | parked spin =>
    cases h
  | unparked token spin =>
    cases token with
    | directHandoff =>
      have hh : a.isHeld s.word = true := hinv.held.mpr ⟨t, hpc ▸ rfl⟩
      rw [access, perform] at h
      cases h
      simp only [hh, ↓reduceIte]
      exact .quiet hpc rfl rfl trivial
    | bargingOpportunity =>
      cases h
      exact .stay hpc rfl (fun _ => .inl rfl) trivial
  | tryLock =>
    rw [access, perform] at h
    cases h
    cases hh : a.isHeld s.word with
    | true => exact .quiet hpc rfl rfl trivial
    | false => exact .quiet hpc rfl rfl hh
  | tryLockCAS cv =>
    exact acquire_effect hpc h ha rfl rfl (fun h => nomatch h) trivial
  | safepoint =>
    rw [access, perform] at h
    cases h
    split
    · exact .quiet hpc rfl rfl trivial
    · exact .quiet hpc rfl rfl trivial
  | unlockFastAssumingZero fairness =>
    rw [access] at h
    rw [show (0 : BitVec w) = a.isHeldBit &&& ~~~a.isHeldBit from (BitVec.and_not_self _).symm,
      show (PC.outside : PC w T) = unlocked false from rfl] at h
    exact release_effect hinv hpc h a.hasParked_isHeldBit rfl rfl rfl trivial
  | unlockFast fairness relock =>
    rw [access, perform] at h
    cases h
    split_ifs with hma
    · exact .quiet hpc rfl rfl trivial
    · exact .quiet hpc rfl rfl (a.hasParked_of_and_mask s.word (not_not.mp hma))
  | unlockFastCAS oldValue fairness relock =>
    exact release_effect hinv hpc h ha rfl rfl rfl trivial
  | unlockSlow fairness relock =>
    exact unlockSlow_effect hinv ⟨hpc, ha, h⟩
  | unlockSlowCAS oldByteValue fairness relock =>
    exact release_effect hinv hpc h ha rfl rfl rfl trivial
  | unparkOne fairness relock =>
    exact unparkOne_effect ⟨hpc, ha, h⟩
  | handoff thread relock =>
    rw [access, perform] at h
    cases h
    rw [handoffRound]
    split
    · exact .quiet hpc rfl rfl (fun _ => some_ne_none _)
    · exact .quiet hpc rfl rfl ha
  | handoffCAS oldValue thread relock =>
    obtain ⟨hw, rfl⟩ | rfl := compareExchangeWeak_cases h
    · refine .move _ _ (hpc ▸ rfl) (hpc ▸ rfl) (hpc ▸ rfl) (hpc ▸ rfl)
        (by rw [hpc]; exact fun h => nomatch h) (by simp [hw]) (by simp [hw])
        (fun _ => some_ne_none _)
    · exact .quiet hpc rfl rfl ha
  | release thread more relock =>
    cases h
    exact .quiet hpc rfl rfl ha
  | releaseCAS oldValue thread more relock =>
    exact releaseCAS_effect ⟨hpc, ha, h⟩
  | callbackDone thread token relock =>
    cases h
    refine .unlockQueue _ ?_ (hpc ▸ rfl) (hpc ▸ rfl) rfl (hpc ▸ rfl) (hpc ▸ rfl) ha
    rw [hpc]
    cases token <;> rfl
  | signal thread token relock =>
    exact signal_effect hinv ⟨hpc, ha, h⟩
  | crashed =>
    cases h

/-! ## What every step keeps -/

@[simp] theorem goto_word (next : PC w T) : (s.goto t next).word = s.word := rfl

@[simp] theorem goto_queue (next : PC w T) : (s.goto t next).queue = s.queue := rfl

@[simp] theorem goto_queueLock (next : PC w T) : (s.goto t next).queueLock = s.queueLock := rfl

@[simp] theorem goto_self (next : PC w T) : (s.goto t next).pc t = next := Function.update_self ..

theorem goto_ne (next : PC w T) (hu : u ≠ t) : (s.goto t next).pc u = s.pc u :=
  Function.update_of_ne hu ..

/-- A property of a thread's place that its move does not change is the same for every thread. -/
theorem goto_congr {α : Type} (f : PC w T → α) (h : f next = f (s.pc t)) (u : T) :
    f ((s.goto t next).pc u) = f (s.pc u) := by
  by_cases hu : u = t
  · rw [hu, goto_self, h]
  · rw [goto_ne next hu]

/-- What holds of the thread that moves and of the others holds of all. -/
theorem goto_forall {P : PC w T → Prop} (hs : P next) (hos : ∀ u, u ≠ t → P (s.pc u))
    (u : T) : P ((s.goto t next).pc u) := by
  by_cases hu : u = t
  · rw [hu, goto_self]
    exact hs
  · rw [goto_ne next hu]
    exact hos u hu

/-- A thread that wakes nobody new moves: what the invariant says of the queue stays true. -/
theorem Inv.queue_goto (h : Inv a s) (next : PC w T) (hw : next.waking = (s.pc t).waking)
    (hp : next.isParked = (s.pc t).isParked) :
    (∀ u, ((s.goto t next).pc u).isParked = true ↔
      u ∈ s.queue ∨ ∃ v, ((s.goto t next).pc v).waking = some u) ∧
    (∀ v u, ((s.goto t next).pc v).waking = some u → u ∉ s.queue) ∧
    ∀ v v' u, ((s.goto t next).pc v).waking = some u → ((s.goto t next).pc v').waking = some u →
      v = v' := by
  simp only [goto_congr PC.isParked hp, goto_congr PC.waking hw]
  exact ⟨h.parked, h.dequeued, h.waking⟩

theorem Inv.move (h : Inv a s) (ho : next.owns = (s.pc t).owns) (hw : next.waking = (s.pc t).waking)
    (hl : next.locksQueue = (s.pc t).locksQueue) (hp : next.isParked = (s.pc t).isParked)
    (hwk : (s.pc t).woken = true → next.woken = true ∨ a.isHeld s.word = true)
    (hh : a.isHeld word = a.isHeld s.word)
    (hbit : a.hasParked s.word = true → a.hasParked word = true)
    (ha : next.Asserts a word s.queue) : Inv a { s.goto t next with word := word } where
  held := by simpa only [hh, goto_congr PC.owns ho] using h.held
  unique := by simpa only [goto_congr PC.owns ho] using h.unique
  nodup := h.nodup
  parked := (h.queue_goto _ hw hp).1
  dequeued := (h.queue_goto _ hw hp).2.1
  waking := (h.queue_goto _ hw hp).2.2
  queueLock := by simpa only [goto_congr PC.locksQueue hl, goto_queueLock] using h.queueLock
  parkedBit hq := hbit (h.parkedBit hq)
  progress hq := by
    simp only [hh, goto_congr PC.waking hw]
    obtain hwo | ⟨u, hu⟩ | hr := h.progress hq
    · exact .inl hwo
    · by_cases hut : u = t
      · obtain hn | hwo := hwk (hut ▸ hu)
        · exact .inr (.inl ⟨t, by rw [goto_self]; exact hn⟩)
        · exact .inl hwo
      · exact .inr (.inl ⟨u, by rw [goto_ne next hut]; exact hu⟩)
    · exact .inr (.inr hr)
  asserts := goto_forall ha fun u _ => PC.asserts_mono (h.asserts u) hbit (fun _ => rfl)

omit [DecidableEq T] in
/-- Nobody else owns the lock. -/
theorem Inv.not_owns (h : Inv a s) (how : (s.pc t).owns = true) (hu : u ≠ t) :
    (s.pc u).owns = false := by
  by_contra ho
  exact hu (h.unique u t (by simpa using ho) how)

variable (h : Inv a s)

include h

theorem Inv.acquire (hf : a.isHeld s.word = false)
    (hh : a.isHeld word = true) (hbit : a.hasParked word = a.hasParked s.word)
    (hw : (s.pc t).waking = none) (hl : (s.pc t).locksQueue = false)
    (hp : (s.pc t).isParked = false) : Inv a { s.goto t .inside with word := word } := by
  have hl' : (PC.inside : PC w T).locksQueue = (s.pc t).locksQueue := hl.symm
  obtain ⟨hp', hd', hw'⟩ := h.queue_goto .inside hw.symm hp.symm
  have hos : ∀ u, (s.pc u).owns = false := by
    intro u
    by_contra ho
    have := h.held.mpr ⟨u, by simpa using ho⟩
    rw [hf] at this
    cases this
  have hs : ∀ u, ((s.goto t .inside).pc u).owns = true → u = t := by
    intro u hu
    by_contra hne
    rw [goto_ne _ hne, hos u] at hu
    cases hu
  exact
    { held := ⟨fun _ => ⟨t, by rw [goto_self]; rfl⟩, fun _ => hh⟩
      unique := fun u v hu hv => (hs u hu).trans (hs v hv).symm
      nodup := h.nodup
      parked := hp'
      dequeued := hd'
      waking := hw'
      queueLock := by
        simpa only [goto_congr PC.locksQueue hl', goto_queueLock] using h.queueLock
      parkedBit := fun hq => by simpa only [hbit] using h.parkedBit hq
      progress := fun _ => .inl hh
      asserts := goto_forall trivial fun u _ =>
        PC.asserts_of_not_owns (h.asserts u) (hos u) _ _ }

theorem Inv.release (ho : (s.pc t).owns = true)
    (ho' : next.owns = false) (hw : next.waking = (s.pc t).waking)
    (hl : next.locksQueue = (s.pc t).locksQueue) (hp : next.isParked = (s.pc t).isParked)
    (hh : a.isHeld word = false)
    (hbit : s.queue ≠ [] → a.hasParked word = true ∧ next.waking ≠ none)
    (ha : next.Asserts a word s.queue) : Inv a { s.goto t next with word := word } := by
  have hn : ∀ u, ((s.goto t next).pc u).owns = false :=
    goto_forall (P := fun p => p.owns = false) ho' fun u hu => h.not_owns ho hu
  obtain ⟨hp', hd', hw'⟩ := h.queue_goto _ hw hp
  exact
    { held := by simp [hh, hn]
      unique := by simp [hn]
      nodup := h.nodup
      parked := hp'
      dequeued := hd'
      waking := hw'
      queueLock := by
        simpa only [goto_congr PC.locksQueue hl, goto_queueLock] using h.queueLock
      parkedBit := fun hq => (hbit hq).1
      progress := fun hq => .inr (.inr ⟨t, by rw [goto_self]; exact (hbit hq).2⟩)
      asserts := goto_forall ha fun u hu =>
        PC.asserts_of_not_owns (h.asserts u) (h.not_owns ho hu) _ _ }

theorem Inv.park {spin : Nat} (ho : (s.pc t).owns = false)
    (hw : (s.pc t).waking = none) (hlk : (s.pc t).locksQueue = false)
    (hp : (s.pc t).isParked = false) (hf : s.queueLock = none)
    (hh : a.isHeld s.word = true) (hbit : a.hasParked s.word = true) :
    Inv a { s.goto t (.parked spin) with queue := s.queue ++ [t] } := by
  have ho' : (PC.parked spin : PC w T).owns = (s.pc t).owns := ho.symm
  have hw' : (PC.parked spin : PC w T).waking = (s.pc t).waking := hw.symm
  have hl' : (PC.parked spin : PC w T).locksQueue = (s.pc t).locksQueue := hlk.symm
  have hn : t ∉ s.queue := fun hmem => by
    have := (h.parked t).mpr (.inl hmem)
    rw [hp] at this
    cases this
  exact
    { held := by simpa only [goto_congr PC.owns ho', goto_word] using h.held
      unique := by simpa only [goto_congr PC.owns ho'] using h.unique
      nodup := by
        refine nodup_append.mpr ⟨h.nodup, by simp, fun u hu v hv => ?_⟩
        rw [mem_singleton.mp hv]
        exact ne_of_mem_of_not_mem hu hn
      parked := fun u => by
        simp only [goto_congr PC.waking hw', mem_append, mem_singleton]
        by_cases hu : u = t
        · rw [hu, goto_self]
          simp [PC.isParked]
        · rw [goto_ne _ hu, h.parked u]
          simp [hu]
      dequeued := fun u v huv => by
        rw [goto_congr PC.waking hw'] at huv
        rw [mem_append, mem_singleton, not_or]
        refine ⟨h.dequeued u v huv, ?_⟩
        rintro rfl
        have := (h.parked v).mpr (.inr ⟨u, huv⟩)
        rw [hp] at this
        cases this
      waking := by simpa only [goto_congr PC.waking hw'] using h.waking
      queueLock := by
        simpa only [goto_congr PC.locksQueue hl', goto_queueLock] using h.queueLock
      parkedBit := fun _ => hbit
      progress := fun _ => .inl hh
      asserts := goto_forall trivial fun u _ =>
        PC.asserts_mono (h.asserts u) id fun hl => by
          have := (h.queueLock u).mpr hl
          rw [hf] at this
          cases this }

theorem Inv.dequeue {thread : Option T} {queue : List T}
    (hq : s.queue = thread.toList ++ queue) (ho : (s.pc t).owns = true)
    (how' : next.owns = true) (hw : (s.pc t).waking = none) (hw' : next.waking = thread)
    (hl : next.locksQueue = true) (hp : (s.pc t).isParked = false)
    (hp' : next.isParked = false) (hf : s.queueLock = none) (ha : next.Asserts a s.word queue) :
    Inv a { s.goto t next with queue := queue, queueLock := some t } := by
  have howns'' : next.owns = (s.pc t).owns := how'.trans ho.symm
  have hnd := h.nodup
  rw [hq, nodup_append] at hnd
  -- the only thread that is newly being woken is the one that left the queue
  have hwi : ∀ v u, ((s.goto t next).pc v).waking = some u ↔
      v = t ∧ thread = some u ∨ (s.pc v).waking = some u := by
    intro v u
    by_cases hv : v = t
    · rw [hv, goto_self, hw', hw]
      simp
    · rw [goto_ne next hv]
      simp [hv]
  have ht : ∀ u, thread = some u → u ∈ s.queue ∧ u ∉ queue := by
    rintro u rfl
    refine ⟨by rw [hq]; simp, fun hmem => ?_⟩
    exact hnd.2.2 u (by simp) u hmem rfl
  exact
    { held := by simpa only [goto_congr PC.owns howns'', goto_word] using h.held
      unique := by simpa only [goto_congr PC.owns howns''] using h.unique
      nodup := hnd.2.1
      parked := fun u => by
        simp only [goto_congr PC.isParked (hp'.trans hp.symm), hwi]
        rw [h.parked u, hq, mem_append, mem_toList]
        constructor
        · rintro ((hu | hu) | ⟨v, hv⟩)
          · exact .inr ⟨t, .inl ⟨rfl, hu⟩⟩
          · exact .inl hu
          · exact .inr ⟨v, .inr hv⟩
        · rintro (hu | ⟨v, ⟨_, hu⟩ | hv⟩)
          · exact .inl (.inr hu)
          · exact .inl (.inl hu)
          · exact .inr ⟨v, hv⟩
      dequeued := fun v u hu => by
        obtain ⟨_, hu⟩ | hu := (hwi v u).mp hu
        · exact (ht u hu).2
        · have := h.dequeued v u hu
          rw [hq, mem_append, not_or] at this
          exact this.2
      waking := fun v v' u hv hv' => by
        obtain ⟨hvt, hu⟩ | hold := (hwi v u).mp hv
        · obtain ⟨hvt', _⟩ | ho' := (hwi v' u).mp hv'
          · rw [hvt, hvt']
          · exact absurd (ht u hu).1 (h.dequeued v' u ho')
        · obtain ⟨_, hu⟩ | ho' := (hwi v' u).mp hv'
          · exact absurd (ht u hu).1 (h.dequeued v u hold)
          · exact h.waking v v' u hold ho'
      queueLock := fun u => by
        by_cases hu : u = t
        · rw [hu, goto_self]
          simp [hl]
        · have hnot := (h.queueLock u).not.mp (by simp [hf])
          rw [goto_ne next hu]
          simp [hnot, Ne.symm hu]
      parkedBit := fun hne => h.parkedBit (by simp [hq, hne])
      progress := fun _ => .inl (h.held.mpr ⟨t, ho⟩)
      asserts := goto_forall ha fun u hu =>
        PC.asserts_of_not_owns (h.asserts u) (h.not_owns ho hu) _ _ }

theorem Inv.unlockQueue (ho : next.owns = (s.pc t).owns)
    (hw : next.waking = (s.pc t).waking) (hlk : (s.pc t).locksQueue = true)
    (hl' : next.locksQueue = false) (hp : next.isParked = (s.pc t).isParked)
    (hwk : (s.pc t).woken = false) (ha : next.Asserts a s.word s.queue) :
    Inv a { s.goto t next with queueLock := none } where
  held := by simpa only [goto_congr PC.owns ho, goto_word] using h.held
  unique := by simpa only [goto_congr PC.owns ho] using h.unique
  nodup := h.nodup
  parked := (h.queue_goto _ hw hp).1
  dequeued := (h.queue_goto _ hw hp).2.1
  waking := (h.queue_goto _ hw hp).2.2
  queueLock u := by
    by_cases hu : u = t
    · rw [hu, goto_self]
      simp [hl']
    have hnot : (s.pc u).locksQueue = false := by
      by_contra hl
      have hs := (h.queueLock t).mpr hlk
      rw [(h.queueLock u).mpr (by simpa using hl)] at hs
      exact hu (some.inj hs)
    rw [goto_ne next hu]
    simp [hnot]
  parkedBit := h.parkedBit
  progress hq := by
    simp only [goto_congr PC.waking hw, goto_word]
    obtain hwo | ⟨u, hu⟩ | hr := h.progress hq
    · exact .inl hwo
    · have hut : u ≠ t := by
        rintro rfl
        rw [hwk] at hu
        cases hu
      exact .inr (.inl ⟨u, by rw [goto_ne next hut]; exact hu⟩)
    · exact .inr (.inr hr)
  asserts := goto_forall ha fun u _ => h.asserts u

/-- The thread that was dequeued goes on; with a direct handoff the lock is now its own. -/
theorem Inv.wake {token : Token} {spin : Nat}
    (hwa : (s.pc t).waking = some u) (hu : s.pc u = .parked spin)
    (how : (s.pc t).owns = (PC.unparked token spin : PC w T).owns)
    (hlk : (s.pc t).locksQueue = false) (hp : (s.pc t).isParked = false)
    (hn : next = .lockFast ∨ next = .outside) :
    Inv a ((s.goto u (.unparked token spin)).goto t next) := by
  have hut : u ≠ t := by
    rintro rfl
    rw [hu] at hp
    cases hp
  generalize haf : (s.goto u (.unparked token spin)).goto t next = after
  have hs : after.pc t = next := by rw [← haf, goto_self]
  have hw : after.pc u = .unparked token spin := by rw [← haf, goto_ne _ hut, goto_self]
  have hos : ∀ v, v ≠ t → v ≠ u → after.pc v = s.pc v := by
    intro v hvt hvu
    rw [← haf, goto_ne _ hvt, goto_ne _ hvu]
  have hwo : after.word = s.word := by rw [← haf]; rfl
  have hq : after.queue = s.queue := by rw [← haf]; rfl
  have hqu : after.queueLock = s.queueLock := by rw [← haf]; rfl
  have ho : ∀ v, (after.pc v).owns = true ↔
      v = u ∧ (s.pc t).owns = true ∨ v ≠ t ∧ (s.pc v).owns = true := by
    intro v
    by_cases hvt : v = t
    · rw [hvt, hs]
      obtain rfl | rfl := hn <;> simp [PC.owns, Ne.symm hut]
    · by_cases hvu : v = u
      · rw [hvu, hw, ← how, hu]
        simp [PC.owns]
      · rw [hos v hvt hvu]
        simp [hvt, hvu]
  have hwi : ∀ v x, (after.pc v).waking = some x ↔ v ≠ t ∧ (s.pc v).waking = some x := by
    intro v x
    by_cases hvt : v = t
    · rw [hvt, hs]
      obtain rfl | rfl := hn <;> simp [PC.waking]
    · by_cases hvu : v = u
      · rw [hvu, hw, hu]
        simp [PC.waking]
      · rw [hos v hvt hvu]
        simp [hvt]
  have hl : ∀ v, (after.pc v).locksQueue = (s.pc v).locksQueue := by
    intro v
    by_cases hvt : v = t
    · rw [hvt, hs, hlk]
      obtain rfl | rfl := hn <;> rfl
    · by_cases hvu : v = u
      · rw [hvu, hw, hu]
        rfl
      · rw [hos v hvt hvu]
  have hpa : ∀ v, (after.pc v).isParked = true ↔ v ≠ u ∧ (s.pc v).isParked = true := by
    intro v
    by_cases hvt : v = t
    · rw [hvt, hs, hp]
      obtain rfl | rfl := hn <;> simp [PC.isParked]
    · by_cases hvu : v = u
      · rw [hvu, hw]
        simp [PC.isParked]
      · rw [hos v hvt hvu]
        simp [hvu]
  exact
    { held := by
        rw [hwo, h.held]
        constructor
        · rintro ⟨v, hv⟩
          by_cases hvt : v = t
          · exact ⟨u, (ho u).mpr (.inl ⟨rfl, hvt ▸ hv⟩)⟩
          · exact ⟨v, (ho v).mpr (.inr ⟨hvt, hv⟩)⟩
        · rintro ⟨v, hv⟩
          obtain ⟨_, ht⟩ | ⟨_, hv⟩ := (ho v).mp hv
          · exact ⟨t, ht⟩
          · exact ⟨v, hv⟩
      unique := fun v v' hv hv' => by
        obtain ⟨hvu, ht⟩ | ⟨hvt, hold⟩ := (ho v).mp hv
        · obtain ⟨hvu', _⟩ | ⟨hvt', ho'⟩ := (ho v').mp hv'
          · rw [hvu, hvu']
          · exact absurd (h.unique v' t ho' ht) hvt'
        · obtain ⟨_, ht⟩ | ⟨_, ho'⟩ := (ho v').mp hv'
          · exact absurd (h.unique v t hold ht) hvt
          · exact h.unique v v' hold ho'
      nodup := hq ▸ h.nodup
      parked := fun v => by
        rw [hpa, hq, h.parked v]
        constructor
        · rintro ⟨hvu, hmem | ⟨x, hx⟩⟩
          · exact .inl hmem
          · refine .inr ⟨x, (hwi x v).mpr ⟨?_, hx⟩⟩
            rintro rfl
            rw [hwa] at hx
            exact hvu (some.inj hx).symm
        · rintro (hmem | ⟨x, hx⟩)
          · refine ⟨?_, .inl hmem⟩
            rintro rfl
            exact h.dequeued t v hwa hmem
          · obtain ⟨hxt, hx⟩ := (hwi x v).mp hx
            refine ⟨?_, .inr ⟨x, hx⟩⟩
            rintro rfl
            exact hxt (h.waking x t v hx hwa)
      dequeued := fun v x hx => by
        rw [hq]
        exact h.dequeued v x ((hwi v x).mp hx).2
      waking := fun v v' x hx hx' =>
        h.waking v v' x ((hwi v x).mp hx).2 ((hwi v' x).mp hx').2
      queueLock := fun v => by rw [hqu, hl, h.queueLock]
      parkedBit := by
        rw [hq, hwo]
        exact h.parkedBit
      progress := fun _ => by
        cases token with
        | directHandoff =>
          rw [hwo]
          exact .inl (h.held.mpr ⟨t, how⟩)
        | bargingOpportunity => exact .inr (.inl ⟨u, hw ▸ rfl⟩)
      asserts := fun v => by
        rw [hwo, hq]
        by_cases hvt : v = t
        · rw [hvt, hs]
          obtain rfl | rfl := hn <;> trivial
        · by_cases hvu : v = u
          · rw [hvu, hw]
            trivial
          · rw [hos v hvt hvu]
            exact h.asserts v }

theorem Inv.step {turn : T × Choice} (hs : a.step s turn = some s') :
    Inv a s' := by
  cases step_effect h hs with
  | move next word ho hw hl hp hwk hh hbit ha =>
    exact h.move ho hw hl hp hwk hh hbit ha
  | acquire word hf hh hbit hw hl hp =>
    exact h.acquire hf hh hbit hw hl hp
  | release next word ho ho' hw hl hp hh hbit ha =>
    exact h.release ho ho' hw hl hp hh hbit ha
  | park spin ho hw hl hp hf hh hbit =>
    exact h.park ho hw hl hp hf hh hbit
  | dequeue next thread queue hq ho ho' hw hw' hl hp hp' hf
      ha =>
    exact h.dequeue hq ho ho' hw hw' hl hp hp' hf ha
  | unlockQueue next ho hw hl hl' hp hwk ha =>
    exact h.unlockQueue ho hw hl hl' hp hwk ha
  | wake u token spin next hw hu ho hl hp hn =>
    exact h.wake hw hu ho hl hp hn

omit h

/-- After every schedule at most one thread owns the lock, which the held bit shows, and no
assertion has failed. A parked thread is the one that an unlock in progress is going to wake, or it
is in the queue, the parked bit is set, and there is somebody on whose next steps it can rely: the
lock is held, or a thread has been woken and is trying to take it, or an unlock in progress is going
to wake another. -/
theorem lock_safe (a : LockAlgorithm w) {value : BitVec w} (hfree : a.isHeld value = false)
    {schedule : List (T × Choice)} {s : State w T}
    (hfollow : follow a.step schedule (initial value) = some s) :
    (∀ t u, (s.pc t).owns = true → (s.pc u).owns = true → t = u) ∧
      (a.isHeld s.word = true ↔ ∃ t, (s.pc t).owns = true) ∧
      (∀ t, s.pc t ≠ .crashed) ∧
      ∀ t, (s.pc t).isParked = true → (∃ u, (s.pc u).waking = some t) ∨
        t ∈ s.queue ∧ a.hasParked s.word = true ∧
          (a.isHeld s.word = true ∨ (∃ u, (s.pc u).woken = true) ∨
            ∃ u v, (s.pc u).waking = some v) := by
  have h : Inv a s := follow_invariant (fun _ _ _ h hstep => Inv.step h hstep)
    (inv_initial a hfree) hfollow
  refine ⟨h.unique, h.held, fun t hcrashed => ?_, fun t ht => ?_⟩
  · have hasserts := h.asserts t
    rw [hcrashed] at hasserts
    exact hasserts
  obtain hqueue | hwaking := (h.parked t).mp ht
  · have hne := ne_nil_of_mem hqueue
    refine .inr ⟨hqueue, h.parkedBit hne, ?_⟩
    obtain hheld | hwoken | ⟨u, hu⟩ := h.progress hne
    · exact .inl hheld
    · exact .inr (.inl hwoken)
    · obtain ⟨v, hv⟩ := ne_none_iff_exists'.mp hu
      exact .inr (.inr ⟨u, v, hv⟩)
  · exact .inl hwaking

/-- No wakeup is lost or made twice: a thread sleeps exactly if it is in the queue, which has it
once, or one unlock alone is going to wake it, and never both. -/
theorem parked_iff_xor (a : LockAlgorithm w) {value : BitVec w} (hfree : a.isHeld value = false)
    {schedule : List (T × Choice)} {s : State w T}
    (hfollow : follow a.step schedule (initial value) = some s) : s.queue.Nodup ∧
      (∀ u v t, (s.pc u).waking = some t → (s.pc v).waking = some t → u = v) ∧ ∀ t,
        (s.pc t).isParked = true ↔ Xor (t ∈ s.queue) (∃! u, (s.pc u).waking = some t) := by
  have h : Inv a s := follow_invariant (fun _ _ _ h hstep => Inv.step h hstep)
    (inv_initial a hfree) hfollow
  refine ⟨h.nodup, h.waking, fun t => ?_⟩
  have hone : (∃! u, (s.pc u).waking = some t) ↔ ∃ u, (s.pc u).waking = some t :=
    ⟨ExistsUnique.exists, fun ⟨u, hu⟩ => ⟨u, hu, fun v hv => h.waking v u t hv hu⟩⟩
  rw [hone, h.parked, xor_iff_or_and_not_and]
  exact (and_iff_left fun ⟨hqueue, u, hu⟩ => h.dequeued u t hu hqueue).symm

end

/-- Thread 0 takes the lock; thread 1 spins and goes to sleep. -/
def contended : List (Fin 2 × Choice) :=
  replicate 2 (⟨0, Nat.zero_lt_two⟩, ⟨.lockAssumingZero, false, false, false⟩) ++
    replicate 45 (⟨1, Nat.one_lt_two⟩, ⟨.lock, false, false, false⟩)

theorem lock_safe_contended :
    ∃ s, follow defaultLockAlgorithm.step contended (initial 0) = some s ∧ s.queue = [1] ∧
      (∀ t u, (s.pc t).owns = true → (s.pc u).owns = true → t = u) ∧
      (defaultLockAlgorithm.isHeld s.word = true ↔ ∃ t, (s.pc t).owns = true) ∧
      (∀ t, s.pc t ≠ .crashed) ∧
      ∀ t, (s.pc t).isParked = true → (∃ u, (s.pc u).waking = some t) ∨
        t ∈ s.queue ∧ defaultLockAlgorithm.hasParked s.word = true ∧
          (defaultLockAlgorithm.isHeld s.word = true ∨ (∃ u, (s.pc u).woken = true) ∨
            ∃ u v, (s.pc u).waking = some v) := by
  have hqueue : (follow defaultLockAlgorithm.step contended (initial 0)).map State.queue =
      some [1] := by decide +kernel
  obtain ⟨s, hs, hs'⟩ := map_eq_some_iff.mp hqueue
  exact ⟨s, hs, hs', lock_safe _ (by decide) hs⟩

theorem parked_iff_xor_contended :
    ∃ s, follow defaultLockAlgorithm.step contended (initial 0) = some s ∧
      (s.pc 1).isParked = true ∧
      Xor (1 ∈ s.queue) (∃! u, (s.pc u).waking = some 1) := by
  have hparked : (follow defaultLockAlgorithm.step contended (initial 0)).map
      (fun s => (s.pc 1).isParked) = some true := by decide +kernel
  obtain ⟨s, hs, hs'⟩ := map_eq_some_iff.mp hparked
  exact ⟨s, hs, hs', ((parked_iff_xor _ (by decide) hs).2.2 1).mp hs'⟩

end JavaScriptCore.Wtf.LockAlgorithm
