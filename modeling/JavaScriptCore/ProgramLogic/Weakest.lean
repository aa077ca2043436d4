import Mathlib.Tactic.Common

/-!
# Weakest preconditions for fallible stateful programs

A program threads a state and may stop with an exception, which discards the
state. `wp m post exc s` says that the run of `m` from `s` either returns a value
and a state in `post`, or stops with an exception in `exc`; choosing `exc` to be
empty makes it total correctness. Counted loops are structural, and a loop whose
bound is not syntactic takes a step budget whose exhaustion is an exception, so
that a run which is cut short never passes for one that returned.
-/

namespace JavaScriptCore.ProgramLogic

abbrev Program (σ ε α : Type) := StateT σ (Except ε) α

variable {σ ε α β τ : Type}

def wp (m : Program σ ε α) (post : α → σ → Prop) (exc : ε → Prop) (s : σ) : Prop :=
  match m s with
  | .ok (a, s') => post a s'
  | .error e => exc e

variable {post post' : α → σ → Prop} {exc exc' : ε → Prop} {s : σ}

@[simp] theorem wp_pure (a : α) : wp (pure a : Program σ ε α) post exc s ↔ post a s := Iff.rfl

@[simp] theorem wp_throw (e : ε) :
    wp (throw e : Program σ ε α) post exc s ↔ exc e := Iff.rfl

@[simp] theorem wp_bind (m : Program σ ε α) (f : α → Program σ ε β) {post : β → σ → Prop} :
    wp (m >>= f) post exc s ↔ wp m (fun a s' => wp (f a) post exc s') exc s := by
  simp only [wp, bind, StateT.bind, Except.bind]
  cases m s with
  | error e => rfl
  | ok r => rfl

@[simp] theorem wp_map (m : Program σ ε α) (f : α → β) {post : β → σ → Prop} :
    wp (f <$> m) post exc s ↔ wp m (fun a s' => post (f a) s') exc s := by
  simp only [wp, Functor.map, StateT.map, bind, Except.bind]
  cases m s with
  | error e => rfl
  | ok r => rfl

variable {m : Program σ ε α} {body : Nat → τ → Program σ ε τ}

theorem wp_mono (h : wp m post exc s)
    (hp : ∀ a s', post a s' → post' a s') (hexc : ∀ e, exc e → exc' e) :
    wp m post' exc' s := by
  unfold wp at h ⊢
  split at h
  · exact hp _ _ h
  · exact hexc _ h

theorem wp_post {p q : α → σ → Prop} (h : wp m p exc s)
    (hp : ∀ a s', p a s' → q a s') : wp m q exc s :=
  wp_mono h hp (fun _ he => he)

/-- The rule of composition. -/
theorem wp_seq {p : α → σ → Prop} {f : α → Program σ ε β} {q : β → σ → Prop} (h : wp m p exc s)
    (hf : ∀ a s', p a s' → wp (f a) q exc s') : wp (m >>= f) q exc s :=
  (wp_bind m f).mpr (wp_post h hf)

theorem wp_and (h : wp m post exc s) (h' : wp m post' exc' s) :
    wp m (fun a s' => post a s' ∧ post' a s') (fun e => exc e ∧ exc' e) s := by
  unfold wp at *
  split at h <;> simp_all

/-- A precondition with no exceptional outcome names the returned value. -/
theorem wp_returns (h : wp m post (fun _ => False) s) : ∃ a s', m s = .ok (a, s') ∧ post a s' := by
  unfold wp at h
  split at h
  next a s' hm => exact ⟨a, s', hm, h⟩
  · exact h.elim

theorem wp_ok {a : α} {s' : σ} (h : wp m post exc s) (hm : m s = .ok (a, s')) : post a s' := by
  unfold wp at h
  rwa [hm] at h

/-- `for (i = first; i < last; i++)` with the loop variables in `τ`. -/
def forUpCount (body : Nat → τ → Program σ ε τ) : Nat → Nat → τ → Program σ ε τ
  | 0, _, t => pure t
  | count + 1, i, t => body i t >>= fun t' => forUpCount body count (i + 1) t'

def forUp (first last : Nat) (t : τ) (body : Nat → τ → Program σ ε τ) : Program σ ε τ :=
  forUpCount body (last - first) first t

/-- `for (i = count - 1; i >= 0; i--)` with the loop variables in `τ`. -/
def forDown (count : Nat) (t : τ) (body : Nat → τ → Program σ ε τ) : Program σ ε τ :=
  match count with
  | 0 => pure t
  | i + 1 => body i t >>= fun t' => forDown i t' body

/-- `while (test) body`, stopping with `cut` when the step budget runs out. -/
def whileLoop (fuel : Nat) (cut : ε) (t : τ) (test : τ → Bool) (body : τ → Program σ ε τ) :
    Program σ ε τ :=
  if test t then
    match fuel with
    | 0 => throw cut
    | fuel + 1 => body t >>= fun t' => whileLoop fuel cut t' test body
  else pure t

variable (inv : Nat → τ → σ → Prop)

private theorem wp_forUpCount (count : Nat) : ∀ (i : Nat) (t : τ) (s : σ), inv i t s →
      (∀ j t s, i ≤ j → j < i + count → inv j t s → wp (body j t) (inv (j + 1)) exc s) →
      wp (forUpCount body count i t) (inv (i + count)) exc s := by
  induction count with
  | zero => intro i t s h _; simpa [forUpCount] using h
  | succ count ih =>
    intro i t s h step
    simp only [forUpCount, wp_bind]
    refine wp_post (step i t s (by omega) (by omega) h) (fun t' s' h' => ?_)
    have rest := ih (i + 1) t' s' h' (fun j t s hj hlt => step j t s (by omega) (by omega))
    rwa [show i + 1 + count = i + (count + 1) by omega] at rest

/-- Invariant rule for the counted loop: the invariant is indexed by the value of
the loop variable before the next iteration. -/
theorem wp_forUp {first last : Nat} {t : τ} (range : first ≤ last) (start : inv first t s)
    (step : ∀ i t s, first ≤ i → i < last → inv i t s → wp (body i t) (inv (i + 1)) exc s) :
    wp (forUp first last t body) (inv last) exc s := by
  have h : wp (forUpCount body (last - first) first t) (inv (first + (last - first))) exc s :=
    wp_forUpCount inv _ _ _ _ start (fun j t s hj hlt => step j t s hj (by omega))
  rwa [show first + (last - first) = last by omega] at h

/-- Invariant rule for the descending loop: `inv i` holds when the iterations
`count - 1, …, i` are done. -/
theorem wp_forDown (count : Nat) : ∀ {t : τ} {s : σ}, inv count t s →
      (∀ i t s, i < count → inv (i + 1) t s → wp (body i t) (inv i) exc s) →
      wp (forDown count t body) (inv 0) exc s := by
  induction count with
  | zero => intro t s h _; simpa [forDown] using h
  | succ count ih =>
    intro t s h step
    simp only [forDown, wp_bind]
    refine wp_post (step count t s (by omega) h) (fun t' s' h' => ?_)
    exact ih h' (fun i t s hi => step i t s (by omega))

/-- Invariant and variant rule: a variant bounded by the budget that decreases
with every iteration rules out the cut. -/
theorem wp_whileLoop {cut : ε} {test : τ → Bool} {body : τ → Program σ ε τ}
    (inv : τ → σ → Prop) (variant : τ → Nat) (fuel : Nat) :
    ∀ {t : τ} {s : σ}, variant t ≤ fuel → inv t s →
      (∀ t s, test t = true → inv t s → 0 < variant t ∧
        wp (body t) (fun t' s' => inv t' s' ∧ variant t' < variant t) exc s) →
      wp (whileLoop fuel cut t test body) (fun t s => inv t s ∧ test t = false) exc s := by
  induction fuel with
  | zero =>
    intro t s hv hi step
    unfold whileLoop
    by_cases ht : test t = true
    · have := (step t s ht hi).1
      omega
    · simpa [ht] using hi
  | succ fuel ih =>
    intro t s hv hi step
    unfold whileLoop
    by_cases ht : test t = true
    · simp only [ht, if_true, wp_bind]
      refine wp_post (step t s ht hi).2 (fun t' s' h' => ?_)
      exact ih (by omega) h'.1 step
    · simpa [ht] using hi

end JavaScriptCore.ProgramLogic
