import Mathlib.Data.Option.Basic

/-!
# Computations with a step budget

A loop whose number of rounds is not known in advance runs on a budget: a computation is a
result for every budget that suffices, and a larger budget never changes it. `Yields` is
total correctness: some budget suffices, and the result satisfies the postcondition.
-/

namespace JavaScriptCore.ProgramLogic

structure Budgeted (α : Type) where
  run : Nat → Option α
  mono : ∀ {m n a}, m ≤ n → run m = some a → run n = some a

namespace Budgeted

variable {α β σ : Type}

protected def pure (a : α) : Budgeted α := ⟨fun _ => some a, fun _ h => h⟩

protected def bind (c : Budgeted α) (f : α → Budgeted β) : Budgeted β where
  run n := (c.run n).bind fun a => (f a).run n
  mono := by
    intro m n b h hb
    obtain ⟨a, ha, hf⟩ := Option.bind_eq_some_iff.mp hb
    exact Option.bind_eq_some_iff.mpr ⟨a, c.mono h ha, (f a).mono h hf⟩

instance : Monad Budgeted where
  pure := Budgeted.pure
  bind := Budgeted.bind

def loopRun (body : σ → Budgeted (σ ⊕ α)) : Nat → σ → Option α
  | 0, _ => none
  | n + 1, s => match (body s).run n with
    | none => none
    | some (.inl s') => loopRun body n s'
    | some (.inr a) => some a

variable {s : σ} {a : α} {c : Budgeted α} {post : α → Prop}

theorem loopRun_mono (body : σ → Budgeted (σ ⊕ α)) {m n : Nat} (h : m ≤ n)
    (hm : loopRun body m s = some a) : loopRun body n s = some a := by
  induction m generalizing n s with
  | zero => cases hm
  | succ m ih =>
    obtain ⟨n, rfl⟩ := Nat.exists_eq_add_of_lt h
    rw [loopRun] at hm ⊢
    cases hb : (body s).run m with
    | none => simp only [hb] at hm; cases hm
    | some r =>
      simp only [hb] at hm
      simp only [(body s).mono (Nat.le_add_right m n) hb]
      cases r with
      | inl s' => exact ih (Nat.le_add_right m n) hm
      | inr b => exact hm

/-- `while`: the body gives the next state, or leaves the loop. -/
def loop (body : σ → Budgeted (σ ⊕ α)) (s : σ) : Budgeted α where
  run n := loopRun body n s
  mono := loopRun_mono body

/-- Some budget suffices, and the result satisfies the postcondition. -/
def Yields (c : Budgeted α) (post : α → Prop) : Prop := ∃ n a, c.run n = some a ∧ post a

theorem Yields.mono {p q : α → Prop} (h : Yields c p) (hpq : ∀ a, p a → q a) : Yields c q := by
  obtain ⟨n, a, ha, hp⟩ := h
  exact ⟨n, a, ha, hpq a hp⟩

theorem yields_pure (h : post a) : Yields (pure a) post := ⟨0, a, rfl, h⟩

theorem yields_bind {f : α → Budgeted β} {post : β → Prop}
    (h : Yields c (fun a => Yields (f a) post)) : Yields (c >>= f) post := by
  obtain ⟨m, a, ha, n, b, hb, hp⟩ := h
  refine ⟨max m n, b, ?_, hp⟩
  exact Option.bind_eq_some_iff.mpr
    ⟨a, c.mono (Nat.le_max_left m n) ha, (f a).mono (Nat.le_max_right m n) hb⟩

theorem yields_loop {body : σ → Budgeted (σ ⊕ α)} (h : Yields (body s) (fun r => match r with
      | .inl s' => Yields (loop body s') post
      | .inr a => post a)) : Yields (loop body s) post := by
  obtain ⟨m, r, hr, hp⟩ := h
  cases r with
  | inl s' =>
    obtain ⟨n, a, ha, hp⟩ := hp
    refine ⟨max m n + 1, a, ?_, hp⟩
    change loopRun body (max m n + 1) s = some a
    rw [loopRun, (body s).mono (Nat.le_max_left m n) hr]
    exact loopRun_mono body (Nat.le_max_right m n) ha
  | inr a =>
    refine ⟨m + 1, a, ?_, hp⟩
    change loopRun body (m + 1) s = some a
    rw [loopRun, hr]

/-- A loop whose body takes one step takes another. -/
theorem yields_loop_inl {step : σ → σ ⊕ α} {s' : σ} (hs : step s = .inl s')
    (h : Yields (loop (fun s => pure (step s)) s') post) :
    Yields (loop (fun s => pure (step s)) s) post := by
  apply yields_loop
  apply yields_pure
  rw [hs]
  exact h

/-- A loop whose body takes one step comes to its end. -/
theorem yields_loop_inr {step : σ → σ ⊕ α}
    (hs : step s = .inr a) (h : post a) : Yields (loop (fun s => pure (step s)) s) post := by
  apply yields_loop
  apply yields_pure
  rw [hs]
  exact h

theorem Yields.of_run {n : Nat} (h : Yields c post) (hrun : c.run n = some a) : post a := by
  obtain ⟨m, b, hb, hp⟩ := h
  have ha := c.mono (Nat.le_max_left n m) hrun
  rw [c.mono (Nat.le_max_right n m) hb] at ha
  cases ha
  exact hp

/-- The result does not depend on the budget. -/
theorem Yields.and {p q : α → Prop} (hp : Yields c p) (hq : Yields c q) :
    Yields c (fun a => p a ∧ q a) := by
  obtain ⟨n, a, ha, hpa⟩ := hp
  exact ⟨n, a, ha, hpa, hq.of_run ha⟩

end Budgeted

end JavaScriptCore.ProgramLogic
