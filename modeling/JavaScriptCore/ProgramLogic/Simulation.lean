import Mathlib.Data.List.Forall2

/-!
# Programs of operations

An operation takes a state to another and gives an answer, or does not return. A machine simulates
another one when each operation of the other that returns is matched, with the same answer, in
related states; then so is every program.
-/

namespace JavaScriptCore.ProgramLogic

open Option

variable {σ τ α β : Type}

/-- Runs the operations in order and collects the answers. -/
def runAll (step : σ → α → Option (σ × β)) : List α → σ → Option (σ × List β)
  | [], s => some (s, [])
  | a :: program, s => do
    let (s, answer) ← step s a
    let (s, answers) ← runAll step program s
    return (s, answer :: answers)

variable {step : σ → α → Option (σ × β)}

theorem runAll_cons_eq_some {a : α} {program : List α} {s s' : σ} {answers : List β} :
    runAll step (a :: program) s = some (s', answers) ↔
      ∃ u answer rest, step s a = some (u, answer) ∧ runAll step program u = some (s', rest) ∧
        answers = answer :: rest := by
  rw [runAll, bind_eq_bind, bind_eq_some_iff]
  simp only [bind_eq_bind, bind_eq_some_iff, pure_def, some.injEq, Prod.exists, Prod.mk.injEq]
  constructor
  · rintro ⟨u, answer, hs, v, rest, hrun, rfl, rfl⟩
    exact ⟨u, answer, rest, hs, hrun, rfl⟩
  · rintro ⟨u, answer, rest, hs, hrun, rfl⟩
    exact ⟨u, answer, hs, s', rest, hrun, rfl, rfl⟩

variable {R : σ → τ → Prop} {l : List σ} {l' : List τ}

/-- Whatever the program, the answers of the specification are those of the implementation. -/
theorem runAll_simulates
    {spec : τ → α → Option (τ × β)} {program : List α} {s : σ} {t t' : τ} {answers : List β}
    (hrun : runAll spec program t = some (t', answers)) (h : R s t)
    (hs : ∀ s t, R s t → ∀ a t' answer, spec t a = some (t', answer) →
      ∃ s', step s a = some (s', answer) ∧ R s' t') :
    ∃ s', runAll step program s = some (s', answers) ∧ R s' t' := by
  induction program generalizing s t answers with
  | nil =>
    cases hrun
    exact ⟨s, rfl, h⟩
  | cons a program ih =>
    obtain ⟨u, answer, rest, ha, hr, rfl⟩ := runAll_cons_eq_some.mp hrun
    obtain ⟨s₁, hs₁, h₁⟩ := hs s t h a u answer ha
    obtain ⟨s₂, hs₂, h₂⟩ := ih hr h₁
    exact ⟨s₂, runAll_cons_eq_some.mpr ⟨s₁, answer, rest, hs₁, hs₂, rfl⟩, h₂⟩

/-! ## Several objects

A state may be a list of objects, each related to one of the other list. -/

variable (h : List.Forall₂ R l l')

include h

theorem forall₂_getElem? {i : Nat} {b : τ} (hb : l'[i]? = some b) :
    ∃ a, l[i]? = some a ∧ R a b := by
  induction h generalizing i with
  | nil => simp at hb
  | cons hab _ ih =>
    cases i with
    | zero => exact ⟨_, rfl, by simpa using (some.inj hb) ▸ hab⟩
    | succ i => exact ih hb

/-- A program that reads the object of a number, and the object of the other list. -/
theorem forall₂_bind {i : Nat} {f : τ → Option α} {a : α} (hf : l'[i]?.bind f = some a) :
    ∃ x y, l[i]? = some x ∧ l'[i]? = some y ∧ R x y ∧ f y = some a := by
  obtain ⟨y, hy, hf⟩ := bind_eq_some_iff.mp hf
  obtain ⟨x, hx, hxy⟩ := forall₂_getElem? h hy
  exact ⟨x, y, hx, hy, hxy, hf⟩

theorem forall₂_find? {p : σ → Bool} {q : τ → Bool} (hpq : ∀ a b, R a b → p a = q b) :
    Option.Rel R (l.find? p) (l'.find? q) := by
  induction h with
  | nil => exact .none
  | @cons a b _ _ hab _ ih =>
    rw [List.find?_cons, List.find?_cons, hpq a b hab]
    cases q b with
    | true => exact .some hab
    | false => exact ih

theorem forall₂_set {a : σ} {b : τ} (hab : R a b) (i : Nat) :
    List.Forall₂ R (l.set i a) (l'.set i b) := by
  induction h generalizing i with
  | nil => exact .nil
  | cons hh ht ih =>
    cases i with
    | zero => exact .cons hab ht
    | succ i => exact .cons hh (ih i)

end JavaScriptCore.ProgramLogic
