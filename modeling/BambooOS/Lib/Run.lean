import Mathlib.Tactic.Common

/-!
# Lib.Run

Runs of a state machine whose steps are a relation, so that a step may carry side conditions.

* `Exec.inv`: an invariant of one step is an invariant of every run.
* `Exec.congr`: steps that agree under an invariant give the same runs.
* `Exec.sim`: a relation kept by one step against a function on abstract states relates the ends
  of every run to the fold of that function.
-/

namespace Run

/-- `s'` is reached from `s` by the operations `ops`. -/
inductive Exec {σ α : Type*} (step : σ → α → σ → Prop) : σ → List α → σ → Prop where
  | nil {s : σ} : Exec step s [] s
  | cons {s s' s'' : σ} {a : α} {ops : List α} :
      step s a s' → Exec step s' ops s'' → Exec step s (a :: ops) s''

variable {σ τ α : Type*} {step : σ → α → σ → Prop}

theorem Exec.inv {I : σ → Prop} (hstep : ∀ s a s', I s → step s a s' → I s') {s s' : σ}
    {ops : List α} (h : Exec step s ops s') (hI : I s) : I s' := by
  induction h with
  | nil => exact hI
  | cons hs _ ih => exact ih (hstep _ _ _ hI hs)

theorem Exec.sim {R : σ → τ → Prop} {next : τ → α → τ}
    (hstep : ∀ s a s' t, R s t → step s a s' → R s' (next t a)) {s s' : σ} {ops : List α}
    (h : Exec step s ops s') {t : τ} (hR : R s t) : R s' (ops.foldl next t) := by
  induction h generalizing t with
  | nil => exact hR
  | cons hs _ ih => exact ih (hstep _ _ _ _ hR hs)

/-- Two step relations that agree wherever the invariant of one of them holds have the same runs. -/
theorem Exec.congr {step' : σ → α → σ → Prop} {I : σ → Prop}
    (hsame : ∀ s a s', I s → (step s a s' ↔ step' s a s'))
    (hkeep : ∀ s a s', I s → step s a s' → I s') {s s' : σ} {ops : List α} (hI : I s) :
    Exec step s ops s' ↔ Exec step' s ops s' := by
  constructor
  · intro h
    induction h with
    | nil => exact .nil
    | cons hs _ ih => exact .cons ((hsame _ _ _ hI).mp hs) (ih (hkeep _ _ _ hI hs))
  · intro h
    induction h with
    | nil => exact .nil
    | cons hs _ ih =>
      have hs' := (hsame _ _ _ hI).mpr hs
      exact .cons hs' (ih (hkeep _ _ _ hI hs'))

theorem Exec.append {s s' s'' : σ} {ops ops' : List α} (h : Exec step s ops s')
    (h' : Exec step s' ops' s'') : Exec step s (ops ++ ops') s'' := by
  induction h with
  | nil => exact h'
  | cons hs _ ih => exact .cons hs (ih h')

end Run
