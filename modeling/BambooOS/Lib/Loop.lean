import Mathlib.Tactic.Common

/-!
# Lib.Loop

Counted loops over a state, with the invariant rule every such loop is proved with.
-/

namespace Loop

/-- `for (i = 0; i < n; i++) s = f i s`. -/
def upto {σ : Type*} (f : Nat → σ → σ) : Nat → σ → σ
  | 0, s => s
  | n + 1, s => f n (upto f n s)

/-- `for (i = from; i < from + n; i++) s = f i s`, where the body may not come back. -/
def forUpto {σ : Type*} (f : Nat → σ → Option σ) : Nat → Nat → σ → Option σ
  | 0, _, s => some s
  | n + 1, i, s => (f i s).bind (forUpto f n (i + 1))

/-- What holds at `0` and is carried from `i` to `i + 1` by the body holds at the end. -/
theorem upto_inv {σ : Type*} {f : Nat → σ → σ} {P : Nat → σ → Prop} {n : Nat} {s : σ}
    (h0 : P 0 s) (hstep : ∀ i t, i < n → P i t → P (i + 1) (f i t)) : P n (upto f n s) := by
  have key : ∀ k, k ≤ n → P k (upto f k s) := by
    intro k
    induction k with
    | zero => intro _; exact h0
    | succ k ih => intro hk; exact hstep k _ (by omega) (ih (by omega))
  exact key n (Nat.le_refl n)

theorem upto_keeps {σ α : Type*} {f : Nat → σ → σ} (g : σ → α) (h : ∀ i t, g (f i t) = g t)
    (n : Nat) (s : σ) : g (upto f n s) = g s :=
  upto_inv (P := fun _ t => g t = g s) rfl (fun i t _ ht => (h i t).trans ht)

end Loop
