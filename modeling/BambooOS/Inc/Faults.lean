import Mathlib.Tactic.Common

/-!
# Inc.Faults

How a run of the kernel ends early: `faults_panic` halts the machine, and a run that reads through
a NULL pointer, touches an unmapped page, jumps through a stray pointer, divides by zero or loops for
ever never comes back either.
-/

namespace BambooOS

inductive Fault where
  | panic (message : String)
  | nullDeref
  | pageFault
  | wildCall
  | hang
  | divideError
  deriving DecidableEq, Repr

/-- `faults_assert(condition, failure_message)`. -/
def faultsAssert (condition : Bool) (failureMessage : String) : Except Fault Unit :=
  if condition then .ok () else .error (.panic failureMessage)

/-- A read through the pointer `p`, which must not be NULL. -/
def deref (p : Nat) : Except Fault Nat :=
  if p = 0 then .error .nullDeref else .ok p

/-- No NULL pointer is read through on the way to `r`. -/
def NoNull {α : Type*} (r : Except Fault α) : Prop := r ≠ .error .nullDeref

@[simp] theorem ok_bind {α β : Type} (a : α) (f : α → Except Fault β) :
    (Except.ok a >>= f) = f a := rfl

@[simp] theorem error_bind {α β : Type} (e : Fault) (f : α → Except Fault β) :
    (Except.error e >>= f) = .error e := rfl

/-- Peels one step off a run that comes back. -/
theorem bind_ok {α β : Type} {x : Except Fault α} {f : α → Except Fault β} {b : β}
    (h : x >>= f = .ok b) : ∃ a, x = .ok a ∧ f a = .ok b := by
  cases x with
  | error e => cases h
  | ok a => exact ⟨a, rfl, h⟩

theorem noNull_ok {α : Type*} (a : α) : NoNull (.ok a : Except Fault α) := by
  intro h
  cases h

theorem noNull_bind {α β : Type} {x : Except Fault α} {f : α → Except Fault β} (hx : NoNull x)
    (hf : ∀ a, x = .ok a → NoNull (f a)) : NoNull (x >>= f) := by
  cases x with
  | error e =>
    intro h
    have he : e = .nullDeref := by injection h
    exact hx (by rw [he])
  | ok a => exact hf a rfl

theorem faultsAssert_true {c : Bool} {msg : String} (h : c = true) : faultsAssert c msg = .ok () :=
  if_pos h

theorem faultsAssert_false {c : Bool} {msg : String} (h : ¬ c = true) :
    faultsAssert c msg = .error (.panic msg) := if_neg h

theorem deref_zero : deref 0 = .error .nullDeref := rfl

theorem deref_ne_zero {p : Nat} (hp : p ≠ 0) : deref p = .ok p := if_neg hp

/-- The run comes back with a value that passes the test. -/
def returns {α : Type*} (r : Except Fault α) (test : α → Bool) : Bool :=
  match r with
  | .ok a => test a
  | .error _ => false

theorem returns_iff {α : Type*} {r : Except Fault α} {test : α → Bool} :
    returns r test = true ↔ ∃ a, r = .ok a ∧ test a = true := by
  cases r with
  | error e => simp [returns]
  | ok a => simp [returns]

end BambooOS
