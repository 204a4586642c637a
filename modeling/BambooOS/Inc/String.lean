import BambooOS.Inc.Faults
import BambooOS.Lib.Bytes

/-!
# Inc.String

The byte loops of `inc/string.c` the memory code runs, over one flat memory. Ranges do not pass the
end of the address space.

* `memset_eq_fill`: the loop of `memset` sets exactly its range.
* `memcpy_apply`: the forward loop of `memcpy` copies the source as it was, unless the destination
  starts inside it.
* `memcpy_other`: in any case it writes to the destination only.
* `memmove_moves_iff`: `memmove` moves the bytes exactly where the forward loop does; the downward
  one never ends.
-/

namespace BambooOS

open ByteMem

/-- `memset(s, c, n)`: one byte at a time, upwards. -/
def memset (m : Mem) (s : Nat) (c : Byte) : Nat → Mem
  | 0 => m
  | n + 1 => Function.update (memset m s c n) (s + n) c

/-- `memcpy(dest, src, n)`: one byte at a time, upwards; each byte is read when it is copied. -/
def memcpy (m : Mem) (dest src : Nat) : Nat → Mem
  | 0 => m
  | n + 1 => Function.update (memcpy m dest src n) (dest + n) (memcpy m dest src n (src + n))

theorem memset_eq_fill (m : Mem) (s : Nat) (c : Byte) (n : Nat) :
    memset m s c n = fill m s n c := by
  induction n with
  | zero => funext x; simp [memset, fill]
  | succ n ih =>
    funext x
    simp only [memset, ih]
    by_cases hx : x = s + n
    · subst hx
      simp [fill]
    · rw [Function.update_of_ne hx]
      have hrange : (s ≤ x ∧ x < s + (n + 1)) ↔ (s ≤ x ∧ x < s + n) := by omega
      simp only [fill, hrange]

/-- The bytes of `m` with the `n` bytes from `src` on moved to `dest`. -/
def moved (m : Mem) (dest src n : Nat) : Mem := fun x =>
  if dest ≤ x ∧ x < dest + n then m (src + (x - dest)) else m x

theorem moved_self (m : Mem) (p n : Nat) : moved m p p n = m := by
  funext x
  unfold moved
  split
  · rw [show p + (x - p) = x by omega]
  · rfl

theorem memcpy_apply {m : Mem} {dest src n : Nat} (hd : dest ≤ src ∨ src + n ≤ dest) :
    memcpy m dest src n = moved m dest src n := by
  induction n with
  | zero =>
    funext x
    simp [memcpy, moved]
  | succ n ih =>
    have hd' : dest ≤ src ∨ src + n ≤ dest := by omega
    -- the byte to copy is behind the ones written so far, or below all of them
    have hsrc : moved m dest src n (src + n) = m (src + n) := by
      unfold moved
      rw [if_neg (by omega)]
    funext x
    rw [memcpy, ih hd', hsrc]
    by_cases hx : x = dest + n
    · subst hx
      simp [moved]
    · rw [Function.update_of_ne hx]
      have hrange : (dest ≤ x ∧ x < dest + (n + 1)) ↔ (dest ≤ x ∧ x < dest + n) := by omega
      simp only [moved, hrange]

/-- `memcpy` writes to its destination only, even where the ranges overlap. -/
theorem memcpy_other {m : Mem} {dest src n x : Nat} (hx : x < dest ∨ dest + n ≤ x) :
    memcpy m dest src n x = m x := by
  induction n with
  | zero => rfl
  | succ n ih =>
    rw [memcpy, Function.update_of_ne (by omega)]
    exact ih (by omega)

/-- The downward loop of `memmove`; the test on the unsigned `i` is as it stands there. -/
def memmoveDown (s1 s2 : Nat) : Nat → Nat → Mem → Except Fault Mem
  | 0, _, _ => .error .hang
  | fuel + 1, i, m =>
    if 0 ≤ i then
      memmoveDown s1 s2 fuel ((i + 2 ^ 64 - 1) % 2 ^ 64)
        (Function.update m ((s1 + i) % 2 ^ 64) (m ((s2 + i) % 2 ^ 64)))
    else .ok m

/-- `memmove(s1, s2, n)`; its upward loop is that of `memcpy`. -/
def memmove (fuel : Nat) (m : Mem) (s1 s2 n : Nat) : Except Fault Mem :=
  if s1 > s2 then memmoveDown s1 s2 fuel ((n + 2 ^ 64 - 1) % 2 ^ 64) m
  else .ok (memcpy m s1 s2 n)

theorem memmoveDown_hang (s1 s2 fuel i : Nat) (m : Mem) :
    memmoveDown s1 s2 fuel i m = .error .hang := by
  induction fuel generalizing i m with
  | zero => rfl
  | succ fuel ih =>
    rw [memmoveDown, if_pos (Nat.zero_le i)]
    exact ih _ _

/-- `memmove` comes back with the bytes moved exactly where the destination is not above the
source. -/
theorem memmove_moves_iff (m : Mem) (s1 s2 n : Nat) :
    (∃ fuel m', memmove fuel m s1 s2 n = .ok m' ∧ m' = moved m s1 s2 n) ↔ s1 ≤ s2 := by
  constructor
  · intro h
    obtain ⟨fuel, m', e, _⟩ := h
    by_contra hlt
    rw [memmove, if_pos (by omega), memmoveDown_hang] at e
    cases e
  · intro hle
    refine ⟨0, _, ?_, memcpy_apply (.inl hle)⟩
    rw [memmove, if_neg (by omega)]

/-- Sixteen bytes to a disjoint range above them. -/
theorem memmove_up_hangs : ¬ ∃ fuel m', memmove fuel (fun _ => 7) 0x2000 0x1000 16 = .ok m' := by
  intro h
  obtain ⟨fuel, m', e⟩ := h
  rw [memmove, if_pos (by decide), memmoveDown_hang] at e
  cases e

end BambooOS
