import Mathlib.Data.Nat.Bitwise
import Mathlib.Tactic.Ring

/-!
# Lib.Bits

Bit fields of natural numbers: masks as arithmetic, and the bits of masked and joined values. Single
bits and fields of a word.
-/

namespace Bits

/-- Masking with `w` ones shifted to bit `k` keeps the field of `w` bits at `k`. -/
theorem and_field (v k w : Nat) : v &&& (2 ^ w - 1) <<< k = v / 2 ^ k % 2 ^ w * 2 ^ k := by
  apply Nat.eq_of_testBit_eq
  intro i
  rw [← Nat.shiftLeft_eq, Nat.testBit_and, Nat.testBit_shiftLeft, Nat.testBit_shiftLeft,
    Nat.testBit_two_pow_sub_one, Nat.testBit_mod_two_pow, Nat.testBit_div_two_pow]
  by_cases h : k ≤ i
  · simp only [h, decide_true, Bool.true_and, Nat.sub_add_cancel h]
    exact Bool.and_comm _ _
  · simp [h]

theorem and_low (v w : Nat) : v &&& (2 ^ w - 1) = v % 2 ^ w := Nat.and_two_pow_sub_one_eq_mod v w

theorem shiftRight_and_low (v k w : Nat) : (v >>> k) &&& (2 ^ w - 1) = v / 2 ^ k % 2 ^ w := by
  rw [and_low, Nat.shiftRight_eq_div_pow]

theorem and_bit_ne_zero (v i : Nat) : v &&& 2 ^ i ≠ 0 ↔ v.testBit i = true := by
  rw [Nat.and_two_pow]
  cases v.testBit i <;> simp

/-- A 64-bit value from its two low halfwords and its high word. -/
theorem halves {v : Nat} (hv : v < 2 ^ 64) :
    v % 2 ^ 16 + v / 2 ^ 16 % 2 ^ 16 * 2 ^ 16 + v / 2 ^ 32 % 2 ^ 32 * 2 ^ 32 = v := by
  omega

/-! ## Single bits of a word -/

section BitVec

variable {w : Nat}

theorem test_bit (b : BitVec w) {i : Nat} (hi : i < w) :
    (b &&& 1#w <<< i != 0#w) = b.getLsbD i := by
  rw [← BitVec.twoPow_eq, BitVec.and_twoPow]
  cases h : b.getLsbD i
  · simp
  · have hne : BitVec.twoPow w i ≠ 0#w := by
      intro h0
      have := congrArg (fun v => v.getLsbD i) h0
      simp [hi] at this
    simpa using hne

theorem set_bit (b : BitVec w) {i j : Nat} (hj : j < w) :
    (b ||| 1#w <<< i).getLsbD j = (b.getLsbD j || decide (i = j)) := by
  rw [← BitVec.twoPow_eq, BitVec.getLsbD_or, BitVec.getLsbD_twoPow]
  by_cases h : i = j
  · subst h; simp [hj]
  · simp [h]

theorem clear_bit (b : BitVec w) {i j : Nat} (hj : j < w) :
    (b &&& ~~~ (1#w <<< i)).getLsbD j = (b.getLsbD j && decide (i ≠ j)) := by
  rw [← BitVec.twoPow_eq, BitVec.getLsbD_and, BitVec.getLsbD_not, BitVec.getLsbD_twoPow]
  by_cases h : i = j
  · subst h; simp [hj]
  · simp [h, hj]

/-! ## Bit fields of a word -/

/-- The `n` bits of `b` from `lo` on replaced by `v`. -/
def setField (b : BitVec w) (lo : Nat) (v : BitVec n) : BitVec w :=
  (b &&& ~~~ ((BitVec.allOnes n).setWidth w <<< lo)) ||| (v.setWidth w <<< lo)

theorem getLsbD_setField (b : BitVec w) {lo i : Nat} (v : BitVec n) (hi : i < w) :
    (setField b lo v).getLsbD i =
      if lo ≤ i ∧ i < lo + n then v.getLsbD (i - lo) else b.getLsbD i := by
  simp only [setField, BitVec.getLsbD_or, BitVec.getLsbD_and, BitVec.getLsbD_not,
    BitVec.getLsbD_shiftLeft, BitVec.getLsbD_setWidth, BitVec.getLsbD_allOnes]
  by_cases hlo : i < lo
  · have hn : ¬ (lo ≤ i ∧ i < lo + n) := by omega
    simp [hi, hlo, hn]
  · by_cases hn : i - lo < n
    · have hin : lo ≤ i ∧ i < lo + n := by omega
      have hw : i - lo < w := by omega
      simp [hi, hlo, hin, hn, hw]
    · have hout : ¬ (lo ≤ i ∧ i < lo + n) := by omega
      have hv : v.getLsbD (i - lo) = false := BitVec.getLsbD_of_ge _ _ (by omega)
      simp [hi, hlo, hout, hn, hv]

theorem extractLsb'_setField (b : BitVec w) {lo : Nat} (v : BitVec n) (h : lo + n ≤ w) :
    (setField b lo v).extractLsb' lo n = v := by
  apply BitVec.eq_of_getLsbD_eq
  intro i hi
  rw [BitVec.getLsbD_extractLsb', getLsbD_setField b v (by omega), if_pos (by omega)]
  simp [hi]

theorem extractLsb'_setField_other (b : BitVec w) {lo lo' n' : Nat} (v : BitVec n)
    (h : lo' + n' ≤ w) (hd : lo + n ≤ lo' ∨ lo' + n' ≤ lo) :
    (setField b lo v).extractLsb' lo' n' = b.extractLsb' lo' n' := by
  apply BitVec.eq_of_getLsbD_eq
  intro i hi
  rw [BitVec.getLsbD_extractLsb', BitVec.getLsbD_extractLsb', getLsbD_setField b v (by omega),
    if_neg (by omega)]

theorem getLsbD_of_extractLsb' {b b' : BitVec w} {lo : Nat}
    (h : b.extractLsb' lo n = b'.extractLsb' lo n) {i : Nat} (hlo : lo ≤ i) (hi : i < lo + n) :
    b.getLsbD i = b'.getLsbD i := by
  have hbit := congrArg (fun v => v.getLsbD (i - lo)) h
  simp only [BitVec.getLsbD_extractLsb', Nat.add_sub_cancel' hlo] at hbit
  simpa [show i - lo < n by omega] using hbit

end BitVec

end Bits
