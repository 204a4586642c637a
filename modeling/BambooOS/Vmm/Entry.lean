import BambooOS.Lib.Bits
import BambooOS.Lib.Radix
import BambooOS.Vmm.Model

/-!
# Vmm.Entry

Page-table entries as numbers: the address field, the flag bits, and the radix-tree format they
make. Level 0 is a PT entry, level 3 a PML4 entry; level 4 stands for the root pointer itself,
whose value is the physical address of the PML4.
-/

namespace BambooOS

open Radix

/-! ## The address field -/

theorem addressMask_eq : 0x000FFFFFFFFFF000 = (2 ^ 40 - 1) <<< 12 := by decide

theorem getAddress_eq (v : Nat) : vmmPtEntryGetAddress v = v / 2 ^ 12 % 2 ^ 40 * 2 ^ 12 := by
  rw [vmmPtEntryGetAddress, addressMask_eq, Bits.and_field]

theorem getAddress_aligned (v : Nat) : vmmPtEntryGetAddress v % 0x1000 = 0 := by
  rw [getAddress_eq]; omega

theorem getAddress_lt (v : Nat) : vmmPtEntryGetAddress v + 0x1000 ≤ 2 ^ 52 := by
  rw [getAddress_eq]; omega

theorem getAddress_of_aligned {a : Nat} (ha : a % 0x1000 = 0) (hlt : a < 2 ^ 52) :
    vmmPtEntryGetAddress a = a := by
  rw [getAddress_eq]; omega

theorem testBit_getAddress (v i : Nat) :
    (vmmPtEntryGetAddress v).testBit i = (v.testBit i && decide (12 ≤ i ∧ i < 52)) := by
  rw [vmmPtEntryGetAddress, addressMask_eq, Nat.testBit_and, Nat.testBit_shiftLeft,
    Nat.testBit_two_pow_sub_one]
  congr 1
  by_cases h : 12 ≤ i
  · simp only [h, decide_true, true_and, Bool.true_and]
    congr 1
    simp only [eq_iff_iff]
    omega
  · simp [h]

theorem testBit_keepMask (i : Nat) :
    (0xFFF0000000000FFF).testBit i = decide (i < 12 ∨ (52 ≤ i ∧ i < 64)) := by
  have h : 0xFFF0000000000FFF = (2 ^ 12 - 1) ||| (2 ^ 12 - 1) <<< 52 := by decide
  rw [h, Nat.testBit_or, Nat.testBit_shiftLeft, Nat.testBit_two_pow_sub_one,
    Nat.testBit_two_pow_sub_one]
  by_cases h₁ : i < 12
  · simp [h₁]
  · by_cases h₂ : 52 ≤ i
    · simp only [h₁, h₂, decide_false, decide_true, Bool.false_or, Bool.true_and, false_or,
        true_and]
      congr 1
      simp only [eq_iff_iff]
      omega
    · simp [h₁, h₂]

/-- The two masks of `vmm_pt_entry_set_address` take the address field and nothing else. -/
theorem setAddress_field (address : Nat) :
    (address &&& 0x000FFFFFFFFFFFFF) &&& 0x000FFFFFFFFFF000 = vmmPtEntryGetAddress address := by
  have h : 0x000FFFFFFFFFFFFF &&& 0x000FFFFFFFFFF000 = 0x000FFFFFFFFFF000 := by decide
  rw [Nat.and_assoc, h, vmmPtEntryGetAddress]

theorem testBit_setAddress (v a i : Nat) : (vmmPtEntrySetAddress v a).testBit i =
    if 12 ≤ i ∧ i < 52 then a.testBit i else v.testBit i && decide (i < 64) := by
  rw [vmmPtEntrySetAddress, setAddress_field, Nat.testBit_or, Nat.testBit_and, testBit_keepMask,
    testBit_getAddress]
  by_cases h : 12 ≤ i ∧ i < 52
  · have h' : ¬ (i < 12 ∨ (52 ≤ i ∧ i < 64)) := by omega
    simp [h, h']
  · have h' : (i < 12 ∨ (52 ≤ i ∧ i < 64)) ↔ i < 64 := by omega
    simp only [h, h', if_false, decide_false, Bool.and_false, Bool.or_false]

@[simp] theorem getAddress_setAddress (v a : Nat) :
    vmmPtEntryGetAddress (vmmPtEntrySetAddress v a) = vmmPtEntryGetAddress a := by
  apply Nat.eq_of_testBit_eq
  intro i
  rw [testBit_getAddress, testBit_getAddress, testBit_setAddress]
  by_cases h : 12 ≤ i ∧ i < 52 <;> simp [h]

theorem getAddress_or {v flags : Nat} (hf : flags < 2 ^ 12) :
    vmmPtEntryGetAddress (v ||| flags) = vmmPtEntryGetAddress v := by
  apply Nat.eq_of_testBit_eq
  intro i
  rw [testBit_getAddress, testBit_getAddress, Nat.testBit_or]
  by_cases h : 12 ≤ i ∧ i < 52
  · have : flags.testBit i = false :=
      Nat.testBit_lt_two_pow (lt_of_lt_of_le hf (Nat.pow_le_pow_right (by omega) h.1))
    simp [h, this]
  · simp [h]

theorem setAddress_lt (v a : Nat) : vmmPtEntrySetAddress v a < 2 ^ 64 := by
  apply Nat.lt_pow_two_of_testBit
  intro i hi
  rw [testBit_setAddress]
  have h₁ : ¬ (12 ≤ i ∧ i < 52) := by omega
  have h₂ : ¬ i < 64 := by omega
  simp [h₁, h₂]

/-! ## Flags -/

/-- Bit 0. -/
def Present (v : Nat) : Prop := v.testBit 0 = true

/-- Bit 7. -/
def Larger (v : Nat) : Prop := v.testBit 7 = true

instance : DecidablePred Present := fun v => inferInstanceAs (Decidable (v.testBit 0 = true))
instance : DecidablePred Larger := fun v => inferInstanceAs (Decidable (v.testBit 7 = true))

theorem and_present (v : Nat) : v &&& ptEntryPresent = 0 ↔ ¬ Present v := by
  rw [← not_iff_not, not_not]
  exact Bits.and_bit_ne_zero v 0

theorem and_larger (v : Nat) : v &&& ptEntryLargerPages ≠ 0 ↔ Larger v := Bits.and_bit_ne_zero v 7

theorem not_present_zero : ¬ Present 0 := by decide

theorem present_setAddress {v a : Nat} : Present (vmmPtEntrySetAddress v a) ↔ Present v := by
  simp only [Present, testBit_setAddress]
  simp

theorem larger_setAddress {v a : Nat} : Larger (vmmPtEntrySetAddress v a) ↔ Larger v := by
  simp only [Larger, testBit_setAddress]
  simp

theorem present_or {v w : Nat} : Present (v ||| w) ↔ Present v ∨ Present w := by
  simp only [Present, Nat.testBit_or, Bool.or_eq_true]

theorem larger_or {v w : Nat} : Larger (v ||| w) ↔ Larger v ∨ Larger w := by
  simp only [Larger, Nat.testBit_or, Bool.or_eq_true]

theorem present_flag : Present ptEntryPresent := by decide
theorem not_larger_rw : ¬ Larger ptEntryReadWrite := by decide
theorem not_larger_present : ¬ Larger ptEntryPresent := by decide
theorem larger_flag : Larger ptEntryLargerPages := by decide

/-! ## The format of the tables -/

/-- An entry of the tables is absent when it is zero; a PT entry is a leaf, a PD or PDPT entry
is one when its larger-pages bit is set, and a PML4 entry always points to a table. -/
def fmt : Format Nat Nat where
  absent v := v = 0
  leaf l v := Present v ∧ (l = 0 ∨ (l = 1 ∨ l = 2) ∧ Larger v)
  table l v := l = 4 ∨ (Present v ∧ (l = 3 ∨ (l = 1 ∨ l = 2) ∧ ¬ Larger v))
  base := vmmPtEntryGetAddress

abbrev PageTree := Tree Nat (Fin 512)

/-- A named instance, so that every slot literal is one term. -/
instance neZeroSlots : NeZero 512 := ⟨by decide⟩

/-- The indices of the page `q` in the tables of the levels. -/
def path (q : Nat) (l : Nat) : Fin 512 := Fin.ofNat 512 (q / 512 ^ l)

theorem path_val (q l : Nat) : (path q l).val = q / 512 ^ l % 512 := rfl

theorem pml4Index_eq (v : Nat) : pml4Index v = (path (v / 0x1000) 3).val := by
  rw [pml4Index, path_val, show 0x1FF = 2 ^ 9 - 1 by rfl, Bits.shiftRight_and_low,
    Nat.div_div_eq_div_mul]
  norm_num

theorem pdptIndex_eq (v : Nat) : pdptIndex v = (path (v / 0x1000) 2).val := by
  rw [pdptIndex, path_val, show 0x1FF = 2 ^ 9 - 1 by rfl, Bits.shiftRight_and_low,
    Nat.div_div_eq_div_mul]
  norm_num

theorem pdIndex_eq (v : Nat) : pdIndex v = (path (v / 0x1000) 1).val := by
  rw [pdIndex, path_val, show 0x1FF = 2 ^ 9 - 1 by rfl, Bits.shiftRight_and_low,
    Nat.div_div_eq_div_mul]
  norm_num

theorem ptIndex_eq (v : Nat) : ptIndex v = (path (v / 0x1000) 0).val := by
  rw [ptIndex, path_val, show 0x1FF = 2 ^ 9 - 1 by rfl, Bits.shiftRight_and_low]
  simp

/-- Two pages share their indices from level `l` up exactly when they share the block of
`512 ^ l` pages. -/
theorem path_eq_iff {q r l : Nat} (hl : l ≤ 4) :
    (∀ j, l ≤ j → j < 4 → path r j = path q j) ↔
      r / 512 ^ l % 512 ^ (4 - l) = q / 512 ^ l % 512 ^ (4 - l) := by
  simp only [Fin.ext_iff, path_val]
  rcases (by omega : l = 0 ∨ l = 1 ∨ l = 2 ∨ l = 3 ∨ l = 4) with rfl | rfl | rfl | rfl | rfl
  · constructor
    · intro h
      have h0 := h 0 (by omega) (by omega)
      have h1 := h 1 (by omega) (by omega)
      have h2 := h 2 (by omega) (by omega)
      have h3 := h 3 (by omega) (by omega)
      norm_num at h0 h1 h2 h3 ⊢
      omega
    · intro h j h₁ h₂
      norm_num at h
      rcases (by omega : j = 0 ∨ j = 1 ∨ j = 2 ∨ j = 3) with rfl | rfl | rfl | rfl <;>
        norm_num <;> omega
  · constructor
    · intro h
      have h1 := h 1 (by omega) (by omega)
      have h2 := h 2 (by omega) (by omega)
      have h3 := h 3 (by omega) (by omega)
      norm_num at h1 h2 h3 ⊢
      omega
    · intro h j h₁ h₂
      norm_num at h
      rcases (by omega : j = 1 ∨ j = 2 ∨ j = 3) with rfl | rfl | rfl <;> norm_num <;> omega
  · constructor
    · intro h
      have h2 := h 2 (by omega) (by omega)
      have h3 := h 3 (by omega) (by omega)
      norm_num at h2 h3 ⊢
      omega
    · intro h j h₁ h₂
      norm_num at h
      rcases (by omega : j = 2 ∨ j = 3) with rfl | rfl <;> norm_num <;> omega
  · constructor
    · intro h
      have h3 := h 3 (by omega) (by omega)
      norm_num at h3 ⊢
      omega
    · intro h j h₁ h₂
      norm_num at h
      have : j = 3 := by omega
      subst this
      norm_num
      omega
  · constructor
    · intro _; norm_num; omega
    · intro _ j h₁ h₂; omega

end BambooOS
