import BambooOS.Pmm.Run
import Mathlib.Data.Finset.Card
import Mathlib.Data.Int.ModEq

/-!
# Pmm.Count

The counter of allocated pages beside the bits it counts.

* `Counted`: the counter is the number of set bits.
* `set_counted`: the setter moves the counter exactly when the bit moves.
* `bitmap_array`: the setter as a write to an array of bits.
* `pmmNumAllocatedPages_exact`: so over any run since `pmm_init` the free memory reported is right.
-/

namespace BambooOS

open ByteMem

namespace Kernel

/-- The indices of the pages marked allocated. -/
def allocated (k : Kernel) : Finset Nat :=
  (Finset.range k.pmmUsablePages).filter fun i => k.pmmIsUsablePageAllocatedByIndex i = true

def Counted (k : Kernel) : Prop := k.pmmNumAllocatedPages = k.allocated.card

section Counted

variable {k k' : Kernel} {i : Nat} {b : Bool}

theorem mem_allocated : i ∈ k.allocated ↔
    i < k.pmmUsablePages ∧ k.pmmIsUsablePageAllocatedByIndex i = true := by
  rw [allocated, Finset.mem_filter, Finset.mem_range]

theorem allocated_card_le : k.allocated.card ≤ k.pmmUsablePages := by
  have := Finset.card_filter_le (Finset.range k.pmmUsablePages)
    fun i => k.pmmIsUsablePageAllocatedByIndex i = true
  rwa [Finset.card_range] at this

/-- The byte the setter writes differs from the old one exactly when the bit does. -/
theorem newByte_ne (byte : Byte) {j : Nat} (hj : j < 8) :
    (if b then byte ||| 1#8 <<< j else byte &&& ~~~ (1#8 <<< j)) ≠ byte ↔ byte.getLsbD j ≠ b := by
  rw [not_iff_not]
  constructor
  · intro h
    rw [← h]
    cases b
    · simp [Bits.clear_bit _ hj]
    · simp [Bits.set_bit _ hj]
  · intro h
    apply BitVec.eq_of_getLsbD_eq
    intro n hn
    cases b
    · rw [if_neg (by simp), Bits.clear_bit _ hn]
      by_cases hjn : j = n
      · simp [← hjn, h]
      · simp [hjn]
    · rw [if_pos rfl, Bits.set_bit _ hn]
      by_cases hjn : j = n
      · simp [← hjn, h]
      · simp [hjn]

variable (hk : k.PmmOk)

include hk

theorem set_num (hi : i < k.pmmUsablePages) (b : Bool) :
    (k.pmmSetUsablePageAllocatedByIndex i b).pmmNumAllocatedPages =
      if k.pmmIsUsablePageAllocatedByIndex i = b then k.pmmNumAllocatedPages
      else if b then (k.pmmNumAllocatedPages + 1) % 2 ^ 64
      else if k.pmmNumAllocatedPages = 0 then uint64Max else k.pmmNumAllocatedPages - 1 := by
  have hlt := hk.address_lt (lt_of_lt_of_le (hk.bitmapPage_lt hi) hk.bitmap_le)
  have hne : ¬ k.pmmGetAddressByIndex (bitmapPage i) = uint64Max := by
    simp only [uint64Max]; omega
  rw [is_eq hk hi]
  have hnew := newByte_ne (b := b) (k.mem (k.bitAddr i)) (Globals.bitOfByte_lt i)
  simp only [pmmSetUsablePageAllocatedByIndex, hne, if_false, ld8, hk.phys_bit hi]
  cases b <;> by_cases h : (k.mem (k.bitAddr i)).getLsbD (bitOfByte i) = true <;>
    simp_all

theorem allocated_set (hi : i < k.pmmUsablePages) (b : Bool) :
    (k.pmmSetUsablePageAllocatedByIndex i b).allocated =
      if b then insert i k.allocated else k.allocated.erase i := by
  ext j
  have hset : (k.pmmSetUsablePageAllocatedByIndex i b).pmmUsablePages = k.pmmUsablePages := by
    rw [set_toGlobals]
  rw [mem_allocated, hset]
  by_cases hj : j < k.pmmUsablePages
  · rw [is_set hk hi hj]
    cases b <;> by_cases hji : j = i <;> simp [hji, mem_allocated, hj, hi]
  · cases b <;> simp [mem_allocated, hj]
    omega

/-- The counter follows the bit. -/
theorem set_counted (h : k.Counted) (hi : i < k.pmmUsablePages) (b : Bool) :
    (k.pmmSetUsablePageAllocatedByIndex i b).Counted := by
  have hle := allocated_card_le (k := k)
  have hu := hk.usable_le
  rw [Counted, set_num hk hi, allocated_set hk hi, h]
  by_cases hb : k.pmmIsUsablePageAllocatedByIndex i = true
  · have hm : i ∈ k.allocated := mem_allocated.mpr ⟨hi, hb⟩
    have hpos := Finset.card_pos.mpr ⟨i, hm⟩
    cases b
    · rw [hb, if_neg (by simp), if_neg (by simp), if_neg (by omega), if_neg (by simp),
        Finset.card_erase_of_mem hm]
    · rw [if_pos hb, if_pos rfl, Finset.insert_eq_of_mem hm]
  · have hm : i ∉ k.allocated := fun hm => hb (mem_allocated.mp hm).2
    rw [Bool.not_eq_true] at hb
    cases b
    · rw [if_pos hb, if_neg (by simp), Finset.erase_eq_of_notMem hm]
    · rw [hb, if_neg (by simp), if_pos rfl, if_pos rfl, Finset.card_insert_of_notMem hm]
      exact Nat.mod_eq_of_lt (by omega)

theorem counted_congr (hg : k'.toGlobals = k.toGlobals)
    (hn : k'.pmmNumAllocatedPages = k.pmmNumAllocatedPages)
    (hm : ∀ x, pageOf x ∈ k.Bitmap → k'.mem x = k.mem x) (h : k.Counted) : k'.Counted := by
  have heq : k'.allocated = k.allocated := by
    ext i
    rw [mem_allocated, mem_allocated, hg]
    exact and_congr_right fun hi => by rw [is_congr hk hg hm hi]
  rw [Counted, hn, heq]
  exact h

theorem bitmap_le_card (h : k.BitmapHeld) : k.pmmBitmapPages ≤ k.allocated.card := by
  have hsub : Finset.range k.pmmBitmapPages ⊆ k.allocated := by
    intro i hi
    rw [Finset.mem_range] at hi
    exact mem_allocated.mpr ⟨lt_of_lt_of_le hi hk.bitmap_le, h i hi⟩
  have := Finset.card_le_card hsub
  rwa [Finset.card_range] at this

theorem pmmAllocPhys_counted (h : k.Counted) : k.pmmAllocPhys.2.Counted := by
  rcases pmmAllocPhys_cases hk with ⟨_, he⟩ | ⟨i, hi, _, _, he⟩
  · rw [he]
    exact counted_congr hk rfl rfl (fun _ _ => rfl) h
  · rw [he]
    have hk' : (k.pmmSetUsablePageAllocatedByIndex i true).PmmOk := by rw [set_toGlobals]; exact hk
    exact counted_congr hk' rfl rfl (fun _ _ => rfl) (set_counted hk h hi true)

theorem release_counted (h : k.Counted) (a : Nat) :
    (k.pmmSetUsablePageAllocatedByIndex (k.pmmGetIndexByAddress a) false).Counted := by
  by_cases hu : Usable k.memmapEntries a
  · exact set_counted hk h (hk.index hu).1 false
  · have hle := hk.usable_le
    rw [hk.index_none hu, set_of_le hk]
    · exact h
    · simp only [bitmapPage, uint64Max]
      omega

/-- The counter moves by the difference between the new bit and the old one. -/
theorem set_num_modEq (hi : i < k.pmmUsablePages) (b : Bool) :
    ((k.pmmSetUsablePageAllocatedByIndex i b).pmmNumAllocatedPages : Int) ≡
      k.pmmNumAllocatedPages + b.toNat - (k.pmmIsUsablePageAllocatedByIndex i).toNat
        [ZMOD 2 ^ 64] := by
  rw [set_num hk hi, Int.ModEq]
  cases b <;> cases k.pmmIsUsablePageAllocatedByIndex i
  · simp
  · -- a counter of zero wraps
    simp only [Bool.true_eq_false, if_false, Bool.false_eq_true, uint64Max, Bool.toNat_false,
      Bool.toNat_true]
    split <;> omega
  · simp
  · simp

/-- The bitmap is an array of bits: writing one leaves the others, one byte of the bitmap's own
pages changes, and the counter follows, without a wrap where it counts the bits. -/
theorem bitmap_array (hi : i < k.pmmUsablePages) (b : Bool) :
    (∀ j < k.pmmUsablePages,
      (k.pmmSetUsablePageAllocatedByIndex i b).pmmIsUsablePageAllocatedByIndex j =
        if j = i then b else k.pmmIsUsablePageAllocatedByIndex j) ∧
    (∃ p < k.pmmBitmapPages, ∃ o < 0x1000, ∀ x, x ≠ k.pmmGetAddressByIndex p + o →
      (k.pmmSetUsablePageAllocatedByIndex i b).mem x = k.mem x) ∧
    ((k.pmmSetUsablePageAllocatedByIndex i b).pmmNumAllocatedPages : Int) ≡
      k.pmmNumAllocatedPages + b.toNat - (k.pmmIsUsablePageAllocatedByIndex i).toNat
        [ZMOD 2 ^ 64] ∧
    (k.Counted → ((k.pmmSetUsablePageAllocatedByIndex i b).pmmNumAllocatedPages : Int) =
      k.pmmNumAllocatedPages + b.toNat - (k.pmmIsUsablePageAllocatedByIndex i).toNat) := by
  refine ⟨fun j hj => is_set hk hi hj b, ?_, set_num_modEq hk hi b, fun hc => ?_⟩
  · refine ⟨bitmapPage i, hk.bitmapPage_lt hi, byteOfPage i, Globals.byteOfPage_lt i, fun x hx => ?_⟩
    rw [(set_spec hk hi b).1]
    exact Function.update_of_ne hx _ _
  · have hle := allocated_card_le (k := k)
    have hu := hk.usable_le
    rw [set_num hk hi, hc]
    by_cases hold : k.pmmIsUsablePageAllocatedByIndex i = true
    · have hpos := Finset.card_pos.mpr ⟨i, mem_allocated.mpr ⟨hi, hold⟩⟩
      cases b
      · simp [hold, Nat.ne_of_gt hpos, Nat.cast_sub (show 1 ≤ k.allocated.card from hpos)]
      · simp [hold]
    · rw [Bool.not_eq_true] at hold
      cases b
      · simp [hold]
      · rw [Nat.mod_eq_of_lt (by omega)]
        simp [hold]

end Counted

end Kernel

open Kernel

/-- Two neighbouring pages after `pmm_init`. -/
theorem bitmap_array_machine :
    let k := (bareMachine []).pmmInit machineBoot
    (k.pmmSetUsablePageAllocatedByIndex 5 true).pmmIsUsablePageAllocatedByIndex 5 = true ∧
    (k.pmmSetUsablePageAllocatedByIndex 5 true).pmmIsUsablePageAllocatedByIndex 6 =
      k.pmmIsUsablePageAllocatedByIndex 6 := by
  intro k
  obtain ⟨hg, _⟩ := pmmInit_spec (machine_boot []) machine_memmapOk (by decide)
  have hk : k.PmmOk := by
    rw [hg]
    exact initGlobals_ok (machine_boot []) machine_memmapOk (by decide)
  have hpages : k.pmmUsablePages = 512 := by
    rw [hg]
    rfl
  have hset := (bitmap_array hk (show 5 < k.pmmUsablePages by omega) true).1
  rw [hset 5 (by omega), hset 6 (by omega)]
  simp

/-! ## Runs since `pmm_init` -/

/-- The state of a run with the globals `g`: the marks of the bitmap pages, and the count. -/
structure Audit (g : Globals) (k : Kernel) : Prop where
  globals : k.toGlobals = g
  ok : g.PmmOk
  early : g.vmmInitialised = false
  bitmap : k.BitmapHeld
  counted : k.Counted

section Audit

variable {g : Globals} {s s' : PmmState}

theorem Audit.kernel_ok {k : Kernel} (h : Audit g k) : k.PmmOk := by
  rw [h.globals]; exact h.ok

theorem Audit.release {k : Kernel} (h : Audit g k) (page : Nat) : Audit g (k.pmmFree page) := by
  have hk := h.kernel_ok
  have hini : k.vmmInitialised = false := by rw [h.globals]; exact h.early
  simp only [pmmFree]
  generalize k.pmmVirtToPhys page = a
  split
  · exact h
  split
  · rename_i hge
    obtain ⟨hg, hb, _⟩ := release_spec hk h.bitmap a ((release_guard hk a).mp hge)
    have hcount := release_counted hk h.counted a
    generalize k.pmmSetUsablePageAllocatedByIndex (k.pmmGetIndexByAddress a) false = k₁
      at hg hb hcount ⊢
    have hk₁ : k₁.PmmOk := by rw [hg]; exact hk
    rw [if_neg (by rw [log_toGlobals, hg, hini]; simp)]
    exact ⟨hg.trans h.globals, h.ok, h.early, bitmapHeld_congr hk₁ rfl (fun _ _ => rfl) hb,
      counted_congr hk₁ rfl rfl (fun _ _ => rfl) hcount⟩
  · exact h

theorem audit_step {op : PmmOp} (h : Audit g s.kernel) (hs : pmmStep s op s') :
    Audit g s'.kernel := by
  have hk := h.kernel_ok
  cases hs with
  | alloc =>
    refine ⟨(pmmAllocPhys_toGlobals _).trans h.globals, h.ok, h.early, ?_,
      pmmAllocPhys_counted hk h.counted⟩
    rcases pmmAllocPhys_cases hk with ⟨_, he⟩ | ⟨i, hi, _, _, he⟩
    · rw [he]
      exact bitmapHeld_congr hk rfl (fun _ _ => rfl) h.bitmap
    · rw [he]
      have hk' : (s.kernel.pmmSetUsablePageAllocatedByIndex i true).PmmOk := by
        rw [set_toGlobals]; exact hk
      exact bitmapHeld_congr hk' rfl (fun _ _ => rfl) (bitmapHeld_set hk hi (.inl rfl) h.bitmap)
  | free => exact h.release _
  | @write m hm =>
    exact ⟨h.globals, h.ok, h.early, bitmapHeld_congr hk rfl hm h.bitmap,
      counted_congr hk rfl rfl hm h.counted⟩

/-- Clearing the bitmap pages leaves no bit set; every mark after that is counted. -/
theorem pmmInit_audit {k : Kernel} {bd : BootData} (hb : BootOk k bd) (hm : MemmapOk bd.memmap)
    (hpos : 0 < usablePages bd.memmap) (hv : k.vmmInitialised = false) :
    Audit (initGlobals k bd) (k.pmmInit bd) := by
  obtain ⟨hg, hheld, _⟩ := pmmInit_spec hb hm hpos
  have hok := initGlobals_ok hb hm hpos
  refine ⟨hg, hok, hv, hheld, ?_⟩
  have hle := usablePages_le hm
  let k₁ : Kernel := { k with toGlobals := initGlobals k bd }
  have hcount : Kernel.countUsablePages bd.memmap k.pmmUsablePages = usablePages bd.memmap := by
    rw [hb.usable, countUsablePages_eq (by omega), Nat.zero_add]
  have hinit : k.pmmInit bd = Loop.upto (fun i (t : Kernel) =>
      t.pmmSetUsablePageAllocatedByIndex i true) k₁.pmmBitmapPages
      (Loop.upto (fun i (t : Kernel) =>
        t.memset (t.pmmPhysToVirt (t.pmmGetAddressByIndex i)) 0#8 0x1000) k₁.pmmBitmapPages k₁) := by
    simp only [Kernel.pmmInit, hcount, k₁, initGlobals]
  obtain ⟨hg₂, _, hz₂⟩ := clear_loop (k := k₁) hok
  have hnum := Loop.upto_keeps Kernel.pmmNumAllocatedPages (f := fun i (t : Kernel) =>
    t.memset (t.pmmPhysToVirt (t.pmmGetAddressByIndex i)) 0#8 0x1000)
    (fun _ _ => by simp only [Kernel.memset]) k₁.pmmBitmapPages k₁
  rw [hinit]
  generalize Loop.upto (fun i (t : Kernel) =>
    t.memset (t.pmmPhysToVirt (t.pmmGetAddressByIndex i)) 0#8 0x1000) k₁.pmmBitmapPages k₁ = k₂
    at hg₂ hz₂ hnum ⊢
  have hk₂ : k₂.PmmOk := by rw [hg₂]; exact hok
  have hzero : k₂.Counted := by
    have hempty : k₂.allocated = ∅ := by
      rw [Finset.eq_empty_iff_forall_notMem]
      intro i hi
      obtain ⟨hi, hbit⟩ := mem_allocated.mp hi
      have hmem := hk₂.pageOf_bitAddr_mem hi
      rw [is_eq hk₂ hi, hz₂ _ (by rw [← hg₂]; exact hmem)] at hbit
      simp at hbit
    rw [Counted, hempty, Finset.card_empty, hnum]
    exact hb.allocated
  exact (Loop.upto_inv (P := fun _ (t : Kernel) => t.toGlobals = k₁.toGlobals ∧ t.Counted)
    ⟨hg₂, hzero⟩ fun i t hi ht => by
      have hkt : t.PmmOk := by rw [ht.1]; exact hok
      exact ⟨by rw [set_toGlobals]; exact ht.1,
        set_counted hkt ht.2 (by rw [ht.1]; exact lt_of_lt_of_le hi hok.bitmap_le) true⟩).2

end Audit

/-- In every state since `pmm_init` the counter is the number of set bits, at least the bitmap's
own pages and at most all, so the free memory reported does not wrap. -/
theorem pmmNumAllocatedPages_exact {k : Kernel} {bd : BootData} {s : PmmState} {ops : List PmmOp}
    (hb : BootOk k bd) (hm : MemmapOk bd.memmap) (hpos : 0 < usablePages bd.memmap)
    (hv : k.vmmInitialised = false) (hrun : Run.Exec pmmStep ⟨k.pmmInit bd, ∅⟩ ops s) :
    s.kernel.pmmNumAllocatedPages = s.kernel.allocated.card ∧
    s.kernel.pmmBitmapPages ≤ s.kernel.pmmNumAllocatedPages ∧
    s.kernel.pmmNumAllocatedPages ≤ s.kernel.pmmUsablePages ∧
    s.kernel.pmmGetCurrentFreeMemory =
      (s.kernel.pmmUsablePages - s.kernel.pmmNumAllocatedPages) * 0x1000 := by
  have h : Audit (initGlobals k bd) s.kernel :=
    hrun.inv (I := fun s => Audit (initGlobals k bd) s.kernel) (fun _ _ _ => audit_step)
      (pmmInit_audit hb hm hpos hv)
  have hk := h.kernel_ok
  have hle := allocated_card_le (k := s.kernel)
  have hu := hk.usable_le
  have hbit := bitmap_le_card hk h.bitmap
  have hc : s.kernel.pmmNumAllocatedPages = s.kernel.allocated.card := h.counted
  refine ⟨hc, by omega, by omega, ?_⟩
  rw [pmmGetCurrentFreeMemory]
  omega

/-- A machine that has handed out one frame, and freed an address it does not manage. -/
theorem pmmNumAllocatedPages_exact_two :
    let s : PmmState := ⟨machineFirst.kernel.pmmFree 0x1234, machineFirst.held \
      {pageOf (machineFirst.kernel.phys 0x1234)}⟩
    s.kernel.pmmNumAllocatedPages = s.kernel.allocated.card ∧
    s.kernel.pmmBitmapPages ≤ s.kernel.pmmNumAllocatedPages ∧
    s.kernel.pmmNumAllocatedPages ≤ s.kernel.pmmUsablePages ∧
    s.kernel.pmmGetCurrentFreeMemory =
      (s.kernel.pmmUsablePages - s.kernel.pmmNumAllocatedPages) * 0x1000 :=
  pmmNumAllocatedPages_exact (machine_boot []) machine_memmapOk (by decide) rfl
    (.cons .alloc (.cons .free .nil))

end BambooOS
