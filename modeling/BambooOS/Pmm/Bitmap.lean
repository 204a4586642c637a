import BambooOS.Lib.Bits
import BambooOS.Pmm.Index
import Mathlib.Data.Set.Basic

/-!
# Pmm.Bitmap

The bitmap as an array of bits, in memory that it describes itself.

* `Globals.PmmOk`: what `pmm_init` establishes about the globals.
* `Kernel.Free`, `Globals.Bitmap`: the page frames whose bit is clear, and the bitmap's own.
* `is_set`: writing the bit of one index reads back at that index and leaves every other alone.
* `free_congr`: `Free` depends only on the bytes of the bitmap pages.
-/

namespace BambooOS

open ByteMem

/-- The page that holds the byte `x`. -/
def pageOf (x : Nat) : Nat := x - x % 0x1000

theorem pageOf_of_page {a x : Nat} (ha : a % 0x1000 = 0) (h₁ : a ≤ x) (h₂ : x < a + 0x1000) :
    pageOf x = a := by
  simp only [pageOf]; omega

theorem pageOf_self {a : Nat} (ha : a % 0x1000 = 0) : pageOf a = a := by
  simp only [pageOf]; omega

/-- `k'` has the memory of `k` outside the pages in `S`. -/
def MemKept (S : Set Nat) (k k' : Kernel) : Prop := ∀ x, pageOf x ∉ S → k'.mem x = k.mem x

theorem MemKept.refl (S : Set Nat) (k : Kernel) : MemKept S k k := fun _ _ => rfl

theorem MemKept.trans {S : Set Nat} {k k' k'' : Kernel} (h : MemKept S k k')
    (h' : MemKept S k' k'') : MemKept S k k'' := fun x hx => (h' x hx).trans (h x hx)

theorem MemKept.mono {S S' : Set Nat} {k k' : Kernel} (h : MemKept S k k') (hs : S ⊆ S') :
    MemKept S' k k' := fun x hx => h x fun hx' => hx (hs hx')

namespace Globals

/-- What `pmm_init` leaves in the globals, for a memory map with at least one usable page. -/
structure PmmOk (g : Globals) : Prop where
  map : MemmapOk g.memmapEntries
  pos : 0 < g.pmmUsablePages
  usable : g.pmmUsablePages = usablePages g.memmapEntries
  bitmap : g.pmmBitmapPages = g.pmmUsablePages / (0x1000 * 8) + 1
  offset : g.higherHalfOffset = g.hhdm
  hhdm_lt : g.hhdm < 2 ^ 64

/-- The frames of the bitmap's own pages. -/
def Bitmap (g : Globals) : Set Nat := {a | ∃ i < g.pmmBitmapPages, g.pmmGetAddressByIndex i = a}

/-- The physical address of the byte that holds the bit of page `i`. -/
def bitAddr (g : Globals) (i : Nat) : Nat :=
  g.pmmGetAddressByIndex (Kernel.bitmapPage i) + Kernel.byteOfPage i

section Config

variable {g : Globals} (hg : g.PmmOk)

include hg

theorem PmmOk.usable_le : g.pmmUsablePages ≤ 2 ^ 40 := hg.usable ▸ usablePages_le hg.map

theorem PmmOk.bitmap_le : g.pmmBitmapPages ≤ g.pmmUsablePages := by
  have := hg.bitmap; have := hg.pos
  omega

theorem PmmOk.address {i : Nat} (hi : i < g.pmmUsablePages) :
    Usable g.memmapEntries (g.pmmGetAddressByIndex i) ∧ g.pmmGetAddressByIndex i % 0x1000 = 0 ∧
      g.pmmGetIndexByAddress (g.pmmGetAddressByIndex i) = i := by
  have hle := hg.usable_le
  rw [hg.usable] at hi hle
  exact getAddressFrom_spec hg.map (Nat.zero_le i) (by omega) (by omega)

theorem PmmOk.address_none {i : Nat} (hi : g.pmmUsablePages ≤ i) :
    g.pmmGetAddressByIndex i = uint64Max := by
  have hle := hg.usable_le
  rw [hg.usable] at hi hle
  exact getAddressFrom_none (by omega) (by omega)

theorem PmmOk.index {a : Nat} (ha : Usable g.memmapEntries a) :
    g.pmmGetIndexByAddress a < g.pmmUsablePages ∧
      g.pmmGetAddressByIndex (g.pmmGetIndexByAddress a) = pageOf a := by
  have hle := hg.usable_le
  rw [hg.usable] at hle ⊢
  obtain ⟨_, h₂, h₃⟩ := getIndexFrom_spec hg.map 0 ha (by omega)
  exact ⟨by simpa [pmmGetIndexByAddress] using h₂, h₃⟩

theorem PmmOk.index_none {a : Nat} (ha : ¬ Usable g.memmapEntries a) :
    g.pmmGetIndexByAddress a = uint64Max := getIndexFrom_none hg.map ha

theorem PmmOk.address_lt {i : Nat} (hi : i < g.pmmUsablePages) :
    g.pmmGetAddressByIndex i + 0x1000 ≤ 2 ^ 52 := by
  obtain ⟨hu, hal, _⟩ := hg.address hi
  have := hu.lt hg.map
  omega

theorem PmmOk.address_inj {i j : Nat} (hi : i < g.pmmUsablePages) (hj : j < g.pmmUsablePages)
    (h : g.pmmGetAddressByIndex i = g.pmmGetAddressByIndex j) : i = j := by
  rw [← (hg.address hi).2.2, ← (hg.address hj).2.2, h]

theorem PmmOk.bitmap_aligned {a : Nat} (ha : a ∈ g.Bitmap) : a % 0x1000 = 0 := by
  obtain ⟨i, hi, rfl⟩ := ha
  exact (hg.address (lt_of_lt_of_le hi hg.bitmap_le)).2.1

/-! ## Splitting an index into page, byte and bit -/

theorem PmmOk.bitmapPage_lt {i : Nat} (hi : i < g.pmmUsablePages) :
    Kernel.bitmapPage i < g.pmmBitmapPages := by
  rw [hg.bitmap]
  simp only [Kernel.bitmapPage]
  omega

omit hg in
theorem byteOfPage_lt (i : Nat) : Kernel.byteOfPage i < 0x1000 := by
  simp only [Kernel.byteOfPage, Kernel.bitmapPage]; omega

omit hg in
theorem bitOfByte_lt (i : Nat) : Kernel.bitOfByte i < 8 := by
  simp only [Kernel.bitOfByte, Kernel.byteOfPage, Kernel.bitmapPage]; omega

theorem PmmOk.pageOf_bitAddr {i : Nat} (hi : i < g.pmmUsablePages) :
    pageOf (g.bitAddr i) = g.pmmGetAddressByIndex (Kernel.bitmapPage i) := by
  have hb := lt_of_lt_of_le (hg.bitmapPage_lt hi) hg.bitmap_le
  have := byteOfPage_lt i
  exact pageOf_of_page (hg.address hb).2.1 (by simp only [bitAddr]; omega)
    (by simp only [bitAddr]; omega)

theorem PmmOk.pageOf_bitAddr_mem {i : Nat} (hi : i < g.pmmUsablePages) :
    pageOf (g.bitAddr i) ∈ g.Bitmap :=
  ⟨_, hg.bitmapPage_lt hi, (hg.pageOf_bitAddr hi).symm⟩

theorem PmmOk.bit_inj {i j : Nat} (hi : i < g.pmmUsablePages) (hj : j < g.pmmUsablePages)
    (ha : g.bitAddr i = g.bitAddr j) (hb : Kernel.bitOfByte i = Kernel.bitOfByte j) : i = j := by
  have hpage : Kernel.bitmapPage i = Kernel.bitmapPage j := by
    apply hg.address_inj (lt_of_lt_of_le (hg.bitmapPage_lt hi) hg.bitmap_le)
      (lt_of_lt_of_le (hg.bitmapPage_lt hj) hg.bitmap_le)
    rw [← hg.pageOf_bitAddr hi, ← hg.pageOf_bitAddr hj, ha]
  have hbyte : Kernel.byteOfPage i = Kernel.byteOfPage j := by
    simp only [bitAddr, hpage] at ha
    omega
  simp only [Kernel.bitOfByte, Kernel.byteOfPage, Kernel.bitmapPage] at hpage hbyte hb
  omega

theorem PmmOk.phys_bit {i : Nat} (hi : i < g.pmmUsablePages) :
    g.phys (g.pmmPhysToVirt (g.pmmGetAddressByIndex (Kernel.bitmapPage i)) + Kernel.byteOfPage i) =
      g.bitAddr i := by
  have hlt := hg.address_lt (lt_of_lt_of_le (hg.bitmapPage_lt hi) hg.bitmap_le)
  have := byteOfPage_lt i
  have hv : g.pmmPhysToVirt (g.pmmGetAddressByIndex (Kernel.bitmapPage i)) =
      g.virt (g.pmmGetAddressByIndex (Kernel.bitmapPage i)) := by
    simp only [pmmPhysToVirt, virt, hg.offset]
  rw [hv, phys_virt_add hg.hhdm_lt (by omega), bitAddr]

end Config

end Globals

namespace Kernel

/-- The usable frames whose bit is clear. -/
def Free (k : Kernel) : Set Nat :=
  {a | ∃ i < k.pmmUsablePages, k.pmmGetAddressByIndex i = a ∧
    k.pmmIsUsablePageAllocatedByIndex i = false}

/-- The bitmap's own pages are marked allocated. -/
def BitmapHeld (k : Kernel) : Prop :=
  ∀ i < k.pmmBitmapPages, k.pmmIsUsablePageAllocatedByIndex i = true

section Bits

variable {k : Kernel} (hk : k.PmmOk)

include hk

theorem is_eq {i : Nat} (hi : i < k.pmmUsablePages) :
    k.pmmIsUsablePageAllocatedByIndex i = (k.mem (k.bitAddr i)).getLsbD (bitOfByte i) := by
  have hlt := hk.address_lt (lt_of_lt_of_le (hk.bitmapPage_lt hi) hk.bitmap_le)
  have hne : ¬ k.pmmGetAddressByIndex (bitmapPage i) = uint64Max := by
    simp only [uint64Max]; omega
  simp only [pmmIsUsablePageAllocatedByIndex, hne, if_false, ld8, hk.phys_bit hi]
  exact Bits.test_bit _ (Globals.bitOfByte_lt i)

omit hk in
@[simp] theorem set_toGlobals (k : Kernel) (i : Nat) (b : Bool) :
    (k.pmmSetUsablePageAllocatedByIndex i b).toGlobals = k.toGlobals := by
  simp only [pmmSetUsablePageAllocatedByIndex]
  split
  · rfl
  · simp only [st8]

theorem set_spec {i : Nat} (hi : i < k.pmmUsablePages) (b : Bool) :
    (k.pmmSetUsablePageAllocatedByIndex i b).mem =
      Function.update k.mem (k.bitAddr i) (if b then k.mem (k.bitAddr i) ||| 1#8 <<< bitOfByte i
        else k.mem (k.bitAddr i) &&& ~~~ (1#8 <<< bitOfByte i)) ∧
    (k.pmmSetUsablePageAllocatedByIndex i b).trace = .store (k.bitAddr i) 1 :: k.trace := by
  have hlt := hk.address_lt (lt_of_lt_of_le (hk.bitmapPage_lt hi) hk.bitmap_le)
  have hne : ¬ k.pmmGetAddressByIndex (bitmapPage i) = uint64Max := by
    simp only [uint64Max]; omega
  simp only [pmmSetUsablePageAllocatedByIndex, hne, if_false, ld8, st8, hk.phys_bit hi, and_self]

/-- Past the usable pages the setter finds no bitmap page and does nothing. -/
theorem set_of_le {i : Nat} (hu : k.pmmUsablePages ≤ bitmapPage i) (b : Bool) :
    k.pmmSetUsablePageAllocatedByIndex i b = k := by
  simp [pmmSetUsablePageAllocatedByIndex, hk.address_none hu]

theorem is_set {i j : Nat} (hi : i < k.pmmUsablePages) (hj : j < k.pmmUsablePages) (b : Bool) :
    (k.pmmSetUsablePageAllocatedByIndex i b).pmmIsUsablePageAllocatedByIndex j =
      if j = i then b else k.pmmIsUsablePageAllocatedByIndex j := by
  have hk' : (k.pmmSetUsablePageAllocatedByIndex i b).PmmOk := by rw [set_toGlobals]; exact hk
  have hj' : j < (k.pmmSetUsablePageAllocatedByIndex i b).pmmUsablePages := by
    rw [set_toGlobals]; exact hj
  rw [is_eq hk' hj', is_eq hk hj, set_toGlobals, (set_spec hk hi b).1]
  have hlt := Globals.bitOfByte_lt j
  by_cases ha : k.bitAddr j = k.bitAddr i
  · -- the two bits share a byte, and differ unless the indices agree
    rw [ha, Function.update_self]
    by_cases hji : j = i
    · subst hji
      cases b
      · simp [Bits.clear_bit _ hlt]
      · simp [Bits.set_bit _ hlt]
    · have hne : bitOfByte i ≠ bitOfByte j := fun h => hji (hk.bit_inj hj hi ha h.symm)
      cases b
      · simp [Bits.clear_bit _ hlt, hji, hne]
      · simp [Bits.set_bit _ hlt, hji, hne]
  · rw [Function.update_of_ne ha]
    have hji : j ≠ i := fun h => ha (h ▸ rfl)
    rw [if_neg hji]

theorem set_memKept {i : Nat} (hi : i < k.pmmUsablePages) (b : Bool) :
    MemKept k.Bitmap k (k.pmmSetUsablePageAllocatedByIndex i b) := by
  intro x hx
  rw [(set_spec hk hi b).1, Function.update_of_ne]
  rintro rfl
  exact hx (hk.pageOf_bitAddr_mem hi)

theorem is_congr {k' : Kernel} (hg : k'.toGlobals = k.toGlobals)
    (hm : ∀ x, pageOf x ∈ k.Bitmap → k'.mem x = k.mem x) {i : Nat} (hi : i < k.pmmUsablePages) :
    k'.pmmIsUsablePageAllocatedByIndex i = k.pmmIsUsablePageAllocatedByIndex i := by
  rw [is_eq hk hi, is_eq (k := k') (by rw [hg]; exact hk) (by rw [hg]; exact hi), hg,
    hm _ (hk.pageOf_bitAddr_mem hi)]

theorem free_congr {k' : Kernel} (hg : k'.toGlobals = k.toGlobals)
    (hm : ∀ x, pageOf x ∈ k.Bitmap → k'.mem x = k.mem x) : k'.Free = k.Free := by
  ext a
  simp only [Free, hg, Set.mem_ofPred_eq]
  constructor
  · rintro ⟨i, hi, ha, hb⟩
    exact ⟨i, hi, ha, (is_congr hk hg hm hi).symm.trans hb⟩
  · rintro ⟨i, hi, ha, hb⟩
    exact ⟨i, hi, ha, (is_congr hk hg hm hi).trans hb⟩

theorem bitmapHeld_congr {k' : Kernel} (hg : k'.toGlobals = k.toGlobals)
    (hm : ∀ x, pageOf x ∈ k.Bitmap → k'.mem x = k.mem x) (h : k.BitmapHeld) : k'.BitmapHeld := by
  intro i hi
  rw [hg] at hi
  rw [is_congr hk hg hm (lt_of_lt_of_le hi hk.bitmap_le)]
  exact h i hi

theorem free_aligned {a : Nat} (ha : a ∈ k.Free) : a % 0x1000 = 0 := by
  obtain ⟨i, hi, rfl, _⟩ := ha
  exact (hk.address hi).2.1

theorem free_lt {a : Nat} (ha : a ∈ k.Free) : a + 0x1000 ≤ 2 ^ 52 := by
  obtain ⟨i, hi, rfl, _⟩ := ha
  exact hk.address_lt hi

theorem free_usable {a : Nat} (ha : a ∈ k.Free) : Usable k.memmapEntries a := by
  obtain ⟨i, hi, rfl, _⟩ := ha
  exact (hk.address hi).1

theorem free_not_bitmap (hh : k.BitmapHeld) {a : Nat} (ha : a ∈ k.Free) : a ∉ k.Bitmap := by
  obtain ⟨i, hi, rfl, hb⟩ := ha
  rintro ⟨j, hj, hji⟩
  have := hk.address_inj (lt_of_lt_of_le hj hk.bitmap_le) hi hji
  subst this
  rw [hh j hj] at hb
  cases hb

theorem free_set_true {i : Nat} (hi : i < k.pmmUsablePages) :
    (k.pmmSetUsablePageAllocatedByIndex i true).Free = k.Free \ {k.pmmGetAddressByIndex i} := by
  ext a
  simp only [Free, set_toGlobals, Set.mem_ofPred_eq, Set.mem_sdiff, Set.mem_singleton_iff]
  constructor
  · rintro ⟨j, hj, rfl, hb⟩
    rw [is_set hk hi hj] at hb
    by_cases hji : j = i
    · simp [hji] at hb
    · rw [if_neg hji] at hb
      exact ⟨⟨j, hj, rfl, hb⟩, fun h => hji (hk.address_inj hj hi h)⟩
  · rintro ⟨⟨j, hj, rfl, hb⟩, hne⟩
    have hji : j ≠ i := fun h => hne (h ▸ rfl)
    exact ⟨j, hj, rfl, by rw [is_set hk hi hj, if_neg hji, hb]⟩

theorem free_set_false {i : Nat} (hi : i < k.pmmUsablePages) :
    (k.pmmSetUsablePageAllocatedByIndex i false).Free =
      insert (k.pmmGetAddressByIndex i) k.Free := by
  ext a
  simp only [Free, set_toGlobals, Set.mem_ofPred_eq, Set.mem_insert_iff]
  constructor
  · rintro ⟨j, hj, rfl, hb⟩
    rw [is_set hk hi hj] at hb
    by_cases hji : j = i
    · exact .inl (hji ▸ rfl)
    · rw [if_neg hji] at hb
      exact .inr ⟨j, hj, rfl, hb⟩
  · rintro (rfl | ⟨j, hj, rfl, hb⟩)
    · exact ⟨i, hi, rfl, by rw [is_set hk hi hi, if_pos rfl]⟩
    · refine ⟨j, hj, rfl, ?_⟩
      rw [is_set hk hi hj]
      split
      · rfl
      · exact hb

theorem bitmapHeld_set {i : Nat} (hi : i < k.pmmUsablePages) {b : Bool}
    (hb : b = true ∨ k.pmmBitmapPages ≤ i) (h : k.BitmapHeld) :
    (k.pmmSetUsablePageAllocatedByIndex i b).BitmapHeld := by
  intro j hj
  rw [set_toGlobals] at hj
  rw [is_set hk hi (lt_of_lt_of_le hj hk.bitmap_le)]
  split
  · rcases hb with hb | hb
    · exact hb
    · omega
  · exact h j hj

end Bits

end Kernel

end BambooOS
