import BambooOS.Pmm.Bitmap
import Mathlib.Data.Finset.Card
import Mathlib.Order.Interval.Set.Basic

/-!
# Pmm.Alloc

What one allocation does, and the state `pmm_init` leaves.

* `pmmAllocPhys_cases`: either nothing is free and the result is `0`, or the first free page is
  marked and its address returned.
* `Taken`: the effect of `pmm_allocz` when a frame was supplied, the only fact about the
  allocator that the page-table proofs use.
* `pmmInit_spec`: after `pmm_init` exactly the bitmap's own pages are allocated.
-/

namespace BambooOS

open ByteMem

namespace Kernel

/-- No allocation has failed so far. -/
def Supplied (k : Kernel) : Prop := Event.alloc 0 ∉ k.trace

theorem Supplied.of_suffix {k k' : Kernel} (h : k'.Supplied) (hs : k.trace <:+ k'.trace) :
    k.Supplied := fun hm => h (hs.subset hm)

/-- The next `n` allocations cannot fail. -/
structure Stocked (k : Kernel) (n : Nat) : Prop where
  supplied : k.Supplied
  zero : 0 ∉ k.Free
  stock : ∃ s : Finset Nat, n ≤ s.card ∧ ↑s ⊆ k.Free

section Alloc

variable {k : Kernel}

theorem Stocked.take {k' : Kernel} {n f : Nat} (h : k.Stocked (n + 1)) (hs : k'.Supplied)
    (hfree : k'.Free = k.Free \ {f}) : k'.Stocked n := by
  obtain ⟨_, h0, s, hcard, hsub⟩ := h
  refine ⟨hs, by rw [hfree]; exact fun h => h0 h.1, s.erase f, ?_, ?_⟩
  · have := Finset.pred_card_le_card_erase (s := s) (a := f)
    omega
  · rw [hfree, Finset.coe_erase]
    exact Set.sdiff_subset_sdiff_left hsub

theorem Stocked.mono {m n : Nat} (hmn : m ≤ n) (h : k.Stocked n) : k.Stocked m := by
  obtain ⟨hs, h0, s, hcard, hsub⟩ := h
  exact ⟨hs, h0, s, hmn.trans hcard, hsub⟩

theorem Stocked.of_free {k' : Kernel} {n : Nat} (h : k.Stocked n) (hs : k'.Supplied)
    (hfree : k'.Free = k.Free) : k'.Stocked n :=
  ⟨hs, hfree ▸ h.zero, hfree ▸ h.stock⟩

theorem findFree_some {n i j : Nat} (h : k.findFree n i = some j) :
    i ≤ j ∧ j < i + n ∧ k.pmmIsUsablePageAllocatedByIndex j = false ∧
      ∀ m, i ≤ m → m < j → k.pmmIsUsablePageAllocatedByIndex m = true := by
  induction n generalizing i with
  | zero => simp [findFree] at h
  | succ n ih =>
    simp only [findFree] at h
    split at h
    · rename_i hb
      obtain ⟨h₁, h₂, h₃, h₄⟩ := ih h
      refine ⟨by omega, by omega, h₃, fun m hm hlt => ?_⟩
      by_cases hmi : m = i
      · exact hmi ▸ hb
      · exact h₄ m (by omega) hlt
    · rename_i hb
      cases h
      exact ⟨Nat.le_refl _, by omega, by simpa using hb, fun m h₁ h₂ => by omega⟩

theorem findFree_none {n i : Nat} (h : k.findFree n i = none) :
    ∀ j, i ≤ j → j < i + n → k.pmmIsUsablePageAllocatedByIndex j = true := by
  induction n generalizing i with
  | zero => intro j h₁ h₂; omega
  | succ n ih =>
    intro j h₁ h₂
    simp only [findFree] at h
    split at h
    · rename_i hb
      by_cases hj : j = i
      · exact hj ▸ hb
      · exact ih h j (by omega) (by omega)
    · cases h

theorem findFree_first {n i j : Nat} (hi : i ≤ j) (hj : j < i + n)
    (hb : k.pmmIsUsablePageAllocatedByIndex j = false)
    (hbelow : ∀ m, i ≤ m → m < j → k.pmmIsUsablePageAllocatedByIndex m = true) :
    k.findFree n i = some j := by
  induction n generalizing i with
  | zero => omega
  | succ n ih =>
    rw [findFree]
    by_cases hij : i = j
    · rw [hij, hb, if_neg (by simp)]
    · rw [hbelow i (Nat.le_refl i) (by omega), if_pos rfl]
      exact ih (by omega) (by omega) fun m hm => hbelow m (by omega)

/-- What `pmm_alloc_phys` can do. -/
theorem pmmAllocPhys_cases (hk : k.PmmOk) :
    (k.Free = ∅ ∧ k.pmmAllocPhys = (0, k.log (.alloc 0))) ∨
    ∃ i < k.pmmUsablePages, k.pmmIsUsablePageAllocatedByIndex i = false ∧
      (∀ j < i, k.pmmIsUsablePageAllocatedByIndex j = true) ∧
      k.pmmAllocPhys = (k.pmmGetAddressByIndex i,
        (k.pmmSetUsablePageAllocatedByIndex i true).log (.alloc (k.pmmGetAddressByIndex i))) := by
  cases h : k.findFree k.pmmUsablePages 0 with
  | none =>
    refine .inl ⟨?_, by simp only [pmmAllocPhys, h]⟩
    rw [Set.eq_empty_iff_forall_notMem]
    rintro a ⟨i, hi, _, hb⟩
    rw [findFree_none h i (Nat.zero_le i) (by omega)] at hb
    cases hb
  | some i =>
    obtain ⟨_, hi, hb, hbelow⟩ := findFree_some h
    have hi : i < k.pmmUsablePages := by omega
    have hlt := hk.address_lt hi
    have hne : ¬ k.pmmGetAddressByIndex i = uint64Max := by simp only [uint64Max]; omega
    refine .inr ⟨i, hi, hb, fun j => hbelow j (Nat.zero_le j), ?_⟩
    simp only [pmmAllocPhys, h, set_toGlobals, hne, if_false]

theorem pmmAllocPhys_first (hk : k.PmmOk) {i : Nat} (hi : i < k.pmmUsablePages)
    (hb : k.pmmIsUsablePageAllocatedByIndex i = false)
    (hbelow : ∀ m < i, k.pmmIsUsablePageAllocatedByIndex m = true) :
    k.pmmAllocPhys = (k.pmmGetAddressByIndex i,
      (k.pmmSetUsablePageAllocatedByIndex i true).log (.alloc (k.pmmGetAddressByIndex i))) := by
  have hlt := hk.address_lt hi
  have hne : ¬ k.pmmGetAddressByIndex i = uint64Max := by simp only [uint64Max]; omega
  have hfind : k.findFree k.pmmUsablePages 0 = some i :=
    findFree_first (Nat.zero_le i) (by omega) hb fun m _ => hbelow m
  simp only [pmmAllocPhys, hfind, set_toGlobals, hne, if_false]

theorem pmmAllocPhys_toGlobals (k : Kernel) : k.pmmAllocPhys.2.toGlobals = k.toGlobals := by
  simp only [pmmAllocPhys]
  split
  · rfl
  · split <;> simp

/-- With a free frame `pmm_alloc` hands one out, and writes in the bitmap's pages only. -/
theorem pmmAlloc_spec (hk : k.PmmOk) (hh : k.BitmapHeld) (hne : k.Free.Nonempty) :
    ∃ f ∈ k.Free, k.pmmAlloc.1 = k.virt f ∧ k.pmmAlloc.2.toGlobals = k.toGlobals ∧
      k.pmmAlloc.2.Free = k.Free \ {f} ∧ k.pmmAlloc.2.BitmapHeld ∧ MemKept k.Bitmap k k.pmmAlloc.2 := by
  rcases pmmAllocPhys_cases hk with ⟨he, _⟩ | ⟨i, hi, hb, _, he⟩
  · exact absurd he hne.ne_empty
  · have hk' : (k.pmmSetUsablePageAllocatedByIndex i true).PmmOk := by rw [set_toGlobals]; exact hk
    refine ⟨k.pmmGetAddressByIndex i, ⟨i, hi, rfl, hb⟩, ?_, ?_, ?_, ?_, ?_⟩
    · simp only [pmmAlloc, he, log_toGlobals, set_toGlobals, Globals.pmmPhysToVirt, Globals.virt,
        hk.offset]
    · simp only [pmmAlloc, he, log_toGlobals, set_toGlobals]
    · simp only [pmmAlloc, he]
      exact (free_congr hk' rfl fun _ _ => rfl).trans (free_set_true hk hi)
    · simp only [pmmAlloc, he]
      exact bitmapHeld_congr hk' rfl (fun _ _ => rfl) (bitmapHeld_set hk hi (.inl rfl) hh)
    · simp only [pmmAlloc, he]
      exact set_memKept hk hi true

end Alloc

/-- `k'` is `k` after `pmm_allocz` supplied the frame `f`. -/
structure Taken (k : Kernel) (f : Nat) (k' : Kernel) : Prop where
  globals : k'.toGlobals = k.toGlobals
  mem_free : f ∈ k.Free
  first : ∀ a ∈ k.Free, k.pmmGetIndexByAddress f ≤ k.pmmGetIndexByAddress a
  free : k'.Free = k.Free \ {f}
  held : k.BitmapHeld → k'.BitmapHeld
  zero : ∀ x, f ≤ x → x < f + 0x1000 → k'.mem x = 0#8
  kept : MemKept (insert f k.Bitmap) k k'
  trace : ∃ i < k.pmmUsablePages,
    k'.trace = .store f 0x1000 :: .alloc f :: .store (k.bitAddr i) 1 :: k.trace

section Allocz

variable {k : Kernel}

theorem Stocked.supplied_alloc {n : Nat} (hk : k.PmmOk) (h : k.Stocked (n + 1)) :
    k.pmmAllocz.2.Supplied := by
  obtain ⟨hs, h0, s, hcard, hsub⟩ := h
  have hfree : k.Free.Nonempty := by
    obtain ⟨a, ha⟩ := Finset.card_pos.mp (show 0 < s.card by omega)
    exact ⟨a, hsub ha⟩
  rcases pmmAllocPhys_cases hk with ⟨he, _⟩ | ⟨i, hi, hb, _, he⟩
  · exact absurd he hfree.ne_empty
  · have hne : k.pmmGetAddressByIndex i ≠ 0 := fun h => h0 ⟨i, hi, h, hb⟩
    simp only [Supplied, pmmAllocz, pmmAlloc, he, memset, log_trace, (set_spec hk hi true).2,
      List.mem_cons, reduceCtorEq, Event.alloc.injEq, false_or]
    rintro (h | h)
    · exact hne h.symm
    · exact hs h

theorem pmmAllocz_eq (k : Kernel) : k.pmmAllocz =
    (k.pmmAllocPhys.2.pmmPhysToVirt k.pmmAllocPhys.1,
      k.pmmAllocPhys.2.memset (k.pmmAllocPhys.2.pmmPhysToVirt k.pmmAllocPhys.1) 0#8 0x1000) := rfl

theorem pmmAllocz_toGlobals (k : Kernel) : k.pmmAllocz.2.toGlobals = k.toGlobals := by
  rw [pmmAllocz_eq, memset_toGlobals, pmmAllocPhys_toGlobals]

/-- The byte written to mark the page `i` and the frame cleared afterwards stay apart. -/
theorem pmmAllocz_spec (hk : k.PmmOk) (hh : k.BitmapHeld) (hs : k.pmmAllocz.2.Supplied) :
    ∃ f, k.pmmAllocz.1 = k.virt f ∧ k.Taken f k.pmmAllocz.2 := by
  rcases pmmAllocPhys_cases hk with ⟨_, he⟩ | ⟨i, hi, hb, hbelow, he⟩
  · exfalso
    apply hs
    rw [pmmAllocz_eq, he]
    simp [memset]
  · let f := k.pmmGetAddressByIndex i
    let k₁ := (k.pmmSetUsablePageAllocatedByIndex i true).log (.alloc f)
    have hg : k₁.toGlobals = k.toGlobals := by simp [k₁]
    have hfree : f ∈ k.Free := ⟨i, hi, rfl, hb⟩
    have hal := free_aligned hk hfree
    have hlt := free_lt hk hfree
    have hvirt : k₁.pmmPhysToVirt f = k.virt f := by
      rw [hg]; simp only [Globals.pmmPhysToVirt, Globals.virt, hk.offset]
    have hphys : k₁.phys (k.virt f) = f := by
      rw [hg]; exact Globals.phys_virt hk.hhdm_lt (by omega)
    have hz : k.pmmAllocz = (k.virt f, k₁.memset (k.virt f) 0#8 0x1000) := by
      rw [pmmAllocz_eq, he]
      exact Prod.ext hvirt (congrArg (k₁.memset · 0#8 0x1000) hvirt)
    have hmem : (k₁.memset (k.virt f) 0#8 0x1000).mem = fill k₁.mem f 0x1000 0#8 := by
      rw [memset_mem, hphys]
    have hnb : f ∉ k.Bitmap := free_not_bitmap hk hh hfree
    -- clearing the frame leaves the bitmap pages as the setter left them
    have hbits : ∀ x, pageOf x ∈ k₁.Bitmap →
        (k₁.memset (k.virt f) 0#8 0x1000).mem x = k₁.mem x := by
      intro x hx
      rw [hg] at hx
      rw [hmem]
      simp only [fill]
      rw [if_neg]
      rintro ⟨h₁, h₂⟩
      exact hnb (pageOf_of_page hal h₁ h₂ ▸ hx)
    have hk₁ : k₁.PmmOk := by rw [hg]; exact hk
    have hg₂ : (k₁.memset (k.virt f) 0#8 0x1000).toGlobals = k₁.toGlobals := memset_toGlobals _ _ _ _
    have hfree₁ : k₁.Free = k.Free \ {f} := by
      have hset : k₁.Free = (k.pmmSetUsablePageAllocatedByIndex i true).Free :=
        free_congr (by simp; exact hk) rfl fun _ _ => rfl
      rw [hset]
      exact free_set_true hk hi
    refine ⟨f, by rw [hz], ?_⟩
    rw [hz]
    exact {
      globals := hg₂.trans hg
      mem_free := hfree
      first := by
        rintro a ⟨j, hj, rfl, hjb⟩
        rw [(hk.address hi).2.2, (hk.address hj).2.2]
        by_contra hlt
        rw [hbelow j (by omega)] at hjb
        cases hjb
      free := (free_congr hk₁ hg₂ hbits).trans hfree₁
      held := fun _ => bitmapHeld_congr hk₁ hg₂ hbits (bitmapHeld_congr
        (k := k.pmmSetUsablePageAllocatedByIndex i true) (by simp; exact hk) rfl (fun _ _ => rfl)
        (bitmapHeld_set hk hi (.inl rfl) hh))
      zero := fun x h₁ h₂ => by rw [hmem]; simp only [fill]; rw [if_pos ⟨h₁, h₂⟩]
      kept := fun x hx => by
        rw [hmem]
        simp only [fill]
        rw [if_neg]
        · exact set_memKept hk hi true x fun hb => hx (.inr hb)
        · rintro ⟨h₁, h₂⟩
          exact hx (.inl (pageOf_of_page hal h₁ h₂))
      trace := ⟨i, hi, by
        simp only [memset, hphys, k₁, log_trace, (set_spec hk hi true).2]⟩ }

end Allocz

/-! ## Giving a frame back -/

section Release

variable {k : Kernel} (hk : k.PmmOk) (hh : k.BitmapHeld) (a : Nat)

include hk

/-- The guard of `pmm_free` tells the bitmap's own pages from all other addresses. -/
theorem release_guard : k.pmmGetIndexByAddress a ≥ k.pmmBitmapPages ↔ pageOf a ∉ k.Bitmap := by
  by_cases hu : Usable k.memmapEntries a
  · obtain ⟨hi, ha⟩ := hk.index hu
    constructor
    · rintro hge ⟨j, hj, hja⟩
      have := hk.address_inj (lt_of_lt_of_le hj hk.bitmap_le) hi (hja.trans ha.symm)
      omega
    · intro hnot
      by_contra hlt
      exact hnot ⟨_, by omega, ha⟩
  · have hle := hk.usable_le
    have hb := hk.bitmap_le
    rw [hk.index_none hu]
    refine ⟨fun _ ⟨j, hj, hja⟩ => ?_, fun _ => by simp only [uint64Max]; omega⟩
    obtain ⟨hju, hal, _⟩ := hk.address (lt_of_lt_of_le hj hb)
    rw [hja] at hju hal
    exact hu (hju.of_page hk.map hal (by simp only [pageOf]; omega) (by simp only [pageOf]; omega))

include hh

/-- Clearing the bit of an address past the guard frees its page if it is a usable one. -/
theorem release_spec (hnot : pageOf a ∉ k.Bitmap) :
    let k' := k.pmmSetUsablePageAllocatedByIndex (k.pmmGetIndexByAddress a) false
    k'.toGlobals = k.toGlobals ∧ k'.BitmapHeld ∧ MemKept k.Bitmap k k' ∧
      (k'.trace = k.trace ∨ ∃ x, pageOf x ∈ k.Bitmap ∧ k'.trace = .store x 1 :: k.trace) ∧
      ∀ f, f ∈ k'.Free ↔ f ∈ k.Free ∨ (f = pageOf a ∧ Usable k.memmapEntries a) := by
  intro k'
  have hge := (release_guard hk a).mpr hnot
  by_cases hu : Usable k.memmapEntries a
  · obtain ⟨hi, ha⟩ := hk.index hu
    refine ⟨set_toGlobals _ _ _, bitmapHeld_set hk hi (.inr hge) hh, set_memKept hk hi false,
      .inr ⟨_, hk.pageOf_bitAddr_mem hi, (set_spec hk hi false).2⟩, fun f => ?_⟩
    simp only [k', free_set_false hk hi, ha, Set.mem_insert_iff, hu, and_true]
    exact or_comm
  · have hle := hk.usable_le
    have hsame : k' = k := by
      simp only [k']
      rw [hk.index_none hu]
      apply set_of_le hk
      simp only [bitmapPage, uint64Max]
      omega
    rw [hsame]
    exact ⟨rfl, hh, MemKept.refl _ _, .inl rfl, fun f => by simp [hu]⟩

end Release

end Kernel

/-! ## Initialisation -/

section Init

variable {k : Kernel} {bd : BootData}

/-- The state `pmm_init` is called in: its counters still have their static value `0`, and the
bootloader's window is the one it reports. -/
structure BootOk (k : Kernel) (bd : BootData) : Prop where
  usable : k.pmmUsablePages = 0
  allocated : k.pmmNumAllocatedPages = 0
  offset : bd.higherHalf.offset = k.hhdm
  hhdm_lt : k.hhdm < 2 ^ 64

/-- The globals after `pmm_init`. -/
def initGlobals (k : Kernel) (bd : BootData) : Globals :=
  { k.toGlobals with
    higherHalfOffset := bd.higherHalf.offset
    memmapEntries := bd.memmap
    pmmUsablePages := usablePages bd.memmap
    pmmBitmapPages := usablePages bd.memmap / (0x1000 * 8) + 1 }

theorem initGlobals_ok (hb : BootOk k bd) (hm : MemmapOk bd.memmap)
    (hpos : 0 < usablePages bd.memmap) : (initGlobals k bd).PmmOk where
  map := hm
  pos := hpos
  usable := rfl
  bitmap := rfl
  offset := hb.offset
  hhdm_lt := hb.hhdm_lt

theorem clear_loop (hk : k.PmmOk) :
    let k' := Loop.upto (fun i k =>
      k.memset (k.pmmPhysToVirt (k.pmmGetAddressByIndex i)) 0#8 0x1000) k.pmmBitmapPages k
    k'.toGlobals = k.toGlobals ∧ MemKept k.Bitmap k k' ∧
      ∀ x, pageOf x ∈ k.Bitmap → k'.mem x = 0#8 := by
  intro k'
  have hinv := Loop.upto_inv
    (P := fun n (t : Kernel) => t.toGlobals = k.toGlobals ∧ MemKept k.Bitmap k t ∧
      ∀ x i, i < n → i < k.pmmBitmapPages → pageOf x = k.pmmGetAddressByIndex i → t.mem x = 0#8)
    (f := fun i (t : Kernel) =>
      t.memset (t.pmmPhysToVirt (t.pmmGetAddressByIndex i)) 0#8 0x1000)
    (n := k.pmmBitmapPages) (s := k)
    ⟨rfl, MemKept.refl _ _, fun x i hi => absurd hi (by omega)⟩ ?_
  · refine ⟨hinv.1, hinv.2.1, ?_⟩
    rintro x ⟨i, hi, hx⟩
    exact hinv.2.2 x i hi hi hx.symm
  · rintro n t hn ⟨hg, hkept, hz⟩
    have hnlt := hk.address_lt (lt_of_lt_of_le hn hk.bitmap_le)
    have hphys : t.phys (t.pmmPhysToVirt (t.pmmGetAddressByIndex n)) =
        k.pmmGetAddressByIndex n := by
      rw [hg]
      have : k.pmmPhysToVirt (k.pmmGetAddressByIndex n) = k.virt (k.pmmGetAddressByIndex n) := by
        simp only [Globals.pmmPhysToVirt, Globals.virt, hk.offset]
      rw [this]
      exact Globals.phys_virt hk.hhdm_lt (by omega)
    refine ⟨by simpa using hg, ?_, ?_⟩
    · intro x hx
      rw [Kernel.memset_mem, hphys]
      simp only [fill]
      rw [if_neg]
      · exact hkept x hx
      · rintro ⟨h₁, h₂⟩
        have hal := (hk.address (lt_of_lt_of_le hn hk.bitmap_le)).2.1
        exact hx ⟨n, hn, (pageOf_of_page hal h₁ h₂).symm⟩
    intro x i hi hib hx
    rw [Kernel.memset_mem, hphys]
    simp only [fill]
    split
    · rfl
    · rename_i hout
      have hal := (hk.address (lt_of_lt_of_le hib hk.bitmap_le)).2.1
      have hin : k.pmmGetAddressByIndex i ≤ x ∧ x < k.pmmGetAddressByIndex i + 0x1000 := by
        simp only [pageOf] at hx; omega
      have hne : i ≠ n := by rintro rfl; exact hout hin
      exact hz x i (by omega) hib hx

theorem mark_loop (hk : k.PmmOk) (hz : ∀ x, pageOf x ∈ k.Bitmap → k.mem x = 0#8) {n : Nat}
    (hn : n ≤ k.pmmUsablePages) :
    let k' := Loop.upto (fun i (t : Kernel) => t.pmmSetUsablePageAllocatedByIndex i true) n k
    k'.toGlobals = k.toGlobals ∧ MemKept k.Bitmap k k' ∧ ∀ j < k.pmmUsablePages,
      k'.pmmIsUsablePageAllocatedByIndex j = decide (j < n) := by
  intro k'
  apply Loop.upto_inv
    (P := fun n (t : Kernel) => t.toGlobals = k.toGlobals ∧ MemKept k.Bitmap k t ∧
      ∀ j < k.pmmUsablePages, t.pmmIsUsablePageAllocatedByIndex j = decide (j < n))
  · refine ⟨rfl, MemKept.refl _ _, fun j hj => ?_⟩
    rw [Kernel.is_eq hk hj, hz _ (hk.pageOf_bitAddr_mem hj)]
    simp
  · rintro i t hi ⟨hg, hkept, hb⟩
    have hkt : t.PmmOk := by rw [hg]; exact hk
    have hit : i < t.pmmUsablePages := by rw [hg]; omega
    have hset := Kernel.set_memKept hkt hit true
    rw [hg] at hset
    refine ⟨by simpa using hg, hkept.trans hset, fun j hj => ?_⟩
    rw [Kernel.is_set hkt hit (by rw [hg]; exact hj), hb j hj]
    by_cases hji : j = i
    · simp [hji]
    · rw [if_neg hji]
      have : j < i + 1 ↔ j < i := by omega
      simp [this]

theorem pmmInit_toGlobals (h0 : k.pmmUsablePages = 0) (hm : MemmapOk bd.memmap) :
    (k.pmmInit bd).toGlobals = initGlobals k bd := by
  have hle := usablePages_le hm
  have hcount : Kernel.countUsablePages bd.memmap k.pmmUsablePages = usablePages bd.memmap := by
    rw [h0, countUsablePages_eq (by omega), Nat.zero_add]
  rw [Kernel.pmmInit, Loop.upto_keeps Kernel.toGlobals fun i t => Kernel.set_toGlobals t i true,
    Loop.upto_keeps Kernel.toGlobals fun i t => Kernel.memset_toGlobals t _ _ _]
  simp only [hcount, initGlobals]

/-- After `pmm_init` exactly the bitmap's own pages are allocated; no other page was written. -/
theorem pmmInit_spec (hb : BootOk k bd) (hm : MemmapOk bd.memmap)
    (hpos : 0 < usablePages bd.memmap) :
    (k.pmmInit bd).toGlobals = initGlobals k bd ∧ (k.pmmInit bd).BitmapHeld ∧
      MemKept (k.pmmInit bd).Bitmap k (k.pmmInit bd) ∧
      ∀ a, a ∈ (k.pmmInit bd).Free ↔
        a % 0x1000 = 0 ∧ Usable bd.memmap a ∧ a ∉ (k.pmmInit bd).Bitmap := by
  have hok := initGlobals_ok hb hm hpos
  have hle := usablePages_le hm
  let k₁ : Kernel := { k with toGlobals := initGlobals k bd }
  have hcount : Kernel.countUsablePages bd.memmap k.pmmUsablePages = usablePages bd.memmap := by
    rw [hb.usable, countUsablePages_eq (by omega), Nat.zero_add]
  let k₂ := Loop.upto (fun i (t : Kernel) =>
    t.memset (t.pmmPhysToVirt (t.pmmGetAddressByIndex i)) 0#8 0x1000) k₁.pmmBitmapPages k₁
  have hinit : k.pmmInit bd = Loop.upto (fun i (t : Kernel) =>
      t.pmmSetUsablePageAllocatedByIndex i true) k₁.pmmBitmapPages k₂ := by
    simp only [Kernel.pmmInit, hcount, k₂, k₁, initGlobals]
  obtain ⟨hg₂, hkept₂, hz₂⟩ := clear_loop (k := k₁) hok
  have hk₂ : k₂.PmmOk := by rw [hg₂]; exact hok
  obtain ⟨hg, hkept, hbits⟩ := mark_loop (k := k₂) hk₂ (by rw [hg₂]; exact hz₂)
    (n := k₁.pmmBitmapPages) (by rw [hg₂]; exact hok.bitmap_le)
  rw [← hinit] at hg hbits hkept
  have hg' := pmmInit_toGlobals hb.usable hm
  rw [hg₂] at hbits hkept
  refine ⟨hg', ?_, ?_, ?_⟩
  · intro i hi
    rw [hg'] at hi
    rw [hbits i (lt_of_lt_of_le hi hok.bitmap_le)]
    exact decide_eq_true hi
  · rw [hg']
    intro x hx
    exact (hkept x hx).trans (hkept₂ x hx)
  · intro a
    simp only [Kernel.Free, Globals.Bitmap, hg', Set.mem_ofPred_eq]
    constructor
    · rintro ⟨i, hi, rfl, hf⟩
      obtain ⟨hu, hal, _⟩ := hok.address hi
      refine ⟨hal, hu, ?_⟩
      rintro ⟨j, hj, hji⟩
      have := hok.address_inj (lt_of_lt_of_le hj hok.bitmap_le) hi hji
      subst this
      rw [hbits j hi] at hf
      exact absurd hj (of_decide_eq_false hf)
    · rintro ⟨hal, hu, hnot⟩
      obtain ⟨hi, ha⟩ := hok.index hu
      rw [pageOf_self hal] at ha
      refine ⟨_, hi, ha, ?_⟩
      rw [hbits _ hi]
      exact decide_eq_false fun hlt => hnot ⟨_, hlt, ha⟩

theorem pmmInit_supplied (bd : BootData) (hs : k.Supplied) : (k.pmmInit bd).Supplied := by
  have hset : ∀ (t : Kernel) i b, t.Supplied → (t.pmmSetUsablePageAllocatedByIndex i b).Supplied := by
    intro t i b ht
    simp only [Kernel.pmmSetUsablePageAllocatedByIndex]
    split
    · exact ht
    · simpa [Kernel.Supplied, Kernel.st8] using ht
  rw [Kernel.pmmInit]
  exact Loop.upto_inv (P := fun _ (t : Kernel) => t.Supplied)
    (Loop.upto_inv (P := fun _ (t : Kernel) => t.Supplied) hs
      fun _ t _ ht => by simpa [Kernel.Supplied, Kernel.memset] using ht)
    fun _ t _ ht => hset t _ _ ht

theorem pmmInit_stocked (hb : BootOk k bd) (hm : MemmapOk bd.memmap)
    (hpos : 0 < usablePages bd.memmap) (h0 : ¬ Usable bd.memmap 0) (hs : k.Supplied) :
    (k.pmmInit bd).Stocked (usablePages bd.memmap - (usablePages bd.memmap / (0x1000 * 8) + 1)) := by
  obtain ⟨hg, _, _, hfree⟩ := pmmInit_spec hb hm hpos
  have hok := initGlobals_ok hb hm hpos
  have hlt : ∀ i ∈ Finset.Ico (initGlobals k bd).pmmBitmapPages (usablePages bd.memmap),
      i < (initGlobals k bd).pmmUsablePages := fun i hi => (Finset.mem_Ico.mp hi).2
  refine ⟨pmmInit_supplied bd hs, fun h => h0 ((hfree 0).mp h).2.1,
    (Finset.Ico (initGlobals k bd).pmmBitmapPages (usablePages bd.memmap)).image
      (initGlobals k bd).pmmGetAddressByIndex, ?_, ?_⟩
  · rw [Finset.card_image_of_injOn fun i hi j hj h => hok.address_inj (hlt i hi) (hlt j hj) h,
      Nat.card_Ico]
    exact Nat.le_refl _
  · intro a ha
    rw [Finset.coe_image] at ha
    obtain ⟨i, hi, rfl⟩ := ha
    obtain ⟨hu, hal, _⟩ := hok.address (hlt i hi)
    refine (hfree _).mpr ⟨hal, hu, ?_⟩
    rw [hg]
    rintro ⟨j, hj, hji⟩
    have := hok.address_inj (lt_of_lt_of_le hj hok.bitmap_le) (hlt i hi) hji
    have := (Finset.mem_Ico.mp hi).1
    omega

end Init

end BambooOS
