import BambooOS.Vmm.Free
import BambooOS.Vmm.Stock
import Mathlib.Data.Set.Card

/-!
# Vmm.Calls

Runs of `pmm_alloc`, `pmm_free`, `vmm_map_page` and `vmm_unmap_page` after `vmm_init`, beside a
ghost set of the frames handed out.

* `callStep`: one call. A call that creates tables has the frames for them.
* `Paging`: the current tree, the bitmap and the held frames stay apart, and the counter is right.
* `paging_step`, `paging_run`: every call keeps it, and so does anybody's write elsewhere.
-/

namespace BambooOS

open ByteMem Radix Kernel

/-- The kernel between two calls: the ghost trace starts anew. -/
def Kernel.restart (k : Kernel) : Kernel := { k with trace := [] }

/-- The frames of the current tables. -/
def Kernel.Tables (k : Kernel) : Set Nat :=
  {f | ∃ T, Stored k (k.phys k.pml4) T ∧ f ∈ T.frames fmt.base}

inductive CallOp where
  | pmmAlloc
  | pmmFree (page : Nat)
  | vmmMapPage (physicalAddress virtualAddress : Nat)
  | vmmUnmapPage (virtualAddress : Nat)
  /-- Somebody changes memory. -/
  | write (mem : Mem)

/-- One call. There are frames for the tables it creates, and a usable page that is given back is one
the allocator handed out, a free one or one of the bitmap's. -/
inductive callStep : PmmState → CallOp → PmmState → Prop where
  | pmmAlloc {s : PmmState} : callStep s .pmmAlloc ⟨s.kernel.pmmAllocPhys.2.restart,
      if s.kernel.pmmAllocPhys.1 = 0 then s.held else insert s.kernel.pmmAllocPhys.1 s.held⟩
  | pmmFree {s : PmmState} {page f : Nat} (hpage : page % 0x1000 = 0)
      (hf : s.kernel.vmmVirtToPhys page = f)
      (hown : Usable s.kernel.memmapEntries f → f ∈ s.kernel.Bitmap ∪ (s.held ∪ s.kernel.Free))
      (hroom : f ≠ uint64Max → f ∉ s.kernel.Bitmap →
        ((s.kernel.released f).missingTables (s.kernel.virt f) : ℕ∞) ≤
          (s.kernel.released f).Free.encard) :
      callStep s (.pmmFree page) ⟨(s.kernel.pmmFree page).restart, s.held \ {f}⟩
  | vmmMapPage {s : PmmState} {pa va : Nat}
      (hroom : (s.kernel.missingTables va : ℕ∞) ≤ s.kernel.Free.encard) :
      callStep s (.vmmMapPage pa va) ⟨(s.kernel.vmmMapPage pa va).restart, s.held⟩
  | vmmUnmapPage {s : PmmState} {va : Nat}
      (hroom : (s.kernel.missingTables va : ℕ∞) ≤ s.kernel.Free.encard) :
      callStep s (.vmmUnmapPage va) ⟨(s.kernel.vmmUnmapPage va).restart, s.held⟩
  | write {s : PmmState} {m : Mem}
      (h : ∀ x, pageOf x ∈ s.kernel.Bitmap ∪ s.kernel.Tables → m x = s.kernel.mem x) :
      callStep s (.write m) ⟨{ s.kernel with mem := m }, s.held⟩

/-- The state `s` between two calls, with the current tree `C` at `root`. -/
structure Paging (root : Nat) (C : PageTree) (s : PmmState) : Prop where
  owned : Owned s.kernel root C
  pml4 : s.kernel.pml4 = s.kernel.virt root
  small : SmallLeaves C
  counted : s.kernel.Counted
  supplied : s.kernel.Supplied
  zero : ¬ Usable s.kernel.memmapEntries 0
  window : s.kernel.hhdm % 0x1000 = 0
  apart : Disjoint (C.frames fmt.base) s.held
  held : ∀ f ∈ s.held, f % 0x1000 = 0 ∧ Usable s.kernel.memmapEntries f ∧ f ∉ s.kernel.Bitmap ∧
    f ∉ s.kernel.Free

/-! ## Between two calls -/

section Restart

variable {k k' : Kernel} {root n : Nat} {C : PageTree}

theorem restart_toGlobals (k : Kernel) : k.restart.toGlobals = k.toGlobals := rfl

theorem restart_supplied (k : Kernel) : k.restart.Supplied := List.not_mem_nil

theorem restart_free (hk : k.PmmOk) : k.restart.Free = k.Free := free_congr hk rfl fun _ _ => rfl

theorem Owned.congr (h : Owned k root C) (hg : k'.toGlobals = k.toGlobals)
    (hm : ∀ x, pageOf x ∈ k.Bitmap ∪ C.frames fmt.base → k'.mem x = k.mem x) : Owned k' root C where
  ok := by rw [hg]; exact h.ok
  held := bitmapHeld_congr h.ok.toPmmOk hg (fun x hx => hm x (.inl hx)) h.held
  stored := by
    have hkept : MemKept (compl (C.frames fmt.base)) k k' :=
      fun x hx => hm x (.inr (by simpa using hx))
    exact h.stored.congr hkept disjoint_compl_right
  free := by
    rw [free_congr h.ok.toPmmOk hg fun x hx => hm x (.inl hx)]
    exact h.free
  bitmap := by rw [hg]; exact h.bitmap

/-- A change inside the bitmap that frees nothing. -/
theorem Owned.of_bitmap (h : Owned k root C) (hg : k'.toGlobals = k.toGlobals) (hb : k'.BitmapHeld)
    (hm : MemKept k.Bitmap k k') (hfree : k'.Free ⊆ k.Free) : Owned k' root C where
  ok := by rw [hg]; exact h.ok
  held := hb
  stored := h.stored.congr hm h.bitmap
  free := h.free.mono_right hfree
  bitmap := by rw [hg]; exact h.bitmap

theorem stocked_of_encard (hs : k.Supplied) (h0 : 0 ∉ k.Free) (hn : (n : ℕ∞) ≤ k.Free.encard) :
    k.Stocked n := by
  obtain ⟨t, ht, hcard⟩ := Set.exists_subset_encard_eq hn
  have hfin := Set.finite_of_encard_eq_coe hcard
  refine ⟨hs, h0, hfin.toFinset, ?_, by rwa [Set.Finite.coe_toFinset]⟩
  rw [← Set.Finite.coe_toFinset hfin, Set.encard_coe_eq_coe_finsetCard, Nat.cast_inj] at hcard
  exact hcard.ge

end Restart

section Paging

variable {root : Nat} {C C' : PageTree} {s s' : PmmState} {k' : Kernel}

theorem Paging.pmmOk (h : Paging root C s) : s.kernel.PmmOk := h.owned.ok.toPmmOk

theorem Paging.tallied (h : Paging root C s) : s.kernel.Tallied := ⟨h.owned.held, h.counted⟩

theorem Paging.zero_not_free (h : Paging root C s) : 0 ∉ s.kernel.Free :=
  fun h0 => h.zero (free_usable h.pmmOk h0)

theorem Paging.stocked (h : Paging root C s) {n : Nat} (hn : (n : ℕ∞) ≤ s.kernel.Free.encard) :
    s.kernel.Stocked n := stocked_of_encard h.supplied h.zero_not_free hn

theorem Paging.tables (h : Paging root C s) : C.frames fmt.base ⊆ s.kernel.Tables := by
  intro f hf
  have hroot : s.kernel.phys s.kernel.pml4 = root := by
    rw [h.pml4]
    exact Globals.phys_virt h.pmmOk.hhdm_lt (by have := h.owned.stored.lt; omega)
  exact ⟨C, by rw [hroot]; exact h.owned.stored, hf⟩

theorem Paging.of_owned {held : Set Nat} (h : Paging root C s) (hO : Owned k' root C)
    (hg : k'.toGlobals = s.kernel.toGlobals) (hc : k'.Counted) (hs : k'.Supplied)
    (hheld : ∀ f ∈ held, f % 0x1000 = 0 ∧ Usable s.kernel.memmapEntries f ∧ f ∉ s.kernel.Bitmap ∧
      f ∉ k'.Free ∧ f ∉ C.frames fmt.base) : Paging root C ⟨k', held⟩ where
  owned := hO
  pml4 := by rw [hg]; exact h.pml4
  small := h.small
  counted := hc
  supplied := hs
  zero := by rw [hg]; exact h.zero
  window := by rw [hg]; exact h.window
  apart := Set.disjoint_right.mpr fun f hf => (hheld f hf).2.2.2.2
  held := fun f hf => by
    obtain ⟨h₁, h₂, h₃, h₄, _⟩ := hheld f hf
    rw [hg]
    exact ⟨h₁, h₂, h₃, h₄⟩

theorem Paging.held_frame (h : Paging root C s) {f : Nat} (hf : f ∈ s.held) :
    f % 0x1000 = 0 ∧ Usable s.kernel.memmapEntries f ∧ f ∉ s.kernel.Bitmap ∧ f ∉ s.kernel.Free ∧
      f ∉ C.frames fmt.base := by
  obtain ⟨h₁, h₂, h₃, h₄⟩ := h.held f hf
  exact ⟨h₁, h₂, h₃, h₄, Set.disjoint_right.mp h.apart hf⟩

theorem Paging.congr (h : Paging root C s) (hg : k'.toGlobals = s.kernel.toGlobals)
    (hn : k'.pmmNumAllocatedPages = s.kernel.pmmNumAllocatedPages) (hs : k'.Supplied)
    (hm : ∀ x, pageOf x ∈ s.kernel.Bitmap ∪ C.frames fmt.base → k'.mem x = s.kernel.mem x) :
    Paging root C ⟨k', s.held⟩ := by
  have hbits : ∀ x, pageOf x ∈ s.kernel.Bitmap → k'.mem x = s.kernel.mem x :=
    fun x hx => hm x (.inl hx)
  refine h.of_owned (h.owned.congr hg hm) hg (counted_congr h.pmmOk hg hn hbits h.counted) hs ?_
  rw [free_congr h.pmmOk hg hbits]
  exact fun f hf => h.held_frame hf

theorem Paging.restart (h : Paging root C s) : Paging root C ⟨s.kernel.restart, s.held⟩ :=
  h.congr rfl rfl (restart_supplied _) fun _ _ => rfl

theorem Paging.step (h : Paging root C s) (hst : Step root s.kernel C k' C') (hC : SmallLeaves C')
    (ht : k'.Tallied) (hs : k'.Supplied) : Paging root C' ⟨k', s.held⟩ := by
  have hg : k'.toGlobals = s.kernel.toGlobals := hst.within.globals
  refine ⟨hst.owned, by rw [hg]; exact h.pml4, hC, ht.counted, hs, by rw [hg]; exact h.zero,
    by rw [hg]; exact h.window, ?_, fun f hf => ?_⟩
  · rw [Set.disjoint_left]
    intro x hx hheld
    rcases hst.frames hx with hx | hx
    · exact Set.disjoint_left.mp h.apart hx hheld
    · exact (h.held x hheld).2.2.2 hx
  · obtain ⟨h₁, h₂, h₃, h₄⟩ := h.held f hf
    rw [hg]
    exact ⟨h₁, h₂, h₃, fun hx => h₄ (hst.free hx)⟩

/-! ## The calls -/

theorem Paging.mapPage (h : Paging root C s) {pa va : Nat}
    (hroom : (s.kernel.missingTables va : ℕ∞) ≤ s.kernel.Free.encard) :
    ∃ C', Paging root C' ⟨s.kernel.vmmMapPage pa va, s.held⟩ ∧
      Updated C (va / 0x1000) (some (vmmPtEntryGetAddress (s.kernel.convertPhys pa))) C' := by
  have hno := h.small.no_huge (va / 0x1000)
  have hs : (s.kernel.vmmMapPage pa va).Supplied := by
    rw [vmmMapPage, h.pml4, vmmMapPagePml4_eq]
    exact (descend_supplied h.owned h.pml4 hno (h.stocked hroom)).st64 _ _
  rw [vmmMapPage, h.pml4] at hs ⊢
  obtain ⟨C', hst, hup⟩ := vmmMapPagePml4_spec h.owned h.small.fits hno (by decide) hs
  exact ⟨C', h.step hst (hup.small h.small) (vmmMapPagePml4_tallied h.owned h.small.fits hno hs
    h.tallied) hs, hup⟩

theorem Paging.unmapPage (h : Paging root C s) {va : Nat}
    (hroom : (s.kernel.missingTables va : ℕ∞) ≤ s.kernel.Free.encard) :
    ∃ C', Paging root C' ⟨s.kernel.vmmUnmapPage va, s.held⟩ := by
  have hno := h.small.no_huge (va / 0x1000)
  have hs : (s.kernel.vmmUnmapPage va).Supplied := by
    rw [vmmUnmapPage_eq, h.pml4]
    exact (descend_supplied h.owned h.pml4 hno (h.stocked hroom)).st64 _ _
  obtain ⟨C', hst, hup⟩ := vmmUnmapPage_spec h.owned h.pml4 h.small.fits hno hs
  exact ⟨C', h.step hst (hup.small h.small) (vmmUnmapPage_tallied h.owned h.pml4 h.small.fits hno hs
    h.tallied) hs⟩

theorem Paging.alloc (h : Paging root C s) : Paging root C ⟨s.kernel.pmmAllocPhys.2.restart,
    if s.kernel.pmmAllocPhys.1 = 0 then s.held else insert s.kernel.pmmAllocPhys.1 s.held⟩ := by
  have hk := h.pmmOk
  have hcount := pmmAllocPhys_counted hk h.counted
  rcases pmmAllocPhys_cases hk with ⟨_, he⟩ | ⟨i, hi, hb, _, he⟩
  · rw [he]
    exact h.restart
  · have hne : s.kernel.pmmGetAddressByIndex i ≠ 0 :=
      fun h0 => h.zero_not_free ⟨i, hi, h0, hb⟩
    have hmem : s.kernel.pmmGetAddressByIndex i ∈ s.kernel.Free := ⟨i, hi, rfl, hb⟩
    rw [he] at hcount
    rw [he, if_neg hne]
    let k₁ := s.kernel.pmmSetUsablePageAllocatedByIndex i true
    have hg : k₁.toGlobals = s.kernel.toGlobals := set_toGlobals _ _ _
    have hk₁ : k₁.PmmOk := by rw [hg]; exact hk
    have hfree : k₁.restart.Free = s.kernel.Free \ {s.kernel.pmmGetAddressByIndex i} := by
      rw [restart_free hk₁]
      exact free_set_true hk hi
    have hO : Owned k₁.restart root C := h.owned.of_bitmap hg
      (bitmapHeld_congr hk₁ rfl (fun _ _ => rfl) (bitmapHeld_set hk hi (.inl rfl) h.owned.held))
      (set_memKept hk hi true) (by rw [hfree]; exact Set.sdiff_subset)
    have hc : k₁.restart.Counted := counted_congr hk₁ rfl rfl (fun _ _ => rfl) hcount
    change Paging root C ⟨k₁.restart, insert (s.kernel.pmmGetAddressByIndex i) s.held⟩
    refine h.of_owned hO hg hc (restart_supplied _) fun f hf => ?_
    rw [hfree]
    rcases hf with rfl | hf
    · exact ⟨free_aligned hk hmem, free_usable hk hmem, free_not_bitmap hk h.owned.held hmem,
        fun hx => hx.2 rfl, Set.disjoint_right.mp h.owned.free hmem⟩
    · obtain ⟨h₁, h₂, h₃, h₄, h₅⟩ := h.held_frame hf
      exact ⟨h₁, h₂, h₃, fun hx => h₄ hx.1, h₅⟩

theorem Paging.subset {held : Set Nat} (h : Paging root C s) (hsub : held ⊆ s.held) :
    Paging root C ⟨s.kernel, held⟩ :=
  h.of_owned h.owned rfl h.counted h.supplied fun _ hf => h.held_frame (hsub hf)

theorem Paging.released (h : Paging root C s) {f : Nat} (hal : f % 0x1000 = 0)
    (hbit : f ∉ s.kernel.Bitmap)
    (hown : Usable s.kernel.memmapEntries f → f ∈ s.held ∪ s.kernel.Free) :
    Paging root C ⟨s.kernel.released f, s.held \ {f}⟩ := by
  have hk := h.pmmOk
  by_cases hu : Usable s.kernel.memmapEntries f
  · have hf := hown hu
    have hC : f ∉ C.frames fmt.base := by
      rcases hf with hf | hf
      · exact (h.held_frame hf).2.2.2.2
      · exact Set.disjoint_right.mp h.owned.free hf
    have hpage : pageOf f = f := pageOf_self hal
    obtain ⟨hO, hw, hfree⟩ := released_spec h.owned (by rwa [hpage]) (by rwa [hpage])
    have hs : (s.kernel.released f).Supplied := by
      rw [Supplied, Kernel.released, log_trace, (set_spec hk (hk.index hu).1 false).2]
      simpa [Supplied] using h.supplied
    have hk₁ : (s.kernel.pmmSetUsablePageAllocatedByIndex (s.kernel.pmmGetIndexByAddress f)
        false).PmmOk := by rw [set_toGlobals]; exact hk
    refine h.of_owned hO hw.globals (counted_congr hk₁ rfl rfl (fun _ _ => rfl)
      (release_counted hk h.counted f)) hs fun g hg => ?_
    obtain ⟨h₁, h₂, h₃, h₄, h₅⟩ := h.held_frame hg.1
    refine ⟨h₁, h₂, h₃, fun hx => ?_, h₅⟩
    rcases (hfree g).mp hx with hx | ⟨hx, _⟩
    · exact h₄ hx
    · exact hg.2 (hx.trans hpage)
  · rw [released_unusable hk hu]
    have hs : (s.kernel.log (.free f)).Supplied := by simpa [Supplied] using h.supplied
    have hlog : Paging root C ⟨s.kernel.log (.free f), s.held⟩ := h.congr rfl rfl hs fun _ _ => rfl
    exact hlog.subset Set.sdiff_subset

theorem Paging.phys_page (h : Paging root C s) {v : Nat} (hv : v % 0x1000 = 0)
    (hne : s.kernel.vmmVirtToPhys v ≠ uint64Max) :
    s.kernel.vmmVirtToPhys v % 0x1000 = 0 ∧ s.kernel.vmmVirtToPhys v < 2 ^ 52 := by
  rw [vmmVirtToPhys_aligned h.owned.ok h.owned.stored h.pml4 hv] at hne ⊢
  rw [PageTree.xlate, PageTree.xlateFrom] at hne ⊢
  rcases hf : C.find (path (v / 0x1000)) 4 with _ | ⟨l, e⟩
  · rw [hf] at hne
    exact absurd rfl hne
  · have hfit := h.small.fits _ _ _ hf
    have hal := getAddress_aligned e
    have hlt := Nat.mod_lt (v / 0x1000) (Nat.pow_pos (n := l) (by omega : 0 < 512))
    simp only [Option.map_some, Option.getD_some]
    omega

/-- What `pmm_free` does past its two tests, in the state with the bit clear. -/
theorem Paging.free_eq (h : Paging root C s) {page f : Nat} (hal : f % 0x1000 = 0)
    (hf : s.kernel.vmmVirtToPhys page = f) (hne : f ≠ uint64Max) (hbit : f ∉ s.kernel.Bitmap) :
    s.kernel.pmmFree page = (s.kernel.released f).vmmMapPage f (s.kernel.virt f) := by
  have hg : (s.kernel.released f).toGlobals = s.kernel.toGlobals := by
    rw [Kernel.released, log_toGlobals, set_toGlobals]
  rw [pmmFree_eq h.owned.ok hf hne (by rwa [pageOf_self hal]), vmmMapPage, hg]

/-- Giving a page back maps its higher-half page to whatever its frame's address is taken for. -/
theorem Paging.free (h : Paging root C s) {page f : Nat} (hpage : page % 0x1000 = 0)
    (hf : s.kernel.vmmVirtToPhys page = f) (hne : f ≠ uint64Max) (hbit : f ∉ s.kernel.Bitmap)
    (hown : Usable s.kernel.memmapEntries f → f ∈ s.held ∪ s.kernel.Free)
    (hroom : ((s.kernel.released f).missingTables (s.kernel.virt f) : ℕ∞) ≤
      (s.kernel.released f).Free.encard) :
    ∃ C', Paging root C' ⟨s.kernel.pmmFree page, s.held \ {f}⟩ ∧
      Updated C (s.kernel.virt f / 0x1000)
        (some (vmmPtEntryGetAddress ((s.kernel.released f).convertPhys f))) C' := by
  obtain ⟨hal, _⟩ := hf ▸ h.phys_page hpage (hf ▸ hne)
  rw [h.free_eq hal hf hne hbit]
  exact (h.released hal hbit hown).mapPage hroom

/-! ## Runs -/

theorem paging_step {op : CallOp} (h : Paging root C s) (hs : callStep s op s') :
    ∃ C', Paging root C' s' := by
  cases hs with
  | pmmAlloc => exact ⟨C, h.alloc⟩
  | @pmmFree page f hpage hf hown hroom =>
    by_cases hno : f = uint64Max ∨ f ∈ s.kernel.Bitmap
    · have hno' : f = uint64Max ∨ pageOf f ∈ s.kernel.Bitmap := hno.imp_right fun hb => by
        rwa [pageOf_self (h.pmmOk.bitmap_aligned hb)]
      rw [pmmFree_refused h.owned.ok hf hno']
      exact ⟨C, h.restart.subset Set.sdiff_subset⟩
    · rw [not_or] at hno
      obtain ⟨hne, hbit⟩ := hno
      obtain ⟨C', h', _⟩ := h.free hpage hf hne hbit (fun hu => (hown hu).resolve_left hbit)
        (hroom hne hbit)
      exact ⟨C', h'.restart⟩
  | vmmMapPage hroom =>
    obtain ⟨C', h', _⟩ := h.mapPage hroom
    exact ⟨C', h'.restart⟩
  | vmmUnmapPage hroom =>
    obtain ⟨C', h'⟩ := h.unmapPage hroom
    exact ⟨C', h'.restart⟩
  | write hm =>
    exact ⟨C, h.congr rfl rfl h.supplied fun x hx => hm x (hx.imp_right fun hx => h.tables hx)⟩

end Paging

/-- What the bootloader leaves to `pmm_init` and `vmm_init`: usable memory in whole pages, frame 0 not
among them, and tables outside of it, which map nothing by a 1 GiB leaf. -/
structure Booted (k : Kernel) (bd : BootData) (cr3 : Nat) (T : PageTree) : Prop where
  boot : BootOk k bd
  early : k.vmmInitialised = false
  fresh : k.trace = []
  map : MemmapOk bd.memmap
  pos : 0 < usablePages bd.memmap
  zero : ¬ Usable bd.memmap 0
  window : k.hhdm % 0x1000 = 0
  stored : Stored k cr3 T
  reserved : ∀ f ∈ T.frames fmt.base, ¬ Usable bd.memmap f
  small : SmallLeaves T

/-- The state after both initialisations. -/
def vmmStart (k : Kernel) (bd : BootData) (cr3 : Nat) : PmmState :=
  ⟨(k.pmmInit bd).vmmInit bd cr3, ∅⟩

section Runs

variable {k : Kernel} {bd : BootData} {cr3 : Nat} {T : PageTree} {s : PmmState}

theorem vmmInit_counted (h : (k.pmmInit bd).Counted) :
    ((k.pmmInit bd).vmmInit bd cr3).Counted := by
  simpa only [vmmInit, Counted, allocated, Globals.pmmGetAddressByIndex,
    pmmIsUsablePageAllocatedByIndex, Globals.pmmPhysToVirt, ld8, Globals.phys] using h

theorem paging_start (h : Booted k bd cr3 T) : Paging cr3 T (vmmStart k bd cr3) := by
  have hinit : Audit (initGlobals k bd) (k.pmmInit bd) :=
    pmmInit_audit h.boot h.map h.pos h.early
  have hg := hinit.globals
  obtain ⟨hO, hr⟩ : Owned (vmmStart k bd cr3).kernel cr3 T ∧
      (vmmStart k bd cr3).kernel.pml4 = (vmmStart k bd cr3).kernel.virt cr3 :=
    vmmInit_owned h.boot h.map h.pos h.stored h.reserved
  refine ⟨hO, hr, h.small, vmmInit_counted hinit.counted,
    pmmInit_supplied bd (by simp [Supplied, h.fresh]), ?_, ?_, Set.disjoint_empty _, ?_⟩
  · have : (vmmStart k bd cr3).kernel.memmapEntries = (k.pmmInit bd).memmapEntries := rfl
    rw [this, hg]
    exact h.zero
  · have : (vmmStart k bd cr3).kernel.hhdm = (k.pmmInit bd).hhdm := rfl
    rw [this, hg]
    exact h.window
  · intro f hf
    exact absurd hf (Set.notMem_empty f)

/-- In every state of a run the current tree, the bitmap and the held frames are apart. -/
theorem paging_run {ops : List CallOp} (h : Booted k bd cr3 T)
    (hrun : Run.Exec callStep (vmmStart k bd cr3) ops s) : ∃ C, Paging cr3 C s :=
  hrun.inv (I := fun s => ∃ C, Paging cr3 C s) (fun _ _ _ ⟨_, hC⟩ hs => paging_step hC hs)
    ⟨T, paging_start h⟩

end Runs

end BambooOS
