import BambooOS.Memory.Map
import BambooOS.Vmm.Range

/-!
# Memory.Init

The state after `memory_init`.

* `Handover`: what the bootloader's page tables and memory map promise.
* `handover_laid`: with that, the new tree starts empty beside the current one.
* `Laid.image`: the kernel image, above the window.
* `memoryInit_maps`: which page translates to what in the end.
-/

namespace BambooOS

open ByteMem Radix Kernel

/-- The page of `p` is one of the whole pages of an entry that is mapped. -/
def WholePage (es : List MemmapEntry) (p : Nat) : Prop :=
  ∃ e ∈ es, e.Mapped ∧ e.base / 0x1000 ≤ p / 0x1000 ∧
    p / 0x1000 < e.base / 0x1000 + e.length / 0x1000

/-- What `memory_init` takes for granted of the bootloader: an ascending memory map that fits below
the kernel, a window on the usable memory, a lower half that is empty or maps addresses to
themselves, and a contiguous kernel image. -/
structure Handover (k : Kernel) (bd : BootData) (C : PageTree) : Prop where
  upper : 2 ^ 64 - 2 ^ 47 ≤ k.hhdm
  sorted : bd.memmap.Pairwise fun e e' => e.base + e.length ≤ e'.base
  window : ∀ f, Usable bd.memmap f → f % 0x1000 = 0 →
    PageTree.xlate C (k.virt f / 0x1000) = some f
  lower : ∀ q, q < 2 ^ 35 → ∀ a, PageTree.xlate C q = some a → a = q * 0x1000
  start : bd.higherHalf.kernelStart % 0x1000 = 0
  size : bd.higherHalf.kernelStart < bd.higherHalf.kernelEnd
  stop : bd.higherHalf.kernelEnd < 2 ^ 64
  below : ∀ e ∈ bd.memmap, k.hhdm + (e.base + e.length) ≤ bd.higherHalf.kernelStart
  image : ∃ pa, pa % 0x1000 = 0 ∧ pa + bd.higherHalf.kernelPages * 0x1000 ≤ 2 ^ 47 ∧
    ∀ j, j < bd.higherHalf.kernelPages →
      PageTree.xlate C (vpn bd.higherHalf.kernelStart + j) = some (pa + j * 0x1000)

/-- The translations `memory_init` sets up, in the state `k₁` after `vmm_init`. -/
structure MemoryMapped (k₁ : Kernel) (bd : BootData) (m : MemoryInit) : Prop where
  root : ∃ T, Owned m.kernel m.cr3 T ∧ m.kernel.pml4 = m.kernel.virt m.cr3
  entries : ∀ e ∈ bd.memmap, e.Mapped → ∀ a, e.Covers a →
    (m.kernel.vmmVirtToPhys (m.kernel.virt (pageOf a)) = pageOf a ↔ WholePage bd.memmap a)
  image : ∀ j, j < bd.higherHalf.kernelPages →
    m.kernel.vmmVirtToPhys (bd.higherHalf.kernelStart + j * 0x1000) =
      k₁.vmmVirtToPhys (bd.higherHalf.kernelStart + j * 0x1000)
  rest : ∀ v, v % 0x1000 = 0 → m.kernel.vmmVirtToPhys v ≠ uint64Max →
    (∃ a, WholePage bd.memmap a ∧ vpn v = vpn (m.kernel.virt a)) ∨
    (∃ j < bd.higherHalf.kernelPages, vpn v = vpn (bd.higherHalf.kernelStart + j * 0x1000)) ∨
    ∃ e ∈ bd.memmap, e.Mapped ∧ e.length < 0x1000 ∧ vpn v = vpn (m.kernel.virt e.base)

/-! ## The kernel image -/

/-- The new tree after the memory map and the kernel image. -/
structure Built (root croot : Nat) (F : Set Nat) (g : Globals) (C₀ : PageTree) (bd : BootData)
    (k : Kernel) (T C : PageTree) : Prop where
  ready : Ready root croot F F True k T C
  globals : k.toGlobals = g
  same : ∀ r, PageTree.xlate C r = PageTree.xlate C₀ r
  done : ∀ e ∈ bd.memmap, e.Mapped → ∀ j, j < e.length / 0x1000 →
    PageTree.xlate T (g.windowPage e.base + j) = some (pageOf e.base + j * 0x1000)
  image : ∀ j, j < bd.higherHalf.kernelPages → PageTree.xlate T
    (vpn bd.higherHalf.kernelStart + j) = PageTree.xlate C₀ (vpn bd.higherHalf.kernelStart + j)
  rest : ∀ r, r < 2 ^ 36 → ∀ a, PageTree.xlate T r = some a →
    (∃ e ∈ bd.memmap, e.Mapped ∧ e.PageAt g r) ∨
    (vpn bd.higherHalf.kernelStart ≤ r ∧
      r < vpn bd.higherHalf.kernelStart + bd.higherHalf.kernelPages) ∨
    ∃ e ∈ bd.memmap, e.Mapped ∧ e.length < 0x1000 ∧ r = g.windowPage e.base ∧ a ∈ F
  huge : ∀ r, r < 2 ^ 36 → PageTree.Huge T r →
    (∃ e ∈ bd.memmap, e.Mapped ∧ Whole (g.windowPage e.base) (e.length / 0x1000) r) ∨
    Whole (vpn bd.higherHalf.kernelStart) bd.higherHalf.kernelPages r
  fits : PageTree.Fits T
  tallied : k.Tallied

section Image

variable {k : Kernel} {bd : BootData} {C C₀ T : PageTree}

theorem kernelPages_eq {info : HigherHalfInfo} (hs : info.kernelStart < info.kernelEnd)
    (he : info.kernelEnd < 2 ^ 64) : 0 < info.kernelPages ∧
      info.kernelPages = (info.kernelEnd - info.kernelStart + 0xFFF) / 0x1000 := by
  have hsize : (info.kernelEnd + (2 ^ 64 - info.kernelStart)) % 2 ^ 64 =
      info.kernelEnd - info.kernelStart := by omega
  rw [HigherHalfInfo.kernelPages, hsize]
  split <;> omega

theorem Handover.kernel_vpn (h : Handover k bd C) (hpos : 0 < usablePages bd.memmap) :
    vpn bd.higherHalf.kernelStart = bd.higherHalf.kernelStart / 0x1000 - (2 ^ 52 - 2 ^ 36) ∧
      2 ^ 64 - 2 ^ 47 ≤ bd.higherHalf.kernelStart ∧
      vpn bd.higherHalf.kernelStart + bd.higherHalf.kernelPages ≤ 2 ^ 36 := by
  obtain ⟨_, hn⟩ := kernelPages_eq h.size h.stop
  have hs := h.size
  have he := h.stop
  have hal := h.start
  have hu := h.upper
  have hk : k.hhdm ≤ bd.higherHalf.kernelStart := by
    cases hm : bd.memmap with
    | nil =>
      rw [hm] at hpos
      exact absurd hpos (Nat.lt_irrefl 0)
    | cons e es =>
      have := h.below e (by rw [hm]; exact List.mem_cons_self)
      omega
  rw [vpn]
  omega

theorem Handover.page_below (h : Handover k bd C) (hpos : 0 < usablePages bd.memmap)
    {g : Globals} (hg : g.hhdm = k.hhdm) (hal : k.hhdm % 0x1000 = 0) {e : MemmapEntry}
    (he : e ∈ bd.memmap) {r : Nat} (hr : e.PageAt g r) : r < vpn bd.higherHalf.kernelStart := by
  obtain ⟨j, hj, rfl⟩ := hr
  obtain ⟨hv, _, _⟩ := h.kernel_vpn hpos
  have hb := h.below e he
  have hs := h.size
  have hstop := h.stop
  have hu := h.upper
  rw [windowPage_eq (by rw [hg]; exact h.upper) (by rw [hg]; exact hal) (by omega), hv, hg]
  omega

theorem Laid.image_ready {root croot : Nat} {F : Set Nat} {k₀ : Kernel} (hk : Handover k₀ bd C₀)
    (hpos : 0 < usablePages bd.memmap) {g : Globals} (hg : g.hhdm = k₀.hhdm)
    (hal : k₀.hhdm % 0x1000 = 0) (h : Laid root croot F g C₀ bd.memmap k T C) :
    vpn bd.higherHalf.kernelStart + bd.higherHalf.kernelPages ≤ 2 ^ 36 ∧
      (∀ j, j < bd.higherHalf.kernelPages →
        PageTree.xlate C₀ (vpn bd.higherHalf.kernelStart + j) =
          some (pageOf (k.convertPhys (k.vmmVirtToPhys bd.higherHalf.kernelStart)) + j * 0x1000)) ∧
      k.convertPhys (k.vmmVirtToPhys bd.higherHalf.kernelStart) +
        bd.higherHalf.kernelPages * 0x1000 ≤ 2 ^ 52 ∧
      ∀ j, j < bd.higherHalf.kernelPages →
        ¬ PageTree.Large T (vpn bd.higherHalf.kernelStart + j) := by
  obtain ⟨hn, _⟩ := kernelPages_eq hk.size hk.stop
  obtain ⟨_, _, hrange⟩ := hk.kernel_vpn hpos
  obtain ⟨pa, hpal, hplt, hpx⟩ := hk.image
  have hphys : k.vmmVirtToPhys bd.higherHalf.kernelStart = pa := by
    have hx := hpx 0 hn
    rw [Nat.add_zero, Nat.zero_mul, Nat.add_zero, vpn, xlate_mod] at hx
    rw [vmmVirtToPhys_aligned h.ready.current.ok h.ready.current.stored h.ready.pml4 hk.start,
      h.same, hx]
    rfl
  have hconv : pageOf (k.convertPhys pa) = pa := by
    rw [convertPhys_page h.ready.current h.ready.pml4 fun a ha =>
      hk.lower _ (by omega) a ((h.same _).symm.trans ha), pageOf_self hpal]
  rw [hphys, hconv]
  refine ⟨hrange, hpx, ?_, ?_⟩
  · simp only [pageOf] at hconv
    omega
  · intro j hj hl
    obtain ⟨e, he, _, hat⟩ := h.large _ (by omega) hl
    have := hk.page_below hpos hg hal he hat
    omega

/-- Mapping the kernel image completes the tree. -/
theorem Laid.image {root croot : Nat} {F : Set Nat} {k₀ : Kernel} (hk : Handover k₀ bd C₀)
    (hpos : 0 < usablePages bd.memmap) {g : Globals} (hg : g.hhdm = k₀.hhdm)
    (hal : k₀.hhdm % 0x1000 = 0) (h : Laid root croot F g C₀ bd.memmap k T C)
    (hs : (k.vmmMapPagesPml4 (g.virt root) (k.vmmVirtToPhys bd.higherHalf.kernelStart)
      bd.higherHalf.kernelStart bd.higherHalf.kernelPages).Supplied) :
    ∃ T' C', Built root croot F g C₀ bd (k.vmmMapPagesPml4 (g.virt root)
      (k.vmmVirtToPhys bd.higherHalf.kernelStart) bd.higherHalf.kernelStart
      bd.higherHalf.kernelPages) T' C' := by
  obtain ⟨hn, _⟩ := kernelPages_eq hk.size hk.stop
  obtain ⟨hrange, himage, hfit, hnl⟩ := h.image_ready hk hpos hg hal
  have hroot : g.virt root = k.virt root := by rw [h.globals]
  rw [hroot] at hs ⊢
  obtain ⟨T', C', hr⟩ := vmmMapPagesPml4_ranged (fun _ => trivial) h.ready h.ready.returnable hn hrange hfit
    (fun j hj _ => hnl j hj) rfl hs
  have htal := vmmMapPagesPml4_tallied (fun _ => trivial) h.ready h.ready.returnable hrange hfit
    (fun j hj _ => hnl j hj) (hnl 0 hn) rfl hs h.tallied
  have hp := hr.progress
  refine ⟨T', C', hr.ready, hr.move.within.globals.trans h.globals,
    fun r => (hr.move.same r).trans (h.same r), ?_, ?_, ?_, ?_, hp.fits h.fits, htal⟩
  · intro e he hm j hj
    have hlt := hk.page_below hpos hg hal he ⟨j, hj, rfl⟩
    rw [hp.outside _ (by omega) (.inl hlt)]
    exact h.done e he hm j hj
  · intro j hj
    rw [hp.done j hj, himage j hj]
  · intro r hr a ha
    by_cases hin : vpn bd.higherHalf.kernelStart ≤ r ∧
        r < vpn bd.higherHalf.kernelStart + bd.higherHalf.kernelPages
    · exact .inr (.inl hin)
    · rw [hp.outside r hr (by omega)] at ha
      rcases h.rest r hr a ha with h' | h'
      · exact .inl h'
      · exact .inr (.inr h')
  · intro r hr hl
    rcases hp.huge r hr hl with hl | hw
    · exact .inl (h.huge r hr hl)
    · exact .inr hw

end Image

/-! ## The whole of `memory_init` -/

section Init

variable {k : Kernel} {bd : BootData} {cr3 : Nat} {C : PageTree}

/-- The state once the memory map is mapped. -/
def memmapDone (k : Kernel) (bd : BootData) (cr3 : Nat) : Kernel :=
  bd.memmap.foldl (fun k₂ e => k₂.mapEntry (vmmStart k bd cr3).kernel.pmmAllocz.1
    bd.higherHalf.offset e) (vmmStart k bd cr3).kernel.pmmAllocz.2

/-- The state once the kernel image is. -/
def imageDone (k : Kernel) (bd : BootData) (cr3 : Nat) : Kernel :=
  (memmapDone k bd cr3).vmmMapPagesPml4 (vmmStart k bd cr3).kernel.pmmAllocz.1
    ((memmapDone k bd cr3).vmmVirtToPhys bd.higherHalf.kernelStart) bd.higherHalf.kernelStart
    bd.higherHalf.kernelPages

theorem memoryInit_state (k : Kernel) (bd : BootData) (cr3 : Nat) :
    (k.memoryInit bd cr3).cr3 =
      (imageDone k bd cr3).vmmVirtToPhys (vmmStart k bd cr3).kernel.pmmAllocz.1 ∧
    (k.memoryInit bd cr3).kernel =
      { imageDone k bd cr3 with pml4 := (vmmStart k bd cr3).kernel.pmmAllocz.1 } := by
  rw [imageDone, memmapDone, ← mapMemmap_state _ _ _ 0]
  exact ⟨rfl, rfl⟩

theorem switched_free (k : Kernel) (p : Nat) : ({ k with pml4 := p } : Kernel).Free = k.Free := by
  simp only [Free, Globals.pmmGetAddressByIndex, pmmIsUsablePageAllocatedByIndex,
    Globals.pmmPhysToVirt, ld8, Globals.phys]

theorem owned_pml4 {root : Nat} {T : PageTree} (h : Owned k root T) (p : Nat) :
    Owned { k with pml4 := p } root T := by
  refine ⟨vmmOk_pml4 h.ok p, ?_, stored_pml4 h.stored p, by rw [switched_free]; exact h.free, h.bitmap⟩
  intro i hi
  have := h.held i hi
  simpa only [Globals.pmmGetAddressByIndex, pmmIsUsablePageAllocatedByIndex,
    Globals.pmmPhysToVirt, ld8, Globals.phys] using this

theorem vmmStart_globals (h : Booted k bd cr3 C) :
    (vmmStart k bd cr3).kernel.hhdm = k.hhdm ∧
      (vmmStart k bd cr3).kernel.memmapEntries = bd.memmap := by
  obtain ⟨hg, _⟩ := pmmInit_spec h.boot h.map h.pos
  have h₁ : (vmmStart k bd cr3).kernel.hhdm = (k.pmmInit bd).hhdm := rfl
  have h₂ : (vmmStart k bd cr3).kernel.memmapEntries = (k.pmmInit bd).memmapEntries := rfl
  rw [h₁, h₂, hg]
  exact ⟨rfl, rfl⟩

theorem virt_hhdm {g g' : Globals} (h : g.hhdm = g'.hhdm) (a : Nat) : g.virt a = g'.virt a := by
  rw [Globals.virt, Globals.virt, h]

/-- An empty tree beside the bootloader's, which is a window of the free frames. -/
theorem handover_laid (h : Booted k bd cr3 C) (hk : Handover k bd C)
    (hs : (vmmStart k bd cr3).kernel.pmmAllocz.2.Supplied) :
    ∃ root T, root ∈ (vmmStart k bd cr3).kernel.Free ∧
      (vmmStart k bd cr3).kernel.pmmAllocz.1 = (vmmStart k bd cr3).kernel.virt root ∧
      Laid root cr3 (vmmStart k bd cr3).kernel.Free (vmmStart k bd cr3).kernel.toGlobals C []
        (vmmStart k bd cr3).kernel.pmmAllocz.2 T C := by
  have hp := paging_start h
  obtain ⟨hhdm, hmap⟩ := vmmStart_globals h
  generalize (vmmStart k bd cr3) = s at hs hp hhdm hmap ⊢
  obtain ⟨root, hroot, hmem, hg, hfree, hT, hC⟩ := allocz_root hp.owned hs
  have hvirt : ∀ a, s.kernel.virt a = k.virt a := virt_hhdm hhdm
  have husable : ∀ f ∈ s.kernel.Free, Usable bd.memmap f := fun f hf => by
    rw [← hmap]
    exact free_usable hp.pmmOk hf
  have hin : ∀ f, Usable bd.memmap f → k.hhdm + f < 2 ^ 64 := by
    rintro f ⟨e, he, _, hlo, hhi⟩
    have := hk.below e he
    have := hk.size
    have := hk.stop
    omega
  have hu := hk.upper
  have hwin : Window s.kernel.toGlobals C s.kernel.Free := by
    refine ⟨by rw [hhdm]; exact hk.upper, hp.window, h.small.fits, ?_, ?_, ?_,
      fun f _ => h.small.no_huge _⟩
    · intro f hf
      rw [hhdm]
      exact hin f (husable f hf)
    · intro f hf a ha
      rw [hvirt, hk.window f (husable f hf) (free_aligned hp.pmmOk hf)] at ha
      exact (Option.some.inj ha).symm
    · intro f hf a ha
      have hf' := hin f (husable f hf)
      have hal := free_aligned hp.pmmOk hf
      rw [hk.lower _ (by omega) a ha]
      omega
  have hbase : fmt.base root = root := getAddress_of_aligned (free_aligned hp.pmmOk hmem)
    (by have := free_lt hp.pmmOk hmem; omega)
  have hframes : (Tree.table root fun _ => Tree.none : PageTree).frames fmt.base = {root} := by
    simp [Tree.frames, hbase]
  have hready : Ready root cr3 s.kernel.Free s.kernel.Free True s.kernel.pmmAllocz.2
      (.table root fun _ => .none) C := by
    refine ⟨hT, hC, ?_, by rw [hg]; exact hp.pml4, fun _ => by rw [hg]; exact hwin,
      Set.Subset.rfl, ?_, fun x hx => free_aligned hp.pmmOk hx⟩
    · rw [hframes, Set.disjoint_singleton_left]
      exact Set.disjoint_right.mp hp.owned.free hmem
    · rw [hframes, hfree]
      rintro x (hx | hx)
      · exact (Set.mem_singleton_iff.mp hx) ▸ hmem
      · exact hx.1
  refine ⟨root, _, hmem, hroot, hready, hg, fun _ => rfl, ?_, ?_, ?_, ?_, ?_,
    hp.tallied.allocz hp.pmmOk hs⟩
  · intro e he
    exact absurd he List.not_mem_nil
  · intro r _ a ha
    rw [PageTree.xlate, PageTree.xlateFrom, empty_find] at ha
    cases ha
  · rintro r _ ⟨l, e, _, hf⟩
    rw [empty_find] at hf
    cases hf
  · rintro r _ ⟨e, hf⟩
    rw [empty_find] at hf
    cases hf
  · intro r l e hf
    rw [empty_find] at hf
    cases hf

theorem Handover.top (hk : Handover k bd C) : ∀ e ∈ bd.memmap,
    k.hhdm + (e.base + e.length) < 2 ^ 64 := by
  intro e he
  have := hk.below e he
  have := hk.size
  have := hk.stop
  omega

theorem imageDone_built (h : Booted k bd cr3 C) (hk : Handover k bd C)
    (hs : (imageDone k bd cr3).Supplied) :
    ∃ root T C', root ∈ (vmmStart k bd cr3).kernel.Free ∧
      (vmmStart k bd cr3).kernel.pmmAllocz.1 = (imageDone k bd cr3).virt root ∧
      Built root cr3 (vmmStart k bd cr3).kernel.Free (vmmStart k bd cr3).kernel.toGlobals C bd
        (imageDone k bd cr3) T C' := by
  obtain ⟨hhdm, _⟩ := vmmStart_globals h
  have hoff : bd.higherHalf.offset = (vmmStart k bd cr3).kernel.hhdm :=
    h.boot.offset.trans hhdm.symm
  have hs₁ : (memmapDone k bd cr3).Supplied := (vmmMapPagesPml4_later _ _ _ _ _).supplied hs
  have hs₀ := (mapEntries_later _ _ _ _).supplied hs₁
  obtain ⟨root, T, hmem, hroot, hlaid⟩ := handover_laid h hk hs₀
  rw [imageDone, memmapDone, hoff, hroot] at hs
  rw [memmapDone, hoff, hroot] at hs₁
  rw [imageDone, memmapDone, hoff, hroot]
  obtain ⟨T₁, C₁, h₁⟩ := mapEntries_spec hk.lower (by rw [hhdm]; exact hk.top)
    (by rw [List.nil_append]; exact hk.sorted) hlaid hs₁
  rw [List.nil_append] at h₁
  obtain ⟨T₂, C₂, h₂⟩ := h₁.image hk h.pos hhdm h.window hs
  exact ⟨root, T₂, C₂, hmem, by rw [h₂.globals], h₂⟩

/-- The frames `memory_init` takes, at most. -/
def memoryFrames (bd : BootData) : Nat :=
  1 + ((bd.memmap.map (·.frames bd.higherHalf.offset)).sum +
    (4 + mapFrames (vpn bd.higherHalf.kernelStart) bd.higherHalf.kernelPages
      bd.higherHalf.kernelPages 0))

theorem Laid.image_stocked {root croot m : Nat} {F : Set Nat} {k₀ k₂ : Kernel} {C₀ T : PageTree}
    (hk : Handover k₀ bd C₀) (hpos : 0 < usablePages bd.memmap) {g : Globals}
    (hg : g.hhdm = k₀.hhdm) (hal : k₀.hhdm % 0x1000 = 0)
    (h : Laid root croot F g C₀ bd.memmap k₂ T C) (h0 : 0 ∉ F)
    (hst : k₂.Stocked (m + (4 + mapFrames (vpn bd.higherHalf.kernelStart)
      bd.higherHalf.kernelPages bd.higherHalf.kernelPages 0))) :
    (k₂.vmmMapPagesPml4 (g.virt root) (k₂.vmmVirtToPhys bd.higherHalf.kernelStart)
      bd.higherHalf.kernelStart bd.higherHalf.kernelPages).Stocked m := by
  obtain ⟨hrange, hconv, hfit, hnl⟩ := h.image_ready hk hpos hg hal
  obtain ⟨hn, _⟩ := kernelPages_eq hk.size hk.stop
  rw [show g.virt root = k₂.virt root by rw [h.globals]]
  exact vmmMapPagesPml4_stocked (fun _ => trivial) h.ready h.ready.returnable h0 hrange hfit (fun j hj _ => hnl j hj)
    (hnl 0 hn) rfl hst

/-- With that many frames in stock no allocation of `memory_init` fails. -/
theorem imageDone_stocked {m : Nat} (h : Booted k bd cr3 C) (hk : Handover k bd C)
    (hst : (vmmStart k bd cr3).kernel.Stocked (m + memoryFrames bd)) :
    (imageDone k bd cr3).Stocked m := by
  obtain ⟨hhdm, _⟩ := vmmStart_globals h
  have hp := paging_start h
  have hoff : bd.higherHalf.offset = (vmmStart k bd cr3).kernel.hhdm :=
    h.boot.offset.trans hhdm.symm
  rw [memoryFrames] at hst
  have hst₁ := hst.mono (show (m + ((bd.memmap.map (·.frames bd.higherHalf.offset)).sum +
    (4 + mapFrames (vpn bd.higherHalf.kernelStart) bd.higherHalf.kernelPages
      bd.higherHalf.kernelPages 0))) + 1 ≤ _ by omega)
  have hs₀ := hst₁.supplied_alloc hp.pmmOk
  obtain ⟨_, _, _, _, hfree, _⟩ := allocz_root hp.owned hs₀
  have hst₀ := hst₁.take hs₀ hfree
  obtain ⟨root, T, hmem, hroot, hlaid⟩ := handover_laid h hk hs₀
  rw [imageDone, memmapDone, hoff, hroot]
  rw [hoff] at hst₀
  have hst₂ := mapEntries_stocked (m := m + (4 + mapFrames (vpn bd.higherHalf.kernelStart)
    bd.higherHalf.kernelPages bd.higherHalf.kernelPages 0)) hp.zero_not_free hk.lower
    (by rw [hhdm]; exact hk.top) (by rw [List.nil_append]; exact hk.sorted) hlaid
    (hst₀.mono (by omega))
  obtain ⟨T₁, C₁, h₁⟩ := mapEntries_spec hk.lower (by rw [hhdm]; exact hk.top)
    (by rw [List.nil_append]; exact hk.sorted) hlaid hst₂.supplied
  rw [List.nil_append] at h₁
  exact h₁.image_stocked hk h.pos hhdm h.window hp.zero_not_free hst₂

theorem vmmStart_stocked (h : Booted k bd cr3 C) : (vmmStart k bd cr3).kernel.Stocked
    (usablePages bd.memmap - (usablePages bd.memmap / (0x1000 * 8) + 1)) := by
  have hst := pmmInit_stocked h.boot h.map h.pos h.zero (by simp [Supplied, h.fresh])
  exact hst.of_free hst.supplied (vmmInit_free _ _ _)

/-- A page of usable memory is a whole page of its entry. -/
theorem usable_wholePage {es : List MemmapEntry} (hm : MemmapOk es) {f : Nat} (hf : Usable es f) :
    WholePage es f := by
  obtain ⟨e, he, ht, hlo, hhi⟩ := hf
  obtain ⟨hb, hl⟩ := hm.aligned e he ht
  refine ⟨e, he, ?_, ?_, ?_⟩
  · rw [MemmapEntry.Mapped, ht]
    exact List.mem_cons_self
  · omega
  · omega

/-- `memory_init` maps the whole pages of the memory map and the kernel image, and switches to that
map. An entry that ends inside a page leaves that page out; of one below a page the first page is
mapped to a frame of the allocator. -/
theorem memoryInit_maps (h : Booted k bd cr3 C) (hk : Handover k bd C)
    (hroom : memoryFrames bd ≤
      usablePages bd.memmap - (usablePages bd.memmap / (0x1000 * 8) + 1)) :
    (k.memoryInit bd cr3).kernel.Supplied ∧
      MemoryMapped (vmmStart k bd cr3).kernel bd (k.memoryInit bd cr3) := by
  obtain ⟨hcr3, hkern⟩ := memoryInit_state k bd cr3
  have hst : (imageDone k bd cr3).Stocked 0 := imageDone_stocked h hk
    ((vmmStart_stocked h).mono (by rw [Nat.zero_add]; exact hroom))
  obtain ⟨root, T, C', hmem, hptr, hb⟩ := imageDone_built h hk hst.supplied
  rw [hptr] at hcr3 hkern
  have hp := paging_start h
  obtain ⟨hhdm, hmap⟩ := vmmStart_globals h
  have hal := h.window
  have hu := hk.upper
  have hs : (k.memoryInit bd cr3).kernel.Supplied := by
    rw [hkern]
    exact hst.supplied
  refine ⟨hs, ?_⟩
  generalize imageDone k bd cr3 = k₂ at hb hcr3 hkern
  generalize vmmStart k bd cr3 = s at hb hmem hp hhdm hmap ⊢
  have hroot := free_aligned hp.pmmOk hmem
  have hF : ∀ f ∈ s.kernel.Free, Usable bd.memmap f := fun f hf => by
    rw [← hmap]
    exact free_usable hp.pmmOk hf
  have hhdm₂ : k₂.hhdm = k.hhdm := by rw [hb.globals, hhdm]
  have hvirt : ∀ a, k₂.virt a = k.virt a := virt_hhdm hhdm₂
  -- what the new state walks, and what the old one did
  have hwalk : ∀ v, v % 0x1000 = 0 → (k.memoryInit bd cr3).kernel.vmmVirtToPhys v =
      (PageTree.xlate T (vpn v)).getD uint64Max := by
    intro v hv
    rw [hkern]
    exact walkAt_eq hb.ready.tree hv
  have hold : ∀ v, v % 0x1000 = 0 → s.kernel.vmmVirtToPhys v =
      (PageTree.xlate C (vpn v)).getD uint64Max := by
    intro v hv
    rw [vmmVirtToPhys_aligned hp.owned.ok hp.owned.stored hp.pml4 hv, vpn, xlate_mod]
  have hcr3 : (k.memoryInit bd cr3).cr3 = root := by
    have hv : k₂.virt root % 0x1000 = 0 := by
      rw [Globals.virt, hhdm₂]
      omega
    rw [hcr3, vmmVirtToPhys_aligned hb.ready.current.ok hb.ready.current.stored hb.ready.pml4 hv,
      hb.same, hvirt, hk.window root (hF root hmem) hroot]
    rfl
  have hlt : ∀ a, vpn (k.virt a) < 2 ^ 36 := fun a => vpn_lt _
  have hg : ∀ a, s.kernel.windowPage a = vpn (k.virt a) := fun a => by
    rw [Globals.windowPage, virt_hhdm hhdm]
  have hpage : ∀ a, k.hhdm + a < 2 ^ 64 →
      vpn (k.virt a) = k.hhdm / 0x1000 - (2 ^ 52 - 2 ^ 36) + a / 0x1000 :=
    fun a ha => windowPage_eq hk.upper hal ha
  refine ⟨?_, ?_, ?_, ?_⟩
  · rw [hcr3, hkern]
    exact ⟨T, owned_pml4 hb.ready.tree _, (virt_pml4 k₂ _ root).symm⟩
  · intro e he hm a ha
    have hbe := hk.below e he
    obtain ⟨hlo, hhi⟩ := ha
    have hstop := hk.stop
    have hsz := hk.size
    have hpa := hpage (pageOf a) (by simp only [pageOf]; omega)
    have hdiv : pageOf a / 0x1000 = a / 0x1000 := by simp only [pageOf]; omega
    rw [hdiv] at hpa
    have hval : (k.memoryInit bd cr3).kernel.vmmVirtToPhys
        ((k.memoryInit bd cr3).kernel.virt (pageOf a)) =
        (PageTree.xlate T (vpn (k.virt (pageOf a)))).getD uint64Max := by
      have hv : (k.memoryInit bd cr3).kernel.virt (pageOf a) = k.virt (pageOf a) := by
        rw [hkern, virt_pml4, hvirt]
      rw [hv]
      refine hwalk _ ?_
      rw [Globals.virt, pageOf]
      omega
    rw [hval]
    constructor
    · intro hx
      have hsome : PageTree.xlate T (vpn (k.virt (pageOf a))) = some (pageOf a) := by
        cases hc : PageTree.xlate T (vpn (k.virt (pageOf a))) with
        | none =>
          rw [hc] at hx
          simp only [Option.getD_none, uint64Max, pageOf] at hx
          omega
        | some b =>
          rw [hc] at hx
          exact congrArg some hx
      rcases hb.rest _ (hlt _) _ hsome with ⟨e', he', hm', j, hj, hr⟩ | ⟨hr, _⟩ | ⟨_, _, _, _, _, hf⟩
      · have hbe' := hk.below e' he'
        rw [hg, hpage e'.base (by omega), hpa] at hr
        exact ⟨e', he', hm', by omega, by omega⟩
      · obtain ⟨hkv, _, _⟩ := hk.kernel_vpn h.pos
        rw [hkv, hpa] at hr
        have := hk.start
        omega
      · obtain ⟨e', he', hm', h₁, h₂⟩ := usable_wholePage h.map (hF _ hf)
        rw [hdiv] at h₁ h₂
        exact ⟨e', he', hm', h₁, h₂⟩
    · rintro ⟨e', he', hm', h₁, h₂⟩
      have hbe' := hk.below e' he'
      have hd := hb.done e' he' hm' (a / 0x1000 - e'.base / 0x1000) (by omega)
      rw [hg, hpage e'.base (by omega)] at hd
      rw [hpa, show k.hhdm / 0x1000 - (2 ^ 52 - 2 ^ 36) + a / 0x1000 =
        k.hhdm / 0x1000 - (2 ^ 52 - 2 ^ 36) + e'.base / 0x1000 + (a / 0x1000 - e'.base / 0x1000) by
          omega, hd, Option.getD_some]
      simp only [pageOf]
      omega
  · intro j hj
    have hst := hk.start
    obtain ⟨_, _, hrange⟩ := hk.kernel_vpn h.pos
    rw [hwalk _ (by omega), hold _ (by omega), vpn_add hrange hj, hb.image j hj]
  · intro v hv hne
    rw [hwalk v hv] at hne
    cases hc : PageTree.xlate T (vpn v) with
    | none =>
      rw [hc] at hne
      exact absurd rfl hne
    | some a =>
      have hv' : ∀ b, (k.memoryInit bd cr3).kernel.virt b = k.virt b := by
        intro b
        rw [hkern, virt_pml4, hvirt]
      rcases hb.rest _ (vpn_lt v) a hc with ⟨e, he, hm, j, hj, hr⟩ | ⟨h₁, h₂⟩ | ⟨e, he, hm, hl, hr, _⟩
      · have hbe := hk.below e he
        have := hk.size
        have := hk.stop
        refine .inl ⟨e.base + j * 0x1000, ⟨e, he, hm, by omega, by omega⟩, ?_⟩
        rw [hr, hg, hv', hpage e.base (by omega), hpage (e.base + j * 0x1000) (by omega)]
        omega
      · obtain ⟨_, _, hrange⟩ := hk.kernel_vpn h.pos
        refine .inr (.inl ⟨vpn v - vpn bd.higherHalf.kernelStart, by omega, ?_⟩)
        rw [vpn_add hrange (by omega)]
        omega
      · refine .inr (.inr ⟨e, he, hm, hl, ?_⟩)
        rw [hr, hg, hv']

end Init

/-! ## A machine with a short entry -/

/-- A table with two entries. -/
def PageTree.double (e : Nat) (i : Fin 512) (t : PageTree) (j : Fin 512) (u : PageTree) : PageTree :=
  .table e (Function.update (Function.update (fun _ => .none) i t) j u)

section Double

variable {rd : Nat → Fin 512 → Nat} {e l : Nat} {i j : Fin 512} {t u : PageTree}

theorem double_sub (x : Fin 512) :
    Function.update (Function.update (fun _ => Tree.none) i t) j u x =
      if x = j then u else if x = i then t else .none := by
  split
  · rename_i h
    rw [h, Function.update_self]
  · rename_i h
    rw [Function.update_of_ne h]
    split
    · rename_i h'
      rw [h', Function.update_self]
    · rename_i h'
      rw [Function.update_of_ne h']

theorem double_rep (he : fmt.table l e)
    (hz : ∀ x, x ≠ i → x ≠ j → rd (vmmPtEntryGetAddress e) x = 0)
    (ht : t.Rep fmt rd (l - 1) (rd (vmmPtEntryGetAddress e) i))
    (hu : u.Rep fmt rd (l - 1) (rd (vmmPtEntryGetAddress e) j)) :
    (PageTree.double e i t j u).Rep fmt rd l e := by
  refine ⟨rfl, he, fun x => ?_⟩
  rw [double_sub]
  split
  · rename_i h
    rw [h]
    exact hu
  split
  · rename_i h
    rw [h]
    exact ht
  · rename_i h h'
    exact hz x h' h

theorem double_frames (hij : i ≠ j) : (PageTree.double e i t j u).frames fmt.base =
    insert (vmmPtEntryGetAddress e) (t.frames fmt.base ∪ u.frames fmt.base) := by
  ext f
  simp only [PageTree.double, Tree.frames, Set.mem_insert_iff, Set.mem_iUnion, Set.mem_union,
    double_sub]
  constructor
  · rintro (h | ⟨x, h⟩)
    · exact .inl h
    · split at h
      · exact .inr (.inr h)
      split at h
      · exact .inr (.inl h)
      · exact absurd h (by simp [Tree.frames])
  · rintro (h | h | h)
    · exact .inl h
    · exact .inr ⟨i, by rw [if_neg hij, if_pos rfl]; exact h⟩
    · exact .inr ⟨j, by rw [if_pos rfl]; exact h⟩

theorem double_sep (ht : t.Sep fmt.base) (hu : u.Sep fmt.base)
    (het : vmmPtEntryGetAddress e ∉ t.frames fmt.base)
    (heu : vmmPtEntryGetAddress e ∉ u.frames fmt.base)
    (hd : Disjoint (t.frames fmt.base) (u.frames fmt.base)) :
    (PageTree.double e i t j u).Sep fmt.base := by
  refine ⟨fun x => ?_, fun x y hne => ?_, fun x => ?_⟩
  · rw [double_sub]
    split_ifs
    · exact heu
    · exact het
    · exact Set.notMem_empty _
  · rw [double_sub, double_sub]
    split_ifs with h₁ h₂ h₃ h₄ h₅ h₆
    · exact absurd (h₁.trans h₂.symm) hne
    · exact hd.symm
    · exact Set.disjoint_empty _
    · exact hd
    · exact absurd (h₄.trans h₆.symm) hne
    · exact Set.disjoint_empty _
    all_goals exact Set.empty_disjoint _
  · rw [double_sub]
    split_ifs
    · exact hu
    · exact ht
    · trivial

theorem double_find (p : Nat → Fin 512) (l : Nat) :
    (PageTree.double e i t j u).find p l =
      if p (l - 1) = j then u.find p (l - 1) else if p (l - 1) = i then t.find p (l - 1) else none := by
  simp only [PageTree.double, Tree.find]
  rw [double_sub]
  split_ifs <;> rfl

end Double

/-- 514 usable pages from 2 MiB on, a reserved entry of 1 KiB below 640 KiB, the kernel's page and
the bootloader's tables. -/
def memoryBoot : BootData :=
  { higherHalf := { offset := 0xFFFF800000000000, kernelStart := 0xFFFFFFFF80000000
                    kernelEnd := 0xFFFFFFFF80000800 }
    memmap := [⟨0x9FC00, 0x400, memmapReserved⟩, ⟨0x200000, 0x202000, memmapUsable⟩,
      ⟨0x600000, 0x1000, memmapExecutableAndModules⟩,
      ⟨0x700000, 0x6000, memmapBootloaderReclaimable⟩] }

def memorySlots : List (Nat × Nat) :=
  [(0x700800, 0x701003), (0x700FF8, 0x703003), (0x701000, 0x702003), (0x702008, 0x200083),
    (0x702010, 0x400083), (0x703FF0, 0x704003), (0x704000, 0x705003), (0x705000, 0x600003)]

/-- The bootloader's tree: 4 MiB of the window in two leaves, and the page of the kernel. -/
def memoryTree : PageTree :=
  .double 0x700000 256
    (.single 0x701003 0 (.double 0x702003 1 (.leaf 0x200083) 2 (.leaf 0x400083))) 511
    (.single 0x703003 510 (.single 0x704003 0 (.single 0x705003 0 (.leaf 0x600003))))

theorem memory_bases : vmmPtEntryGetAddress 0x700000 = 0x700000 ∧
    vmmPtEntryGetAddress 0x701003 = 0x701000 ∧ vmmPtEntryGetAddress 0x702003 = 0x702000 ∧
    vmmPtEntryGetAddress 0x703003 = 0x703000 ∧ vmmPtEntryGetAddress 0x704003 = 0x704000 ∧
    vmmPtEntryGetAddress 0x705003 = 0x705000 := by decide

theorem memoryTree_frames : memoryTree.frames fmt.base =
    {0x700000, 0x701000, 0x702000, 0x703000, 0x704000, 0x705000} := by
  obtain ⟨e₀, e₁, e₂, e₃, e₄, e₅⟩ := memory_bases
  simp only [memoryTree, double_frames (show (256 : Fin 512) ≠ 511 by decide),
    double_frames (show (1 : Fin 512) ≠ 2 by decide), single_frames, Tree.frames, e₀, e₁, e₂, e₃,
    e₄, e₅]
  ext x
  simp only [Set.mem_insert_iff, Set.mem_union, Set.mem_empty_iff_false, Set.mem_singleton_iff]
  tauto

theorem memory_rd (f : Nat) (j : Fin 512) (hf : f % 8 = 0) :
    (bareMachine memorySlots).rd f j = (memorySlots.lookup (f + 8 * j.val)).getD 0 :=
  machine_rd ⟨by decide, hf⟩

theorem memoryTree_stored : Stored (bareMachine memorySlots) 0x700000 memoryTree := by
  obtain ⟨e₀, e₁, e₂, e₃, e₄, e₅⟩ := memory_bases
  have hwindow : (PageTree.single 0x701003 0 (.double 0x702003 1 (.leaf 0x200083) 2
      (.leaf 0x400083))).Rep fmt (bareMachine memorySlots).rd 3 0x701003 := by
    refine machine_single (v := 0x702003) (.inr ⟨by decide, .inl rfl⟩) (by decide) (by decide) ?_
    refine double_rep (.inr ⟨by decide, .inr ⟨.inr rfl, by decide⟩⟩) ?_ ?_ ?_
    · intro x h₁ h₂
      rw [e₂, memory_rd _ _ (by decide)]
      revert x
      decide +kernel
    · rw [e₂, memory_rd _ _ (by decide)]
      exact ⟨rfl, by decide, .inr ⟨.inl rfl, by decide⟩⟩
    · rw [e₂, memory_rd _ _ (by decide)]
      exact ⟨rfl, by decide, .inr ⟨.inl rfl, by decide⟩⟩
  have hkernel : (PageTree.single 0x703003 510 (.single 0x704003 0 (.single 0x705003 0
      (.leaf 0x600003)))).Rep fmt (bareMachine memorySlots).rd 3 0x703003 := by
    refine machine_single (v := 0x704003) (.inr ⟨by decide, .inl rfl⟩) (by decide) (by decide) ?_
    refine machine_single (v := 0x705003) (.inr ⟨by decide, .inr ⟨.inr rfl, by decide⟩⟩) (by decide)
      (by decide) ?_
    exact machine_single (v := 0x600003) (.inr ⟨by decide, .inr ⟨.inl rfl, by decide⟩⟩) (by decide)
      (by decide) ⟨rfl, by decide, .inl rfl⟩
  have hrep : memoryTree.Rep fmt (bareMachine memorySlots).rd 4 0x700000 := by
    refine double_rep (.inl rfl) ?_ ?_ ?_
    · intro x h₁ h₂
      rw [e₀, memory_rd _ _ (by decide)]
      revert x
      decide +kernel
    · rw [e₀, memory_rd _ _ (by decide)]
      exact hwindow
    · rw [e₀, memory_rd _ _ (by decide)]
      exact hkernel
  refine ⟨⟨_, rfl⟩, hrep, double_sep (single_sep (double_sep trivial trivial
    ?_ ?_ ?_) ?_) (single_sep (single_sep (single_sep trivial ?_) ?_) ?_) ?_ ?_ ?_, by decide,
    by decide⟩
  all_goals simp [double_frames, single_frames, Tree.frames, e₀, e₁, e₂, e₃, e₄, e₅]

theorem memoryTree_leaf {q l e : Nat} (h : memoryTree.find (path q) 4 = some (l, e)) :
    (path q 3 = 256 ∨ path q 3 = 511) ∧
      (l = 1 ∧ (e = 0x200083 ∨ e = 0x400083) ∨ l = 0 ∧ e = 0x600003) := by
  simp only [memoryTree, double_find, single_find, Tree.find] at h
  split_ifs at h with h₁ h₂ h₃ h₄ h₅ h₆ h₇ <;> cases h
  · exact ⟨.inr h₁, .inr ⟨rfl, rfl⟩⟩
  · exact ⟨.inl h₅, .inl ⟨rfl, .inr rfl⟩⟩
  · exact ⟨.inl h₅, .inl ⟨rfl, .inl rfl⟩⟩

theorem memoryTree_small : SmallLeaves memoryTree where
  fits q l e h := by
    rcases (memoryTree_leaf h).2 with ⟨rfl, rfl | rfl⟩ | ⟨rfl, rfl⟩ <;> decide
  no_huge q h := by
    obtain ⟨e, h⟩ := h
    rcases (memoryTree_leaf h).2 with ⟨h, _⟩ | ⟨h, _⟩ <;> omega

theorem memory_usable {a : Nat} :
    Usable memoryBoot.memmap a ↔ 0x200000 ≤ a ∧ a < 0x402000 := by
  simp [Usable, memoryBoot, MemmapEntry.Covers, memmapUsable, memmapReserved,
    memmapExecutableAndModules, memmapBootloaderReclaimable]

theorem memory_booted : Booted (bareMachine memorySlots) memoryBoot 0x700000 memoryTree where
  boot := ⟨rfl, rfl, rfl, by simp only [bareMachine]; omega⟩
  early := rfl
  fresh := rfl
  map := ⟨by decide, by decide, by
    simp only [memoryBoot, List.pairwise_cons, List.mem_cons, List.not_mem_nil, or_false,
      forall_eq_or_imp, forall_eq, memmapUsable, memmapReserved, memmapExecutableAndModules,
      memmapBootloaderReclaimable, MemmapEntry.Covers]
    simp⟩
  pos := by decide
  zero := fun h => by have := memory_usable.mp h; omega
  window := by decide
  stored := memoryTree_stored
  reserved := by
    intro f hf hu
    rw [memoryTree_frames] at hf
    have := memory_usable.mp hu
    simp only [Set.mem_insert_iff, Set.mem_singleton_iff] at hf
    omega
  small := memoryTree_small

theorem xlate_of_find {T : PageTree} {q l e : Nat} (h : T.find (path q) 4 = some (l, e)) :
    PageTree.xlate T q = some (vmmPtEntryGetAddress e + q % 512 ^ l * 0x1000) := by
  rw [PageTree.xlate, PageTree.xlateFrom, h]
  rfl

theorem memory_handover : Handover (bareMachine memorySlots) memoryBoot memoryTree where
  upper := by decide
  sorted := by decide
  window := by
    intro f hf hal
    obtain ⟨hlo, hhi⟩ := memory_usable.mp hf
    have hv : (bareMachine memorySlots).virt f / 0x1000 = 0xFFFF800000000 + f / 0x1000 := by
      rw [Globals.virt]
      simp only [bareMachine]
      omega
    generalize (bareMachine memorySlots).virt f / 0x1000 = q at hv ⊢
    have h₃ : path q 3 = 256 := Fin.ext (by rw [path_val]; norm_num; omega)
    have h₂ : path q 2 = 0 := Fin.ext (by rw [path_val]; norm_num; omega)
    rcases Nat.lt_or_ge f 0x400000 with hlt | hge
    · have h₁ : path q 1 = 1 := Fin.ext (by rw [path_val]; norm_num; omega)
      have hfind : memoryTree.find (path q) 4 = some (1, 0x200083) := by
        simp [memoryTree, double_find, single_find, Tree.find, h₃, h₂, h₁]
      have hbase : vmmPtEntryGetAddress 0x200083 = 0x200000 := by decide
      rw [xlate_of_find hfind, hbase, Option.some.injEq]
      omega
    · have h₁ : path q 1 = 2 := Fin.ext (by rw [path_val]; norm_num; omega)
      have hfind : memoryTree.find (path q) 4 = some (1, 0x400083) := by
        simp [memoryTree, double_find, single_find, Tree.find, h₃, h₂, h₁]
      have hbase : vmmPtEntryGetAddress 0x400083 = 0x400000 := by decide
      rw [xlate_of_find hfind, hbase, Option.some.injEq]
      omega
  lower := by
    intro q hq a ha
    rw [PageTree.xlate, PageTree.xlateFrom] at ha
    cases hf : memoryTree.find (path q) 4 with
    | none =>
      rw [hf] at ha
      cases ha
    | some m =>
      obtain ⟨l, e⟩ := m
      have hp : (path q 3).val = q / 134217728 % 512 := by
        rw [path_val]
        norm_num
      rcases (memoryTree_leaf hf).1 with h | h
      · rw [h] at hp
        change 256 = _ at hp
        omega
      · rw [h] at hp
        change 511 = _ at hp
        omega
  start := by decide
  size := by decide
  stop := by decide
  below := by decide
  image := ⟨0x600000, by decide, by decide, by decide +kernel⟩

/-- The page of the short entry is left out, and the rest is in place. -/
theorem memoryInit_maps_short :
    ((bareMachine memorySlots).memoryInit memoryBoot 0x700000).kernel.Supplied ∧
      MemoryMapped (vmmStart (bareMachine memorySlots) memoryBoot 0x700000).kernel memoryBoot
        ((bareMachine memorySlots).memoryInit memoryBoot 0x700000) :=
  memoryInit_maps memory_booted memory_handover (by decide +kernel)

end BambooOS
