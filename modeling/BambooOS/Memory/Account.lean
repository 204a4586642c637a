import BambooOS.Memory.Run
import BambooOS.Vmm.Conserve
import Mathlib.Data.Set.Card

/-!
# Memory.Account

Where the frames of the page manager are. Each is free, a page table, or handed out, and a call
only moves frames from one of the three to another.

* `PmmState.Frames`: the three together. `paging_step_frames`: every call keeps them.
* `Paging.account`: the free memory reported, from the number of tables and of frames handed out.
* `memoryInit_account`: over any run after `memory_init`.
-/

namespace BambooOS

open ByteMem Radix Kernel

/-- The frames that are free, page tables, or handed out. -/
def PmmState.Frames (s : PmmState) : Set Nat := s.kernel.Free ∪ s.kernel.Tables ∪ s.held

/-! ## One call -/

section Step

variable {root : Nat} {C C' : PageTree} {s s' : PmmState} {k' : Kernel} {held : Set Nat}

theorem Paging.tables_eq (h : Paging root C s) : s.kernel.Tables = C.frames fmt.base := by
  refine Set.Subset.antisymm ?_ h.tables
  rintro f ⟨T, hT, hf⟩
  have hroot : s.kernel.phys s.kernel.pml4 = root := by
    rw [h.pml4]
    exact Globals.phys_virt h.pmmOk.hhdm_lt (by have := h.owned.stored.lt; omega)
  rw [hroot] at hT
  rwa [h.owned.stored.unique hT]

theorem Paging.frames_eq (h : Paging root C s) :
    s.Frames = PageTree.Managed C s.kernel ∪ s.held := by
  rw [PmmState.Frames, h.tables_eq, PageTree.Managed, Set.union_comm s.kernel.Free]

theorem Paging.frames_restart (h : Paging root C ⟨k', held⟩) :
    PmmState.Frames ⟨k'.restart, held⟩ = PmmState.Frames ⟨k', held⟩ := by
  rw [h.restart.frames_eq, h.frames_eq, PageTree.Managed, PageTree.Managed, restart_free h.pmmOk]

theorem Paging.mapPage_frames (h : Paging root C s) {pa va : Nat}
    (hroom : (s.kernel.missingTables va : ℕ∞) ≤ s.kernel.Free.encard) :
    PmmState.Frames ⟨(s.kernel.vmmMapPage pa va).restart, s.held⟩ = s.Frames := by
  have hs : (s.kernel.vmmMapPage pa va).Supplied := h.mapPage_supplied hroom
  obtain ⟨C', h', hst, _⟩ := h.mapPage_step hs
  rw [h'.frames_restart, h'.frames_eq, h.frames_eq]
  refine congrArg (· ∪ s.held) (Set.Subset.antisymm hst.sub ?_)
  have hO := h'.owned
  simp only [vmmMapPage, h.pml4] at hs hO ⊢
  exact vmmMapPagePml4_managed h.owned h.small.fits (h.small.no_huge _) (by decide) hs hO

theorem Paging.unmapPage_frames (h : Paging root C s) {va : Nat}
    (hroom : (s.kernel.missingTables va : ℕ∞) ≤ s.kernel.Free.encard) :
    PmmState.Frames ⟨(s.kernel.vmmUnmapPage va).restart, s.held⟩ = s.Frames := by
  have hno := h.small.no_huge (va / 0x1000)
  have hs : (s.kernel.vmmUnmapPage va).Supplied := by
    rw [vmmUnmapPage_eq, h.pml4]
    exact (descend_supplied h.owned h.pml4 hno (h.stocked hroom)).st64 _ _
  obtain ⟨C', hst, hup⟩ := vmmUnmapPage_spec h.owned h.pml4 h.small.fits hno hs
  have h' := h.step hst (hup.small h.small)
    (vmmUnmapPage_tallied h.owned h.pml4 h.small.fits hno hs h.tallied) hs
  rw [h'.frames_restart, h'.frames_eq, h.frames_eq]
  exact congrArg (· ∪ s.held) (Set.Subset.antisymm hst.sub
    (vmmUnmapPage_managed h.owned h.pml4 h.small.fits hno hs hst.owned))

theorem Paging.alloc_frames (h : Paging root C s) :
    PmmState.Frames ⟨s.kernel.pmmAllocPhys.2.restart,
      if s.kernel.pmmAllocPhys.1 = 0 then s.held else insert s.kernel.pmmAllocPhys.1 s.held⟩ =
    s.Frames := by
  rw [h.alloc.frames_eq, h.frames_eq]
  rcases pmmAllocPhys_cases h.pmmOk with ⟨_, he⟩ | ⟨i, hi, hb, _, he⟩
  · have hfree : (s.kernel.log (.alloc 0)).restart.Free = s.kernel.Free :=
      free_congr h.pmmOk rfl fun _ _ => rfl
    rw [he, if_pos rfl, PageTree.Managed, PageTree.Managed]
    dsimp only
    rw [hfree]
  · have hmem : s.kernel.pmmGetAddressByIndex i ∈ s.kernel.Free := ⟨i, hi, rfl, hb⟩
    have hne : s.kernel.pmmGetAddressByIndex i ≠ 0 := by
      intro h0
      exact h.zero_not_free (h0 ▸ hmem)
    have hfree : (s.kernel.pmmSetUsablePageAllocatedByIndex i true).restart.Free =
        s.kernel.Free \ {s.kernel.pmmGetAddressByIndex i} := by
      rw [restart_free (by rw [set_toGlobals]; exact h.pmmOk)]
      exact free_set_true h.pmmOk hi
    rw [he, if_neg hne, PageTree.Managed, PageTree.Managed]
    change C.frames fmt.base ∪ (s.kernel.pmmSetUsablePageAllocatedByIndex i true).restart.Free ∪ _ = _
    rw [hfree]
    generalize s.kernel.pmmGetAddressByIndex i = a at hmem ⊢
    ext x
    by_cases hx : x = a
    · simp [hx, hmem]
    · simp [hx]

theorem Paging.released_frames (h : Paging root C s) {f : Nat} (hal : f % 0x1000 = 0)
    (hbit : f ∉ s.kernel.Bitmap)
    (hown : Usable s.kernel.memmapEntries f → f ∈ s.held ∪ s.kernel.Free) :
    PmmState.Frames ⟨s.kernel.released f, s.held \ {f}⟩ = s.Frames := by
  rw [(h.released hal hbit hown).frames_eq, h.frames_eq, PageTree.Managed, PageTree.Managed]
  have hk := h.pmmOk
  have hpage : pageOf f = f := pageOf_self hal
  obtain ⟨hg, _, _, _, hfree⟩ := release_spec hk h.owned.held f (by rwa [hpage])
  have hlog : (s.kernel.released f).Free =
      (s.kernel.pmmSetUsablePageAllocatedByIndex (s.kernel.pmmGetIndexByAddress f) false).Free :=
    free_congr (by rw [hg]; exact hk) rfl fun _ _ => rfl
  ext x
  simp only [hlog, Set.mem_union, hfree, hpage, Set.mem_sdiff, Set.mem_singleton_iff]
  by_cases hx : x = f
  · subst hx
    have hheld : x ∈ s.held → Usable s.kernel.memmapEntries x := fun hx => (h.held_frame hx).2.1
    have hown : Usable s.kernel.memmapEntries x → x ∈ s.held ∨ x ∈ s.kernel.Free := hown
    tauto
  · simp [hx]

/-- A call keeps the frames of the page manager. -/
theorem paging_step_frames {op : CallOp} (h : Paging root C s) (hs : callStep s op s') :
    s'.Frames = s.Frames := by
  cases hs with
  | pmmAlloc => exact h.alloc_frames
  | @pmmFree page f hpage hf hown hroom =>
    by_cases hno : f = uint64Max ∨ f ∈ s.kernel.Bitmap
    · have hno' : f = uint64Max ∨ pageOf f ∈ s.kernel.Bitmap := by
        refine hno.imp_right fun hb => ?_
        rwa [pageOf_self (h.pmmOk.bitmap_aligned hb)]
      have hheld : f ∉ s.held := by
        intro hmem
        rcases hno with rfl | hb
        · exact h.held_ne hmem rfl
        · exact (h.held_frame hmem).2.2.1 hb
      rw [pmmFree_refused h.owned.ok hf hno', Set.sdiff_singleton_eq_self hheld]
      exact h.frames_restart
    · rw [not_or] at hno
      obtain ⟨hne, hbit⟩ := hno
      obtain ⟨hal, _⟩ := hf ▸ h.phys_page hpage (hf ▸ hne)
      have hown' := fun hu => (hown hu).resolve_left hbit
      rw [h.free_eq hal hf hne hbit, (h.released hal hbit hown').mapPage_frames (hroom hne hbit)]
      exact h.released_frames hal hbit hown'
  | vmmMapPage hroom => exact h.mapPage_frames hroom
  | vmmUnmapPage hroom => exact h.unmapPage_frames hroom
  | @write m hm =>
    let k' : Kernel := { s.kernel with mem := m }
    have h' : Paging root C ⟨k', s.held⟩ :=
      h.congr rfl rfl h.supplied fun x hx => hm x (hx.imp_right fun hx => h.tables hx)
    have hfree : k'.Free = s.kernel.Free := free_congr h.pmmOk rfl fun x hx => hm x (.inl hx)
    change PmmState.Frames ⟨k', s.held⟩ = s.Frames
    rw [h'.frames_eq, h.frames_eq, PageTree.Managed, PageTree.Managed, hfree]

/-! ## The free memory -/

theorem free_ncard {k : Kernel} (hk : k.PmmOk) :
    k.Free.Finite ∧ k.Free.ncard + k.allocated.card = k.pmmUsablePages := by
  let clear := (Finset.range k.pmmUsablePages).filter fun i =>
    ¬ k.pmmIsUsablePageAllocatedByIndex i = true
  have himage : k.Free = ↑(clear.image k.pmmGetAddressByIndex) := by
    ext f
    simp only [Kernel.Free, Set.mem_ofPred_eq, clear, Finset.coe_image, Finset.coe_filter,
      Finset.mem_range, Set.mem_image, Bool.not_eq_true]
    constructor
    · rintro ⟨i, hi, hf, hb⟩
      exact ⟨i, ⟨hi, hb⟩, hf⟩
    · rintro ⟨i, ⟨hi, hb⟩, hf⟩
      exact ⟨i, hi, hf, hb⟩
  have hinj : Set.InjOn k.pmmGetAddressByIndex clear := by
    intro i hi j hj hij
    simp only [clear, Finset.coe_filter, Finset.mem_range, Set.mem_ofPred_eq] at hi hj
    exact hk.address_inj hi.1 hj.1 hij
  refine ⟨himage ▸ Finset.finite_toSet _, ?_⟩
  have hsplit := Finset.card_filter_add_card_filter_not (s := Finset.range k.pmmUsablePages)
    fun i => k.pmmIsUsablePageAllocatedByIndex i = true
  rw [Finset.card_range] at hsplit
  rw [himage, Set.ncard_coe_finset, Finset.card_image_of_injOn hinj, Nat.add_comm]
  exact hsplit

theorem Kernel.Counted.freeMemory {k : Kernel} (hk : k.PmmOk) (h : k.Counted) :
    k.pmmGetCurrentFreeMemory = 0x1000 * k.Free.ncard := by
  obtain ⟨_, hcard⟩ := free_ncard hk
  have hu := hk.usable_le
  rw [pmmGetCurrentFreeMemory, h]
  omega

theorem Paging.disjoint (h : Paging root C s) : Disjoint s.kernel.Free s.kernel.Tables ∧
    Disjoint s.kernel.Free s.held ∧ Disjoint s.kernel.Tables s.held := by
  rw [h.tables_eq]
  refine ⟨h.owned.free.symm, ?_, h.apart⟩
  rw [Set.disjoint_right]
  intro f hf
  exact (h.held_frame hf).2.2.2.1

/-- Every page that is a table or handed out is missing from the free memory reported. -/
theorem Paging.account (h : Paging root C s) :
    s.kernel.pmmGetCurrentFreeMemory + 0x1000 * (s.kernel.Tables.ncard + s.held.ncard) =
      0x1000 * s.Frames.ncard := by
  obtain ⟨hft, hfh, hth⟩ := h.disjoint
  have hfree := (free_ncard h.pmmOk).1
  have htables : s.kernel.Tables.Finite := by
    refine Set.Finite.subset (Set.finite_Iio (2 ^ 52)) fun f hf => ?_
    rw [h.tables_eq] at hf
    have := (frames_spec hf).2
    rw [Set.mem_Iio]
    omega
  have hheld : s.held.Finite := by
    refine Set.Finite.subset (Set.finite_Iio (2 ^ 52)) fun f hf => ?_
    exact (h.held_frame hf).2.1.lt h.pmmOk.map
  have hsum : s.Frames.ncard = s.kernel.Free.ncard + s.kernel.Tables.ncard + s.held.ncard := by
    rw [PmmState.Frames, Set.ncard_union_eq (hfh.union_left hth) (hfree.union htables) hheld,
      Set.ncard_union_eq hft hfree htables]
  rw [h.counted.freeMemory h.pmmOk, hsum]
  omega

end Step

/-! ## Runs -/

section Runs

variable {k : Kernel} {bd : BootData} {cr3 : Nat} {C : PageTree} {s : PmmState}

/-- From `memory_init` on, over any run of calls: a frame that was free or a page table when
`memory_init` returned is free, a page table or handed out, it is one of the three only, and there
are no others. The free memory reported has gone down by a page for each page handed out and each
table built since. -/
theorem memoryInit_account {ops : List CallOp} (h : Booted k bd cr3 C) (hk : Handover k bd C)
    (hg : BelowGib k.toGlobals bd)
    (hroom : memoryFrames bd ≤
      usablePages bd.memmap - (usablePages bd.memmap / (0x1000 * 8) + 1))
    (hrun : Run.Exec callStep ⟨(k.memoryInit bd cr3).kernel, ∅⟩ ops s) :
    s.kernel.Free ∪ s.kernel.Tables ∪ s.held =
      (k.memoryInit bd cr3).kernel.Free ∪ (k.memoryInit bd cr3).kernel.Tables ∧
    Disjoint s.kernel.Free s.kernel.Tables ∧ Disjoint s.kernel.Free s.held ∧
    Disjoint s.kernel.Tables s.held ∧
    s.kernel.pmmGetCurrentFreeMemory + 0x1000 * (s.kernel.Tables.ncard + s.held.ncard) =
      (k.memoryInit bd cr3).kernel.pmmGetCurrentFreeMemory +
        0x1000 * (k.memoryInit bd cr3).kernel.Tables.ncard := by
  obtain ⟨T₀, hsw⟩ := memoryInit_paging h hk hg hroom
  have hp₀ := hsw.paging
  have hstep : ∀ t op t', ((∃ T, Paging (k.memoryInit bd cr3).cr3 T t) ∧
      t.Frames = PmmState.Frames ⟨(k.memoryInit bd cr3).kernel, ∅⟩) → callStep t op t' →
      (∃ T, Paging (k.memoryInit bd cr3).cr3 T t') ∧
        t'.Frames = PmmState.Frames ⟨(k.memoryInit bd cr3).kernel, ∅⟩ := by
    rintro t op t' ⟨⟨T, hp⟩, hframes⟩ hs
    exact ⟨paging_step hp hs, (paging_step_frames hp hs).trans hframes⟩
  obtain ⟨⟨T, hp⟩, hframes⟩ := hrun.inv hstep ⟨⟨T₀, hp₀⟩, rfl⟩
  obtain ⟨hft, hfh, hth⟩ := hp.disjoint
  have haccount := hp₀.account
  rw [Set.ncard_empty, Nat.add_zero, ← hframes, ← hp.account] at haccount
  rw [PmmState.Frames, PmmState.Frames, Set.union_empty] at hframes
  exact ⟨hframes, hft, hfh, hth, haccount.symm⟩

/-- The short-entry machine maps a page of the lower half, then hands a frame out. -/
theorem memoryInit_account_short : ∃ s,
    Run.Exec callStep ⟨((bareMachine memorySlots).memoryInit memoryBoot 0x700000).kernel, ∅⟩
      [.vmmMapPage 0x9F000 0x400000, .pmmAlloc] s ∧
    (s.kernel.Free ∪ s.kernel.Tables ∪ s.held =
      ((bareMachine memorySlots).memoryInit memoryBoot 0x700000).kernel.Free ∪
        ((bareMachine memorySlots).memoryInit memoryBoot 0x700000).kernel.Tables ∧
    Disjoint s.kernel.Free s.kernel.Tables ∧ Disjoint s.kernel.Free s.held ∧
    Disjoint s.kernel.Tables s.held ∧
    s.kernel.pmmGetCurrentFreeMemory + 0x1000 * (s.kernel.Tables.ncard + s.held.ncard) =
      ((bareMachine memorySlots).memoryInit memoryBoot 0x700000).kernel.pmmGetCurrentFreeMemory +
        0x1000 * ((bareMachine memorySlots).memoryInit memoryBoot 0x700000).kernel.Tables.ncard) := by
  have hst : ((bareMachine memorySlots).memoryInit memoryBoot 0x700000).kernel.Stocked 3 :=
    memoryInit_stocked memory_booted memory_handover (by decide +kernel)
  obtain ⟨s, hrun⟩ : ∃ s, Run.Exec callStep
      ⟨((bareMachine memorySlots).memoryInit memoryBoot 0x700000).kernel, ∅⟩
      [.vmmMapPage 0x9F000 0x400000, .pmmAlloc] s := by
    refine ⟨_, .cons (.vmmMapPage (le_trans ?_ hst.room)) (.cons .pmmAlloc .nil)⟩
    exact_mod_cast missingTables_le _ _
  exact ⟨s, hrun,
    memoryInit_account memory_booted memory_handover memory_belowGib (by decide +kernel) hrun⟩

end Runs

end BambooOS
