import BambooOS.Memory.Init
import BambooOS.Vmm.Returned

/-!
# Memory.Run

The page map over whole runs after `memory_init`.

* `memoryInit_paging`: the state `memory_init` leaves behind is one between two calls, unless it
  mapped a whole GiB by one leaf.
* `CallOp.Spares`: the call changes no translation of the kernel image.
* `paging_step_kept`, `memoryInit_run`: every such call keeps the invariant and the image.
-/

namespace BambooOS

open ByteMem Radix Kernel

/-- No entry of the memory map and no part of the kernel image is mapped by a 1 GiB leaf. -/
def BelowGib (g : Globals) (bd : BootData) : Prop :=
  (∀ e ∈ bd.memmap, ∀ r, ¬ Whole (g.windowPage e.base) (e.length / 0x1000) r) ∧
    ∀ r, ¬ Whole (vpn bd.higherHalf.kernelStart) bd.higherHalf.kernelPages r

/-- The address whose translation a call sets, if any: `pmm_free` maps the window page. -/
def CallOp.target (k : Kernel) : CallOp → Option Nat
  | .pmmAlloc => none
  | .pmmFree page =>
    if k.vmmVirtToPhys page = uint64Max then none else some (k.virt (k.vmmVirtToPhys page))
  | .vmmMapPage _ virtualAddress => some virtualAddress
  | .vmmUnmapPage virtualAddress => some virtualAddress
  | .write _ => none

/-- The call sets no page of the kernel image. -/
def CallOp.Spares (info : HigherHalfInfo) (k : Kernel) (op : CallOp) : Prop :=
  ∀ v ∈ op.target k, ∀ j, j < info.kernelPages → vpn v ≠ vpn info.kernelStart + j

/-- The call neither gives the frame `f` back nor writes to it. -/
def CallOp.Leaves (k : Kernel) (f : Nat) : CallOp → Prop
  | .pmmFree page => k.vmmVirtToPhys page ≠ f
  | .write mem => ∀ x, pageOf x = f → mem x = k.mem x
  | _ => True

/-! ## One call -/

section Step

variable {root : Nat} {C C' : PageTree} {s s' : PmmState} {k' : Kernel}

/-- The two trees translate every page but that of `v` the same. -/
def KeptBut (C C' : PageTree) (v : Option Nat) : Prop :=
  ∀ r, r < 2 ^ 36 → (∀ x ∈ v, vpn x ≠ r) → PageTree.xlate C' r = PageTree.xlate C r

theorem KeptBut.refl (C : PageTree) (v : Option Nat) : KeptBut C C v := fun _ _ _ => rfl

theorem Updated.keptBut {v : Nat} {o : Option Nat} (h : Updated C (v / 0x1000) o C') :
    KeptBut C C' (some v) := by
  intro r hr hne
  rw [h.xlate, if_neg]
  rw [sameBlock_zero, Nat.mod_eq_of_lt hr]
  intro heq
  exact hne v rfl heq.symm

theorem Updated.at {v : Nat} {o : Option Nat} (h : Updated C (v / 0x1000) o C') :
    PageTree.xlate C' (vpn v) = o := by
  rw [h.xlate, if_pos]
  rw [sameBlock_zero, vpn, Nat.mod_mod]

/-- What a call leaves alone. -/
structure CallKept (C C' : PageTree) (s : PmmState) (op : CallOp) (s' : PmmState) : Prop where
  xlate : KeptBut C C' (op.target s.kernel)
  globals : s'.kernel.toGlobals = s.kernel.toGlobals
  held : ∀ f ∈ s.held, op.Leaves s.kernel f → f ∈ s'.held
  mem : ∀ f ∈ s.held, op.Leaves s.kernel f → ∀ x, pageOf x = f → s'.kernel.mem x = s.kernel.mem x
  freed : ∀ page f, op = .pmmFree page → s.kernel.vmmVirtToPhys page = f →
    PageTree.xlate C (f / 0x1000) = none →
    PageTree.xlate C' (vpn (s.kernel.virt f)) = PageTree.xlate C (vpn (s.kernel.virt f)) ∨
      PageTree.xlate C' (vpn (s.kernel.virt f)) = some f

/-- Nobody but their holders writes to the held frames. -/
theorem Paging.mem_held (h : Paging root C s)
    (hm : MemKept (PageTree.Territory C s.kernel) s.kernel k') {x : Nat} (hx : pageOf x ∈ s.held) :
    k'.mem x = s.kernel.mem x := by
  obtain ⟨_, _, hbit, hfree, hC⟩ := h.held_frame hx
  refine hm x ?_
  rintro ((hx | hx) | hx)
  · exact hC hx
  · exact hfree hx
  · exact hbit hx

theorem Paging.mapPage_step (h : Paging root C s) {pa va : Nat}
    (hs : (s.kernel.vmmMapPage pa va).Supplied) :
    ∃ C', Paging root C' ⟨s.kernel.vmmMapPage pa va, s.held⟩ ∧
      Step root s.kernel C (s.kernel.vmmMapPage pa va) C' ∧
      Updated C (va / 0x1000) (some (vmmPtEntryGetAddress (s.kernel.convertPhys pa))) C' := by
  have hno := h.small.no_huge (va / 0x1000)
  rw [vmmMapPage, h.pml4] at hs ⊢
  obtain ⟨C', hst, hup⟩ := vmmMapPagePml4_spec h.owned h.small.fits hno (by decide) hs
  exact ⟨C', h.step hst (hup.small h.small)
    (vmmMapPagePml4_tallied h.owned h.small.fits hno hs h.tallied) hs, hst, hup⟩

theorem Paging.mapPage_supplied (h : Paging root C s) {pa va : Nat}
    (hroom : (s.kernel.missingTables va : ℕ∞) ≤ s.kernel.Free.encard) :
    (s.kernel.vmmMapPage pa va).Supplied := by
  rw [vmmMapPage, h.pml4, vmmMapPagePml4_eq]
  exact (descend_supplied h.owned h.pml4 (h.small.no_huge (va / 0x1000)) (h.stocked hroom)).st64 _ _

/-- A call keeps the invariant, the translation of every page it does not set, and the held frames
with all their bytes. -/
theorem paging_step_kept {op : CallOp} (h : Paging root C s) (hs : callStep s op s') :
    ∃ C', Paging root C' s' ∧ CallKept C C' s op s' := by
  cases hs with
  | pmmAlloc =>
    refine ⟨C, h.alloc, KeptBut.refl _ _, pmmAllocPhys_toGlobals _, ?_, ?_, fun _ _ he => by cases he⟩
    · intro f hf _
      dsimp only
      split
      · exact hf
      · exact .inr hf
    · have hkept : MemKept (PageTree.Territory C s.kernel) s.kernel
          s.kernel.pmmAllocPhys.2.restart := by
        rcases pmmAllocPhys_cases h.pmmOk with ⟨_, he⟩ | ⟨i, hi, _, _, he⟩
        · rw [he]
          exact MemKept.refl _ _
        · rw [he]
          exact (set_memKept h.pmmOk hi true).mono Set.subset_union_right
      rintro f hf _ x rfl
      exact h.mem_held hkept hf
  | @pmmFree page f hpage hf hown hroom =>
    have hheld : ∀ g ∈ s.held, (CallOp.pmmFree page).Leaves s.kernel g → g ∈ s.held \ {f} := by
      intro g hg hne
      refine ⟨hg, ?_⟩
      rintro rfl
      exact hne hf
    by_cases hno : f = uint64Max ∨ f ∈ s.kernel.Bitmap
    · have hno' : f = uint64Max ∨ pageOf f ∈ s.kernel.Bitmap := by
        refine hno.imp_right fun hb => ?_
        rwa [pageOf_self (h.pmmOk.bitmap_aligned hb)]
      rw [pmmFree_refused h.owned.ok hf hno']
      exact ⟨C, h.restart.subset Set.sdiff_subset, KeptBut.refl _ _, rfl, hheld,
        fun _ _ _ _ _ => rfl, fun _ _ _ _ _ => .inl rfl⟩
    · rw [not_or] at hno
      obtain ⟨hne, hbit⟩ := hno
      obtain ⟨hal, hlt⟩ := hf ▸ h.phys_page hpage (hf ▸ hne)
      have hr := h.released hal hbit fun hu => (hown hu).resolve_left hbit
      have hsup : ((s.kernel.released f).vmmMapPage f (s.kernel.virt f)).Supplied := by
        exact hr.mapPage_supplied (hroom hne hbit)
      obtain ⟨C', h', hst, hup⟩ := hr.mapPage_step hsup
      have heq := h.free_eq hal hf hne hbit
      rw [← heq] at h' hst
      have hpage' : pageOf f = f := pageOf_self hal
      refine ⟨C', h'.restart, ?_, pmmFree_later _ _ |>.1, hheld, ?_, ?_⟩
      · rw [CallOp.target, hf, if_neg hne]
        exact hup.keptBut
      · rintro g hg hleave x rfl
        have hkept := hr.mem_held hst.within.kept (hheld _ hg hleave)
        refine Eq.trans hkept ?_
        obtain ⟨_, _, hkept', _⟩ := release_spec h.pmmOk h.owned.held f (by rwa [hpage'])
        exact hkept' x (h.held_frame hg).2.2.1
      · -- the frame's address is not translated, so it is mapped as it is
        rintro _ _ ⟨⟩ hf' hx
        obtain rfl := hf.symm.trans hf'
        have hphys : (s.kernel.released f).vmmVirtToPhys f = uint64Max := by
          rw [vmmVirtToPhys_aligned hr.owned.ok hr.owned.stored hr.pml4 hal, hx]
          rfl
        have hat := hup.at
        rw [convertPhys, hphys, if_neg (not_not.mpr rfl), getAddress_of_aligned hal hlt] at hat
        exact .inr hat
  | vmmMapPage hroom =>
    obtain ⟨C', h', hst, hup⟩ := h.mapPage_step (h.mapPage_supplied hroom)
    refine ⟨C', h'.restart, hup.keptBut, hst.within.globals, fun _ hg _ => hg, ?_,
      fun _ _ he => by cases he⟩
    rintro g hg _ x rfl
    exact h.mem_held hst.within.kept hg
  | @vmmUnmapPage va hroom =>
    have hno := h.small.no_huge (va / 0x1000)
    have hs : (s.kernel.vmmUnmapPage va).Supplied := by
      rw [vmmUnmapPage_eq, h.pml4]
      exact (descend_supplied h.owned h.pml4 hno (h.stocked hroom)).st64 _ _
    obtain ⟨C', hst, hup⟩ := vmmUnmapPage_spec h.owned h.pml4 h.small.fits hno hs
    have h' := h.step hst (hup.small h.small)
      (vmmUnmapPage_tallied h.owned h.pml4 h.small.fits hno hs h.tallied) hs
    refine ⟨C', h'.restart, hup.keptBut, hst.within.globals, fun _ hg _ => hg, ?_,
      fun _ _ he => by cases he⟩
    rintro g hg _ x rfl
    exact h.mem_held hst.within.kept hg
  | write hm =>
    refine ⟨C, h.congr rfl rfl h.supplied fun x hx => ?_, KeptBut.refl _ _, rfl, fun _ hg _ => hg,
      fun _ _ hleave => hleave, fun _ _ he => by cases he⟩
    exact hm x (hx.imp_right fun hx => h.tables hx)

end Step

/-! ## Runs -/

section Runs

variable {k : Kernel} {bd : BootData} {cr3 : Nat} {C : PageTree} {s : PmmState}

theorem switched_counted {p : Nat} (h : k.Counted) : ({ k with pml4 := p } : Kernel).Counted := by
  simpa only [Counted, allocated, Globals.pmmGetAddressByIndex, pmmIsUsablePageAllocatedByIndex,
    Globals.pmmPhysToVirt, ld8, Globals.phys] using h

/-- The tree `T` that `memory_init` switches to, beside the bootloader's `C`. -/
structure Switched (k : Kernel) (bd : BootData) (C : PageTree) (m : MemoryInit) (T : PageTree) :
    Prop where
  paging : Paging m.cr3 T ⟨m.kernel, ∅⟩
  hhdm : m.kernel.hhdm = k.hhdm
  memmap : m.kernel.memmapEntries = bd.memmap
  image : ∀ j, j < bd.higherHalf.kernelPages → PageTree.xlate T (vpn bd.higherHalf.kernelStart + j) =
    PageTree.xlate C (vpn bd.higherHalf.kernelStart + j)
  window : ∀ f, Usable bd.memmap f → f % 0x1000 = 0 → PageTree.xlate T (vpn (k.virt f)) = some f
  lower : ∀ q, q < 2 ^ 35 → PageTree.xlate T q = none

theorem Built.lower {root : Nat} {F : Set Nat} {g : Globals} {T C' : PageTree} {k₂ : Kernel}
    (hb : Built root cr3 F g C bd k₂ T C') (hk : Handover k bd C)
    (hpos : 0 < usablePages bd.memmap) (hg : g.hhdm = k.hhdm) (hal : k.hhdm % 0x1000 = 0) {q : Nat}
    (hq : q < 2 ^ 35) : PageTree.xlate T q = none := by
  obtain ⟨hv, hstart, hrange⟩ := hk.kernel_vpn hpos
  have hu := hk.upper
  have hpage : ∀ e ∈ bd.memmap, 2 ^ 35 ≤ g.windowPage e.base := by
    intro e he
    have := hk.top e he
    rw [windowPage_eq (by rw [hg]; exact hu) (by rw [hg]; exact hal) (by omega), hg]
    omega
  cases hx : PageTree.xlate T q with
  | none => rfl
  | some a =>
    rcases hb.rest q (by omega) a hx with ⟨e, he, _, j, _, hr⟩ | ⟨h₁, _⟩ | ⟨e, he, _, _, hr, _⟩
    · have := hpage e he
      omega
    · omega
    · have := hpage e he
      omega

theorem Built.window {root : Nat} {F : Set Nat} {g : Globals} {T C' : PageTree} {k₂ : Kernel}
    (hb : Built root cr3 F g C bd k₂ T C') (hk : Handover k bd C) (hm : MemmapOk bd.memmap)
    (hg : g.hhdm = k.hhdm) (hal : k.hhdm % 0x1000 = 0) {f : Nat} (hf : Usable bd.memmap f)
    (hfal : f % 0x1000 = 0) : PageTree.xlate T (vpn (k.virt f)) = some f := by
  obtain ⟨e, he, hmap, h₁, h₂⟩ := usable_wholePage hm hf
  have htop := hk.top e he
  have hu := hk.upper
  have hd := hb.done e he hmap (f / 0x1000 - e.base / 0x1000) (by omega)
  rw [windowPage_eq (by rw [hg]; exact hu) (by rw [hg]; exact hal) (by omega), hg] at hd
  have hv := windowPage_eq (g := k.toGlobals) hu hal (a := f) (by omega)
  rw [Globals.windowPage] at hv
  rw [hv, show k.hhdm / 0x1000 - (2 ^ 52 - 2 ^ 36) + f / 0x1000 =
    k.hhdm / 0x1000 - (2 ^ 52 - 2 ^ 36) + e.base / 0x1000 + (f / 0x1000 - e.base / 0x1000) by omega,
    hd, Option.some.injEq]
  simp only [pageOf]
  omega

/-- The state `memory_init` leaves behind. -/
theorem memoryInit_paging (h : Booted k bd cr3 C) (hk : Handover k bd C) (hg : BelowGib k.toGlobals bd)
    (hroom : memoryFrames bd ≤
      usablePages bd.memmap - (usablePages bd.memmap / (0x1000 * 8) + 1)) :
    ∃ T, Switched k bd C (k.memoryInit bd cr3) T := by
  obtain ⟨hcr3, hkern⟩ := memoryInit_state k bd cr3
  have hst : (imageDone k bd cr3).Stocked 0 := imageDone_stocked h hk
    ((vmmStart_stocked h).mono (by rw [Nat.zero_add]; exact hroom))
  obtain ⟨root, T, C', hmem, hptr, hb⟩ := imageDone_built h hk hst.supplied
  rw [hptr] at hcr3 hkern
  have hp := paging_start h
  obtain ⟨hhdm, hmap⟩ := vmmStart_globals h
  generalize imageDone k bd cr3 = k₂ at hb hcr3 hkern hst
  generalize vmmStart k bd cr3 = s₀ at hb hmem hp hhdm hmap
  have hroot := free_aligned hp.pmmOk hmem
  have husable : Usable bd.memmap root := by
    rw [← hmap]
    exact free_usable hp.pmmOk hmem
  have hhdm₂ : k₂.hhdm = k.hhdm := by rw [hb.globals, hhdm]
  have hmap₂ : k₂.memmapEntries = bd.memmap := by rw [hb.globals, hmap]
  have hcr3 : (k.memoryInit bd cr3).cr3 = root := by
    have hal := h.window
    have hv : k₂.virt root % 0x1000 = 0 := by
      rw [Globals.virt, hhdm₂]
      omega
    rw [hcr3, vmmVirtToPhys_aligned hb.ready.current.ok hb.ready.current.stored hb.ready.pml4 hv,
      hb.same, virt_hhdm hhdm₂, hk.window root husable hroot]
    rfl
  have hsmall : SmallLeaves T := by
    refine ⟨hb.fits, ?_⟩
    rintro q ⟨e, hf⟩
    have hmod : PageTree.Huge T (q % 2 ^ 36) := by
      refine ⟨e, ?_⟩
      rw [← hf]
      exact Tree.find_congr fun j hj => path_mod (by omega)
    rcases hb.huge _ (Nat.mod_lt _ (by norm_num)) hmod with ⟨e', he', _, hw⟩ | hw
    · rw [Globals.windowPage, virt_hhdm hhdm] at hw
      exact hg.1 e' he' _ hw
    · exact hg.2 _ hw
  refine ⟨T, ?_, by rw [hkern]; exact hhdm₂, by rw [hkern]; exact hmap₂, hb.image,
    fun f => hb.window hk h.map hhdm h.window, fun q => hb.lower hk h.pos hhdm h.window⟩
  rw [hcr3, hkern]
  refine ⟨owned_pml4 hb.ready.tree _, (virt_pml4 k₂ _ root).symm, hsmall,
    switched_counted hb.tallied.counted, hst.supplied, ?_, ?_, Set.disjoint_empty _, ?_⟩
  · change ¬ Usable k₂.memmapEntries 0
    rw [hmap₂]
    exact h.zero
  · change k₂.hhdm % 0x1000 = 0
    rw [hhdm₂]
    exact h.window
  · intro f hf
    exact absurd hf (Set.notMem_empty f)

/-- From `memory_init` on, over any run of calls that spare the kernel image: the tables, the
bitmap and the frames handed out stay apart, the counter is the number of set bits, and every page of
the image translates as the bootloader had it. -/
theorem memoryInit_run {ops : List CallOp} (h : Booted k bd cr3 C) (hk : Handover k bd C)
    (hg : BelowGib k.toGlobals bd)
    (hroom : memoryFrames bd ≤
      usablePages bd.memmap - (usablePages bd.memmap / (0x1000 * 8) + 1))
    (hrun : Run.Exec (fun s op s' => callStep s op s' ∧ op.Spares bd.higherHalf s.kernel)
      ⟨(k.memoryInit bd cr3).kernel, ∅⟩ ops s) :
    (∃ T, Paging (k.memoryInit bd cr3).cr3 T s) ∧ ∀ j, j < bd.higherHalf.kernelPages →
      s.kernel.vmmVirtToPhys (bd.higherHalf.kernelStart + j * 0x1000) =
        (vmmStart k bd cr3).kernel.vmmVirtToPhys (bd.higherHalf.kernelStart + j * 0x1000) := by
  have hp₀ := paging_start h
  obtain ⟨T₀, hsw⟩ := memoryInit_paging h hk hg hroom
  obtain ⟨_, _, hrange⟩ := hk.kernel_vpn h.pos
  have hinv := hrun.inv (I := fun s => ∃ T, Paging (k.memoryInit bd cr3).cr3 T s ∧
    ∀ j, j < bd.higherHalf.kernelPages → PageTree.xlate T (vpn bd.higherHalf.kernelStart + j) =
      PageTree.xlate C (vpn bd.higherHalf.kernelStart + j)) ?_ ⟨T₀, hsw.paging, hsw.image⟩
  · obtain ⟨T, hp, himage⟩ := hinv
    refine ⟨⟨T, hp⟩, fun j hj => ?_⟩
    have hal : (bd.higherHalf.kernelStart + j * 0x1000) % 0x1000 = 0 := by
      have := hk.start
      omega
    have hx : ∀ {root t T}, Paging root T t →
        t.kernel.vmmVirtToPhys (bd.higherHalf.kernelStart + j * 0x1000) =
          (PageTree.xlate T (vpn bd.higherHalf.kernelStart + j)).getD uint64Max := by
      intro root t T ht
      rw [vmmVirtToPhys_aligned ht.owned.ok ht.owned.stored ht.pml4 hal, ← vpn_add hrange hj, vpn,
        xlate_mod]
    rw [hx hp, hx hp₀, himage j hj]
  · rintro t op t' ⟨T, hp, himage⟩ ⟨hstep, hspare⟩
    obtain ⟨T', hp', hkept, _⟩ := paging_step_kept hp hstep
    refine ⟨T', hp', fun j hj => ?_⟩
    rw [hkept _ (by omega) (fun v hv => hspare v hv j hj), himage j hj]

theorem memoryInit_stocked {m : Nat} (h : Booted k bd cr3 C) (hk : Handover k bd C)
    (hroom : m + memoryFrames bd ≤
      usablePages bd.memmap - (usablePages bd.memmap / (0x1000 * 8) + 1)) :
    (k.memoryInit bd cr3).kernel.Stocked m := by
  have hst : (imageDone k bd cr3).Stocked m :=
    imageDone_stocked h hk ((vmmStart_stocked h).mono hroom)
  rw [(memoryInit_state k bd cr3).2]
  exact hst.of_free hst.supplied (switched_free _ _)

theorem Kernel.Stocked.room {n : Nat} (h : k.Stocked n) : (n : ℕ∞) ≤ k.Free.encard := by
  obtain ⟨_, _, t, hcard, hsub⟩ := h
  calc (n : ℕ∞) ≤ t.card := by exact_mod_cast hcard
    _ = (↑t : Set Nat).encard := (Set.encard_coe_eq_coe_finsetCard t).symm
    _ ≤ k.Free.encard := Set.encard_le_encard hsub

end Runs

theorem memory_belowGib : BelowGib (bareMachine memorySlots).toGlobals memoryBoot := by
  constructor
  · have hlen : ∀ e ∈ memoryBoot.memmap, e.length ≤ 0x202000 := by decide
    intro e he r hw
    have := hlen e he
    obtain ⟨h₁, h₂⟩ := hw
    omega
  · rintro r ⟨h₁, h₂⟩
    have hn : memoryBoot.higherHalf.kernelPages = 1 := by decide
    omega

/-- The short-entry machine maps a page of the lower half, then hands a frame out. -/
theorem memoryInit_run_short : ∃ s,
    Run.Exec (fun s op s' => callStep s op s' ∧ op.Spares memoryBoot.higherHalf s.kernel)
      ⟨((bareMachine memorySlots).memoryInit memoryBoot 0x700000).kernel, ∅⟩
      [.vmmMapPage 0x9F000 0x400000, .pmmAlloc] s ∧
    (∃ T, Paging ((bareMachine memorySlots).memoryInit memoryBoot 0x700000).cr3 T s) ∧
    ∀ j, j < memoryBoot.higherHalf.kernelPages →
      s.kernel.vmmVirtToPhys (memoryBoot.higherHalf.kernelStart + j * 0x1000) =
        (vmmStart (bareMachine memorySlots) memoryBoot 0x700000).kernel.vmmVirtToPhys
          (memoryBoot.higherHalf.kernelStart + j * 0x1000) := by
  have hst : ((bareMachine memorySlots).memoryInit memoryBoot 0x700000).kernel.Stocked 3 :=
    memoryInit_stocked memory_booted memory_handover (by decide +kernel)
  have hspare : ∀ j, j < memoryBoot.higherHalf.kernelPages →
      vpn 0x400000 ≠ vpn memoryBoot.higherHalf.kernelStart + j := by decide +kernel
  obtain ⟨s, hrun⟩ : ∃ s,
      Run.Exec (fun s op s' => callStep s op s' ∧ op.Spares memoryBoot.higherHalf s.kernel)
        ⟨((bareMachine memorySlots).memoryInit memoryBoot 0x700000).kernel, ∅⟩
        [.vmmMapPage 0x9F000 0x400000, .pmmAlloc] s := by
    refine ⟨_, .cons ⟨.vmmMapPage (le_trans ?_ hst.room), ?_⟩ (.cons ⟨.pmmAlloc, ?_⟩ .nil)⟩
    · exact_mod_cast missingTables_le _ _
    · intro v hv
      cases hv
      exact hspare
    · intro v hv
      cases hv
  exact ⟨s, hrun, memoryInit_run memory_booted memory_handover memory_belowGib (by decide +kernel) hrun⟩

end BambooOS
