import BambooOS.Heap.Machine

/-!
# Memory.Test

`test_vmm` of `test.c`, which `kernel_init` runs once the heap is up: it maps a page a second time,
reads it there, and takes the mapping away again.

* `Stage`: the state between two of its calls, with the frames left in stock.
* `testVmm_spec`: both checks pass, every translation is as before, and the page is free again.
* `testVmm_passes`: so it goes in every state of every run after `heap_init`.
-/

namespace BambooOS

open ByteMem Radix Kernel

def vmmTestMapTo : Nat := 0x10000

def vmmTestConstant : Nat := 0xDEADBEEF

/-- How `test_vmm` ends: past all checks, in one of its two hangs, or on a page fault. -/
inductive VmmTest where
  | success
  | mapPageFailed
  | virtToPhysFailed
  | pageFault
  deriving DecidableEq, Repr

namespace Kernel

/-- Where the processor finds the byte at `v`. -/
def access (k : Kernel) (v : Nat) : Option Nat :=
  (hardwareWalk k.rd (v / 0x1000) 4 (k.phys k.pml4)).map fun m => leafFrame m.1 m.2 + v % leafSize m.1

/-- `test_vmm`, without the lines it prints. -/
def testVmm (k : Kernel) : VmmTest × Kernel :=
  let (virtPageAllocated, k) := k.pmmAlloc
  let physPageAllocated := k.vmmVirtToPhys virtPageAllocated
  let k := k.st64 virtPageAllocated vmmTestConstant
  let k := k.vmmMapPage virtPageAllocated vmmTestMapTo
  match k.access vmmTestMapTo with
  | none => (.pageFault, k)
  | some test =>
    if load k.mem test 8 = vmmTestConstant then
      if physPageAllocated = k.vmmVirtToPhys vmmTestMapTo then
        let k := k.vmmUnmapPage vmmTestMapTo
        let k := k.vmmMapPage physPageAllocated virtPageAllocated
        (.success, k.pmmFree virtPageAllocated)
      else (.virtToPhysFailed, k)
    else (.mapPageFailed, k)

end Kernel

/-! ## The calls -/

/-- Between two calls, with `n` frames in stock. -/
structure Stage (g : Globals) (root : Nat) (C : PageTree) (held : Set Nat) (n : Nat) (k : Kernel) :
    Prop where
  paging : Paging root C ⟨k, held⟩
  stocked : k.Stocked n
  globals : k.toGlobals = g

section Stage

variable {g : Globals} {root n f : Nat} {C : PageTree} {held : Set Nat} {k : Kernel}

theorem Stage.frame (h : Stage g root C held n k) (hf : f ∈ held) :
    f % 0x1000 = 0 ∧ f < 2 ^ 52 ∧ f ∉ k.Bitmap ∧ f ∉ C.frames fmt.base := by
  obtain ⟨hal, hu, hbit, _, hC⟩ := h.paging.held_frame hf
  have hlt := hu.lt h.paging.pmmOk.map
  exact ⟨hal, by omega, hbit, hC⟩

theorem Stage.alloc (h : Stage g root C held (n + 1) k) : ∃ f, k.pmmAlloc.1 = g.virt f ∧
    f ∉ held ∧ Usable k.memmapEntries f ∧ Stage g root C (insert f held) n k.pmmAlloc.2 ∧
    MemKept k.Bitmap k k.pmmAlloc.2 := by
  have hk := h.paging.pmmOk
  obtain ⟨hs, h0, t, hcard, hsub⟩ := h.stocked
  obtain ⟨a, ha⟩ := Finset.card_pos.mp (show 0 < t.card by omega)
  have hne : k.Free.Nonempty := ⟨a, hsub ha⟩
  obtain ⟨f, hf, hptr, hg, hfree, hb, hkept⟩ := pmmAlloc_spec hk h.paging.owned.held hne
  have hO : Owned k.pmmAlloc.2 root C :=
    h.paging.owned.of_bitmap hg hb hkept (by rw [hfree]; exact Set.sdiff_subset)
  have hc : k.pmmAlloc.2.Counted := pmmAllocPhys_counted hk h.paging.counted
  have hsup : k.pmmAlloc.2.Supplied := by
    have hz := h.stocked.supplied_alloc hk
    simpa [Supplied, pmmAllocz, Kernel.memset] using hz
  refine ⟨f, by rw [hptr, h.globals], ?_, free_usable hk hf,
    ⟨?_, h.stocked.take hsup hfree, hg.trans h.globals⟩, hkept⟩
  · exact fun hx => (h.paging.held_frame hx).2.2.2.1 hf
  · refine h.paging.of_owned hO hg hc hsup ?_
    rw [hfree]
    rintro x (rfl | hx)
    · exact ⟨free_aligned hk hf, free_usable hk hf, free_not_bitmap hk h.paging.owned.held hf,
        fun hx => hx.2 rfl, Set.disjoint_right.mp h.paging.owned.free hf⟩
    · obtain ⟨h₁, h₂, h₃, h₄, h₅⟩ := h.paging.held_frame hx
      exact ⟨h₁, h₂, h₃, fun hx => h₄ hx.1, h₅⟩

theorem Stage.store (h : Stage g root C held n k) (hf : f ∈ held) {v : Nat} (hv : v < 2 ^ 64) :
    Stage g root C held n (k.st64 (g.virt f) v) ∧ load (k.st64 (g.virt f) v).mem f 8 = v ∧
      MemKept {f} k (k.st64 (g.virt f) v) := by
  obtain ⟨hal, hlt, hbit, hC⟩ := h.frame hf
  have hk := h.paging.pmmOk
  have hptr : g.virt f = k.virt f + 8 * (0 : Fin 512).val := by
    rw [← h.globals]
    rfl
  rw [hptr]
  have hkept := st64_slot_kept hk.hhdm_lt hlt 0 hal v
  have hg := st64_toGlobals k (k.virt f + 8 * (0 : Fin 512).val) v
  have hsup := h.stocked.supplied.st64 (k.virt f + 8 * (0 : Fin 512).val) v
  refine ⟨⟨h.paging.congr hg rfl hsup fun x hx => hkept x ?_, ?_, hg.trans h.globals⟩, ?_, hkept⟩
  · rintro rfl
    rcases hx with hx | hx
    · exact hbit hx
    · exact hC hx
  · refine h.stocked.of_free hsup (free_congr hk hg fun x hx => hkept x ?_)
    rintro rfl
    exact hbit hx
  · have hrd := st64_slot_rd hk.hhdm_lt hlt 0 hal hv hal 0
    rw [if_pos ⟨rfl, rfl⟩] at hrd
    exact hrd

theorem Stage.mapPage (h : Stage g root C held (n + 5) k) (pa va : Nat) : ∃ C',
    Stage g root C' held n (k.vmmMapPage pa va) ∧
    Updated C (va / 0x1000) (some (vmmPtEntryGetAddress (k.convertPhys pa))) C' ∧
    (∃ e, C'.find (path (va / 0x1000)) 4 = some (0, e)) ∧
    ∀ x, pageOf x ∈ held → (k.vmmMapPage pa va).mem x = k.mem x := by
  have hno := h.paging.small.no_huge (va / 0x1000)
  have hpml4 : k.pml4 = k.virt root := h.paging.pml4
  have hst : (k.vmmMapPage pa va).Stocked n := by
    rw [vmmMapPage, hpml4]
    exact vmmMapPagePml4_stocked h.paging.owned h.paging.small.fits hno (by decide) h.stocked
  have hs := hst.supplied
  rw [vmmMapPage, hpml4] at hs
  obtain ⟨T, t, hop, hget, _, hstep⟩ :=
    vmmMapPagePml4_put h.paging.owned h.paging.small.fits hno (by decide) hs
  have hup : Updated C (va / 0x1000) (some (vmmPtEntryGetAddress (k.convertPhys pa)))
      (T.put (path (va / 0x1000)) 4 4 (.leaf (k.pageEntry pa ptEntryReadWrite))) :=
    pageEntry_address k pa (show ptEntryReadWrite < 2 ^ 12 by decide) ▸
      updated_leaf hop.toSplit hget
  have hpag := h.paging.step hstep (hup.small h.paging.small)
    (vmmMapPagePml4_tallied h.paging.owned h.paging.small.fits hno hs h.paging.tallied) hs
  rw [← hpml4, ← vmmMapPage] at hstep hpag
  refine ⟨_, ⟨hpag, hst, hstep.within.globals.trans h.globals⟩, hup,
    ⟨k.pageEntry pa ptEntryReadWrite, ?_⟩, fun x hx => h.paging.mem_held hstep.within.kept hx⟩
  exact Tree.find_put_same (Nat.le_refl 4) hget fun _ _ _ => rfl

theorem Stage.unmapPage (h : Stage g root C held (n + 5) k) (va : Nat) : ∃ C',
    Stage g root C' held n (k.vmmUnmapPage va) ∧ Updated C (va / 0x1000) none C' ∧
    ∀ x, pageOf x ∈ held → (k.vmmUnmapPage va).mem x = k.mem x := by
  have hno := h.paging.small.no_huge (va / 0x1000)
  have hfit := h.paging.small.fits
  have hO := h.paging.owned
  have hst : (k.vmmUnmapPage va).Stocked n := by
    rw [vmmUnmapPage_eq, show k.pml4 = k.virt root from h.paging.pml4]
    exact descend_store_stocked hO hfit hno (by decide) h.stocked
  obtain ⟨C', hstep, hup⟩ := vmmUnmapPage_spec hO h.paging.pml4 hfit hno hst.supplied
  have hpag := h.paging.step hstep (hup.small h.paging.small)
    (vmmUnmapPage_tallied hO h.paging.pml4 hfit hno hst.supplied h.paging.tallied) hst.supplied
  exact ⟨C', ⟨hpag, hst, hstep.within.globals.trans h.globals⟩, hup,
    fun x hx => h.paging.mem_held hstep.within.kept hx⟩

theorem Stage.free (h : Stage g root C (insert f held) (n + 5) k) (hnew : f ∉ held)
    (hwin : k.vmmVirtToPhys (g.virt f) = f) (hlow : PageTree.xlate C (f / 0x1000) = none) : ∃ C',
    Stage g root C' held n (k.pmmFree (g.virt f)) ∧
    Updated C (g.virt f / 0x1000) (some f) C' ∧
    ∀ x, pageOf x ∈ held → (k.pmmFree (g.virt f)).mem x = k.mem x := by
  obtain ⟨hal, hlt, hbit, _⟩ := h.frame (.inl rfl)
  have hne : f ≠ uint64Max := by
    simp only [uint64Max]
    omega
  have hg₁ : (k.released f).toGlobals = k.toGlobals := released_toGlobals k f
  have hr : Paging root C ⟨k.released f, insert f held \ {f}⟩ :=
    h.paging.released hal hbit fun _ => .inl (.inl rfl)
  have hheld : insert f held \ {f} = held := by
    ext x
    constructor
    · rintro ⟨rfl | hx, hne⟩
      · exact absurd rfl hne
      · exact hx
    · intro hx
      exact ⟨.inr hx, fun heq => hnew (heq ▸ hx)⟩
  rw [hheld] at hr
  have hst : (k.released f).Stocked (n + 5) := by
    obtain ⟨hs, hz, t, hcard, hsub⟩ := h.stocked
    have hpage : pageOf f = f := pageOf_self hal
    obtain ⟨_, _, hfree⟩ := released_spec h.paging.owned (a := f)
      (by rw [hpage]; exact (h.frame (.inl rfl)).2.2.2) (by rwa [hpage])
    exact ⟨released_supplied hs, hr.zero_not_free, t, hcard, fun x hx => (hfree x).mpr (.inl (hsub hx))⟩
  have hstage : Stage g root C held (n + 5) (k.released f) := ⟨hr, hst, hg₁.trans h.globals⟩
  obtain ⟨C', h', hup, _, hmem⟩ := hstage.mapPage f (g.virt f)
  have hphys : (k.released f).vmmVirtToPhys f = uint64Max := by
    rw [vmmVirtToPhys_aligned hr.owned.ok hr.owned.stored hr.pml4 hal, hlow]
    rfl
  rw [convertPhys, hphys, if_neg (not_not.mpr rfl), getAddress_of_aligned hal hlt] at hup
  have heq : k.pmmFree (g.virt f) = (k.released f).vmmMapPage f (g.virt f) := by
    have heq := h.paging.free_eq hal hwin hne hbit
    rwa [show (⟨k, insert f held⟩ : PmmState).kernel.virt f = g.virt f by rw [h.globals]] at heq
  rw [heq]
  refine ⟨C', h', hup, fun x hx => (hmem x hx).trans ?_⟩
  obtain ⟨_, _, hkept, _⟩ := release_spec h.paging.pmmOk h.paging.owned.held f
    (by rw [pageOf_self hal]; exact hbit)
  exact hkept x (h.paging.held_frame (.inr hx)).2.2.1

end Stage

/-! ## The whole test -/

section Test

variable {g : Globals} {root n f : Nat} {C C' : PageTree} {held : Set Nat} {k : Kernel}

/-- The window and the lower half of the address space as `memory_init` leaves them. -/
structure Clean (g : Globals) (C : PageTree) : Prop where
  hhdm : g.hhdm % 0x1000 = 0
  below : ∀ f, Usable g.memmapEntries f → f / 0x1000 < 2 ^ 35
  window : ∀ f, Usable g.memmapEntries f → f % 0x1000 = 0 →
    PageTree.xlate C (vpn (g.virt f)) = some f
  lower : ∀ q, q < 2 ^ 35 → PageTree.xlate C q = none

theorem Stage.walk (h : Stage g root C held n k) {v : Nat} (hv : v % 0x1000 = 0) :
    k.vmmVirtToPhys v = (PageTree.xlate C (vpn v)).getD uint64Max := by
  rw [vmmVirtToPhys_aligned h.paging.owned.ok h.paging.owned.stored h.paging.pml4 hv, vpn, xlate_mod]

/-- The processor reads a page that `vmm_map_page` mapped in the frame it was mapped to. -/
theorem Stage.access (h : Stage g root C held n k) {v e : Nat} (hv : v % 0x1000 = 0)
    (hfind : C.find (path (v / 0x1000)) 4 = some (0, e))
    (hx : PageTree.xlate C (v / 0x1000) = some f) : k.access v = some f := by
  have hroot : k.phys k.pml4 = root := by
    rw [show k.pml4 = k.virt root from h.paging.pml4]
    exact Globals.phys_virt h.paging.pmmOk.hhdm_lt (by have := h.paging.owned.stored.lt; omega)
  have hwalk : hardwareWalk k.rd (v / 0x1000) 4 root = some (0, e) :=
    (h.paging.owned.stored.hardwareWalk _).trans hfind
  rw [xlate_of_find hfind, Option.some.injEq, Nat.pow_zero, Nat.mod_one, Nat.zero_mul,
    Nat.add_zero] at hx
  rw [Kernel.access, hroot, hwalk, Option.map_some, leafFrame_zero, hx, leafSize, Nat.pow_zero,
    Nat.mul_one, hv, Nat.add_zero]

/-- The test passes, and changes no translation and no byte of a held frame. -/
theorem testVmm_spec (h : Stage g root C held (n + 21) k) (hc : Clean g C) :
    k.testVmm.1 = .success ∧ ∃ C', Stage g root C' held n k.testVmm.2 ∧
      (∀ r, r < 2 ^ 36 → PageTree.xlate C' r = PageTree.xlate C r) ∧
      ∀ x, pageOf x ∈ held → k.testVmm.2.mem x = k.mem x := by
  have hha := hc.hhdm
  obtain ⟨f, hptr, hnew, hu, h₁, hk₁⟩ := Stage.alloc (n := n + 20) h
  rw [show k.memmapEntries = g.memmapEntries by rw [h.globals]] at hu
  obtain ⟨hal, hlt, _⟩ := h₁.frame (.inl rfl)
  have hlow := hc.below f hu
  have hwin := hc.window f hu hal
  have hval : g.virt f % 0x1000 = 0 := by
    rw [Globals.virt]
    omega
  have hmax : f ≠ uint64Max := by
    simp only [uint64Max]
    omega
  have hphys : k.pmmAlloc.2.vmmVirtToPhys (g.virt f) = f := by
    rw [h₁.walk hval, hwin, Option.getD_some]
  obtain ⟨h₂, hload, hk₂⟩ := h₁.store (.inl rfl) (show vmmTestConstant < 2 ^ 64 by decide)
  -- the second mapping
  obtain ⟨C₁, h₃, hup₁, ⟨e, hfind⟩, hk₃⟩ := Stage.mapPage (n := n + 15) h₂ (g.virt f) vmmTestMapTo
  rw [convertPhys, h₂.walk hval, hwin, Option.getD_some, if_pos hmax,
    getAddress_of_aligned hal hlt] at hup₁
  have htest : PageTree.xlate C₁ (vpn vmmTestMapTo) = some f := hup₁.at
  have haccess := h₃.access (show vmmTestMapTo % 0x1000 = 0 by decide) hfind htest
  have hread : load ((k.pmmAlloc.2.st64 (g.virt f) vmmTestConstant).vmmMapPage (g.virt f)
      vmmTestMapTo).mem f 8 = vmmTestConstant := by
    refine (load_congr fun x h₁ h₂ => hk₃ x (.inl ?_)).trans hload
    rw [pageOf]
    omega
  have hphys₁ := h₃.walk (show vmmTestMapTo % 0x1000 = 0 by decide)
  rw [htest, Option.getD_some] at hphys₁
  -- it is taken away, and the window page mapped again
  obtain ⟨C₂, h₄, hup₂, hk₄⟩ := Stage.unmapPage (n := n + 10) h₃ vmmTestMapTo
  have hx₂ : ∀ r, r < 2 ^ 36 → PageTree.xlate C₂ r = PageTree.xlate C r := by
    intro r hr
    by_cases hr₀ : vpn vmmTestMapTo = r
    · subst hr₀
      rw [hup₂.at, hc.lower _ (by decide)]
    · rw [hup₂.keptBut r hr fun _ hx => by cases hx; exact hr₀,
        hup₁.keptBut r hr fun _ hx => by cases hx; exact hr₀]
  obtain ⟨C₃, h₅, hup₃, _, hk₅⟩ := Stage.mapPage (n := n + 5) h₄ f (g.virt f)
  have hlow₂ : PageTree.xlate C₂ (vpn f) = none := by
    rw [hx₂ _ (vpn_lt f), vpn, Nat.mod_eq_of_lt (by omega)]
    exact hc.lower _ hlow
  rw [convertPhys, h₄.walk hal, hlow₂, Option.getD_none, if_neg (not_not.mpr rfl),
    getAddress_of_aligned hal hlt] at hup₃
  have hx₃ : ∀ r, r < 2 ^ 36 → PageTree.xlate C₃ r = PageTree.xlate C r := by
    intro r hr
    by_cases hr₀ : vpn (g.virt f) = r
    · subst hr₀
      rw [hup₃.at, hwin]
    · rw [hup₃.keptBut r hr fun _ hx => by cases hx; exact hr₀, hx₂ r hr]
  have hlow₃ : PageTree.xlate C₃ (f / 0x1000) = none := by
    rw [hx₃ _ (by omega)]
    exact hc.lower _ hlow
  have hphys₃ := h₅.walk hval
  rw [hx₃ _ (vpn_lt _), hwin, Option.getD_some] at hphys₃
  obtain ⟨C₄, h₆, hup₄, hk₆⟩ := h₅.free hnew hphys₃ hlow₃
  have hrun : k.testVmm = (.success, ((((k.pmmAlloc.2.st64 (g.virt f) vmmTestConstant).vmmMapPage
      (g.virt f) vmmTestMapTo).vmmUnmapPage vmmTestMapTo).vmmMapPage f (g.virt f)).pmmFree
        (g.virt f)) := by
    rw [Kernel.testVmm]
    generalize k.pmmAlloc = r at *
    obtain ⟨p, k₁⟩ := r
    simp only [] at *
    subst hptr
    rw [hphys, haccess]
    simp only []
    rw [if_pos hread, if_pos hphys₁.symm]
  rw [hrun]
  refine ⟨rfl, C₄, h₆, ?_, ?_⟩
  · intro r hr
    by_cases hr₀ : vpn (g.virt f) = r
    · subst hr₀
      rw [hup₄.at, hwin]
    · rw [hup₄.keptBut r hr fun _ hx => by cases hx; exact hr₀, hx₃ r hr]
  · intro x hx
    rw [hk₆ x hx, hk₅ x (.inr hx), hk₄ x (.inr hx), hk₃ x (.inr hx), hk₂ x, hk₁ x]
    · exact (h.paging.held_frame hx).2.2.1
    · rintro rfl
      exact hnew hx

/-- In every state of every run after `heap_init` the test passes, if there are frames for it, and
leaves the heap and every translation as they were. -/
theorem testVmm_passes {bd : BootData} {cr3 base : Nat} {h₀ : Heap} {m : Mem} {ops : List KernelOp}
    {s : KernelState} (h : Booted k bd cr3 C) (hk : Handover k bd C)
    (hg : BelowGib k.toGlobals bd)
    (hroom : 6 + memoryFrames bd ≤
      usablePages bd.memmap - (usablePages bd.memmap / (0x1000 * 8) + 1))
    (hinit : heapInit m base = .ok h₀) (hal : base % 0x1000 = 0)
    (hbelow : base + 0x1000 ≤ bd.higherHalf.kernelStart)
    (habove : ∀ e ∈ bd.memmap, k.hhdm + (e.base + e.length) ≤ base)
    (hrun : Run.Exec (kernelStep bd) (heapStart k bd cr3 h₀) ops s)
    (hfree : ((21 : Nat) : ℕ∞) ≤ s.kernel.Free.encard) :
    s.kernel.testVmm.1 = .success ∧
      HeapMapped (k.memoryInit bd cr3).cr3 { s with kernel := s.kernel.testVmm.2 } ∧
      ∀ v, v % 0x1000 = 0 → s.kernel.testVmm.2.vmmVirtToPhys v = s.kernel.vmmVirtToPhys v := by
  obtain ⟨g, C₀, hp, hinv⟩ := kernelInv_run h hk hg hroom hinit hal hbelow habove hrun
  have hstage : Stage g (k.memoryInit bd cr3).cr3 C₀ s.held (0 + 21) s.kernel :=
    ⟨hinv.paging, hinv.paging.stocked hfree, hinv.globals⟩
  have hclean : Clean g C₀ := by
    refine ⟨hp.hhdm, ?_, ?_, hinv.lower⟩
    · rw [hp.memmap]
      exact fun f hf => (hp.window hf).2.1
    · rw [hp.memmap]
      exact hinv.window
  obtain ⟨hpass, C', hstage', hx, hmem⟩ := testVmm_spec hstage hclean
  generalize s.kernel.testVmm = r at hpass hstage' hmem ⊢
  have hroom' := hinv.room
  rw [Heap.limit] at hroom'
  have hstop := hp.stop
  obtain ⟨hlow, hhigh⟩ := hp.vpn_base
  rw [← hinv.base_eq] at hp hhigh
  have hold : ∀ i, i < s.heap.size → PageTree.xlate C' (vpn s.heap.base + i) =
      PageTree.xlate C₀ (vpn s.heap.base + i) := by
    intro i hi
    have := (hp.page (page_room hroom' hi)).2
    exact hx _ (by omega)
  have hinv' : KernelInv bd g C (k.memoryInit bd cr3).cr3 s.heap.base C' { s with kernel := r.2 } := by
    refine ⟨⟨hstage'.paging, hstage'.globals, ?_, ?_, ?_, ?_, ?_⟩, rfl, hinv.room, ?_⟩
    · intro f hf hfal
      rw [hx _ (vpn_lt _)]
      exact hinv.window f hf hfal
    · intro q hq
      rw [hx q (by omega)]
      exact hinv.lower q hq
    · intro j hj
      rw [hx _ (by omega)]
      exact hinv.image j hj
    · intro i hi
      obtain ⟨f, hf, hxf⟩ := hinv.mapped i hi
      exact ⟨f, hf, (hold i hi).trans hxf⟩
    · intro i j f hi hj hxi hxj
      exact hinv.inj i j f hi hj ((hold i hi).symm.trans hxi) ((hold j hj).symm.trans hxj)
    · intro i hi f hxf x hxp
      have hxf' := (hold i hi).symm.trans hxf
      obtain ⟨f', hf', hxf''⟩ := hinv.mapped i hi
      rw [hxf', Option.some.injEq] at hxf''
      subst hxf''
      exact (hmem x (hxp ▸ hf')).trans (hinv.bytes i hi f hxf' x hxp)
  refine ⟨hpass, hinv'.heapMapped hp, fun v hv => ?_⟩
  rw [hstage'.walk hv, hstage.walk hv, hx _ (vpn_lt v)]

end Test

theorem Stage.restart {g : Globals} {root n : Nat} {C : PageTree} {held : Set Nat} {k : Kernel}
    (h : Stage g root C held n k) : Stage g root C held n k.restart :=
  ⟨h.paging.restart, h.stocked.of_free (restart_supplied k) (restart_free h.paging.pmmOk), h.globals⟩

/-- The short-entry machine, after its heap grew, a frame was handed out and a page mapped. -/
theorem testVmm_passes_short : ∃ h₀ s, heapInit (fun _ => 0) 0xFFFFFFF000000000 = .ok h₀ ∧
    Run.Exec (kernelStep memoryBoot) (heapStart (bareMachine memorySlots) memoryBoot 0x700000 h₀)
      [.heap (.malloc 0x2000), .call .pmmAlloc, .call (.vmmMapPage 0x9F000 0xFFFFFFF100000000)] s ∧
    s.kernel.testVmm.1 = .success ∧
    HeapMapped ((bareMachine memorySlots).memoryInit memoryBoot 0x700000).cr3
      { s with kernel := s.kernel.testVmm.2 } ∧
    ∀ v, v % 0x1000 = 0 → s.kernel.testVmm.2.vmmVirtToPhys v = s.kernel.vmmVirtToPhys v := by
  have hlow : ∀ e ∈ memoryBoot.memmap,
      (bareMachine memorySlots).hhdm + (e.base + e.length) ≤ 0xFFFFFFF000000000 := by decide
  obtain ⟨h₀, s₁, g, C, hinit, hgrow, hp, hinv, hsize, hst⟩ := memory_malloc
  have h₁ : Stage g ((bareMachine memorySlots).memoryInit memoryBoot 0x700000).cr3 C s₁.held
      (26 + 1) s₁.kernel := ⟨hinv.paging, hst, hinv.globals⟩
  obtain ⟨f, _, _, _, halloc, _⟩ := h₁.alloc
  obtain ⟨s₂, hs₂⟩ : ∃ s₂ : PmmState, s₂ = ⟨s₁.kernel.pmmAllocPhys.2.restart,
      if s₁.kernel.pmmAllocPhys.1 = 0 then s₁.held else insert s₁.kernel.pmmAllocPhys.1 s₁.held⟩ :=
    ⟨_, rfl⟩
  have h₂ : Stage g ((bareMachine memorySlots).memoryInit memoryBoot 0x700000).cr3 C s₂.held
      (21 + 5) s₂.kernel := by
    subst hs₂
    exact ⟨hinv.paging.alloc, halloc.restart.stocked, halloc.restart.globals⟩
  obtain ⟨C', h₃, _⟩ := h₂.mapPage 0x9F000 0xFFFFFFF100000000
  -- the page is nobody's
  have helse : KernelState.Elsewhere ⟨s₂, s₁.heap⟩ memoryBoot 0xFFFFFFF100000000 := by
    refine ⟨by decide +kernel, by decide +kernel, fun i hi => ?_, fun f hf _ => ?_⟩
    · have hroom := hinv.room
      rw [Heap.limit] at hroom
      obtain ⟨hpage, _⟩ := (hinv.base_eq.symm ▸ hp).page (page_room hroom hi)
      have hv : vpn 0xFFFFFFF100000000 = vpn 0xFFFFFFF000000000 + 0x100000 := by decide +kernel
      change vpn _ ≠ vpn (s₁.heap.base + i * 0x1000)
      rw [hpage, hinv.base_eq, hv]
      change i < s₁.heap.size at hi
      omega
    · obtain ⟨hlt, _⟩ := hp.window hf
      have hv : vpn 0xFFFFFFF000000000 < vpn 0xFFFFFFF100000000 := by decide +kernel
      rw [show (⟨s₂, s₁.heap⟩ : KernelState).kernel.virt f = g.virt f from
        congrArg (fun g => Globals.virt g f) h₂.globals]
      omega
  obtain ⟨s, hrun, hs⟩ : ∃ s, Run.Exec (kernelStep memoryBoot)
      (heapStart (bareMachine memorySlots) memoryBoot 0x700000 h₀)
      [.heap (.malloc 0x2000), .call .pmmAlloc, .call (.vmmMapPage 0x9F000 0xFFFFFFF100000000)] s ∧
      s.kernel = (s₂.kernel.vmmMapPage 0x9F000 0xFFFFFFF100000000).restart := by
    refine ⟨_, .cons hgrow (.cons (.call .pmmAlloc trivial) (.cons (.call (.vmmMapPage ?_) ?_) .nil)),
      ?_⟩
    · have hle := (missingTables_le s₂.kernel 0xFFFFFFF100000000).trans (show 3 ≤ 21 + 5 by decide)
      rw [← hs₂]
      exact (Nat.cast_le.mpr hle).trans h₂.stocked.room
    · rw [← hs₂]
      exact helse
    · rw [hs₂]
  refine ⟨h₀, s, hinit, hrun, testVmm_passes memory_booted memory_handover memory_belowGib
    (by decide +kernel) hinit (by decide) (by decide) hlow hrun ?_⟩
  rw [hs]
  exact h₃.restart.stocked.room

end BambooOS
