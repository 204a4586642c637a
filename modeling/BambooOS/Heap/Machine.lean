import BambooOS.Heap.Pages

/-!
# Heap.Machine

The heap on the machine: calls of the allocator beside calls of the page managers.

* `KernelState.grow`: what a call of the allocator leaves, past the pages of its `heap_extend`.
* `KernelInv`: the heap's pages are mapped to frames of their own, and its bytes are found there.
* `KernelInv.call`, `HeapPages.grow`: every call keeps it.
* `KernelInv.storeHeap_only`: a call of the allocator stores what it stored in the heap, no more.
* `heap_mapped_run`: so it holds after `memory_init`, `heap_init` and any run of calls.
-/

namespace BambooOS

open ByteMem Radix Kernel

/-! ## Heap and page map together -/

/-- The kernel between two calls: the frames handed out, and the heap. -/
structure KernelState extends PmmState where
  heap : Heap

namespace KernelState

/-- The frames under the heap. -/
def heapFrames (s : KernelState) : Set Nat :=
  {f | ∃ i < s.heap.size, s.kernel.vmmVirtToPhys (s.heap.base + i * 0x1000) = f}

/-- A page that is nobody's: not in the lower half, where physical addresses are looked up, not of
the kernel image, not of the heap and not in the window. -/
def Elsewhere (s : KernelState) (bd : BootData) (v : Nat) : Prop :=
  2 ^ 35 ≤ vpn v ∧ (∀ j, j < bd.higherHalf.kernelPages → vpn v ≠ vpn bd.higherHalf.kernelStart + j) ∧
    (∀ i, i < s.heap.size → vpn v ≠ vpn (s.heap.base + i * 0x1000)) ∧
    ∀ f, Usable bd.memmap f → f % 0x1000 = 0 → vpn v ≠ vpn (s.kernel.virt f)

/-- What the callers of the page managers leave to the heap. -/
def Allows (s : KernelState) (bd : BootData) : CallOp → Prop
  | .pmmAlloc => True
  | .pmmFree page =>
    let f := s.kernel.vmmVirtToPhys page
    f ∉ s.heapFrames ∧ (f = uint64Max ∨ Usable bd.memmap f ∨ s.Elsewhere bd (s.kernel.virt f))
  | .vmmMapPage _ virtualAddress => s.Elsewhere bd virtualAddress
  | .vmmUnmapPage virtualAddress => s.Elsewhere bd virtualAddress
  | .write mem => ∀ x, pageOf x ∈ s.heapFrames → mem x = s.kernel.mem x

/-- A call of the allocator that took its pages on the way to `k` leaves the heap `h`, whose bytes
are stored where the pages lie. -/
def grow (s : KernelState) (k : Kernel) (h : Heap) : KernelState where
  kernel := (k.storeHeap h).restart
  held := s.held ∪ {f | ∃ i < h.size, k.vmmVirtToPhys (h.base + i * 0x1000) = f}
  heap := h

end KernelState

inductive KernelOp where
  | call (op : CallOp)
  | heap (op : HeapOp)

/-- One call of the page managers or of the allocator. The heap stays below the kernel image, and
its extension is supplied with frames. -/
inductive kernelStep (bd : BootData) : KernelState → KernelOp → KernelState → Prop where
  | call {s : KernelState} {op : CallOp} {s' : PmmState} (h : callStep s.toPmmState op s')
      (hallow : s.Allows bd op) : kernelStep bd s (.call op) { toPmmState := s', heap := s.heap }
  | heap {s : KernelState} {op : HeapOp} {k' : Kernel} {h' : Heap}
      (h : heapStepPages s.kernel s.heap op = .ok (k', h')) (hs : k'.Supplied)
      (hroom : h'.limit ≤ bd.higherHalf.kernelStart) : kernelStep bd s (.heap op) (s.grow k' h')

/-! ## One step -/

/-- The invariant: the heap's pages are mapped, and its bytes are found through the page map. -/
structure KernelInv (bd : BootData) (g : Globals) (C₀ : PageTree) (root base : Nat) (C : PageTree)
    (s : KernelState) : Prop extends
    HeapPages bd g C₀ root s.heap.base s.heap.size C s.toPmmState where
  base_eq : s.heap.base = base
  room : s.heap.limit ≤ bd.higherHalf.kernelStart
  bytes : ∀ i < s.heap.size, ∀ f, PageTree.xlate C (vpn s.heap.base + i) = some f → ∀ x,
    pageOf x = f → s.kernel.mem x = s.heap.mem (s.heap.base + i * 0x1000 + x % 0x1000)

section Step

variable {bd : BootData} {g : Globals} {C₀ C : PageTree} {root base : Nat} {s s' : KernelState}

/-- The pages of the heap `heap`, which a call of the allocator leaves behind. -/
theorem HeapPages.extended {heap : Heap} {k₁ : Kernel} (hp : HeapPlace bd g heap.base)
    (h : HeapPages bd g C₀ root s.heap.base s.heap.size C s.toPmmState)
    (hext : Extends s.heap heap) (hroom : heap.limit ≤ bd.higherHalf.kernelStart)
    (hk₁ : s.kernel.heapPages s.heap.limit (heap.size - s.heap.size) = k₁) (hs : k₁.Supplied) :
    ∃ C' held, HeapPages bd g C₀ root heap.base heap.size C' ⟨k₁, held⟩ ∧ s.held ⊆ held ∧
      (∀ f ∈ held, f ∈ s.held ∨ ∃ i < heap.size, PageTree.xlate C' (vpn heap.base + i) = some f) ∧
      (∀ i, i < s.heap.size →
        PageTree.xlate C' (vpn heap.base + i) = PageTree.xlate C (vpn heap.base + i)) ∧
      (∀ x, pageOf x ∈ s.held → k₁.mem x = s.kernel.mem x) ∧
      ∀ i, s.heap.size ≤ i → i < heap.size →
        ∀ x, PageTree.xlate C' (vpn heap.base + i) = some (pageOf x) → k₁.mem x = 0#8 := by
  obtain ⟨hbase, hsize⟩ := hext
  have hn : s.heap.size + (heap.size - s.heap.size) = heap.size := by omega
  have hroom' : heap.base + (s.heap.size + (heap.size - s.heap.size)) * 0x1000 ≤
      bd.higherHalf.kernelStart := by
    rw [hn]
    exact hroom
  rw [← hbase] at h
  rw [Heap.limit, ← hbase] at hk₁
  have hpages := h.pages hp hroom' (hk₁ ▸ hs)
  rwa [hn, hk₁] at hpages

/-- A call of the allocator. -/
theorem HeapPages.grow {heap : Heap} {k₁ : Kernel} (hp : HeapPlace bd g heap.base)
    (h : HeapPages bd g C₀ root s.heap.base s.heap.size C s.toPmmState)
    (hext : Extends s.heap heap) (hroom : heap.limit ≤ bd.higherHalf.kernelStart)
    (hk₁ : s.kernel.heapPages s.heap.limit (heap.size - s.heap.size) = k₁) (hs : k₁.Supplied) :
    ∃ C', KernelInv bd g C₀ root heap.base C' (s.grow k₁ heap) ∧
      (s.grow k₁ heap).kernel.Free = k₁.Free := by
  obtain ⟨C', held, h', hsub, honly, _⟩ := h.extended hp hext hroom hk₁ hs
  obtain ⟨hin, hout⟩ := h'.stored hp hroom
  -- the frames the extension took are those of its pages
  have hheld : s.held ∪ {f | ∃ i < heap.size, k₁.vmmVirtToPhys (heap.base + i * 0x1000) = f} =
      held := by
    ext f
    constructor
    · rintro (hf | ⟨i, hi, rfl⟩)
      · exact hsub hf
      · obtain ⟨f, hf, _, hwalk⟩ := h'.walk hp hroom hi
        rw [hwalk]
        exact hf
    · intro hf
      rcases honly f hf with hf | ⟨i, hi, hx⟩
      · exact .inl hf
      · obtain ⟨f', _, hx', hwalk⟩ := h'.walk hp hroom hi
        rw [hx, Option.some.injEq] at hx'
        exact .inr ⟨i, hi, hwalk.trans hx'.symm⟩
  have hgrow : s.grow k₁ heap =
      { kernel := (k₁.storeHeap heap).restart, held := held, heap := heap } := by
    rw [KernelState.grow, hheld]
  have hkeep : ∀ x, pageOf x ∈ k₁.Bitmap ∪ C'.frames fmt.base →
      (k₁.storeHeap heap).mem x = k₁.mem x := by
    refine fun x hx => hout x fun hheld => ?_
    obtain ⟨_, _, hbit, _, hC⟩ := h'.paging.held_frame hheld
    rcases hx with hx | hx
    · exact hbit hx
    · exact hC hx
  have hpag : Paging root C' ⟨(k₁.storeHeap heap).restart, held⟩ :=
    h'.paging.congr rfl rfl (restart_supplied _) hkeep
  rw [hgrow]
  refine ⟨C', ⟨⟨hpag, h'.globals, h'.window, h'.lower, h'.image, h'.mapped, h'.inj⟩, rfl, hroom,
    hin⟩, free_congr h'.paging.pmmOk rfl fun x hx => hkeep x (.inl hx)⟩

/-- What a call stores into memory is what it stored in the heap, its new pages being zero. -/
theorem KernelInv.storeHeap_only {op : HeapOp} {k' : Kernel} {heap : Heap} {x : Nat}
    (hp : HeapPlace bd g base) (h : KernelInv bd g C₀ root base C s)
    (e : heapStepPages s.kernel s.heap op = .ok (k', heap)) (hs : k'.Supplied)
    (hroom : heap.limit ≤ bd.higherHalf.kernelStart)
    (hx : (k'.storeHeap heap).mem x ≠ k'.mem x) :
    ∃ i < heap.size, k'.vmmVirtToPhys (heap.base + i * 0x1000) = pageOf x ∧
      heap.mem (heap.base + i * 0x1000 + x % 0x1000) ≠
        (Heap.mapPage^[heap.size - s.heap.size] s.heap).mem
          (heap.base + i * 0x1000 + x % 0x1000) := by
  obtain ⟨hheap, hpages⟩ := heapStepPages_iff.mp e
  have hext := heapStep_extends hheap
  have hbase := hext.base
  have hsize := hext.size
  obtain rfl := hbase.trans h.base_eq
  obtain ⟨C', held, h', _, _, hsame, hkept, hzero⟩ :=
    h.toHeapPages.extended hp hext hroom hpages.symm hs
  rcases storeHeap_cases k' heap x with ⟨i, hi, hix, he⟩ | ⟨_, he⟩
  · obtain ⟨f, _, hxl, hwalk⟩ := h'.walk hp hroom hi
    obtain rfl := hwalk.symm.trans hix
    refine ⟨i, hi, hix, fun heq => hx (he.trans (heq.trans ?_))⟩
    have hmod := Nat.mod_lt x (show 0 < 0x1000 by decide)
    have hlimit : s.heap.limit = heap.base + s.heap.size * 0x1000 := by rw [Heap.limit, hbase]
    rw [(mapPage_iterate s.heap _).2, hlimit]
    by_cases hlt : i < s.heap.size
    · rw [if_neg (by omega)]
      rw [hsame i hlt, hbase] at hxl
      obtain ⟨f, hf, hxf⟩ := h.mapped i hlt
      obtain rfl := Option.some.inj (hxl.symm.trans hxf)
      rw [hkept x hf, h.bytes i hlt _ hxl x rfl, hbase]
    · rw [if_pos (by omega)]
      exact (hzero i (by omega) hi x hxl).symm
  · exact absurd he hx

/-- The page a call sets is the window page of the frame it gives back, or nobody's. -/
theorem KernelState.Allows.target {op : CallOp} {v : Nat} (hallow : s.Allows bd op)
    (hv : v ∈ op.target s.kernel) : (∃ page, op = .pmmFree page ∧
      Usable bd.memmap (s.kernel.vmmVirtToPhys page) ∧
      v = s.kernel.virt (s.kernel.vmmVirtToPhys page)) ∨ s.Elsewhere bd v := by
  cases op with
  | pmmAlloc => cases hv
  | pmmFree page =>
    rw [CallOp.target] at hv
    split at hv
    · cases hv
    · rename_i hne
      cases hv
      rcases hallow.2 with hmax | hu | hother
      · exact absurd hmax hne
      · exact .inl ⟨page, rfl, hu, rfl⟩
      · exact .inr hother
  | vmmMapPage pa va =>
    cases hv
    exact .inr hallow
  | vmmUnmapPage va =>
    cases hv
    exact .inr hallow
  | write m => cases hv

/-- A call of the page managers. -/
theorem KernelInv.call {op : CallOp} {t : PmmState} (hp : HeapPlace bd g base)
    (h : KernelInv bd g C₀ root base C s) (hs : callStep s.toPmmState op t)
    (hallow : s.Allows bd op) :
    ∃ C', KernelInv bd g C₀ root base C' { toPmmState := t, heap := s.heap } := by
  obtain rfl := h.base_eq
  obtain ⟨C', hpag, hkept⟩ := paging_step_kept h.paging hs
  have hvirt : ∀ a, s.kernel.virt a = g.virt a := fun a => by rw [h.globals]
  have hroom := h.room
  rw [Heap.limit] at hroom
  have hstop := hp.stop
  obtain ⟨hlow, hhigh⟩ := hp.vpn_base
  have hheap : ∀ i, i < s.heap.size → vpn (s.heap.base + i * 0x1000) = vpn s.heap.base + i ∧
      vpn s.heap.base + i < vpn bd.higherHalf.kernelStart :=
    fun i hi => hp.page (page_room hroom hi)
  have hapart : ∀ v ∈ op.target s.kernel, 2 ^ 35 ≤ vpn v ∧
      (∀ j, j < bd.higherHalf.kernelPages → vpn v ≠ vpn bd.higherHalf.kernelStart + j) ∧
      ∀ i, i < s.heap.size → vpn v ≠ vpn s.heap.base + i := by
    intro v hv
    rcases hallow.target hv with ⟨page, _, hu, rfl⟩ | ⟨h₁, h₂, h₃, _⟩
    · obtain ⟨hlt, _, heq⟩ := hp.window hu
      have hu' := hp.upper
      rw [hvirt]
      refine ⟨by omega, fun j _ => by omega, fun i _ => by omega⟩
    · exact ⟨h₁, h₂, fun i hi => (hheap i hi).1 ▸ h₃ i hi⟩
  -- the heap's frames are left alone
  have hleave : ∀ i, i < s.heap.size → ∀ f, PageTree.xlate C (vpn s.heap.base + i) = some f →
      f ∈ s.held ∧ op.Leaves s.kernel f := by
    intro i hi f hx
    obtain ⟨f', hf, hx', hwalk⟩ := h.walk hp hroom hi
    rw [hx, Option.some.injEq] at hx'
    subst hx'
    refine ⟨hf, ?_⟩
    have hmem : f ∈ s.heapFrames := ⟨i, hi, hwalk⟩
    cases op with
    | pmmFree page =>
      intro heq
      exact hallow.1 (heq ▸ hmem)
    | write m =>
      rintro x rfl
      exact hallow x hmem
    | pmmAlloc => trivial
    | vmmMapPage pa va => trivial
    | vmmUnmapPage va => trivial
  have hold : ∀ i, i < s.heap.size → PageTree.xlate C' (vpn s.heap.base + i) =
      PageTree.xlate C (vpn s.heap.base + i) := by
    intro i hi
    have := (hheap i hi).2
    exact hkept.xlate _ (by omega) fun v hv => (hapart v hv).2.2 i hi
  refine ⟨C', ⟨hpag, hkept.globals.trans h.globals, ?_, ?_, ?_, ?_, ?_⟩, rfl, h.room, ?_⟩
  · intro f hf hal
    by_cases hv : ∃ v ∈ op.target s.kernel, vpn v = vpn (g.virt f)
    · obtain ⟨v, hv, heq⟩ := hv
      rcases hallow.target hv with ⟨page, rfl, hu, rfl⟩ | ⟨_, _, _, hwin⟩
      · -- the frame given back is `f`
        have hne : s.kernel.vmmVirtToPhys page ≠ uint64Max := by
          intro hmax
          rw [CallOp.target, if_pos hmax] at hv
          cases hv
        have hpage : page % 0x1000 = 0 := by
          cases hs
          assumption
        obtain ⟨hal', _⟩ := h.paging.phys_page hpage hne
        obtain ⟨_, hlt, h₁⟩ := hp.window hu
        obtain ⟨_, _, h₂⟩ := hp.window hf
        have hff : s.kernel.vmmVirtToPhys page = f := by
          rw [hvirt, h₁, h₂] at heq
          omega
        rcases hkept.freed page f rfl hff (h.lower _ (hff ▸ hlt)) with hx | hx
        · rw [hvirt] at hx
          exact hx.trans (h.window f hf hal)
        · rwa [hvirt] at hx
      · exact absurd (heq.trans (by rw [hvirt])) (hwin f hf hal)
    · have hx := hkept.xlate (vpn (g.virt f)) (vpn_lt _) fun v hv' heq => hv ⟨v, hv', heq⟩
      exact hx.trans (h.window f hf hal)
  · intro q hq
    rw [hkept.xlate q (by omega) fun v hv heq => by have := (hapart v hv).1; omega]
    exact h.lower q hq
  · intro j hj
    rw [hkept.xlate _ (by omega) fun v hv => (hapart v hv).2.1 j hj]
    exact h.image j hj
  · intro i hi
    obtain ⟨f, _, hx⟩ := h.mapped i hi
    obtain ⟨hf, hl⟩ := hleave i hi f hx
    exact ⟨f, hkept.held f hf hl, (hold i hi).trans hx⟩
  · intro i j f hi hj hxi hxj
    exact h.inj i j f hi hj ((hold i hi).symm.trans hxi) ((hold j hj).symm.trans hxj)
  · intro i hi f hx x hxf
    have hx' := (hold i hi).symm.trans hx
    obtain ⟨hf, hl⟩ := hleave i hi f hx'
    exact (hkept.mem f hf hl x hxf).trans (h.bytes i hi f hx' x hxf)

end Step

/-! ## Runs -/

/-- Every byte of the heap lies, through the page map, in a frame that the heap alone holds. -/
structure HeapMapped (root : Nat) (s : KernelState) : Prop where
  paging : ∃ C, Paging root C s.toPmmState
  held : ∀ p, s.heap.Mapped p 1 → s.kernel.vmmVirtToPhys (pageOf p) ∈ s.held
  apart : ∀ p q, s.heap.Mapped p 1 → s.heap.Mapped q 1 →
    s.kernel.vmmVirtToPhys (pageOf p) = s.kernel.vmmVirtToPhys (pageOf q) → pageOf p = pageOf q
  bytes : ∀ p, s.heap.Mapped p 1 →
    s.kernel.mem (s.kernel.vmmVirtToPhys (pageOf p) + p % 0x1000) = s.heap.mem p

/-- The state after `memory_init`: the heap has no page yet. -/
def heapNone (k : Kernel) (bd : BootData) (cr3 : Nat) (h : Heap) : KernelState where
  kernel := (k.memoryInit bd cr3).kernel
  held := ∅
  heap := { h with size := 0 }

/-- The state after `heap_init`, which maps the first page and leaves the heap `h`. -/
def heapStart (k : Kernel) (bd : BootData) (cr3 : Nat) (h : Heap) : KernelState :=
  (heapNone k bd cr3 h).grow ((heapNone k bd cr3 h).kernel.heapPage h.base) h

section Runs

variable {k : Kernel} {bd : BootData} {g : Globals} {cr3 base root : Nat} {C C₀ : PageTree}
  {s : KernelState}

theorem KernelInv.mapped_page (hp : HeapPlace bd g base) (h : KernelInv bd g C₀ root base C s)
    {p : Nat} (hm : s.heap.Mapped p 1) : ∃ i < s.heap.size, ∃ f ∈ s.held,
      pageOf p = s.heap.base + i * 0x1000 ∧ PageTree.xlate C (vpn s.heap.base + i) = some f ∧
      s.kernel.vmmVirtToPhys (pageOf p) = f := by
  obtain rfl := h.base_eq
  obtain ⟨hlo, hhi⟩ := hm
  have hal := hp.aligned
  have hroom := h.room
  rw [Heap.limit] at hhi hroom
  have hi : p / 0x1000 - s.heap.base / 0x1000 < s.heap.size := by omega
  have hpage : pageOf p = s.heap.base + (p / 0x1000 - s.heap.base / 0x1000) * 0x1000 := by
    rw [pageOf]
    omega
  obtain ⟨f, hf, hx, hwalk⟩ := h.walk hp hroom hi
  exact ⟨_, hi, f, hf, hpage, hx, by rw [hpage]; exact hwalk⟩

theorem KernelInv.heapMapped (hp : HeapPlace bd g base) (h : KernelInv bd g C₀ root base C s) :
    HeapMapped root s := by
  refine ⟨⟨C, h.paging⟩, ?_, ?_, ?_⟩
  · intro p hm
    obtain ⟨i, _, f, hf, _, _, hwalk⟩ := h.mapped_page hp hm
    rw [hwalk]
    exact hf
  · intro p q hm hm' heq
    obtain ⟨i, hi, f, _, hpage, hx, hwalk⟩ := h.mapped_page hp hm
    obtain ⟨j, hj, f', _, hpage', hx', hwalk'⟩ := h.mapped_page hp hm'
    rw [hwalk, hwalk'] at heq
    subst heq
    rw [hpage, hpage', h.inj i j f hi hj hx hx']
  · intro p hm
    obtain ⟨i, hi, f, hf, hpage, hx, hwalk⟩ := h.mapped_page hp hm
    obtain ⟨hal, _⟩ := h.paging.held_frame hf
    have hpof : pageOf (f + p % 0x1000) = f := by
      rw [pageOf]
      omega
    have hmod : (f + p % 0x1000) % 0x1000 = p % 0x1000 := by omega
    rw [hwalk, h.bytes i hi f hx _ hpof, hmod, ← hpage, pageOf_mod]

theorem KernelInv.step {op : KernelOp} {s' : KernelState} (hp : HeapPlace bd g base)
    (h : KernelInv bd g C₀ root base C s) (hs : kernelStep bd s op s') :
    ∃ C', KernelInv bd g C₀ root base C' s' := by
  cases hs with
  | call hcall hallow => exact h.call hp hcall hallow
  | heap hstep hsup hroom =>
    obtain ⟨hheap, hpages⟩ := heapStepPages_iff.mp hstep
    have hext := heapStep_extends hheap
    obtain rfl := hext.base.trans h.base_eq
    obtain ⟨C', h', _⟩ := h.grow hp hext hroom hpages.symm hsup
    exact ⟨C', h'⟩

theorem heapPage_stocked {m v : Nat} (h : Owned k root C) (hr : k.pml4 = k.virt root)
    (hsmall : SmallLeaves C) (hst : k.Stocked (m + 6)) : (k.heapPage v).Stocked m := by
  have hs := hst.supplied_alloc h.ok.toPmmOk
  obtain ⟨f, hptr, ht⟩ := pmmAllocz_spec h.ok.toPmmOk h.held hs
  have hst₁ := hst.take hs ht.free
  simp only [heapPage, vmmMapPage]
  rw [ht.globals, hr, ← congrArg Globals.virt ht.globals]
  exact vmmMapPagePml4_stocked (ht.owned h) hsmall.fits (hsmall.no_huge _) (by decide) hst₁

theorem HeapPages.stocked {m n j : Nat} {s : PmmState} (hp : HeapPlace bd g base)
    (h : HeapPages bd g C₀ root base n C s)
    (hroom : base + (n + m) * 0x1000 ≤ bd.higherHalf.kernelStart)
    (hst : s.kernel.Stocked (j + 6 * m)) :
    (s.kernel.heapPages (base + n * 0x1000) m).Stocked j := by
  induction m generalizing n C s with
  | zero => exact hst
  | succ m ih =>
    have hst₁ : (s.kernel.heapPage (base + n * 0x1000)).Stocked (j + 6 * m) :=
      heapPage_stocked h.paging.owned h.paging.pml4 h.paging.small hst
    obtain ⟨f, C₁, h₁, _⟩ := h.page hp (page_room hroom (by omega)) hst₁.supplied
    have hnext : base + n * 0x1000 + 0x1000 = base + (n + 1) * 0x1000 := by omega
    rw [heapPages, hnext]
    exact ih h₁ (by rwa [Nat.add_right_comm, Nat.add_assoc]) hst₁

theorem Switched.heapPlace {m : MemoryInit} {T : PageTree} (hsw : Switched k bd C m T)
    (hk : Handover k bd C) (hpos : 0 < usablePages bd.memmap) (hwin : k.hhdm % 0x1000 = 0)
    (hal : base % 0x1000 = 0) (hbelow : base < bd.higherHalf.kernelStart)
    (habove : ∀ e ∈ bd.memmap, k.hhdm + (e.base + e.length) ≤ base) :
    HeapPlace bd m.kernel.toGlobals base := by
  obtain ⟨himage, _, hstop⟩ := hk.kernel_vpn hpos
  have hstart := hk.size.trans hk.stop
  have hlow : k.hhdm ≤ base := by
    cases hm : bd.memmap with
    | nil =>
      rw [hm] at hpos
      exact absurd hpos (Nat.lt_irrefl 0)
    | cons e es =>
      have := habove e (by rw [hm]; exact List.mem_cons_self)
      omega
  have hg := hsw.hhdm
  refine ⟨?_, ?_, hsw.memmap, hal, ?_, hbelow, ?_, himage, hstop, hstart⟩
  · rw [hg]
    exact hk.upper
  · rw [hg]
    exact hwin
  · rw [hg]
    exact hlow
  · rw [hg]
    exact habove

theorem heapStart_inv {h₀ : Heap} {m : Mem} {j : Nat} (h : Booted k bd cr3 C) (hk : Handover k bd C)
    (hg : BelowGib k.toGlobals bd)
    (hroom : j + 6 + memoryFrames bd ≤
      usablePages bd.memmap - (usablePages bd.memmap / (0x1000 * 8) + 1))
    (hinit : heapInit m base = .ok h₀) (hal : base % 0x1000 = 0)
    (hbelow : base + 0x1000 ≤ bd.higherHalf.kernelStart)
    (habove : ∀ e ∈ bd.memmap, k.hhdm + (e.base + e.length) ≤ base) :
    ∃ g T, HeapPlace bd g base ∧
      KernelInv bd g C (k.memoryInit bd cr3).cr3 base T (heapStart k bd cr3 h₀) ∧
      (heapStart k bd cr3 h₀).kernel.Stocked j := by
  obtain ⟨T, hsw⟩ := memoryInit_paging h hk hg (by omega)
  have hp := hsw.heapPlace hk h.pos h.window hal (by omega) habove
  have hst := memoryInit_stocked h hk hroom
  obtain ⟨h₁, hinit', hbase, hsize, _⟩ := heapInit_spec m
    (show base + 0x1000 < 2 ^ 64 by have := hp.top; omega)
  rw [hinit] at hinit'
  cases hinit'
  subst hbase
  have hvirt : ∀ a, (k.memoryInit bd cr3).kernel.virt a = k.virt a := virt_hhdm hsw.hhdm
  have hstart : HeapPages bd (k.memoryInit bd cr3).kernel.toGlobals C (k.memoryInit bd cr3).cr3
      h₀.base 0 T ⟨(k.memoryInit bd cr3).kernel, ∅⟩ := by
    refine ⟨hsw.paging, rfl, ?_, hsw.lower, hsw.image, ?_, ?_⟩
    · intro f hf hfal
      rw [hvirt]
      exact hsw.window f hf hfal
    · intro i hi
      exact absurd hi (Nat.not_lt_zero i)
    · intro i j f hi
      exact absurd hi (Nat.not_lt_zero i)
  have hst₁ : ((k.memoryInit bd cr3).kernel.heapPage h₀.base).Stocked j :=
    heapPage_stocked hsw.paging.owned hsw.paging.pml4 hsw.paging.small hst
  have hpage : (k.memoryInit bd cr3).kernel.heapPages ({ h₀ with size := 0 } : Heap).limit
      (h₀.size - 0) = (k.memoryInit bd cr3).kernel.heapPage h₀.base := by
    rw [hsize, Heap.limit, Nat.zero_mul, Nat.add_zero]
    rfl
  have hlimit : h₀.limit ≤ bd.higherHalf.kernelStart := by
    rw [Heap.limit, hsize]
    omega
  obtain ⟨T', hinv, hfree⟩ := HeapPages.grow (s := heapNone k bd cr3 h₀) hp hstart
    ⟨rfl, Nat.zero_le _⟩ hlimit hpage hst₁.supplied
  exact ⟨_, T', hp, hinv, hst₁.of_free (restart_supplied _) hfree⟩

/-- The invariant after `memory_init`, `heap_init` and any run of calls. -/
theorem kernelInv_run {h₀ : Heap} {m : Mem} {ops : List KernelOp} (h : Booted k bd cr3 C)
    (hk : Handover k bd C) (hg : BelowGib k.toGlobals bd)
    (hroom : 6 + memoryFrames bd ≤
      usablePages bd.memmap - (usablePages bd.memmap / (0x1000 * 8) + 1))
    (hinit : heapInit m base = .ok h₀) (hal : base % 0x1000 = 0)
    (hbelow : base + 0x1000 ≤ bd.higherHalf.kernelStart)
    (habove : ∀ e ∈ bd.memmap, k.hhdm + (e.base + e.length) ≤ base)
    (hrun : Run.Exec (kernelStep bd) (heapStart k bd cr3 h₀) ops s) :
    ∃ g C', HeapPlace bd g base ∧ KernelInv bd g C (k.memoryInit bd cr3).cr3 base C' s := by
  obtain ⟨g, T, hp, hinv, _⟩ := heapStart_inv (j := 0) h hk hg (by omega) hinit hal hbelow habove
  have hend := hrun.inv (I := fun s => ∃ C', KernelInv bd g C (k.memoryInit bd cr3).cr3 base C' s)
    (fun _ _ _ ⟨_, h⟩ hs => h.step hp hs) ⟨T, hinv⟩
  obtain ⟨C', h'⟩ := hend
  exact ⟨g, C', hp, h'⟩

/-- After `memory_init`, `heap_init` and any run of calls of the page managers and the allocator,
the heap's bytes are what the page map leads to, in frames that the heap alone holds. -/
theorem heap_mapped_run {h₀ : Heap} {m : Mem} {ops : List KernelOp} (h : Booted k bd cr3 C)
    (hk : Handover k bd C) (hg : BelowGib k.toGlobals bd)
    (hroom : 6 + memoryFrames bd ≤
      usablePages bd.memmap - (usablePages bd.memmap / (0x1000 * 8) + 1))
    (hinit : heapInit m base = .ok h₀) (hal : base % 0x1000 = 0)
    (hbelow : base + 0x1000 ≤ bd.higherHalf.kernelStart)
    (habove : ∀ e ∈ bd.memmap, k.hhdm + (e.base + e.length) ≤ base)
    (hrun : Run.Exec (kernelStep bd) (heapStart k bd cr3 h₀) ops s) :
    HeapMapped (k.memoryInit bd cr3).cr3 s := by
  obtain ⟨g, C', hp, hinv⟩ := kernelInv_run h hk hg hroom hinit hal hbelow habove hrun
  exact hinv.heapMapped hp

end Runs

/-- After `heap_init` on the short-entry machine `malloc(0x2000)` adds three pages to the heap. -/
theorem memory_malloc : ∃ h₀ s g C, heapInit (fun _ => 0) 0xFFFFFFF000000000 = .ok h₀ ∧
    kernelStep memoryBoot (heapStart (bareMachine memorySlots) memoryBoot 0x700000 h₀)
      (.heap (.malloc 0x2000)) s ∧
    HeapPlace memoryBoot g 0xFFFFFFF000000000 ∧
    KernelInv memoryBoot g memoryTree ((bareMachine memorySlots).memoryInit memoryBoot 0x700000).cr3
      0xFFFFFFF000000000 C s ∧
    s.heap.size = 4 ∧ s.kernel.Stocked 27 := by
  have hlow : ∀ e ∈ memoryBoot.memmap,
      (bareMachine memorySlots).hhdm + (e.base + e.length) ≤ 0xFFFFFFF000000000 := by decide
  obtain ⟨h₀, hinit, hbase, hsize, _⟩ := heapInit_spec (fun _ => 0)
    (show 0xFFFFFFF000000000 + 0x1000 < 2 ^ 64 by decide)
  obtain ⟨h₀', hinit', ht⟩ := heapInit_tiled (fun _ => 0)
    (show 0xFFFFFFF000000000 + 0x1000 < 2 ^ 64 by decide)
  rw [hinit] at hinit'
  cases hinit'
  obtain ⟨g, T, hp, hinv, hst⟩ := heapStart_inv (j := 45) memory_booted memory_handover
    memory_belowGib (by decide +kernel) hinit (by decide) (by decide) hlow
  -- 0x2000 bytes do not fit into the first page
  have hsmall : (h₀.size + (0x2000 / 0x1000 + 1)) * 0x1000 < 2 ^ 32 ∧ h₀.base + 2 ^ 32 ≤ 2 ^ 64 := by
    rw [hsize, hbase]
    decide
  obtain ⟨h₁, p, e, _⟩ := malloc_takes ht fun _ => hsmall
  obtain ⟨hbase₁, hsize₁⟩ := malloc_pages ht.toChain e
  rw [if_pos (by decide), hsize] at hsize₁
  have hstep : heapStep h₀ (.malloc 0x2000) = .ok h₁ := by
    rw [heapStep, e]
    rfl
  have hpages := hinv.toHeapPages
  change HeapPages memoryBoot g memoryTree _ h₀.base h₀.size T
    (heapStart (bareMachine memorySlots) memoryBoot 0x700000 h₀).toPmmState at hpages
  rw [hbase, hsize] at hpages
  have hend : 0xFFFFFFF000000000 + (1 + 3) * 0x1000 ≤ memoryBoot.higherHalf.kernelStart := by decide
  obtain ⟨k₁, hk₁⟩ : ∃ k₁, (heapStart (bareMachine memorySlots) memoryBoot 0x700000 h₀).kernel.heapPages
      h₀.limit (h₁.size - h₀.size) = k₁ := ⟨_, rfl⟩
  have hst₁ : k₁.Stocked 27 := by
    rw [← hk₁, hsize₁, hsize, Heap.limit, hbase, hsize]
    exact hpages.stocked hp hend hst
  have hroom : h₁.limit ≤ memoryBoot.higherHalf.kernelStart := by
    rw [Heap.limit, hbase₁, hbase, hsize₁]
    decide
  have hb : h₁.base = 0xFFFFFFF000000000 := hbase₁.trans hbase
  obtain ⟨C, h', hfree⟩ :=
    hinv.toHeapPages.grow (hb ▸ hp) (heapStep_extends hstep) hroom hk₁ hst₁.supplied
  rw [hb] at h'
  exact ⟨h₀, _, g, C, hinit, .heap (heapStepPages_iff.mpr ⟨hstep, hk₁.symm⟩) hst₁.supplied hroom,
    hp, h', hsize₁, hst₁.of_free (restart_supplied _) hfree⟩

/-- The short-entry machine grows its heap by three pages, and hands a frame out. -/
theorem heap_mapped_run_short : ∃ h₀ s, heapInit (fun _ => 0) 0xFFFFFFF000000000 = .ok h₀ ∧
    Run.Exec (kernelStep memoryBoot) (heapStart (bareMachine memorySlots) memoryBoot 0x700000 h₀)
      [.heap (.malloc 0x2000), .call .pmmAlloc] s ∧
    HeapMapped ((bareMachine memorySlots).memoryInit memoryBoot 0x700000).cr3 s := by
  have hlow : ∀ e ∈ memoryBoot.memmap,
      (bareMachine memorySlots).hhdm + (e.base + e.length) ≤ 0xFFFFFFF000000000 := by decide
  obtain ⟨h₀, s₁, _, _, hinit, hgrow, _⟩ := memory_malloc
  obtain ⟨s, hrun⟩ : ∃ s, Run.Exec (kernelStep memoryBoot)
      (heapStart (bareMachine memorySlots) memoryBoot 0x700000 h₀)
      [.heap (.malloc 0x2000), .call .pmmAlloc] s :=
    ⟨_, .cons hgrow (.cons (.call .pmmAlloc trivial) .nil)⟩
  exact ⟨h₀, s, hinit, hrun, heap_mapped_run memory_booted memory_handover memory_belowGib
    (by decide +kernel) hinit (by decide) (by decide) hlow hrun⟩

end BambooOS
