import BambooOS.Heap.Exhausted
import BambooOS.Heap.Links
import BambooOS.Memory.Run

/-!
# Heap.Pages

The pages under the heap.

* `heapStep_extends`: a call of the allocator only adds pages behind the last one.
* `heapExtendPages_pages`: `heap_extend` gets them from `pmm_allocz`, one after the other.
* `heapStepPages`, `heapStepPages_iff`: the calls of the allocator over the page managers are those
  of the heap, with these pages.
* `HeapPages`: each is mapped to a frame of its own, which nobody else holds.
* `HeapPages.page`, `HeapPages.pages`: an extension keeps this, and every byte of the held frames.
-/

namespace BambooOS

open ByteMem Radix Kernel

/-! ## The heap's side -/

/-- The same base, and no page less. -/
structure Extends (h h' : Heap) : Prop where
  base : h'.base = h.base
  size : h.size ≤ h'.size

section Extends

variable {h h' h'' : Heap} {p size : Nat}

theorem Extends.trans (h₁ : Extends h h') (h₂ : Extends h' h'') : Extends h h'' :=
  ⟨h₂.base.trans h₁.base, h₁.size.trans h₂.size⟩

theorem SamePages.extends (hs : SamePages h h') : Extends h h' := ⟨hs.base, hs.size.ge⟩

theorem heapExtend_extends {last n : Nat} (e : heapExtend h last n = .ok h') : Extends h h' := by
  induction n generalizing h with
  | zero =>
    cases e
    exact ⟨rfl, Nat.le_refl _⟩
  | succ n ih =>
    obtain ⟨size, _, e⟩ := bind_ok e
    obtain ⟨h₁, e₁, e⟩ := bind_ok e
    have hmap : Extends h h.mapPage := ⟨rfl, Nat.le_succ _⟩
    exact (hmap.trans (write_pages e₁).extends).trans (ih e)

theorem mallocSearch_pages {fuel hdr : Nat} {r : Heap × Nat}
    (e : mallocSearch h size fuel hdr = .ok (.inl r)) : SamePages h r.1 := by
  induction fuel generalizing hdr with
  | zero => cases e
  | succ fuel ih =>
    rw [mallocSearch] at e
    obtain ⟨b, _, e⟩ := bind_ok e
    have hnext : (h.next hdr >>= fun next => if next = 0 then pure (.inr hdr)
        else mallocSearch h size fuel next) = .ok (.inl r) → SamePages h r.1 := by
      intro e
      obtain ⟨next, _, e⟩ := bind_ok e
      split at e
      · cases e
      · exact ih e
    cases b with
    | false => exact hnext e
    | true =>
      obtain ⟨taken, et, e⟩ := bind_ok e
      cases taken with
      | none => exact hnext e
      | some r' =>
        cases e
        exact allocFrom_pages et

theorem malloc_extends (e : malloc h size = .ok (h', p)) : Extends h h' := by
  rw [malloc] at e
  obtain ⟨found, es, e⟩ := bind_ok e
  cases found with
  | inl r =>
    cases e
    exact (mallocSearch_pages es).extends
  | inr hdr =>
    obtain ⟨h₁, e₁, e⟩ := bind_ok e
    obtain ⟨taken, et, e⟩ := bind_ok e
    cases taken with
    | none =>
      cases e
      exact heapExtend_extends e₁
    | some r =>
      cases e
      exact (heapExtend_extends e₁).trans (allocFrom_pages et).extends

theorem heapMergeForward_pages (e : heapMergeForward h p = .ok h') : SamePages h h' := by
  unfold heapMergeForward at e
  obtain ⟨_, _, e⟩ := bind_ok e
  obtain ⟨_, _, e⟩ := bind_ok e
  obtain ⟨_, _, e⟩ := bind_ok e
  obtain ⟨h₁, e₁, e⟩ := bind_ok e
  obtain ⟨_, _, e⟩ := bind_ok e
  obtain ⟨_, _, e⟩ := bind_ok e
  obtain ⟨h₂, e₂, e⟩ := bind_ok e
  obtain ⟨_, _, e⟩ := bind_ok e
  have h₁₂ := (write_pages e₁).trans (write_pages e₂)
  split at e
  · cases e
    exact ⟨h₁₂.base, h₁₂.size⟩
  · cases e

theorem free_pages (e : free h p = .ok h') : SamePages h h' := by
  rw [free] at e
  obtain ⟨valid, _, e⟩ := bind_ok e
  cases valid with
  | false =>
    cases e
    exact ⟨rfl, rfl⟩
  | true =>
    obtain ⟨h₁, e₁, e⟩ := bind_ok e
    obtain ⟨⟨h₂, hdr⟩, e₂, e⟩ := bind_ok e
    obtain ⟨_, _, e⟩ := bind_ok e
    obtain ⟨nextFree, _, e⟩ := bind_ok e
    have h₁₂ : SamePages h₁ h₂ := by
      rw [mergeBackward] at e₂
      obtain ⟨prev, _, e₂⟩ := bind_ok e₂
      split at e₂
      · cases e₂
        exact ⟨rfl, rfl⟩
      · obtain ⟨prevFree, _, e₂⟩ := bind_ok e₂
        cases prevFree with
        | false =>
          cases e₂
          exact ⟨rfl, rfl⟩
        | true =>
          obtain ⟨h₃, e₃, e₂⟩ := bind_ok e₂
          cases e₂
          exact heapMergeForward_pages e₃
    have hpages := (write_pages e₁).trans h₁₂
    cases nextFree with
    | false =>
      cases e
      exact hpages
    | true => exact hpages.trans (heapMergeForward_pages e)

theorem copy_pages {dest src n : Nat} (e : h.copy dest src n = .ok h') : SamePages h h' := by
  rw [Heap.copy] at e
  split at e
  · cases e
    exact ⟨rfl, rfl⟩
  · cases e

theorem realloc_extends {ptr : Nat} (e : realloc h ptr size = .ok (h', p)) : Extends h h' := by
  rw [realloc] at e
  obtain ⟨valid, _, e⟩ := bind_ok e
  cases valid with
  | false => exact malloc_extends e
  | true =>
    obtain ⟨⟨h₁, newPtr⟩, e₁, e⟩ := bind_ok e
    obtain ⟨_, _, e⟩ := bind_ok e
    obtain ⟨h₂, e₂, e⟩ := bind_ok e
    cases e
    exact (malloc_extends e₁).trans (copy_pages e₂).extends

/-- No call of the allocator gives pages back. -/
theorem heapStep_extends {op : HeapOp} (e : heapStep h op = .ok h') : Extends h h' := by
  cases op with
  | malloc size =>
    obtain ⟨⟨h₁, q⟩, e₁, e⟩ := bind_ok e
    cases e
    exact malloc_extends e₁
  | free ptr => exact (free_pages e).extends
  | realloc ptr size =>
    obtain ⟨⟨h₁, q⟩, e₁, e⟩ := bind_ok e
    cases e
    exact realloc_extends e₁

theorem mapPage_iterate (h : Heap) (n : Nat) : (Heap.mapPage^[n] h).limit = h.limit + n * 0x1000 ∧
    ∀ x, (Heap.mapPage^[n] h).mem x =
      if h.limit ≤ x ∧ x < h.limit + n * 0x1000 then 0#8 else h.mem x := by
  induction n with
  | zero =>
    refine ⟨by simp, fun x => (if_neg ?_).symm⟩
    omega
  | succ n ih =>
    obtain ⟨hlimit, hmem⟩ := ih
    rw [Function.iterate_succ_apply']
    generalize Heap.mapPage^[n] h = h₁ at hlimit hmem
    have hstep : h₁.mapPage.limit = h₁.limit + 0x1000 := by
      simp only [Heap.limit, Heap.mapPage]
      omega
    refine ⟨by omega, fun x => ?_⟩
    rw [show h₁.mapPage.mem x = fill h₁.mem h₁.limit 0x1000 0 x from rfl, fill, hmem, hlimit]
    split_ifs <;> first | rfl | omega

end Extends

/-! ## The page managers' side -/

/-- `malloc(size)`, with the pages of its `heap_extend`. -/
def mallocPages (k : Kernel) (h : Heap) (size : Nat) : Except Fault (Kernel × Heap × Nat) := do
  match ← mallocSearch h size h.fuel h.base with
  | .inl r => return (k, r)
  | .inr hdr => do
    let (k, h) ← heapExtendPages k h hdr (size / 0x1000 + 1)
    match ← allocFrom h hdr size with
    | some r => return (k, r)
    | none => return (k, h, 0)

/-- `realloc(ptr, size)`, with the pages of its `malloc`. -/
def reallocPages (k : Kernel) (h : Heap) (ptr size : Nat) : Except Fault (Kernel × Heap × Nat) := do
  let valid ← findHdr h (hdrAddr ptr) h.fuel h.base
  if !valid then mallocPages k h size
  else
    let (k, h, newPtr) ← mallocPages k h size
    let oldSize ← h.segSize (hdrAddr ptr)
    let h ← h.copy newPtr ptr (if oldSize < size then oldSize else size)
    return (k, h, newPtr)

/-- One call of the allocator over the page managers. -/
def heapStepPages (k : Kernel) (h : Heap) : HeapOp → Except Fault (Kernel × Heap)
  | .malloc size => do
    let (k, h, _) ← mallocPages k h size
    return (k, h)
  | .free ptr => do
    let h ← free h ptr
    return (k, h)
  | .realloc ptr size => do
    let (k, h, _) ← reallocPages k h ptr size
    return (k, h)

namespace Kernel

/-- A page for the heap: `pmm_allocz`, `vmm_map_page`. -/
def heapPage (k : Kernel) (virtualAddress : Nat) : Kernel :=
  let (newPage, k) := k.pmmAllocz
  k.vmmMapPage newPage virtualAddress

/-- The pages of one extension. -/
def heapPages (k : Kernel) (virtualAddress : Nat) : Nat → Kernel
  | 0 => k
  | numPages + 1 => (k.heapPage virtualAddress).heapPages (virtualAddress + 0x1000) numPages

/-- The heap's bytes, stored where the page map leads to. -/
def storeHeap (k : Kernel) (h : Heap) : Kernel :=
  { k with mem := fun x =>
      match (List.range h.size).find? fun i => k.vmmVirtToPhys (h.base + i * 0x1000) = pageOf x with
      | some i => h.mem (h.base + i * 0x1000 + x % 0x1000)
      | none => k.mem x }

end Kernel

section Pages

variable {k k' : Kernel} {h h' : Heap}

/-- `heap_extend` takes its pages from the page managers and leaves the rest to the heap. -/
theorem heapExtendPages_pages {last n : Nat} (e : heapExtendPages k h last n = .ok (k', h')) :
    k' = k.heapPages h.limit n ∧ h'.size = h.size + n := by
  induction n generalizing k h with
  | zero =>
    cases e
    exact ⟨rfl, rfl⟩
  | succ n ih =>
    obtain ⟨size, _, e⟩ := bind_ok e
    obtain ⟨h₁, e₁, e⟩ := bind_ok e
    have hp := write_pages e₁
    have hsize : h₁.size = h.size + 1 := hp.size
    have hlimit : h₁.limit = h.limit + 0x1000 := by
      simp only [Heap.limit, hp.base, hsize, Heap.mapPage]
      omega
    obtain ⟨hk, hs⟩ := ih e
    rw [hlimit] at hk
    exact ⟨hk, by omega⟩

theorem mallocPages_heap (k : Kernel) (h : Heap) (size : Nat) :
    (mallocPages k h size).map Prod.snd = malloc h size := by
  rw [mallocPages, malloc]
  rcases mallocSearch h size h.fuel h.base with e | r | hdr
  · rfl
  · rfl
  · have hext := heapExtendPages_heap k h hdr (size / 0x1000 + 1)
    simp only [ok_bind]
    rw [← hext]
    rcases heapExtendPages k h hdr (size / 0x1000 + 1) with e | ⟨k₁, h₁⟩
    · rfl
    · simp only [ok_bind, Except.map]
      rcases allocFrom h₁ hdr size with e | (_ | r) <;> rfl

theorem mallocPages_pages {size p : Nat} (e : mallocPages k h size = .ok (k', h', p)) :
    k' = k.heapPages h.limit (h'.size - h.size) := by
  rw [mallocPages] at e
  obtain ⟨found, es, e⟩ := bind_ok e
  cases found with
  | inl r =>
    cases e
    rw [(mallocSearch_pages es).size, Nat.sub_self]
    rfl
  | inr hdr =>
    obtain ⟨⟨k₁, h₁⟩, e₁, e⟩ := bind_ok e
    obtain ⟨hk, hsize⟩ := heapExtendPages_pages e₁
    have hsub : h₁.size - h.size = size / 0x1000 + 1 := by omega
    obtain ⟨taken, et, e⟩ := bind_ok e
    cases taken with
    | none =>
      cases e
      rw [hk, hsub]
    | some r =>
      cases e
      rw [(allocFrom_pages et).size, hk, hsub]

theorem reallocPages_heap (k : Kernel) (h : Heap) (ptr size : Nat) :
    (reallocPages k h ptr size).map Prod.snd = realloc h ptr size := by
  rw [reallocPages, realloc, ← mallocPages_heap k h size]
  rcases findHdr h (hdrAddr ptr) h.fuel h.base with e | valid
  · rfl
  cases valid with
  | false => rfl
  | true =>
    simp only [ok_bind]
    rcases mallocPages k h size with e | ⟨k₁, h₁, p⟩
    · rfl
    simp only [ok_bind, Except.map]
    rcases h₁.segSize (hdrAddr ptr) with e | oldSize
    · rfl
    simp only [ok_bind]
    rcases h₁.copy p ptr (if oldSize < size then oldSize else size) with e | h₂ <;> rfl

theorem reallocPages_pages {ptr size p : Nat} (e : reallocPages k h ptr size = .ok (k', h', p)) :
    k' = k.heapPages h.limit (h'.size - h.size) := by
  rw [reallocPages] at e
  obtain ⟨valid, _, e⟩ := bind_ok e
  cases valid with
  | false => exact mallocPages_pages e
  | true =>
    obtain ⟨⟨k₁, h₁, newPtr⟩, e₁, e⟩ := bind_ok e
    obtain ⟨_, _, e⟩ := bind_ok e
    obtain ⟨h₂, e₂, e⟩ := bind_ok e
    cases e
    rw [(copy_pages e₂).size]
    exact mallocPages_pages e₁

theorem heapStepPages_heap (k : Kernel) (h : Heap) (op : HeapOp) :
    (heapStepPages k h op).map Prod.snd = heapStep h op := by
  cases op with
  | malloc size =>
    rw [heapStepPages, heapStep, ← mallocPages_heap k h size]
    rcases mallocPages k h size with e | ⟨k₁, h₁, p⟩ <;> rfl
  | free ptr =>
    rw [heapStepPages, heapStep]
    rcases free h ptr with e | h₁ <;> rfl
  | realloc ptr size =>
    rw [heapStepPages, heapStep, ← reallocPages_heap k h ptr size]
    rcases reallocPages k h ptr size with e | ⟨k₁, h₁, p⟩ <;> rfl

/-- On the kernel a call of the allocator takes the pages it adds to the heap, and nothing else. -/
theorem heapStepPages_pages {op : HeapOp} (e : heapStepPages k h op = .ok (k', h')) :
    k' = k.heapPages h.limit (h'.size - h.size) := by
  cases op with
  | malloc size =>
    obtain ⟨⟨k₁, h₁, p⟩, e₁, e⟩ := bind_ok e
    cases e
    exact mallocPages_pages e₁
  | free ptr =>
    obtain ⟨h₁, e₁, e⟩ := bind_ok e
    cases e
    rw [(free_pages e₁).size, Nat.sub_self]
    rfl
  | realloc ptr size =>
    obtain ⟨⟨k₁, h₁, p⟩, e₁, e⟩ := bind_ok e
    cases e
    exact reallocPages_pages e₁

/-- A call of the allocator on the machine is the call on the heap, with its pages. -/
theorem heapStepPages_iff {op : HeapOp} : heapStepPages k h op = .ok (k', h') ↔
    heapStep h op = .ok h' ∧ k' = k.heapPages h.limit (h'.size - h.size) := by
  have hheap := heapStepPages_heap k h op
  constructor
  · intro e
    rw [e] at hheap
    exact ⟨hheap.symm, heapStepPages_pages e⟩
  · rintro ⟨e, rfl⟩
    rw [e] at hheap
    rcases hstep : heapStepPages k h op with _ | ⟨k₁, h₁⟩
    · rw [hstep] at hheap
      cases hheap
    · rw [hstep] at hheap
      cases hheap
      rw [heapStepPages_pages hstep]

theorem heapPage_later (k : Kernel) (v : Nat) : Later k (k.heapPage v) :=
  (pmmAllocz_later k).trans (vmmMapPagePml4_later _ _ _ _ _)

theorem heapPages_later (k : Kernel) (v n : Nat) : Later k (k.heapPages v n) := by
  induction n generalizing k v with
  | zero => exact Later.refl k
  | succ n ih => exact (heapPage_later k v).trans (ih _ _)

end Pages

/-! ## The pages of the heap -/

/-- Where the heap is: between the window and the kernel image. -/
structure HeapPlace (bd : BootData) (g : Globals) (base : Nat) : Prop where
  upper : 2 ^ 64 - 2 ^ 47 ≤ g.hhdm
  hhdm : g.hhdm % 0x1000 = 0
  memmap : g.memmapEntries = bd.memmap
  aligned : base % 0x1000 = 0
  low : g.hhdm ≤ base
  below : base < bd.higherHalf.kernelStart
  above : ∀ e ∈ bd.memmap, g.hhdm + (e.base + e.length) ≤ base
  image : vpn bd.higherHalf.kernelStart =
    bd.higherHalf.kernelStart / 0x1000 - (2 ^ 52 - 2 ^ 36)
  stop : vpn bd.higherHalf.kernelStart + bd.higherHalf.kernelPages ≤ 2 ^ 36
  top : bd.higherHalf.kernelStart < 2 ^ 64

/-- The tree `C` with `n` heap pages, each mapped to a frame of its own. -/
structure HeapPages (bd : BootData) (g : Globals) (C₀ : PageTree) (root base n : Nat) (C : PageTree)
    (s : PmmState) : Prop where
  paging : Paging root C s
  globals : s.kernel.toGlobals = g
  window : ∀ f, Usable bd.memmap f → f % 0x1000 = 0 → PageTree.xlate C (vpn (g.virt f)) = some f
  lower : ∀ q, q < 2 ^ 35 → PageTree.xlate C q = none
  image : ∀ j, j < bd.higherHalf.kernelPages → PageTree.xlate C (vpn bd.higherHalf.kernelStart + j) =
    PageTree.xlate C₀ (vpn bd.higherHalf.kernelStart + j)
  mapped : ∀ i, i < n → ∃ f ∈ s.held, PageTree.xlate C (vpn base + i) = some f
  inj : ∀ i j f, i < n → j < n → PageTree.xlate C (vpn base + i) = some f →
    PageTree.xlate C (vpn base + j) = some f → i = j

section HeapPages

variable {bd : BootData} {g : Globals} {C₀ C : PageTree} {root base n : Nat} {s : PmmState}

theorem page_room {i stop : Nat} (hroom : base + n * 0x1000 ≤ stop) (hi : i < n) :
    base + (i + 1) * 0x1000 ≤ stop :=
  (Nat.add_le_add_left (Nat.mul_le_mul_right _ hi) _).trans hroom

/-- The pages of the heap lie in the upper half, below the kernel image. -/
theorem HeapPlace.page (hp : HeapPlace bd g base) {i : Nat}
    (hroom : base + (i + 1) * 0x1000 ≤ bd.higherHalf.kernelStart) :
    vpn (base + i * 0x1000) = vpn base + i ∧ vpn base + i < vpn bd.higherHalf.kernelStart := by
  have hi := hp.image
  have hu := hp.upper
  have hl := hp.low
  have ha := hp.aligned
  have ht := hp.top
  simp only [vpn] at hi ⊢
  omega

theorem HeapPlace.vpn_base (hp : HeapPlace bd g base) :
    2 ^ 35 ≤ vpn base ∧ vpn base ≤ vpn bd.higherHalf.kernelStart := by
  have hi := hp.image
  have hu := hp.upper
  have hl := hp.low
  have hb := hp.below
  have ht := hp.top
  simp only [vpn] at hi ⊢
  omega

theorem HeapPlace.window (hp : HeapPlace bd g base) {f : Nat} (hf : Usable bd.memmap f) :
    vpn (g.virt f) < vpn base ∧ f / 0x1000 < 2 ^ 35 ∧
      vpn (g.virt f) = g.hhdm / 0x1000 - (2 ^ 52 - 2 ^ 36) + f / 0x1000 := by
  obtain ⟨e, he, _, hlo, hhi⟩ := hf
  have ha := hp.above e he
  have hu := hp.upper
  have hal := hp.aligned
  have hh := hp.hhdm
  have hb := hp.below
  have ht := hp.top
  have hv := windowPage_eq hu hh (a := f) (by omega)
  rw [Globals.windowPage] at hv
  rw [hv]
  refine ⟨?_, by omega, rfl⟩
  simp only [vpn]
  omega

theorem Paging.allocz (h : Paging root C s) (hs : s.kernel.pmmAllocz.2.Supplied) :
    ∃ f, s.kernel.pmmAllocz.1 = s.kernel.virt f ∧ f ∈ s.kernel.Free ∧
      s.kernel.pmmAllocz.2.toGlobals = s.kernel.toGlobals ∧
      MemKept (insert f s.kernel.Bitmap) s.kernel s.kernel.pmmAllocz.2 ∧
      (∀ x, pageOf x = f → s.kernel.pmmAllocz.2.mem x = 0#8) ∧
      Paging root C ⟨s.kernel.pmmAllocz.2, insert f s.held⟩ := by
  obtain ⟨f, hptr, ht⟩ := pmmAllocz_spec h.pmmOk h.owned.held hs
  have hzero : ∀ x, pageOf x = f → s.kernel.pmmAllocz.2.mem x = 0#8 := by
    rintro x rfl
    exact ht.zero x (by rw [pageOf]; omega) (by rw [pageOf]; omega)
  refine ⟨f, hptr, ht.mem_free, ht.globals, ht.kept, hzero, ?_⟩
  refine h.of_owned (ht.owned h.owned) ht.globals (h.tallied.allocz h.pmmOk hs).counted hs ?_
  rw [ht.free]
  rintro x (rfl | hx)
  · exact ⟨free_aligned h.pmmOk ht.mem_free, free_usable h.pmmOk ht.mem_free,
      free_not_bitmap h.pmmOk h.owned.held ht.mem_free, fun hx => hx.2 rfl,
      Set.disjoint_right.mp h.owned.free ht.mem_free⟩
  · obtain ⟨h₁, h₂, h₃, h₄, h₅⟩ := h.held_frame hx
    exact ⟨h₁, h₂, h₃, fun hx => h₄ hx.1, h₅⟩

/-- The pointer to a new frame is looked up in the window. -/
theorem HeapPages.convertPhys {k : Kernel} {held : Set Nat} {f : Nat} (hp : HeapPlace bd g base)
    (h : HeapPages bd g C₀ root base n C s) (hpag : Paging root C ⟨k, held⟩)
    (hf : Usable bd.memmap f) (hfal : f % 0x1000 = 0) : k.convertPhys (g.virt f) = f := by
  have hval : g.virt f % 0x1000 = 0 := by
    have := hp.hhdm
    rw [Globals.virt]
    omega
  have hphys : k.vmmVirtToPhys (g.virt f) = f := by
    have hw := h.window f hf hfal
    rw [vpn, xlate_mod] at hw
    rw [vmmVirtToPhys_aligned hpag.owned.ok hpag.owned.stored hpag.pml4 hval, hw, Option.getD_some]
  have hlt := (hp.window hf).2.1
  rw [Kernel.convertPhys, hphys, if_pos]
  simp only [uint64Max]
  omega

/-- One more page under the heap. -/
theorem HeapPages.page (hp : HeapPlace bd g base) (h : HeapPages bd g C₀ root base n C s)
    (hroom : base + (n + 1) * 0x1000 ≤ bd.higherHalf.kernelStart)
    (hs : (s.kernel.heapPage (base + n * 0x1000)).Supplied) :
    ∃ f C', HeapPages bd g C₀ root base (n + 1) C'
        ⟨s.kernel.heapPage (base + n * 0x1000), insert f s.held⟩ ∧
      PageTree.xlate C' (vpn base + n) = some f ∧
      (∀ i, i < n → PageTree.xlate C' (vpn base + i) = PageTree.xlate C (vpn base + i)) ∧
      (∀ x, pageOf x ∈ s.held → (s.kernel.heapPage (base + n * 0x1000)).mem x = s.kernel.mem x) ∧
      ∀ x, pageOf x = f → (s.kernel.heapPage (base + n * 0x1000)).mem x = 0#8 := by
  simp only [heapPage] at hs ⊢
  have hsz := (vmmMapPagePml4_later _ _ _ _ _).supplied hs
  obtain ⟨f, hptr, hfree, hg, hkept, hzero, hpag⟩ := h.paging.allocz hsz
  have hf : Usable bd.memmap f := by
    rw [← hp.memmap, ← h.globals]
    exact free_usable h.paging.pmmOk hfree
  have hfal := free_aligned h.paging.pmmOk hfree
  have hflt := free_lt h.paging.pmmOk hfree
  have hnew : f ∉ s.held := fun hx => (h.paging.held_frame hx).2.2.2.1 hfree
  obtain ⟨hpage, hbelow⟩ := hp.page hroom
  obtain ⟨hlow, _⟩ := hp.vpn_base
  have hvirt : s.kernel.virt f = g.virt f := congrArg (fun g => Globals.virt g f) h.globals
  have hconv := h.convertPhys hp hpag hf hfal
  rw [hptr, hvirt] at hs ⊢
  obtain ⟨C', hpag', hst, hup⟩ := hpag.mapPage_step hs
  rw [hconv, getAddress_of_aligned hfal (by omega)] at hup
  have hat := hup.at
  rw [hpage] at hat
  have hkeep : ∀ r, r < 2 ^ 36 → vpn base + n ≠ r → PageTree.xlate C' r = PageTree.xlate C r := by
    intro r hr hne
    refine hup.keptBut r hr fun x hx => ?_
    cases hx
    rwa [hpage]
  have hstop := hp.stop
  have hold : ∀ i, i < n → PageTree.xlate C' (vpn base + i) = PageTree.xlate C (vpn base + i) :=
    fun i hi => hkeep _ (by omega) (by omega)
  refine ⟨f, C', ⟨hpag', ?_, ?_, ?_, ?_, ?_, ?_⟩, hat, hold, ?_, ?_⟩
  · exact (hst.within.globals.trans hg).trans h.globals
  · intro x hx hxal
    obtain ⟨hlt, _⟩ := hp.window hx
    rw [hkeep _ (by omega) (by omega)]
    exact h.window x hx hxal
  · intro q hq
    rw [hkeep _ (by omega) (by omega)]
    exact h.lower q hq
  · intro j hj
    rw [hkeep _ (by omega) (by omega)]
    exact h.image j hj
  · intro i hi
    by_cases hin : i = n
    · subst hin
      exact ⟨f, .inl rfl, hat⟩
    · obtain ⟨x, hx, hxl⟩ := h.mapped i (by omega)
      exact ⟨x, .inr hx, (hold i (by omega)).trans hxl⟩
  · -- the new frame was nobody's
    have hdiff : ∀ i, i < n → PageTree.xlate C' (vpn base + i) ≠ some f := by
      intro i hi hx
      rw [hold i hi] at hx
      obtain ⟨y, hy, hyl⟩ := h.mapped i hi
      rw [hx] at hyl
      cases hyl
      exact hnew hy
    intro i j y hi hj hxi hxj
    by_cases hin : i = n
    · by_cases hjn : j = n
      · omega
      · subst hin
        rw [hat] at hxi
        cases hxi
        exact absurd hxj (hdiff j (by omega))
    · by_cases hjn : j = n
      · subst hjn
        rw [hat] at hxj
        cases hxj
        exact absurd hxi (hdiff i (by omega))
      · rw [hold i (by omega)] at hxi
        rw [hold j (by omega)] at hxj
        exact h.inj i j y (by omega) (by omega) hxi hxj
  · intro x hx
    refine (hpag.mem_held hst.within.kept (.inr hx)).trans ?_
    refine hkept x ?_
    rintro (hxf | hxb)
    · exact hnew (hxf ▸ hx)
    · exact (h.paging.held_frame hx).2.2.1 hxb
  · intro x hx
    exact (hpag.mem_held hst.within.kept (.inl hx)).trans (hzero x hx)

/-- The pages of one extension. -/
theorem HeapPages.pages {m : Nat} (hp : HeapPlace bd g base)
    (h : HeapPages bd g C₀ root base n C s)
    (hroom : base + (n + m) * 0x1000 ≤ bd.higherHalf.kernelStart)
    (hs : (s.kernel.heapPages (base + n * 0x1000) m).Supplied) :
    ∃ C' held, HeapPages bd g C₀ root base (n + m) C'
        ⟨s.kernel.heapPages (base + n * 0x1000) m, held⟩ ∧ s.held ⊆ held ∧
      (∀ f ∈ held, f ∈ s.held ∨ ∃ i < n + m, PageTree.xlate C' (vpn base + i) = some f) ∧
      (∀ i, i < n → PageTree.xlate C' (vpn base + i) = PageTree.xlate C (vpn base + i)) ∧
      (∀ x, pageOf x ∈ s.held →
        (s.kernel.heapPages (base + n * 0x1000) m).mem x = s.kernel.mem x) ∧
      ∀ i, n ≤ i → i < n + m → ∀ x, PageTree.xlate C' (vpn base + i) = some (pageOf x) →
        (s.kernel.heapPages (base + n * 0x1000) m).mem x = 0#8 := by
  induction m generalizing n C s with
  | zero =>
    refine ⟨C, s.held, h, Set.Subset.rfl, fun f => .inl, fun _ _ => rfl, fun _ _ => rfl, ?_⟩
    intro i hle hlt
    omega
  | succ m ih =>
    rw [heapPages] at hs ⊢
    have hs₁ := (heapPages_later _ _ _).supplied hs
    obtain ⟨f, C₁, h₁, hat, hold, hmem, hzero⟩ := h.page hp (page_room hroom (by omega)) hs₁
    have hnext : base + n * 0x1000 + 0x1000 = base + (n + 1) * 0x1000 := by omega
    rw [hnext] at hs ⊢
    obtain ⟨C', held, h', hsub, honly, hold', hmem', hzero'⟩ :=
      ih h₁ (by rwa [Nat.add_right_comm, Nat.add_assoc]) hs
    rw [show n + 1 + m = n + (m + 1) by omega] at h' honly hzero'
    refine ⟨C', held, h', (Set.subset_insert f s.held).trans hsub, ?_, ?_, ?_, ?_⟩
    · intro x hx
      rcases honly x hx with (rfl | hx) | hx
      · exact .inr ⟨n, by omega, (hold' n (by omega)).trans hat⟩
      · exact .inl hx
      · exact .inr hx
    · exact fun i hi => (hold' i (by omega)).trans (hold i hi)
    · exact fun x hx => (hmem' x (.inr hx)).trans (hmem x hx)
    · intro i hle hlt x hx
      by_cases hin : i = n
      · subst hin
        rw [hold' i (by omega), hat, Option.some.injEq] at hx
        exact (hmem' x (.inl hx.symm)).trans (hzero x hx.symm)
      · exact hzero' i (by omega) hlt x hx

theorem HeapPages.walk (hp : HeapPlace bd g base) (h : HeapPages bd g C₀ root base n C s)
    (hroom : base + n * 0x1000 ≤ bd.higherHalf.kernelStart) {i : Nat} (hi : i < n) :
    ∃ f ∈ s.held, PageTree.xlate C (vpn base + i) = some f ∧
      s.kernel.vmmVirtToPhys (base + i * 0x1000) = f := by
  obtain ⟨f, hf, hx⟩ := h.mapped i hi
  refine ⟨f, hf, hx, ?_⟩
  have hal : (base + i * 0x1000) % 0x1000 = 0 := by
    have := hp.aligned
    omega
  obtain ⟨hpage, _⟩ := hp.page (page_room hroom hi)
  rw [← hpage, vpn, xlate_mod] at hx
  rw [vmmVirtToPhys_aligned h.paging.owned.ok h.paging.owned.stored h.paging.pml4 hal, hx]
  rfl

theorem pageOf_mod (x : Nat) : pageOf x + x % 0x1000 = x := by
  rw [pageOf]
  omega

/-- A byte on a page of the heap gets the heap's value, any other stays. -/
theorem storeHeap_cases (k : Kernel) (h : Heap) (x : Nat) :
    (∃ i < h.size, k.vmmVirtToPhys (h.base + i * 0x1000) = pageOf x ∧
      (k.storeHeap h).mem x = h.mem (h.base + i * 0x1000 + x % 0x1000)) ∨
    ((∀ i < h.size, k.vmmVirtToPhys (h.base + i * 0x1000) ≠ pageOf x) ∧
      (k.storeHeap h).mem x = k.mem x) := by
  simp only [storeHeap]
  cases hj : (List.range h.size).find? fun i =>
      k.vmmVirtToPhys (h.base + i * 0x1000) = pageOf x with
  | none =>
    rw [List.find?_eq_none] at hj
    refine .inr ⟨fun i hi heq => ?_, rfl⟩
    exact hj i (List.mem_range.mpr hi) (decide_eq_true heq)
  | some i =>
    have hi := List.mem_range.mp (List.mem_of_find?_eq_some hj)
    have hix := List.find?_some hj
    exact .inl ⟨i, hi, of_decide_eq_true hix, rfl⟩

/-- The heap's bytes go where its pages are mapped, and nowhere else. -/
theorem HeapPages.stored {h' : Heap} (hp : HeapPlace bd g h'.base)
    (h : HeapPages bd g C₀ root h'.base h'.size C s)
    (hroom : h'.limit ≤ bd.higherHalf.kernelStart) :
    (∀ i < h'.size, ∀ f, PageTree.xlate C (vpn h'.base + i) = some f → ∀ x, pageOf x = f →
      (s.kernel.storeHeap h').mem x = h'.mem (h'.base + i * 0x1000 + x % 0x1000)) ∧
    ∀ x, pageOf x ∉ s.held → (s.kernel.storeHeap h').mem x = s.kernel.mem x := by
  rw [Heap.limit] at hroom
  constructor
  · rintro i hi f hx x rfl
    obtain ⟨f', _, hx', hwalk⟩ := h.walk hp hroom hi
    rw [hx, Option.some.injEq] at hx'
    rcases storeHeap_cases s.kernel h' x with ⟨j, hj, hjx, he⟩ | ⟨hnone, _⟩
    · obtain ⟨f'', _, hxj, hwalkj⟩ := h.walk hp hroom hj
      obtain rfl := hwalkj.symm.trans hjx
      rw [he, h.inj j i _ hj hi hxj hx]
    · exact absurd (hwalk.trans hx'.symm) (hnone i hi)
  · intro x hx
    rcases storeHeap_cases s.kernel h' x with ⟨j, hj, hjx, _⟩ | ⟨_, he⟩
    · obtain ⟨f, hf, _, hwalk⟩ := h.walk hp hroom hj
      obtain rfl := hwalk.symm.trans hjx
      exact absurd hf hx
    · exact he

end HeapPages

end BambooOS
