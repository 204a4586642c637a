import BambooOS.Heap.Header
import BambooOS.Vmm.Free

/-!
# Heap.Exhausted

The callers of `pmm_alloc_phys` when no usable page is free. Its failure value 0 becomes the pointer
to frame 0, which `pmm_allocz` clears before anyone could look at it.

* `heapExtendPages_heap`: `heap_extend` over the page managers changes the heap as `heapExtend` does.
* `pmmAllocz_exhausted`: frame 0 is cleared.
* `exhausted_undamaged_iff`: only `pmm_alloc` itself, and an extension by no pages, do no damage.
-/

namespace BambooOS

open ByteMem Kernel

/-- `heap_extend(last, num_pages)`, with the allocation and the mapping of its pages. -/
def heapExtendPages (k : Kernel) (h : Heap) (last : Nat) : Nat → Except Fault (Kernel × Heap)
  | 0 => return (k, h)
  | numPages + 1 => do
    let (newPage, k) := k.pmmAllocz
    let k := k.vmmMapPage newPage h.limit
    let h := h.mapPage
    let lastSize ← h.segSize last
    let h ← h.setSize last (lastSize + 0x1000)
    heapExtendPages k h last numPages

/-- The calls that take frames. -/
inductive FrameOp where
  | pmmAlloc
  | pmmAllocz
  | vmmInitPtEntry (entry : Nat)
  | vmmMapPagePml4 (pPml4 physicalAddress virtualAddress flags : Nat)
  | heapExtend (last numPages : Nat)
  deriving DecidableEq, Repr

def frameStep (k : Kernel) (h : Heap) : FrameOp → Except Fault (Kernel × Heap)
  | .pmmAlloc => return (k.pmmAlloc.2, h)
  | .pmmAllocz => return (k.pmmAllocz.2, h)
  | .vmmInitPtEntry entry => return (k.vmmInitPtEntry entry, h)
  | .vmmMapPagePml4 pPml4 pa va flags => return (k.vmmMapPagePml4 pPml4 pa va flags, h)
  | .heapExtend last numPages => heapExtendPages k h last numPages

/-- The path of `virtualAddress` under `pPml4` ends at an entry without a table. -/
def MissingTable (k : Kernel) (pPml4 virtualAddress : Nat) : Prop :=
  let pml4Entry := pPml4 + 8 * pml4Index virtualAddress
  let pdptEntry := k.tableOf pml4Entry + 8 * pdptIndex virtualAddress
  let pdEntry := k.tableOf pdptEntry + 8 * pdIndex virtualAddress
  k.ld64 pml4Entry &&& ptEntryPresent = 0 ∨ k.ld64 pdptEntry &&& ptEntryPresent = 0 ∨
    (k.ld64 pdptEntry &&& ptEntryLargerPages = 0 ∧ k.ld64 pdEntry &&& ptEntryPresent = 0)

/-- The mapping calls are those whose path has a missing table. -/
def TakesFrame (k : Kernel) : FrameOp → Prop
  | .vmmMapPagePml4 pPml4 _ va _ => MissingTable k pPml4 va
  | _ => True

/-- A frame the allocator handed out. -/
def Event.supplies : Event → Bool
  | .alloc f => f != 0
  | _ => false

/-- Between the two states frame 0 was not written, no entry came to point to it, and the heap grew
by supplied frames only. -/
def Undamaged (k : Kernel) (h : Heap) (k' : Kernel) (h' : Heap) : Prop :=
  ∃ es, k'.trace = es ++ k.trace ∧
    (∀ a n, .store a n ∈ es → 0x1000 ≤ a) ∧
    (∀ a, a % 8 = 0 → load k'.mem a 8 ≠ load k.mem a 8 → load k'.mem a 8 &&& ptEntryPresent ≠ 0 →
      vmmPtEntryGetAddress (load k'.mem a 8) ≠ 0) ∧
    h'.size ≤ h.size + es.countP Event.supplies

/-- On its way from `k` to `k'` the kernel cleared frame 0. -/
def ClearsZero (k k' : Kernel) : Prop :=
  ∃ es, k'.trace = es ++ k.trace ∧ .store 0 0x1000 ∈ es

section Exhausted

variable {k k' k'' : Kernel} {h h' : Heap}

theorem ClearsZero.later (hz : ClearsZero k k') (hl : Later k' k'') : ClearsZero k k'' := by
  obtain ⟨es, he, hm⟩ := hz
  obtain ⟨es', he'⟩ := hl.2
  refine ⟨es' ++ es, ?_, List.mem_append.mpr (.inr hm)⟩
  rw [← he', he, List.append_assoc]

theorem ClearsZero.damages (hz : ClearsZero k k') : ¬ Undamaged k h k' h' := by
  intro hu
  obtain ⟨es, he, hm⟩ := hz
  obtain ⟨es', he', hstore, _⟩ := hu
  rw [he] at he'
  obtain rfl := List.append_cancel_right he'
  exact absurd (hstore 0 0x1000 hm) (by decide)

/-- The heap's side of `heap_extend` is the same, whatever the page managers supplied. -/
theorem heapExtendPages_heap (k : Kernel) (h : Heap) (last n : Nat) :
    (heapExtendPages k h last n).map Prod.snd = heapExtend h last n := by
  induction n generalizing k h with
  | zero => rfl
  | succ n ih =>
    simp only [heapExtendPages, heapExtend]
    cases h.mapPage.segSize last with
    | error e => rfl
    | ok size =>
      simp only [ok_bind]
      cases h.mapPage.setSize last (size + 0x1000) with
      | error e => rfl
      | ok h₁ => exact ih _ h₁

theorem heapExtendPages_later {last n : Nat} (e : heapExtendPages k h last n = .ok (k', h')) :
    Later k k' := by
  induction n generalizing k h with
  | zero =>
    cases e
    exact Later.refl _
  | succ n ih =>
    obtain ⟨size, _, e⟩ := bind_ok e
    obtain ⟨h₁, _, e⟩ := bind_ok e
    exact ((pmmAllocz_later k).trans (vmmMapPagePml4_later _ _ _ _ _)).trans (ih e)

variable (hk : k.PmmOk) (hfull : k.Free = ∅)

include hk hfull

theorem pmmAllocPhys_exhausted : k.pmmAllocPhys = (0, k.log (.alloc 0)) := by
  rcases pmmAllocPhys_cases hk with ⟨_, he⟩ | ⟨i, hi, hb, _, _⟩
  · exact he
  · have hmem : k.pmmGetAddressByIndex i ∈ k.Free := ⟨i, hi, rfl, hb⟩
    rw [hfull] at hmem
    exact absurd hmem (Set.notMem_empty _)

/-- The failure value reaches `memset` as the window's first page. -/
theorem pmmAllocz_exhausted : ClearsZero k k.pmmAllocz.2 := by
  have hvirt : k.pmmPhysToVirt 0 = k.virt 0 := by
    simp only [Globals.pmmPhysToVirt, Globals.virt, hk.offset]
  refine ⟨[.store 0 0x1000, .alloc 0], ?_, by simp⟩
  rw [pmmAllocz_eq, pmmAllocPhys_exhausted hk hfull]
  simp only [Kernel.memset, log_toGlobals, log_trace, hvirt, Globals.phys_virt hk.hhdm_lt (Nat.two_pow_pos 64)]
  rfl

theorem vmmInitPtEntry_exhausted (entry : Nat) : ClearsZero k (k.vmmInitPtEntry entry) :=
  (pmmAllocz_exhausted hk hfull).later (st64_later _ _ _)

theorem ensureEntry_exhausted {entry : Nat} (he : k.ld64 entry &&& ptEntryPresent = 0) :
    ClearsZero k (k.ensureEntry entry) := by
  rw [ensureEntry, if_pos he]
  exact ((vmmInitPtEntry_exhausted hk hfull entry).later (orEntry_later _ _ _)).later
    (orEntry_later _ _ _)

theorem descend_exhausted {p v : Nat} (hm : MissingTable k p v) : ClearsZero k (k.descend p v).2 := by
  have hkeep : ∀ entry, ¬ k.ld64 entry &&& ptEntryPresent = 0 → k.ensureEntry entry = k :=
    fun entry he => if_neg he
  simp only [descend]
  by_cases h₁ : k.ld64 (p + 8 * pml4Index v) &&& ptEntryPresent = 0
  · refine (ensureEntry_exhausted hk hfull h₁).later ?_
    exact ((ensureEntry_later _ _).trans (splitEntry_later _ _ _)).trans
      ((ensureEntry_later _ _).trans (splitEntry_later _ _ _))
  · rw [hkeep _ h₁]
    by_cases h₂ : k.ld64 (k.tableOf (p + 8 * pml4Index v) + 8 * pdptIndex v) &&& ptEntryPresent = 0
    · refine (ensureEntry_exhausted hk hfull h₂).later ?_
      exact (splitEntry_later _ _ _).trans
        ((ensureEntry_later _ _).trans (splitEntry_later _ _ _))
    · obtain ⟨hl, h₃⟩ := (hm.resolve_left h₁).resolve_left h₂
      have hsplit : k.splitPdptEntry (k.tableOf (p + 8 * pml4Index v) + 8 * pdptIndex v) = k :=
        if_neg fun hne => hne hl
      rw [hkeep _ h₂, hsplit]
      exact (ensureEntry_exhausted hk hfull h₃).later (splitEntry_later _ _ _)

/-- Without a free page no call but `pmm_alloc` is harmless, and an extension by no pages. -/
theorem exhausted_undamaged_iff {op : FrameOp} (hop : TakesFrame k op)
    (e : frameStep k h op = .ok (k', h')) :
    Undamaged k h k' h' ↔ op = .pmmAlloc ∨ ∃ last, op = .heapExtend last 0 := by
  cases op with
  | pmmAlloc =>
    cases e
    refine ⟨fun _ => .inl rfl, fun _ => ⟨[.alloc 0], ?_, ?_, ?_, ?_⟩⟩
    · simp only [pmmAlloc, pmmAllocPhys_exhausted hk hfull]
      rfl
    · intro a n hm
      simp at hm
    · intro a _ hne
      simp only [pmmAlloc, pmmAllocPhys_exhausted hk hfull, log_mem] at hne
      exact absurd rfl hne
    · exact Nat.le_add_right _ _
  | pmmAllocz =>
    cases e
    exact ⟨fun hu => absurd hu (pmmAllocz_exhausted hk hfull).damages, fun hor => by simp at hor⟩
  | vmmInitPtEntry entry =>
    cases e
    exact ⟨fun hu => absurd hu (vmmInitPtEntry_exhausted hk hfull entry).damages,
      fun hor => by simp at hor⟩
  | vmmMapPagePml4 p pa va flags =>
    cases e
    exact ⟨fun hu => absurd hu ((descend_exhausted hk hfull hop).later (st64_later _ _ _)).damages,
      fun hor => by simp at hor⟩
  | heapExtend last n =>
    cases n with
    | zero =>
      cases e
      exact ⟨fun _ => .inr ⟨last, rfl⟩, fun _ => ⟨[], rfl, by simp, by simp, Nat.le_add_right _ _⟩⟩
    | succ n =>
      obtain ⟨size, _, e⟩ := bind_ok e
      obtain ⟨h₁, _, e⟩ := bind_ok e
      have hz := ((pmmAllocz_exhausted hk hfull).later (vmmMapPagePml4_later _ _ _ _ _)).later
        (heapExtendPages_later e)
      exact ⟨fun hu => absurd hu hz.damages, fun hor => by simp at hor⟩

end Exhausted

/-- What the bootloader reports on a machine with one usable page, which the bitmap takes. -/
def onePageBoot : BootData :=
  { higherHalf := { offset := 0xFFFF800000000000, kernelStart := 0, kernelEnd := 0 }
    memmap := [⟨0x100000, 0x1000, memmapUsable⟩] }

def onePageMachine : Kernel := (bareMachine []).pmmInit onePageBoot

theorem onePageMachine_exhausted : onePageMachine.PmmOk ∧ onePageMachine.Free = ∅ := by
  have hm : MemmapOk onePageBoot.memmap := ⟨by decide, by decide, List.pairwise_singleton _ _⟩
  have hb : BootOk (bareMachine []) onePageBoot :=
    ⟨rfl, rfl, rfl, by simp only [bareMachine]; omega⟩
  obtain ⟨hg, _, _, hfree⟩ := pmmInit_spec hb hm (by decide)
  refine ⟨?_, ?_⟩
  · unfold onePageMachine
    rw [hg]
    exact initGlobals_ok hb hm (by decide)
  · rw [Set.eq_empty_iff_forall_notMem]
    intro a ha
    obtain ⟨hal, hu, hbit⟩ := (hfree a).mp ha
    have hrange : 0x100000 ≤ a ∧ a < 0x101000 := by
      simpa [Usable, onePageBoot, MemmapEntry.Covers] using hu
    obtain rfl : a = 0x100000 := by omega
    refine hbit ⟨0, ?_, ?_⟩
    · rw [hg]
      decide
    · rw [hg]
      decide

/-- `pmm_alloc` on that machine. -/
theorem pmmAlloc_undamaged : ∃ k' h', frameStep onePageMachine ⟨0x10000, 1, fun _ => 0⟩ .pmmAlloc =
    .ok (k', h') ∧ Undamaged onePageMachine ⟨0x10000, 1, fun _ => 0⟩ k' h' := by
  obtain ⟨hk, hfull⟩ := onePageMachine_exhausted
  have htakes : TakesFrame onePageMachine .pmmAlloc := trivial
  exact ⟨_, _, rfl, (exhausted_undamaged_iff hk hfull htakes rfl).mpr (.inl rfl)⟩

/-- `pmm_allocz` clears frame 0 there. -/
theorem pmmAllocz_damages : onePageMachine.PmmOk ∧ onePageMachine.Free = ∅ ∧
    ∃ k', ∀ h, frameStep onePageMachine h .pmmAllocz = .ok (k', h) ∧
      ¬ Undamaged onePageMachine h k' h := by
  obtain ⟨hk, hfull⟩ := onePageMachine_exhausted
  exact ⟨hk, hfull, _, fun h => ⟨rfl, (pmmAllocz_exhausted hk hfull).damages⟩⟩

end BambooOS
