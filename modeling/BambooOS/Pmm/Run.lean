import BambooOS.Lib.Run
import BambooOS.Vmm.Boot

/-!
# Pmm.Run

Runs of the allocator between `pmm_init` and `vmm_init`, beside a ghost set of the frames that
were handed out and not given back.

* `Ledger`: the free frames are exactly the usable ones that are neither the bitmap's nor held.
* `ledger_step`: every operation keeps it, and so does anybody's write outside the bitmap.
* `pmmAllocPhys_fresh`: over any run an allocation returns a new frame, or `0` when all are taken.
-/

namespace BambooOS

open ByteMem Kernel

inductive PmmOp where
  | alloc
  | free (page : Nat)
  /-- Somebody changes memory. -/
  | write (mem : Mem)

/-- A kernel and the frames returned by `pmm_alloc_phys` and not freed since. -/
structure PmmState where
  kernel : Kernel
  held : Set Nat

/-- A call frees the page its pointer points into. -/
inductive pmmStep : PmmState → PmmOp → PmmState → Prop where
  | alloc {s : PmmState} : pmmStep s .alloc
      ⟨s.kernel.pmmAllocPhys.2,
        if s.kernel.pmmAllocPhys.1 = 0 then s.held else insert s.kernel.pmmAllocPhys.1 s.held⟩
  | free {s : PmmState} {page : Nat} : pmmStep s (.free page)
      ⟨s.kernel.pmmFree page, s.held \ {pageOf (s.kernel.phys page)}⟩
  | write {s : PmmState} {m : Mem} (h : ∀ x, pageOf x ∈ s.kernel.Bitmap → m x = s.kernel.mem x) :
      pmmStep s (.write m) ⟨{ s.kernel with mem := m }, s.held⟩

/-- The bitmap's account of usable memory, with the globals `g`. -/
structure Ledger (g : Globals) (s : PmmState) : Prop where
  globals : s.kernel.toGlobals = g
  ok : g.PmmOk
  early : g.vmmInitialised = false
  zero : ¬ Usable g.memmapEntries 0
  bitmap : s.kernel.BitmapHeld
  free : ∀ f, f ∈ s.kernel.Free ↔
    f % 0x1000 = 0 ∧ Usable g.memmapEntries f ∧ f ∉ g.Bitmap ∧ f ∉ s.held

section Step

variable {g : Globals} {s s' : PmmState}

theorem Ledger.kernel_ok (h : Ledger g s) : s.kernel.PmmOk := by
  rw [h.globals]; exact h.ok

/-- An operation that keeps the globals and the bitmap's marks keeps the ledger, when the free
frames change as the held ones do. -/
theorem Ledger.of_kernel {k : Kernel} {held : Set Nat} (h : Ledger g s)
    (hg : k.toGlobals = s.kernel.toGlobals) (hb : k.BitmapHeld)
    (hfree : ∀ f, f ∈ k.Free ↔ f % 0x1000 = 0 ∧ Usable g.memmapEntries f ∧ f ∉ g.Bitmap ∧
      f ∉ held) : Ledger g ⟨k, held⟩ :=
  ⟨hg.trans h.globals, h.ok, h.early, h.zero, hb, hfree⟩

theorem Ledger.alloc (h : Ledger g s) : Ledger g ⟨s.kernel.pmmAllocPhys.2,
    if s.kernel.pmmAllocPhys.1 = 0 then s.held else insert s.kernel.pmmAllocPhys.1 s.held⟩ := by
  have hg := pmmAllocPhys_toGlobals s.kernel
  have hk := h.kernel_ok
  rcases pmmAllocPhys_cases hk with ⟨_, he⟩ | ⟨i, hi, hb, _, he⟩
  · rw [he] at hg ⊢
    have hfree : (s.kernel.log (.alloc 0)).Free = s.kernel.Free := free_congr hk rfl fun _ _ => rfl
    refine h.of_kernel hg (bitmapHeld_congr hk rfl (fun _ _ => rfl) h.bitmap) ?_
    rw [hfree]
    exact h.free
  · have hne : s.kernel.pmmGetAddressByIndex i ≠ 0 := by
      intro h0
      have hu := (hk.address hi).1
      rw [h0, h.globals] at hu
      exact h.zero hu
    rw [he] at hg ⊢
    have hok : (s.kernel.pmmSetUsablePageAllocatedByIndex i true).PmmOk := by
      rw [set_toGlobals]; exact hk
    refine h.of_kernel hg (bitmapHeld_congr hok rfl (fun _ _ => rfl)
      (bitmapHeld_set hk hi (.inl rfl) h.bitmap)) fun f => ?_
    have hlog : ((s.kernel.pmmSetUsablePageAllocatedByIndex i true).log
        (.alloc (s.kernel.pmmGetAddressByIndex i))).Free =
        (s.kernel.pmmSetUsablePageAllocatedByIndex i true).Free :=
      free_congr hok rfl fun _ _ => rfl
    rw [hlog, free_set_true hk hi, Set.mem_sdiff, h.free, if_neg hne, Set.mem_insert_iff,
      Set.mem_singleton_iff]
    tauto

/-- Freeing an address outside usable memory, or in a bitmap page, leaves the account as it is. -/
theorem Ledger.unheld (h : Ledger g s) {a : Nat}
    (ha : ¬ Usable g.memmapEntries a ∨ pageOf a ∈ g.Bitmap) (f : Nat) :
    f ∈ s.kernel.Free ↔ f % 0x1000 = 0 ∧ Usable g.memmapEntries f ∧ f ∉ g.Bitmap ∧
      f ∉ s.held \ {pageOf a} := by
  rw [h.free, Set.mem_sdiff, Set.mem_singleton_iff]
  constructor
  · rintro ⟨h₁, h₂, h₃, h₄⟩
    exact ⟨h₁, h₂, h₃, fun hc => h₄ hc.1⟩
  · rintro ⟨h₁, h₂, h₃, h₄⟩
    refine ⟨h₁, h₂, h₃, fun hheld => h₄ ⟨hheld, ?_⟩⟩
    rintro rfl
    rcases ha with ha | ha
    · exact ha (h₂.of_page h.ok.map h₁ (by simp only [pageOf]; omega) (by simp only [pageOf]; omega))
    · exact h₃ ha

theorem Ledger.release (h : Ledger g s) (page : Nat) :
    Ledger g ⟨s.kernel.pmmFree page, s.held \ {pageOf (s.kernel.phys page)}⟩ := by
  have hk := h.kernel_ok
  have hphys : s.kernel.pmmVirtToPhys page = s.kernel.phys page := by
    rw [pmmVirtToPhys, hk.offset, h.globals, h.early, Globals.phys]
    rfl
  rw [pmmFree, hphys]
  generalize s.kernel.phys page = a
  simp only []
  by_cases hmax : a = uint64Max
  · rw [if_pos hmax]
    refine h.of_kernel rfl h.bitmap (h.unheld (.inl fun hu => ?_))
    have := hu.lt h.ok.map
    simp only [uint64Max] at hmax
    omega
  rw [if_neg hmax]
  by_cases hge : s.kernel.pmmGetIndexByAddress a ≥ s.kernel.pmmBitmapPages
  · have hnot := (release_guard hk a).mp hge
    obtain ⟨hg, hb, _, _, hfree⟩ := release_spec hk h.bitmap a hnot
    generalize s.kernel.pmmSetUsablePageAllocatedByIndex (s.kernel.pmmGetIndexByAddress a) false = k
      at hg hb hfree ⊢
    rw [h.globals] at hnot hfree
    have hkok : k.PmmOk := by rw [hg]; exact hk
    rw [if_pos hge, if_neg (by rw [log_toGlobals, hg, h.globals, h.early]; decide)]
    refine h.of_kernel hg (bitmapHeld_congr hkok rfl (fun _ _ => rfl) hb) fun f => ?_
    have hlog : (k.log (.free a)).Free = k.Free := free_congr hkok rfl fun _ _ => rfl
    rw [hlog, hfree]
    by_cases hu : Usable g.memmapEntries a
    · have hup := hu.page h.ok.map
      have hal : pageOf a % 0x1000 = 0 := by simp only [pageOf]; omega
      rw [h.free, Set.mem_sdiff, Set.mem_singleton_iff]
      constructor
      · rintro (hf | ⟨rfl, _⟩)
        · exact ⟨hf.1, hf.2.1, hf.2.2.1, fun hc => hf.2.2.2 hc.1⟩
        · exact ⟨hal, hup, hnot, fun hc => hc.2 rfl⟩
      · rintro ⟨h₁, h₂, h₃, h₄⟩
        by_cases hfa : f = pageOf a
        · exact .inr ⟨hfa, hu⟩
        · exact .inl ⟨h₁, h₂, h₃, fun hheld => h₄ ⟨hheld, hfa⟩⟩
    · rw [h.unheld (.inl hu)]
      simp only [hu, and_false, or_false]
  · rw [if_neg hge]
    refine h.of_kernel rfl h.bitmap (h.unheld (.inr ?_))
    by_contra hnot
    exact hge ((release_guard hk a).mpr (by rw [h.globals]; exact hnot))

theorem ledger_step {op : PmmOp} (h : Ledger g s) (hs : pmmStep s op s') : Ledger g s' := by
  have hk := h.kernel_ok
  cases hs with
  | alloc => exact h.alloc
  | free => exact h.release _
  | @write m hm =>
    have hfree : ({ s.kernel with mem := m } : Kernel).Free = s.kernel.Free := free_congr hk rfl hm
    refine h.of_kernel rfl (bitmapHeld_congr hk rfl hm h.bitmap) ?_
    rw [hfree]
    exact h.free

theorem pmmInit_ledger {k : Kernel} {bd : BootData} (hb : BootOk k bd) (hm : MemmapOk bd.memmap)
    (hpos : 0 < usablePages bd.memmap) (h0 : ¬ Usable bd.memmap 0)
    (hv : k.vmmInitialised = false) : Ledger (initGlobals k bd) ⟨k.pmmInit bd, ∅⟩ := by
  obtain ⟨hg, hheld, _, hfree⟩ := pmmInit_spec hb hm hpos
  refine ⟨hg, initGlobals_ok hb hm hpos, hv, h0, hheld, fun f => ?_⟩
  rw [hfree, hg]
  simp only [initGlobals, Set.mem_empty_iff_false, not_false_eq_true, and_true]

end Step

/-- Over any run since `pmm_init`, an allocation returns a usable frame that is neither the
bitmap's nor held, and `0` only when no such frame is left. -/
theorem pmmAllocPhys_fresh {k : Kernel} {bd : BootData} {s : PmmState} {ops : List PmmOp}
    (hb : BootOk k bd) (hm : MemmapOk bd.memmap) (hpos : 0 < usablePages bd.memmap)
    (h0 : ¬ Usable bd.memmap 0) (hv : k.vmmInitialised = false)
    (hrun : Run.Exec pmmStep ⟨k.pmmInit bd, ∅⟩ ops s) :
    let f := s.kernel.pmmAllocPhys.1
    (f ≠ 0 → f % 0x1000 = 0 ∧ Usable bd.memmap f ∧ f ∉ s.kernel.Bitmap ∧ f ∉ s.held) ∧
    (f = 0 → ∀ a, a % 0x1000 = 0 → Usable bd.memmap a → a ∈ s.kernel.Bitmap ∨ a ∈ s.held) := by
  have h : Ledger (initGlobals k bd) s :=
    hrun.inv (I := Ledger (initGlobals k bd)) (fun _ _ _ => ledger_step)
      (pmmInit_ledger hb hm hpos h0 hv)
  have hmap : (initGlobals k bd).memmapEntries = bd.memmap := rfl
  have hfree := h.free
  rw [hmap, ← h.globals] at hfree
  rcases pmmAllocPhys_cases h.kernel_ok with ⟨hempty, he⟩ | ⟨i, hi, hbit, _, he⟩
  · rw [he]
    refine ⟨fun hne => absurd rfl hne, fun _ a hal hu => ?_⟩
    by_contra hc
    have : a ∈ s.kernel.Free := (hfree a).mpr ⟨hal, hu, not_or.mp hc⟩
    rw [hempty] at this
    exact this
  · have hf := (hfree _).mp ⟨i, hi, rfl, hbit⟩
    rw [he]
    exact ⟨fun _ => hf, fun hz => absurd (hz ▸ hf.2.1) h0⟩

/-- A machine whose allocator has handed out one frame. -/
def machineFirst : PmmState :=
  let k := (bareMachine []).pmmInit machineBoot
  ⟨k.pmmAllocPhys.2, if k.pmmAllocPhys.1 = 0 then ∅ else insert k.pmmAllocPhys.1 ∅⟩

/-- Its second allocation. -/
theorem machineFirst_fresh :
    let f := machineFirst.kernel.pmmAllocPhys.1
    (f ≠ 0 → f % 0x1000 = 0 ∧ Usable machineBoot.memmap f ∧ f ∉ machineFirst.kernel.Bitmap ∧
      f ∉ machineFirst.held) ∧
    (f = 0 → ∀ a, a % 0x1000 = 0 → Usable machineBoot.memmap a →
      a ∈ machineFirst.kernel.Bitmap ∨ a ∈ machineFirst.held) :=
  pmmAllocPhys_fresh (machine_boot []) machine_memmapOk (by decide)
    (fun h => by have := machine_usable.mp h; omega) rfl (.cons .alloc .nil)

/-! ## The numbering of pages -/

/-- After `pmm_init` the index of a usable page and its address are each other's inverse, and any
other index or address has none. -/
theorem pmmInit_numbering {k : Kernel} {bd : BootData} (h0 : k.pmmUsablePages = 0)
    (hm : MemmapOk bd.memmap) :
    let g := (k.pmmInit bd).toGlobals
    (∀ i < g.pmmUsablePages, g.pmmGetIndexByAddress (g.pmmGetAddressByIndex i) = i) ∧
    (∀ a, Usable bd.memmap a →
      g.pmmGetAddressByIndex (g.pmmGetIndexByAddress a) = a - a % 0x1000) ∧
    (∀ i, g.pmmUsablePages ≤ i → g.pmmGetAddressByIndex i = uint64Max) ∧
    (∀ a, ¬ Usable bd.memmap a → g.pmmGetIndexByAddress a = uint64Max) := by
  intro g
  have hg : g = initGlobals k bd := pmmInit_toGlobals h0 hm
  have hmap : g.memmapEntries = bd.memmap := by rw [hg]; rfl
  have hpages : g.pmmUsablePages = usablePages bd.memmap := by rw [hg]; rfl
  have hle := usablePages_le hm
  simp only [Globals.pmmGetAddressByIndex, Globals.pmmGetIndexByAddress, hmap, hpages]
  refine ⟨?_, ?_, ?_, ?_⟩
  · intro i hi
    exact (getAddressFrom_spec hm (Nat.zero_le i) (by omega) (by omega)).2.2
  · intro a ha
    exact (getIndexFrom_spec hm 0 ha (by omega)).2.2
  · intro i hi
    exact getAddressFrom_none (by omega) (by omega)
  · intro a ha
    exact getIndexFrom_none hm ha

/-- A map with a gap, an empty region and a reserved one between its usable pages. -/
def scatteredBoot : BootData :=
  { machineBoot with
    memmap := [⟨0x1000, 0x3000, memmapUsable⟩, ⟨0x4000, 0, memmapUsable⟩,
      ⟨0x4000, 0x1800, memmapReserved⟩, ⟨0x8000, 0x2000, memmapUsable⟩] }

theorem scattered_memmapOk : MemmapOk scatteredBoot.memmap where
  aligned := by decide
  below := by decide
  disjoint := by
    simp only [scatteredBoot, List.pairwise_cons, MemmapEntry.Covers, memmapUsable, memmapReserved]
    simp
    omega

theorem pmmInit_numbering_scattered :
    let g := ((bareMachine []).pmmInit scatteredBoot).toGlobals
    (∀ i < g.pmmUsablePages, g.pmmGetIndexByAddress (g.pmmGetAddressByIndex i) = i) ∧
    (∀ a, Usable scatteredBoot.memmap a →
      g.pmmGetAddressByIndex (g.pmmGetIndexByAddress a) = a - a % 0x1000) ∧
    (∀ i, g.pmmUsablePages ≤ i → g.pmmGetAddressByIndex i = uint64Max) ∧
    (∀ a, ¬ Usable scatteredBoot.memmap a → g.pmmGetIndexByAddress a = uint64Max) :=
  pmmInit_numbering rfl scattered_memmapOk

end BambooOS
