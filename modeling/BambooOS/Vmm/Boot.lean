import BambooOS.Vmm.Tree

/-!
# Vmm.Boot

The state in which the page operations start: `pmm_init`, then `vmm_init` with the tree the
bootloader left in `cr3`.

* `vmmInit_owned`: that tree is the current one, and the allocator owns none of its frames.
* `machine`: a small machine with given table slots, on which the worked cases run.
-/

namespace BambooOS

open ByteMem Radix Kernel

section Init

variable {k : Kernel} {bd : BootData} {cr3 : Nat} {T : PageTree}

theorem vmmInit_free (k : Kernel) (bd : BootData) (cr3 : Nat) :
    (k.vmmInit bd cr3).Free = k.Free := by
  simp only [Free, vmmInit, Globals.pmmGetAddressByIndex, pmmIsUsablePageAllocatedByIndex,
    Globals.pmmPhysToVirt, ld8, Globals.phys]

theorem vmmInit_held (h : k.BitmapHeld) : (k.vmmInit bd cr3).BitmapHeld := by
  intro i hi
  have := h i hi
  simpa only [vmmInit, Globals.pmmGetAddressByIndex, pmmIsUsablePageAllocatedByIndex,
    Globals.pmmPhysToVirt, ld8, Globals.phys] using this

theorem vmmInit_ok (hk : k.PmmOk) (ho : bd.higherHalf.offset = k.hhdm) :
    (k.vmmInit bd cr3).VmmOk where
  map := hk.map
  pos := hk.pos
  usable := hk.usable
  bitmap := hk.bitmap
  offset := hk.offset
  hhdm_lt := hk.hhdm_lt
  initialised := rfl
  tables := ho

/-- A tree of the bootloader, stored outside usable memory, survives both initialisations. -/
theorem vmmInit_owned {root : Nat} (hb : BootOk k bd) (hm : MemmapOk bd.memmap)
    (hpos : 0 < usablePages bd.memmap) (hT : Stored k root T)
    (hres : ∀ f ∈ T.frames fmt.base, ¬ Usable bd.memmap f) :
    Owned ((k.pmmInit bd).vmmInit bd cr3) root T ∧
      ((k.pmmInit bd).vmmInit bd cr3).pml4 = ((k.pmmInit bd).vmmInit bd cr3).virt cr3 := by
  obtain ⟨hg, hheld, hkept, hfree⟩ := pmmInit_spec hb hm hpos
  have hok : (k.pmmInit bd).PmmOk := by rw [hg]; exact initGlobals_ok hb hm hpos
  have hoff : bd.higherHalf.offset = (k.pmmInit bd).hhdm := by
    rw [hg]; exact hb.offset
  have hmap : (k.pmmInit bd).memmapEntries = bd.memmap := by rw [hg]; rfl
  have hbit : Disjoint (T.frames fmt.base) (k.pmmInit bd).Bitmap := by
    rw [Set.disjoint_left]
    rintro f hf ⟨i, hi, rfl⟩
    have hu := (hok.address (lt_of_lt_of_le hi hok.bitmap_le)).1
    rw [hmap] at hu
    exact hres _ hf hu
  refine ⟨⟨vmmInit_ok hok hoff, vmmInit_held hheld, hT.congr hkept hbit, ?_, hbit⟩, ?_⟩
  · rw [vmmInit_free, Set.disjoint_left]
    intro f hf hff
    exact hres f hf ((hfree f).mp hff).2.1
  · simp only [vmmInit, Globals.virt, hoff]

end Init

/-! ## Trees with one path -/

/-- A table whose only entry is `i`. -/
def PageTree.single (e : Nat) (i : Fin 512) (t : PageTree) : PageTree :=
  .table e (Function.update (fun _ => .none) i t)

section Single

variable {rd : Nat → Fin 512 → Nat} {e l : Nat} {i : Fin 512} {t : PageTree}

theorem single_rep (he : fmt.table l e) (hz : ∀ j, j ≠ i → rd (vmmPtEntryGetAddress e) j = 0)
    (ht : t.Rep fmt rd (l - 1) (rd (vmmPtEntryGetAddress e) i)) :
    (PageTree.single e i t).Rep fmt rd l e := by
  refine ⟨rfl, he, fun j => ?_⟩
  by_cases hj : j = i
  · subst hj
    rw [Function.update_self]
    exact ht
  · rw [Function.update_of_ne hj]
    exact hz j hj

theorem single_frames : (PageTree.single e i t).frames fmt.base =
    insert (vmmPtEntryGetAddress e) (t.frames fmt.base) := by
  ext f
  simp only [PageTree.single, Tree.frames, Set.mem_insert_iff, Set.mem_iUnion]
  constructor
  · rintro (h | ⟨j, h⟩)
    · exact .inl h
    · by_cases hj : j = i
      · subst hj
        rw [Function.update_self] at h
        exact .inr h
      · rw [Function.update_of_ne hj] at h
        exact absurd h (by simp [Tree.frames])
  · rintro (h | h)
    · exact .inl h
    · exact .inr ⟨i, by rwa [Function.update_self]⟩

theorem single_sep (ht : t.Sep fmt.base) (he : vmmPtEntryGetAddress e ∉ t.frames fmt.base) :
    (PageTree.single e i t).Sep fmt.base := by
  have hout : ∀ j, j ≠ i →
      (Function.update (fun _ => Tree.none) i t j : PageTree).frames fmt.base = ∅ := by
    intro j hj
    rw [Function.update_of_ne hj]
    rfl
  refine ⟨fun j => ?_, fun j j' hne => ?_, fun j => ?_⟩
  · by_cases hj : j = i
    · subst hj
      rw [Function.update_self]
      exact he
    · rw [hout j hj]
      exact Set.notMem_empty _
  · by_cases hj : j = i
    · rw [hout j' fun h => hne (hj.trans h.symm)]
      exact Set.disjoint_empty _
    · rw [hout j hj]
      exact Set.empty_disjoint _
  · by_cases hj : j = i
    · subst hj
      rw [Function.update_self]
      exact ht
    · rw [Function.update_of_ne hj]
      trivial

theorem single_find (p : Nat → Fin 512) (l : Nat) : (PageTree.single e i t).find p l =
    if p (l - 1) = i then t.find p (l - 1) else none := by
  simp only [PageTree.single, Tree.find]
  split
  · rename_i h
    rw [h, Function.update_self]
  · rename_i h
    rw [Function.update_of_ne h]
    rfl

theorem single_find_none (ht : ∀ p l, t.find p l = none) (p : Nat → Fin 512) (l : Nat) :
    (PageTree.single e i t).find p l = none := by
  rw [single_find, ht, ite_self]

end Single

/-! ## A small machine -/

/-- Memory that is zero but for some 64-bit slots. -/
def slotsMem : List (Nat × Nat) → Mem
  | [] => fun _ => 0#8
  | (a, v) :: l => store (slotsMem l) a 8 v

theorem slotsMem_load {l : List (Nat × Nat)} (hl : ∀ s ∈ l, s.1 % 8 = 0 ∧ s.2 < 2 ^ 64) {a : Nat}
    (ha : a % 8 = 0) : load (slotsMem l) a 8 = (l.lookup a).getD 0 := by
  induction l with
  | nil => exact load_of_zero fun _ _ _ => rfl
  | cons s l ih =>
    obtain ⟨hal, hv⟩ := hl s List.mem_cons_self
    rw [slotsMem, List.lookup_cons]
    by_cases has : a = s.1
    · rw [has, load_store_same (by omega)]
      simp
    · rw [load_store_other (by omega), ih fun s' hs' => hl s' (List.mem_cons_of_mem _ hs')]
      have : (a == s.1) = false := by simpa using has
      rw [this]

/-- What the bootloader reports: 512 usable pages from 1 MiB on. -/
def machineBoot : BootData :=
  { higherHalf := { offset := 0xFFFF800000000000, kernelStart := 0, kernelEnd := 0 }
    memmap := [⟨0x100000, 0x200000, memmapUsable⟩] }

/-- The machine before `pmm_init`, with the given table slots. -/
def bareMachine (slots : List (Nat × Nat)) : Kernel :=
  { hhdm := 0xFFFF800000000000, higherHalfOffset := 0, memmapEntries := []
    pmmUsablePages := 0, pmmBitmapPages := 0, vmmPageTablesOffset := 0, pml4 := 0
    vmmInitialised := false, mem := slotsMem slots, pmmNumAllocatedPages := 0, trace := [] }

/-- The machine after both initialisations, with its tables from 4 MiB on. -/
def machine (slots : List (Nat × Nat)) : Kernel :=
  ((bareMachine slots).pmmInit machineBoot).vmmInit machineBoot 0x400000

theorem machine_rd {slots : List (Nat × Nat)} {f : Nat} {j : Fin 512}
    (h : (∀ s ∈ slots, s.1 % 8 = 0 ∧ s.2 < 2 ^ 64) ∧ f % 8 = 0) :
    (bareMachine slots).rd f j = (slots.lookup (f + 8 * j.val)).getD 0 :=
  slotsMem_load h.1 (by omega)

theorem machine_rd_zero {slots : List (Nat × Nat)} {f : Nat} {i : Fin 512}
    (h : (∀ s ∈ slots, s.1 % 8 = 0 ∧ s.2 < 2 ^ 64 ∧
      (s.1 < f ∨ s.1 = f + 8 * i.val ∨ f + 0x1000 ≤ s.1)) ∧ f % 8 = 0)
    (j : Fin 512) (hj : j ≠ i) : (bareMachine slots).rd f j = 0 := by
  obtain ⟨hs, hf⟩ := h
  have hj0 : j.val ≠ i.val := fun h => hj (Fin.ext h)
  have hlt := j.isLt
  rw [machine_rd ⟨fun s hm => ⟨(hs s hm).1, (hs s hm).2.1⟩, hf⟩, List.lookup_eq_none_iff.mpr]
  · rfl
  · intro s hm
    have := (hs s hm).2.2
    simp only [bne_iff_ne, ne_eq]
    omega

theorem machine_single {slots : List (Nat × Nat)} {l e v : Nat} {i : Fin 512} {t : PageTree}
    (he : fmt.table l e)
    (hs : (∀ s ∈ slots, s.1 % 8 = 0 ∧ s.2 < 2 ^ 64 ∧ (s.1 < vmmPtEntryGetAddress e ∨
      s.1 = vmmPtEntryGetAddress e + 8 * i.val ∨ vmmPtEntryGetAddress e + 0x1000 ≤ s.1)) ∧
      vmmPtEntryGetAddress e % 8 = 0)
    (hv : (slots.lookup (vmmPtEntryGetAddress e + 8 * i.val)).getD 0 = v)
    (ht : t.Rep fmt (bareMachine slots).rd (l - 1) v) :
    (PageTree.single e i t).Rep fmt (bareMachine slots).rd l e := by
  refine single_rep he (machine_rd_zero hs) ?_
  rw [machine_rd ⟨fun s hm => ⟨(hs.1 s hm).1, (hs.1 s hm).2.1⟩, hs.2⟩, hv]
  exact ht

theorem machine_memmapOk : MemmapOk machineBoot.memmap where
  aligned := by decide
  below := by decide
  disjoint := List.pairwise_singleton _ _

theorem machine_boot (slots : List (Nat × Nat)) : BootOk (bareMachine slots) machineBoot where
  usable := rfl
  allocated := rfl
  offset := rfl
  hhdm_lt := by simp only [bareMachine]; omega

theorem machine_usable {a : Nat} : Usable machineBoot.memmap a ↔ 0x100000 ≤ a ∧ a < 0x300000 := by
  simp [Usable, machineBoot, MemmapEntry.Covers]

def machineGlobals : Globals :=
  { hhdm := 0xFFFF800000000000, higherHalfOffset := 0xFFFF800000000000
    memmapEntries := machineBoot.memmap, pmmUsablePages := 512, pmmBitmapPages := 1
    vmmPageTablesOffset := 0xFFFF800000000000, pml4 := 0xFFFF800000400000, vmmInitialised := true }

theorem machine_toGlobals (slots : List (Nat × Nat)) :
    (machine slots).toGlobals = machineGlobals := by
  obtain ⟨hg, _⟩ := pmmInit_spec (machine_boot slots) machine_memmapOk (by decide)
  have h : (machine slots).toGlobals =
      { ((bareMachine slots).pmmInit machineBoot).toGlobals with
        vmmPageTablesOffset := 0xFFFF800000000000, pml4 := 0xFFFF800000400000
        vmmInitialised := true } := rfl
  rw [h, hg]
  rfl

theorem machine_bitmap : machineGlobals.Bitmap = {0x100000} := by
  ext a
  simp only [Globals.Bitmap, Set.mem_ofPred_eq, Set.mem_singleton_iff]
  constructor
  · rintro ⟨i, hi, rfl⟩
    obtain rfl : i = 0 := by
      have : machineGlobals.pmmBitmapPages = 1 := rfl
      omega
    decide
  · rintro rfl
    exact ⟨0, by decide, by decide⟩

theorem machine_free {slots : List (Nat × Nat)} {a : Nat} : a ∈ (machine slots).Free ↔
    a % 0x1000 = 0 ∧ 0x101000 ≤ a ∧ a < 0x300000 := by
  obtain ⟨_, _, _, hfree⟩ := pmmInit_spec (machine_boot slots) machine_memmapOk (by decide)
  have hb : ((bareMachine slots).pmmInit machineBoot).Bitmap = {0x100000} := by
    rw [← machine_bitmap, ← machine_toGlobals slots]
    rfl
  rw [machine, vmmInit_free, hfree, machine_usable, hb, Set.mem_singleton_iff]
  omega

theorem machine_stocked (slots : List (Nat × Nat)) : (machine slots).Stocked 511 where
  supplied := pmmInit_supplied machineBoot (by simp [Supplied, bareMachine])
  zero := fun h => by have := machine_free.mp h; omega
  stock := by
    refine ⟨(Finset.range 511).image fun i => 0x101000 + i * 0x1000, ?_, ?_⟩
    · rw [Finset.card_image_of_injective _ fun i j h => by simpa using h, Finset.card_range]
    · intro a ha
      simp only [Finset.coe_image, Set.mem_image, Finset.coe_range, Set.mem_Iio] at ha
      obtain ⟨i, hi, rfl⟩ := ha
      exact machine_free.mpr (by omega)

theorem machine_virt (slots : List (Nat × Nat)) {a : Nat} (ha : a < 2 ^ 47) :
    (machine slots).virt a = 0xFFFF800000000000 + a := by
  rw [machine_toGlobals, Globals.virt]
  simp only [machineGlobals]
  omega

theorem machine_owned {slots : List (Nat × Nat)} {root : Nat} {T : PageTree}
    (hT : Stored (bareMachine slots) root T) (hres : ∀ f ∈ T.frames fmt.base, 0x300000 ≤ f) :
    Owned (machine slots) root T ∧ (machine slots).pml4 = (machine slots).virt 0x400000 :=
  vmmInit_owned (machine_boot slots) machine_memmapOk (by decide) hT fun f hf hu => by
    have := hres f hf
    have := machine_usable.mp hu
    omega

/-! ## Its first table of pages -/

def chainSlots : List (Nat × Nat) :=
  [(0x400000, 0x401003), (0x401000, 0x402003), (0x402000, 0x403003)]

/-- The tables down to an empty PT for the first 2 MiB. -/
def chainTree : PageTree :=
  .single 0x400000 0 (.single 0x401003 0 (.single 0x402003 0 (.single 0x403003 0 .none)))

theorem chain_bases : vmmPtEntryGetAddress 0x400000 = 0x400000 ∧
    vmmPtEntryGetAddress 0x401003 = 0x401000 ∧ vmmPtEntryGetAddress 0x402003 = 0x402000 ∧
    vmmPtEntryGetAddress 0x403003 = 0x403000 := by decide

theorem chainTree_frames :
    chainTree.frames fmt.base = {0x400000, 0x401000, 0x402000, 0x403000} := by
  obtain ⟨e₀, e₁, e₂, e₃⟩ := chain_bases
  simp only [chainTree, single_frames, Tree.frames, e₀, e₁, e₂, e₃, insert_empty_eq]

theorem chainTree_stored : Stored (bareMachine chainSlots) 0x400000 chainTree := by
  obtain ⟨e₀, e₁, e₂, e₃⟩ := chain_bases
  have hrep : chainTree.Rep fmt (bareMachine chainSlots).rd 4 0x400000 := by
    refine machine_single (v := 0x401003) (.inl rfl) (by decide) (by decide) ?_
    refine machine_single (v := 0x402003) (.inr ⟨by decide, .inl rfl⟩) (by decide) (by decide) ?_
    refine machine_single (v := 0x403003) (.inr ⟨by decide, .inr ⟨.inr rfl, by decide⟩⟩) (by decide)
      (by decide) ?_
    exact machine_single (v := 0) (.inr ⟨by decide, .inr ⟨.inl rfl, by decide⟩⟩) (by decide)
      (by decide) rfl
  refine ⟨⟨_, rfl⟩, hrep, single_sep (single_sep (single_sep (single_sep trivial ?_) ?_) ?_) ?_,
    by decide, by decide⟩
  all_goals simp [single_frames, Tree.frames, e₀, e₁, e₂, e₃]

theorem chainTree_find (p : Nat → Fin 512) (l : Nat) : chainTree.find p l = none :=
  single_find_none (single_find_none (single_find_none (single_find_none fun _ _ => rfl))) p l

theorem chainMachine_owned : Owned (machine chainSlots) 0x400000 chainTree ∧
    (machine chainSlots).pml4 = (machine chainSlots).virt 0x400000 := by
  refine machine_owned chainTree_stored ?_
  intro f hf
  rw [chainTree_frames] at hf
  simp only [Set.mem_insert_iff, Set.mem_singleton_iff] at hf
  omega

end BambooOS
