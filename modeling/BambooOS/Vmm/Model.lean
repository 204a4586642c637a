import BambooOS.Pmm.Model

/-!
# Vmm.Model

`mem/vmm.c` and the part of `mem/pmm.c` that calls it. Tables are reached through higher-half
pointers; the addresses stored in entries are physical. `invlpg` changes no modelled state.

The blocks the source repeats inline are named once: `ensureEntry` creates a missing table,
`splitEntry` replaces a large leaf by a table.
-/

namespace BambooOS

open ByteMem

/-! ## Entries and indices -/

def ptEntryPresent : Nat := 0b1
def ptEntryReadWrite : Nat := 0b10
def ptEntryUserAccess : Nat := 0b100
def ptEntryWriteThrough : Nat := 0b1000
def ptEntryCacheDisabled : Nat := 0b10000
def ptEntryAccessed : Nat := 0b100000
def ptEntryLargerPages : Nat := 0b10000000

def pml4Index (v : Nat) : Nat := (v >>> 39) &&& 0x1FF
def pdptIndex (v : Nat) : Nat := (v >>> 30) &&& 0x1FF
def pdIndex (v : Nat) : Nat := (v >>> 21) &&& 0x1FF
def ptIndex (v : Nat) : Nat := (v >>> 12) &&& 0x1FF

/-- `vmm_pt_entry_set_address` on the value of an entry. -/
def vmmPtEntrySetAddress (value address : Nat) : Nat :=
  (value &&& 0xFFF0000000000FFF) ||| ((address &&& 0x000FFFFFFFFFFFFF) &&& 0x000FFFFFFFFFF000)

def vmmPtEntryGetAddress (value : Nat) : Nat := value &&& 0x000FFFFFFFFFF000

namespace Kernel

/-- The higher-half pointer to the table an entry points to. -/
def tableOf (k : Kernel) (entry : Nat) : Nat :=
  (vmmPtEntryGetAddress (k.ld64 entry) + k.vmmPageTablesOffset) % 2 ^ 64

/-- The walk of `vmm_virt_to_phys` over the table tree at `pml4`. -/
def vmmVirtToPhys (k : Kernel) (virtualAddress : Nat) : Nat :=
  if k.vmmInitialised = false then uint64Max
  else
    let pml4Entry := k.pml4 + 8 * pml4Index virtualAddress
    if k.ld64 pml4Entry &&& ptEntryPresent = 0 then uint64Max
    else
      let pdptEntry := k.tableOf pml4Entry + 8 * pdptIndex virtualAddress
      if k.ld64 pdptEntry &&& ptEntryPresent = 0 then uint64Max
      else if k.ld64 pdptEntry &&& ptEntryLargerPages ≠ 0 then
        (vmmPtEntryGetAddress (k.ld64 pdptEntry) + virtualAddress % (0x1000 * 512 * 512)) % 2 ^ 64
      else
        let pdEntry := k.tableOf pdptEntry + 8 * pdIndex virtualAddress
        if k.ld64 pdEntry &&& ptEntryPresent = 0 then uint64Max
        else if k.ld64 pdEntry &&& ptEntryLargerPages ≠ 0 then
          (vmmPtEntryGetAddress (k.ld64 pdEntry) + virtualAddress % (0x1000 * 512)) % 2 ^ 64
        else
          let ptEntry := k.tableOf pdEntry + 8 * ptIndex virtualAddress
          if k.ld64 ptEntry &&& ptEntryPresent = 0 then uint64Max
          else vmmPtEntryGetAddress (k.ld64 ptEntry)

/-! ## Creating and splitting entries -/

def vmmInitPtEntry (k : Kernel) (entry : Nat) : Kernel :=
  let (page, k) := k.pmmAllocz
  k.st64 entry (vmmPtEntrySetAddress (k.ld64 entry) ((page + (2 ^ 64 - k.vmmPageTablesOffset)) % 2 ^ 64))

/-- `entry->value |= flag`. -/
def orEntry (k : Kernel) (entry flag : Nat) : Kernel := k.st64 entry (k.ld64 entry ||| flag)

/-- The block `if(!(entry->value & PT_ENTRY_PRESENT)) { ... }`. -/
def ensureEntry (k : Kernel) (entry : Nat) : Kernel :=
  if k.ld64 entry &&& ptEntryPresent = 0 then
    let k := k.vmmInitPtEntry entry
    let k := k.orEntry entry ptEntryReadWrite
    k.orEntry entry ptEntryPresent
  else k

/-- The loop body of a split: the entry `i` of the new table. -/
def splitBody (newTable basePhysAddr size i : Nat) (k : Kernel) : Kernel :=
  let nextEntry := newTable + 8 * i
  let k := k.st64 nextEntry (vmmPtEntrySetAddress (k.ld64 nextEntry) (basePhysAddr + i * size))
  let k := k.orEntry nextEntry ptEntryReadWrite
  k.orEntry nextEntry ptEntryPresent

/-- The block `if(entry->value & PT_ENTRY_LARGER_PAGES) { ... }`: a new table whose 512 entries
map `size` bytes each. -/
def splitEntry (k : Kernel) (entry size : Nat) : Kernel :=
  if k.ld64 entry &&& ptEntryLargerPages ≠ 0 then
    let basePhysAddr := vmmPtEntryGetAddress (k.ld64 entry)
    let (page, k) := k.pmmAllocz
    let newEntryAddress := (page + (2 ^ 64 - k.vmmPageTablesOffset)) % 2 ^ 64
    let newEntryValue := vmmPtEntrySetAddress 0 newEntryAddress ||| ptEntryReadWrite ||| ptEntryPresent
    let newTable := (newEntryAddress + k.vmmPageTablesOffset) % 2 ^ 64
    let k := Loop.upto (splitBody newTable basePhysAddr size) 512 k
    k.st64 entry newEntryValue
  else k

def splitPdptEntry (k : Kernel) (entry : Nat) : Kernel := k.splitEntry entry (0x1000 * 512)
def splitPdEntry (k : Kernel) (entry : Nat) : Kernel := k.splitEntry entry 0x1000

/-! ## Single pages -/

/-- The descent both `vmm_map_page_pml4` and `vmm_unmap_page` start with: the pointer to the PT
entry of an address, its missing tables created and its large leaves split. -/
def descend (k : Kernel) (pPml4 virtualAddress : Nat) : Nat × Kernel :=
  let pml4Entry := pPml4 + 8 * pml4Index virtualAddress
  let k := k.ensureEntry pml4Entry
  let pdptEntry := k.tableOf pml4Entry + 8 * pdptIndex virtualAddress
  let k := k.ensureEntry pdptEntry
  let k := k.splitPdptEntry pdptEntry
  let pdEntry := k.tableOf pdptEntry + 8 * pdIndex virtualAddress
  let k := k.ensureEntry pdEntry
  let k := k.splitPdEntry pdEntry
  (k.tableOf pdEntry + 8 * ptIndex virtualAddress, k)

/-- The argument is taken for a virtual address when it translates as one. -/
def convertPhys (k : Kernel) (physicalAddress : Nat) : Nat :=
  if k.vmmVirtToPhys physicalAddress ≠ uint64Max then k.vmmVirtToPhys physicalAddress
  else physicalAddress

def vmmMapPagePml4 (k : Kernel) (pPml4 physicalAddress virtualAddress flags : Nat) : Kernel :=
  let physicalAddress := k.convertPhys physicalAddress
  let (ptEntry, k) := k.descend pPml4 virtualAddress
  k.st64 ptEntry (vmmPtEntrySetAddress 0 physicalAddress ||| flags ||| ptEntryPresent)

def vmmMapPage (k : Kernel) (physicalAddress virtualAddress : Nat) : Kernel :=
  k.vmmMapPagePml4 k.pml4 physicalAddress virtualAddress ptEntryReadWrite

def vmmMapPageFlags (k : Kernel) (physicalAddress virtualAddress flags : Nat) : Kernel :=
  k.vmmMapPagePml4 k.pml4 physicalAddress virtualAddress flags

def vmmUnmapPage (k : Kernel) (virtualAddress : Nat) : Kernel :=
  let (ptEntry, k) := k.descend k.pml4 virtualAddress
  k.st64 ptEntry 0

/-! ## `pmm_free` -/

def pmmVirtToPhys (k : Kernel) (virt : Nat) : Nat :=
  if k.vmmInitialised then k.vmmVirtToPhys virt
  else (virt + (2 ^ 64 - k.higherHalfOffset)) % 2 ^ 64

def pmmFree (k : Kernel) (page : Nat) : Kernel :=
  let phys := k.pmmVirtToPhys page
  if phys = uint64Max then k
  else
    let index := k.pmmGetIndexByAddress phys
    -- the sentinel index of an unmanaged address passes this test too
    if index ≥ k.pmmBitmapPages then
      let k := (k.pmmSetUsablePageAllocatedByIndex index false).log (.free phys)
      if k.vmmInitialised then k.vmmMapPage phys (k.pmmPhysToVirt phys) else k
    else k

/-! ## Ranges of pages -/

/-- The local variables of `vmm_map_pages_pml4`. -/
structure MapCursor where
  pml4I : Nat
  pdptI : Nat
  pdI : Nat
  ptI : Nat
  pml4Entry : Nat
  pdpt : Nat
  pdptEntry : Nat
  pd : Nat
  pdEntry : Nat
  pt : Nat
  ptEntry : Nat
  currentPhys : Nat
  i : Nat

/-- `pml4_entry = &p_pml4->entries[pml4_i]` and the PDPT behind it. -/
def pml4Step (pPml4 : Nat) (c : MapCursor) (k : Kernel) : MapCursor × Kernel :=
  let entry := pPml4 + 8 * c.pml4I
  let k := k.ensureEntry entry
  ({ c with pml4Entry := entry, pdpt := k.tableOf entry }, k)

def pdptStep (c : MapCursor) (k : Kernel) : MapCursor × Kernel :=
  let entry := c.pdpt + 8 * c.pdptI
  let k := k.ensureEntry entry
  ({ c with pdptEntry := entry, pd := k.tableOf entry }, k)

def pdStep (c : MapCursor) (k : Kernel) : MapCursor × Kernel :=
  let entry := c.pd + 8 * c.pdI
  let k := k.ensureEntry entry
  ({ c with pdEntry := entry, pt := k.tableOf entry }, k)

def ptStep (c : MapCursor) (k : Kernel) : MapCursor × Kernel :=
  let entry := c.pt + 8 * c.ptI
  ({ c with ptEntry := entry }, k.ensureEntry entry)

/-- `entry->value |= PT_ENTRY_LARGER_PAGES; vmm_pt_entry_set_address(entry, current_phys);` -/
def setLarge (k : Kernel) (entry currentPhys : Nat) : Kernel :=
  let k := k.orEntry entry ptEntryLargerPages
  k.st64 entry (vmmPtEntrySetAddress (k.ld64 entry) currentPhys)

/-- The leaf one iteration sets: a 1 GiB, a 2 MiB or a 4 KiB one. -/
def mapLeaf (numPages : Nat) (c : MapCursor) (k : Kernel) : MapCursor × Kernel :=
  if numPages - 1 - c.i > 512 * 512 ∧ c.pdI = 0 ∧ c.ptI = 0 then
    let k := k.pmmFree c.pt
    let k := k.pmmFree c.pd
    let k := k.setLarge c.pdptEntry c.currentPhys
    ({ c with ptI := c.ptI + 512, pdI := c.pdI + 512, i := c.i + (512 * 512 - 1)
              currentPhys := (c.currentPhys + 0x1000 * 512 * 512) % 2 ^ 64 }, k)
  else if numPages - 1 - c.i > 512 ∧ c.ptI = 0 then
    let k := k.pmmFree c.pt
    let k := k.setLarge c.pdEntry c.currentPhys
    ({ c with ptI := c.ptI + 512, i := c.i + (512 - 1)
              currentPhys := (c.currentPhys + 0x1000 * 512) % 2 ^ 64 }, k)
  else
    let k := k.st64 c.ptEntry (vmmPtEntrySetAddress (k.ld64 c.ptEntry) c.currentPhys)
    ({ c with ptI := c.ptI + 1, currentPhys := (c.currentPhys + 0x1000) % 2 ^ 64 }, k)

/-- The next indices and entries; `none` where the source returns past the last PML4 entry. -/
def nextEntry (pPml4 : Nat) (c : MapCursor) (k : Kernel) : Option (MapCursor × Kernel) :=
  if c.ptI > 511 then
    let c := { c with ptI := 0, pdI := c.pdI + 1 }
    if c.pdI > 511 then
      let c := { c with pdI := 0, pdptI := c.pdptI + 1 }
      if c.pdptI > 511 then
        let c := { c with pdptI := 0, pml4I := c.pml4I + 1 }
        if c.pml4I > 511 then none
        else
          let (c, k) := pml4Step pPml4 c k
          let (c, k) := pdptStep c k
          let (c, k) := pdStep c k
          some (ptStep c k)
      else
        let (c, k) := pdptStep c k
        let (c, k) := pdStep c k
        some (ptStep c k)
    else
      let (c, k) := pdStep c k
      some (ptStep c k)
  else some (ptStep c k)

/-- The loop of `vmm_map_pages_pml4`. Every iteration advances `i`, so `numPages` of them are
enough: the fuel never cuts the loop short. -/
def mapPagesLoop (pPml4 numPages : Nat) : Nat → MapCursor → Kernel → Kernel
  | 0, _, k => k
  | fuel + 1, c, k =>
    if c.i < numPages then
      let (c, k) := mapLeaf numPages c k
      if c.i = numPages - 1 then k
      else
        match nextEntry pPml4 c k with
        | none => k
        | some (c, k) => mapPagesLoop pPml4 numPages fuel { c with i := c.i + 1 } k
    else k

def vmmMapPagesPml4 (k : Kernel) (pPml4 physicalAddress virtualAddress numPages : Nat) : Kernel :=
  let physicalAddress := k.convertPhys physicalAddress
  let c : MapCursor :=
    { pml4I := pml4Index virtualAddress, pdptI := pdptIndex virtualAddress
      pdI := pdIndex virtualAddress, ptI := ptIndex virtualAddress
      pml4Entry := 0, pdpt := 0, pdptEntry := 0, pd := 0, pdEntry := 0, pt := 0, ptEntry := 0
      currentPhys := physicalAddress, i := 0 }
  let (c, k) := pml4Step pPml4 c k
  let (c, k) := pdptStep c k
  let (c, k) := pdStep c k
  let (c, k) := ptStep c k
  mapPagesLoop pPml4 numPages numPages c k

/-! ## Initialisation -/

/-- `vmm_init`, on a processor whose `cr3` register holds `cr3`. -/
def vmmInit (k : Kernel) (bootdata : BootData) (cr3 : Nat) : Kernel :=
  { k with vmmPageTablesOffset := bootdata.higherHalf.offset
           pml4 := (cr3 + bootdata.higherHalf.offset) % 2 ^ 64
           vmmInitialised := true }

end Kernel

end BambooOS
