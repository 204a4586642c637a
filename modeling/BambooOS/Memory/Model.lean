import BambooOS.Vmm.Model

/-!
# Memory.Model

`mem/memory.c`: `memory_init` builds the kernel's own page map and switches to it. The lines it
prints are left out; `mapped_page_count`, which one of them reports, is kept.
-/

namespace BambooOS

/-- The cases of the `switch` over the type of an entry. -/
def MemmapEntry.Mapped (entry : MemmapEntry) : Prop :=
  entry.type ∈ [memmapUsable, memmapBootloaderReclaimable, memmapExecutableAndModules,
    memmapReserved, memmapAcpiReclaimable, memmapAcpiNvs, memmapBadMemory, memmapFramebuffer]

instance (entry : MemmapEntry) : Decidable entry.Mapped :=
  inferInstanceAs (Decidable (entry.type ∈ _))

/-- `kernel_pages`: the size of the kernel in pages, rounded up. -/
def HigherHalfInfo.kernelPages (info : HigherHalfInfo) : Nat :=
  let kernelSize := (info.kernelEnd + (2 ^ 64 - info.kernelStart)) % 2 ^ 64
  if kernelSize % 0x1000 ≠ 0 then kernelSize / 0x1000 + 1 else kernelSize / 0x1000

/-- What `memory_init` leaves behind: the value it loads into `cr3`, the page count it reports and
the state. -/
structure MemoryInit where
  cr3 : Nat
  mappedPageCount : Nat
  kernel : Kernel

namespace Kernel

/-- `vmm_set_pml4`: the value for `cr3` is looked up in the tree it replaces. -/
def vmmSetPml4 (k : Kernel) (newPml4 : Nat) : Nat × Kernel :=
  (k.vmmVirtToPhys newPml4, { k with pml4 := newPml4 })

/-- The loop over the memory map. -/
def mapMemmap (pml4 offset : Nat) : List MemmapEntry → Nat → Kernel → Nat × Kernel
  | [], mappedPageCount, k => (mappedPageCount, k)
  | entry :: entries, mappedPageCount, k =>
    if entry.Mapped then
      mapMemmap pml4 offset entries ((mappedPageCount + entry.length / 0x1000) % 2 ^ 64)
        (k.vmmMapPagesPml4 pml4 entry.base ((entry.base + offset) % 2 ^ 64) (entry.length / 0x1000))
    else mapMemmap pml4 offset entries mappedPageCount k

/-- `memory_init`, on a processor whose `cr3` register holds `cr3`. -/
def memoryInit (k : Kernel) (bootdata : BootData) (cr3 : Nat) : MemoryInit :=
  let k := k.pmmInit bootdata
  let k := k.vmmInit bootdata cr3
  let (pml4, k) := k.pmmAllocz
  let (mappedPageCount, k) :=
    mapMemmap pml4 bootdata.higherHalf.offset bootdata.memmap 0 k
  let kernelStartVirt := bootdata.higherHalf.kernelStart
  let kernelStartPhys := k.vmmVirtToPhys kernelStartVirt
  let kernelPages := bootdata.higherHalf.kernelPages
  let k := k.vmmMapPagesPml4 pml4 kernelStartPhys kernelStartVirt kernelPages
  let (newCr3, k) := k.vmmSetPml4 pml4
  { cr3 := newCr3, mappedPageCount := (mappedPageCount + kernelPages) % 2 ^ 64, kernel := k }

end Kernel

end BambooOS
