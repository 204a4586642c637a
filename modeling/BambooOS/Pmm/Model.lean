import BambooOS.Kernel.State

/-!
# Pmm.Model

`mem/pmm.c`: the bitmap allocator. The bit of usable page `i` lives in the first usable pages
themselves; `pmm_free` is in `Vmm.Free`, since it calls back into the page-table code.
-/

namespace BambooOS

open ByteMem

/-- The scan of `pmm_get_address_by_index`, `currentIndex` pages into the usable memory. -/
def getAddressFrom : List MemmapEntry → Nat → Nat → Nat
  | [], _, _ => uint64Max
  | entry :: entries, currentIndex, index =>
    if entry.type = memmapUsable then
      if (currentIndex + entry.length / 0x1000) % 2 ^ 64 ≤ index then
        getAddressFrom entries ((currentIndex + entry.length / 0x1000) % 2 ^ 64) index
      else (entry.base + 0x1000 * (index - currentIndex)) % 2 ^ 64
    else getAddressFrom entries currentIndex index

/-- The scan of `pmm_get_index_by_address`. -/
def getIndexFrom : List MemmapEntry → Nat → Nat → Nat
  | [], _, _ => uint64Max
  | entry :: entries, currentIndex, physicalAddress =>
    if entry.type = memmapUsable then
      if physicalAddress ≥ entry.base ∧
          physicalAddress < (entry.base + entry.length) % 2 ^ 64 then
        (currentIndex + (physicalAddress - entry.base) / 0x1000) % 2 ^ 64
      else getIndexFrom entries ((currentIndex + entry.length / 0x1000) % 2 ^ 64) physicalAddress
    else getIndexFrom entries currentIndex physicalAddress

namespace Globals

def pmmPhysToVirt (g : Globals) (phys : Nat) : Nat := (phys + g.higherHalfOffset) % 2 ^ 64

/-- The physical address of the usable page `index`. -/
def pmmGetAddressByIndex (g : Globals) (index : Nat) : Nat :=
  getAddressFrom g.memmapEntries 0 index

/-- The index of the usable page that holds a physical address. -/
def pmmGetIndexByAddress (g : Globals) (address : Nat) : Nat :=
  getIndexFrom g.memmapEntries 0 address

end Globals

namespace Kernel

/-- The bitmap page, the byte of it and the bit of that byte for the page `index`. -/
def bitmapPage (index : Nat) : Nat := index / (0x1000 * 8)
def byteOfPage (index : Nat) : Nat := (index - bitmapPage index * (0x1000 * 8)) / 8
def bitOfByte (index : Nat) : Nat :=
  index - bitmapPage index * (0x1000 * 8) - 8 * byteOfPage index

def pmmIsUsablePageAllocatedByIndex (k : Kernel) (index : Nat) : Bool :=
  let page := k.pmmGetAddressByIndex (bitmapPage index)
  if page = uint64Max then true
  else
    let byte := k.ld8 (k.pmmPhysToVirt page + byteOfPage index)
    byte &&& 1#8 <<< bitOfByte index != 0#8

def pmmSetUsablePageAllocatedByIndex (k : Kernel) (index : Nat) (allocated : Bool) : Kernel :=
  let page := k.pmmGetAddressByIndex (bitmapPage index)
  if page = uint64Max then k
  else
    let page := k.pmmPhysToVirt page
    let byte := k.ld8 (page + byteOfPage index)
    let newByte := if allocated then byte ||| 1#8 <<< bitOfByte index
      else byte &&& ~~~ (1#8 <<< bitOfByte index)
    -- the counter moves only when the bit did
    let count := if allocated ∧ newByte ≠ byte then (k.pmmNumAllocatedPages + 1) % 2 ^ 64
      else if ¬ allocated ∧ newByte ≠ byte then
        if k.pmmNumAllocatedPages = 0 then uint64Max else k.pmmNumAllocatedPages - 1
      else k.pmmNumAllocatedPages
    { k.st8 (page + byteOfPage index) newByte with pmmNumAllocatedPages := count }

/-- The first index from `i` on, among the next `n`, whose page is not allocated. -/
def findFree (k : Kernel) : Nat → Nat → Option Nat
  | 0, _ => none
  | n + 1, i => if k.pmmIsUsablePageAllocatedByIndex i then k.findFree n (i + 1) else some i

/-- `pmm_alloc_phys`: the physical address of a free page, `0` when there is none. -/
def pmmAllocPhys (k : Kernel) : Nat × Kernel :=
  match k.findFree k.pmmUsablePages 0 with
  | none => (0, k.log (.alloc 0))
  | some i =>
    let k' := k.pmmSetUsablePageAllocatedByIndex i true
    let address := k'.pmmGetAddressByIndex i
    if address = uint64Max then (0, k'.log (.alloc 0)) else (address, k'.log (.alloc address))

def pmmAlloc (k : Kernel) : Nat × Kernel :=
  let (phys, k) := k.pmmAllocPhys
  (k.pmmPhysToVirt phys, k)

def pmmAllocz (k : Kernel) : Nat × Kernel :=
  let (page, k) := k.pmmAlloc
  (page, k.memset page 0#8 0x1000)

/-- The page count `pmm_init` accumulates over the memory map. -/
def countUsablePages : List MemmapEntry → Nat → Nat
  | [], pages => pages
  | entry :: entries, pages =>
    if entry.type = memmapUsable then
      countUsablePages entries ((pages + entry.length / 0x1000) % 2 ^ 64)
    else countUsablePages entries pages

def pmmInit (k : Kernel) (bootdata : BootData) : Kernel :=
  let k := { k with higherHalfOffset := bootdata.higherHalf.offset
                    memmapEntries := bootdata.memmap }
  let k := { k with pmmUsablePages := countUsablePages k.memmapEntries k.pmmUsablePages }
  let k := { k with pmmBitmapPages := k.pmmUsablePages / (0x1000 * 8) + 1 }
  let n := k.pmmBitmapPages
  let k := Loop.upto (fun i k =>
    k.memset (k.pmmPhysToVirt (k.pmmGetAddressByIndex i)) 0#8 0x1000) n k
  Loop.upto (fun i k => k.pmmSetUsablePageAllocatedByIndex i true) n k

def pmmGetTotalUsableMemory (k : Kernel) : Nat := k.pmmUsablePages * 0x1000 % 2 ^ 64

def pmmGetCurrentFreeMemory (k : Kernel) : Nat :=
  (k.pmmUsablePages + (2 ^ 64 - k.pmmNumAllocatedPages)) % 2 ^ 64 * 0x1000 % 2 ^ 64

end Kernel

end BambooOS
