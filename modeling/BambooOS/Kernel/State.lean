import BambooOS.Inc.String
import BambooOS.Lib.Loop

/-!
# Kernel.State

The state the memory managers work on: physical memory, the globals of `pmm.c` and `vmm.c`,
and the higher-half window through which both reach physical frames.

A kernel pointer `p` into that window denotes the physical address `p - hhdm` (`Globals.phys`);
`hhdm` is the offset at which the bootloader mapped physical memory. That is an assumption: the
window's own translations in the current tables are not consulted for it, so a change of them is
seen by the walks only. 64-bit arithmetic wraps where the source's can.

`trace` is ghost state: no modelled function reads it. It records each physical write, each
result of `pmm_alloc_phys` and each frame given to `pmm_free`, newest first.
-/

namespace BambooOS

open ByteMem

def uint64Max : Nat := 2 ^ 64 - 1

/-! ## Boot data -/

def memmapUsable : Nat := 0
def memmapReserved : Nat := 1
def memmapAcpiReclaimable : Nat := 2
def memmapAcpiNvs : Nat := 3
def memmapBadMemory : Nat := 4
def memmapBootloaderReclaimable : Nat := 5
def memmapExecutableAndModules : Nat := 6
def memmapFramebuffer : Nat := 7

structure MemmapEntry where
  base : Nat
  length : Nat
  type : Nat
  deriving DecidableEq, Repr

structure HigherHalfInfo where
  offset : Nat
  kernelStart : Nat
  kernelEnd : Nat

structure BootData where
  higherHalf : HigherHalfInfo
  memmap : List MemmapEntry

/-! ## The kernel state -/

inductive Event where
  | store (addr len : Nat)
  | alloc (frame : Nat)
  | free (frame : Nat)
  deriving DecidableEq, Repr

/-- The globals that `pmm_init` and `vmm_init` set and the page operations only read. -/
structure Globals where
  hhdm : Nat
  higherHalfOffset : Nat
  memmapEntries : List MemmapEntry
  pmmUsablePages : Nat
  pmmBitmapPages : Nat
  vmmPageTablesOffset : Nat
  pml4 : Nat
  vmmInitialised : Bool

structure Kernel extends Globals where
  mem : Mem
  pmmNumAllocatedPages : Nat
  trace : List Event

namespace Globals

/-- The physical address behind a pointer into the higher-half window, whatever the tables say. -/
def phys (g : Globals) (p : Nat) : Nat := (p + (2 ^ 64 - g.hhdm)) % 2 ^ 64

/-- The higher-half pointer to a physical address. -/
def virt (g : Globals) (a : Nat) : Nat := (a + g.hhdm) % 2 ^ 64

theorem phys_virt {g : Globals} (hg : g.hhdm < 2 ^ 64) {a : Nat} (ha : a < 2 ^ 64) :
    g.phys (g.virt a) = a := by
  simp only [phys, virt]
  omega

/-- Pointer arithmetic inside the window follows the physical address. -/
theorem phys_virt_add {g : Globals} (hg : g.hhdm < 2 ^ 64) {a i : Nat} (ha : a + i < 2 ^ 64) :
    g.phys (g.virt a + i) = a + i := by
  simp only [phys, virt]
  omega

-- unfolding the wrapped arithmetic by accident makes the elaborator count to `2 ^ 64`
attribute [irreducible] phys virt

end Globals

namespace Kernel

def log (k : Kernel) (e : Event) : Kernel := { k with trace := e :: k.trace }

def ld8 (k : Kernel) (p : Nat) : Byte := k.mem (k.phys p)

def st8 (k : Kernel) (p : Nat) (b : Byte) : Kernel :=
  { k with mem := Function.update k.mem (k.phys p) b, trace := .store (k.phys p) 1 :: k.trace }

def ld64 (k : Kernel) (p : Nat) : Nat := load k.mem (k.phys p) 8

def st64 (k : Kernel) (p v : Nat) : Kernel :=
  { k with mem := store k.mem (k.phys p) 8 v, trace := .store (k.phys p) 8 :: k.trace }

/-- `memset` through a higher-half pointer. -/
def memset (k : Kernel) (p : Nat) (c : Byte) (n : Nat) : Kernel :=
  { k with mem := BambooOS.memset k.mem (k.phys p) c n, trace := .store (k.phys p) n :: k.trace }

@[simp] theorem log_toGlobals (k : Kernel) (e : Event) : (k.log e).toGlobals = k.toGlobals := rfl
@[simp] theorem log_mem (k : Kernel) (e : Event) : (k.log e).mem = k.mem := rfl
@[simp] theorem log_trace (k : Kernel) (e : Event) : (k.log e).trace = e :: k.trace := rfl

@[simp] theorem st8_toGlobals (k : Kernel) (p : Nat) (b : Byte) :
    (k.st8 p b).toGlobals = k.toGlobals := by simp only [st8]
@[simp] theorem st64_toGlobals (k : Kernel) (p v : Nat) :
    (k.st64 p v).toGlobals = k.toGlobals := by simp only [st64]
@[simp] theorem memset_toGlobals (k : Kernel) (p : Nat) (c : Byte) (n : Nat) :
    (k.memset p c n).toGlobals = k.toGlobals := by simp only [memset]

theorem memset_mem (k : Kernel) (p : Nat) (c : Byte) (n : Nat) :
    (k.memset p c n).mem = fill k.mem (k.phys p) n c := by
  simp only [Kernel.memset, memset_eq_fill]

end Kernel

end BambooOS
