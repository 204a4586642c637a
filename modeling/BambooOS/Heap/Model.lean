import BambooOS.Inc.Faults
import BambooOS.Inc.String

/-!
# Heap.Model

The kernel heap of `mem/heap.c`, over the virtual memory its pages are mapped into. The segment
headers are bytes of that memory, packed: `prev` at 0, `next` at 8, `size` at 16 and `free` at 20,
21 bytes in all. An access off the heap's pages is a page fault, NULL included.

The page under each heap page is a fresh one of `pmm_allocz`, mapped there and nowhere else below
the higher half, so that only the heap's own stores change its bytes.
-/

namespace BambooOS

open ByteMem

/-- `heap_base_address`, `heap_size` (in pages), and the bytes at virtual addresses. -/
structure Heap where
  base : Nat
  size : Nat
  mem : Mem

namespace Heap

/-- The first address behind the heap's pages. -/
def limit (h : Heap) : Nat := h.base + h.size * 0x1000

/-- The `n` bytes from `p` on are on the heap's pages. -/
def Mapped (h : Heap) (p n : Nat) : Prop := h.base ≤ p ∧ p + n ≤ h.limit

instance (h : Heap) (p n : Nat) : Decidable (h.Mapped p n) :=
  inferInstanceAs (Decidable (_ ∧ _))

def read (h : Heap) (p n : Nat) : Except Fault Nat :=
  if h.Mapped p n then .ok (load h.mem p n) else .error .pageFault

def write (h : Heap) (p n v : Nat) : Except Fault Heap :=
  if h.Mapped p n then .ok { h with mem := store h.mem p n v } else .error .pageFault

def prev (h : Heap) (hdr : Nat) : Except Fault Nat := h.read hdr 8

def next (h : Heap) (hdr : Nat) : Except Fault Nat := h.read (hdr + 8) 8

def segSize (h : Heap) (hdr : Nat) : Except Fault Nat := h.read (hdr + 16) 4

def isFree (h : Heap) (hdr : Nat) : Except Fault Bool := do
  let flag ← h.read (hdr + 20) 1
  return decide (flag ≠ 0)

def setPrev (h : Heap) (hdr v : Nat) : Except Fault Heap := h.write hdr 8 v

def setNext (h : Heap) (hdr v : Nat) : Except Fault Heap := h.write (hdr + 8) 8 v

def setSize (h : Heap) (hdr v : Nat) : Except Fault Heap := h.write (hdr + 16) 4 (v % 2 ^ 32)

def setFree (h : Heap) (hdr : Nat) (v : Bool) : Except Fault Heap :=
  h.write (hdr + 20) 1 (if v then 1 else 0)

/-- `pmm_allocz`, `vmm_map_page` at the heap's end, `heap_size++`. -/
def mapPage (h : Heap) : Heap :=
  { h with size := h.size + 1, mem := fill h.mem h.limit 0x1000 0 }

/-- A walk that has met more headers than the heap has bytes goes round in a circle. -/
def fuel (h : Heap) : Nat := h.size * 0x1000 + 1

end Heap

/-- `heap_init(p_base_address)`. -/
def heapInit (m : Mem) (base : Nat) : Except Fault Heap := do
  let h : Heap := { base := base, size := 1, mem := fill m base 0x1000 0 }
  let h ← h.setPrev base 0
  let h ← h.setNext base 0
  let h ← h.setFree base true
  h.setSize base (0x1000 - 21)

/-- `heap_split_segment(curr, size)`. -/
def heapSplitSegment (h : Heap) (curr size : Nat) : Except Fault Heap := do
  let newHdr := (curr + 21 + size) % 2 ^ 64
  let currSize ← h.segSize curr
  -- not enough room for the next header
  if currSize ≤ size + 21 then return h
  let h ← h.setPrev newHdr curr
  let h ← h.setFree newHdr true
  let next ← h.next curr
  let h ← h.setNext newHdr (if next = 0 then 0 else next)
  let h ← h.setNext curr newHdr
  let currSize ← h.segSize curr
  let h ← h.setSize newHdr (currSize - (size + 21))
  h.setSize curr size

/-- `heap_merge_forward(curr)`: the header that is cleared is found through the new `next`. -/
def heapMergeForward (h : Heap) (curr : Nat) : Except Fault Heap := do
  let currSize ← h.segSize curr
  let next ← h.next curr
  let nextSize ← h.segSize next
  let h ← h.setSize curr (currSize + (21 + nextSize))
  let next ← h.next curr
  let next ← h.next next
  let h ← h.setNext curr next
  let next ← h.next curr
  if h.Mapped next 21 then return { h with mem := memset h.mem next 0 21 }
  else .error .pageFault

/-- `heap_extend(last, num_pages)`. -/
def heapExtend (h : Heap) (last : Nat) : Nat → Except Fault Heap
  | 0 => return h
  | numPages + 1 => do
    let h := h.mapPage
    let lastSize ← h.segSize last
    let h ← h.setSize last (lastSize + 0x1000)
    heapExtend h last numPages

/-- What `malloc` does with a header it may take: an exact fit, a split, or nothing. -/
def allocFrom (h : Heap) (hdr size : Nat) : Except Fault (Option (Heap × Nat)) := do
  let hdrSize ← h.segSize hdr
  if hdrSize = size then
    let h ← h.setFree hdr false
    return some (h, (hdr + 21) % 2 ^ 64)
  if hdrSize > size then
    let h ← heapSplitSegment h hdr size
    let h ← h.setFree hdr false
    return some (h, (hdr + 21) % 2 ^ 64)
  return none

/-- The loop of `malloc`: the block it found, or the last header of the list. -/
def mallocSearch (h : Heap) (size : Nat) : Nat → Nat → Except Fault (Heap × Nat ⊕ Nat)
  | 0, _ => .error .hang
  | fuel + 1, hdr => do
    let isFree ← h.isFree hdr
    let taken ← if isFree then allocFrom h hdr size else pure none
    match taken with
    | some r => return .inl r
    | none => do
      let next ← h.next hdr
      if next = 0 then return .inr hdr
      else mallocSearch h size fuel next

/-- `malloc(size)`. -/
def malloc (h : Heap) (size : Nat) : Except Fault (Heap × Nat) := do
  match ← mallocSearch h size h.fuel h.base with
  | .inl r => return r
  | .inr hdr => do
    let h ← heapExtend h hdr (size / 0x1000 + 1)
    match ← allocFrom h hdr size with
    | some r => return r
    | none => return (h, 0)

/-- `(uint64_t) ptr - sizeof(heap_segment_hdr_t)`. -/
def hdrAddr (ptr : Nat) : Nat := (ptr + 2 ^ 64 - 21) % 2 ^ 64

/-- The loop of `free` and `realloc` that decides whether the pointer is valid. -/
def findHdr (h : Heap) (target : Nat) : Nat → Nat → Except Fault Bool
  | 0, _ => .error .hang
  | fuel + 1, hdr => do
    if target = hdr then return true
    let next ← h.next hdr
    if next = 0 then return false
    else if next ≤ target then findHdr h target fuel next
    else return false

/-- The first merge of `free`, and the header the second one starts from. -/
def mergeBackward (h : Heap) (header : Nat) : Except Fault (Heap × Nat) := do
  let prev ← h.prev header
  if prev = 0 then return (h, header)
  let prevFree ← h.isFree prev
  if prevFree then
    let h ← heapMergeForward h prev
    return (h, prev)
  else return (h, header)

/-- `free(ptr)`. -/
def free (h : Heap) (ptr : Nat) : Except Fault Heap := do
  let valid ← findHdr h (hdrAddr ptr) h.fuel h.base
  if !valid then return h
  let h ← h.setFree (hdrAddr ptr) true
  let (h, header) ← mergeBackward h (hdrAddr ptr)
  let next ← h.next header
  let nextFree ← h.isFree next
  if nextFree then heapMergeForward h header
  else return h

/-- `memcpy` on the heap's pages. -/
def Heap.copy (h : Heap) (dest src n : Nat) : Except Fault Heap :=
  if n = 0 ∨ (h.Mapped dest n ∧ h.Mapped src n) then
    .ok { h with mem := memcpy h.mem dest src n }
  else .error .pageFault

/-- `realloc(ptr, size)`. -/
def realloc (h : Heap) (ptr size : Nat) : Except Fault (Heap × Nat) := do
  let valid ← findHdr h (hdrAddr ptr) h.fuel h.base
  if !valid then malloc h size
  else
    let (h, newPtr) ← malloc h size
    let oldSize ← h.segSize (hdrAddr ptr)
    let h ← h.copy newPtr ptr (if oldSize < size then oldSize else size)
    return (h, newPtr)

end BambooOS
