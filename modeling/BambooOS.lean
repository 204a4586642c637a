import BambooOS.Lib.Bytes
import BambooOS.Lib.Bits
import BambooOS.Lib.Loop
import BambooOS.Inc.String
import BambooOS.Inc.Stdio
import BambooOS.Inc.Faults
import BambooOS.Kernel.State
import BambooOS.Pmm.Model
import BambooOS.Pmm.Index
import BambooOS.Pmm.Bitmap
import BambooOS.Pmm.Alloc
import BambooOS.Lib.Radix
import BambooOS.Vmm.Model
import BambooOS.Vmm.Entry
import BambooOS.Vmm.Slot
import BambooOS.Vmm.Walk
import BambooOS.Vmm.Tree
import BambooOS.Vmm.Page
import BambooOS.Lib.Run
import BambooOS.Lib.Tiling
import BambooOS.Lib.Descent
import BambooOS.Vmm.Refine
import BambooOS.Vmm.Returned
import BambooOS.Vmm.Rights
import BambooOS.Vmm.Huge
import BambooOS.Vmm.Offset
import BambooOS.Vmm.Boot
import BambooOS.Pmm.Run
import BambooOS.Pmm.Count
import BambooOS.Vmm.Free
import BambooOS.Vmm.Unmanaged
import BambooOS.Vmm.Cursor
import BambooOS.Vmm.Leaf
import BambooOS.Vmm.Bulk
import BambooOS.Vmm.Alignment
import BambooOS.Vmm.Range
import BambooOS.Acpi.Model
import BambooOS.Acpi.Root
import BambooOS.Acpi.Madt
import BambooOS.Acpi.Failure
import BambooOS.Acpi.Records
import BambooOS.Acpi.Arrays
import BambooOS.Acpi.Dispatch
import BambooOS.Acpi.Lookup
import BambooOS.Pci.Model
import BambooOS.Pci.Probe
import BambooOS.Pci.Scan
import BambooOS.Pci.Once
import BambooOS.Pci.Views
import BambooOS.Pci.Window
import BambooOS.Int.Lapic
import BambooOS.Int.Idt
import BambooOS.Rendering.Cursor
import BambooOS.Rendering.Text
import BambooOS.Rendering.Room
import BambooOS.Rendering.Grid
import BambooOS.Rendering.Screen
import BambooOS.Inc.Format
import BambooOS.Inc.Console
import BambooOS.Rendering.Number
import BambooOS.Rendering.Font
import BambooOS.Inc.Vector
import BambooOS.Heap.Model
import BambooOS.Heap.Header
import BambooOS.Heap.Chain
import BambooOS.Heap.Links
import BambooOS.Heap.Free
import BambooOS.Heap.Bounds
import BambooOS.Heap.Realloc
import BambooOS.Heap.Live
import BambooOS.Heap.Leak
import BambooOS.Heap.Sizes
import BambooOS.Heap.Scan
import BambooOS.Heap.Exhausted
import BambooOS.Vmm.Stock
import BambooOS.Vmm.Calls
import BambooOS.Vmm.Conserve
import BambooOS.Memory.Model
import BambooOS.Memory.Map
import BambooOS.Memory.Init
import BambooOS.Memory.Run
import BambooOS.Memory.Account
import BambooOS.Memory.Test
import BambooOS.Heap.Machine
import BambooOS.Heap.Pages
import BambooOS.Vmm.Demand
import BambooOS.Vmm.Tally
