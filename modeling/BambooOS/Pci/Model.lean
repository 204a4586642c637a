import BambooOS.Acpi.Model
import BambooOS.Lib.Loop

/-!
# Pci.Model

The enumeration of `pcie.c` with the registration of `pci.c`, over the memory `ecam` that the
identity-mapped configuration pages show. The recursion through bridges follows bus numbers the
devices hold, so it gets a depth: `none` is a probe that goes deeper than that.
-/

namespace BambooOS

open ByteMem

/-- `pci_device_t`; `none` is a pointer left as the block's earlier bytes have it. The texts of
`descriptors` are only printed. -/
structure PciDevice where
  header : Nat
  extendedHeader : Option Nat
  bridge0x1Header : Option Nat
  deriving DecidableEq, Repr

/-- `pci_devices`, and the pages given to `vmm_map_page_flags`, in order. -/
structure Pci where
  pciDevices : List PciDevice := []
  mapped : List Nat := []
  deriving DecidableEq, Repr

/-- The configuration page of a function: 64-bit arithmetic, for buses below `startBus` too. -/
def pcieAddress (baseAddr startBus bus slot function : Nat) : Nat :=
  (baseAddr + ((bus + (2 ^ 64 - startBus)) <<< 20 + slot <<< 15 + function <<< 12)) % 2 ^ 64

-- unfolding the wrapped arithmetic by accident makes the elaborator count to `2 ^ 64`
attribute [irreducible] pcieAddress

/-! ## Device headers -/

def deviceId (ecam : Mem) (hdr : Nat) : Nat := load ecam (hdr + 2) 2

/-- `hdr_type` without the multi-function bit. -/
def hdrType (ecam : Mem) (hdr : Nat) : Nat := (ecam (hdr + 14)).toNat &&& 0b01111111

/-- `secondary_bus_num` of the bridge header behind the device header. -/
def secondaryBusNum (ecam : Mem) (hdr : Nat) : Nat := (ecam (hdr + 16 + 9)).toNat

def pciRegisterDevice (ecam : Mem) (hdr : Nat) (s : Pci) : Pci :=
  let device : PciDevice :=
    if hdrType ecam hdr = 0x0 then
      { header := hdr, extendedHeader := some (hdr + 16), bridge0x1Header := some 0 }
    -- the source tests for type 0 a second time
    else if hdrType ecam hdr = 0x0 then
      { header := hdr, extendedHeader := some 0, bridge0x1Header := some (hdr + 16) }
    else { header := hdr, extendedHeader := none, bridge0x1Header := none }
  { s with pciDevices := s.pciDevices ++ [device] }

/-! ## Enumeration -/

/-- `probeBus` is `pcie_probe_bus(base_addr, start_bus, ·)` one level down. -/
def pcieProbeFunction (ecam : Mem) (probeBus : Nat → Pci → Option Pci)
    (baseAddr startBus bus slot function : Nat) (s : Pci) : Option Pci :=
  let address := pcieAddress baseAddr startBus bus slot function
  let s := { s with mapped := s.mapped ++ [address] }
  if deviceId ecam address = 0 ∨ deviceId ecam address = 0xFFFF then some s
  else
    let s := if hdrType ecam address = 0x1 then probeBus (secondaryBusNum ecam address) s else some s
    s.map (pciRegisterDevice ecam address)

def pcieProbeSlot (ecam : Mem) (probeBus : Nat → Pci → Option Pci)
    (baseAddr startBus bus slot : Nat) (s : Pci) : Option Pci :=
  Loop.forUpto (fun function => pcieProbeFunction ecam probeBus baseAddr startBus bus slot function)
    8 0 s

def pcieProbeBus (ecam : Mem) (baseAddr startBus : Nat) : Nat → Nat → Pci → Option Pci
  | 0, _, _ => none
  | depth + 1, bus, s =>
    Loop.forUpto (fun slot =>
      pcieProbeSlot ecam (pcieProbeBus ecam baseAddr startBus depth) baseAddr startBus bus slot) 32 0 s

/-- The scan of one group. The 8-bit counter stays below `end_bus`, so it does not wrap. -/
def pcieProbeGroup (ecam : Mem) (depth : Nat) (g : McfgSegmentGroup) (s : Pci) : Option Pci :=
  Loop.forUpto (fun bus => pcieProbeBus ecam g.baseAddress g.startBus depth bus)
    (g.endBus - g.startBus) g.startBus s

def pcieProbeGroups (ecam : Mem) (depth : Nat) : List McfgSegmentGroup → Pci → Option Pci
  | [], s => some s
  | g :: groups, s => (pcieProbeGroup ecam depth g s).bind (pcieProbeGroups ecam depth groups)

/-- `pcie_probe`, over the state the ACPI parsers left; `m` is the memory they read. A probe that
goes deeper than `depth` hangs as far as that depth can tell. -/
def pcieProbe (m ecam : Mem) (a : Acpi) (depth : Nat) (s : Pci) : Except Fault Pci :=
  if acpiHasParsed m a sigMcfg then
    if acpiGetMcfg a = 0 then .ok s
    else
      match acpiMcfgGetSegmentGroups a with
      | none => .error .nullDeref
      | some groups =>
        match pcieProbeGroups ecam depth groups s with
        | none => .error .hang
        | some s => .ok s
  else .ok s

end BambooOS
