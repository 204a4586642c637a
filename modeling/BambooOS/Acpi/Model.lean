import BambooOS.Inc.Faults
import BambooOS.Lib.Bytes

/-!
# Acpi.Model

The table parsers of `acpi.c`, `madt.c` and `mcfg.c`, over the virtual memory `m` they read.

The firmware's tables are not written while they are parsed, and `malloc` hands out blocks apart
from them, so `m` is fixed and a vector is the list of the blocks added to it; `none` is the NULL
vector. Pointer arithmetic on physical addresses wraps at 64 bits.
-/

namespace BambooOS

open ByteMem

abbrev Signature := List Byte

def sigRsdPtr : Signature := [0x52, 0x53, 0x44, 0x20, 0x50, 0x54, 0x52, 0x20]
def sigRsdt : Signature := [0x52, 0x53, 0x44, 0x54]
def sigXsdt : Signature := [0x58, 0x53, 0x44, 0x54]
def sigApic : Signature := [0x41, 0x50, 0x49, 0x43]
def sigMcfg : Signature := [0x4D, 0x43, 0x46, 0x47]

/-- `mcfg_segment_group_t`. -/
structure McfgSegmentGroup where
  baseAddress : Nat
  pciSegGroup : Nat
  startBus : Nat
  endBus : Nat
  reserved : Nat
  deriving DecidableEq, Repr

/-- The globals of `madt.c`. -/
structure Madt where
  hdr : Nat := 0
  localApicAddr : Nat := 0
  lapics : Option (List (List Byte)) := none
  ioapics : Option (List (List Byte)) := none
  interruptSourceOverrides : Option (List (List Byte)) := none
  interruptIoapicNmis : Option (List (List Byte)) := none
  interruptLapicNmis : Option (List (List Byte)) := none
  deriving DecidableEq, Repr

/-- The globals of `mcfg.c`. -/
structure Mcfg where
  mcfg : Nat := 0
  mcfgSegmentGroups : Option (List McfgSegmentGroup) := none
  deriving DecidableEq, Repr

/-- An element of `acpi_parsed_tables`: the signature inside an element of `handlers`, or inside
the loop's copy of one, which is gone when it is read back. -/
inductive ParsedTable where
  | handler (index : Nat)
  | stackCopy
  deriving DecidableEq, Repr

/-- The globals of `acpi.c`. `handlersAt` and `handlerCopyAt` are the addresses of the `handlers`
array and of the copy of one of its elements in `acpi_parse_xsdt_tables`. -/
structure Acpi where
  handlersAt : Nat
  handlerCopyAt : Nat
  acpiIsXsdt : Bool := false
  rsdpV1 : Nat := 0
  rsdpV2 : Nat := 0
  rsdt : Nat := 0
  xsdt : Nat := 0
  acpiHigherHalfOffset : Nat := 0
  acpiParsedTables : List ParsedTable := []
  madt : Madt := {}
  mcfg : Mcfg := {}
  deriving DecidableEq, Repr

/-! ## Helper functions -/

def acpiSignaturesEqual (s1 s2 : Signature) : Bool :=
  (List.range 4).all fun i => s1.getD i 0 == s2.getD i 0

def acpiHeaderSignatureEquals (m : Mem) (hdr : Nat) (signature : Signature) : Bool :=
  acpiSignaturesEqual (bytes m hdr 4) signature

/-- `hdr->length` of a `sdt_hdr_t`. -/
def sdtLength (m : Mem) (hdr : Nat) : Nat := load m (hdr + 4) 4

/-- The sum of `n` bytes. -/
def byteSum (m : Mem) (a n : Nat) : Nat := ((bytes m a n).map BitVec.toNat).sum

def acpiIsValidSdtChecksum (m : Mem) (hdr : Nat) : Bool :=
  byteSum m hdr (sdtLength m hdr) % 0x100 == 0

/-- The number of `width`-byte entries after a header of `hdrSize` bytes; the subtraction is
64 bits wide. -/
def sdtEntries (m : Mem) (hdr hdrSize width : Nat) : Nat :=
  (sdtLength m hdr + (2 ^ 64 - hdrSize)) % 2 ^ 64 / width

namespace Acpi

/-- The table the `i`th entry of the RSDT points to. -/
def rsdtEntry (m : Mem) (s : Acpi) (i : Nat) : Nat :=
  (load m (s.rsdt + 36 + 4 * i) 4 + s.acpiHigherHalfOffset) % 2 ^ 64

/-- The table the `i`th entry of the XSDT points to. -/
def xsdtEntry (m : Mem) (s : Acpi) (i : Nat) : Nat :=
  (load m (s.xsdt + 36 + 8 * i) 8 + s.acpiHigherHalfOffset) % 2 ^ 64

end Acpi

/-- The first of the tables `sdts i`, `sdts (i + 1)`, .. with the signature, NULL if none has it. -/
def findTable (m : Mem) (sdts : Nat → Nat) (signature : Signature) : Nat → Nat → Nat
  | 0, _ => 0
  | left + 1, i =>
    if acpiHeaderSignatureEquals m (sdts i) signature then sdts i
    else findTable m sdts signature left (i + 1)

def acpiGetTable (m : Mem) (s : Acpi) (signature : Signature) : Except Fault Nat :=
  if s.acpiIsXsdt then do
    let xsdt ← deref s.xsdt
    return findTable m (s.xsdtEntry m) signature (sdtEntries m xsdt 36 8) 0
  else do
    let rsdt ← deref s.rsdt
    return findTable m (s.rsdtEntry m) signature (sdtEntries m rsdt 36 4) 0

/-! ## MADT -/

/-- `vector_add` on a vector that is not NULL. -/
def vectorAdd {α : Type} (v : Option (List α)) (x : α) : Option (List α) := v.map (· ++ [x])

namespace Madt

/-- The five vectors are new and the address is the one after the header. -/
def start (hdr address : Nat) : Madt :=
  { hdr := hdr, localApicAddr := address, lapics := some [], ioapics := some []
    interruptSourceOverrides := some [], interruptIoapicNmis := some []
    interruptLapicNmis := some [] }

/-- The `switch` on the entry at `p`; the second component is `false` for an unknown type. -/
def entry (m : Mem) (p : Nat) (s : Madt) : Madt × Bool :=
  match (m p).toNat with
  | 0 => ({ s with lapics := vectorAdd s.lapics (bytes m (p + 2) 6) }, true)
  | 1 => ({ s with ioapics := vectorAdd s.ioapics (bytes m (p + 2) 10) }, true)
  | 2 =>
    ({ s with interruptSourceOverrides :=
        vectorAdd s.interruptSourceOverrides (bytes m (p + 2) 8) }, true)
  | 3 => ({ s with interruptIoapicNmis := vectorAdd s.interruptIoapicNmis (bytes m (p + 2) 6) }, true)
  | 4 => ({ s with interruptLapicNmis := vectorAdd s.interruptLapicNmis (bytes m (p + 2) 4) }, true)
  | 5 => ({ s with localApicAddr := load m (p + 4) 8 }, true)
  | 9 => (s, true)
  | 10 => (s, true)
  | _ => (s, false)

/-- The loop over the entries from offset `i` on. As `i` grows with every entry of non-zero length
and an entry of length zero is met again for ever, `hdr->length` rounds are enough. -/
def entries (m : Mem) (hdr : Nat) : Nat → Nat → Madt → Except Fault (Madt × Bool)
  | 0, i, s => if i < sdtLength m hdr then .error .hang else .ok (s, true)
  | fuel + 1, i, s =>
    if i < sdtLength m hdr then
      match entry m (hdr + i) s with
      | (s, false) => .ok (s, false)
      | (s, true) => entries m hdr fuel (i + (m (hdr + i + 1)).toNat) s
    else .ok (s, true)

end Madt

def acpiParseMadt (m : Mem) (s : Acpi) : Except Fault (Acpi × Bool) := do
  let hdr ← acpiGetTable m s sigApic
  if hdr = 0 then return ({ s with madt := { s.madt with hdr := hdr } }, false)
  else if !acpiIsValidSdtChecksum m hdr then
    return ({ s with madt := { s.madt with hdr := hdr } }, false)
  else do
    let (madt, parsed) ←
      Madt.entries m hdr (sdtLength m hdr) 44 (Madt.start hdr (load m (hdr + 36) 4))
    return ({ s with madt := madt }, parsed)

def acpiGetLapicAddr (s : Acpi) : Nat := s.madt.localApicAddr
def acpiGetLapics (s : Acpi) : Option (List (List Byte)) := s.madt.lapics
def acpiGetIoapics (s : Acpi) : Option (List (List Byte)) := s.madt.ioapics

/-! ## MCFG -/

/-- The copy of the `i`th segment group after the MCFG header at `mcfg`. -/
def McfgSegmentGroup.read (m : Mem) (mcfg i : Nat) : McfgSegmentGroup :=
  let config := mcfg + 44 + i * 16
  { baseAddress := load m config 8, pciSegGroup := load m (config + 8) 2
    startBus := load m (config + 10) 1, endBus := load m (config + 11) 1
    reserved := load m (config + 12) 4 }

/-- The groups `i`, `i + 1`, .., in table order. -/
def segmentGroups (m : Mem) (mcfg : Nat) : Nat → Nat → List McfgSegmentGroup
  | 0, _ => []
  | left + 1, i => McfgSegmentGroup.read m mcfg i :: segmentGroups m mcfg left (i + 1)

def acpiParseMcfg (m : Mem) (s : Acpi) : Except Fault (Acpi × Bool) := do
  let mcfg ← acpiGetTable m s sigMcfg
  if mcfg = 0 then return ({ s with mcfg := { s.mcfg with mcfg := mcfg } }, false)
  else if !acpiIsValidSdtChecksum m mcfg then
    return ({ s with mcfg := { s.mcfg with mcfg := mcfg } }, false)
  else do
    let groups := segmentGroups m mcfg (sdtEntries m mcfg 44 16) 0
    return ({ s with mcfg := { mcfg := mcfg, mcfgSegmentGroups := some groups } }, true)

def acpiGetMcfg (s : Acpi) : Nat := s.mcfg.mcfg
def acpiMcfgGetSegmentGroups (s : Acpi) : Option (List McfgSegmentGroup) :=
  s.mcfg.mcfgSegmentGroups

/-! ## The root tables -/

structure AcpiTableHandler where
  signature : Signature
  handler : Mem → Acpi → Except Fault (Acpi × Bool)

def handlers : List AcpiTableHandler := [⟨sigApic, acpiParseMadt⟩, ⟨sigMcfg, acpiParseMcfg⟩]

/-- The pass over `handlers` for one table. The bound is `sizeof(handlers)`, 32 bytes, where the
array has two elements; past them the code reads whatever memory follows. -/
def dispatch (m : Mem) (parsed : Nat → ParsedTable) (header : Nat) :
    Nat → Nat → Acpi → Except Fault Acpi
  | 0, _, s => .ok s
  | left + 1, i, s =>
    match handlers[i]? with
    | some h =>
      if acpiHeaderSignatureEquals m header h.signature then do
        let (s, success) ← h.handler m s
        dispatch m parsed header left (i + 1)
          (if success then { s with acpiParsedTables := s.acpiParsedTables ++ [parsed i] } else s)
      else dispatch m parsed header left (i + 1) s
    | none =>
      if acpiHeaderSignatureEquals m header (bytes m (s.handlersAt + 16 * i) 4) then
        .error .wildCall
      else dispatch m parsed header left (i + 1) s

/-- The pass over the tables `sdts i`, `sdts (i + 1)`, .. of a root table. -/
def parseTables (m : Mem) (sdts : Nat → Nat) (parsed : Nat → ParsedTable) :
    Nat → Nat → Acpi → Except Fault Acpi
  | 0, _, s => .ok s
  | left + 1, i, s => do
    let s ← dispatch m parsed (sdts i) 32 0 s
    parseTables m sdts parsed left (i + 1) s

def acpiParseRsdtTables (m : Mem) (s : Acpi) : Except Fault Acpi :=
  if s.acpiIsXsdt then .ok s
  else do
    let rsdt ← deref s.rsdt
    parseTables m (s.rsdtEntry m) .handler (sdtEntries m rsdt 36 4) 0 s

def acpiParseXsdtTables (m : Mem) (s : Acpi) : Except Fault Acpi :=
  if !s.acpiIsXsdt then .ok s
  else do
    let xsdt ← deref s.xsdt
    parseTables m (s.xsdtEntry m) (fun _ => .stackCopy) (sdtEntries m xsdt 36 8) 0 s

def acpiParseRsdt (m : Mem) (s : Acpi) : Except Fault Acpi := do
  let rsdpV1 ← deref s.rsdpV1
  let rsdtHdr := (load m (rsdpV1 + 16) 4 + s.acpiHigherHalfOffset) % 2 ^ 64
  faultsAssert (acpiHeaderSignatureEquals m rsdtHdr sigRsdt) "Invalid RSDT header signature"
  faultsAssert (acpiIsValidSdtChecksum m rsdtHdr) "Invalid RSDT header checksum"
  return { s with rsdt := rsdtHdr }

def acpiParseXsdt (m : Mem) (s : Acpi) : Except Fault Acpi := do
  let rsdpV2 ← deref s.rsdpV2
  let xsdtHdr := (load m (rsdpV2 + 24) 8 + s.acpiHigherHalfOffset) % 2 ^ 64
  faultsAssert (acpiHeaderSignatureEquals m xsdtHdr sigXsdt) "Invalid XSDT header signature"
  faultsAssert (acpiIsValidSdtChecksum m xsdtHdr) "Invalid XSDT header checksum"
  return { s with xsdt := xsdtHdr }

/-! ## The RSDP -/

def acpiParseRsdp (m : Mem) (rsdpAddress : Nat) (s : Acpi) : Except Fault Acpi := do
  let table := (rsdpAddress + s.acpiHigherHalfOffset) % 2 ^ 64
  faultsAssert (bytes m table 8 == sigRsdPtr) "Invalid RSDP V1 signature"
  faultsAssert (byteSum m table 20 % 0x100 == 0) "Invalid RSDP V1 checksum"
  if (m (table + 15)).toNat = 0 then
    return { s with rsdpV1 := table }
  else if (m (table + 15)).toNat = 2 then do
    faultsAssert (byteSum m table 36 % 0x100 == 0) "Invalid RSDP V2 checksum"
    return { s with rsdpV2 := table }
  else return s

/-- `acpi_init`, from the higher-half offset and the RSDP address of the boot data. -/
def acpiInit (m : Mem) (offset rsdpAddress : Nat) (s : Acpi) : Except Fault Acpi := do
  let s ← acpiParseRsdp m rsdpAddress { s with acpiHigherHalfOffset := offset }
  let s := { s with acpiParsedTables := [] }
  let s ← if s.acpiIsXsdt then acpiParseXsdt m s else acpiParseRsdt m s
  if s.acpiIsXsdt then acpiParseXsdtTables m s else acpiParseRsdtTables m s

def acpiHasParsed (m : Mem) (s : Acpi) (signature : Signature) : Bool :=
  s.acpiParsedTables.any fun
    | .handler i => acpiSignaturesEqual signature ((handlers[i]?.map (·.signature)).getD [])
    | .stackCopy => acpiSignaturesEqual signature (bytes m s.handlerCopyAt 4)

end BambooOS
