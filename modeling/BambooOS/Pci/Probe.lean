import BambooOS.Lib.Descent
import BambooOS.Pci.Model

/-!
# Pci.Probe

The enumeration as a traversal of the graph whose nodes are the buses of the segment groups and
whose edges are the bridges.

* `pcieProbeBus_eq`: the mutual recursion of `pcie.c` is the traversal of that graph.
* `pcieProbe_returns`, `mem_headers`: when `pcie_probe` comes back, and which headers it then has
  registered.
-/

namespace BambooOS

open Descent Relation

/-! ## The graph of buses -/

abbrev BusNode := McfgSegmentGroup × Nat

/-- The address of a function on a bus of a group. -/
def BusNode.address (n : BusNode) (slot function : Nat) : Nat :=
  pcieAddress n.1.baseAddress n.1.startBus n.2 slot function

theorem pcieAddress_eq (baseAddr : Nat) {startBus bus : Nat} (h : startBus ≤ bus)
    (hs : startBus ≤ 2 ^ 64) (slot function : Nat) :
    pcieAddress baseAddr startBus bus slot function =
      (baseAddr + ((bus - startBus) * 2 ^ 20 + slot * 2 ^ 15 + function * 2 ^ 12)) % 2 ^ 64 := by
  unfold pcieAddress
  simp only [Nat.shiftLeft_eq]
  omega

theorem BusNode.address_eq {n : BusNode} (h : n.1.startBus ≤ n.2) (hs : n.1.startBus ≤ 2 ^ 64)
    (slot function : Nat) : n.address slot function =
      (n.1.baseAddress + ((n.2 - n.1.startBus) * 2 ^ 20 + slot * 2 ^ 15 + function * 2 ^ 12)) % 2 ^ 64 :=
  pcieAddress_eq _ h hs slot function

/-- A function answers at `hdr`. -/
def Answers (ecam : ByteMem.Mem) (hdr : Nat) : Prop :=
  deviceId ecam hdr ≠ 0 ∧ deviceId ecam hdr ≠ 0xFFFF

instance (ecam : ByteMem.Mem) (hdr : Nat) : Decidable (Answers ecam hdr) := by
  unfold Answers
  infer_instance

/-- The function at `hdr` is a bridge to the bus `bus`. -/
def BridgeAt (ecam : ByteMem.Mem) (hdr bus : Nat) : Prop :=
  Answers ecam hdr ∧ hdrType ecam hdr = 0x1 ∧ secondaryBusNum ecam hdr = bus

/-- Some function on the bus `n` is a bridge to the bus `n'` of the same group. -/
def Bridge (ecam : ByteMem.Mem) (n n' : BusNode) : Prop :=
  n'.1 = n.1 ∧ ∃ slot < 32, ∃ function < 8, BridgeAt ecam (n.address slot function) n'.2

/-- The buses of the groups the scan starts a probe on, in order. -/
def scanned (groups : List McfgSegmentGroup) : List BusNode :=
  groups.flatMap fun g => (List.range' g.startBus (g.endBus - g.startBus)).map (g, ·)

theorem mem_scanned {groups : List McfgSegmentGroup} {n : BusNode} :
    n ∈ scanned groups ↔ n.1 ∈ groups ∧ n.1.startBus ≤ n.2 ∧ n.2 < n.1.endBus := by
  simp only [scanned, List.mem_flatMap, List.mem_map, List.mem_range'_1]
  constructor
  · rintro ⟨g, hg, b, hb, rfl⟩
    dsimp only
    exact ⟨hg, by omega, by omega⟩
  · rintro ⟨hg, h₁, h₂⟩
    exact ⟨n.1, hg, n.2, by omega, rfl⟩

/-! ## What a probe does -/

inductive PciEvent where
  | map (address : Nat)
  | register (hdr : Nat)
  deriving DecidableEq, Repr

def Pci.apply (ecam : ByteMem.Mem) (s : Pci) : PciEvent → Pci
  | .map address => { s with mapped := s.mapped ++ [address] }
  | .register hdr => pciRegisterDevice ecam hdr s

def PciEvent.hdr : PciEvent → Option Nat
  | .map _ => none
  | .register hdr => some hdr

/-- The steps of `pcie_probe_function`. -/
def functionItems (ecam : ByteMem.Mem) (n : BusNode) (slot function : Nat) :
    List (Item BusNode PciEvent) :=
  .emit (.map (n.address slot function)) ::
    if Answers ecam (n.address slot function) then
      (if hdrType ecam (n.address slot function) = 0x1 then
        [.down (n.1, secondaryBusNum ecam (n.address slot function))] else []) ++
        [.emit (.register (n.address slot function))]
    else []

/-- The steps of `pcie_probe_bus`. -/
def busItems (ecam : ByteMem.Mem) (n : BusNode) : List (Item BusNode PciEvent) :=
  (List.range' 0 32).flatMap fun slot =>
    (List.range' 0 8).flatMap fun function => functionItems ecam n slot function

section Traversal

variable {ecam : ByteMem.Mem}

/-- A loop of the source whose body goes through items goes through the items of all rounds. -/
theorem forUpto_walk {rec : BusNode → Option (List PciEvent)} {f : Nat → Pci → Option Pci}
    {items : Nat → List (Item BusNode PciEvent)}
    (h : ∀ i s, f i s = (walk rec (items i)).map fun l => l.foldl (Pci.apply ecam) s) :
    ∀ n i s, Loop.forUpto f n i s =
      (walk rec ((List.range' i n).flatMap items)).map fun l => l.foldl (Pci.apply ecam) s := by
  intro n
  induction n with
  | zero =>
    intro i s
    rfl
  | succ n ih =>
    intro i s
    rw [List.range'_succ, List.flatMap_cons, walk_append, Loop.forUpto, h]
    cases walk rec (items i) with
    | none => rfl
    | some x =>
      simp only [Option.map_some, Option.bind_some, ih]
      cases walk rec ((List.range' (i + 1) n).flatMap items) <;> simp

theorem pcieProbeFunction_eq {g : McfgSegmentGroup} {probeBus : Nat → Pci → Option Pci}
    {rec : BusNode → Option (List PciEvent)}
    (h : ∀ bus s, probeBus bus s = (rec (g, bus)).map fun l => l.foldl (Pci.apply ecam) s)
    (bus slot function : Nat) (s : Pci) :
    pcieProbeFunction ecam probeBus g.baseAddress g.startBus bus slot function s =
      (walk rec (functionItems ecam (g, bus) slot function)).map
        fun l => l.foldl (Pci.apply ecam) s := by
  unfold pcieProbeFunction functionItems
  have hp : (deviceId ecam (BusNode.address (g, bus) slot function) = 0 ∨
      deviceId ecam (BusNode.address (g, bus) slot function) = 0xFFFF) ↔
      ¬ Answers ecam (BusNode.address (g, bus) slot function) := by
    unfold Answers
    tauto
  change (if deviceId ecam (BusNode.address (g, bus) slot function) = 0 ∨
    deviceId ecam (BusNode.address (g, bus) slot function) = 0xFFFF then _ else _) = _
  by_cases hpres : Answers ecam (BusNode.address (g, bus) slot function)
  · rw [if_neg (fun hd => hp.mp hd hpres), if_pos hpres]
    by_cases hbr : hdrType ecam (BusNode.address (g, bus) slot function) = 0x1
    · have hbr' : hdrType ecam (pcieAddress g.baseAddress g.startBus bus slot function) = 0x1 := hbr
      simp only [hbr', hbr, if_true, h, List.cons_append, List.nil_append, walk]
      change Option.map _ (Option.map _ (rec (g, secondaryBusNum ecam (BusNode.address (g, bus) slot function)))) = _
      cases rec (g, secondaryBusNum ecam (BusNode.address (g, bus) slot function)) with
      | none => rfl
      | some x => simp [Pci.apply, BusNode.address]
    · have hbr' : ¬ hdrType ecam (pcieAddress g.baseAddress g.startBus bus slot function) = 0x1 := hbr
      simp only [hbr', hbr, if_false, List.nil_append, walk]
      rfl
  · rw [if_pos (hp.mpr hpres), if_neg hpres]
    rfl

/-- The recursion of `pcie.c` below a bus is the traversal of the graph from that bus. -/
theorem pcieProbeBus_eq (g : McfgSegmentGroup) (depth bus : Nat) (s : Pci) :
    pcieProbeBus ecam g.baseAddress g.startBus depth bus s =
      (visit (busItems ecam) depth (g, bus)).map fun l => l.foldl (Pci.apply ecam) s := by
  induction depth generalizing bus s with
  | zero => rfl
  | succ depth ih =>
    have hslot : ∀ slot s, pcieProbeSlot ecam (pcieProbeBus ecam g.baseAddress g.startBus depth)
        g.baseAddress g.startBus bus slot s =
        (walk (visit (busItems ecam) depth)
          ((List.range' 0 8).flatMap fun function => functionItems ecam (g, bus) slot function)).map
            fun l => l.foldl (Pci.apply ecam) s := fun slot s =>
      forUpto_walk (fun function s => pcieProbeFunction_eq (fun bus s => ih bus s) bus slot function s) 8 0 s
    exact forUpto_walk hslot 32 0 s

theorem pcieProbeBus_walk (g : McfgSegmentGroup) (depth bus : Nat) (s : Pci) :
    pcieProbeBus ecam g.baseAddress g.startBus depth bus s =
      (walk (visit (busItems ecam) depth) [.down (g, bus)]).map
        fun l => l.foldl (Pci.apply ecam) s := by
  rw [pcieProbeBus_eq]
  simp only [walk, Option.map_some, List.append_nil]
  cases visit (busItems ecam) depth (g, bus) <;> rfl

theorem pcieProbeGroup_eq (g : McfgSegmentGroup) (depth : Nat) (s : Pci) :
    pcieProbeGroup ecam depth g s =
      (walk (visit (busItems ecam) depth)
        (((List.range' g.startBus (g.endBus - g.startBus)).map (g, ·)).map .down)).map
          fun l => l.foldl (Pci.apply ecam) s := by
  rw [pcieProbeGroup, forUpto_walk (pcieProbeBus_walk g depth), List.map_map, List.map_eq_flatMap]
  rfl

theorem pcieProbeGroups_eq (groups : List McfgSegmentGroup) (depth : Nat) (s : Pci) :
    pcieProbeGroups ecam depth groups s =
      (walk (visit (busItems ecam) depth) ((scanned groups).map .down)).map
        fun l => l.foldl (Pci.apply ecam) s := by
  induction groups generalizing s with
  | nil => rfl
  | cons g groups ih =>
    rw [pcieProbeGroups, pcieProbeGroup_eq, scanned, List.flatMap_cons, List.map_append,
      walk_append]
    cases walk (visit (busItems ecam) depth)
        (((List.range' g.startBus (g.endBus - g.startBus)).map (g, ·)).map .down) with
    | none => rfl
    | some x =>
      simp only [Option.map_some, Option.bind_some, ih]
      change _ = Option.map _ (Option.map _ (walk (visit (busItems ecam) depth)
        ((scanned groups).map .down)))
      cases walk (visit (busItems ecam) depth) ((scanned groups).map .down) <;> simp

/-! ## The edges and the emissions -/

theorem mem_busItems {n : BusNode} {i : Item BusNode PciEvent} :
    i ∈ busItems ecam n ↔
      ∃ slot < 32, ∃ function < 8, i ∈ functionItems ecam n slot function := by
  simp only [busItems, List.mem_flatMap, List.mem_range'_1, Nat.zero_le, true_and, Nat.zero_add]

theorem down_mem {n n' : BusNode} {slot function : Nat} :
    .down n' ∈ functionItems ecam n slot function ↔
      n'.1 = n.1 ∧ BridgeAt ecam (n.address slot function) n'.2 := by
  unfold functionItems BridgeAt
  by_cases hp : Answers ecam (n.address slot function)
  · by_cases hb : hdrType ecam (n.address slot function) = 0x1
    · simp [hp, hb, Prod.ext_iff, eq_comm]
    · simp [hp, hb]
  · simp [hp]

theorem register_mem {n : BusNode} {slot function hdr : Nat} :
    .emit (.register hdr) ∈ functionItems ecam n slot function ↔
      Answers ecam (n.address slot function) ∧ hdr = n.address slot function := by
  unfold functionItems
  by_cases hp : Answers ecam (n.address slot function)
  · by_cases hb : hdrType ecam (n.address slot function) = 0x1
    · simp [hp, hb]
    · simp [hp, hb]
  · simp [hp]

theorem map_mem {n : BusNode} {slot function address : Nat} :
    .emit (.map address) ∈ functionItems ecam n slot function ↔
      address = n.address slot function := by
  unfold functionItems
  by_cases hp : Answers ecam (n.address slot function)
  · by_cases hb : hdrType ecam (n.address slot function) = 0x1
    · simp [hp, hb]
    · simp [hp, hb]
  · simp [hp]

theorem edge_busItems : Edge (busItems ecam) = Bridge ecam := by
  funext n n'
  refine propext ?_
  unfold Edge Bridge
  rw [mem_busItems]
  simp only [down_mem]
  constructor
  · rintro ⟨slot, hs, function, hf, h, hb⟩
    exact ⟨h, slot, hs, function, hf, hb⟩
  · rintro ⟨h, slot, hs, function, hf, hb⟩
    exact ⟨slot, hs, function, hf, h, hb⟩

/-- Bridges stay in their group. -/
theorem reach_group {n n' : BusNode} (h : ReflTransGen (Bridge ecam) n n') : n'.1 = n.1 := by
  induction h with
  | refl => rfl
  | tail _ hbr ih => exact hbr.1.trans ih

theorem secondaryBusNum_lt (ecam : ByteMem.Mem) (hdr : Nat) : secondaryBusNum ecam hdr < 256 :=
  (ecam (hdr + 16 + 9)).isLt

/-- Bus numbers are bytes, so only finitely many buses are in reach. -/
theorem bridge_finite (n : BusNode) : {c | ReflTransGen (Bridge ecam) n c}.Finite := by
  have hsub : {c | ReflTransGen (Bridge ecam) n c} ⊆ insert n ((n.1, ·) '' Set.Iio 256) := by
    intro c hc
    induction hc with
    | refl => exact Set.mem_insert n _
    | tail _ hbr ih =>
      obtain ⟨hg, slot, _, function, _, _, _, hbus⟩ := hbr
      refine .inr ⟨_, ?_, Prod.ext ?_ rfl⟩
      · exact Set.mem_Iio.mpr (lt_of_eq_of_lt hbus.symm (secondaryBusNum_lt _ _))
      · rw [hg]
        rcases ih with rfl | ⟨b, _, rfl⟩
        · rfl
        · rfl
  exact (((Set.finite_Iio 256).image _).insert n).subset hsub

/-- The headers in `pci_devices`, in order. -/
def Pci.headers (s : Pci) : List Nat := s.pciDevices.map PciDevice.header

theorem pciRegisterDevice_headers (hdr : Nat) (s : Pci) :
    (pciRegisterDevice ecam hdr s).headers = s.headers ++ [hdr] := by
  unfold pciRegisterDevice Pci.headers
  dsimp only
  rw [List.map_append, List.map_singleton]
  split
  · rfl
  · rfl

theorem foldl_headers (l : List PciEvent) (s : Pci) :
    (l.foldl (Pci.apply ecam) s).headers = s.headers ++ l.filterMap PciEvent.hdr := by
  induction l generalizing s with
  | nil => simp
  | cons e l ih =>
    rw [List.foldl_cons, ih]
    cases e with
    | map address => rfl
    | register hdr =>
      rw [Pci.apply, pciRegisterDevice_headers]
      simp [PciEvent.hdr]

end Traversal

/-! ## The probe -/

/-- `acpi_init` has parsed an MCFG and its groups are these. -/
structure Parsed (m : ByteMem.Mem) (a : Acpi) (groups : List McfgSegmentGroup) : Prop where
  parsed : acpiHasParsed m a sigMcfg = true
  header : acpiGetMcfg a ≠ 0
  groups : acpiMcfgGetSegmentGroups a = some groups

section Probe

variable {m ecam : ByteMem.Mem} {a : Acpi} {groups : List McfgSegmentGroup} {depth : Nat}

theorem pcieProbe_eq (hp : Parsed m a groups) (s : Pci) :
    pcieProbe m ecam a depth s =
      match walk (visit (busItems ecam) depth) ((scanned groups).map .down) with
      | none => .error .hang
      | some l => .ok (l.foldl (Pci.apply ecam) s) := by
  unfold pcieProbe
  rw [if_pos hp.parsed, if_neg hp.header, hp.groups]
  dsimp only
  rw [pcieProbeGroups_eq]
  cases walk (visit (busItems ecam) depth) ((scanned groups).map .down) <;> rfl

/-- The probe comes back at some depth when no infinite descent starts at a scanned bus. -/
theorem pcieProbe_returns (hp : Parsed m a groups) (s : Pci) :
    (∃ depth s', pcieProbe m ecam a depth s = .ok s') ↔
      ∀ n ∈ scanned groups, Acc (fun c n => Bridge ecam n c) n := by
  rw [← edge_busItems]
  constructor
  · rintro ⟨depth, s', h⟩ n hn
    rw [pcieProbe_eq hp] at h
    cases hw : walk (visit (busItems ecam) depth) ((scanned groups).map .down) with
    | none => simp [hw] at h
    | some l =>
      have hsome := walk_isSome.mp (Option.isSome_iff_exists.mpr ⟨l, hw⟩) n
        (List.mem_map_of_mem hn)
      exact visit_isSome_iff.mp ⟨depth, hsome⟩
  · intro h
    have hroots : ∀ n, Item.down n ∈ (scanned groups).map (.down : BusNode → Item BusNode PciEvent) →
        ∃ fuel, (visit (busItems ecam) fuel n).isSome := by
      intro n hn
      obtain ⟨n', hn', he⟩ := List.mem_map.mp hn
      cases he
      exact visit_isSome_iff.mpr (h n hn')
    obtain ⟨depth, hd⟩ := exists_fuel hroots
    obtain ⟨l, hl⟩ := Option.isSome_iff_exists.mp (walk_isSome.mpr hd)
    exact ⟨depth, _, by rw [pcieProbe_eq hp, hl]⟩

/-- The steps of `pcie_probe_bus` that matter for `pci_devices`. -/
def hdrItems (ecam : ByteMem.Mem) (n : BusNode) : List (Item BusNode Nat) :=
  (busItems ecam n).filterMap (Item.filterMap PciEvent.hdr)

theorem edge_hdrItems : Edge (hdrItems ecam) = Bridge ecam := by
  rw [← edge_busItems]
  funext n n'
  exact propext down_mem_filterMap

theorem emit_hdrItems {n : BusNode} {hdr : Nat} :
    .emit hdr ∈ hdrItems ecam n ↔ ∃ slot < 32, ∃ function < 8,
      Answers ecam (n.address slot function) ∧ hdr = n.address slot function := by
  unfold hdrItems
  rw [emit_mem_filterMap]
  constructor
  · rintro ⟨e, he, hhdr⟩
    cases e with
    | map address => cases hhdr
    | register h =>
      cases hhdr
      obtain ⟨slot, hs, function, hf, hi⟩ := mem_busItems.mp he
      exact ⟨slot, hs, function, hf, register_mem.mp hi⟩
  · rintro ⟨slot, hs, function, hf, hi⟩
    exact ⟨_, mem_busItems.mpr ⟨slot, hs, function, hf, register_mem.mpr hi⟩, rfl⟩

/-- A probe that comes back has registered what its traversal emits. -/
theorem pcieProbe_headers (hp : Parsed m a groups) {s' : Pci}
    (h : pcieProbe m ecam a depth {} = .ok s') :
    walk (visit (hdrItems ecam) depth) ((scanned groups).map .down) = some s'.headers := by
  rw [pcieProbe_eq hp] at h
  cases hw : walk (visit (busItems ecam) depth) ((scanned groups).map .down) with
  | none => simp [hw] at h
  | some l =>
    simp only [hw, Except.ok.injEq] at h
    have hmap := walk_filterMap (visit_filterMap PciEvent.hdr (busItems ecam) depth)
      ((scanned groups).map .down)
    have hdown : ((scanned groups).map .down).filterMap (Item.filterMap PciEvent.hdr) =
        (scanned groups).map (.down : BusNode → Item BusNode Nat) := by
      rw [List.filterMap_map, ← List.filterMap_eq_map]
      rfl
    rw [hdown, hw] at hmap
    change walk (visit (fun n => (busItems ecam n).filterMap (Item.filterMap PciEvent.hdr)) depth) _ = _
    rw [hmap, ← h, foldl_headers]
    rfl

/-- The registered headers are those of the functions on the buses in reach of a scanned one. -/
theorem mem_headers (hp : Parsed m a groups) {s' : Pci}
    (h : pcieProbe m ecam a depth {} = .ok s') {hdr : Nat} :
    hdr ∈ s'.headers ↔ ∃ r ∈ scanned groups, ∃ n, ReflTransGen (Bridge ecam) r n ∧
      ∃ slot < 32, ∃ function < 8,
        Answers ecam (n.address slot function) ∧ hdr = n.address slot function := by
  rw [mem_walk (pcieProbe_headers hp h), ← edge_hdrItems]
  constructor
  · rintro (hb | ⟨r, y, hr, hy, hb⟩)
    · obtain ⟨_, _, he⟩ := List.mem_map.mp hb
      cases he
    · obtain ⟨r', hr', he⟩ := List.mem_map.mp hr
      cases he
      obtain ⟨n, hrn, hn⟩ := (mem_visit hy).mp hb
      exact ⟨r, hr', n, hrn, emit_hdrItems.mp hn⟩
  · rintro ⟨r, hr, n, hrn, hn⟩
    have hdown : Item.down r ∈ (scanned groups).map (.down : BusNode → Item BusNode Nat) :=
      List.mem_map_of_mem hr
    have hsome := walk_isSome.mp (Option.isSome_iff_exists.mpr ⟨_, pcieProbe_headers hp h⟩) r hdown
    obtain ⟨y, hy⟩ := Option.isSome_iff_exists.mp hsome
    exact .inr ⟨r, y, hdown, hy, (mem_visit hy).mpr ⟨n, hrn, emit_hdrItems.mpr hn⟩⟩

end Probe

end BambooOS
