import BambooOS.Pci.Probe

/-!
# Pci.Scan

Does the scan end, and does it meet every function? The recursion follows whatever bus numbers the
bridges hold, and the counter of the linear scan stops before the last bus of a group.

* `pcieProbe_returns_iff`: the scan ends exactly where no cycle of bridges is in reach.
* `pcieProbe_complete_iff`: what it misses are functions on the last bus of a group.
-/

namespace BambooOS

open ByteMem Descent Relation

section Scan

variable {m ecam : Mem} {a : Acpi} {groups : List McfgSegmentGroup} {depth : Nat}

/-- `pcie_probe` comes back exactly where no bus on a cycle of bridges is in reach of a scanned
one. -/
theorem pcieProbe_returns_iff (hp : Parsed m a groups) :
    (∃ depth s', pcieProbe m ecam a depth {} = .ok s') ↔
      ∀ g ∈ groups, ∀ bus, g.startBus ≤ bus → bus < g.endBus →
        ¬ ∃ n, ReflTransGen (Bridge ecam) (g, bus) n ∧ TransGen (Bridge ecam) n n := by
  rw [pcieProbe_returns hp]
  constructor
  · intro h g hg bus h₁ h₂
    exact (acc_iff_no_cycle (bridge_finite _)).mp (h (g, bus) (mem_scanned.mpr ⟨hg, h₁, h₂⟩))
  · intro h n hn
    obtain ⟨hg, h₁, h₂⟩ := mem_scanned.mp hn
    exact (acc_iff_no_cycle (bridge_finite _)).mpr (h n.1 hg n.2 h₁ h₂)

/-- Every function on the buses `start_bus` to `end_bus` of a group has an entry. -/
def Complete (ecam : Mem) (groups : List McfgSegmentGroup) (s : Pci) : Prop :=
  ∀ g ∈ groups, g.startBus ≤ g.endBus → ∀ bus, g.startBus ≤ bus → bus ≤ g.endBus →
    ∀ slot < 32, ∀ function < 8, Answers ecam (BusNode.address (g, bus) slot function) →
      BusNode.address (g, bus) slot function ∈ s.headers

/-- The functions on the last bus of a group stand on a bus in reach of a scanned one. -/
def LastBusMet (ecam : Mem) (groups : List McfgSegmentGroup) : Prop :=
  ∀ g ∈ groups, g.startBus ≤ g.endBus → ∀ slot < 32, ∀ function < 8,
    Answers ecam (BusNode.address (g, g.endBus) slot function) →
      ∃ r ∈ scanned groups, ∃ n, ReflTransGen (Bridge ecam) r n ∧ ∃ slot' < 32, ∃ function' < 8,
        n.address slot' function' = BusNode.address (g, g.endBus) slot function

theorem pcieProbe_complete_iff (hp : Parsed m a groups) {s' : Pci}
    (h : pcieProbe m ecam a depth {} = .ok s') :
    Complete ecam groups s' ↔ LastBusMet ecam groups := by
  constructor
  · intro hc g hg hle slot hs function hf hpres
    have hmem := hc g hg hle g.endBus hle (Nat.le_refl _) slot hs function hf hpres
    obtain ⟨r, hr, n, hrn, slot', hs', function', hf', _, he⟩ := (mem_headers hp h).mp hmem
    exact ⟨r, hr, n, hrn, slot', hs', function', hf', he.symm⟩
  · intro hl g hg hle bus h₁ h₂ slot hs function hf hpres
    rw [mem_headers hp h]
    rcases Nat.lt_or_ge bus g.endBus with hlt | hge
    · exact ⟨(g, bus), mem_scanned.mpr ⟨hg, h₁, hlt⟩, (g, bus), .refl, slot, hs, function, hf, hpres,
        rfl⟩
    · have hbus : bus = g.endBus := by omega
      subst hbus
      obtain ⟨r, hr, n, hrn, slot', hs', function', hf', he⟩ := hl g hg hle slot hs function hf hpres
      exact ⟨r, hr, n, hrn, slot', hs', function', hf', he ▸ hpres, he.symm⟩

end Scan

/-! ## Small machines -/

/-- A parsed MCFG with the given groups. -/
def parsedAcpi (groups : List McfgSegmentGroup) : Acpi :=
  { handlersAt := 0, handlerCopyAt := 0, acpiParsedTables := [.handler 1]
    mcfg := { mcfg := 0x1000, mcfgSegmentGroups := some groups } }

theorem parsedAcpi_parsed (m : Mem) (groups : List McfgSegmentGroup) :
    Parsed m (parsedAcpi groups) groups where
  parsed := by rfl
  header := by
    intro h
    cases h
  groups := rfl

/-- A group at `0xB0000000` whose first bus is 0. -/
def ecamGroup (endBus : Nat) : McfgSegmentGroup :=
  { baseAddress := 0xB0000000, pciSegGroup := 0, startBus := 0, endBus := endBus, reserved := 0 }

/-- Configuration space with one function, on bus 0 and slot 0: a device id, a header type and a
secondary bus number. -/
def oneFunction (type secondary : Byte) : Mem :=
  ofList 0xB0000000 ([0, 0, 0x34, 0x12] ++ List.replicate 10 0 ++ [type] ++
    List.replicate 10 0 ++ [secondary])

theorem oneFunction_zero {type secondary : Byte} {x : Nat} (h : x < 0xB0000000 ∨ 0xB000001A ≤ x) :
    oneFunction type secondary x = 0 := by
  unfold oneFunction ofList
  rcases h with h | h
  · rw [if_neg (by omega)]
  · rw [if_pos (by omega)]
    simp only [List.getD_eq_getElem?_getD]
    rw [List.getElem?_eq_none (by simp; omega)]
    rfl

theorem ecamGroup_address (endBus : Nat) : BusNode.address (ecamGroup endBus, 0) 0 0 = 0xB0000000 := by
  have hstart : (ecamGroup endBus).startBus = 0 := rfl
  rw [BusNode.address_eq (Nat.le_refl _) (by rw [hstart]; omega)]
  simp [ecamGroup]

theorem ecamGroup_offset {n : BusNode} {endBus : Nat} (hg : n.1 = ecamGroup endBus)
    (slot function : Nat) : n.address slot function =
      (0xB0000000 + (n.2 * 2 ^ 20 + slot * 2 ^ 15 + function * 2 ^ 12)) % 2 ^ 64 := by
  have hstart : n.1.startBus = 0 := by rw [hg]; rfl
  have hbase : n.1.baseAddress = 0xB0000000 := by rw [hg]; rfl
  rw [BusNode.address_eq (by omega) (by omega), hstart, hbase, Nat.sub_zero]

/-- A bridge on bus 0 whose secondary bus is bus 0 again, as an unconfigured one reports: no depth
is enough. -/
theorem selfBridge_not_returns :
    ¬ ∃ depth s', pcieProbe (fun _ => 0) (oneFunction 1 0) (parsedAcpi [ecamGroup 1]) depth {} =
      .ok s' := by
  intro h
  have hacc := (pcieProbe_returns (parsedAcpi_parsed _ _) {}).mp h (ecamGroup 1, 0)
    (mem_scanned.mpr ⟨List.mem_singleton.mpr rfl, by decide, by decide⟩)
  refine not_rel_of_acc hacc ⟨rfl, 0, by decide, 0, by decide, ?_⟩
  rw [ecamGroup_address]
  exact ⟨by decide +kernel, by decide +kernel, by decide +kernel⟩

/-- A bridge on bus 0 to bus 1, and a function there. -/
def bridgedFunction : Mem := fun x =>
  if x < 0xB0100000 then oneFunction 1 1 x else ofList 0xB0100000 [0, 0, 0x34, 0x12] x

theorem bridgedFunction_zero {x : Nat} (h : x < 0xB0000000 ∨ (0xB000001A ≤ x ∧ x < 0xB0100000) ∨
    0xB0100004 ≤ x) : bridgedFunction x = 0 := by
  unfold bridgedFunction
  by_cases hx : x < 0xB0100000
  · rw [if_pos hx]
    exact oneFunction_zero (by omega)
  · rw [if_neg hx]
    unfold ofList
    rw [if_pos (by omega), List.getD_eq_getElem?_getD, List.getElem?_eq_none (by simp; omega)]
    rfl

theorem bridgedFunction_answers {hdr : Nat} (hal : hdr % 0x1000 = 0)
    (h : Answers bridgedFunction hdr) : hdr = 0xB0000000 ∨ hdr = 0xB0100000 := by
  by_contra hne
  have hz : deviceId bridgedFunction hdr = 0 := by
    refine load_of_zero fun x h₁ h₂ => bridgedFunction_zero ?_
    omega
  exact h.1 hz

theorem bridgedFunction_bridge {hdr bus : Nat} (hal : hdr % 0x1000 = 0)
    (h : BridgeAt bridgedFunction hdr bus) : hdr = 0xB0000000 ∧ bus = 1 := by
  obtain ⟨hans, htype, hbus⟩ := h
  rcases bridgedFunction_answers hal hans with he | he
  · subst he
    refine ⟨rfl, hbus.symm.trans ?_⟩
    decide +kernel
  · subst he
    have hzero : hdrType bridgedFunction 0xB0100000 = 0 := by decide +kernel
    rw [hzero] at htype
    cases htype

theorem bridgedFunction_edge (endBus : Nat) :
    Bridge bridgedFunction (ecamGroup endBus, 0) (ecamGroup endBus, 1) := by
  refine ⟨rfl, 0, by decide, 0, by decide, ?_⟩
  rw [ecamGroup_address]
  show BridgeAt bridgedFunction 0xB0000000 1
  exact ⟨by decide +kernel, by decide +kernel, by decide +kernel⟩

theorem bridgedFunction_to {n n' : BusNode} {endBus : Nat} (hg : n.1 = ecamGroup endBus)
    (h : Bridge bridgedFunction n n') : n'.2 = 1 ∧ n.2 ≠ 1 := by
  obtain ⟨_, slot, hs, function, hf, hb⟩ := h
  have hal : n.address slot function % 0x1000 = 0 := by
    rw [ecamGroup_offset hg]
    omega
  obtain ⟨ha, hbus⟩ := bridgedFunction_bridge hal hb
  refine ⟨hbus, fun h1 => ?_⟩
  rw [ecamGroup_offset hg] at ha
  omega

/-- The bridge leads to a bus that no bridge is on. -/
theorem bridgedFunction_returns :
    ∃ depth s', pcieProbe (fun _ => 0) bridgedFunction (parsedAcpi [ecamGroup 1]) depth {} =
      .ok s' := by
  refine (pcieProbe_returns_iff (parsedAcpi_parsed _ _)).mpr fun g hg bus _ _ => ?_
  rintro ⟨n, hn, hcyc⟩
  have hgroup : n.1 = ecamGroup 1 := (reach_group hn).trans (List.mem_singleton.mp hg)
  obtain ⟨n', hout, _⟩ := TransGen.head'_iff.mp hcyc
  obtain ⟨p, hnp, hin⟩ := TransGen.tail'_iff.mp hcyc
  have hp : p.1 = ecamGroup 1 := (reach_group hnp).trans hgroup
  exact (bridgedFunction_to hgroup hout).2 (bridgedFunction_to hp hin).1

/-- A group of one bus: the function on it is not looked for. -/
theorem oneBus_not_complete :
    pcieProbe (fun _ => 0) (oneFunction 0 0) (parsedAcpi [ecamGroup 0]) 0 {} = .ok {} ∧
      ¬ Complete (oneFunction 0 0) [ecamGroup 0] {} := by
  refine ⟨rfl, fun h => ?_⟩
  have hmem := h (ecamGroup 0) (List.mem_singleton.mpr rfl) (Nat.le_refl _) 0 (Nat.le_refl _)
    (Nat.le_refl _) 0 (by decide) 0 (by decide)
  rw [ecamGroup_address] at hmem
  cases hmem (by decide +kernel)

/-- The function on the last bus stands behind the bridge. -/
theorem bridgedFunction_complete :
    ∃ depth s', pcieProbe (fun _ => 0) bridgedFunction (parsedAcpi [ecamGroup 1]) depth {} =
      .ok s' ∧ Complete bridgedFunction [ecamGroup 1] s' := by
  have hacc : ∀ n ∈ scanned [ecamGroup 1], Acc (fun c n => Bridge bridgedFunction n c) n := by
    intro n hn
    have hgroup := List.mem_singleton.mp (mem_scanned.mp hn).1
    refine ⟨n, fun c hbr => ⟨c, fun d hbr' => ?_⟩⟩
    exact absurd (bridgedFunction_to hgroup hbr).1 (bridgedFunction_to (hbr.1.trans hgroup) hbr').2
  obtain ⟨depth, s', h⟩ := (pcieProbe_returns (parsedAcpi_parsed (fun _ => 0) _) {}).mpr hacc
  refine ⟨depth, s', h, (pcieProbe_complete_iff (parsedAcpi_parsed _ _) h).mpr ?_⟩
  intro g hg _ slot hs function hf _
  rw [List.mem_singleton.mp hg]
  exact ⟨(ecamGroup 1, 0), mem_scanned.mpr ⟨List.mem_singleton.mpr rfl, by decide, by decide⟩,
    (ecamGroup 1, 1), .single (bridgedFunction_edge 1), slot, hs, function, hf, rfl⟩

end BambooOS
