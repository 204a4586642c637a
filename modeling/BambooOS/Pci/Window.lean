import BambooOS.Pci.Scan

/-!
# Pci.Window

Which configuration pages does the enumeration touch? `PcieCalls` lists the calls of
`pcie_probe_function` for one group, also in a run that never comes back.

* `pcieProbeGroup_mapped`: in a run that comes back these are the pages it maps.
* `pcieProbe_window_iff`: all of them lie in the group's window exactly when every bridge met leads
  to a bus of the group. The bus number a bridge holds is not compared with the group's.
-/

namespace BambooOS

open ByteMem Descent Relation

/-- The probe of `bus` comes to `function` of `slot`: what is probed there before comes back. -/
def Arrives (ecam : Mem) (g : McfgSegmentGroup) (depth bus slot function : Nat) : Prop :=
  slot < 32 ∧ function < 8 ∧
    (Loop.forUpto (fun slot => pcieProbeSlot ecam (pcieProbeBus ecam g.baseAddress g.startBus depth)
      g.baseAddress g.startBus bus slot) slot 0 {}).isSome ∧
    (Loop.forUpto (fun function => pcieProbeFunction ecam
      (pcieProbeBus ecam g.baseAddress g.startBus depth) g.baseAddress g.startBus bus slot function)
      function 0 {}).isSome

/-- `pcie_probe_function(base_address, start_bus, bus, slot, function)` is called in the scan of the
group, from the counter of `pcie_probe` or through a bridge met before. -/
inductive PcieCalls (ecam : Mem) (g : McfgSegmentGroup) : Nat → Nat → Nat → Prop where
  | scan {depth bus slot function : Nat} : g.startBus ≤ bus → bus < g.endBus →
      (Loop.forUpto (fun bus => pcieProbeBus ecam g.baseAddress g.startBus depth bus)
        (bus - g.startBus) g.startBus {}).isSome →
      Arrives ecam g depth bus slot function → PcieCalls ecam g bus slot function
  | bridge {depth bus slot function secondary slot' function' : Nat} :
      PcieCalls ecam g bus slot function →
      BridgeAt ecam (pcieAddress g.baseAddress g.startBus bus slot function) secondary →
      Arrives ecam g depth secondary slot' function' → PcieCalls ecam g secondary slot' function'

/-- An address in the window of the group's buses. -/
def McfgSegmentGroup.Covers (g : McfgSegmentGroup) (address : Nat) : Prop :=
  g.baseAddress ≤ address ∧ address < g.baseAddress + (g.endBus - g.startBus + 1) <<< 20

/-- No call underflows the bus offset, and the configuration page of each lies in the window. -/
def ProbesInside (ecam : Mem) (g : McfgSegmentGroup) : Prop :=
  ∀ bus slot function, PcieCalls ecam g bus slot function → g.startBus ≤ bus ∧
    ∀ i < 0x1000, g.Covers (pcieAddress g.baseAddress g.startBus bus slot function + i)

/-- Every bridge the scan meets leads to a bus of the group. -/
def BridgesInside (ecam : Mem) (g : McfgSegmentGroup) : Prop :=
  ∀ bus slot function, PcieCalls ecam g bus slot function → ∀ secondary,
    BridgeAt ecam (pcieAddress g.baseAddress g.startBus bus slot function) secondary →
      g.startBus ≤ secondary ∧ secondary ≤ g.endBus

section Window

variable {ecam : Mem} {g : McfgSegmentGroup}

theorem arrives_first (ecam : Mem) (g : McfgSegmentGroup) (depth bus : Nat) :
    Arrives ecam g depth bus 0 0 :=
  ⟨by omega, by omega, rfl, rfl⟩

theorem PcieCalls.lt {bus slot function : Nat} (h : PcieCalls ecam g bus slot function) : slot < 32 ∧ function < 8 := by
  cases h with
  | scan _ _ _ ha => exact ⟨ha.1, ha.2.1⟩
  | bridge _ _ ha => exact ⟨ha.1, ha.2.1⟩

theorem BridgesInside.inside (hb : BridgesInside ecam g) {bus slot function : Nat}
    (h : PcieCalls ecam g bus slot function) : g.startBus ≤ bus ∧ bus ≤ g.endBus := by
  cases h with
  | scan h₁ h₂ _ _ => exact ⟨h₁, by omega⟩
  | bridge hcall hbr _ => exact hb _ _ _ hcall _ hbr

theorem covers_page_iff (hle : g.startBus ≤ g.endBus) (hbyte : g.endBus < 256)
    (hwrap : g.baseAddress + (g.endBus - g.startBus + 1) <<< 20 ≤ 2 ^ 64) {bus : Nat}
    (h₁ : g.startBus ≤ bus) (hbus : bus < 256) {slot function : Nat} (hs : slot < 32)
    (hf : function < 8) :
    (∀ i < 0x1000, g.Covers (pcieAddress g.baseAddress g.startBus bus slot function + i)) ↔
      bus ≤ g.endBus := by
  rw [pcieAddress_eq _ h₁ (by omega)]
  unfold McfgSegmentGroup.Covers
  rw [Nat.shiftLeft_eq] at *
  constructor
  · intro h
    have h0 := h 0 (by omega)
    omega
  · intro h i hi
    omega

/-! ## Runs that come back -/

theorem arrives_of_visit {depth bus slot function : Nat}
    (h : (visit (busItems ecam) (depth + 1) (g, bus)).isSome) (hs : slot < 32) (hf : function < 8) :
    Arrives ecam g depth bus slot function := by
  have hdown := walk_isSome.mp h
  have hslot : ∀ slot s, pcieProbeSlot ecam (pcieProbeBus ecam g.baseAddress g.startBus depth)
      g.baseAddress g.startBus bus slot s = (walk (visit (busItems ecam) depth)
        ((List.range' 0 8).flatMap fun function => functionItems ecam (g, bus) slot function)).map
          fun l => l.foldl (Pci.apply ecam) s := fun slot s =>
    forUpto_walk (fun function s => pcieProbeFunction_eq (pcieProbeBus_eq g depth) bus slot function s)
      8 0 s
  refine ⟨hs, hf, ?_, ?_⟩
  · rw [forUpto_walk hslot, Option.isSome_map, walk_isSome]
    intro c hc
    obtain ⟨slot', hs', hc⟩ := List.mem_flatMap.mp hc
    obtain ⟨function', hf', hc⟩ := List.mem_flatMap.mp hc
    rw [List.mem_range'_1] at hs' hf'
    exact hdown c (mem_busItems.mpr ⟨slot', by omega, function', by omega, hc⟩)
  · rw [forUpto_walk fun function s =>
      pcieProbeFunction_eq (pcieProbeBus_eq g depth) bus slot function s, Option.isSome_map, walk_isSome]
    intro c hc
    obtain ⟨function', hf', hc⟩ := List.mem_flatMap.mp hc
    rw [List.mem_range'_1] at hf'
    exact hdown c (mem_busItems.mpr ⟨slot, hs, function', by omega, hc⟩)

theorem PcieCalls.reach {bus slot function : Nat} (h : PcieCalls ecam g bus slot function) :
    ∃ r ∈ scanned [g], ReflTransGen (Bridge ecam) r (g, bus) := by
  induction h with
  | @scan _ bus _ _ h₁ h₂ _ _ =>
    exact ⟨(g, bus), mem_scanned.mpr ⟨List.mem_singleton.mpr rfl, h₁, h₂⟩, .refl⟩
  | @bridge _ bus slot function _ _ _ hcall hbr _ ih =>
    obtain ⟨r, hr, hreach⟩ := ih
    obtain ⟨hs, hf⟩ := hcall.lt
    exact ⟨r, hr, hreach.tail ⟨rfl, slot, hs, function, hf, hbr⟩⟩

/-- In a scan that comes back each function of a bus in reach is probed. -/
theorem calls_of_reach {depth : Nat} {r n : BusNode}
    (hroots : ∀ r ∈ scanned [g], (visit (busItems ecam) depth r).isSome) (hr : r ∈ scanned [g])
    (h : ReflTransGen (Bridge ecam) r n) : (visit (busItems ecam) depth n).isSome ∧
      ∀ slot < 32, ∀ function < 8, PcieCalls ecam g n.2 slot function := by
  have hgrow : ∀ {n : BusNode}, (visit (busItems ecam) depth n).isSome →
      (visit (busItems ecam) (depth + 1) n).isSome := by
    intro n hn
    obtain ⟨x, hx⟩ := Option.isSome_iff_exists.mp hn
    exact Option.isSome_iff_exists.mpr ⟨x, visit_succ hx⟩
  induction h with
  | refl =>
    obtain ⟨hg, h₁, h₂⟩ := mem_scanned.mp hr
    obtain ⟨g', bus⟩ := r
    obtain rfl : g = g' := (List.mem_singleton.mp hg).symm
    refine ⟨hroots _ hr, fun slot hs function hf => .scan h₁ h₂ ?_
      (arrives_of_visit (hgrow (hroots _ hr)) hs hf)⟩
    rw [forUpto_walk (pcieProbeBus_walk g depth), Option.isSome_map, walk_isSome]
    intro c hc
    obtain ⟨bus', hb, hc⟩ := List.mem_flatMap.mp hc
    rw [List.mem_range'_1] at hb
    have hlast : bus' < g.endBus := by
      dsimp only at h₁ h₂ hb
      omega
    cases List.mem_singleton.mp hc
    exact hroots _ (mem_scanned.mpr ⟨List.mem_singleton.mpr rfl, hb.1, hlast⟩)
  | @tail n c hrn hbr ih =>
    obtain ⟨hsome, hcalls⟩ := ih
    have hc : (visit (busItems ecam) depth c).isSome := by
      cases depth with
      | zero => cases hsome
      | succ depth =>
        have hc := walk_isSome.mp hsome c (edge_busItems ▸ hbr : Edge (busItems ecam) n c)
        obtain ⟨x, hx⟩ := Option.isSome_iff_exists.mp hc
        exact Option.isSome_iff_exists.mpr ⟨x, visit_succ hx⟩
    have hgroup : n.1 = g :=
      (reach_group hrn).trans (List.mem_singleton.mp (mem_scanned.mp hr).1)
    obtain ⟨hg, slot, hs, function, hf, hb⟩ := hbr
    obtain ⟨_, bus⟩ := n
    obtain ⟨_, bus'⟩ := c
    cases hg
    cases hgroup
    exact ⟨hc, fun slot' hs' function' hf' => .bridge (hcalls slot hs function hf) hb
      (arrives_of_visit (hgrow hc) hs' hf')⟩

theorem mem_foldl_mapped {l : List PciEvent} {s : Pci} {address : Nat} :
    address ∈ (l.foldl (Pci.apply ecam) s).mapped ↔ address ∈ s.mapped ∨ .map address ∈ l := by
  induction l generalizing s with
  | nil => simp
  | cons e l ih =>
    rw [List.foldl_cons, ih]
    cases e with
    | map page => simp [Pci.apply, or_assoc]
    | register hdr => simp [Pci.apply, pciRegisterDevice]

/-- A scan that comes back has mapped the pages of its calls. -/
theorem pcieProbeGroup_mapped {depth : Nat} {s' : Pci}
    (h : pcieProbeGroup ecam depth g {} = some s') (address : Nat) :
    address ∈ s'.mapped ↔ ∃ bus slot function, PcieCalls ecam g bus slot function ∧
      address = pcieAddress g.baseAddress g.startBus bus slot function := by
  have hroot : ((List.range' g.startBus (g.endBus - g.startBus)).map (g, ·)) = scanned [g] := by
    simp [scanned]
  rw [pcieProbeGroup_eq, hroot] at h
  obtain ⟨l, hl, rfl⟩ := Option.map_eq_some_iff.mp h
  have hroots : ∀ r ∈ scanned [g], (visit (busItems ecam) depth r).isSome := fun r hr =>
    walk_isSome.mp (Option.isSome_iff_exists.mpr ⟨l, hl⟩) r (List.mem_map_of_mem hr)
  rw [mem_foldl_mapped, mem_walk hl]
  constructor
  · rintro (hm | hm | ⟨r, y, hr, hy, hm⟩)
    · cases hm
    · obtain ⟨_, _, he⟩ := List.mem_map.mp hm
      cases he
    · obtain ⟨r', hr', he⟩ := List.mem_map.mp hr
      cases he
      obtain ⟨n, hrn, hn⟩ := (mem_visit hy).mp hm
      rw [edge_busItems] at hrn
      obtain ⟨slot, hs, function, hf, hitem⟩ := mem_busItems.mp hn
      have hcall := (calls_of_reach hroots hr' hrn).2 slot hs function hf
      have hgroup : n.1 = g :=
        (reach_group hrn).trans (List.mem_singleton.mp (mem_scanned.mp hr').1)
      exact ⟨n.2, slot, function, hcall, hgroup ▸ map_mem.mp hitem⟩
  · rintro ⟨bus, slot, function, hcall, rfl⟩
    obtain ⟨hs, hf⟩ := hcall.lt
    obtain ⟨r, hr, hreach⟩ := hcall.reach
    obtain ⟨y, hy⟩ := Option.isSome_iff_exists.mp (hroots r hr)
    refine .inr (.inr ⟨r, y, List.mem_map_of_mem hr, hy, (mem_visit hy).mpr ⟨(g, bus), ?_, ?_⟩⟩)
    · rw [edge_busItems]
      exact hreach
    · exact mem_busItems.mpr ⟨slot, hs, function, hf, map_mem.mpr rfl⟩

/-! ## The window -/

theorem pcieProbe_window_iff (ecam : Mem) (g : McfgSegmentGroup) (hle : g.startBus ≤ g.endBus)
    (hbyte : g.endBus < 256)
    (hwrap : g.baseAddress + (g.endBus - g.startBus + 1) <<< 20 ≤ 2 ^ 64) :
    ProbesInside ecam g ↔ BridgesInside ecam g := by
  constructor
  · intro h bus slot function hcall secondary hbr
    have hbus : secondary < 256 := hbr.2.2 ▸ secondaryBusNum_lt ecam _
    -- the bus behind the bridge is probed at once
    obtain ⟨h₁, hpage⟩ := h secondary 0 0 (.bridge hcall hbr (arrives_first ecam g 0 secondary))
    exact ⟨h₁, (covers_page_iff hle hbyte hwrap h₁ hbus (by omega) (by omega)).mp hpage⟩
  · intro h bus slot function hcall
    obtain ⟨h₁, h₂⟩ := h.inside hcall
    obtain ⟨hs, hf⟩ := hcall.lt
    exact ⟨h₁, (covers_page_iff hle hbyte hwrap h₁ (by omega) hs hf).mpr h₂⟩

end Window

/-! ## Small machines -/

/-- A bridge on bus 0 of a group of two buses, whose secondary bus is 200: its functions are looked
for 198 MiB behind the window. -/
theorem farBridge_outside :
    PcieCalls (oneFunction 1 200) (ecamGroup 1) 200 0 0 ∧
      ¬ (ecamGroup 1).Covers
        (pcieAddress (ecamGroup 1).baseAddress (ecamGroup 1).startBus 200 0 0) := by
  have hfirst : PcieCalls (oneFunction 1 200) (ecamGroup 1) 0 0 0 :=
    .scan (Nat.le_refl _) (by decide) rfl (arrives_first _ _ 0 _)
  constructor
  · refine .bridge hfirst ?_ (arrives_first _ _ 0 _)
    rw [show pcieAddress (ecamGroup 1).baseAddress (ecamGroup 1).startBus 0 0 0 = 0xB0000000 from
      ecamGroup_address 1]
    exact ⟨by decide +kernel, by decide +kernel, by decide +kernel⟩
  · simp only [ecamGroup, McfgSegmentGroup.Covers]
    rw [pcieAddress_eq _ (Nat.zero_le _) (Nat.zero_le _)]
    decide

/-- The bridge leads to the last bus of its group. -/
theorem bridgedFunction_inside : ProbesInside bridgedFunction (ecamGroup 1) := by
  refine (pcieProbe_window_iff _ _ (by decide) (by decide) (by decide)).mpr ?_
  intro bus slot function hcall secondary hbr
  obtain ⟨hs, hf⟩ := hcall.lt
  have hedge : Bridge bridgedFunction (ecamGroup 1, bus) (ecamGroup 1, secondary) :=
    ⟨rfl, slot, hs, function, hf, hbr⟩
  rw [show secondary = 1 from (bridgedFunction_to rfl hedge).1]
  decide

end BambooOS
