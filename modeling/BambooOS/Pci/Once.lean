import BambooOS.Pci.Scan
import Mathlib.Order.CompletePartialOrder

/-!
# Pci.Once

Is a function registered once? The linear scan and the descent through bridges both reach a bus
behind a bridge, unless it is the last bus of its group, which only the descent reaches.

* `BusTree.forest`: on a sane topology the graph of buses is a forest.
* `pcieProbe_nodup_iff`: no header is registered twice exactly when the scanned buses behind bridges
  are empty.
-/

namespace BambooOS

open ByteMem Descent Relation

/-- The addresses the group decodes, wrapped at 64 bits like the code's arithmetic. -/
def McfgSegmentGroup.window (g : McfgSegmentGroup) : Set Nat :=
  {a | ∃ i < (g.endBus + 1 - g.startBus) * 2 ^ 20, a = (g.baseAddress + i) % 2 ^ 64}

/-- A bus of one of the groups. -/
def InGroups (groups : List McfgSegmentGroup) (n : BusNode) : Prop :=
  n.1 ∈ groups ∧ n.1.startBus ≤ n.2 ∧ n.2 ≤ n.1.endBus

/-- Groups with separate windows, whose bridges lead to larger buses of their group, no two of them
to the same. -/
structure BusTree (ecam : Mem) (groups : List McfgSegmentGroup) : Prop where
  bytes : ∀ g ∈ groups, g.endBus < 256
  windows : groups.Pairwise fun g g' => Disjoint g.window g'.window
  upward : ∀ n, InGroups groups n → ∀ slot < 32, ∀ function < 8, ∀ bus,
    BridgeAt ecam (n.address slot function) bus → n.2 < bus ∧ bus ≤ n.1.endBus
  unique : ∀ n n', InGroups groups n → InGroups groups n' → n.1 = n'.1 →
    ∀ slot < 32, ∀ function < 8, ∀ slot' < 32, ∀ function' < 8, ∀ bus,
      BridgeAt ecam (n.address slot function) bus → BridgeAt ecam (n'.address slot' function') bus →
        n = n' ∧ slot = slot' ∧ function = function'

section Once

variable {m ecam : Mem} {a : Acpi} {groups : List McfgSegmentGroup} {depth : Nat}

theorem BusTree.offset (h : BusTree ecam groups) {n : BusNode} (hn : InGroups groups n)
    {slot function : Nat} (hs : slot < 32) (hf : function < 8) :
    ∃ i < (n.1.endBus + 1 - n.1.startBus) * 2 ^ 20, i < 2 ^ 28 ∧
      i = (n.2 - n.1.startBus) * 2 ^ 20 + slot * 2 ^ 15 + function * 2 ^ 12 ∧
      n.address slot function = (n.1.baseAddress + i) % 2 ^ 64 := by
  obtain ⟨hg, h₁, h₂⟩ := hn
  have hb := h.bytes n.1 hg
  refine ⟨_, ?_, ?_, rfl, BusNode.address_eq h₁ (by omega) slot function⟩
  · omega
  · omega

theorem BusTree.address_inj (h : BusTree ecam groups) {n n' : BusNode} (hn : InGroups groups n)
    (hn' : InGroups groups n') {slot function slot' function' : Nat} (hs : slot < 32)
    (hf : function < 8) (hs' : slot' < 32) (hf' : function' < 8)
    (he : n.address slot function = n'.address slot' function') :
    n = n' ∧ slot = slot' ∧ function = function' := by
  obtain ⟨i, hi, hi28, hieq, ha⟩ := h.offset hn hs hf
  obtain ⟨i', hi', hi28', hieq', ha'⟩ := h.offset hn' hs' hf'
  have hgroup : n.1 = n'.1 := by
    by_contra hne
    have : Std.Symm fun g g' : McfgSegmentGroup => Disjoint g.window g'.window :=
      ⟨fun _ _ h => h.symm⟩
    have hdisj := h.windows.forall hn.1 hn'.1 hne
    exact Set.disjoint_left.mp hdisj ⟨i, hi, ha⟩ ⟨i', hi', he.trans ha'⟩
  have hii : i = i' := by
    rw [ha, ha', ← hgroup] at he
    omega
  have h₁ := hn.2.1
  have h₁' := hn'.2.1
  rw [← hgroup] at hieq' h₁'
  exact ⟨Prod.ext hgroup (by omega), by omega, by omega⟩

theorem nodup_flatMap_range {α : Type*} {k : Nat} {f : Nat → List α} (hf : ∀ i < k, (f i).Nodup)
    (hinj : ∀ i < k, ∀ j < k, ∀ x, x ∈ f i → x ∈ f j → i = j) :
    ((List.range' 0 k).flatMap f).Nodup := by
  refine List.nodup_flatMap.mpr ⟨fun i hi => hf i ?_, ?_⟩
  · have := (List.mem_range'_1.mp hi).2
    omega
  · refine List.Nodup.pairwise_of_forall_ne List.nodup_range' fun i hi j hj hne x hx hx' => hne ?_
    have hi := (List.mem_range'_1.mp hi).2
    have hj := (List.mem_range'_1.mp hj).2
    exact hinj i (by omega) j (by omega) x hx hx'

theorem BusTree.item_inj (h : BusTree ecam groups) {n : BusNode} (hn : InGroups groups n)
    {slot function slot' function' : Nat} (hs : slot < 32) (hf : function < 8) (hs' : slot' < 32)
    (hf' : function' < 8) {i : Item BusNode PciEvent}
    (hi : i ∈ functionItems ecam n slot function) (hi' : i ∈ functionItems ecam n slot' function') :
    slot = slot' ∧ function = function' := by
  cases i with
  | down c =>
    exact (h.unique n n hn hn rfl slot hs function hf slot' hs' function' hf' c.2
      (down_mem.mp hi).2 (down_mem.mp hi').2).2
  | emit e =>
    cases e with
    | map address =>
      exact (h.address_inj hn hn hs hf hs' hf' ((map_mem.mp hi).symm.trans (map_mem.mp hi'))).2
    | register hdr =>
      exact (h.address_inj hn hn hs hf hs' hf'
        ((register_mem.mp hi).2.symm.trans (register_mem.mp hi').2)).2

theorem functionItems_nodup (n : BusNode) (slot function : Nat) :
    (functionItems ecam n slot function).Nodup := by
  unfold functionItems
  by_cases hp : Answers ecam (n.address slot function)
  · by_cases hb : hdrType ecam (n.address slot function) = 0x1
    · simp [hp, hb]
    · simp [hp, hb]
  · simp [hp]

theorem BusTree.hdrItems_nodup (h : BusTree ecam groups) {n : BusNode} (hn : InGroups groups n) :
    (hdrItems ecam n).Nodup := by
  have hbus : (busItems ecam n).Nodup := by
    refine nodup_flatMap_range (fun slot hs => nodup_flatMap_range
      (fun function _ => functionItems_nodup n slot function) ?_) ?_
    · intro function hf function' hf' i hi hi'
      exact (h.item_inj hn hs hf hs hf' hi hi').2
    · intro slot hs slot' hs' i hi hi'
      obtain ⟨function, hf, hi⟩ := List.mem_flatMap.mp hi
      obtain ⟨function', hf', hi'⟩ := List.mem_flatMap.mp hi'
      have hf := (List.mem_range'_1.mp hf).2
      have hf' := (List.mem_range'_1.mp hf').2
      exact (h.item_inj hn hs (by omega) hs' (by omega) hi hi').1
  refine hbus.filterMap fun i i' j hj hj' => ?_
  cases i with
  | down c =>
    cases i' with
    | down c' =>
      cases hj
      cases hj'
      rfl
    | emit e =>
      cases hj
      cases e with
      | map address => cases hj'
      | register hdr => cases hj'
  | emit e =>
    cases i' with
    | down c =>
      cases hj'
      cases e with
      | map address => cases hj
      | register hdr => cases hj
    | emit e' =>
      cases e with
      | map address => cases hj
      | register hdr =>
        cases hj
        cases e' with
        | map address => cases hj'
        | register hdr' =>
          cases hj'
          rfl

/-- The graph of buses is a forest. -/
theorem BusTree.forest (h : BusTree ecam groups) : Forest (hdrItems ecam) (InGroups groups) where
  closed n c hn hc := by
    rw [edge_hdrItems] at hc
    obtain ⟨hg, slot, hs, function, hf, hb⟩ := hc
    obtain ⟨hlt, hle⟩ := h.upward n hn slot hs function hf c.2 hb
    have := hn.2.1
    exact ⟨hg ▸ hn.1, by rw [hg]; omega, by rw [hg]; exact hle⟩
  nodup n hn := h.hdrItems_nodup hn
  parent n n' c hn hn' hc hc' := by
    rw [edge_hdrItems] at hc hc'
    obtain ⟨hg, slot, hs, function, hf, hb⟩ := hc
    obtain ⟨hg', slot', hs', function', hf', hb'⟩ := hc'
    exact (h.unique n n' hn hn' (hg.symm.trans hg') slot hs function hf slot' hs' function' hf' c.2
      hb hb').1
  emits n n' hdr hn hn' he he' := by
    obtain ⟨slot, hs, function, hf, _, ha⟩ := emit_hdrItems.mp he
    obtain ⟨slot', hs', function', hf', _, ha'⟩ := emit_hdrItems.mp he'
    exact (h.address_inj hn hn' hs hf hs' hf' (ha.symm.trans ha')).1

theorem scanned_inGroups {n : BusNode} (hn : n ∈ scanned groups) : InGroups groups n := by
  obtain ⟨hg, h₁, h₂⟩ := mem_scanned.mp hn
  exact ⟨hg, h₁, by omega⟩

theorem BusTree.scanned_nodup (h : BusTree ecam groups) : (scanned groups).Nodup := by
  refine List.nodup_flatMap.mpr ⟨fun g _ => ?_, ?_⟩
  · exact List.Nodup.map (fun b b' he => (Prod.ext_iff.mp he).2) List.nodup_range'
  · refine h.windows.imp fun {g g'} hdisj n hn hn' => ?_
    obtain ⟨b, hb, rfl⟩ := List.mem_map.mp hn
    obtain ⟨b', _, he⟩ := List.mem_map.mp hn'
    have hg : g' = g := (Prod.ext_iff.mp he).1
    have hne := List.mem_range'_1.mp hb
    -- a group that is scanned at all has a window, which is not disjoint from itself
    have hmem : g.baseAddress % 2 ^ 64 ∈ g.window := ⟨0, by omega, rfl⟩
    rw [hg] at hdisj
    exact Set.disjoint_left.mp hdisj hmem hmem

/-- Bus numbers only grow on the way down, so the probe comes back. -/
theorem BusTree.returns (h : BusTree ecam groups) (hp : Parsed m a groups) :
    ∃ depth s', pcieProbe m ecam a depth {} = .ok s' := by
  refine (pcieProbe_returns hp {}).mpr fun n hn => ?_
  have key : ∀ k, ∀ n, InGroups groups n → n.1.endBus - n.2 ≤ k →
      Acc (fun c n => Bridge ecam n c) n := by
    intro k
    induction k with
    | zero =>
      intro n hn hk
      refine ⟨n, fun c ⟨_, slot, hs, function, hf, hb⟩ => ?_⟩
      have := h.upward n hn slot hs function hf c.2 hb
      omega
    | succ k ih =>
      intro n hn hk
      refine ⟨n, fun c hbr => ih c (h.forest.closed n c hn (edge_hdrItems ▸ hbr)) ?_⟩
      obtain ⟨hg, slot, hs, function, hf, hb⟩ := hbr
      have := h.upward n hn slot hs function hf c.2 hb
      rw [hg]
      omega
  exact key _ n (scanned_inGroups hn) (Nat.le_refl _)

/-- The scan comes to no bus with a function both by itself and through a bridge. -/
def MetOnce (ecam : Mem) (groups : List McfgSegmentGroup) : Prop :=
  ∀ g ∈ groups, ∀ bus, g.startBus ≤ bus → bus < g.endBus →
    (∃ bus', g.startBus ≤ bus' ∧ bus' ≤ g.endBus ∧ Bridge ecam (g, bus') (g, bus)) →
      ∀ slot < 32, ∀ function < 8, ¬ Answers ecam (BusNode.address (g, bus) slot function)

/-- A function on a scanned bus behind a bridge is registered from both sides. -/
theorem BusTree.metOnce_of_nodup (h : BusTree ecam groups) (hp : Parsed m a groups) {s' : Pci}
    (hs' : pcieProbe m ecam a depth {} = .ok s') (hnodup : s'.headers.Nodup) :
    MetOnce ecam groups := by
  intro g hg bus h₁ h₂ ⟨bus', hb₁, hb₂, hbr⟩ slot hs function hf hans
  have hw := pcieProbe_headers hp hs'
  have hup : bus' < bus := by
    obtain ⟨_, slot', hsl, function', hfu, hb⟩ := hbr
    exact (h.upward (g, bus') ⟨hg, hb₁, hb₂⟩ slot' hsl function' hfu bus hb).1
  have hroot : ∀ b, g.startBus ≤ b → b < g.endBus →
      Item.down (g, b) ∈ (scanned groups).map (.down : BusNode → Item BusNode Nat) := fun b hb hb' =>
    List.mem_map_of_mem (mem_scanned.mpr ⟨hg, hb, hb'⟩)
  have hvisit := walk_isSome.mp (Option.isSome_iff_exists.mpr ⟨_, hw⟩)
  obtain ⟨y, hy⟩ := Option.isSome_iff_exists.mp (hvisit _ (hroot bus h₁ h₂))
  obtain ⟨y', hy'⟩ := Option.isSome_iff_exists.mp (hvisit _ (hroot bus' hb₁ (by omega)))
  have hemit := emit_hdrItems.mpr ⟨slot, hs, function, hf, hans, rfl⟩
  have hmem := (mem_visit hy).mpr ⟨(g, bus), .refl, hemit⟩
  have hmem' := (mem_visit hy').mpr ⟨(g, bus), .single (edge_hdrItems ▸ hbr), hemit⟩
  refine disjoint_of_nodup hw hnodup (hroot bus h₁ h₂) (hroot bus' hb₁ (by omega)) ?_ hy hy' hmem hmem'
  intro he
  have := (Prod.ext_iff.mp he).2
  dsimp only at this
  omega

theorem hdrItems_nil {n : BusNode}
    (h : ∀ slot < 32, ∀ function < 8, ¬ Answers ecam (n.address slot function)) :
    hdrItems ecam n = [] := by
  refine List.eq_nil_iff_forall_not_mem.mpr fun i hi => ?_
  cases i with
  | down c =>
    have hbr : Bridge ecam n c := edge_hdrItems ▸ hi
    obtain ⟨_, slot, hs, function, hf, hans, _⟩ := hbr
    exact h slot hs function hf hans
  | emit hdr =>
    obtain ⟨slot, hs, function, hf, hans, _⟩ := emit_hdrItems.mp hi
    exact h slot hs function hf hans

/-- No header is registered twice exactly when no scanned bus behind a bridge has a function. -/
theorem pcieProbe_nodup_iff (h : BusTree ecam groups) (hp : Parsed m a groups) {s' : Pci}
    (hs' : pcieProbe m ecam a depth {} = .ok s') : s'.headers.Nodup ↔ MetOnce ecam groups := by
  refine ⟨h.metOnce_of_nodup hp hs', fun hmet => ?_⟩
  refine h.forest.nodup_roots (fun r hr => scanned_inGroups hr) h.scanned_nodup ?_
    (pcieProbe_headers hp hs')
  intro r hr r' hr' htrans
  obtain ⟨p, hp, hpr⟩ := TransGen.tail'_iff.mp htrans
  have hP := h.forest.reach (scanned_inGroups hr') hp
  rw [edge_hdrItems] at hpr
  have hgroup : r.1 = p.1 := hpr.1
  obtain ⟨hg, h₁, h₂⟩ := mem_scanned.mp hr
  refine hdrItems_nil (hmet r.1 hg r.2 h₁ h₂ ⟨p.2, ?_, ?_, ?_⟩)
  · rw [hgroup]
    exact hP.2.1
  · rw [hgroup]
    exact hP.2.2
  · rw [hgroup]
    exact ⟨rfl, hpr.2⟩

end Once

/-! ## Small machines -/

theorem busTree_of_one {ecam : Mem} {endBus : Nat} (he : endBus < 256)
    (hbr : ∀ n, InGroups [ecamGroup endBus] n → ∀ slot function bus,
      BridgeAt ecam (n.address slot function) bus →
        n.address slot function = 0xB0000000 ∧ 0 < bus ∧ bus ≤ endBus) :
    BusTree ecam [ecamGroup endBus] := by
  have hfirst : ∀ n, InGroups [ecamGroup endBus] n → ∀ slot < 32, ∀ function < 8, ∀ bus,
      BridgeAt ecam (n.address slot function) bus →
        n.2 = 0 ∧ slot = 0 ∧ function = 0 ∧ 0 < bus ∧ bus ≤ endBus := by
    intro n hn slot hs function hf bus hb
    obtain ⟨ha, h₁, h₂⟩ := hbr n hn slot function bus hb
    have hg := List.mem_singleton.mp hn.1
    have hle : n.2 ≤ endBus := by simpa only [hg, ecamGroup] using hn.2.2
    rw [ecamGroup_offset hg] at ha
    omega
  constructor
  · intro g hg
    rw [List.mem_singleton.mp hg]
    exact he
  · exact List.pairwise_singleton _ _
  · intro n hn slot hs function hf bus hb
    obtain ⟨h0, _, _, h₁, h₂⟩ := hfirst n hn slot hs function hf bus hb
    rw [List.mem_singleton.mp hn.1, h0]
    exact ⟨h₁, h₂⟩
  · intro n n' hn hn' hg slot hs function hf slot' hs' function' hf' bus hb hb'
    obtain ⟨h0, h₁, h₂, _⟩ := hfirst n hn slot hs function hf bus hb
    obtain ⟨h0', h₁', h₂', _⟩ := hfirst n' hn' slot' hs' function' hf' bus hb'
    exact ⟨Prod.ext hg (by omega), by omega, by omega⟩

theorem bridgedFunction_tree {endBus : Nat} (h₁ : 1 ≤ endBus) (h₂ : endBus < 256) :
    BusTree bridgedFunction [ecamGroup endBus] := by
  refine busTree_of_one h₂ fun n hn slot function bus hb => ?_
  have hal : n.address slot function % 0x1000 = 0 := by
    rw [ecamGroup_offset (List.mem_singleton.mp hn.1)]
    omega
  obtain ⟨ha, hbus⟩ := bridgedFunction_bridge hal hb
  exact ⟨ha, by omega, by omega⟩

/-- The function behind the bridge is registered by the scan of bus 1 and from the bridge. -/
theorem bridgedFunction_twice :
    BusTree bridgedFunction [ecamGroup 2] ∧
      ∃ depth s', pcieProbe (fun _ => 0) bridgedFunction (parsedAcpi [ecamGroup 2]) depth {} =
        .ok s' ∧ ¬ s'.headers.Nodup := by
  have htree : BusTree bridgedFunction [ecamGroup 2] := bridgedFunction_tree (by decide) (by decide)
  refine ⟨htree, ?_⟩
  obtain ⟨depth, s', h⟩ := htree.returns (parsedAcpi_parsed (fun _ => 0) _)
  refine ⟨depth, s', h, fun hnodup => ?_⟩
  have hmet := htree.metOnce_of_nodup (parsedAcpi_parsed _ _) h hnodup
  refine hmet (ecamGroup 2) (List.mem_singleton.mpr rfl) 1 (by decide) (by decide)
    ⟨0, by decide, by decide, bridgedFunction_edge 2⟩ 0 (by decide) 0 (by decide) ?_
  rw [ecamGroup_offset rfl]
  decide +kernel

/-- Where bus 1 is the last of its group, only the bridge leads to it. -/
theorem bridgedFunction_once :
    ∃ depth s', pcieProbe (fun _ => 0) bridgedFunction (parsedAcpi [ecamGroup 1]) depth {} =
      .ok s' ∧ s'.headers.Nodup := by
  have htree : BusTree bridgedFunction [ecamGroup 1] := bridgedFunction_tree (by decide) (by decide)
  obtain ⟨depth, s', h⟩ := htree.returns (parsedAcpi_parsed (fun _ => 0) _)
  refine ⟨depth, s', h, (pcieProbe_nodup_iff htree (parsedAcpi_parsed _ _) h).mpr ?_⟩
  rintro g hg bus _ hlt ⟨bus', _, _, hbr⟩
  obtain rfl := List.mem_singleton.mp hg
  have h1 := (bridgedFunction_to rfl hbr).1
  have hend : (ecamGroup 1).endBus = 1 := rfl
  dsimp only at h1
  omega

end BambooOS
