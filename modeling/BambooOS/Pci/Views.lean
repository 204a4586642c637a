import BambooOS.Pci.Once

/-!
# Pci.Views

The two typed pointers of a registered device. `pci_register_device` tests for type 0 twice, so for
every other type neither pointer is written, and the record keeps what its heap block held before.

* `pcieProbe_devices`: each device is what the registration makes of its header.
* `pcieProbe_views_iff`: the pointers are right for any earlier bytes exactly where only type 0
  functions are in reach.
-/

namespace BambooOS

open ByteMem Descent Relation

/-- `extended_header` and `bridge_0x1_header` of a record, in a block with these earlier bytes. -/
def PciDevice.views (d : PciDevice) (block : Mem) : Nat × Nat :=
  (d.extendedHeader.getD (load block 16 8), d.bridge0x1Header.getD (load block 24 8))

/-- The pointers that belong to the type of a header: the one for it, just behind the header. -/
def hdrViews (ecam : Mem) (hdr : Nat) : Nat × Nat :=
  if hdrType ecam hdr = 0x0 then (hdr + 16, 0)
  else if hdrType ecam hdr = 0x1 then (0, hdr + 16)
  else (0, 0)

/-- Every device has the pointers of its type, when its block held the bytes `stale i`. -/
def ViewsRight (ecam : Mem) (stale : Nat → Mem) (s : Pci) : Prop :=
  ∀ (i : Nat) (d : PciDevice), s.pciDevices[i]? = some d → d.views (stale i) = hdrViews ecam d.header

/-- Only functions of type 0 answer on the buses in reach of a scanned one. -/
def PlainOnly (ecam : Mem) (groups : List McfgSegmentGroup) : Prop :=
  ∀ r ∈ scanned groups, ∀ n, ReflTransGen (Bridge ecam) r n → ∀ slot < 32, ∀ function < 8,
    Answers ecam (n.address slot function) → hdrType ecam (n.address slot function) = 0x0

/-- The record `pci_register_device` fills in. -/
def registered (ecam : Mem) (hdr : Nat) : PciDevice :=
  if hdrType ecam hdr = 0x0 then ⟨hdr, some (hdr + 16), some 0⟩ else ⟨hdr, none, none⟩

section Views

variable {m ecam : Mem} {a : Acpi} {groups : List McfgSegmentGroup} {depth : Nat} {s' : Pci}

theorem pciRegisterDevice_devices (hdr : Nat) (s : Pci) :
    (pciRegisterDevice ecam hdr s).pciDevices = s.pciDevices ++ [registered ecam hdr] := by
  unfold pciRegisterDevice registered
  dsimp only
  by_cases h : hdrType ecam hdr = 0x0
  · rw [if_pos h, if_pos h]
  · rw [if_neg h, if_neg h, if_neg h]

@[simp] theorem registered_header (hdr : Nat) : (registered ecam hdr).header = hdr := by
  unfold registered
  split
  · rfl
  · rfl

theorem foldl_devices (l : List PciEvent) (s : Pci) :
    (l.foldl (Pci.apply ecam) s).pciDevices =
      s.pciDevices ++ (l.filterMap PciEvent.hdr).map (registered ecam) := by
  induction l generalizing s with
  | nil => simp
  | cons e l ih =>
    rw [List.foldl_cons, ih]
    cases e with
    | map address => rfl
    | register hdr =>
      rw [Pci.apply, pciRegisterDevice_devices]
      simp [PciEvent.hdr]

/-- The devices of a probe are the records of its headers. -/
theorem pcieProbe_devices (hp : Parsed m a groups) (h : pcieProbe m ecam a depth {} = .ok s') :
    s'.pciDevices = s'.headers.map (registered ecam) := by
  rw [pcieProbe_eq hp] at h
  cases hw : walk (visit (busItems ecam) depth) ((scanned groups).map .down) with
  | none => simp [hw] at h
  | some l =>
    simp only [hw, Except.ok.injEq] at h
    rw [← h, foldl_headers, foldl_devices]
    simp [Pci.headers]

/-- A record has the right pointers if its header has type 0, or by the luck of the heap. -/
theorem registered_views (hdr : Nat) (block : Mem) :
    (registered ecam hdr).views block = hdrViews ecam hdr ↔
      hdrType ecam hdr = 0x0 ∨ (load block 16 8, load block 24 8) = hdrViews ecam hdr := by
  by_cases h : hdrType ecam hdr = 0x0
  · simp [registered, PciDevice.views, hdrViews, h]
  · simp [registered, PciDevice.views, h]

theorem viewsRight_iff (hp : Parsed m a groups) (h : pcieProbe m ecam a depth {} = .ok s')
    (stale : Nat → Mem) : ViewsRight ecam stale s' ↔ ∀ i hdr, s'.headers[i]? = some hdr →
      hdrType ecam hdr = 0x0 ∨
        (load (stale i) 16 8, load (stale i) 24 8) = hdrViews ecam hdr := by
  unfold ViewsRight
  rw [pcieProbe_devices hp h]
  simp only [List.getElem?_map, Option.map_eq_some_iff]
  constructor
  · intro hv i hdr hi
    have hrec := hv i _ ⟨hdr, hi, rfl⟩
    rw [registered_header] at hrec
    exact (registered_views hdr (stale i)).mp hrec
  · rintro hv i d ⟨hdr, hi, rfl⟩
    rw [registered_header]
    exact (registered_views hdr (stale i)).mpr (hv i hdr hi)

/-- No header has the pointers that bytes of ones make. -/
theorem hdrViews_ne_ones {hdr : Nat} (h : hdrType ecam hdr ≠ 0x0) :
    (load (fun _ => 1) 16 8, load (fun _ => 1) 24 8) ≠ hdrViews ecam hdr := by
  have hone : load (fun _ => 1) 16 8 ≠ 0 := by decide +kernel
  unfold hdrViews
  rw [if_neg h]
  intro he
  split at he
  · exact hone (congrArg Prod.fst he)
  · exact hone (congrArg Prod.fst he)

/-- Every device has the pointers of its type exactly where it has type 0, or its block happened to
hold them; and so for any earlier bytes exactly where only type 0 functions are in reach. -/
theorem pcieProbe_views_iff (hp : Parsed m a groups) (h : pcieProbe m ecam a depth {} = .ok s') :
    (∀ stale, ViewsRight ecam stale s' ↔ ∀ i hdr, s'.headers[i]? = some hdr →
      hdrType ecam hdr = 0x0 ∨
        (load (stale i) 16 8, load (stale i) 24 8) = hdrViews ecam hdr) ∧
    ((∀ stale, ViewsRight ecam stale s') ↔ PlainOnly ecam groups) := by
  refine ⟨viewsRight_iff hp h, ?_, ?_⟩
  · intro hall r hr n hrn slot hs function hf hans
    have hmem := (mem_headers hp h).mpr ⟨r, hr, n, hrn, slot, hs, function, hf, hans, rfl⟩
    obtain ⟨i, hi⟩ := List.mem_iff_getElem?.mp hmem
    by_contra htype
    rcases (viewsRight_iff hp h _).mp (hall fun _ _ => 1) i _ hi with h0 | hones
    · exact htype h0
    · exact hdrViews_ne_ones htype hones
  · intro hplain stale
    rw [viewsRight_iff hp h]
    intro i hdr hi
    obtain ⟨r, hr, n, hrn, slot, hs, function, hf, hans, he⟩ :=
      (mem_headers hp h).mp (List.mem_of_getElem? hi)
    rw [he]
    exact .inl (hplain r hr n hrn slot hs function hf hans)

end Views

/-! ## Small machines -/

/-- A bridge, registered in blocks of a fresh heap: its record has no pointer to the bridge
header. -/
theorem bridge_views_lost :
    ∃ depth s', pcieProbe (fun _ => 0) bridgedFunction (parsedAcpi [ecamGroup 2]) depth {} =
      .ok s' ∧ ¬ ViewsRight bridgedFunction (fun _ _ => 0) s' := by
  have hp := parsedAcpi_parsed (fun _ => 0) [ecamGroup 2]
  have htree : BusTree bridgedFunction [ecamGroup 2] := bridgedFunction_tree (by decide) (by decide)
  obtain ⟨depth, s', h⟩ := htree.returns hp
  refine ⟨depth, s', h, fun hv => ?_⟩
  have haddr : BusNode.address (ecamGroup 2, 0) 0 0 = 0xB0000000 := ecamGroup_address 2
  have hmem : 0xB0000000 ∈ s'.headers := by
    refine (mem_headers hp h).mpr ⟨(ecamGroup 2, 0), mem_scanned.mpr
      ⟨List.mem_singleton.mpr rfl, by decide, by decide⟩, _, .refl, 0, by decide, 0, by decide, ?_⟩
    rw [haddr]
    exact ⟨by decide +kernel, rfl⟩
  obtain ⟨i, hi⟩ := List.mem_iff_getElem?.mp hmem
  have htype : hdrType bridgedFunction 0xB0000000 = 0x1 := by decide +kernel
  rcases (viewsRight_iff hp h _).mp hv i _ hi with h0 | hzero
  · omega
  · rw [hdrViews, htype, if_neg (by decide), if_pos rfl] at hzero
    have hnull : load (fun _ => 0) 24 8 = 0 := by decide +kernel
    rw [hnull] at hzero
    cases congrArg Prod.snd hzero

/-- A bridge and a function behind it. If the blocks held the pointers of the bridge, both records
are right, though not for any bytes. -/
theorem bridgedFunction_views :
    ∃ depth s', pcieProbe (fun _ => 0) bridgedFunction (parsedAcpi [ecamGroup 1]) depth {} =
      .ok s' ∧ ViewsRight bridgedFunction (fun _ => ofList 24 [0x10, 0, 0, 0xB0]) s' ∧
        ¬ ∀ stale, ViewsRight bridgedFunction stale s' := by
  have hp := parsedAcpi_parsed (fun _ => 0) [ecamGroup 1]
  have htree : BusTree bridgedFunction [ecamGroup 1] := bridgedFunction_tree (by decide) (by decide)
  obtain ⟨depth, s', h⟩ := htree.returns hp
  obtain ⟨hone, hall⟩ := pcieProbe_views_iff hp h
  refine ⟨depth, s', h, (hone _).mpr fun i hdr hi => ?_, fun hv => ?_⟩
  · obtain ⟨r, hr, n, hrn, slot, _, function, _, hans, rfl⟩ :=
      (mem_headers hp h).mp (List.mem_of_getElem? hi)
    have hgroup := (reach_group hrn).trans (List.mem_singleton.mp (mem_scanned.mp hr).1)
    have hal : n.address slot function % 0x1000 = 0 := by
      rw [ecamGroup_offset hgroup]
      omega
    rcases bridgedFunction_answers hal hans with he | he
    · rw [he]
      exact .inr (by decide +kernel)
    · rw [he]
      exact .inl (by decide +kernel)
  · have hfirst := hall.mp hv (ecamGroup 1, 0) (mem_scanned.mpr
      ⟨List.mem_singleton.mpr rfl, by decide, by decide⟩) _ .refl 0 (by decide) 0 (by decide)
    rw [ecamGroup_address] at hfirst
    exact absurd (hfirst (by decide +kernel)) (by decide +kernel)

end BambooOS
