import BambooOS.Acpi.Model

/-!
# Acpi.Root

Which root table `acpi_init` reads. `acpi_parse_rsdp` sets one of two pointers by the revision
byte, `acpi_is_xsdt` decides which of them is read afterwards, and nothing ever sets it: only the
RSDT of a revision 0 RSDP is reached through a pointer that was set.

* `acpiParseRsdp_cases`: what an accepted RSDP leaves behind, one case per revision.
* `parseTables_rooted`: with a root table in place no later lookup reads through NULL.
* `rootValidated_iff`: exactly which accepted RSDPs are followed safely.
-/

namespace BambooOS

open ByteMem

/-- The globals of `acpi.c` before `acpi_init`. -/
def Acpi.boot (handlersAt handlerCopyAt : Nat) : Acpi :=
  { handlersAt := handlersAt, handlerCopyAt := handlerCopyAt }

/-- The pointer to the RSDP. -/
def rsdpTable (offset rsdpAddress : Nat) : Nat := (rsdpAddress + offset) % 2 ^ 64

def rsdpRevision (m : Mem) (table : Nat) : Nat := (m (table + 15)).toNat

/-- The pointer to the RSDT that the RSDP at `table` names. -/
def rsdtTable (m : Mem) (offset table : Nat) : Nat := (load m (table + 16) 4 + offset) % 2 ^ 64

/-- `acpi_parse_rsdt` accepts the table at `p`. -/
def RsdtAccepted (m : Mem) (p : Nat) : Prop :=
  acpiHeaderSignatureEquals m p sigRsdt = true ∧ acpiIsValidSdtChecksum m p = true

instance (m : Mem) (p : Nat) : Decidable (RsdtAccepted m p) := by
  unfold RsdtAccepted
  infer_instance

/-- The RSDP is accepted, the flag and the pointer agree with its revision, and `acpi_init` reads
through no NULL root pointer. -/
def RootValidated (m : Mem) (offset rsdpAddress : Nat) (s : Acpi) : Prop :=
  ∃ s', acpiParseRsdp m rsdpAddress { s with acpiHigherHalfOffset := offset } = .ok s' ∧
    (rsdpRevision m (rsdpTable offset rsdpAddress) = 2 →
      s'.acpiIsXsdt = true ∧ s'.rsdpV2 = rsdpTable offset rsdpAddress) ∧
    (rsdpRevision m (rsdpTable offset rsdpAddress) = 0 →
      s'.acpiIsXsdt = false ∧ s'.rsdpV1 = rsdpTable offset rsdpAddress) ∧
    NoNull (acpiInit m offset rsdpAddress s)

/-! ## The two stages of the parse -/

theorem acpiParseRsdp_cases {m : Mem} {a : Nat} {s s' : Acpi} (h : acpiParseRsdp m a s = .ok s') :
    (rsdpRevision m (rsdpTable s.acpiHigherHalfOffset a) = 0 ∧
      s' = { s with rsdpV1 := rsdpTable s.acpiHigherHalfOffset a }) ∨
    (rsdpRevision m (rsdpTable s.acpiHigherHalfOffset a) = 2 ∧
      s' = { s with rsdpV2 := rsdpTable s.acpiHigherHalfOffset a }) ∨
    (rsdpRevision m (rsdpTable s.acpiHigherHalfOffset a) ≠ 0 ∧
      rsdpRevision m (rsdpTable s.acpiHigherHalfOffset a) ≠ 2 ∧ s' = s) := by
  unfold acpiParseRsdp at h
  obtain ⟨_, _, h⟩ := bind_ok h
  obtain ⟨_, _, h⟩ := bind_ok h
  split at h
  · rename_i hrev
    cases h
    exact .inl ⟨hrev, rfl⟩
  · rename_i hrev
    split at h
    · rename_i hrev₂
      obtain ⟨_, _, h⟩ := bind_ok h
      cases h
      exact .inr (.inl ⟨hrev₂, rfl⟩)
    · rename_i hrev₂
      cases h
      exact .inr (.inr ⟨hrev, hrev₂, rfl⟩)

theorem acpiParseRsdt_eq {m : Mem} {s : Acpi} (hv : s.rsdpV1 ≠ 0) :
    acpiParseRsdt m s =
      (faultsAssert (acpiHeaderSignatureEquals m (rsdtTable m s.acpiHigherHalfOffset s.rsdpV1) sigRsdt)
        "Invalid RSDT header signature" >>= fun _ =>
      faultsAssert (acpiIsValidSdtChecksum m (rsdtTable m s.acpiHigherHalfOffset s.rsdpV1))
        "Invalid RSDT header checksum" >>= fun _ =>
      .ok { s with rsdt := rsdtTable m s.acpiHigherHalfOffset s.rsdpV1 }) := by
  unfold acpiParseRsdt
  rw [deref_ne_zero hv]
  rfl

theorem acpiParseRsdt_accepted {m : Mem} {s : Acpi} (hv : s.rsdpV1 ≠ 0)
    (h : RsdtAccepted m (rsdtTable m s.acpiHigherHalfOffset s.rsdpV1)) :
    ∃ s', acpiParseRsdt m s = .ok s' ∧ s'.acpiIsXsdt = s.acpiIsXsdt ∧
      s'.rsdt = rsdtTable m s.acpiHigherHalfOffset s.rsdpV1 := by
  rw [acpiParseRsdt_eq hv, faultsAssert_true h.1, ok_bind, faultsAssert_true h.2, ok_bind]
  exact ⟨_, rfl, rfl, rfl⟩

theorem acpiParseRsdt_refused {m : Mem} {s : Acpi} (hv : s.rsdpV1 ≠ 0)
    (h : ¬ RsdtAccepted m (rsdtTable m s.acpiHigherHalfOffset s.rsdpV1)) :
    ∃ msg, acpiParseRsdt m s = .error (.panic msg) := by
  rw [acpiParseRsdt_eq hv]
  by_cases hsig : acpiHeaderSignatureEquals m
      (rsdtTable m s.acpiHigherHalfOffset s.rsdpV1) sigRsdt = true
  · have hsum : ¬ acpiIsValidSdtChecksum m (rsdtTable m s.acpiHigherHalfOffset s.rsdpV1) = true :=
      fun hsum => h ⟨hsig, hsum⟩
    rw [faultsAssert_true hsig, ok_bind, faultsAssert_false hsum]
    exact ⟨_, rfl⟩
  · rw [faultsAssert_false hsig]
    exact ⟨_, rfl⟩

/-! ## Lookups under a root table -/

/-- The RSDT is in use and its pointer is set. -/
def Acpi.Rooted (s : Acpi) : Prop := s.acpiIsXsdt = false ∧ s.rsdt ≠ 0

/-- A step from a rooted state keeps the root and reads through no NULL pointer. -/
def Safe (s : Acpi) (r : Except Fault (Acpi × Bool)) : Prop :=
  NoNull r ∧ ∀ s' b, r = .ok (s', b) → s.Rooted → s'.Rooted

theorem acpiGetTable_rooted {m : Mem} {s : Acpi} (h : s.Rooted) (signature : Signature) :
    ∃ hdr, acpiGetTable m s signature = .ok hdr := by
  unfold acpiGetTable
  rw [h.1, deref_ne_zero h.2]
  exact ⟨_, rfl⟩

theorem madt_entries_noNull (m : Mem) (hdr fuel i : Nat) (s : Madt) :
    NoNull (Madt.entries m hdr fuel i s) := by
  induction fuel generalizing i s with
  | zero =>
    intro h
    unfold Madt.entries at h
    split at h <;> cases h
  | succ fuel ih =>
    unfold Madt.entries
    split
    · split
      · exact noNull_ok _
      · exact ih _ _
    · exact noNull_ok _

theorem acpiParseMadt_safe {m : Mem} {s : Acpi} (h : s.Rooted) : Safe s (acpiParseMadt m s) := by
  obtain ⟨hdr, hget⟩ := acpiGetTable_rooted (m := m) h sigApic
  unfold acpiParseMadt
  rw [hget, ok_bind]
  split
  · exact ⟨noNull_ok _, fun s' b he hr => by cases he; exact hr⟩
  · split
    · exact ⟨noNull_ok _, fun s' b he hr => by cases he; exact hr⟩
    · refine ⟨noNull_bind (madt_entries_noNull _ _ _ _ _) fun _ _ => noNull_ok _, ?_⟩
      intro s' b he hr
      obtain ⟨_, _, he⟩ := bind_ok he
      cases he
      exact hr

theorem acpiParseMcfg_safe {m : Mem} {s : Acpi} (h : s.Rooted) : Safe s (acpiParseMcfg m s) := by
  obtain ⟨hdr, hget⟩ := acpiGetTable_rooted (m := m) h sigMcfg
  unfold acpiParseMcfg
  rw [hget, ok_bind]
  split
  · exact ⟨noNull_ok _, fun s' b he hr => by cases he; exact hr⟩
  · split
    · exact ⟨noNull_ok _, fun s' b he hr => by cases he; exact hr⟩
    · exact ⟨noNull_ok _, fun s' b he hr => by cases he; exact hr⟩

theorem handlers_safe {m : Mem} {s : Acpi} (h : s.Rooted) :
    ∀ handler ∈ handlers, Safe s (handler.handler m s) := by
  intro handler hmem
  simp only [handlers, List.mem_cons, List.not_mem_nil, or_false] at hmem
  rcases hmem with rfl | rfl
  · exact acpiParseMadt_safe h
  · exact acpiParseMcfg_safe h

theorem dispatch_rooted {m : Mem} {parsed : Nat → ParsedTable} {header : Nat} :
    ∀ {left i : Nat} {s : Acpi}, s.Rooted →
      NoNull (dispatch m parsed header left i s) ∧
        ∀ s', dispatch m parsed header left i s = .ok s' → s'.Rooted := by
  intro left
  induction left with
  | zero =>
    intro i s h
    exact ⟨noNull_ok _, fun s' he => by cases he; exact h⟩
  | succ left ih =>
    intro i s h
    unfold dispatch
    split
    · rename_i handler hget
      split
      · obtain ⟨hnull, hkeep⟩ := handlers_safe (m := m) h handler (List.mem_of_getElem? hget)
        -- the entry the handler's success adds is no part of the root
        have hnext : ∀ r, handler.handler m s = .ok r → (if r.2 = true then
            { r.1 with acpiParsedTables := r.1.acpiParsedTables ++ [parsed i] } else r.1).Rooted := by
          intro r hr
          have := hkeep r.1 r.2 hr h
          split
          · exact this
          · exact this
        refine ⟨noNull_bind hnull fun r hr => (ih (hnext r hr)).1, fun s' he => ?_⟩
        obtain ⟨r, hr, he⟩ := bind_ok he
        exact (ih (hnext r hr)).2 s' he
      · exact ih h
    · split
      · refine ⟨?_, fun s' he => by cases he⟩
        intro he
        cases he
      · exact ih h

theorem parseTables_rooted {m : Mem} {sdts : Nat → Nat} {parsed : Nat → ParsedTable} :
    ∀ {left i : Nat} {s : Acpi}, s.Rooted → NoNull (parseTables m sdts parsed left i s) := by
  intro left
  induction left with
  | zero => exact fun _ => noNull_ok _
  | succ left ih =>
    intro i s h
    have hstep : NoNull (dispatch m parsed (sdts i) 32 0 s) ∧
        ∀ s', dispatch m parsed (sdts i) 32 0 s = .ok s' → s'.Rooted := dispatch_rooted h
    exact noNull_bind hstep.1 fun s' hs' => ih (hstep.2 s' hs')

/-! ## The run of `acpi_init` -/

section Init

variable {m : Mem} {offset a h₁ h₂ : Nat} {s : Acpi}

theorem acpiInit_eq {s' : Acpi}
    (h : acpiParseRsdp m a { s with acpiHigherHalfOffset := offset } = .ok s')
    (hx : s'.acpiIsXsdt = false) :
    acpiInit m offset a s =
      (acpiParseRsdt m { s' with acpiParsedTables := [] } >>= fun s =>
        if s.acpiIsXsdt then acpiParseXsdtTables m s else acpiParseRsdtTables m s) := by
  unfold acpiInit
  rw [h, ok_bind]
  dsimp only
  rw [hx]
  rfl

/-- The RSDT is read through `rsdp_v1` whatever the revision was. -/
theorem acpiInit_null {s' : Acpi}
    (h : acpiParseRsdp m a { s with acpiHigherHalfOffset := offset } = .ok s')
    (hx : s'.acpiIsXsdt = false) (hv : s'.rsdpV1 = 0) :
    acpiInit m offset a s = .error .nullDeref := by
  rw [acpiInit_eq h hx]
  unfold acpiParseRsdt
  dsimp only
  rw [hv]
  rfl

theorem acpiParseRsdtTables_noNull (hx : s.acpiIsXsdt = false) :
    NoNull (if s.acpiIsXsdt then acpiParseXsdtTables m s else acpiParseRsdtTables m s) ↔
      s.rsdt ≠ 0 := by
  unfold acpiParseRsdtTables
  rw [hx, if_neg Bool.false_ne_true, if_neg Bool.false_ne_true]
  by_cases hzero : s.rsdt = 0
  · rw [hzero, deref_zero, error_bind]
    exact ⟨fun h => absurd rfl h, fun h => absurd rfl h⟩
  · rw [deref_ne_zero hzero, ok_bind]
    exact ⟨fun _ => hzero, fun _ => parseTables_rooted ⟨hx, hzero⟩⟩

/-- An RSDP of revision 0 is followed safely unless its RSDT is accepted at NULL. -/
theorem acpiInit_noNull {s' : Acpi}
    (h : acpiParseRsdp m a { s with acpiHigherHalfOffset := offset } = .ok s')
    (hx : s'.acpiIsXsdt = false) (hv : s'.rsdpV1 ≠ 0)
    (ho : s'.acpiHigherHalfOffset = offset) :
    NoNull (acpiInit m offset a s) ↔
      ¬ (rsdtTable m offset s'.rsdpV1 = 0 ∧ RsdtAccepted m 0) := by
  subst ho
  rw [acpiInit_eq h hx]
  by_cases hacc : RsdtAccepted m (rsdtTable m s'.acpiHigherHalfOffset s'.rsdpV1)
  · obtain ⟨t, hparse, htx, htr⟩ :=
      acpiParseRsdt_accepted (s := { s' with acpiParsedTables := [] }) hv hacc
    rw [hparse, ok_bind, acpiParseRsdtTables_noNull (htx.trans hx), htr]
    constructor
    · rintro hne ⟨hzero, _⟩
      exact hne hzero
    · intro hn hzero
      have hzero : rsdtTable m s'.acpiHigherHalfOffset s'.rsdpV1 = 0 := hzero
      rw [hzero] at hacc
      exact hn ⟨hzero, hacc⟩
  · obtain ⟨msg, hparse⟩ :=
      acpiParseRsdt_refused (s := { s' with acpiParsedTables := [] }) hv hacc
    rw [hparse, error_bind]
    constructor
    · rintro _ ⟨hzero, h0⟩
      rw [hzero] at hacc
      exact hacc h0
    · intro _ he
      cases he

/-- An accepted RSDP is followed as its revision asks exactly when the revision is 0 and neither
the RSDP nor an acceptable RSDT sits at address 0. -/
theorem rootValidated_iff
    (haccept : ∃ s', acpiParseRsdp m a { Acpi.boot h₁ h₂ with acpiHigherHalfOffset := offset } = .ok s') :
    RootValidated m offset a (Acpi.boot h₁ h₂) ↔
      rsdpRevision m (rsdpTable offset a) = 0 ∧ rsdpTable offset a ≠ 0 ∧
        ¬ (rsdtTable m offset (rsdpTable offset a) = 0 ∧ RsdtAccepted m 0) := by
  obtain ⟨s', hs'⟩ := haccept
  rcases acpiParseRsdp_cases hs' with ⟨hrev, he⟩ | ⟨hrev, he⟩ | ⟨hrev, hrev₂, he⟩
  · -- revision 0: the pointer read next is the one that was set
    have hrsdp : s'.rsdpV1 = rsdpTable offset a := by rw [he]
    have hx : s'.acpiIsXsdt = false := by rw [he]; rfl
    have ho : s'.acpiHigherHalfOffset = offset := by rw [he]
    by_cases hv : rsdpTable offset a = 0
    · have hnull := acpiInit_null hs' hx (hrsdp.trans hv)
      constructor
      · rintro ⟨_, _, _, _, hn⟩
        exact absurd hnull hn
      · rintro ⟨_, hne, _⟩
        exact absurd hv hne
    · have hsafe := acpiInit_noNull hs' hx (hrsdp ▸ hv) ho
      rw [hrsdp] at hsafe
      constructor
      · rintro ⟨_, _, _, _, hn⟩
        exact ⟨hrev, hv, hsafe.mp hn⟩
      · rintro ⟨_, _, hok⟩
        refine ⟨s', hs', fun h2 => ?_, fun _ => ⟨hx, hrsdp⟩, hsafe.mpr hok⟩
        omega
  · -- revision 2: the flag stays clear
    have hx : s'.acpiIsXsdt = false := by rw [he]; rfl
    constructor
    · rintro ⟨s'', hs'', h2, _, _⟩
      rw [hs'] at hs''
      injection hs'' with hs''
      have := (h2 hrev).1
      rw [← hs'', hx] at this
      cases this
    · rintro ⟨h0, _, _⟩
      exact absurd (h0.symm.trans hrev) (by omega)
  · -- any other revision sets no pointer at all
    have hnull := acpiInit_null hs' (by rw [he]; rfl) (by rw [he]; rfl)
    constructor
    · rintro ⟨_, _, _, _, hn⟩
      exact absurd hnull hn
    · rintro ⟨h0, _, _⟩
      exact absurd h0 hrev

end Init

/-! ## An RSDP of either kind -/

def higherHalf : Nat := 0xFFFF800000000000

/-- A revision 0 RSDP with an RSDT at `0x100000`. -/
def rsdpV1Bytes : List Byte :=
  sigRsdPtr ++ [209] ++ List.replicate 6 0 ++ [0] ++ [0, 0, 0x10, 0]

/-- A revision 2 RSDP with an XSDT at `0x100000`. -/
def rsdpV2Bytes : List Byte :=
  sigRsdPtr ++ [223] ++ List.replicate 6 0 ++ [2] ++ [0, 0, 0, 0] ++ [36, 0, 0, 0] ++
    [0, 0, 0x10, 0, 0, 0, 0, 0] ++ [204] ++ [0, 0, 0]

/-- Both checksums of the revision 2 RSDP hold, and `acpi_init` reads the RSDT through NULL. -/
theorem rsdpV2_not_validated :
    (∃ s', acpiParseRsdp (ofList (higherHalf + 0xE0000) rsdpV2Bytes) 0xE0000
      { Acpi.boot 0 0 with acpiHigherHalfOffset := higherHalf } = .ok s') ∧
    acpiInit (ofList (higherHalf + 0xE0000) rsdpV2Bytes) higherHalf 0xE0000 (Acpi.boot 0 0) =
      .error .nullDeref ∧
    ¬ RootValidated (ofList (higherHalf + 0xE0000) rsdpV2Bytes) higherHalf 0xE0000
      (Acpi.boot 0 0) := by
  have hparse : acpiParseRsdp (ofList (higherHalf + 0xE0000) rsdpV2Bytes) 0xE0000
      { Acpi.boot 0 0 with acpiHigherHalfOffset := higherHalf } =
      .ok { Acpi.boot 0 0 with acpiHigherHalfOffset := higherHalf
                               rsdpV2 := higherHalf + 0xE0000 } := by decide +kernel
  have hnull := acpiInit_null hparse rfl rfl
  refine ⟨⟨_, hparse⟩, hnull, ?_⟩
  rintro ⟨_, _, _, _, hn⟩
  exact hn hnull

/-- An RSDT with one entry, and behind it a MADT with a local APIC. -/
def rsdtBytes : List Byte :=
  sigRsdt ++ [40, 0, 0, 0] ++ [1, 98] ++ List.replicate 26 0 ++ [0x28, 0, 0x10, 0] ++
    (sigApic ++ [52, 0, 0, 0] ++ [1, 197] ++ List.replicate 26 0 ++ [0, 0, 0xE0, 0xFE] ++
      [1, 0, 0, 0] ++ [0, 8, 1, 0, 1, 0, 0, 0])

def rsdpV1Mem : Mem := fun x =>
  if x < higherHalf + 0x100000 then ofList (higherHalf + 0xE0000) rsdpV1Bytes x
  else ofList (higherHalf + 0x100000) rsdtBytes x

/-- The RSDT is accepted, and `acpi_init` goes through the tables it lists. -/
theorem rootValidated_v1 :
    RsdtAccepted rsdpV1Mem (rsdtTable rsdpV1Mem higherHalf (rsdpTable higherHalf 0xE0000)) ∧
      RootValidated rsdpV1Mem higherHalf 0xE0000 (Acpi.boot 0 0) := by
  have hparse : acpiParseRsdp rsdpV1Mem 0xE0000
      { Acpi.boot 0 0 with acpiHigherHalfOffset := higherHalf } =
      .ok { Acpi.boot 0 0 with acpiHigherHalfOffset := higherHalf
                               rsdpV1 := higherHalf + 0xE0000 } := by decide +kernel
  have hptr : rsdtTable rsdpV1Mem higherHalf (rsdpTable higherHalf 0xE0000) ≠ 0 := by decide +kernel
  exact ⟨by decide +kernel, (rootValidated_iff ⟨_, hparse⟩).mpr
    ⟨by decide +kernel, by decide +kernel, fun h => hptr h.1⟩⟩

end BambooOS
