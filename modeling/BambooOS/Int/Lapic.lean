import BambooOS.Acpi.Failure
import BambooOS.Acpi.Root
import BambooOS.Pci.Model

/-!
# Int.Lapic

The consumers of the parsed tables: `lapic_init`, which `int_init` calls after `acpi_init`, and
`pcie_probe`, which `pci_init` calls next. `pcie_probe` asks whether its table was parsed and
`lapic_init` does not.

* `dispatch_eq`: a table goes to the handler with its signature.
* `TablePass.step`: what the pass over the tables keeps.
* `bootTables_safe_iff`: when the boot sequence reads through no NULL pointer and maps only an
  address of a parsed MADT.
-/

namespace BambooOS

open ByteMem

/-- The globals of `lapic.c`, and the pages given to `vmm_map_page_flags`. -/
structure Lapic where
  lapics : Option (List (List Byte))
  lapicBaseAddr : Nat
  mapped : List Nat
  deriving DecidableEq, Repr

/-- `vector_size`, which reads through its argument. -/
def vectorSize {α : Type} : Option (List α) → Except Fault Nat
  | none => .error .nullDeref
  | some l => .ok l.length

/-- `lapic_init`. The loop over the local APICs does nothing with them. -/
def lapicInit (s : Acpi) : Except Fault Lapic := do
  let lapics := acpiGetLapics s
  let lapicBaseAddr := acpiGetLapicAddr s
  let _ ← vectorSize lapics
  return { lapics := lapics, lapicBaseAddr := lapicBaseAddr, mapped := [lapicBaseAddr] }

/-- `pci_init`: the vector of devices is new. -/
def pciInit (m ecam : Mem) (s : Acpi) (depth : Nat) : Except Fault Pci := pcieProbe m ecam s depth {}

/-- What `kernel_init` does with the tables: `acpi_init`, `int_init`, `pci_init`. -/
def bootTables (m ecam : Mem) (offset rsdpAddress depth : Nat) (s : Acpi) :
    Except Fault (Acpi × Lapic × Pci) := do
  let s ← acpiInit m offset rsdpAddress s
  let lapic ← lapicInit s
  let pci ← pciInit m ecam s depth
  return (s, lapic, pci)

/-! ## The root and the tables it lists -/

/-- The table the `i`th entry of the RSDT at `rsdt` points to. -/
def listedTable (m : Mem) (offset rsdt i : Nat) : Nat :=
  (load m (rsdt + 36 + 4 * i) 4 + offset) % 2 ^ 64

/-- The first listed table with the signature, NULL if there is none. -/
def listedWith (m : Mem) (offset rsdt : Nat) (signature : Signature) : Nat :=
  findTable m (listedTable m offset rsdt) signature (sdtEntries m rsdt 36 4) 0

/-- A revision 0 root that `acpi_init` accepts, none of whose pointers is NULL. -/
structure ValidRoot (m : Mem) (offset a h₁ h₂ : Nat) : Prop where
  accepted : ∃ s', acpiParseRsdp m a { Acpi.boot h₁ h₂ with acpiHigherHalfOffset := offset } = .ok s'
  revision : rsdpRevision m (rsdpTable offset a) = 0
  rsdp : rsdpTable offset a ≠ 0
  rsdt : rsdtTable m offset (rsdpTable offset a) ≠ 0
  valid : RsdtAccepted m (rsdtTable m offset (rsdpTable offset a))
  listed : ∀ i < sdtEntries m (rsdtTable m offset (rsdpTable offset a)) 36 4,
    listedTable m offset (rsdtTable m offset (rsdpTable offset a)) i ≠ 0

/-- No listed table matches the memory behind the two elements of `handlers`, which the loop over
`sizeof(handlers)` compares it with. -/
def OwnHandlers (m : Mem) (offset rsdt h₁ : Nat) : Prop :=
  ∀ i < sdtEntries m rsdt 36 4, ∀ j, 2 ≤ j → j < 32 →
    acpiHeaderSignatureEquals m (listedTable m offset rsdt i) (bytes m (h₁ + 16 * j) 4) = false

/-- The root in use, and where the handlers are. -/
structure Acpi.AtRoot (offset rsdt h₁ : Nat) (s : Acpi) : Prop where
  xsdt : s.acpiIsXsdt = false
  rsdt : s.rsdt = rsdt
  offset : s.acpiHigherHalfOffset = offset
  handlers : s.handlersAt = h₁

section Tables

variable {m : Mem} {offset rsdt h₁ : Nat} {s s' : Acpi}

theorem Acpi.AtRoot.entry (h : s.AtRoot offset rsdt h₁) :
    s.rsdtEntry m = listedTable m offset rsdt := by
  funext i
  unfold Acpi.rsdtEntry listedTable
  rw [h.rsdt, h.offset]

theorem acpiGetTable_eq (h : s.AtRoot offset rsdt h₁) (hr : rsdt ≠ 0) (signature : Signature) :
    acpiGetTable m s signature = .ok (listedWith m offset rsdt signature) := by
  unfold acpiGetTable listedWith
  rw [h.xsdt, h.entry, h.rsdt, deref_ne_zero hr]
  rfl

theorem findTable_found {sdts : Nat → Nat} {signature : Signature} {left i : Nat}
    (h : findTable m sdts signature left i ≠ 0) :
    ∃ k, i ≤ k ∧ k < i + left ∧ acpiHeaderSignatureEquals m (sdts k) signature = true := by
  induction left generalizing i with
  | zero => exact absurd rfl h
  | succ left ih =>
    unfold findTable at h
    split at h
    · rename_i hsig
      exact ⟨i, Nat.le_refl i, by omega, hsig⟩
    · obtain ⟨k, h₁, h₂, hsig⟩ := ih h
      exact ⟨k, by omega, by omega, hsig⟩

/-! ## One table -/

theorem acpiParseMadt_frame {b : Bool} (h : acpiParseMadt m s = .ok (s', b)) :
    s' = { s with madt := s'.madt } := by
  unfold acpiParseMadt at h
  obtain ⟨hdr, _, h⟩ := bind_ok h
  split at h
  · cases h
    rfl
  · split at h
    · cases h
      rfl
    · obtain ⟨r, _, h⟩ := bind_ok h
      cases h
      rfl

theorem acpiParseMcfg_frame {b : Bool} (h : acpiParseMcfg m s = .ok (s', b)) :
    s' = { s with mcfg := s'.mcfg } := by
  unfold acpiParseMcfg at h
  obtain ⟨mcfg, _, h⟩ := bind_ok h
  split at h
  · cases h
    rfl
  · split at h
    · cases h
      rfl
    · cases h
      rfl

/-- A handler that returned: its table is listed as parsed if it says so. -/
def recordParsed (i : Nat) (r : Acpi × Bool) : Acpi :=
  if r.2 then { r.1 with acpiParsedTables := r.1.acpiParsedTables ++ [.handler i] } else r.1

theorem dispatch_stray {header : Nat} {left i : Nat} (hi : 2 ≤ i)
    (h : ∀ j, i ≤ j → j < i + left →
      acpiHeaderSignatureEquals m header (bytes m (s.handlersAt + 16 * j) 4) = false) :
    dispatch m .handler header left i s = .ok s := by
  induction left generalizing i with
  | zero => rfl
  | succ left ih =>
    have hnone : handlers[i]? = none := List.getElem?_eq_none hi
    unfold dispatch
    rw [hnone]
    dsimp only
    rw [h i (Nat.le_refl i) (by omega), if_neg Bool.false_ne_true]
    exact ih (by omega) fun j h₁ h₂ => h j (by omega) (by omega)

theorem dispatch_handler {header left i : Nat} {handler : AcpiTableHandler}
    (h : handlers[i]? = some handler) : dispatch m .handler header (left + 1) i s =
      if acpiHeaderSignatureEquals m header handler.signature then
        handler.handler m s >>= fun r => dispatch m .handler header left (i + 1) (recordParsed i r)
      else dispatch m .handler header left (i + 1) s := by
  rw [dispatch, h]
  rfl

theorem not_apic_of_mcfg {header : Nat} (h : acpiHeaderSignatureEquals m header sigApic = true) :
    acpiHeaderSignatureEquals m header sigMcfg = false := by
  by_contra hm
  rw [Bool.not_eq_false] at hm
  unfold acpiHeaderSignatureEquals acpiSignaturesEqual at h hm
  rw [List.all_eq_true] at h hm
  have h₀ := h 0 (by decide)
  have h₁ := hm 0 (by decide)
  rw [beq_iff_eq] at h₀ h₁
  exact absurd (h₀.symm.trans h₁) (by decide)

/-- A listed table goes to the handler with its signature and to no other. -/
theorem dispatch_eq {header : Nat}
    (hown : ∀ j, 2 ≤ j → j < 32 →
      acpiHeaderSignatureEquals m header (bytes m (s.handlersAt + 16 * j) 4) = false) :
    dispatch m .handler header 32 0 s =
      if acpiHeaderSignatureEquals m header sigApic then
        acpiParseMadt m s >>= fun r => .ok (recordParsed 0 r)
      else if acpiHeaderSignatureEquals m header sigMcfg then
        acpiParseMcfg m s >>= fun r => .ok (recordParsed 1 r)
      else .ok s := by
  have hrest : ∀ t : Acpi, t.handlersAt = s.handlersAt → dispatch m .handler header 30 2 t = .ok t :=
    fun t ht => dispatch_stray (Nat.le_refl 2) fun j h₁ h₂ => by
      rw [ht]
      exact hown j h₁ (by omega)
  rw [dispatch_handler (show handlers[0]? = some ⟨sigApic, acpiParseMadt⟩ from rfl)]
  dsimp only
  cases hapic : acpiHeaderSignatureEquals m header sigApic with
  | true =>
    rw [if_pos rfl, if_pos rfl]
    cases hrun : acpiParseMadt m s with
    | error e => rfl
    | ok r =>
      rw [ok_bind, ok_bind, dispatch_handler (show handlers[1]? = some ⟨sigMcfg, acpiParseMcfg⟩ from rfl)]
      dsimp only
      rw [not_apic_of_mcfg hapic, if_neg Bool.false_ne_true]
      refine hrest _ ?_
      have hframe := acpiParseMadt_frame hrun
      unfold recordParsed
      split
      · rw [hframe]
      · rw [hframe]
  | false =>
    rw [if_neg Bool.false_ne_true, if_neg Bool.false_ne_true,
      dispatch_handler (show handlers[1]? = some ⟨sigMcfg, acpiParseMcfg⟩ from rfl)]
    dsimp only
    cases hmcfg : acpiHeaderSignatureEquals m header sigMcfg with
    | true =>
      rw [if_pos rfl, if_pos rfl]
      cases hrun : acpiParseMcfg m s with
      | error e => rfl
      | ok r =>
        rw [ok_bind, ok_bind]
        refine hrest _ ?_
        have hframe := acpiParseMcfg_frame hrun
        unfold recordParsed
        split
        · rw [hframe]
        · rw [hframe]
    | false =>
      rw [if_neg Bool.false_ne_true, if_neg Bool.false_ne_true]
      exact hrest s rfl

/-- The loop of `acpi_parse_madt` over the entries of the table at `hdr`. -/
def madtLoop (m : Mem) (hdr : Nat) : Except Fault (Madt × Bool) :=
  Madt.entries m hdr (sdtLength m hdr) 44 (Madt.start hdr (load m (hdr + 36) 4))

/-- The parser comes to the entries of the table at `hdr`. -/
def MadtAccepted (m : Mem) (hdr : Nat) : Prop := hdr ≠ 0 ∧ acpiIsValidSdtChecksum m hdr = true

theorem acpiParseMadt_eq (h : s.AtRoot offset rsdt h₁) (hr : rsdt ≠ 0) :
    (MadtAccepted m (listedWith m offset rsdt sigApic) →
      acpiParseMadt m s = madtLoop m (listedWith m offset rsdt sigApic) >>= fun r =>
        .ok ({ s with madt := r.1 }, r.2)) ∧
    (¬ MadtAccepted m (listedWith m offset rsdt sigApic) → acpiParseMadt m s =
      .ok ({ s with madt := { s.madt with hdr := listedWith m offset rsdt sigApic } }, false)) := by
  unfold acpiParseMadt MadtAccepted
  rw [acpiGetTable_eq h hr, ok_bind]
  generalize listedWith m offset rsdt sigApic = hdr
  constructor
  · rintro ⟨hne, hsum⟩
    rw [if_neg hne, hsum]
    rfl
  · intro hn
    by_cases hz : hdr = 0
    · rw [if_pos hz]
      rfl
    · rw [if_neg hz, if_pos]
      · rfl
      · simpa using fun hsum => hn ⟨hz, hsum⟩

theorem acpiParseMcfg_returns (h : s.AtRoot offset rsdt h₁) (hr : rsdt ≠ 0) :
    ∃ s' b, acpiParseMcfg m s = .ok (s', b) := by
  unfold acpiParseMcfg
  rw [acpiGetTable_eq h hr, ok_bind]
  split
  · exact ⟨_, _, rfl⟩
  · split
    · exact ⟨_, _, rfl⟩
    · exact ⟨_, _, rfl⟩

/-- The groups are there after a success, and a failure leaves them alone. -/
theorem acpiParseMcfg_groups {b : Bool} (h : acpiParseMcfg m s = .ok (s', b)) :
    s'.mcfg.mcfgSegmentGroups ≠ none ∨
      b = false ∧ s'.mcfg.mcfgSegmentGroups = s.mcfg.mcfgSegmentGroups := by
  unfold acpiParseMcfg at h
  obtain ⟨mcfg, _, h⟩ := bind_ok h
  split at h
  · cases h
    exact .inr ⟨rfl, rfl⟩
  · split at h
    · cases h
      exact .inr ⟨rfl, rfl⟩
    · cases h
      exact .inl (by simp)

theorem entries_lapics {hdr fuel i : Nat} {t t' : Madt} {b : Bool}
    (h : Madt.entries m hdr fuel i t = .ok (t', b)) (ht : t.lapics ≠ none) : t'.lapics ≠ none := by
  induction fuel generalizing i t with
  | zero =>
    unfold Madt.entries at h
    split at h
    · cases h
    · cases h
      exact ht
  | succ fuel ih =>
    have hentry : (Madt.entry m (hdr + i) t).1.lapics ≠ none := by
      unfold Madt.entry
      split <;> simpa [vectorAdd] using ht
    unfold Madt.entries at h
    split at h
    · generalize Madt.entry m (hdr + i) t = r at hentry h
      obtain ⟨t₁, b₁⟩ := r
      cases b₁ with
      | false =>
        cases h
        exact hentry
      | true => exact ih h hentry
    · cases h
      exact ht

theorem madtLoop_lapics {hdr : Nat} {t : Madt} {b : Bool} (h : madtLoop m hdr = .ok (t, b)) :
    t.lapics ≠ none := by
  unfold madtLoop at h
  exact entries_lapics h (by simp [Madt.start])

/-! ## All tables -/

theorem recordParsed_own {i : Nat} {r : Acpi × Bool} {p : ParsedTable}
    (h : p ∈ (recordParsed i r).acpiParsedTables) :
    p ∈ r.1.acpiParsedTables ∨ p = .handler i ∧ r.2 = true := by
  unfold recordParsed at h
  split at h
  · rename_i hb
    rcases List.mem_append.mp h with h | h
    · exact .inl h
    · exact .inr ⟨List.mem_singleton.mp h, hb⟩
  · exact .inl h

theorem recordParsed_madt (i : Nat) (r : Acpi × Bool) : (recordParsed i r).madt = r.1.madt := by
  unfold recordParsed
  split <;> rfl

theorem recordParsed_mcfg (i : Nat) (r : Acpi × Bool) : (recordParsed i r).mcfg = r.1.mcfg := by
  unfold recordParsed
  split <;> rfl

theorem recordParsed_root {i : Nat} {r : Acpi × Bool} (h : r.1.AtRoot offset rsdt h₁) :
    (recordParsed i r).AtRoot offset rsdt h₁ := by
  unfold recordParsed
  split
  · exact ⟨h.xsdt, h.rsdt, h.offset, h.handlers⟩
  · exact h

/-- The getters of `madt.c` hold no vectors, or what the loop over the entries of the table at `hdr`
left, which counts as parsed if that loop came to its end. -/
def MadtState (m : Mem) (hdr : Nat) (s : Acpi) : Prop :=
  (s.madt.lapics = none ∧ .handler 0 ∉ s.acpiParsedTables) ∨
    MadtAccepted m hdr ∧ ∃ b, madtLoop m hdr = .ok (s.madt, b) ∧
      (.handler 0 ∈ s.acpiParsedTables ↔ b = true)

theorem MadtState.accepted {hdr : Nat} (h : MadtState m hdr s) (ha : MadtAccepted m hdr) {t : Madt}
    {b : Bool} (hloop : madtLoop m hdr = .ok (t, b)) :
    MadtState m hdr (recordParsed 0 ({ s with madt := t }, b)) := by
  cases b with
  | true => exact .inr ⟨ha, true, hloop, by simp [recordParsed]⟩
  | false =>
    refine .inr ⟨ha, false, hloop, ?_⟩
    -- an earlier pass over the same entries ended the same way
    rcases h with ⟨_, hp⟩ | ⟨_, b', hloop', hp⟩
    · simpa [recordParsed] using hp
    · rw [hloop] at hloop'
      cases hloop'
      exact hp

/-- The pass over the MADT, for what `acpi_parse_madt` does with the table it gets. -/
theorem MadtState.step {hdr : Nat} (h : MadtState m hdr s)
    (hacc : MadtAccepted m hdr →
      acpiParseMadt m s = madtLoop m hdr >>= fun r => .ok ({ s with madt := r.1 }, r.2))
    (href : ¬ MadtAccepted m hdr →
      acpiParseMadt m s = .ok ({ s with madt := { s.madt with hdr := hdr } }, false))
    {r : Acpi × Bool} (hrun : acpiParseMadt m s = .ok r) :
    MadtState m hdr (recordParsed 0 r) ∧
      (s.madt.lapics ≠ none ∨ MadtAccepted m hdr → (recordParsed 0 r).madt.lapics ≠ none) := by
  by_cases ha : MadtAccepted m hdr
  · rw [hacc ha] at hrun
    obtain ⟨⟨t, b⟩, hloop, hret⟩ := bind_ok hrun
    cases hret
    refine ⟨h.accepted ha hloop, fun _ => ?_⟩
    rw [recordParsed_madt]
    exact madtLoop_lapics hloop
  · rw [href ha] at hrun
    cases hrun
    exact ⟨h.imp id fun hm => absurd hm.1 ha, fun hm => hm.resolve_right ha⟩

/-- What every pass over a listed table keeps. -/
structure TablePass (m : Mem) (offset rsdt h₁ : Nat) (s : Acpi) : Prop where
  root : s.AtRoot offset rsdt h₁
  own : ∀ p ∈ s.acpiParsedTables, p = .handler 0 ∨ p = .handler 1
  mcfg : .handler 1 ∈ s.acpiParsedTables → s.mcfg.mcfgSegmentGroups ≠ none
  madt : MadtState m (listedWith m offset rsdt sigApic) s

theorem TablePass.madtStep (h : TablePass m offset rsdt h₁ s) (hr : rsdt ≠ 0) {r : Acpi × Bool}
    (hrun : acpiParseMadt m s = .ok r) : TablePass m offset rsdt h₁ (recordParsed 0 r) ∧
      (s.madt.lapics ≠ none ∨ MadtAccepted m (listedWith m offset rsdt sigApic) →
        (recordParsed 0 r).madt.lapics ≠ none) := by
  obtain ⟨hacc, href⟩ := acpiParseMadt_eq (m := m) h.root hr
  have hframe : r.1 = { s with madt := r.1.madt } := acpiParseMadt_frame hrun
  have hroot : r.1.AtRoot offset rsdt h₁ := by
    rw [hframe]
    exact ⟨h.root.xsdt, h.root.rsdt, h.root.offset, h.root.handlers⟩
  have hparsed : r.1.acpiParsedTables = s.acpiParsedTables := by rw [hframe]
  have hmcfg : (recordParsed 0 r).mcfg = s.mcfg := by
    rw [recordParsed_mcfg, hframe]
  have key := h.madt.step hacc href hrun
  refine ⟨⟨recordParsed_root hroot, fun p hp => ?_, fun hp => ?_, key.1⟩, key.2⟩
  · rcases recordParsed_own hp with hp | hp
    · exact h.own p (hparsed ▸ hp)
    · exact .inl hp.1
  · rw [hmcfg]
    rcases recordParsed_own hp with hp | hp
    · exact h.mcfg (hparsed ▸ hp)
    · cases hp.1

theorem TablePass.mcfgStep (h : TablePass m offset rsdt h₁ s) {r : Acpi × Bool}
    (hrun : acpiParseMcfg m s = .ok r) : TablePass m offset rsdt h₁ (recordParsed 1 r) ∧
      (recordParsed 1 r).madt = s.madt := by
  have hframe : r.1 = { s with mcfg := r.1.mcfg } := acpiParseMcfg_frame hrun
  have hroot : r.1.AtRoot offset rsdt h₁ := by
    rw [hframe]
    exact ⟨h.root.xsdt, h.root.rsdt, h.root.offset, h.root.handlers⟩
  have hparsed : r.1.acpiParsedTables = s.acpiParsedTables := by rw [hframe]
  have hmadt : (recordParsed 1 r).madt = s.madt := by
    rw [recordParsed_madt, hframe]
  refine ⟨⟨recordParsed_root hroot, fun p hp => ?_, fun hp => ?_, ?_⟩, hmadt⟩
  · rcases recordParsed_own hp with hp | hp
    · exact h.own p (hparsed ▸ hp)
    · exact .inr hp.1
  · rw [recordParsed_mcfg]
    rcases acpiParseMcfg_groups hrun with hne | ⟨hb, hsame⟩
    · exact hne
    · rw [hsame]
      rcases recordParsed_own hp with hp | hp
      · exact h.mcfg (hparsed ▸ hp)
      · rw [hb] at hp
        cases hp.2
  · -- the list grows by the MCFG's entry only
    have hmem : .handler 0 ∈ (recordParsed 1 r).acpiParsedTables ↔
        .handler 0 ∈ s.acpiParsedTables := by
      rw [← hparsed]
      unfold recordParsed
      split <;> simp
    have hold := h.madt
    unfold MadtState at hold ⊢
    rw [hmadt, hmem]
    exact hold

/-- The pass over one listed table: what it keeps, and that a MADT that is accepted leaves its
vectors. -/
theorem TablePass.step (h : TablePass m offset rsdt h₁ s) (hr : rsdt ≠ 0) {header : Nat}
    (hown : ∀ j, 2 ≤ j → j < 32 →
      acpiHeaderSignatureEquals m header (bytes m (h₁ + 16 * j) 4) = false)
    (hrun : dispatch m .handler header 32 0 s = .ok s') : TablePass m offset rsdt h₁ s' ∧
      (s.madt.lapics ≠ none ∨ acpiHeaderSignatureEquals m header sigApic = true ∧
        MadtAccepted m (listedWith m offset rsdt sigApic) → s'.madt.lapics ≠ none) := by
  rw [dispatch_eq (by rw [h.root.handlers]; exact hown)] at hrun
  split at hrun
  · obtain ⟨r, hparse, hret⟩ := bind_ok hrun
    cases hret
    obtain ⟨hp, hl⟩ := h.madtStep hr hparse
    exact ⟨hp, fun hm => hl (hm.imp id And.right)⟩
  · rename_i hapic
    split at hrun
    · obtain ⟨r, hparse, hret⟩ := bind_ok hrun
      cases hret
      obtain ⟨hp, hm⟩ := h.mcfgStep hparse
      rw [hm]
      exact ⟨hp, fun hl => hl.resolve_right fun ha => hapic ha.1⟩
    · cases hrun
      exact ⟨h, fun hl => hl.resolve_right fun ha => hapic ha.1⟩

theorem TablePass.run (hr : rsdt ≠ 0) (hown : OwnHandlers m offset rsdt h₁) :
    ∀ {left i : Nat} {s : Acpi}, i + left ≤ sdtEntries m rsdt 36 4 → TablePass m offset rsdt h₁ s →
      parseTables m (listedTable m offset rsdt) .handler left i s = .ok s' →
        TablePass m offset rsdt h₁ s' ∧ (s.madt.lapics ≠ none ∨ (∃ k, i ≤ k ∧ k < i + left ∧
          acpiHeaderSignatureEquals m (listedTable m offset rsdt k) sigApic = true) ∧
            MadtAccepted m (listedWith m offset rsdt sigApic) → s'.madt.lapics ≠ none) := by
  intro left
  induction left with
  | zero =>
    intro i s _ h hrun
    cases hrun
    refine ⟨h, fun hl => hl.resolve_right ?_⟩
    rintro ⟨⟨k, hk₁, hk₂, _⟩, _⟩
    omega
  | succ left ih =>
    intro i s hle h hrun
    obtain ⟨s₁, hd, hrun⟩ := bind_ok hrun
    obtain ⟨h₁', hl₁⟩ := h.step hr (hown i (by omega)) hd
    obtain ⟨h', hl'⟩ := ih (by omega) h₁' hrun
    refine ⟨h', fun hl => ?_⟩
    rcases hl with hl | ⟨⟨k, hk₁, hk₂, hsig⟩, ha⟩
    · exact hl' (.inl (hl₁ (.inl hl)))
    · rcases Nat.eq_or_lt_of_le hk₁ with rfl | hlt
      · exact hl' (.inl (hl₁ (.inr ⟨hsig, ha⟩)))
      · exact hl' (.inr ⟨⟨k, hlt, by omega, hsig⟩, ha⟩)

/-- A MADT that is not looked into, or that has an entry of unknown type, does not stop the pass. -/
theorem TablePass.returns (hr : rsdt ≠ 0) (hown : OwnHandlers m offset rsdt h₁)
    (hbad : MadtAccepted m (listedWith m offset rsdt sigApic) →
      MeetsUnknown m (listedWith m offset rsdt sigApic) 44) :
    ∀ {left i : Nat} {s : Acpi}, i + left ≤ sdtEntries m rsdt 36 4 → TablePass m offset rsdt h₁ s →
      ∃ s', parseTables m (listedTable m offset rsdt) .handler left i s = .ok s' := by
  intro left
  induction left with
  | zero => exact fun _ _ => ⟨_, rfl⟩
  | succ left ih =>
    intro i s hle h
    have hd : ∃ s', dispatch m .handler (listedTable m offset rsdt i) 32 0 s = .ok s' := by
      rw [dispatch_eq (by rw [h.root.handlers]; exact hown i (by omega))]
      split
      · obtain ⟨hacc, href⟩ := acpiParseMadt_eq (m := m) h.root hr
        by_cases ha : MadtAccepted m (listedWith m offset rsdt sigApic)
        · obtain ⟨t, hloop⟩ := (entries_unknown_iff (Madt.start (listedWith m offset rsdt sigApic)
            (load m (listedWith m offset rsdt sigApic + 36) 4))).mpr (hbad ha)
          rw [hacc ha, madtLoop, hloop]
          exact ⟨_, rfl⟩
        · rw [href ha]
          exact ⟨_, rfl⟩
      · split
        · obtain ⟨s₁, b, hparse⟩ := acpiParseMcfg_returns (m := m) h.root hr
          rw [hparse]
          exact ⟨_, rfl⟩
        · exact ⟨s, rfl⟩
    obtain ⟨s₁, hd⟩ := hd
    have hi : i < sdtEntries m rsdt 36 4 := by omega
    have hle : (i + 1) + left ≤ sdtEntries m rsdt 36 4 := by omega
    obtain ⟨s', hrun⟩ := ih hle (h.step hr (hown i hi) hd).1
    exact ⟨s', by rw [parseTables, hd, ok_bind, hrun]⟩

theorem TablePass.apic_parsed (h : TablePass m offset rsdt h₁ s) :
    acpiHasParsed m s sigApic = true ↔ .handler 0 ∈ s.acpiParsedTables := by
  unfold acpiHasParsed
  rw [List.any_eq_true]
  constructor
  · rintro ⟨p, hp, hsig⟩
    rcases h.own p hp with rfl | rfl
    · exact hp
    · have hsig : acpiSignaturesEqual sigApic sigMcfg = true := hsig
      exact absurd hsig (by decide)
  · have hsig : acpiSignaturesEqual sigApic sigApic = true := by decide
    exact fun hp => ⟨_, hp, hsig⟩

theorem TablePass.mcfg_parsed (h : TablePass m offset rsdt h₁ s)
    (hs : acpiHasParsed m s sigMcfg = true) : .handler 1 ∈ s.acpiParsedTables := by
  unfold acpiHasParsed at hs
  rw [List.any_eq_true] at hs
  obtain ⟨p, hp, hsig⟩ := hs
  rcases h.own p hp with rfl | rfl
  · have hsig : acpiSignaturesEqual sigMcfg sigApic = true := hsig
    exact absurd hsig (by decide)
  · exact hp

/-! ## The consumers -/

theorem TablePass.pcieProbe_noNull (h : TablePass m offset rsdt h₁ s) (ecam : Mem) (depth : Nat)
    (p : Pci) : NoNull (pcieProbe m ecam s depth p) := by
  unfold pcieProbe
  split
  · rename_i hparsed
    split
    · exact noNull_ok _
    · cases hgroups : acpiMcfgGetSegmentGroups s with
      | none => exact absurd hgroups (h.mcfg (h.mcfg_parsed hparsed))
      | some groups =>
        dsimp only
        cases pcieProbeGroups ecam depth groups p with
        | none =>
          intro he
          cases he
        | some p' => exact noNull_ok _
  · exact noNull_ok _

theorem lapicInit_some (h : acpiGetLapics s ≠ none) : lapicInit s =
    .ok { lapics := acpiGetLapics s, lapicBaseAddr := acpiGetLapicAddr s
          mapped := [acpiGetLapicAddr s] } := by
  unfold lapicInit
  cases hl : acpiGetLapics s with
  | none => exact absurd hl h
  | some l => rfl

theorem lapicInit_none (h : acpiGetLapics s = none) : lapicInit s = .error .nullDeref := by
  unfold lapicInit
  rw [h]
  rfl

end Tables

section Boot

variable {m : Mem} {offset a h₁ h₂ : Nat}

/-- From a valid root `acpi_init` is the pass over the tables it lists. -/
theorem ValidRoot.init (h : ValidRoot m offset a h₁ h₂) :
    ∃ s₀, TablePass m offset (rsdtTable m offset (rsdpTable offset a)) h₁ s₀ ∧
      acpiInit m offset a (Acpi.boot h₁ h₂) =
        parseTables m (listedTable m offset (rsdtTable m offset (rsdpTable offset a))) .handler
          (sdtEntries m (rsdtTable m offset (rsdpTable offset a)) 36 4) 0 s₀ := by
  obtain ⟨s', hs'⟩ := h.accepted
  obtain ⟨_, he⟩ | ⟨hrev, _⟩ | ⟨hrev, _, _⟩ := acpiParseRsdp_cases hs'
  · have hptr : s'.rsdpV1 = rsdpTable offset a := by rw [he]
    have hoff : s'.acpiHigherHalfOffset = offset := by rw [he]
    have hflag : s'.acpiIsXsdt = false := by rw [he]; rfl
    have hat : s'.handlersAt = h₁ := by rw [he]; rfl
    have hmadt : s'.madt = {} := by rw [he]; rfl
    refine ⟨{ s' with acpiParsedTables := []
                      rsdt := rsdtTable m offset (rsdpTable offset a) }, ⟨⟨hflag, rfl, hoff, hat⟩,
      ?_, ?_, .inl ⟨?_, List.not_mem_nil⟩⟩, ?_⟩
    · intro p hp
      cases hp
    · intro hp
      cases hp
    · change s'.madt.lapics = none
      rw [hmadt]
    · rw [acpiInit_eq hs' hflag, acpiParseRsdt_eq (by dsimp only; rw [hptr]; exact h.rsdp)]
      dsimp only
      rw [hptr, hoff, faultsAssert_true h.valid.1, ok_bind, faultsAssert_true h.valid.2, ok_bind, ok_bind]
      dsimp only
      rw [hflag, if_neg Bool.false_ne_true]
      unfold acpiParseRsdtTables Acpi.rsdtEntry
      dsimp only
      rw [if_neg Bool.false_ne_true, deref_ne_zero h.rsdt, ok_bind]
      rfl
  · exact absurd (h.revision.symm.trans hrev) (by omega)
  · exact absurd h.revision hrev

/-- The boot sequence reads through no NULL pointer, and `lapic_init` maps only what a successful
`acpi_parse_madt` reports. -/
def TablesSafe (m ecam : Mem) (offset a depth : Nat) (s : Acpi) : Prop :=
  NoNull (bootTables m ecam offset a depth s) ∧
    ∀ s' l, acpiInit m offset a s = .ok s' → lapicInit s' = .ok l → ∀ x ∈ l.mapped,
      acpiHasParsed m s' sigApic = true ∧
        ∃ t, acpiParseMadt m s' = .ok (t, true) ∧ x = acpiGetLapicAddr t

/-- The root lists a MADT, with its checksum and with no entry of unknown type. -/
def MadtUsable (m : Mem) (offset rsdt : Nat) : Prop :=
  MadtAccepted m (listedWith m offset rsdt sigApic) ∧
    ¬ MeetsUnknown m (listedWith m offset rsdt sigApic) 44

/-- The vectors are there after the pass when the listed MADT was looked into, and only then. -/
theorem TablePass.lapics_iff {rsdt : Nat} {s₀ s : Acpi} (hr : rsdt ≠ 0)
    (hown : OwnHandlers m offset rsdt h₁) (h₀ : TablePass m offset rsdt h₁ s₀)
    (hrun : parseTables m (listedTable m offset rsdt) .handler (sdtEntries m rsdt 36 4) 0 s₀ = .ok s) :
    TablePass m offset rsdt h₁ s ∧
      (s.madt.lapics ≠ none ↔ MadtAccepted m (listedWith m offset rsdt sigApic)) := by
  obtain ⟨h, hread⟩ := TablePass.run hr hown (by omega) h₀ hrun
  refine ⟨h, fun hne => ?_, fun ha => hread (.inr ⟨?_, ha⟩)⟩
  · rcases h.madt with ⟨hnone, _⟩ | ⟨ha, _⟩
    · exact absurd hnone hne
    · exact ha
  · obtain ⟨k, h₁, h₂, hsig⟩ := findTable_found ha.1
    exact ⟨k, h₁, h₂, hsig⟩

/-- After the pass the MADT counts as parsed exactly when its loop came to the end. -/
theorem MadtState.parsed_iff {hdr : Nat} {s : Acpi} (h : MadtState m hdr s)
    (hne : s.madt.lapics ≠ none) :
    (.handler 0 ∈ s.acpiParsedTables ↔ ¬ MeetsUnknown m hdr 44) ∧
      (.handler 0 ∈ s.acpiParsedTables → madtLoop m hdr = .ok (s.madt, true)) := by
  obtain ⟨hnone, _⟩ | ⟨_, b, hloop, hb⟩ := h
  · exact absurd hnone hne
  · have hu : _ ↔ MeetsUnknown m hdr 44 :=
      entries_unknown_iff (Madt.start hdr (load m (hdr + 36) 4))
    rw [← hu, hb]
    unfold madtLoop at hloop ⊢
    rw [hloop]
    cases b with
    | true => simp
    | false => simp

theorem bootTables_safe_of_init {rsdt : Nat} {s₀ : Acpi} (hr : rsdt ≠ 0)
    (hown : OwnHandlers m offset rsdt h₁) (h₀ : TablePass m offset rsdt h₁ s₀)
    (hinit : acpiInit m offset a (Acpi.boot h₁ h₂) =
      parseTables m (listedTable m offset rsdt) .handler (sdtEntries m rsdt 36 4) 0 s₀)
    (ecam : Mem) (depth : Nat) :
    TablesSafe m ecam offset a depth (Acpi.boot h₁ h₂) ↔ MadtUsable m offset rsdt := by
  constructor
  · rintro ⟨hnull, hmap⟩
    by_contra hbad
    have hunknown : MadtAccepted m (listedWith m offset rsdt sigApic) →
        MeetsUnknown m (listedWith m offset rsdt sigApic) 44 := fun ha => by
      by_contra hu
      exact hbad ⟨ha, hu⟩
    obtain ⟨s, hrun⟩ := TablePass.returns hr hown hunknown (Nat.zero_add _).le h₀
    obtain ⟨h, hlapics⟩ := h₀.lapics_iff hr hown hrun
    rw [← hinit] at hrun
    by_cases ha : MadtAccepted m (listedWith m offset rsdt sigApic)
    · -- the parse failed at an entry, but its address is mapped
      have hne := hlapics.mpr ha
      have hl := lapicInit_some hne
      have hparsed := (hmap s _ hrun hl _ (List.mem_singleton.mpr rfl)).1
      exact ((h.madt.parsed_iff hne).1.mp (h.apic_parsed.mp hparsed)) (hunknown ha)
    · -- no vectors were made
      have hnone : acpiGetLapics s = none := by
        by_contra hne
        exact ha (hlapics.mp hne)
      refine hnull ?_
      unfold bootTables
      rw [hrun, ok_bind, lapicInit_none hnone]
      rfl
  · rintro ⟨ha, hu⟩
    constructor
    · unfold bootTables
      rw [hinit]
      refine noNull_bind (parseTables_rooted ⟨h₀.root.xsdt, h₀.root.rsdt ▸ hr⟩) fun s hrun => ?_
      obtain ⟨h, hlapics⟩ := h₀.lapics_iff hr hown hrun
      rw [lapicInit_some (hlapics.mpr ha), ok_bind]
      exact noNull_bind (h.pcieProbe_noNull ecam depth {}) fun _ _ => noNull_ok _
    · intro s l hrun hl x hx
      rw [hinit] at hrun
      obtain ⟨h, hlapics⟩ := h₀.lapics_iff hr hown hrun
      have hne := hlapics.mpr ha
      obtain ⟨hparsed, hloop⟩ := h.madt.parsed_iff hne
      have hmem := hparsed.mpr hu
      rw [lapicInit_some hne] at hl
      cases hl
      refine ⟨h.apic_parsed.mpr hmem, s, ?_, List.mem_singleton.mp hx⟩
      rw [(acpiParseMadt_eq h.root hr).1 ha, hloop hmem]
      rfl

/-- The consumers survive exactly the roots that list a MADT which is parsed to its end. -/
theorem bootTables_safe_iff (hv : ValidRoot m offset a h₁ h₂)
    (hown : OwnHandlers m offset (rsdtTable m offset (rsdpTable offset a)) h₁) (ecam : Mem)
    (depth : Nat) : TablesSafe m ecam offset a depth (Acpi.boot h₁ h₂) ↔
      MadtUsable m offset (rsdtTable m offset (rsdpTable offset a)) := by
  obtain ⟨s₀, h₀, hinit⟩ := hv.init
  exact bootTables_safe_of_init hv.rsdt hown h₀ hinit ecam depth

end Boot

/-! ## Three roots -/

/-- A revision 0 RSDP at `0x1000` and behind it its RSDT with the tables it lists. -/
def rootMem (length check : Byte) (rest : List Byte) : Mem :=
  ofList (higherHalf + 0x1000) (sigRsdPtr ++ [189] ++ List.replicate 6 0 ++ [0] ++ [0x14, 0x10, 0, 0] ++
    (sigRsdt ++ [length, 0, 0, 0] ++ [0, check] ++ List.replicate 26 0) ++ rest)

/-- No table is listed. -/
def emptyRoot : Mem := rootMem 36 159 []

/-- The one listed table is a MADT whose one entry has type 127. -/
def unknownRoot : Mem :=
  rootMem 40 79 ([0x3C, 0x10, 0, 0] ++
    (sigApic ++ [46, 0, 0, 0] ++ [0, 86] ++ List.replicate 26 0 ++ [0, 0, 0xE0, 0xFE] ++ [0, 0, 0, 0] ++
      [127, 2]))

/-- The one listed table is a MADT with a local APIC. -/
def lapicRoot : Mem :=
  rootMem 40 79 ([0x3C, 0x10, 0, 0] ++
    (sigApic ++ [52, 0, 0, 0] ++ [0, 198] ++ List.replicate 26 0 ++ [0, 0, 0xE0, 0xFE] ++ [0, 0, 0, 0] ++
      [0, 8, 1, 2, 0, 0, 0, 0]))

theorem validRoot_of {m : Mem} {p r n : Nat} (hrsdp : rsdpTable higherHalf 0x1000 = p)
    (haccept : acpiParseRsdp m 0x1000 { Acpi.boot 0 0 with acpiHigherHalfOffset := higherHalf } =
      .ok { Acpi.boot 0 0 with acpiHigherHalfOffset := higherHalf, rsdpV1 := p })
    (hrev : rsdpRevision m p = 0) (hp : p ≠ 0) (hrsdt : rsdtTable m higherHalf p = r) (hr : r ≠ 0)
    (hvalid : RsdtAccepted m r) (hn : sdtEntries m r 36 4 = n)
    (hlisted : ∀ i < n, listedTable m higherHalf r i ≠ 0 ∧ ∀ j < 32, 2 ≤ j →
      acpiHeaderSignatureEquals m (listedTable m higherHalf r i) (bytes m (0 + 16 * j) 4) = false) :
    ValidRoot m higherHalf 0x1000 0 0 ∧
      OwnHandlers m higherHalf (rsdtTable m higherHalf (rsdpTable higherHalf 0x1000)) 0 := by
  subst hrsdp hrsdt hn
  exact ⟨⟨⟨_, haccept⟩, hrev, hp, hr, hvalid, fun i hi => (hlisted i hi).1⟩,
    fun i hi j h₁ h₂ => (hlisted i hi).2 j h₂ h₁⟩

theorem emptyRoot_valid : ValidRoot emptyRoot higherHalf 0x1000 0 0 ∧ OwnHandlers emptyRoot higherHalf
    (rsdtTable emptyRoot higherHalf (rsdpTable higherHalf 0x1000)) 0 :=
  validRoot_of (p := higherHalf + 0x1000) (r := higherHalf + 0x1014) (n := 0) (by decide +kernel)
    (by decide +kernel) (by decide +kernel) (by decide +kernel) (by decide +kernel) (by decide +kernel)
    (by decide +kernel) (by decide +kernel) (by decide +kernel)

theorem unknownRoot_valid : ValidRoot unknownRoot higherHalf 0x1000 0 0 ∧
    OwnHandlers unknownRoot higherHalf
      (rsdtTable unknownRoot higherHalf (rsdpTable higherHalf 0x1000)) 0 :=
  validRoot_of (p := higherHalf + 0x1000) (r := higherHalf + 0x1014) (n := 1) (by decide +kernel)
    (by decide +kernel) (by decide +kernel) (by decide +kernel) (by decide +kernel) (by decide +kernel)
    (by decide +kernel) (by decide +kernel) (by decide +kernel)

theorem lapicRoot_valid : ValidRoot lapicRoot higherHalf 0x1000 0 0 ∧ OwnHandlers lapicRoot higherHalf
    (rsdtTable lapicRoot higherHalf (rsdpTable higherHalf 0x1000)) 0 :=
  validRoot_of (p := higherHalf + 0x1000) (r := higherHalf + 0x1014) (n := 1) (by decide +kernel)
    (by decide +kernel) (by decide +kernel) (by decide +kernel) (by decide +kernel) (by decide +kernel)
    (by decide +kernel) (by decide +kernel) (by decide +kernel)

/-- Without a MADT `lapic_init` reads the size of a NULL vector, and with a MADT that was not parsed
it maps the address that stands there. -/
theorem roots_unsafe :
    ((ValidRoot emptyRoot higherHalf 0x1000 0 0 ∧ OwnHandlers emptyRoot higherHalf
        (rsdtTable emptyRoot higherHalf (rsdpTable higherHalf 0x1000)) 0) ∧
      bootTables emptyRoot (fun _ => 0) higherHalf 0x1000 0 (Acpi.boot 0 0) = .error .nullDeref ∧
      ¬ TablesSafe emptyRoot (fun _ => 0) higherHalf 0x1000 0 (Acpi.boot 0 0)) ∧
    (ValidRoot unknownRoot higherHalf 0x1000 0 0 ∧ OwnHandlers unknownRoot higherHalf
        (rsdtTable unknownRoot higherHalf (rsdpTable higherHalf 0x1000)) 0) ∧
      (∃ s l, acpiInit unknownRoot higherHalf 0x1000 (Acpi.boot 0 0) = .ok s ∧ lapicInit s = .ok l ∧
        l.mapped = [0xFEE00000] ∧ acpiHasParsed unknownRoot s sigApic = false) ∧
      ¬ TablesSafe unknownRoot (fun _ => 0) higherHalf 0x1000 0 (Acpi.boot 0 0) := by
  have hnull : bootTables emptyRoot (fun _ => 0) higherHalf 0x1000 0 (Acpi.boot 0 0) =
      .error .nullDeref := by decide +kernel
  have hmap : ∃ s l, acpiInit unknownRoot higherHalf 0x1000 (Acpi.boot 0 0) = .ok s ∧
      lapicInit s = .ok l ∧ l.mapped = [0xFEE00000] ∧
        acpiHasParsed unknownRoot s sigApic = false := by
    have hrun : returns (do
        let s ← acpiInit unknownRoot higherHalf 0x1000 (Acpi.boot 0 0)
        let l ← lapicInit s
        return (s, l)) (fun r => r.2.mapped = [0xFEE00000] ∧
          acpiHasParsed unknownRoot r.1 sigApic = false) = true := by decide +kernel
    obtain ⟨r, hrun, htest⟩ := returns_iff.mp hrun
    obtain ⟨s, hs, hrun⟩ := bind_ok hrun
    obtain ⟨l, hl, hret⟩ := bind_ok hrun
    cases hret
    simp only [decide_eq_true_eq] at htest
    exact ⟨s, l, hs, hl, htest.1, htest.2⟩
  refine ⟨⟨emptyRoot_valid, hnull, fun h => h.1 hnull⟩, unknownRoot_valid, hmap, fun h => ?_⟩
  obtain ⟨s, l, hs, hl, hm, hparsed⟩ := hmap
  have hyes := (h.2 s l hs hl 0xFEE00000 (hm ▸ List.mem_singleton.mpr rfl)).1
  rw [hparsed] at hyes
  cases hyes

theorem lapicRoot_safe :
    TablesSafe lapicRoot (fun _ => 0) higherHalf 0x1000 0 (Acpi.boot 0 0) := by
  have hroot : rsdtTable lapicRoot higherHalf (rsdpTable higherHalf 0x1000) = higherHalf + 0x1014 := by
    decide +kernel
  have hmadt : listedWith lapicRoot higherHalf (higherHalf + 0x1014) sigApic =
      higherHalf + 0x103C := by decide +kernel
  refine (bootTables_safe_iff lapicRoot_valid.1 lapicRoot_valid.2 _ 0).mpr ?_
  unfold MadtUsable
  rw [hroot, hmadt]
  refine ⟨⟨by decide +kernel, by decide +kernel⟩, fun hu => ?_⟩
  obtain ⟨t, hloop⟩ := (entries_unknown_iff {}).mpr hu
  have hend : returns (Madt.entries lapicRoot (higherHalf + 0x103C)
      (sdtLength lapicRoot (higherHalf + 0x103C)) 44 {}) (fun r => r.2 = true) = true := by
    decide +kernel
  rw [hloop] at hend
  cases hend

end BambooOS
