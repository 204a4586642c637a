import BambooOS.Acpi.Model

/-!
# Acpi.Failure

What a failed parse leaves behind. `acpi_parse_madt` makes its vectors before it reads the entries,
and `acpi_parse_mcfg` looks its table up straight into the pointer that `acpi_get_mcfg` returns.

* `entries_unknown_iff`: the loop over the entries fails exactly where it comes to an unknown type.
* `acpiParse_traceless_iff`: when a failure leaves the getters as they were.
-/

namespace BambooOS

open ByteMem

/-! ## The loop over the entries -/

/-- The `switch` has a case for the entry at `p`. -/
def KnownEntry (m : Mem) (p : Nat) : Prop := (m p).toNat ∈ [0, 1, 2, 3, 4, 5, 9, 10]

instance (m : Mem) (p : Nat) : Decidable (KnownEntry m p) := by
  unfold KnownEntry
  infer_instance

/-- The loop over the entries of the table at `hdr` gets from the offset `i` to `j`. -/
inductive MadtWalk (m : Mem) (hdr : Nat) : Nat → Nat → Prop where
  | refl {i : Nat} : MadtWalk m hdr i i
  | next {i j : Nat} : i < sdtLength m hdr → KnownEntry m (hdr + i) →
      MadtWalk m hdr (i + (m (hdr + i + 1)).toNat) j → MadtWalk m hdr i j

/-- The entries from the offset `i` on lead to one of unknown type. -/
def MeetsUnknown (m : Mem) (hdr i : Nat) : Prop :=
  ∃ j, MadtWalk m hdr i j ∧ j < sdtLength m hdr ∧ ¬ KnownEntry m (hdr + j)

section Entries

variable {m : Mem} {hdr : Nat}

theorem entry_known {p : Nat} (s : Madt) : (Madt.entry m p s).2 = true ↔ KnownEntry m p := by
  unfold Madt.entry KnownEntry
  split <;> simp_all

/-- An entry of length zero is met again for ever. -/
theorem MadtWalk.stuck {i j : Nat} (h : MadtWalk m hdr i j) (hz : (m (hdr + i + 1)).toNat = 0) :
    j = i := by
  induction h with
  | refl => rfl
  | next _ _ _ ih =>
    rw [hz, Nat.add_zero] at ih
    exact ih hz

theorem entries_of_unknown {i j : Nat} (h : MadtWalk m hdr i j) (hj : j < sdtLength m hdr)
    (hu : ¬ KnownEntry m (hdr + j)) : ∀ {fuel : Nat} (s : Madt), sdtLength m hdr ≤ i + fuel →
      ∃ s', Madt.entries m hdr fuel i s = .ok (s', false) := by
  induction h with
  | @refl i =>
    intro fuel s hfuel
    cases fuel with
    | zero => omega
    | succ fuel =>
      have hentry : (Madt.entry m (hdr + i) s).2 = false := by
        simpa using mt (entry_known s).mp hu
      unfold Madt.entries
      rw [if_pos hj]
      generalize Madt.entry m (hdr + i) s = r at hentry
      obtain ⟨s', b⟩ := r
      cases hentry
      exact ⟨s', rfl⟩
  | @next i j hi hk hw ih =>
    intro fuel s hfuel
    have hmove : (m (hdr + i + 1)).toNat ≠ 0 := by
      intro hz
      rw [hz, Nat.add_zero] at hw
      rw [hw.stuck hz] at hu
      exact hu hk
    cases fuel with
    | zero => omega
    | succ fuel =>
      have hentry := (entry_known s).mpr hk
      unfold Madt.entries
      rw [if_pos hi]
      generalize Madt.entry m (hdr + i) s = r at hentry
      obtain ⟨s', b⟩ := r
      cases hentry
      exact ih hj hu s' (by omega)

theorem unknown_of_entries {fuel i : Nat} {s s' : Madt}
    (h : Madt.entries m hdr fuel i s = .ok (s', false)) : MeetsUnknown m hdr i := by
  induction fuel generalizing i s with
  | zero =>
    unfold Madt.entries at h
    split at h <;> cases h
  | succ fuel ih =>
    unfold Madt.entries at h
    split at h
    · rename_i hi
      have hentry := entry_known (m := m) (p := hdr + i) s
      generalize Madt.entry m (hdr + i) s = r at hentry h
      obtain ⟨s₁, b⟩ := r
      cases b with
      | false => exact ⟨i, .refl, hi, fun hk => by simpa using hentry.mpr hk⟩
      | true =>
        obtain ⟨j, hw, hj, hu⟩ := ih h
        exact ⟨j, .next hi (hentry.mp rfl) hw, hj, hu⟩
    · cases h

/-- The loop fails exactly where it comes to an entry of unknown type. -/
theorem entries_unknown_iff {i : Nat} (s : Madt) :
    (∃ s', Madt.entries m hdr (sdtLength m hdr) i s = .ok (s', false)) ↔ MeetsUnknown m hdr i := by
  constructor
  · intro ⟨_, h⟩
    exact unknown_of_entries h
  · intro ⟨j, hw, hj, hu⟩
    exact entries_of_unknown hw hj hu s (by omega)

end Entries

/-! ## The vectors behind the getters -/

/-- The `vector_t*` globals that the getters of `madt.c` and `mcfg.c` return. Neither file frees a
vector, so each `vector_init` gives a new pointer: the number of the call stands for it, and `none`
for NULL. -/
structure VectorPtrs where
  made : Nat := 0
  lapics : Option Nat := none
  ioapics : Option Nat := none
  mcfgSegmentGroups : Option Nat := none
  earlier : ∀ v, lapics = some v ∨ ioapics = some v ∨ mcfgSegmentGroups = some v → v < made := by simp

namespace VectorPtrs

/-- The five `vector_init` of `acpi_parse_madt`; no getter returns the last three. -/
def initMadt (v : VectorPtrs) : VectorPtrs where
  made := v.made + 5
  lapics := some v.made
  ioapics := some (v.made + 1)
  mcfgSegmentGroups := v.mcfgSegmentGroups
  earlier := by
    rintro w (hw | hw | hw)
    · cases hw
      omega
    · cases hw
      omega
    · have := v.earlier w (.inr (.inr hw))
      omega

def initMcfg (v : VectorPtrs) : VectorPtrs where
  made := v.made + 1
  lapics := v.lapics
  ioapics := v.ioapics
  mcfgSegmentGroups := some v.made
  earlier := by
    rintro w (hw | hw | hw)
    · have := v.earlier w (.inl hw)
      omega
    · have := v.earlier w (.inr (.inl hw))
      omega
    · cases hw
      omega

theorem initMadt_lapics (v : VectorPtrs) : v.initMadt.lapics ≠ v.lapics := by
  intro h
  have := v.earlier v.made (.inl h.symm)
  omega

end VectorPtrs

/-- `acpi_parse_madt` with the pointers to its vectors. -/
def acpiParseMadtPtrs (m : Mem) (s : Acpi) (v : VectorPtrs) :
    Except Fault ((Acpi × VectorPtrs) × Bool) := do
  let hdr ← acpiGetTable m s sigApic
  if hdr = 0 then return (({ s with madt := { s.madt with hdr := hdr } }, v), false)
  else if !acpiIsValidSdtChecksum m hdr then
    return (({ s with madt := { s.madt with hdr := hdr } }, v), false)
  else do
    let (madt, parsed) ←
      Madt.entries m hdr (sdtLength m hdr) 44 (Madt.start hdr (load m (hdr + 36) 4))
    return (({ s with madt := madt }, v.initMadt), parsed)

/-- `acpi_parse_mcfg` with the pointer to its vector. -/
def acpiParseMcfgPtrs (m : Mem) (s : Acpi) (v : VectorPtrs) :
    Except Fault ((Acpi × VectorPtrs) × Bool) := do
  let mcfg ← acpiGetTable m s sigMcfg
  if mcfg = 0 then return (({ s with mcfg := { s.mcfg with mcfg := mcfg } }, v), false)
  else if !acpiIsValidSdtChecksum m mcfg then
    return (({ s with mcfg := { s.mcfg with mcfg := mcfg } }, v), false)
  else do
    let groups := segmentGroups m mcfg (sdtEntries m mcfg 44 16) 0
    return (({ s with mcfg := { mcfg := mcfg, mcfgSegmentGroups := some groups } }, v.initMcfg), true)

/-- Without the pointers it is the parser of the model. -/
theorem acpiParseMadtPtrs_parse (m : Mem) (s : Acpi) (v : VectorPtrs) :
    (acpiParseMadtPtrs m s v >>= fun r => .ok (r.1.1, r.2)) = acpiParseMadt m s := by
  unfold acpiParseMadtPtrs acpiParseMadt
  cases acpiGetTable m s sigApic with
  | error e => rfl
  | ok hdr =>
    simp only [ok_bind]
    split
    · rfl
    · split
      · rfl
      · cases Madt.entries m hdr (sdtLength m hdr) 44 (Madt.start hdr (load m (hdr + 36) 4)) <;> rfl

theorem acpiParseMcfgPtrs_parse (m : Mem) (s : Acpi) (v : VectorPtrs) :
    (acpiParseMcfgPtrs m s v >>= fun r => .ok (r.1.1, r.2)) = acpiParseMcfg m s := by
  unfold acpiParseMcfgPtrs acpiParseMcfg
  cases acpiGetTable m s sigMcfg with
  | error e => rfl
  | ok mcfg =>
    simp only [ok_bind]
    split
    · rfl
    · split
      · rfl
      · rfl

/-! ## Failures that leave no trace -/

/-- What `acpi_get_lapics`, `acpi_get_ioapics` and `acpi_get_lapic_addr` return: pointers with the
lists behind them, and the address. -/
def madtGetters (s : Acpi) (v : VectorPtrs) :
    (Option Nat × Option (List (List Byte))) × (Option Nat × Option (List (List Byte))) × Nat :=
  ((v.lapics, acpiGetLapics s), (v.ioapics, acpiGetIoapics s), acpiGetLapicAddr s)

/-- What `acpi_get_mcfg` and `acpi_mcfg_get_segment_groups` return. -/
def mcfgGetters (s : Acpi) (v : VectorPtrs) :
    Nat × (Option Nat × Option (List McfgSegmentGroup)) :=
  (acpiGetMcfg s, (v.mcfgSegmentGroups, acpiMcfgGetSegmentGroups s))

/-- A parser that returns false leaves its getters as they were. -/
def Traceless (m : Mem) (s : Acpi) (v : VectorPtrs) : Prop :=
  (∀ s' v', acpiParseMadtPtrs m s v = .ok ((s', v'), false) → madtGetters s' v' = madtGetters s v) ∧
    ∀ s' v', acpiParseMcfgPtrs m s v = .ok ((s', v'), false) → mcfgGetters s' v' = mcfgGetters s v

/-- A MADT that is looked at at all has no entry of unknown type. -/
def MadtWhole (m : Mem) (s : Acpi) : Prop :=
  ∀ hdr, acpiGetTable m s sigApic = .ok hdr → hdr ≠ 0 → acpiIsValidSdtChecksum m hdr = true →
    ¬ MeetsUnknown m hdr 44

/-- The MCFG has its checksum, or it is the table the getter already returns, NULL for none. -/
def McfgWhole (m : Mem) (s : Acpi) : Prop :=
  ∀ mcfg, acpiGetTable m s sigMcfg = .ok mcfg →
    mcfg ≠ 0 ∧ acpiIsValidSdtChecksum m mcfg = true ∨ mcfg = acpiGetMcfg s

section Failure

variable {m : Mem} {s : Acpi} {v : VectorPtrs}

theorem acpiParseMadt_traceless_iff :
    (∀ s' v', acpiParseMadtPtrs m s v = .ok ((s', v'), false) →
      madtGetters s' v' = madtGetters s v) ↔ MadtWhole m s := by
  unfold acpiParseMadtPtrs MadtWhole
  cases acpiGetTable m s sigApic with
  | error e =>
    constructor
    · intro _ hdr hget
      cases hget
    · intro _ s' v' h
      cases h
  | ok hdr =>
    rw [ok_bind]
    by_cases hz : hdr = 0
    · -- no MADT is listed
      rw [if_pos hz]
      constructor
      · intro _ t ht hne
        cases ht
        exact absurd hz hne
      · intro _ s' v' h
        cases h
        rfl
    · rw [if_neg hz]
      by_cases hsum : acpiIsValidSdtChecksum m hdr = true
      · rw [hsum, if_neg (by simp)]
        constructor
        · intro h t ht _ _ hu
          cases ht
          obtain ⟨madt, hloop⟩ :=
            (entries_unknown_iff (Madt.start hdr (load m (hdr + 36) 4))).mpr hu
          have hsame := h { s with madt := madt } v.initMadt (by rw [hloop]; rfl)
          exact v.initMadt_lapics (congrArg (fun r => r.1.1) hsame)
        · intro h s' v' hrun
          obtain ⟨⟨madt, parsed⟩, hloop, hret⟩ := bind_ok hrun
          cases hret
          exact absurd ((entries_unknown_iff _).mp ⟨madt, hloop⟩) (h hdr rfl hz hsum)
      · -- the checksum is looked at before the vectors are made
        rw [Bool.not_eq_true] at hsum
        rw [hsum, if_pos (by simp)]
        constructor
        · intro _ t ht _ ht'
          cases ht
          rw [hsum] at ht'
          cases ht'
        · intro _ s' v' h
          cases h
          rfl

theorem acpiParseMcfg_traceless_iff :
    (∀ s' v', acpiParseMcfgPtrs m s v = .ok ((s', v'), false) →
      mcfgGetters s' v' = mcfgGetters s v) ↔ McfgWhole m s := by
  unfold acpiParseMcfgPtrs McfgWhole
  cases acpiGetTable m s sigMcfg with
  | error e =>
    constructor
    · intro _ mcfg hget
      cases hget
    · intro _ s' v' h
      cases h
  | ok mcfg =>
    rw [ok_bind]
    -- both failures have stored the pointer and nothing else
    have hfail : (∀ s' v', (Except.ok (({ s with mcfg := { s.mcfg with mcfg := mcfg } }, v), false) :
        Except Fault ((Acpi × VectorPtrs) × Bool)) = .ok ((s', v'), false) →
          mcfgGetters s' v' = mcfgGetters s v) ↔ mcfg = acpiGetMcfg s := by
      constructor
      · intro h
        exact congrArg Prod.fst (h _ _ rfl)
      · intro h s' v' he
        cases he
        rw [h]
        rfl
    by_cases hz : mcfg = 0
    · rw [if_pos hz]
      refine hfail.trans ⟨fun h t ht => ?_, fun h => (h mcfg rfl).resolve_left fun hn => hn.1 hz⟩
      cases ht
      exact .inr h
    · rw [if_neg hz]
      by_cases hsum : acpiIsValidSdtChecksum m mcfg = true
      · rw [hsum, if_neg (by simp)]
        constructor
        · intro _ t ht
          cases ht
          exact .inl ⟨hz, hsum⟩
        · intro _ s' v' h
          cases h
      · rw [Bool.not_eq_true] at hsum
        rw [hsum, if_pos (by simp)]
        refine hfail.trans ⟨fun h t ht => ?_, fun h => (h mcfg rfl).resolve_left fun hn => ?_⟩
        · cases ht
          exact .inr h
        · rw [hsum] at hn
          cases hn.2

theorem acpiParse_traceless_iff (m : Mem) (s : Acpi) (v : VectorPtrs) :
    Traceless m s v ↔ MadtWhole m s ∧ McfgWhole m s :=
  and_congr acpiParseMadt_traceless_iff acpiParseMcfg_traceless_iff

end Failure

/-! ## Two broken tables -/

/-- An RSDT at `0x1000` that lists a MADT whose one entry has type 127 and an MCFG without its
checksum. -/
def brokenTables : Mem :=
  ofList 0x1000 (sigRsdt ++ [44, 0, 0, 0] ++ List.replicate 28 0 ++ [0x2C, 0x10, 0, 0] ++
    [0x5A, 0x10, 0, 0] ++
    (sigApic ++ [46, 0, 0, 0] ++ [0, 52] ++ List.replicate 26 0 ++ List.replicate 8 0 ++ [127, 2]) ++
    (sigMcfg ++ [44, 0, 0, 0] ++ List.replicate 36 0))

/-- The state before the first parse. -/
def unparsed : Acpi := { handlersAt := 0, handlerCopyAt := 0, rsdt := 0x1000 }

/-- Neither table is parsed, and both parsers leave what they found in the getters. -/
theorem brokenTables_trace :
    (∃ s' v', acpiParseMadtPtrs brokenTables unparsed {} = .ok ((s', v'), false) ∧
      acpiGetLapics unparsed = none ∧ acpiGetLapics s' = some []) ∧
    (∃ s' v', acpiParseMcfgPtrs brokenTables unparsed {} = .ok ((s', v'), false) ∧
      acpiGetMcfg unparsed = 0 ∧ acpiGetMcfg s' = 0x105A) ∧
    ¬ Traceless brokenTables unparsed {} := by
  have hmadt : ∃ s' v', acpiParseMadtPtrs brokenTables unparsed {} = .ok ((s', v'), false) ∧
      acpiGetLapics s' = some [] := by
    have hrun : returns (acpiParseMadtPtrs brokenTables unparsed {})
        (fun r => r.2 = false ∧ acpiGetLapics r.1.1 = some []) = true := by decide +kernel
    obtain ⟨⟨⟨s', v'⟩, b⟩, hrun, htest⟩ := returns_iff.mp hrun
    simp only [decide_eq_true_eq] at htest
    exact ⟨s', v', htest.1 ▸ hrun, htest.2⟩
  have hmcfg : ∃ s' v', acpiParseMcfgPtrs brokenTables unparsed {} = .ok ((s', v'), false) ∧
      acpiGetMcfg s' = 0x105A := by
    have hrun : returns (acpiParseMcfgPtrs brokenTables unparsed {})
        (fun r => r.2 = false ∧ acpiGetMcfg r.1.1 = 0x105A) = true := by decide +kernel
    obtain ⟨⟨⟨s', v'⟩, b⟩, hrun, htest⟩ := returns_iff.mp hrun
    simp only [decide_eq_true_eq] at htest
    exact ⟨s', v', htest.1 ▸ hrun, htest.2⟩
  obtain ⟨s', v', hrun, hlapics⟩ := hmadt
  obtain ⟨s₂, v₂, hrun₂, hget⟩ := hmcfg
  refine ⟨⟨s', v', hrun, rfl, hlapics⟩, ⟨s₂, v₂, hrun₂, rfl, hget⟩, fun h => ?_⟩
  have hsame := congrArg (fun r => r.1.2) (h.1 s' v' hrun)
  simp only [madtGetters, hlapics] at hsame
  cases hsame

end BambooOS
