import BambooOS.Acpi.Dispatch

/-!
# Acpi.Lookup

The two lookups by signature. `acpi_get_table` scans the root table in use and adds the higher-half
offset to each entry; `acpi_table_exists` scans the XSDT, always, and adds nothing.

* `findTable_iff`: the scan of `acpi_get_table` returns the first table with the signature.
* `lookupsAgree_iff`: the lookups agree on an XSDT whose tables carry the same signatures at their
  physical addresses.
-/

namespace BambooOS

open ByteMem

/-- The scan of `acpi_table_exists`. -/
def existsTable (m : Mem) (sdts : Nat → Nat) (signature : Signature) : Nat → Nat → Bool
  | 0, _ => false
  | left + 1, i =>
    if acpiHeaderSignatureEquals m (sdts i) signature then true
    else existsTable m sdts signature left (i + 1)

namespace Acpi

/-- The `i`th entry of the XSDT, a physical address. -/
def xsdtAddress (m : Mem) (s : Acpi) (i : Nat) : Nat := load m (s.xsdt + 36 + 8 * i) 8

end Acpi

/-- `acpi_table_exists(signature)`. -/
def acpiTableExists (m : Mem) (s : Acpi) (signature : Signature) : Except Fault Bool := do
  let xsdt ← deref s.xsdt
  return existsTable m (s.xsdtAddress m) signature (sdtEntries m xsdt 36 8) 0

section Scans

variable {m : Mem} {sdts : Nat → Nat} {signature : Signature}

theorem existsTable_iff {left i : Nat} : existsTable m sdts signature left i = true ↔
    ∃ j, i ≤ j ∧ j < i + left ∧ acpiHeaderSignatureEquals m (sdts j) signature = true := by
  induction left generalizing i with
  | zero =>
    refine iff_of_false (by simp [existsTable]) fun h => ?_
    obtain ⟨j, hlo, hhi, _⟩ := h
    omega
  | succ left ih =>
    rw [existsTable]
    split
    · next hsig => exact iff_of_true rfl ⟨i, Nat.le_refl i, by omega, hsig⟩
    · next hsig =>
      rw [ih]
      constructor
      · intro h
        obtain ⟨j, hlo, hhi, hj⟩ := h
        exact ⟨j, by omega, by omega, hj⟩
      · intro h
        obtain ⟨j, hlo, hhi, hj⟩ := h
        refine ⟨j, ?_, by omega, hj⟩
        by_contra hlt
        obtain rfl : j = i := by omega
        exact hsig hj

/-- `t` is the first of the tables `sdts i`, .. with the signature. -/
def FirstTable (m : Mem) (sdts : Nat → Nat) (signature : Signature) (left i t : Nat) : Prop :=
  ∃ j, i ≤ j ∧ j < i + left ∧ t = sdts j ∧ acpiHeaderSignatureEquals m (sdts j) signature = true ∧
    ∀ k, i ≤ k → k < j → ¬ acpiHeaderSignatureEquals m (sdts k) signature = true

/-- The scan returns the first table with the signature, if it is not NULL. -/
theorem findTable_iff {left i t : Nat} (ht : t ≠ 0) :
    findTable m sdts signature left i = t ↔ FirstTable m sdts signature left i t := by
  induction left generalizing i with
  | zero =>
    refine iff_of_false (fun h => ht h.symm) fun h => ?_
    obtain ⟨j, hlo, hhi, _⟩ := h
    omega
  | succ left ih =>
    rw [findTable]
    split
    · next hsig =>
      constructor
      · intro h
        exact ⟨i, Nat.le_refl i, by omega, h.symm, hsig, fun k hlo hhi => by omega⟩
      · intro h
        obtain ⟨j, hlo, _, hj, _, hfirst⟩ := h
        have hij : j = i := by
          by_contra hne
          exact hfirst i (Nat.le_refl i) (by omega) hsig
        rw [hj, hij]
    · next hsig =>
      rw [ih]
      constructor
      · intro h
        obtain ⟨j, hlo, hhi, hj, hs, hfirst⟩ := h
        refine ⟨j, by omega, by omega, hj, hs, fun k hk hkj => ?_⟩
        by_cases hki : k = i
        · rw [hki]
          exact hsig
        · exact hfirst k (by omega) hkj
      · intro h
        obtain ⟨j, hlo, hhi, hj, hs, hfirst⟩ := h
        refine ⟨j, ?_, by omega, hj, hs, fun k hk hkj => hfirst k (by omega) hkj⟩
        by_contra hlt
        obtain rfl : j = i := by omega
        exact hsig hs

end Scans

/-- The root table in use is in place; nothing sets the other pointer. -/
def RootInPlace (s : Acpi) : Prop :=
  (s.acpiIsXsdt = true → s.xsdt ≠ 0) ∧ (s.acpiIsXsdt = false → s.rsdt ≠ 0 ∧ s.xsdt = 0)

/-- The tables listed in the root table in use, by index. -/
def rootTable (m : Mem) (s : Acpi) (i : Nat) : Nat :=
  if s.acpiIsXsdt then s.xsdtEntry m i else s.rsdtEntry m i

/-- The number of tables listed there. -/
def rootTables (m : Mem) (s : Acpi) : Nat :=
  if s.acpiIsXsdt then sdtEntries m s.xsdt 36 8 else sdtEntries m s.rsdt 36 4

/-- Both lookups come back and agree, and what `acpi_get_table` returns is the first listed table
with the signature. -/
def LookupsAgree (m : Mem) (s : Acpi) (signature : Signature) : Prop :=
  ∃ found t, acpiTableExists m s signature = .ok found ∧ acpiGetTable m s signature = .ok t ∧
    (found = true ↔ t ≠ 0) ∧
    (t ≠ 0 → FirstTable m (rootTable m s) signature (rootTables m s) 0 t)

/-- The signature is found at the physical address of a listed table exactly when a table that is
not NULL is the first to carry it at its mapped address. -/
def SameSignatures (m : Mem) (s : Acpi) (signature : Signature) : Prop :=
  (∃ i, i < rootTables m s ∧
    acpiHeaderSignatureEquals m (s.xsdtAddress m i) signature = true) ↔
      ∃ t, t ≠ 0 ∧ FirstTable m (rootTable m s) signature (rootTables m s) 0 t

/-- The lookups agree exactly on an XSDT with the same signatures at both addresses. -/
theorem lookupsAgree_iff {m : Mem} {s : Acpi} {signature : Signature} (hroot : RootInPlace s) :
    LookupsAgree m s signature ↔ s.acpiIsXsdt = true ∧ SameSignatures m s signature := by
  cases hx : s.acpiIsXsdt with
  | false =>
    -- the XSDT is NULL
    refine iff_of_false (fun h => ?_) (by simp)
    obtain ⟨found, t, he, _⟩ := h
    rw [acpiTableExists, (hroot.2 hx).2, deref_zero, error_bind] at he
    cases he
  | true =>
    have hne := hroot.1 hx
    have hexists : acpiTableExists m s signature =
        .ok (existsTable m (s.xsdtAddress m) signature (sdtEntries m s.xsdt 36 8) 0) := by
      rw [acpiTableExists, deref_ne_zero hne, ok_bind]
      rfl
    have hget : acpiGetTable m s signature =
        .ok (findTable m (s.xsdtEntry m) signature (sdtEntries m s.xsdt 36 8) 0) := by
      rw [acpiGetTable, hx, if_pos rfl, deref_ne_zero hne, ok_bind]
      rfl
    have hlisted : rootTable m s = s.xsdtEntry m := by
      funext i
      rw [rootTable, hx, if_pos rfl]
    unfold LookupsAgree SameSignatures
    rw [hexists, hget, hlisted, rootTables, hx, if_pos rfl]
    generalize sdtEntries m s.xsdt 36 8 = n
    have hfound : existsTable m (s.xsdtAddress m) signature n 0 = true ↔
        ∃ i, i < n ∧ acpiHeaderSignatureEquals m (s.xsdtAddress m i) signature = true := by
      rw [existsTable_iff]
      simp
    have hfirst : (∃ t, t ≠ 0 ∧ FirstTable m (s.xsdtEntry m) signature n 0 t) ↔
        findTable m (s.xsdtEntry m) signature n 0 ≠ 0 := by
      constructor
      · intro h
        obtain ⟨t, ht, hf⟩ := h
        rw [(findTable_iff ht).mpr hf]
        exact ht
      · intro h
        exact ⟨_, h, (findTable_iff h).mp rfl⟩
    rw [hfirst, ← hfound]
    constructor
    · intro h
      obtain ⟨found, t, he, hg, hagree, _⟩ := h
      cases he
      cases hg
      exact ⟨rfl, hagree⟩
    · intro h
      exact ⟨_, _, rfl, rfl, h.2, fun ht => (findTable_iff ht).mp rfl⟩

/-! ## Two root tables -/

/-- An XSDT at `0x1000` that lists itself. -/
def selfXsdt : Mem :=
  ofList 0x1000 (sigXsdt ++ [44, 0, 0, 0] ++ List.replicate 28 0 ++ [0, 0x10, 0, 0, 0, 0, 0, 0])

/-- The state that reads it, under the identity map. -/
def xsdtState : Acpi := { handlersAt := 0, handlerCopyAt := 0, acpiIsXsdt := true, xsdt := 0x1000 }

theorem lookupsAgree_identity : LookupsAgree selfXsdt xsdtState sigXsdt := by
  have hroot : RootInPlace xsdtState := ⟨fun _ => by decide, fun h => by cases h⟩
  have hcount : rootTables selfXsdt xsdtState = 1 := by decide +kernel
  refine (lookupsAgree_iff hroot).mpr ⟨rfl, iff_of_true ?_ ?_⟩
  · exact ⟨0, by omega, by decide +kernel⟩
  · refine ⟨0x1000, by decide, 0, Nat.le_refl 0, by omega, by decide +kernel, by decide +kernel, ?_⟩
    intro k _ hk
    omega

/-- The MADT that the RSDT lists is found, and the other lookup reads the XSDT through NULL. -/
theorem lookups_differ : acpiGetTable listedMadt unparsed sigApic = .ok 0x1028 ∧
    acpiTableExists listedMadt unparsed sigApic = .error .nullDeref ∧
    ¬ LookupsAgree listedMadt unparsed sigApic := by
  have hnull : acpiTableExists listedMadt unparsed sigApic = .error .nullDeref := rfl
  refine ⟨by decide +kernel, hnull, fun h => ?_⟩
  obtain ⟨found, t, he, _⟩ := h
  rw [hnull] at he
  cases he

end BambooOS
