import BambooOS.Acpi.Failure
import BambooOS.Acpi.Root

/-!
# Acpi.Arrays

The tables that are a header and an array of entries: RSDT, XSDT and MCFG. The number of entries is
the length less the header's size, 64 bits wide, divided by an entry's size.

* `entries_iff`: it is the number of entries in the table unless the subtraction wraps.
* `findTableLog`, `parseTablesLog`, `segmentGroupsLog`: the loops with the entries they read.
* `arrayReads_within_iff`: each of the four functions stays in its table exactly where the length
  covers the header.
-/

namespace BambooOS

open ByteMem

/-- An array of `width`-byte entries behind the header of the table at `hdr`. -/
structure TableArray where
  hdr : Nat
  hdrSize : Nat
  width : Nat

namespace TableArray

/-- The number of entries the code counts. -/
def entries (m : Mem) (t : TableArray) : Nat := sdtEntries m t.hdr t.hdrSize t.width

/-- The count is the number of whole entries in the table, and the entries that are read end inside
it. -/
def Within (m : Mem) (t : TableArray) (read : List Nat) : Prop :=
  t.entries m = (sdtLength m t.hdr - t.hdrSize) / t.width ∧
    ∀ i ∈ read, t.hdrSize + t.width * i + t.width ≤ sdtLength m t.hdr

variable {m : Mem} {t : TableArray}

theorem sdtLength_lt (m : Mem) (hdr : Nat) : sdtLength m hdr < 2 ^ 32 := by
  have hlt := load_lt m (hdr + 4) 4
  unfold sdtLength
  omega

theorem entries_iff (hw : 0 < t.width) (hsmall : t.hdrSize + t.width ≤ 2 ^ 32) :
    t.entries m = (sdtLength m t.hdr - t.hdrSize) / t.width ↔ t.hdrSize ≤ sdtLength m t.hdr := by
  have hlt := sdtLength_lt m t.hdr
  unfold entries sdtEntries
  constructor
  · intro he
    by_contra hshort
    have hwrap : (sdtLength m t.hdr + (2 ^ 64 - t.hdrSize)) % 2 ^ 64 =
        sdtLength m t.hdr + (2 ^ 64 - t.hdrSize) := Nat.mod_eq_of_lt (by omega)
    rw [hwrap, show sdtLength m t.hdr - t.hdrSize = 0 by omega, Nat.zero_div] at he
    -- the wrapped difference holds an entry at least
    have hsome := Nat.div_eq_zero_iff.mp he
    omega
  · intro hle
    rw [show sdtLength m t.hdr + (2 ^ 64 - t.hdrSize) = sdtLength m t.hdr - t.hdrSize + 2 ^ 64 by omega,
      Nat.add_mod_right, Nat.mod_eq_of_lt (by omega)]

theorem within_iff (hw : 0 < t.width) (hsmall : t.hdrSize + t.width ≤ 2 ^ 32) {read : List Nat}
    (hread : ∀ i ∈ read, i < t.entries m) :
    t.Within m read ↔ t.hdrSize ≤ sdtLength m t.hdr := by
  constructor
  · intro h
    exact (entries_iff hw hsmall).mp h.1
  · intro hle
    have he := (entries_iff hw hsmall).mpr hle
    refine ⟨he, fun i hi => ?_⟩
    have hlt := hread i hi
    rw [he] at hlt
    have hin : (i + 1) * t.width ≤ sdtLength m t.hdr - t.hdrSize :=
      (Nat.le_div_iff_mul_le hw).mp hlt
    rw [Nat.add_one_mul, Nat.mul_comm] at hin
    omega

end TableArray

/-! ## The loops and the entries they read -/

section Loops

variable {m : Mem} {sdts : Nat → Nat} {parsed : Nat → ParsedTable} {signature : Signature}

/-- `findTable` with the indices of the entries it looks at. -/
def findTableLog (m : Mem) (sdts : Nat → Nat) (signature : Signature) :
    Nat → Nat → List Nat × Except Fault Nat
  | 0, _ => ([], .ok 0)
  | left + 1, i =>
    if acpiHeaderSignatureEquals m (sdts i) signature then ([i], .ok (sdts i))
    else
      let r := findTableLog m sdts signature left (i + 1)
      (i :: r.1, r.2)

theorem findTableLog_find (left i : Nat) :
    (findTableLog m sdts signature left i).2 = .ok (findTable m sdts signature left i) := by
  induction left generalizing i with
  | zero => rfl
  | succ left ih =>
    rw [findTableLog, findTable]
    split
    · rfl
    · exact ih (i + 1)

theorem findTableLog_lt {left i j : Nat} (hj : j ∈ (findTableLog m sdts signature left i).1) :
    j < i + left := by
  induction left generalizing i with
  | zero => cases hj
  | succ left ih =>
    rw [findTableLog] at hj
    split at hj
    · obtain rfl := List.mem_singleton.mp hj
      omega
    · rcases List.mem_cons.mp hj with rfl | hj
      · omega
      · have hlt := ih hj
        omega

/-- `parseTables` with the indices of the entries it looks at. -/
def parseTablesLog (m : Mem) (sdts : Nat → Nat) (parsed : Nat → ParsedTable) :
    Nat → Nat → Acpi → List Nat × Except Fault Acpi
  | 0, _, s => ([], .ok s)
  | left + 1, i, s =>
    match dispatch m parsed (sdts i) 32 0 s with
    | .error e => ([i], .error e)
    | .ok s =>
      let r := parseTablesLog m sdts parsed left (i + 1) s
      (i :: r.1, r.2)

theorem parseTablesLog_parse (left i : Nat) (s : Acpi) :
    (parseTablesLog m sdts parsed left i s).2 = parseTables m sdts parsed left i s := by
  induction left generalizing i s with
  | zero => rfl
  | succ left ih =>
    rw [parseTablesLog, parseTables]
    cases dispatch m parsed (sdts i) 32 0 s with
    | error e => rfl
    | ok s => exact ih (i + 1) s

theorem parseTablesLog_lt {left i j : Nat} {s : Acpi}
    (hj : j ∈ (parseTablesLog m sdts parsed left i s).1) : j < i + left := by
  induction left generalizing i s with
  | zero => cases hj
  | succ left ih =>
    rw [parseTablesLog] at hj
    cases hd : dispatch m parsed (sdts i) 32 0 s with
    | error e =>
      rw [hd] at hj
      obtain rfl := List.mem_singleton.mp hj
      omega
    | ok s =>
      rw [hd] at hj
      rcases List.mem_cons.mp hj with rfl | hj
      · omega
      · have hlt := ih hj
        omega

/-- `segmentGroups` with the indices of the groups it copies. -/
def segmentGroupsLog (m : Mem) (mcfg : Nat) : Nat → Nat → List Nat × List McfgSegmentGroup
  | 0, _ => ([], [])
  | left + 1, i =>
    let r := segmentGroupsLog m mcfg left (i + 1)
    (i :: r.1, McfgSegmentGroup.read m mcfg i :: r.2)

theorem segmentGroupsLog_groups (mcfg left i : Nat) :
    (segmentGroupsLog m mcfg left i).2 = segmentGroups m mcfg left i := by
  induction left generalizing i with
  | zero => rfl
  | succ left ih => simp only [segmentGroupsLog, segmentGroups, ih]

theorem segmentGroupsLog_lt {mcfg left i j : Nat}
    (hj : j ∈ (segmentGroupsLog m mcfg left i).1) : j < i + left := by
  induction left generalizing i with
  | zero => cases hj
  | succ left ih =>
    rcases List.mem_cons.mp hj with rfl | hj
    · omega
    · have hlt := ih hj
      omega

/-- The end of `acpi_parse_mcfg`, for a table of `n` groups. -/
def storeGroupsLog (m : Mem) (s : Acpi) (mcfg n : Nat) : List Nat × Except Fault (Acpi × Bool) :=
  let r := segmentGroupsLog m mcfg n 0
  (r.1, .ok ({ s with mcfg := { mcfg := mcfg, mcfgSegmentGroups := some r.2 } }, true))

theorem storeGroupsLog_fst (s : Acpi) (mcfg n : Nat) :
    (storeGroupsLog m s mcfg n).1 = (segmentGroupsLog m mcfg n 0).1 := rfl

theorem storeGroupsLog_snd (s : Acpi) (mcfg n : Nat) :
    (storeGroupsLog m s mcfg n).2 = .ok ({ s with
      mcfg := { mcfg := mcfg, mcfgSegmentGroups := some (segmentGroups m mcfg n 0) } }, true) := by
  rw [← segmentGroupsLog_groups]
  rfl

end Loops

/-! ## The functions that run them -/

/-- A step that logs nothing, and what comes behind it with its log. -/
def logged {ε α β : Type} (x : Except Fault α) (f : α → List ε × Except Fault β) :
    List ε × Except Fault β :=
  match x with
  | .error e => ([], .error e)
  | .ok a => f a

theorem logged_ok {ε α β : Type} (a : α) (f : α → List ε × Except Fault β) :
    logged (.ok a) f = f a := rfl

section Functions

variable {m : Mem} {s : Acpi}

def acpiGetTableLog (m : Mem) (s : Acpi) (signature : Signature) : List Nat × Except Fault Nat :=
  if s.acpiIsXsdt then logged (deref s.xsdt) fun xsdt =>
    findTableLog m (s.xsdtEntry m) signature (sdtEntries m xsdt 36 8) 0
  else logged (deref s.rsdt) fun rsdt =>
    findTableLog m (s.rsdtEntry m) signature (sdtEntries m rsdt 36 4) 0

theorem acpiGetTableLog_get (signature : Signature) :
    (acpiGetTableLog m s signature).2 = acpiGetTable m s signature := by
  unfold acpiGetTableLog acpiGetTable
  split
  · cases deref s.xsdt with
    | error e => rfl
    | ok xsdt =>
      rw [logged_ok, ok_bind, findTableLog_find]
      rfl
  · cases deref s.rsdt with
    | error e => rfl
    | ok rsdt =>
      rw [logged_ok, ok_bind, findTableLog_find]
      rfl

def acpiParseRsdtTablesLog (m : Mem) (s : Acpi) : List Nat × Except Fault Acpi :=
  if s.acpiIsXsdt then ([], .ok s)
  else logged (deref s.rsdt) fun rsdt =>
    parseTablesLog m (s.rsdtEntry m) .handler (sdtEntries m rsdt 36 4) 0 s

theorem acpiParseRsdtTablesLog_parse :
    (acpiParseRsdtTablesLog m s).2 = acpiParseRsdtTables m s := by
  unfold acpiParseRsdtTablesLog acpiParseRsdtTables
  split
  · rfl
  · cases deref s.rsdt with
    | error e => rfl
    | ok rsdt => rw [logged_ok, ok_bind, parseTablesLog_parse]

def acpiParseXsdtTablesLog (m : Mem) (s : Acpi) : List Nat × Except Fault Acpi :=
  if !s.acpiIsXsdt then ([], .ok s)
  else logged (deref s.xsdt) fun xsdt =>
    parseTablesLog m (s.xsdtEntry m) (fun _ => .stackCopy) (sdtEntries m xsdt 36 8) 0 s

theorem acpiParseXsdtTablesLog_parse :
    (acpiParseXsdtTablesLog m s).2 = acpiParseXsdtTables m s := by
  unfold acpiParseXsdtTablesLog acpiParseXsdtTables
  split
  · rfl
  · cases deref s.xsdt with
    | error e => rfl
    | ok xsdt => rw [logged_ok, ok_bind, parseTablesLog_parse]

/-- The indices are those of the segment groups, not of the root table's entries. -/
def acpiParseMcfgLog (m : Mem) (s : Acpi) : List Nat × Except Fault (Acpi × Bool) :=
  logged (acpiGetTable m s sigMcfg) fun mcfg =>
    if mcfg = 0 then ([], .ok ({ s with mcfg := { s.mcfg with mcfg := mcfg } }, false))
    else if !acpiIsValidSdtChecksum m mcfg then
      ([], .ok ({ s with mcfg := { s.mcfg with mcfg := mcfg } }, false))
    else storeGroupsLog m s mcfg (sdtEntries m mcfg 44 16)

theorem acpiParseMcfgLog_parse : (acpiParseMcfgLog m s).2 = acpiParseMcfg m s := by
  unfold acpiParseMcfgLog acpiParseMcfg
  cases acpiGetTable m s sigMcfg with
  | error e => rfl
  | ok mcfg =>
    rw [logged_ok, ok_bind]
    by_cases hz : mcfg = 0
    · rw [if_pos hz, if_pos hz]
      rfl
    · rw [if_neg hz, if_neg hz]
      by_cases hsum : (!acpiIsValidSdtChecksum m mcfg) = true
      · rw [if_pos hsum, if_pos hsum]
        rfl
      · rw [if_neg hsum, if_neg hsum, storeGroupsLog_snd]
        rfl

end Functions

/-- The calls that read an array of entries. -/
inductive ArrayReader where
  | parseRsdtTables
  | parseXsdtTables
  | getTable (signature : Signature)
  | parseMcfg

/-- The indices of the entries the call reads. -/
def ArrayReader.log (m : Mem) (s : Acpi) : ArrayReader → List Nat
  | .parseRsdtTables => (acpiParseRsdtTablesLog m s).1
  | .parseXsdtTables => (acpiParseXsdtTablesLog m s).1
  | .getTable signature => (acpiGetTableLog m s signature).1
  | .parseMcfg => (acpiParseMcfgLog m s).1

/-- The call gets to the array behind a table that is in place. -/
inductive ArrayReads (m : Mem) (s : Acpi) : ArrayReader → TableArray → Prop where
  | parseRsdtTables : s.acpiIsXsdt = false → s.rsdt ≠ 0 →
      ArrayReads m s .parseRsdtTables ⟨s.rsdt, 36, 4⟩
  | parseXsdtTables : s.acpiIsXsdt = true → s.xsdt ≠ 0 →
      ArrayReads m s .parseXsdtTables ⟨s.xsdt, 36, 8⟩
  | getTableRsdt (signature : Signature) : s.acpiIsXsdt = false → s.rsdt ≠ 0 →
      ArrayReads m s (.getTable signature) ⟨s.rsdt, 36, 4⟩
  | getTableXsdt (signature : Signature) : s.acpiIsXsdt = true → s.xsdt ≠ 0 →
      ArrayReads m s (.getTable signature) ⟨s.xsdt, 36, 8⟩
  | parseMcfg {mcfg : Nat} : acpiGetTable m s sigMcfg = .ok mcfg → mcfg ≠ 0 →
      acpiIsValidSdtChecksum m mcfg = true → ArrayReads m s .parseMcfg ⟨mcfg, 44, 16⟩

section Within

variable {m : Mem} {s : Acpi} {r : ArrayReader} {t : TableArray}

theorem ArrayReads.lt (h : ArrayReads m s r t) {i : Nat} (hi : i ∈ r.log m s) : i < t.entries m := by
  cases h with
  | parseRsdtTables hx hne =>
    rw [ArrayReader.log, acpiParseRsdtTablesLog, hx, if_neg Bool.false_ne_true,
      deref_ne_zero hne, logged_ok] at hi
    exact lt_of_lt_of_eq (parseTablesLog_lt hi) (Nat.zero_add _)
  | parseXsdtTables hx hne =>
    rw [ArrayReader.log, acpiParseXsdtTablesLog, hx, Bool.not_true, if_neg Bool.false_ne_true,
      deref_ne_zero hne, logged_ok] at hi
    exact lt_of_lt_of_eq (parseTablesLog_lt hi) (Nat.zero_add _)
  | getTableRsdt signature hx hne =>
    rw [ArrayReader.log, acpiGetTableLog, hx, if_neg Bool.false_ne_true, deref_ne_zero hne,
      logged_ok] at hi
    exact lt_of_lt_of_eq (findTableLog_lt hi) (Nat.zero_add _)
  | getTableXsdt signature hx hne =>
    rw [ArrayReader.log, acpiGetTableLog, hx, if_pos rfl, deref_ne_zero hne, logged_ok] at hi
    exact lt_of_lt_of_eq (findTableLog_lt hi) (Nat.zero_add _)
  | parseMcfg hget hne hsum =>
    rw [ArrayReader.log, acpiParseMcfgLog, hget, logged_ok, if_neg hne, hsum, Bool.not_true,
      if_neg Bool.false_ne_true, storeGroupsLog_fst] at hi
    exact lt_of_lt_of_eq (segmentGroupsLog_lt hi) (Nat.zero_add _)

/-- Each call counts the entries of its table and reads inside it exactly where the length covers
the header. -/
theorem arrayReads_within_iff (h : ArrayReads m s r t) :
    t.Within m (r.log m s) ↔ t.hdrSize ≤ sdtLength m t.hdr := by
  have hsize : 0 < t.width ∧ t.hdrSize + t.width ≤ 2 ^ 32 := by
    cases h with
    | parseRsdtTables => simp
    | parseXsdtTables => simp
    | getTableRsdt => simp
    | getTableXsdt => simp
    | parseMcfg => simp
  exact TableArray.within_iff hsize.1 hsize.2 fun i hi => h.lt hi

end Within

/-- The RSDT of two entries. -/
theorem arrayReads_rsdt : (⟨unparsed.rsdt, 36, 4⟩ : TableArray).Within brokenTables
    (ArrayReader.parseRsdtTables.log brokenTables unparsed) :=
  (arrayReads_within_iff (.parseRsdtTables rfl (by decide))).mpr (by decide +kernel)

/-- An RSDT of ten bytes, with the byte that makes the checksum. -/
def shortRsdt : Mem := ofList 0x1000 (sigRsdt ++ [10, 0, 0, 0] ++ [0, 185])

/-- It is accepted, and close to 2^62 entries are counted behind it. -/
theorem shortRsdt_overcounted : RsdtAccepted shortRsdt 0x1000 ∧
    sdtEntries shortRsdt 0x1000 36 4 = 0x3ffffffffffffff9 ∧
    ¬ (⟨unparsed.rsdt, 36, 4⟩ : TableArray).Within shortRsdt
      (ArrayReader.parseRsdtTables.log shortRsdt unparsed) := by
  refine ⟨by decide +kernel, by decide +kernel, fun h => ?_⟩
  exact absurd h.1 (by decide +kernel)

end BambooOS
