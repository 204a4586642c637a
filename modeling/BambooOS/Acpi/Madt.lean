import BambooOS.Acpi.Model

/-!
# Acpi.Madt

The MADT as a value: a header, the LAPIC address and a list of records, and the bytes they are
written as. The loop of `acpi_parse_madt` reads them back.

* `entry_record`: one pass of the `switch` absorbs one record and steps over exactly its bytes.
* `entries_records`: the loop absorbs all of them, whatever their mix and order.
* `acpiParseMadt_encode`: what the parser leaves behind for a whole table.
-/

namespace BambooOS

open ByteMem

/-! ## Tables as values -/

/-- The payload lengths a record type allows. The parser skips types 9 and 10 unread. -/
def RecordShape (type length : Nat) : Prop :=
  (type, length) ∈ [(0, 6), (1, 10), (2, 8), (3, 6), (4, 4), (5, 10)] ∨
    (type = 9 ∨ type = 10) ∧ length + 2 < 256

structure MadtRecord where
  type : Nat
  payload : List Byte
  shape : RecordShape type payload.length

namespace MadtRecord

/-- The entry as it stands in the table: type, length, payload. -/
def encode (r : MadtRecord) : List Byte :=
  BitVec.ofNat 8 r.type :: BitVec.ofNat 8 (r.payload.length + 2) :: r.payload

/-- The payloads of the records of one type, in table order. -/
def payloads (type : Nat) (records : List MadtRecord) : List (List Byte) :=
  (records.filter fun r => r.type = type).map payload

/-- The address a type 5 record holds, after two reserved bytes. -/
def address (r : MadtRecord) : Nat := leVal (r.payload.drop 2)

/-- The address of the last type 5 record, or the header's. -/
def lapicAddress (header : Nat) (records : List MadtRecord) : Nat :=
  (((records.filter fun r => r.type = 5).getLast?).map address).getD header

end MadtRecord

/-- A MADT whose header tells its own length and whose bytes sum to zero. -/
structure MadtTable where
  header : List Byte
  lapic : List Byte
  flags : List Byte
  records : List MadtRecord
  header_length : header.length = 36
  lapic_length : lapic.length = 4
  flags_length : flags.length = 4
  length_field : leVal ((header.drop 4).take 4) =
    44 + (records.flatMap MadtRecord.encode).length
  checksum : ((header ++ lapic ++ flags ++ records.flatMap MadtRecord.encode).map
    BitVec.toNat).sum % 0x100 = 0

def MadtTable.encode (t : MadtTable) : List Byte :=
  t.header ++ t.lapic ++ t.flags ++ t.records.flatMap MadtRecord.encode

theorem MadtTable.encode_length (t : MadtTable) :
    t.encode.length = 44 + (t.records.flatMap MadtRecord.encode).length := by
  simp only [encode, List.length_append, t.header_length, t.lapic_length, t.flags_length]

theorem MadtTable.records_le (t : MadtTable) : t.records.length ≤ t.encode.length := by
  have key : ∀ l : List MadtRecord, l.length ≤ (l.flatMap MadtRecord.encode).length := by
    intro l
    induction l with
    | nil => exact Nat.le_refl 0
    | cons r rest ih =>
      rw [List.flatMap_cons, List.length_append, List.length_cons]
      have : 1 ≤ r.encode.length := by simp [MadtRecord.encode]
      omega
  have := key t.records
  rw [t.encode_length]
  omega

/-! ## One record -/

/-- What a record adds to what has been parsed. -/
def Madt.absorb (s : Madt) (r : MadtRecord) : Madt :=
  match r.type with
  | 0 => { s with lapics := vectorAdd s.lapics r.payload }
  | 1 => { s with ioapics := vectorAdd s.ioapics r.payload }
  | 2 => { s with interruptSourceOverrides := vectorAdd s.interruptSourceOverrides r.payload }
  | 3 => { s with interruptIoapicNmis := vectorAdd s.interruptIoapicNmis r.payload }
  | 4 => { s with interruptLapicNmis := vectorAdd s.interruptLapicNmis r.payload }
  | 5 => { s with localApicAddr := r.address }
  | _ => s

/-- Each vector grows with the records of its own type and no others. -/
theorem Madt.absorb_vectors (s : Madt) (r : MadtRecord) :
    (s.absorb r).lapics = (if r.type = 0 then vectorAdd s.lapics r.payload else s.lapics) ∧
    (s.absorb r).ioapics = (if r.type = 1 then vectorAdd s.ioapics r.payload else s.ioapics) ∧
    (s.absorb r).interruptSourceOverrides =
      (if r.type = 2 then vectorAdd s.interruptSourceOverrides r.payload
        else s.interruptSourceOverrides) ∧
    (s.absorb r).interruptIoapicNmis =
      (if r.type = 3 then vectorAdd s.interruptIoapicNmis r.payload else s.interruptIoapicNmis) ∧
    (s.absorb r).interruptLapicNmis =
      (if r.type = 4 then vectorAdd s.interruptLapicNmis r.payload else s.interruptLapicNmis) := by
  unfold Madt.absorb
  split <;> simp_all

theorem RecordShape.cases {t n : Nat} (h : RecordShape t n) :
    (t = 0 ∧ n = 6) ∨ (t = 1 ∧ n = 10) ∨ (t = 2 ∧ n = 8) ∨ (t = 3 ∧ n = 6) ∨ (t = 4 ∧ n = 4) ∨
      (t = 5 ∧ n = 10) ∨ (t = 9 ∧ n < 254) ∨ (t = 10 ∧ n < 254) := by
  unfold RecordShape at h
  simp only [List.mem_cons, Prod.mk.injEq, List.not_mem_nil, or_false] at h
  rcases h with (h | h | h | h | h | h) | ⟨h | h, hn⟩
  · exact .inl h
  · exact .inr (.inl h)
  · exact .inr (.inr (.inl h))
  · exact .inr (.inr (.inr (.inl h)))
  · exact .inr (.inr (.inr (.inr (.inl h))))
  · exact .inr (.inr (.inr (.inr (.inr (.inl h)))))
  · exact .inr (.inr (.inr (.inr (.inr (.inr (.inl ⟨h, by omega⟩))))))
  · exact .inr (.inr (.inr (.inr (.inr (.inr (.inr ⟨h, by omega⟩))))))

theorem MadtRecord.encode_length (r : MadtRecord) : r.encode.length = r.payload.length + 2 := rfl

theorem MadtRecord.at_bytes {m : Mem} {p : Nat} {r : MadtRecord}
    (h : bytes m p r.encode.length = r.encode) :
    (m p).toNat = r.type ∧ (m (p + 1)).toNat = r.payload.length + 2 ∧
      bytes m (p + 2) r.payload.length = r.payload := by
  rw [encode_length] at h
  simp only [bytes, encode, List.cons.injEq] at h
  obtain ⟨htype, hlen, hpay⟩ := h
  have hb : r.type < 256 ∧ r.payload.length + 2 < 256 := by
    have := r.shape.cases
    omega
  refine ⟨?_, ?_, hpay⟩
  · rw [htype, BitVec.toNat_ofNat]
    exact Nat.mod_eq_of_lt hb.1
  · rw [hlen, BitVec.toNat_ofNat]
    exact Nat.mod_eq_of_lt hb.2

/-- One pass of the `switch` over a record. -/
theorem entry_record {m : Mem} {p : Nat} {r : MadtRecord} (s : Madt)
    (h : bytes m p r.encode.length = r.encode) : Madt.entry m p s = (s.absorb r, true) := by
  obtain ⟨htype, _, hpay⟩ := r.at_bytes h
  unfold Madt.entry Madt.absorb
  rw [htype]
  rcases r.shape.cases with ⟨ht, hn⟩ | ⟨ht, hn⟩ | ⟨ht, hn⟩ | ⟨ht, hn⟩ | ⟨ht, hn⟩ | ⟨ht, hn⟩ |
    ⟨ht, hn⟩ | ⟨ht, hn⟩
  · rw [hn] at hpay
    simp only [ht, hpay]
  · rw [hn] at hpay
    simp only [ht, hpay]
  · rw [hn] at hpay
    simp only [ht, hpay]
  · rw [hn] at hpay
    simp only [ht, hpay]
  · rw [hn] at hpay
    simp only [ht, hpay]
  · -- the address comes after the two reserved bytes of the payload
    have haddr : load m (p + 4) 8 = r.address := by
      rw [hn, bytes_add m (p + 2) 2 8] at hpay
      rw [load_eq_leVal, MadtRecord.address, ← hpay, List.drop_left' (length_bytes m _ _)]
    simp only [ht, haddr]
  · simp only [ht]
  · simp only [ht]

/-- The loop over the records that stand at offset `i`, with a pass for each of them. -/
theorem entries_records {m : Mem} {hdr : Nat} {records : List MadtRecord} :
    ∀ {fuel i : Nat} {s : Madt}, records.length ≤ fuel →
      i + (records.flatMap MadtRecord.encode).length = sdtLength m hdr →
      bytes m (hdr + i) (records.flatMap MadtRecord.encode).length =
        records.flatMap MadtRecord.encode →
      Madt.entries m hdr fuel i s = .ok (records.foldl Madt.absorb s, true) := by
  induction records with
  | nil =>
    intro fuel i s _ hi _
    have hend : ¬ i < sdtLength m hdr := by simpa using hi.ge
    cases fuel with
    | zero => exact if_neg hend
    | succ fuel => exact if_neg hend
  | cons r rest ih =>
    intro fuel i s hfuel hi hm
    rw [List.flatMap_cons] at hi hm
    obtain ⟨hr, hrest⟩ := bytes_append hm
    obtain ⟨_, hlen, _⟩ := r.at_bytes hr
    rw [List.length_append, r.encode_length] at hi
    rw [r.encode_length, Nat.add_assoc] at hrest
    cases fuel with
    | zero => cases hfuel
    | succ fuel =>
      unfold Madt.entries
      rw [if_pos (by omega), entry_record s hr, hlen]
      exact ih (by simpa using hfuel) (by omega) hrest

/-! ## All records -/

theorem foldl_column {f : Madt → Option (List (List Byte))} {type : Nat}
    (hcol : ∀ s r, f (Madt.absorb s r) =
      if r.type = type then vectorAdd (f s) r.payload else f s)
    (records : List MadtRecord) {s : Madt} {v : List (List Byte)} (hs : f s = some v) :
    f (records.foldl Madt.absorb s) = some (v ++ MadtRecord.payloads type records) := by
  induction records generalizing s v with
  | nil => simpa [MadtRecord.payloads] using hs
  | cons r rest ih =>
    rw [List.foldl_cons]
    by_cases ht : r.type = type
    · have hnext : f (s.absorb r) = some (v ++ [r.payload]) := by
        rw [hcol, if_pos ht, hs]
        rfl
      rw [ih hnext]
      simp [MadtRecord.payloads, ht]
    · have hnext : f (s.absorb r) = some v := by rw [hcol, if_neg ht, hs]
      rw [ih hnext]
      simp [MadtRecord.payloads, ht]

theorem vector_collects {f : Madt → Option (List (List Byte))} {type : Nat}
    (hcol : ∀ s r, f (Madt.absorb s r) =
      if r.type = type then vectorAdd (f s) r.payload else f s)
    (records : List MadtRecord) {s : Madt} (hs : f s = some []) :
    f (records.foldl Madt.absorb s) = some (MadtRecord.payloads type records) :=
  foldl_column hcol records hs

theorem foldl_address (records : List MadtRecord) (s : Madt) :
    (records.foldl Madt.absorb s).localApicAddr =
      MadtRecord.lapicAddress s.localApicAddr records := by
  induction records generalizing s with
  | nil => rfl
  | cons r rest ih =>
    rw [List.foldl_cons, ih]
    have habsorb : (s.absorb r).localApicAddr =
        if r.type = 5 then r.address else s.localApicAddr := by
      unfold Madt.absorb
      split <;> simp_all
    rw [habsorb]
    unfold MadtRecord.lapicAddress
    by_cases ht : r.type = 5
    · simp only [ht, if_true, List.filter_cons, decide_true, List.getLast?_cons]
      cases (rest.filter fun r => r.type = 5).getLast? <;> rfl
    · simp [ht]

/-- `acpi_parse_madt` on the bytes of a table: each vector holds the payloads of its record type in
table order, and the LAPIC address is the last override's. -/
theorem acpiParseMadt_encode {m : Mem} {s : Acpi} {hdr : Nat} (t : MadtTable)
    (hget : acpiGetTable m s sigApic = .ok hdr) (hne : hdr ≠ 0)
    (hm : bytes m hdr t.encode.length = t.encode) :
    ∃ s', acpiParseMadt m s = .ok (s', true) ∧
      s'.madt.lapics = some (MadtRecord.payloads 0 t.records) ∧
      s'.madt.ioapics = some (MadtRecord.payloads 1 t.records) ∧
      s'.madt.interruptSourceOverrides = some (MadtRecord.payloads 2 t.records) ∧
      s'.madt.interruptIoapicNmis = some (MadtRecord.payloads 3 t.records) ∧
      s'.madt.interruptLapicNmis = some (MadtRecord.payloads 4 t.records) ∧
      acpiGetLapicAddr s' = MadtRecord.lapicAddress (leVal t.lapic) t.records := by
  obtain ⟨hfront, hrecords⟩ := bytes_append hm
  obtain ⟨hfront, _⟩ := bytes_append hfront
  obtain ⟨hheader, hlapic⟩ := bytes_append hfront
  have hbase : (t.header ++ t.lapic ++ t.flags).length = 44 := by
    simp only [List.length_append, t.header_length, t.lapic_length, t.flags_length]
  rw [hbase] at hrecords
  have hlen : sdtLength m hdr = t.encode.length := by
    rw [sdtLength, load_eq_leVal, bytes_slice hheader (by rw [t.header_length]; omega),
      t.length_field, t.encode_length]
  have hsum : acpiIsValidSdtChecksum m hdr = true := by
    unfold acpiIsValidSdtChecksum byteSum
    rw [hlen, hm]
    exact beq_iff_eq.mpr t.checksum
  have hlapic' : load m (hdr + 36) 4 = leVal t.lapic := by
    rw [load_eq_leVal, ← t.header_length, ← t.lapic_length, hlapic]
  have hloop := entries_records (s := Madt.start hdr (leVal t.lapic)) (hlen ▸ t.records_le)
    (by rw [hlen, t.encode_length]) hrecords
  unfold acpiParseMadt
  rw [hget, ok_bind, if_neg hne, hsum, hlapic', hloop]
  refine ⟨_, rfl, ?_, ?_, ?_, ?_, ?_, foldl_address t.records _⟩
  · exact vector_collects (f := Madt.lapics) (fun s r => (s.absorb_vectors r).1) _ rfl
  · exact vector_collects (f := Madt.ioapics) (fun s r => (s.absorb_vectors r).2.1) _ rfl
  · exact vector_collects (f := Madt.interruptSourceOverrides)
      (fun s r => (s.absorb_vectors r).2.2.1) _ rfl
  · exact vector_collects (f := Madt.interruptIoapicNmis)
      (fun s r => (s.absorb_vectors r).2.2.2.1) _ rfl
  · exact vector_collects (f := Madt.interruptLapicNmis)
      (fun s r => (s.absorb_vectors r).2.2.2.2) _ rfl

/-! ## A small table -/

/-- A local APIC, a skipped x2APIC and an address override. -/
def smallMadt : MadtTable where
  header := sigApic ++ [67, 0, 0, 0] ++ [0, 100] ++ List.replicate 26 0
  lapic := [0, 0, 0xE0, 0xFE]
  flags := [1, 0, 0, 0]
  records := [⟨0, [1, 2, 1, 0, 0, 0], .inl (by decide)⟩, ⟨9, [0x55], .inr (by decide)⟩,
    ⟨5, [0, 0, 0, 0, 0xE1, 0xFE, 0, 0, 0, 0], .inl (by decide)⟩]
  header_length := rfl
  lapic_length := rfl
  flags_length := rfl
  length_field := by decide
  checksum := by decide

/-- An RSDT at `0x1000` with one entry, and behind it the table the entry points to. -/
def smallMadtMem : Mem :=
  ofList 0x1000 (sigRsdt ++ [40, 0, 0, 0] ++ List.replicate 28 0 ++ [0x28, 0x10, 0, 0] ++
    smallMadt.encode)

theorem acpiParseMadt_encode_small :
    ∃ s', acpiParseMadt smallMadtMem { handlersAt := 0, handlerCopyAt := 0, rsdt := 0x1000 } =
        .ok (s', true) ∧
      s'.madt.lapics = some (MadtRecord.payloads 0 smallMadt.records) ∧
      s'.madt.ioapics = some (MadtRecord.payloads 1 smallMadt.records) ∧
      s'.madt.interruptSourceOverrides = some (MadtRecord.payloads 2 smallMadt.records) ∧
      s'.madt.interruptIoapicNmis = some (MadtRecord.payloads 3 smallMadt.records) ∧
      s'.madt.interruptLapicNmis = some (MadtRecord.payloads 4 smallMadt.records) ∧
      acpiGetLapicAddr s' = MadtRecord.lapicAddress (leVal smallMadt.lapic) smallMadt.records := by
  have hget : acpiGetTable smallMadtMem { handlersAt := 0, handlerCopyAt := 0, rsdt := 0x1000 }
      sigApic = .ok 0x1028 := by decide +kernel
  exact acpiParseMadt_encode smallMadt hget (by decide) (by decide +kernel)

end BambooOS
