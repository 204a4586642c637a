import BambooOS.Acpi.Madt
import BambooOS.Acpi.Failure

/-!
# Acpi.Records

The loop of `acpi_parse_madt` over entries of any type and length. It tests where an entry starts,
and takes the rest from the table.

* `acpiParseMadt_returns_iff`: it ends unless it comes to an entry of length zero.
* `Madt.entriesLog`: the loop with the bytes it reads.
* `madtReads_inside_iff`: they are bytes of the table exactly where every entry is as long as its
  type says and ends inside the table.
-/

namespace BambooOS

open ByteMem

section Returns

variable {m : Mem} {hdr : Nat}

/-- The entries from the offset `i` on lead to one that the `switch` has a case for and that has
length zero. -/
def MeetsStuck (m : Mem) (hdr i : Nat) : Prop :=
  ∃ j, MadtWalk m hdr i j ∧ j < sdtLength m hdr ∧ KnownEntry m (hdr + j) ∧
    (m (hdr + j + 1)).toNat = 0

/-- The loop ends after some number of rounds, and the parser returns. -/
def MadtReturns (m : Mem) (s : Acpi) (hdr : Nat) : Prop :=
  (∃ rounds r, Madt.entries m hdr rounds 44 (Madt.start hdr (load m (hdr + 36) 4)) = .ok r) ∧
    ∃ r, acpiParseMadt m s = .ok r

theorem entry_eq {p : Nat} (s : Madt) (hk : KnownEntry m p) :
    Madt.entry m p s = ((Madt.entry m p s).1, true) :=
  Prod.ext rfl ((entry_known s).mpr hk)

theorem entry_unknown {p : Nat} (s : Madt) (hk : ¬ KnownEntry m p) :
    Madt.entry m p s = ((Madt.entry m p s).1, false) := by
  refine Prod.ext rfl ?_
  simpa using mt (entry_known s).mp hk

theorem entries_known {i : Nat} (hi : i < sdtLength m hdr) (hk : KnownEntry m (hdr + i))
    (fuel : Nat) (s : Madt) : Madt.entries m hdr (fuel + 1) i s =
      Madt.entries m hdr fuel (i + (m (hdr + i + 1)).toNat) (Madt.entry m (hdr + i) s).1 := by
  rw [Madt.entries, if_pos hi, entry_eq s hk]

theorem entries_hang {i j : Nat} (hw : MadtWalk m hdr i j) (hj : j < sdtLength m hdr)
    (hk : KnownEntry m (hdr + j)) (hz : (m (hdr + j + 1)).toNat = 0) (fuel : Nat) (s : Madt) :
    Madt.entries m hdr fuel i s = .error .hang := by
  induction hw generalizing fuel s with
  | refl =>
    induction fuel generalizing s with
    | zero => exact if_pos hj
    | succ fuel ih =>
      rw [entries_known hj hk, hz, Nat.add_zero]
      exact ih _
  | next hi hki _ ih =>
    cases fuel with
    | zero => exact if_pos hi
    | succ fuel =>
      rw [entries_known hi hki]
      exact ih hj hk hz _ _

/-- Every entry moves the loop on: a round for each byte of the table is enough. -/
theorem entries_ends {i : Nat} (hno : ¬ MeetsStuck m hdr i) {fuel : Nat}
    (hfuel : sdtLength m hdr ≤ i + fuel) (s : Madt) :
    ∃ r, Madt.entries m hdr fuel i s = .ok r := by
  induction fuel generalizing i s with
  | zero => exact ⟨_, if_neg (by omega)⟩
  | succ fuel ih =>
    by_cases hi : i < sdtLength m hdr
    · by_cases hk : KnownEntry m (hdr + i)
      · have hmove : (m (hdr + i + 1)).toNat ≠ 0 := fun hz => hno ⟨i, .refl, hi, hk, hz⟩
        rw [entries_known hi hk]
        refine ih (fun hstuck => hno ?_) (by omega) _
        obtain ⟨j, hw, hj⟩ := hstuck
        exact ⟨j, .next hi hk hw, hj⟩
      · rw [Madt.entries, if_pos hi, entry_unknown s hk]
        exact ⟨_, rfl⟩
    · rw [Madt.entries, if_neg hi]
      exact ⟨_, rfl⟩

variable {s : Acpi}

theorem acpiParseMadt_loop (hget : acpiGetTable m s sigApic = .ok hdr) (hne : hdr ≠ 0)
    (hsum : acpiIsValidSdtChecksum m hdr = true) :
    acpiParseMadt m s =
      (Madt.entries m hdr (sdtLength m hdr) 44 (Madt.start hdr (load m (hdr + 36) 4)) >>= fun r =>
        .ok ({ s with madt := r.1 }, r.2)) := by
  unfold acpiParseMadt
  rw [hget, ok_bind, if_neg hne, hsum]
  rfl

/-- The parser returns exactly where no entry of length zero is met. -/
theorem acpiParseMadt_returns_iff (hget : acpiGetTable m s sigApic = .ok hdr) (hne : hdr ≠ 0)
    (hsum : acpiIsValidSdtChecksum m hdr = true) :
    MadtReturns m s hdr ↔ ¬ MeetsStuck m hdr 44 := by
  constructor
  · intro hr hstuck
    obtain ⟨⟨rounds, r, he⟩, _⟩ := hr
    obtain ⟨j, hw, hj, hk, hz⟩ := hstuck
    rw [entries_hang hw hj hk hz] at he
    cases he
  · intro hno
    obtain ⟨r, he⟩ := entries_ends hno (Nat.le_add_left _ 44) (Madt.start hdr (load m (hdr + 36) 4))
    refine ⟨⟨_, r, he⟩, ({ s with madt := r.1 }, r.2), ?_⟩
    rw [acpiParseMadt_loop hget hne hsum, he]
    rfl

end Returns

/-! ## The bytes that are read -/

/-- The bytes `[start, start + size)`; where they are the payload of an entry, its start and the
length it tells. -/
structure MadtRead where
  start : Nat
  size : Nat
  entry : Option (Nat × Nat) := none
  deriving DecidableEq

/-- The bytes are in the table at `hdr`, and a payload is in its entry. -/
def MadtRead.Inside (m : Mem) (hdr : Nat) (r : MadtRead) : Prop :=
  hdr ≤ r.start ∧ r.start + r.size ≤ hdr + sdtLength m hdr ∧
    ∀ e ∈ r.entry, e.1 ≤ r.start ∧ r.start + r.size ≤ e.1 + e.2

namespace Madt

/-- The structure that the `switch` copies from the entry at `p`, or the address it takes. -/
def payloadReads (m : Mem) (p : Nat) : List MadtRead :=
  match (m p).toNat with
  | 0 => [⟨p + 2, 6, some (p, (m (p + 1)).toNat)⟩]
  | 1 => [⟨p + 2, 10, some (p, (m (p + 1)).toNat)⟩]
  | 2 => [⟨p + 2, 8, some (p, (m (p + 1)).toNat)⟩]
  | 3 => [⟨p + 2, 6, some (p, (m (p + 1)).toNat)⟩]
  | 4 => [⟨p + 2, 4, some (p, (m (p + 1)).toNat)⟩]
  | 5 => [⟨p + 4, 8, some (p, (m (p + 1)).toNat)⟩]
  | _ => []

/-- The type, the payload and the length of an entry that has a case in the `switch`. -/
def entryReads (m : Mem) (p : Nat) : List MadtRead :=
  ⟨p, 1, none⟩ :: payloadReads m p ++ [⟨p + 1, 1, none⟩]

/-- `entries` with its reads. -/
def entriesLog (m : Mem) (hdr : Nat) : Nat → Nat → Madt →
    List MadtRead × Except Fault (Madt × Bool)
  | 0, i, s => ([], if i < sdtLength m hdr then .error .hang else .ok (s, true))
  | fuel + 1, i, s =>
    if i < sdtLength m hdr then
      match entry m (hdr + i) s with
      | (s, false) => ([⟨hdr + i, 1, none⟩], .ok (s, false))
      | (s, true) =>
        let (log, r) := entriesLog m hdr fuel (i + (m (hdr + i + 1)).toNat) s
        (entryReads m (hdr + i) ++ log, r)
    else ([], .ok (s, true))

theorem entriesLog_entries (m : Mem) (hdr fuel i : Nat) (s : Madt) :
    (entriesLog m hdr fuel i s).2 = entries m hdr fuel i s := by
  induction fuel generalizing i s with
  | zero => rfl
  | succ fuel ih =>
    rw [entriesLog, entries]
    by_cases hi : i < sdtLength m hdr
    · rw [if_pos hi, if_pos hi]
      cases he : entry m (hdr + i) s with
      | mk t known =>
        cases known with
        | false => rfl
        | true => exact ih _ _
    · rw [if_neg hi, if_neg hi]

end Madt

/-- `acpi_parse_madt` with what it reads of the table, the checksum's bytes and the header's address
field included, over any number of rounds. -/
def acpiParseMadtLog (m : Mem) (s : Acpi) (rounds : Nat) :
    List MadtRead × Except Fault (Acpi × Bool) :=
  match acpiGetTable m s sigApic with
  | .error e => ([], .error e)
  | .ok hdr =>
    if hdr = 0 then ([], .ok ({ s with madt := { s.madt with hdr := hdr } }, false))
    else if !acpiIsValidSdtChecksum m hdr then
      ([⟨hdr, sdtLength m hdr, none⟩], .ok ({ s with madt := { s.madt with hdr := hdr } }, false))
    else
      let (log, r) := Madt.entriesLog m hdr rounds 44 (Madt.start hdr (load m (hdr + 36) 4))
      (⟨hdr, sdtLength m hdr, none⟩ :: ⟨hdr + 36, 4, none⟩ :: log, do
        let (madt, parsed) ← r
        return ({ s with madt := madt }, parsed))

/-- Without the reads it is the parser of the model. -/
theorem acpiParseMadtLog_parse {m : Mem} {s : Acpi} {hdr : Nat}
    (hget : acpiGetTable m s sigApic = .ok hdr) :
    (acpiParseMadtLog m s (sdtLength m hdr)).2 = acpiParseMadt m s := by
  unfold acpiParseMadtLog acpiParseMadt
  rw [hget, ok_bind]
  simp only
  split
  · rfl
  · split
    · rfl
    · simp only [Madt.entriesLog_entries]

/-- The bytes of a payload that the `switch` looks at, by type; types 9 and 10 are skipped. -/
def payloadSize : Nat → Option Nat
  | 0 => some 6
  | 1 => some 10
  | 2 => some 8
  | 3 => some 6
  | 4 => some 4
  | 5 => some 10
  | _ => none

/-- The type and the length of the entry at the offset `i` are in the table, and so is the payload
its type has, in the length it tells. -/
def EntryFits (m : Mem) (hdr i : Nat) : Prop :=
  i + 2 ≤ sdtLength m hdr ∧ ∀ n ∈ payloadSize (m (hdr + i)).toNat,
    2 + n ≤ (m (hdr + i + 1)).toNat ∧ i + 2 + n ≤ sdtLength m hdr

/-- Every entry the loop comes to fits, up to one of unknown type. -/
def EntriesFit (m : Mem) (hdr i : Nat) : Prop :=
  ∀ j, MadtWalk m hdr i j → j < sdtLength m hdr → KnownEntry m (hdr + j) → EntryFits m hdr j

section Reads

variable {m : Mem} {hdr : Nat}

theorem entryReads_inside_iff {i : Nat} (hk : KnownEntry m (hdr + i)) :
    (∀ r ∈ Madt.entryReads m (hdr + i), r.Inside m hdr) ↔ EntryFits m hdr i := by
  unfold KnownEntry at hk
  simp only [List.mem_cons, List.not_mem_nil, or_false] at hk
  unfold EntryFits Madt.entryReads Madt.payloadReads
  rcases hk with h | h | h | h | h | h | h | h
  all_goals
    rw [h]
    simp [MadtRead.Inside, payloadSize]
    omega

theorem entriesLog_known {i : Nat} (hi : i < sdtLength m hdr) (hk : KnownEntry m (hdr + i))
    (fuel : Nat) (s : Madt) : (Madt.entriesLog m hdr (fuel + 1) i s).1 =
      Madt.entryReads m (hdr + i) ++ (Madt.entriesLog m hdr fuel (i + (m (hdr + i + 1)).toNat)
        (Madt.entry m (hdr + i) s).1).1 := by
  rw [Madt.entriesLog, if_pos hi, entry_eq s hk]

theorem entriesLog_reads {i j : Nat} (hw : MadtWalk m hdr i j) (hj : j < sdtLength m hdr)
    (hk : KnownEntry m (hdr + j)) (s : Madt) : ∃ fuel, ∀ r ∈ Madt.entryReads m (hdr + j),
      r ∈ (Madt.entriesLog m hdr fuel i s).1 := by
  induction hw generalizing s with
  | refl =>
    refine ⟨1, fun r hr => ?_⟩
    rw [entriesLog_known hj hk]
    exact List.mem_append_left _ hr
  | @next i j hi hki _ ih =>
    obtain ⟨fuel, hread⟩ := ih hj hk (Madt.entry m (hdr + i) s).1
    refine ⟨fuel + 1, fun r hr => ?_⟩
    rw [entriesLog_known hi hki]
    exact List.mem_append_right _ (hread r hr)

theorem entriesLog_inside {i : Nat} (hfit : EntriesFit m hdr i) (fuel : Nat) (s : Madt)
    {r : MadtRead} (hr : r ∈ (Madt.entriesLog m hdr fuel i s).1) : r.Inside m hdr := by
  induction fuel generalizing i s with
  | zero => cases hr
  | succ fuel ih =>
    by_cases hi : i < sdtLength m hdr
    · by_cases hk : KnownEntry m (hdr + i)
      · rw [entriesLog_known hi hk] at hr
        rcases List.mem_append.mp hr with hr | hr
        · exact (entryReads_inside_iff hk).mpr (hfit i .refl hi hk) r hr
        · exact ih (fun j hw => hfit j (.next hi hk hw)) _ hr
      · rw [Madt.entriesLog, if_pos hi, entry_unknown s hk] at hr
        obtain rfl := List.mem_singleton.mp hr
        exact ⟨Nat.le_add_right _ _, by show hdr + i + 1 ≤ _; omega, by simp⟩
    · rw [Madt.entriesLog, if_neg hi] at hr
      cases hr

/-- What `acpi_parse_madt` reads of a table it accepts lies in the table, and every payload in its
entry, exactly where the address behind the header and all entries fit. -/
theorem madtReads_inside_iff {s : Acpi} (hget : acpiGetTable m s sigApic = .ok hdr) (hne : hdr ≠ 0)
    (hsum : acpiIsValidSdtChecksum m hdr = true) :
    (∀ rounds, ∀ r ∈ (acpiParseMadtLog m s rounds).1, r.Inside m hdr) ↔
      40 ≤ sdtLength m hdr ∧ EntriesFit m hdr 44 := by
  have hlog : ∀ rounds, (acpiParseMadtLog m s rounds).1 =
      ⟨hdr, sdtLength m hdr, none⟩ :: ⟨hdr + 36, 4, none⟩ ::
        (Madt.entriesLog m hdr rounds 44 (Madt.start hdr (load m (hdr + 36) 4))).1 := by
    intro rounds
    unfold acpiParseMadtLog
    rw [hget]
    simp only
    rw [if_neg hne, hsum]
    rfl
  constructor
  · intro hin
    refine ⟨?_, fun j hw hj hk => (entryReads_inside_iff hk).mp fun r hr => ?_⟩
    · have haddr := (hin 0 ⟨hdr + 36, 4, none⟩ (by rw [hlog]; simp)).2.1
      simp only at haddr
      omega
    · obtain ⟨fuel, hread⟩ := entriesLog_reads hw hj hk (Madt.start hdr (load m (hdr + 36) 4))
      refine hin fuel r ?_
      rw [hlog]
      simp [hread r hr]
  · intro hfit rounds r hr
    obtain ⟨hlen, hfit⟩ := hfit
    rw [hlog] at hr
    rcases List.mem_cons.mp hr with rfl | hr
    · exact ⟨Nat.le_refl _, Nat.le_refl _, by simp⟩
    · rcases List.mem_cons.mp hr with rfl | hr
      · exact ⟨by simp, by simp only; omega, by simp⟩
      · exact entriesLog_inside hfit rounds _ hr

end Reads

/-! ## Tables with one entry -/

/-- An RSDT at `0x1000` that lists a MADT whose one entry has the type and the length given, with
the byte that makes the checksum. -/
def madtOf (type length checksum : Byte) : Mem :=
  ofList 0x1000 (sigRsdt ++ [40, 0, 0, 0] ++ List.replicate 28 0 ++ [0x28, 0x10, 0, 0] ++
    (sigApic ++ [46, 0, 0, 0] ++ [0, checksum] ++ List.replicate 26 0 ++ List.replicate 8 0 ++
      [type, length]))

theorem smallMadt_walk {j : Nat} (hw : MadtWalk smallMadtMem 0x1028 44 j)
    (hj : j < sdtLength smallMadtMem 0x1028) : j = 44 ∨ j = 52 ∨ j = 55 := by
  have hlen : sdtLength smallMadtMem 0x1028 = 67 := by decide +kernel
  have h₁ : (smallMadtMem (0x1028 + 44 + 1)).toNat = 8 := by decide +kernel
  have h₂ : (smallMadtMem (0x1028 + 52 + 1)).toNat = 3 := by decide +kernel
  have h₃ : (smallMadtMem (0x1028 + 55 + 1)).toNat = 12 := by decide +kernel
  cases hw with
  | refl => exact .inl rfl
  | next _ _ hw =>
    rw [h₁] at hw
    cases hw with
    | refl => exact .inr (.inl rfl)
    | next _ _ hw =>
      rw [h₂] at hw
      cases hw with
      | refl => exact .inr (.inr rfl)
      | next _ _ hw =>
        rw [h₃] at hw
        cases hw with
        | refl => omega
        | next hi _ _ => omega

/-- A local APIC, an x2APIC and an address override: the parser goes through all three. -/
theorem acpiParseMadt_returns_small : MadtReturns smallMadtMem unparsed 0x1028 := by
  have hget : acpiGetTable smallMadtMem unparsed sigApic = .ok 0x1028 := by decide +kernel
  refine (acpiParseMadt_returns_iff hget (by decide) (by decide +kernel)).mpr ?_
  rintro ⟨j, hw, hj, _, hz⟩
  rcases smallMadt_walk hw hj with rfl | rfl | rfl
  · exact absurd hz (by decide +kernel)
  · exact absurd hz (by decide +kernel)
  · exact absurd hz (by decide +kernel)

/-- A local APIC entry of length zero is met again for ever. -/
theorem madt_stuck : acpiGetTable (madtOf 0 0 181) unparsed sigApic = .ok 0x1028 ∧
    acpiIsValidSdtChecksum (madtOf 0 0 181) 0x1028 = true ∧
    ¬ MadtReturns (madtOf 0 0 181) unparsed 0x1028 := by
  refine ⟨by decide +kernel, by decide +kernel, fun h => ?_⟩
  obtain ⟨⟨rounds, r, he⟩, _⟩ := h
  rw [entries_hang .refl (by decide +kernel) (by decide +kernel) (by decide +kernel)] at he
  cases he

/-- All three are read inside the table, and each payload inside its entry. -/
theorem madtReads_small : acpiGetTable smallMadtMem unparsed sigApic = .ok 0x1028 ∧
    ∀ rounds, ∀ r ∈ (acpiParseMadtLog smallMadtMem unparsed rounds).1,
      r.Inside smallMadtMem 0x1028 := by
  have hget : acpiGetTable smallMadtMem unparsed sigApic = .ok 0x1028 := by decide +kernel
  have hlen : sdtLength smallMadtMem 0x1028 = 67 := by decide +kernel
  refine ⟨hget, (madtReads_inside_iff hget (by decide) (by decide +kernel)).mpr ⟨by omega, ?_⟩⟩
  intro j hw hj _
  rcases smallMadt_walk hw hj with rfl | rfl | rfl
  · exact ⟨by omega, by decide +kernel⟩
  · exact ⟨by omega, by decide +kernel⟩
  · exact ⟨by omega, by decide +kernel⟩

/-- A local APIC entry of two bytes at the table's end: six bytes behind the table are copied. -/
theorem madt_overruns : acpiGetTable (madtOf 0 2 179) unparsed sigApic = .ok 0x1028 ∧
    acpiIsValidSdtChecksum (madtOf 0 2 179) 0x1028 = true ∧
    ¬ ∀ rounds, ∀ r ∈ (acpiParseMadtLog (madtOf 0 2 179) unparsed rounds).1,
      r.Inside (madtOf 0 2 179) 0x1028 := by
  refine ⟨by decide +kernel, by decide +kernel, fun h => ?_⟩
  have hin := h 1 ⟨0x1028 + 46, 6, some (0x1028 + 44, 2)⟩ (by decide +kernel)
  have hlen : sdtLength (madtOf 0 2 179) 0x1028 = 46 := by decide +kernel
  have hend := hin.2.1
  rw [hlen] at hend
  simp at hend

end BambooOS
