import BambooOS.Acpi.Arrays

/-!
# Acpi.Dispatch

Which handlers `acpi_parse_rsdt_tables` looks at and calls. The bound of its inner loop is
`sizeof(handlers)`, the array's 32 bytes, where the array has two elements.

* `dispatchLog`, `parseTablesEvents`: the two loops with what they look at and call.
* `dispatch_consults`: a pass that comes back has looked at all 32 places.
* `dispatchExact_iff`: so the dispatch is exact only for a root table without entries.
-/

namespace BambooOS

open ByteMem

/-- The signature of `handlers[index]` compared with an entry's; a handler that was called for the
entry and came back. -/
inductive DispatchEvent where
  | consult (entry index : Nat)
  | call (entry index : Nat) (success : Bool)
  deriving DecidableEq

/-- `dispatch` for the root table's entry number `entry`, with its events. -/
def dispatchLog (m : Mem) (parsed : Nat → ParsedTable) (entry header : Nat) :
    Nat → Nat → Acpi → List DispatchEvent × Except Fault Acpi
  | 0, _, s => ([], .ok s)
  | left + 1, i, s =>
    match handlers[i]? with
    | some h =>
      if acpiHeaderSignatureEquals m header h.signature then
        match h.handler m s with
        | .error e => ([.consult entry i], .error e)
        | .ok (s, success) =>
          let r := dispatchLog m parsed entry header left (i + 1)
            (if success then { s with acpiParsedTables := s.acpiParsedTables ++ [parsed i] } else s)
          (.consult entry i :: .call entry i success :: r.1, r.2)
      else
        let r := dispatchLog m parsed entry header left (i + 1) s
        (.consult entry i :: r.1, r.2)
    | none =>
      if acpiHeaderSignatureEquals m header (bytes m (s.handlersAt + 16 * i) 4) then
        ([.consult entry i], .error .wildCall)
      else
        let r := dispatchLog m parsed entry header left (i + 1) s
        (.consult entry i :: r.1, r.2)

/-- `parseTables` with its events. -/
def parseTablesEvents (m : Mem) (sdts : Nat → Nat) (parsed : Nat → ParsedTable) :
    Nat → Nat → Acpi → List DispatchEvent × Except Fault Acpi
  | 0, _, s => ([], .ok s)
  | left + 1, i, s =>
    match dispatchLog m parsed i (sdts i) 32 0 s with
    | (log, .error e) => (log, .error e)
    | (log, .ok s) =>
      let r := parseTablesEvents m sdts parsed left (i + 1) s
      (log ++ r.1, r.2)

def acpiParseRsdtTablesEvents (m : Mem) (s : Acpi) : List DispatchEvent × Except Fault Acpi :=
  if s.acpiIsXsdt then ([], .ok s)
  else logged (deref s.rsdt) fun rsdt =>
    parseTablesEvents m (s.rsdtEntry m) .handler (sdtEntries m rsdt 36 4) 0 s

section Erase

variable {m : Mem} {parsed : Nat → ParsedTable} {sdts : Nat → Nat}

theorem dispatchLog_dispatch (entry header left i : Nat) (s : Acpi) :
    (dispatchLog m parsed entry header left i s).2 = dispatch m parsed header left i s := by
  induction left generalizing i s with
  | zero => rfl
  | succ left ih =>
    rw [dispatchLog, dispatch]
    cases handlers[i]? with
    | none =>
      simp only
      split
      · rfl
      · exact ih _ _
    | some h =>
      simp only
      split
      · cases h.handler m s with
        | error e => rfl
        | ok r => exact ih _ _
      · exact ih _ _

theorem parseTablesEvents_parse (left i : Nat) (s : Acpi) :
    (parseTablesEvents m sdts parsed left i s).2 = parseTables m sdts parsed left i s := by
  induction left generalizing i s with
  | zero => rfl
  | succ left ih =>
    rw [parseTablesEvents, parseTables, ← dispatchLog_dispatch i]
    generalize dispatchLog m parsed i (sdts i) 32 0 s = d
    obtain ⟨log, r⟩ := d
    cases r with
    | error e => rfl
    | ok s => exact ih _ _

/-- Without the events it is the parser of the model. -/
theorem acpiParseRsdtTablesEvents_parse (s : Acpi) :
    (acpiParseRsdtTablesEvents m s).2 = acpiParseRsdtTables m s := by
  unfold acpiParseRsdtTablesEvents acpiParseRsdtTables
  split
  · rfl
  · cases deref s.rsdt with
    | error e => rfl
    | ok rsdt => rw [logged_ok, ok_bind, parseTablesEvents_parse]

end Erase

/-- The calls, as entry and handler, in order. -/
def callsOf (log : List DispatchEvent) : List (Nat × Nat) :=
  log.filterMap fun
    | .consult _ _ => none
    | .call entry index _ => some (entry, index)

/-- Each entry of the RSDT with the handlers of its signature. -/
def matchingCalls (m : Mem) (s : Acpi) : List (Nat × Nat) :=
  (List.range (sdtEntries m s.rsdt 36 4)).flatMap fun entry =>
    (List.range handlers.length).filterMap fun index =>
      match handlers[index]? with
      | some h =>
        if acpiHeaderSignatureEquals m (s.rsdtEntry m entry) h.signature then some (entry, index)
        else none
      | none => none

/-- The parse comes back, has looked at elements of `handlers` only, has called the handlers of each
entry's signature in order, and has marked the signatures whose handlers returned true. -/
def DispatchExact (m : Mem) (s : Acpi) : Prop :=
  ∃ log s', acpiParseRsdtTablesEvents m s = (log, .ok s') ∧
    (∀ entry index, .consult entry index ∈ log → index < handlers.length) ∧
    callsOf log = matchingCalls m s ∧
    ∀ signature, acpiHasParsed m s' signature = true ↔ ∃ entry index h,
      .call entry index true ∈ log ∧ handlers[index]? = some h ∧
        acpiSignaturesEqual signature h.signature = true

section Exact

variable {m : Mem} {parsed : Nat → ParsedTable} {sdts : Nat → Nat} {s s' : Acpi}

/-- A pass that comes back has looked at every place up to its bound. -/
theorem dispatch_consults {entry header left i : Nat} {log : List DispatchEvent}
    (e : dispatchLog m parsed entry header left i s = (log, .ok s')) {j : Nat} (hlo : i ≤ j)
    (hhi : j < i + left) : .consult entry j ∈ log := by
  induction left generalizing i s log with
  | zero => omega
  | succ left ih =>
    -- the place `i` is looked at first, the others are the rest of the pass
    have hstep : ∀ {t : Acpi} (pre : List DispatchEvent),
        (.consult entry i :: pre ++ (dispatchLog m parsed entry header left (i + 1) t).1,
          (dispatchLog m parsed entry header left (i + 1) t).2) = (log, .ok s') →
        .consult entry j ∈ log := by
      intro t pre he
      cases hr : dispatchLog m parsed entry header left (i + 1) t with
      | mk rest r =>
        rw [hr] at he
        cases he
        by_cases hij : j = i
        · simp [hij]
        · have hrest := ih hr (by omega) (by omega)
          simp [hrest]
    rw [dispatchLog] at e
    cases hh : handlers[i]? with
    | none =>
      rw [hh] at e
      simp only at e
      split at e
      · cases e
      · exact hstep [] e
    | some h =>
      rw [hh] at e
      simp only at e
      split at e
      · cases hrun : h.handler m s with
        | error f =>
          rw [hrun] at e
          cases e
        | ok r =>
          rw [hrun] at e
          exact hstep [.call entry i r.2] e
      · exact hstep [] e

/-- A first entry is enough to look behind the array. -/
theorem parseTablesEvents_consults {left : Nat} {log : List DispatchEvent}
    (e : parseTablesEvents m sdts parsed (left + 1) 0 s = (log, .ok s')) :
    .consult 0 2 ∈ log := by
  rw [parseTablesEvents] at e
  cases hd : dispatchLog m parsed 0 (sdts 0) 32 0 s with
  | mk first r =>
    rw [hd] at e
    cases r with
    | error f => cases e
    | ok t =>
      have hmem := dispatch_consults hd (j := 2) (by omega) (by omega)
      obtain ⟨rfl, _⟩ := Prod.mk.inj e
      simp [hmem]

/-- From a validated RSDT and no parsed tables, the dispatch is exact only where there is nothing to
dispatch. -/
theorem dispatchExact_iff (hr : s.Rooted) (hp : s.acpiParsedTables = []) :
    DispatchExact m s ↔ sdtEntries m s.rsdt 36 4 = 0 := by
  have hrun : acpiParseRsdtTablesEvents m s =
      parseTablesEvents m (s.rsdtEntry m) .handler (sdtEntries m s.rsdt 36 4) 0 s := by
    rw [acpiParseRsdtTablesEvents, hr.1, if_neg Bool.false_ne_true, deref_ne_zero hr.2, logged_ok]
  unfold DispatchExact matchingCalls
  rw [hrun]
  generalize sdtEntries m s.rsdt 36 4 = n
  cases n with
  | zero =>
    refine iff_of_true ⟨[], s, rfl, by simp, rfl, fun signature => ?_⟩ rfl
    simp [acpiHasParsed, hp]
  | succ n =>
    refine iff_of_false (fun h => ?_) (Nat.succ_ne_zero n)
    obtain ⟨log, s', e, hin, _⟩ := h
    have hout := hin 0 2 (parseTablesEvents_consults e)
    simp [handlers] at hout

end Exact

/-! ## Two root tables -/

/-- An RSDT at `0x1000` that lists nothing. -/
def emptyRsdt : Mem := ofList 0x1000 (sigRsdt ++ [36, 0, 0, 0] ++ [0, 159] ++ List.replicate 26 0)

theorem dispatchExact_empty : DispatchExact emptyRsdt unparsed :=
  (dispatchExact_iff (s := unparsed) ⟨rfl, by decide⟩ rfl).mpr (by decide +kernel)

/-- An RSDT at `0x1000` that lists a MADT without entries, both with their checksums. -/
def listedMadt : Mem :=
  ofList 0x1000 (sigRsdt ++ [40, 0, 0, 0] ++ [0, 99] ++ List.replicate 26 0 ++ [0x28, 0x10, 0, 0] ++
    (sigApic ++ [44, 0, 0, 0] ++ [0, 183] ++ List.replicate 34 0))

/-- The place behind the last handler is compared with its signature. -/
theorem dispatch_overruns : RsdtAccepted listedMadt 0x1000 ∧ ¬ DispatchExact listedMadt unparsed := by
  refine ⟨by decide +kernel, fun h => ?_⟩
  obtain ⟨log, s', e, hin, _⟩ := h
  have hmem : .consult 0 2 ∈ (acpiParseRsdtTablesEvents listedMadt unparsed).1 := by decide +kernel
  rw [e] at hmem
  have hout := hin 0 2 hmem
  simp [handlers] at hout

end BambooOS
