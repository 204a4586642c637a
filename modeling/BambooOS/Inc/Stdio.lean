import BambooOS.Rendering.Number

/-!
# Inc.Stdio

`printf` of `inc/stdio.c`, with the indices it uses on its format. After a percent sign it goes two
characters on, whatever the second one is.

* `printfScan_mem`: the scan for a space stops at the NUL.
* `printfLoop_succ`: the loop keeps to the format exactly if its round and the rest of the run do.
* `formatKept_iff`: no index is behind the NUL exactly for formats that do not end in a percent sign
  of their own and that an `int` can count.
-/

namespace BambooOS

/-! ## The source's function -/

def percent : BitVec 8 := 0x25

def ascii (c : Char) : BitVec 8 := BitVec.ofNat 8 c.toNat

/-- What `va_arg` makes of an argument at the types `printf` asks for. -/
structure VaArg where
  int : BitVec 32 := 0
  u64 : BitVec 64 := 0
  string : List (BitVec 8) := []

/-- The loop's index, the arguments taken, `print_colour` and the console. -/
structure PrintfState where
  i : BitVec 32 := 0
  arg : Nat := 0
  printColour : Nat
  console : Console

section Printf

variable (fb : BambooFb) (font : BambooFont) (format : Int → BitVec 8) (args : Nat → VaArg)

/-- The `switch` on the character after a percent sign. -/
def printfConvert (c : BitVec 8) (st : PrintfState) : Except Fault PrintfState := do
  let val := args st.arg
  let number (v : BitVec 64) (base : Nat) (isSigned capitalise : Bool) : Except Fault PrintfState := do
    let r ← rendererDrawNumber fb font v base isSigned capitalise st.printColour st.console
    return { st with arg := st.arg + 1, console := r.1 }
  if c = ascii 'c' then
    return { st with
      arg := st.arg + 1
      console := st.console.drawChar fb font (val.int.setWidth 8) st.printColour }
  else if c = ascii 's' then
    let console ← rendererDrawString fb font st.printColour val.string st.console
    return { st with arg := st.arg + 1, console := console }
  else if c = ascii 'u' then number val.u64 10 false true
  else if c = ascii 'd' then number (val.int.signExtend 64) 10 true true
  else if c = ascii 'X' then number val.u64 16 false true
  else if c = ascii 'x' then number val.u64 16 false false
  else if c = ascii 'C' then return { st with arg := st.arg + 1, printColour := val.int.toNat }
  else return st

/-- The scan over the next `n` characters from `format[i + j]` on, where `i` is widened to 64 bits:
is there a space among them, or the NUL? With the indices used. -/
def printfScan (i : BitVec 32) : Nat → Nat → Bool → Bool × List Int
  | 0, _, isSpace => (isSpace, [])
  | n + 1, j, isSpace =>
    let at' := (i.signExtend 64 + BitVec.ofNat 64 j).toInt
    if format at' = 0 then (true, [at'])
    else
      let r := printfScan i n (j + 1) (isSpace || decide (format at' = space))
      (r.1, at' :: r.2)

/-- The word wrap before a space and before the first character. -/
def printfWrap (st : PrintfState) : Except Fault (Console × List Int) := do
  if format st.i.toInt = space ∨ st.i = 0 then
    let charsLeft ← rendererCharsLeftOnLine fb font st.console.renderer
    let charsPerLine ← rendererCharsPerLine fb font
    if charsLeft < charsPerLine then
      let r := printfScan format st.i ((charsLeft + 1) % 2 ^ 64 - 1) 1 false
      let broken := st.console.drawChar fb font newline 0
      let broken := if st.i = 0 then broken.drawChar fb font space 0 else broken
      return (if r.1 then st.console else broken, r.2)
    else return (st.console, [])
  else return (st.console, [])

/-- One round of the loop, `none` at the NUL, with the indices used on the format; arithmetic on the
`int` wraps around. -/
def printfStep (st : PrintfState) : List Int × Except Fault (Option PrintfState) :=
  let c := format st.i.toInt
  if c = 0 then ([st.i.toInt], .ok none)
  else if c = percent then
    ([st.i.toInt, (st.i + 1).toInt], do
      let st' ← printfConvert fb font args (format (st.i + 1).toInt) st
      return some { st' with i := st.i + 2 })
  else
    match printfWrap fb font format st with
    | .error e => ([st.i.toInt], .error e)
    | .ok (console, used) => (st.i.toInt :: used, .ok (some { st with
        i := st.i + 1
        console := console.drawChar fb font c st.printColour }))

def printfLoop : Nat → PrintfState → List Int × Except Fault PrintfState
  | 0, _ => ([], .error .hang)
  | fuel + 1, st =>
    match printfStep fb font format args st with
    | (used, .error e) => (used, .error e)
    | (used, .ok none) => (used, .ok st)
    | (used, .ok (some st')) =>
      let r := printfLoop fuel st'
      (used ++ r.1, r.2)

/-- `printf(format, ...)`, which leaves `print_colour` as it found it. -/
def printf (fuel printColour : Nat) (s : Console) : List Int × Except Fault (Console × Nat) :=
  let r := printfLoop fb font format args fuel { printColour := printColour, console := s }
  (r.1, r.2.map fun st => (st.console, printColour))

end Printf

/-! ## Strings -/

/-- The characters from `format` on are those of `cs`, with a NUL behind them. -/
structure IsCString (format : Int → BitVec 8) (cs : List (BitVec 8)) : Prop where
  char : ∀ k (h : k < cs.length), format k = cs[k]
  nonzero : ∀ c ∈ cs, c ≠ 0
  nul : format cs.length = 0

/-- A string in memory, with NULs around it. -/
def formatOf (cs : List (BitVec 8)) (k : Int) : BitVec 8 := if k < 0 then 0 else cs.getD k.toNat 0

theorem formatOf_isCString {cs : List (BitVec 8)} (h : ∀ c ∈ cs, c ≠ 0) :
    IsCString (formatOf cs) cs where
  char k hk := by simp [formatOf, hk]
  nonzero := h
  nul := by simp [formatOf]

/-- Taking every percent sign with the character behind it, the last one has none. -/
def endsOpen : List (BitVec 8) → Bool
  | [] => false
  | [c] => decide (c = percent)
  | c :: d :: cs => if c = percent then endsOpen cs else endsOpen (d :: cs)

/-- The indices do not go behind the NUL. -/
def InFormat (cs : List (BitVec 8)) (used : List Int) : Prop := ∀ k ∈ used, 0 ≤ k ∧ k ≤ cs.length

/-- However long `printf` runs, it does not read past its format. -/
def FormatKept (fb : BambooFb) (font : BambooFont) (format : Int → BitVec 8) (args : Nat → VaArg)
    (cs : List (BitVec 8)) (printColour : Nat) (s : Console) : Prop :=
  ∀ fuel, InFormat cs (printf fb font format args fuel printColour s).1

section Index

theorem toInt_small {p : Nat} (hp : p < 2 ^ 31) : (BitVec.ofNat 32 p).toInt = p := by
  rw [BitVec.toInt_eq_toNat_of_lt]
  · rw [BitVec.toNat_ofNat, Nat.mod_eq_of_lt (by omega)]
  · rw [BitVec.toNat_ofNat, Nat.mod_eq_of_lt (by omega)]
    omega

/-- An `int` behind the largest one is negative. -/
theorem toInt_wrapped {p : Nat} (hp : 2 ^ 31 ≤ p) (hp' : p < 2 ^ 32) :
    (BitVec.ofNat 32 p).toInt < 0 := by
  rw [BitVec.toInt_eq_toNat_cond, BitVec.toNat_ofNat, Nat.mod_eq_of_lt hp', if_neg (by omega)]
  omega

theorem toInt_index {p j : Nat} (hp : p < 2 ^ 31) (hj : p + j < 2 ^ 31) :
    ((BitVec.ofNat 32 p).signExtend 64 + BitVec.ofNat 64 j).toInt = p + j := by
  have hext : ((BitVec.ofNat 32 p).signExtend 64).toInt = p := by
    rw [BitVec.toInt_signExtend_of_le (by omega), toInt_small hp]
  have hj' : (BitVec.ofNat 64 j).toInt = j := by
    rw [BitVec.toInt_eq_toNat_of_lt]
    · rw [BitVec.toNat_ofNat, Nat.mod_eq_of_lt (by omega)]
    · rw [BitVec.toNat_ofNat, Nat.mod_eq_of_lt (by omega)]
      omega
  rw [BitVec.toInt_add, hext, hj', Int.bmod_eq_of_le (by omega) (by omega)]

end Index

section Kept

variable {fb : BambooFb} {font : BambooFont} {format : Int → BitVec 8} {args : Nat → VaArg}
  {cs : List (BitVec 8)} {st : PrintfState}

theorem IsCString.at_lt (h : IsCString format cs) {p : Nat} (hp : p < cs.length) : format p ≠ 0 := by
  rw [h.char p hp]
  exact h.nonzero _ (List.getElem_mem hp)

theorem inFormat_nil : InFormat cs [] := by
  intro k hk
  cases hk

theorem inFormat_cons {k : Int} {used : List Int} :
    InFormat cs (k :: used) ↔ (0 ≤ k ∧ k ≤ cs.length) ∧ InFormat cs used := by
  simp [InFormat]

theorem inFormat_append {used used' : List Int} :
    InFormat cs (used ++ used') ↔ InFormat cs used ∧ InFormat cs used' := by
  constructor
  · intro h
    exact ⟨fun k hk => h k (List.mem_append_left _ hk), fun k hk => h k (List.mem_append_right _ hk)⟩
  · intro h k hk
    cases List.mem_append.mp hk with
    | inl hk => exact h.1 k hk
    | inr hk => exact h.2 k hk

/-! ## The scan -/

/-- The scan stops at the NUL. -/
theorem printfScan_mem (h : IsCString format cs) (hlen : cs.length < 2 ^ 31) {p : Nat}
    (n : Nat) {j : Nat} (hj : p + j ≤ cs.length) (isSpace : Bool) :
    InFormat cs (printfScan format (BitVec.ofNat 32 p) n j isSpace).2 := by
  induction n generalizing j isSpace with
  | zero => exact inFormat_nil
  | succ n ih =>
    have hat : ((BitVec.ofNat 32 p).signExtend 64 + BitVec.ofNat 64 j).toInt = ((p + j : Nat) : Int) := by
      rw [toInt_index (by omega) (by omega)]
      omega
    have hhere : (0 : Int) ≤ ((p + j : Nat) : Int) ∧ ((p + j : Nat) : Int) ≤ cs.length := by omega
    rw [printfScan]
    simp only [hat]
    split
    · exact inFormat_cons.mpr ⟨hhere, inFormat_nil⟩
    · next hnul =>
      have hlt : p + j ≠ cs.length := by
        intro he
        rw [he] at hnul
        exact hnul h.nul
      exact inFormat_cons.mpr ⟨hhere, ih (by omega) _⟩

theorem printfWrap_mem (h : IsCString format cs) (hlen : cs.length < 2 ^ 31) {p : Nat}
    (hp : p < cs.length) (hi : st.i = BitVec.ofNat 32 p) {s : Console} {used : List Int}
    (e : printfWrap fb font format st = .ok (s, used)) : InFormat cs used := by
  unfold printfWrap at e
  split at e
  · obtain ⟨charsLeft, _, e⟩ := bind_ok e
    obtain ⟨charsPerLine, _, e⟩ := bind_ok e
    split at e
    · have hscan := printfScan_mem h hlen ((charsLeft + 1) % 2 ^ 64 - 1)
        (show p + 1 ≤ cs.length from hp) false
      rw [hi] at e
      cases e
      exact hscan
    · cases e
      exact inFormat_nil
  · cases e
    exact inFormat_nil

/-! ## A round -/

theorem printfStep_head : st.i.toInt ∈ (printfStep fb font format args st).1 := by
  unfold printfStep
  dsimp only
  split
  · exact List.mem_singleton_self _
  · split
    · exact List.mem_cons_self
    · split
      · exact List.mem_singleton_self _
      · exact List.mem_cons_self

/-- A round that starts in the format reads nothing behind it. -/
theorem printfStep_mem (h : IsCString format cs) (hlen : cs.length < 2 ^ 31) {p : Nat}
    (hp : p ≤ cs.length) (hi : st.i = BitVec.ofNat 32 p) :
    InFormat cs (printfStep fb font format args st).1 := by
  have hat : st.i.toInt = p := by rw [hi, toInt_small (by omega)]
  have hhere : 0 ≤ st.i.toInt ∧ st.i.toInt ≤ cs.length := by omega
  have hone : InFormat cs [st.i.toInt] := inFormat_cons.mpr ⟨hhere, inFormat_nil⟩
  unfold printfStep
  dsimp only
  split
  · exact hone
  · next hc =>
    have hlt : p < cs.length := by
      refine Nat.lt_of_le_of_ne hp fun he => hc ?_
      rw [hat, he]
      exact h.nul
    split
    · have hnext : (st.i + 1).toInt = ((p + 1 : Nat) : Int) := by
        rw [hi, show (1 : BitVec 32) = BitVec.ofNat 32 1 from rfl, ← BitVec.ofNat_add,
          toInt_small (by omega)]
      refine inFormat_cons.mpr ⟨hhere, inFormat_cons.mpr ⟨?_, inFormat_nil⟩⟩
      rw [hnext]
      omega
    · split
      · exact hone
      · next e => exact inFormat_cons.mpr ⟨hhere, printfWrap_mem h hlen hlt hi e⟩

/-- The next round is one character on, or two after a percent sign. -/
theorem printfStep_next (h : IsCString format cs) {p : Nat} (hp : p ≤ cs.length) (hp' : p < 2 ^ 31)
    (hi : st.i = BitVec.ofNat 32 p) {st' : PrintfState}
    (e : (printfStep fb font format args st).2 = .ok (some st')) :
    ∃ hlt : p < cs.length, st'.i = BitVec.ofNat 32 (if cs[p] = percent then p + 2 else p + 1) := by
  have hat : st.i.toInt = p := by rw [hi, toInt_small hp']
  unfold printfStep at e
  dsimp only at e
  rw [hat] at e
  split at e
  · cases e
  · next hc =>
    have hlt : p < cs.length := by
      refine Nat.lt_of_le_of_ne hp fun he => hc ?_
      rw [he]
      exact h.nul
    refine ⟨hlt, ?_⟩
    rw [h.char p hlt] at e
    split at e
    · next hpercent =>
      obtain ⟨st'', _, e⟩ := bind_ok e
      cases e
      rw [if_pos hpercent, BitVec.ofNat_add, ← hi]
      rfl
    · next hpercent =>
      split at e
      · cases e
      · cases e
        rw [if_neg hpercent, BitVec.ofNat_add, ← hi]
        rfl

/-! ## A font with a width -/

theorem printfConvert_returns (fb : BambooFb) (args : Nat → VaArg) (hw : 0 < font.width)
    (c : BitVec 8) (st : PrintfState) :
    ∃ st', printfConvert fb font args c st = .ok st' := by
  have hnumber : ∀ (v : BitVec 64) (base : Nat) (isSigned capitalise : Bool), 2 ≤ base → base ≤ 20 →
      ∃ r, rendererDrawNumber fb font v base isSigned capitalise st.printColour st.console = .ok r :=
    fun v base isSigned capitalise h2 h20 => ⟨_, rendererDrawNumber_spec h2 h20 st.console⟩
  unfold printfConvert
  dsimp only
  split
  · exact ⟨_, rfl⟩
  split
  · obtain ⟨s, e⟩ := rendererDrawString_returns fb hw st.printColour
      (args st.arg).string st.console
    rw [e]
    exact ⟨_, rfl⟩
  split
  · obtain ⟨r, e⟩ := hnumber (args st.arg).u64 10 false true (by decide) (by decide)
    rw [e]
    exact ⟨_, rfl⟩
  split
  · obtain ⟨r, e⟩ := hnumber ((args st.arg).int.signExtend 64) 10 true true (by decide) (by decide)
    rw [e]
    exact ⟨_, rfl⟩
  split
  · obtain ⟨r, e⟩ := hnumber (args st.arg).u64 16 false true (by decide) (by decide)
    rw [e]
    exact ⟨_, rfl⟩
  split
  · obtain ⟨r, e⟩ := hnumber (args st.arg).u64 16 false false (by decide) (by decide)
    rw [e]
    exact ⟨_, rfl⟩
  split
  · exact ⟨_, rfl⟩
  · exact ⟨_, rfl⟩

theorem printfWrap_returns (fb : BambooFb) (format : Int → BitVec 8) (hw : 0 < font.width)
    (st : PrintfState) :
    ∃ r, printfWrap fb font format st = .ok r := by
  have hw' : ¬ font.width = 0 := by omega
  simp only [printfWrap, rendererCharsLeftOnLine, rendererCharsPerLine, if_neg hw', ok_bind]
  split
  · split
    · exact ⟨_, rfl⟩
    · exact ⟨_, rfl⟩
  · exact ⟨_, rfl⟩

theorem printfStep_returns (fb : BambooFb) (args : Nat → VaArg) (h : IsCString format cs)
    (hw : 0 < font.width) {p : Nat} (hp : p < cs.length) (hp' : p < 2 ^ 31)
    (hi : st.i = BitVec.ofNat 32 p) :
    ∃ st', (printfStep fb font format args st).2 = .ok (some st') := by
  have hat : st.i.toInt = p := by rw [hi, toInt_small hp']
  unfold printfStep
  dsimp only
  rw [hat, if_neg (h.at_lt hp)]
  split
  · obtain ⟨st', e⟩ := printfConvert_returns fb args hw
      (format (st.i + 1).toInt) st
    rw [e]
    exact ⟨_, rfl⟩
  · obtain ⟨⟨s, used⟩, e⟩ := printfWrap_returns fb format hw st
    rw [e]
    exact ⟨_, rfl⟩

theorem printfStep_end (h : IsCString format cs) (hlen : cs.length < 2 ^ 31)
    (hi : st.i = BitVec.ofNat 32 cs.length) :
    printfStep fb font format args st = ([st.i.toInt], .ok none) := by
  have hat : st.i.toInt = cs.length := by rw [hi, toInt_small hlen]
  unfold printfStep
  dsimp only
  rw [hat, if_pos h.nul]

/-! ## Runs -/

/-- The loop keeps to the format exactly if the round does and the run from the next one. -/
theorem printfLoop_succ {fuel : Nat} : InFormat cs (printfLoop fb font format args (fuel + 1) st).1 ↔
    InFormat cs (printfStep fb font format args st).1 ∧
      ∀ st', (printfStep fb font format args st).2 = .ok (some st') →
        InFormat cs (printfLoop fb font format args fuel st').1 := by
  rw [printfLoop]
  generalize printfStep fb font format args st = r
  obtain ⟨used, r⟩ := r
  cases r with
  | error e => simp
  | ok r =>
    cases r with
    | none => simp
    | some st' => simp [inFormat_append]

theorem endsOpen_literal {p : Nat} (hp : p < cs.length) (hc : cs[p] ≠ percent) :
    endsOpen (cs.drop p) = endsOpen (cs.drop (p + 1)) := by
  rw [List.drop_eq_getElem_cons hp]
  cases hrest : cs.drop (p + 1) with
  | nil => simp [endsOpen, hc]
  | cons d rest => rw [endsOpen, if_neg hc]

theorem endsOpen_percent {p : Nat} (hp : p < cs.length) (hc : cs[p] = percent) :
    endsOpen (cs.drop p) = false ↔ p + 2 ≤ cs.length ∧ endsOpen (cs.drop (p + 2)) = false := by
  rw [List.drop_eq_getElem_cons hp, hc]
  by_cases hp2 : p + 1 < cs.length
  · rw [List.drop_eq_getElem_cons hp2, endsOpen, if_pos rfl]
    simp only [and_iff_right (show p + 2 ≤ cs.length from hp2)]
  · rw [List.drop_of_length_le (by omega)]
    simp [endsOpen, show ¬ p + 2 ≤ cs.length by omega]

/-- From a place where no percent sign is left open at the end, the loop keeps to its format. -/
theorem printfLoop_mem (h : IsCString format cs) (hlen : cs.length < 2 ^ 31) {p : Nat}
    (hp : p ≤ cs.length) (hopen : endsOpen (cs.drop p) = false) (hi : st.i = BitVec.ofNat 32 p)
    (fuel : Nat) : InFormat cs (printfLoop fb font format args fuel st).1 := by
  induction fuel generalizing p st with
  | zero => exact inFormat_nil
  | succ fuel ih =>
    refine printfLoop_succ.mpr ⟨printfStep_mem h hlen hp hi, fun st' e => ?_⟩
    obtain ⟨hlt, hi'⟩ := printfStep_next h hp (by omega) hi e
    by_cases hc : cs[p] = percent
    · rw [if_pos hc] at hi'
      obtain ⟨hp2, hopen'⟩ := (endsOpen_percent hlt hc).mp hopen
      exact ih hp2 hopen' hi'
    · rw [if_neg hc] at hi'
      rw [endsOpen_literal hlt hc] at hopen
      exact ih hlt hopen hi'

/-- A run that keeps to its format has met no open percent sign, and its index never wrapped. -/
theorem printfLoop_kept (h : IsCString format cs) (hw : 0 < font.width) {st : PrintfState}
    {p : Nat} (hp : p ≤ cs.length) (hp' : p < 2 ^ 31) (hi : st.i = BitVec.ofNat 32 p)
    (hk : ∀ fuel, InFormat cs (printfLoop fb font format args fuel st).1) :
    cs.length < 2 ^ 31 ∧ endsOpen (cs.drop p) = false := by
  by_cases hend : p = cs.length
  · refine ⟨by omega, ?_⟩
    rw [hend, List.drop_length]
    rfl
  · have hlt : p < cs.length := by omega
    obtain ⟨st', e⟩ := printfStep_returns fb args h hw hlt hp' hi
    obtain ⟨_, hi'⟩ := printfStep_next h hp hp' hi e
    have hk' : ∀ fuel, InFormat cs (printfLoop fb font format args fuel st').1 := fun fuel =>
      (printfLoop_succ.mp (hk (fuel + 1))).2 st' e
    have hhead := (printfLoop_succ.mp (hk' 1)).1 _ printfStep_head
    have hplace : ∀ {q : Nat}, st'.i = BitVec.ofNat 32 q → q < 2 ^ 32 → q ≤ cs.length ∧ q < 2 ^ 31 := by
      intro q hq hq'
      rw [hq] at hhead
      by_cases hsmall : q < 2 ^ 31
      · rw [toInt_small hsmall] at hhead
        omega
      · have := toInt_wrapped (by omega) hq'
        omega
    by_cases hc : cs[p] = percent
    · rw [if_pos hc] at hi'
      obtain ⟨hp2, hp2'⟩ := hplace hi' (by omega)
      obtain ⟨hlen, hopen⟩ := printfLoop_kept h hw hp2 hp2' hi' hk'
      exact ⟨hlen, (endsOpen_percent hlt hc).mpr ⟨hp2, hopen⟩⟩
    · rw [if_neg hc] at hi'
      obtain ⟨hp1, hp1'⟩ := hplace hi' (by omega)
      obtain ⟨hlen, hopen⟩ := printfLoop_kept h hw hp1 hp1' hi' hk'
      exact ⟨hlen, by rw [endsOpen_literal hlt hc, hopen]⟩
termination_by cs.length - p

/-- Formats without an open percent sign at the end are not read past, if an `int` can count them;
and where the font has a size, so that no division faults, no others. -/
theorem formatKept_iff (h : IsCString format cs) (printColour : Nat) (s : Console) :
    (cs.length < 2 ^ 31 ∧ endsOpen cs = false →
      FormatKept fb font format args cs printColour s) ∧
    (font.Sized → (FormatKept fb font format args cs printColour s ↔
      cs.length < 2 ^ 31 ∧ endsOpen cs = false)) := by
  have hto : cs.length < 2 ^ 31 ∧ endsOpen cs = false →
      FormatKept fb font format args cs printColour s := fun ⟨hlen, hopen⟩ fuel =>
    printfLoop_mem h hlen (Nat.zero_le _) hopen rfl fuel
  refine ⟨hto, fun hf => ⟨fun hk => ?_, hto⟩⟩
  exact printfLoop_kept h hf.width (Nat.zero_le _) (by decide) rfl hk

end Kept

/-! ## A lone percent sign -/

def percentFormat (k : Int) : BitVec 8 := if k = 0 then percent else 0

/-- `printf("%")` reads `format[2]`. -/
theorem percent_readPast :
    IsCString percentFormat [percent] ∧
      ¬ FormatKept smallFb smallFont percentFormat (fun _ => {}) [percent] 0xFFFFFF {} := by
  refine ⟨⟨fun k hk => ?_, by decide, by decide⟩, fun h => ?_⟩
  · have hk0 : k = 0 := by simpa using hk
    subst hk0
    rfl
  · have hpast : (2 : Int) ∈
        (printf smallFb smallFont percentFormat (fun _ => {}) 2 0xFFFFFF {}).1 := by
      decide +kernel
    have := (h 2 _ hpast).2
    simp at this

/-- `"%%"`. -/
def percentsFormat (k : Int) : BitVec 8 := if k = 0 ∨ k = 1 then percent else 0

theorem percents_kept :
    FormatKept smallFb smallFont percentsFormat (fun _ => {}) [percent, percent] 0xFFFFFF {} := by
  refine (formatKept_iff ⟨fun k hk => ?_, by decide, by decide⟩ 0xFFFFFF {}).1 (by decide)
  have hk2 : k = 0 ∨ k = 1 := by
    simp at hk
    omega
  cases hk2 with
  | inl hk0 =>
    subst hk0
    rfl
  | inr hk1 =>
    subst hk1
    rfl

end BambooOS
