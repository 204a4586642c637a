import BambooOS.Inc.Stdio
import BambooOS.Rendering.Room

/-!
# Inc.Format

What `printf` prints: its format with each conversion replaced by its argument, numbers as they are
written by hand. Before a space, and before the format's first word, the console may go on in a new
line; nothing else is added, left out or drawn in another colour.

* `toDigits_numerals`, `signedText_eq`: the digits of `renderer_draw_number` are those of a number.
* `rendererDrawString_wraps`: a string is drawn with line breaks before spaces.
* `printfConvert_spec`: a conversion prints its text, sets the colour or does nothing.
* `printf_prints`: so the whole format is printed.
-/

namespace BambooOS

/-! ## The text of a format -/

def asciiText (s : String) : List (BitVec 8) := s.toList.map ascii

/-- `0x` and the digits. -/
def hexText (capitalise : Bool) (v : BitVec 64) : List (BitVec 8) :=
  asciiText "0x" ++
    (Nat.toDigits 16 v.toNat).map fun c => ascii (if capitalise then c.toUpper else c)

/-- What the character after a percent sign asks for. -/
inductive Conversion where
  | text (t : List (BitVec 8))
  | colour (n : Nat)
  | nothing

def conversion (c : BitVec 8) (val : VaArg) : Conversion :=
  if c = ascii 'c' then .text [val.int.setWidth 8]
  else if c = ascii 's' then .text val.string
  else if c = ascii 'u' then .text (asciiText (toString val.u64.toNat))
  else if c = ascii 'd' then .text (asciiText (toString val.int.toInt))
  else if c = ascii 'X' then .text (hexText true val.u64)
  else if c = ascii 'x' then .text (hexText false val.u64)
  else if c = ascii 'C' then .colour val.int.toNat
  else .nothing

/-- The characters of a format and their colours, from the argument `arg` and a colour on. -/
def formatted (args : Nat → VaArg) : List (BitVec 8) → Nat → Nat → List (BitVec 8 × Nat)
  | [], _, _ => []
  | [c], _, colour => [(c, colour)]
  | c :: d :: cs, arg, colour =>
    if c = percent then
      match conversion d (args arg) with
      | .text t => t.map (·, colour) ++ formatted args cs (arg + 1) colour
      | .colour colour' => formatted args cs (arg + 1) colour'
      | .nothing => formatted args cs arg colour
    else (c, colour) :: formatted args (d :: cs) arg colour

/-- A text with line breaks before some of its spaces. -/
inductive Wrapped : List (BitVec 8 × Nat) → List (BitVec 8 × Nat) → Prop where
  | nil : Wrapped [] []
  | keep (t : BitVec 8 × Nat) {ts ps : List (BitVec 8 × Nat)} :
      Wrapped ts ps → Wrapped (t :: ts) (t :: ps)
  | wrap (colour : Nat) {ts ps : List (BitVec 8 × Nat)} :
      Wrapped ts ps → Wrapped ((space, colour) :: ts) ((newline, 0) :: (space, colour) :: ps)

namespace Wrapped

theorem refl (ts : List (BitVec 8 × Nat)) : Wrapped ts ts := by
  induction ts with
  | nil => exact .nil
  | cons t ts ih => exact .keep t ih

theorem eq_of_no_space {ts ps : List (BitVec 8 × Nat)} (h : Wrapped ts ps)
    (hno : ∀ t ∈ ts, t.1 ≠ space) : ps = ts := by
  induction h with
  | nil => rfl
  | keep t _ ih => rw [ih fun u hu => hno u (List.mem_cons_of_mem t hu)]
  | wrap colour _ _ => exact absurd rfl (hno (space, colour) List.mem_cons_self)

theorem append {ts ps ts' ps' : List (BitVec 8 × Nat)} (h : Wrapped ts ps) (h' : Wrapped ts' ps') :
    Wrapped (ts ++ ts') (ps ++ ps') := by
  induction h with
  | nil => exact h'
  | keep t _ ih => exact .keep t ih
  | wrap colour _ ih => exact .wrap colour ih

end Wrapped

/-! ## Numbers -/

section Number

variable {base m : Nat}

theorem digitChar_ascii {d : Nat} (hd : d < 16) (capitalise : Bool) :
    digitChar capitalise d =
      ascii (if capitalise then (Nat.digitChar d).toUpper else Nat.digitChar d) := by
  revert d capitalise
  decide

/-- The digits of the loop, from the last one back. -/
theorem toDigits_numerals (hb : 1 < base) (h16 : base ≤ 16) (capitalise : Bool) (m : Nat) :
    ((numerals base m).map (digitChar capitalise)).reverse =
      (Nat.toDigits base m).map fun c => ascii (if capitalise then c.toUpper else c) := by
  induction m using Nat.strongRecOn with
  | ind m ih =>
    have hmod : m % base < 16 := Nat.lt_of_lt_of_le (Nat.mod_lt m (by omega)) h16
    rw [numerals_step hb, Nat.toDigits_eq_if hb]
    by_cases hlt : m < base
    · have hdiv : ¬ m / base > 0 := by simp [Nat.div_eq_of_lt hlt]
      rw [if_pos hlt, if_neg hdiv, Nat.mod_eq_of_lt hlt] at *
      simp [digitChar_ascii hmod]
    · have hdiv : m / base > 0 := Nat.div_pos (Nat.le_of_not_lt hlt) (by omega)
      rw [if_neg hlt, if_pos hdiv, List.map_cons, List.reverse_cons,
        ih _ (Nat.div_lt_self (by omega) hb), List.map_append, digitChar_ascii hmod]
      rfl

theorem decimalDigits_eq (m : Nat) (capitalise : Bool) :
    ((numerals 10 m).map (digitChar capitalise)).reverse = (Nat.toDigits 10 m).map ascii := by
  have hcase : (numerals 10 m).map (digitChar capitalise) =
      (numerals 10 m).map (digitChar false) := by
    refine List.map_congr_left fun d hd => ?_
    have hlt : d < 10 := numerals_lt (by decide) hd
    simp [digitChar, hlt]
  rw [hcase, toDigits_numerals (by decide) (by decide)]
  rfl

theorem unsignedText_eq (val : BitVec 64) (capitalise : Bool) :
    numberSign val false ++ (numberPrefix 10 ++
        ((numerals 10 (magnitude val false)).map (digitChar capitalise)).reverse) =
      asciiText (toString val.toNat) := by
  rw [decimalDigits_eq]
  simp [numberSign, numberPrefix, magnitude, asciiText, Nat.toString_eq_repr, Nat.toList_repr]

/-- In base ten with a sign the number is written as it is by hand. -/
theorem signedText_eq (val : BitVec 64) (capitalise : Bool) :
    numberSign val true ++ (numberPrefix 10 ++
        ((numerals 10 (magnitude val true)).map (digitChar capitalise)).reverse) =
      asciiText (toString val.toInt) := by
  have hvalue := signed_magnitude val true
  rw [decimalDigits_eq, Int.toString_eq_repr, Int.repr_eq_if]
  simp only [if_true] at hvalue
  by_cases hneg : val.toInt < 0
  · have hsign : numberSign val true = [minus] := by simp [numberSign, hneg]
    have hnonneg : ¬ 0 ≤ val.toInt := by omega
    simp only [hsign, List.cons_ne_nil, if_false] at hvalue
    have habs : (-val.toInt).toNat = magnitude val true := by omega
    rw [if_neg hnonneg, habs, hsign]
    simp [numberPrefix, asciiText, Nat.toList_repr]
    rfl
  · have hsign : numberSign val true = [] := by simp [numberSign, hneg]
    have hnonneg : 0 ≤ val.toInt := by omega
    simp only [hsign, if_true] at hvalue
    have habs : val.toInt.toNat = magnitude val true := by omega
    rw [if_pos hnonneg, habs, hsign]
    simp [numberPrefix, asciiText, Nat.toList_repr]

theorem hexText_eq (val : BitVec 64) (capitalise : Bool) :
    numberSign val false ++ (numberPrefix 16 ++
        ((numerals 16 (magnitude val false)).map (digitChar capitalise)).reverse) =
      hexText capitalise val := by
  rw [toDigits_numerals (by decide) (by decide)]
  simp [numberSign, numberPrefix, magnitude, hexText]
  rfl

end Number

/-! ## Calls of `renderer_draw_char` -/

/-- Characters drawn one after the other, each in its colour. -/
def Console.drawCalls (fb : BambooFb) (font : BambooFont) (calls : List (BitVec 8 × Nat))
    (s : Console) : Console := calls.foldl (fun s call => s.drawChar fb font call.1 call.2) s

section Calls

variable {fb : BambooFb} {font : BambooFont} {colour : Nat}

@[simp] theorem drawCalls_nil (s : Console) : s.drawCalls fb font [] = s := rfl

@[simp] theorem drawCalls_cons (call : BitVec 8 × Nat) (calls : List (BitVec 8 × Nat))
    (s : Console) : s.drawCalls fb font (call :: calls) =
      (s.drawChar fb font call.1 call.2).drawCalls fb font calls := rfl

@[simp] theorem drawCalls_append (calls calls' : List (BitVec 8 × Nat)) (s : Console) :
    s.drawCalls fb font (calls ++ calls') =
      (s.drawCalls fb font calls).drawCalls fb font calls' := by
  simp [Console.drawCalls]

theorem drawAll_eq_drawCalls (cs : List (BitVec 8)) (s : Console) :
    s.drawAll fb font colour cs = s.drawCalls fb font (cs.map (·, colour)) := by
  simp [Console.drawAll, Console.drawCalls, List.foldl_map]

theorem drawCalls_drawn (calls : List (BitVec 8 × Nat)) (s : Console) :
    (s.drawCalls fb font calls).drawn = s.drawn ++ calls := by
  induction calls generalizing s with
  | nil => simp
  | cons call calls ih => simp [ih, Console.drawChar]

theorem drawCalls_renderer (calls : List (BitVec 8 × Nat)) (s : Console) :
    (s.drawCalls fb font calls).renderer = drawFrom fb font calls s.renderer := by
  induction calls generalizing s with
  | nil => rfl
  | cons call calls ih => exact ih _

/-- A string is drawn whole, with line breaks before spaces. -/
theorem rendererDrawString_wraps (fb : BambooFb) (hw : 0 < font.width) (colour : Nat)
    (cs : List (BitVec 8)) (s : Console) :
    ∃ ps, rendererDrawString fb font colour cs s = .ok (s.drawCalls fb font ps) ∧
      Wrapped (cs.map (·, colour)) ps := by
  have hw' : ¬ font.width = 0 := by omega
  induction cs generalizing s with
  | nil => exact ⟨[], rfl, .nil⟩
  | cons c cs ih =>
    obtain ⟨ps, e, hps⟩ := ih (s.drawChar fb font c colour)
    have hkeep : Wrapped ((c :: cs).map (·, colour)) ((c, colour) :: ps) := .keep _ hps
    simp only [rendererDrawString, rendererCharsLeftOnLine, rendererCharsPerLine, if_neg hw', ok_bind]
    split
    · next hspace =>
      split
      · obtain ⟨ps', e', hps'⟩ := ih ((s.drawChar fb font newline 0).drawChar fb font c colour)
        refine ⟨(newline, 0) :: (c, colour) :: ps', e', ?_⟩
        rw [hspace]
        exact .wrap colour hps'
      · exact ⟨_, e, hkeep⟩
    · exact ⟨_, e, hkeep⟩

end Calls

/-! ## A round -/

section Printf

variable {fb : BambooFb} {font : BambooFont} {format : Int → BitVec 8} {args : Nat → VaArg}
  {cs : List (BitVec 8)} {st : PrintfState}

/-- What a conversion makes of the state. -/
def Converts (fb : BambooFb) (font : BambooFont) (st : PrintfState)
    (r : Except Fault PrintfState) : Conversion → Prop
  | .text t => ∃ ps,
      r = .ok { st with arg := st.arg + 1, console := st.console.drawCalls fb font ps } ∧
        Wrapped (t.map (·, st.printColour)) ps
  | .colour n => r = .ok { st with arg := st.arg + 1, printColour := n }
  | .nothing => r = .ok st

theorem number_converts {t : List (BitVec 8)} {val : BitVec 64} {base : Nat}
    {isSigned capitalise : Bool} (h2 : 2 ≤ base) (h20 : base ≤ 20)
    (ht : numberSign val isSigned ++ (numberPrefix base ++
      ((numerals base (magnitude val isSigned)).map (digitChar capitalise)).reverse) = t) :
    Converts fb font st (do
      let r ← rendererDrawNumber fb font val base isSigned capitalise st.printColour st.console
      return { st with arg := st.arg + 1, console := r.1 }) (.text t) := by
  refine ⟨t.map (·, st.printColour), ?_, Wrapped.refl _⟩
  rw [rendererDrawNumber_spec h2 h20, ht, drawAll_eq_drawCalls]
  rfl

/-- A conversion prints its text, sets the colour or does nothing. -/
theorem printfConvert_spec (fb : BambooFb) (args : Nat → VaArg) (hw : 0 < font.width)
    (c : BitVec 8) (st : PrintfState) :
    Converts fb font st (printfConvert fb font args c st) (conversion c (args st.arg)) := by
  unfold conversion printfConvert
  dsimp only
  by_cases hchar : c = ascii 'c'
  · rw [if_pos hchar, if_pos hchar]
    exact ⟨[_], rfl, Wrapped.refl _⟩
  rw [if_neg hchar, if_neg hchar]
  by_cases hstring : c = ascii 's'
  · obtain ⟨ps, e, hps⟩ := rendererDrawString_wraps fb hw st.printColour (args st.arg).string
      st.console
    rw [if_pos hstring, if_pos hstring, e]
    exact ⟨ps, rfl, hps⟩
  rw [if_neg hstring, if_neg hstring]
  by_cases hunsigned : c = ascii 'u'
  · rw [if_pos hunsigned, if_pos hunsigned]
    exact number_converts (by decide) (by decide) (unsignedText_eq _ true)
  rw [if_neg hunsigned, if_neg hunsigned]
  by_cases hsigned : c = ascii 'd'
  · rw [if_pos hsigned, if_pos hsigned]
    refine number_converts (by decide) (by decide) ?_
    rw [signedText_eq, BitVec.toInt_signExtend_of_le (by decide)]
  rw [if_neg hsigned, if_neg hsigned]
  by_cases hupper : c = ascii 'X'
  · rw [if_pos hupper, if_pos hupper]
    exact number_converts (by decide) (by decide) (hexText_eq _ true)
  rw [if_neg hupper, if_neg hupper]
  by_cases hlower : c = ascii 'x'
  · rw [if_pos hlower, if_pos hlower]
    exact number_converts (by decide) (by decide) (hexText_eq _ false)
  rw [if_neg hlower, if_neg hlower]
  by_cases hcolour : c = ascii 'C'
  · rw [if_pos hcolour, if_pos hcolour]
    rfl
  · rw [if_neg hcolour, if_neg hcolour]
    rfl

/-- Something stands on the cursor's line: a whole line has room for more. -/
def LineBegun (fb : BambooFb) (font : BambooFont) (s : Console) : Prop :=
  ∃ left perLine, rendererCharsLeftOnLine fb font s.renderer = .ok left ∧
    rendererCharsPerLine fb font = .ok perLine ∧ left < perLine

/-- The two characters that may come before a printed format. -/
def leadCalls : List (BitVec 8 × Nat) := [(newline, 0), (space, 0)]

/-- What the word wrap may draw before the character at `p`: a newline before a space, a newline and a
space before the first character. -/
def WrapCalls (fb : BambooFb) (font : BambooFont) (s : Console) (p : Nat) (c : BitVec 8)
    (calls : List (BitVec 8 × Nat)) : Prop :=
  calls = [] ∨ (p ≠ 0 ∧ c = space ∧ calls = [(newline, 0)]) ∨
    (p = 0 ∧ calls = leadCalls ∧ LineBegun fb font s)

theorem index_eq_zero {p : Nat} (hp : p < 2 ^ 31) : BitVec.ofNat 32 p = 0 ↔ p = 0 := by
  constructor
  · intro h
    have hn := congrArg BitVec.toNat h
    simpa [Nat.mod_eq_of_lt (show p < 4294967296 by omega)] using hn
  · intro h
    rw [h]
    rfl

theorem printfWrap_spec (fb : BambooFb) (format : Int → BitVec 8) (hw : 0 < font.width) {p : Nat}
    (hp : p < 2 ^ 31) (hi : st.i = BitVec.ofNat 32 p) :
    ∃ calls used, printfWrap fb font format st = .ok (st.console.drawCalls fb font calls, used) ∧
      WrapCalls fb font st.console p (format p) calls := by
  have hw' : ¬ font.width = 0 := by omega
  have hat : st.i.toInt = p := by rw [hi, toInt_small hp]
  have hzero : st.i = 0 ↔ p = 0 := by rw [hi, index_eq_zero hp]
  simp only [WrapCalls, LineBegun, printfWrap, rendererCharsLeftOnLine, rendererCharsPerLine,
    if_neg hw', ok_bind, hat, hzero]
  split
  · next hbreak =>
    split
    · next hbegun =>
      split
      · exact ⟨[], _, rfl, .inl rfl⟩
      · by_cases h0 : p = 0
        · rw [if_pos h0]
          exact ⟨leadCalls, _, rfl, .inr (.inr ⟨h0, rfl, _, _, rfl, rfl, hbegun⟩)⟩
        · rw [if_neg h0]
          have hspace : format p = space := hbreak.resolve_right h0
          exact ⟨_, _, rfl, .inr (.inl ⟨h0, hspace, rfl⟩)⟩
    · exact ⟨[], _, rfl, .inl rfl⟩
  · exact ⟨[], _, rfl, .inl rfl⟩

theorem printfStep_literal (fb : BambooFb) (args : Nat → VaArg) (h : IsCString format cs)
    (hw : 0 < font.width) {p : Nat} (hp : p < cs.length) (hp' : p < 2 ^ 31)
    (hi : st.i = BitVec.ofNat 32 p) (hc : cs[p] ≠ percent) :
    ∃ calls, WrapCalls fb font st.console p cs[p] calls ∧ (printfStep fb font format args st).2 = .ok (some { st with
      i := st.i + 1
      console := st.console.drawCalls fb font (calls ++ [(cs[p], st.printColour)]) }) := by
  have hat : st.i.toInt = p := by rw [hi, toInt_small hp']
  obtain ⟨calls, used, e, hcalls⟩ := printfWrap_spec fb format hw hp' hi
  rw [h.char p hp] at hcalls
  refine ⟨calls, hcalls, ?_⟩
  unfold printfStep
  dsimp only
  rw [hat, if_neg (h.at_lt hp), h.char p hp, if_neg hc, e]
  simp

theorem printfStep_percent (fb : BambooFb) (font : BambooFont) (args : Nat → VaArg) (h : IsCString format cs)
    {p : Nat} (hp : p + 1 < cs.length) (hp' : p + 1 < 2 ^ 31) (hi : st.i = BitVec.ofNat 32 p)
    (hc : cs[p] = percent) :
    (printfStep fb font format args st).2 =
      (printfConvert fb font args cs[p + 1] st).map fun st' => some { st' with i := st.i + 2 } := by
  have hat : st.i.toInt = p := by rw [hi, toInt_small (by omega)]
  have hnext : (st.i + 1).toInt = ((p + 1 : Nat) : Int) := by
    rw [hi, show (1 : BitVec 32) = BitVec.ofNat 32 1 from rfl, ← BitVec.ofNat_add,
      toInt_small hp']
  unfold printfStep
  dsimp only
  rw [hat, hnext, if_neg (h.at_lt (by omega)), h.char p (by omega), if_pos hc, h.char (p + 1) hp]
  cases printfConvert fb font args cs[p + 1] st with
  | error e => rfl
  | ok st' => rfl

/-! ## The format from a place on -/

theorem formatted_literal (args : Nat → VaArg) {p : Nat} (hp : p < cs.length) (hc : cs[p] ≠ percent)
    (arg colour : Nat) :
    formatted args (cs.drop p) arg colour =
      (cs[p], colour) :: formatted args (cs.drop (p + 1)) arg colour := by
  rw [List.drop_eq_getElem_cons hp]
  cases hrest : cs.drop (p + 1) with
  | nil => rfl
  | cons d rest => rw [formatted, if_neg hc]

theorem formatted_percent (args : Nat → VaArg) {p : Nat} (hp : p + 1 < cs.length) (hc : cs[p] = percent)
    (arg colour : Nat) : formatted args (cs.drop p) arg colour =
      match conversion cs[p + 1] (args arg) with
      | .text t => t.map (·, colour) ++ formatted args (cs.drop (p + 2)) (arg + 1) colour
      | .colour colour' => formatted args (cs.drop (p + 2)) (arg + 1) colour'
      | .nothing => formatted args (cs.drop (p + 2)) arg colour := by
  rw [List.drop_eq_getElem_cons (show p < cs.length by omega), List.drop_eq_getElem_cons hp,
    formatted, if_pos hc]

/-! ## The loop -/

theorem printfLoop_step {st' st'' : PrintfState} {fuel : Nat} {used : List Int}
    (e : (printfStep fb font format args st).2 = .ok (some st'))
    (e' : printfLoop fb font format args fuel st' = (used, .ok st'')) :
    ∃ used', printfLoop fb font format args (fuel + 1) st = (used', .ok st'') := by
  refine ⟨(printfStep fb font format args st).1 ++ used, ?_⟩
  have hpair : printfStep fb font format args st =
      ((printfStep fb font format args st).1, .ok (some st')) := Prod.ext rfl e
  rw [printfLoop, hpair]
  simp only [e']

/-- Where `printf` may begin a new line before its format: its first character is one of its own, and
not the first on its line. -/
structure MayLead (fb : BambooFb) (font : BambooFont) (cs : List (BitVec 8)) (s : Console) : Prop where
  literal : ∃ c ∈ cs.head?, c ≠ BambooOS.percent
  begun : LineBegun fb font s

/-- The loop from a place on ends with the rest of the format drawn. -/
structure PrintsFrom (fb : BambooFb) (font : BambooFont) (format : Int → BitVec 8)
    (args : Nat → VaArg) (cs : List (BitVec 8)) (p : Nat) (st st' : PrintfState)
    (lead ps : List (BitVec 8 × Nat)) : Prop where
  ends : ∃ fuel used, printfLoop fb font format args fuel st = (used, .ok st')
  console : st'.console = st.console.drawCalls fb font (lead ++ ps)
  wrapped : Wrapped (formatted args (cs.drop p) st.arg st.printColour) ps
  lead : lead = [] ∨ (p = 0 ∧ lead = leadCalls ∧ MayLead fb font cs st.console)

theorem PrintsFrom.cons {p q : Nat} (hq : q ≠ 0) {st st1 st' : PrintfState}
    {lead' ps : List (BitVec 8 × Nat)} (lead calls : List (BitVec 8 × Nat))
    (e : (printfStep fb font format args st).2 = .ok (some st1))
    (hrest : PrintsFrom fb font format args cs q st1 st' lead' ps)
    (hconsole : st1.console = st.console.drawCalls fb font (lead ++ calls))
    (hwrapped : Wrapped (formatted args (cs.drop p) st.arg st.printColour) (calls ++ ps))
    (hlead : lead = [] ∨ (p = 0 ∧ lead = leadCalls ∧ MayLead fb font cs st.console)) :
    PrintsFrom fb font format args cs p st st' lead (calls ++ ps) := by
  have hnil : lead' = [] := hrest.lead.resolve_right fun h0 => hq h0.1
  obtain ⟨fuel, used, e'⟩ := hrest.ends
  obtain ⟨used', eloop⟩ := printfLoop_step e e'
  refine ⟨⟨_, _, eloop⟩, ?_, hwrapped, hlead⟩
  rw [hrest.console, hconsole, hnil]
  simp

theorem PrintsFrom.literal {p : Nat} (hp : p < cs.length) (hc : cs[p] ≠ percent)
    {st st1 st' : PrintfState} {calls lead ps : List (BitVec 8 × Nat)}
    (hcalls : WrapCalls fb font st.console p cs[p] calls)
    (e : (printfStep fb font format args st).2 = .ok (some st1))
    (hconsole : st1.console =
      st.console.drawCalls fb font (calls ++ [(cs[p], st.printColour)]))
    (hsame : st1.arg = st.arg ∧ st1.printColour = st.printColour)
    (hrest : PrintsFrom fb font format args cs (p + 1) st1 st' lead ps) :
    ∃ lead' ps', PrintsFrom fb font format args cs p st st' lead' ps' := by
  have hps := hrest.wrapped
  rw [hsame.1, hsame.2] at hps
  have hformat := formatted_literal args hp hc st.arg st.printColour
  have hq : p + 1 ≠ 0 := Nat.succ_ne_zero p
  rcases hcalls with rfl | ⟨h0, hspace, rfl⟩ | ⟨h0, rfl, hbegun⟩
  · refine ⟨_, _, hrest.cons hq [] [_] e hconsole ?_ (.inl rfl)⟩
    rw [hformat]
    exact .keep _ hps
  · refine ⟨_, _, hrest.cons hq [] [_, _] e hconsole ?_ (.inl rfl)⟩
    rw [hformat, hspace]
    exact .wrap _ hps
  · have hfirst : cs.head? = some cs[p] := by
      subst h0
      rw [List.head?_eq_getElem?, List.getElem?_eq_getElem hp]
    refine ⟨_, _, hrest.cons hq leadCalls [_] e hconsole ?_
      (.inr ⟨h0, rfl, ⟨_, hfirst, hc⟩, hbegun⟩)⟩
    rw [hformat]
    exact .keep _ hps

theorem PrintsFrom.percent (h : IsCString format cs) (hw : 0 < font.width) {p : Nat}
    (hp : p + 1 < cs.length) (hp' : p + 1 < 2 ^ 31) (hc : cs[p] = percent) {st : PrintfState}
    (hi : st.i = BitVec.ofNat 32 p)
    (hrest : ∀ st1 : PrintfState, st1.i = BitVec.ofNat 32 (p + 2) →
      ∃ st' lead ps, PrintsFrom fb font format args cs (p + 2) st1 st' lead ps) :
    ∃ st' lead ps, PrintsFrom fb font format args cs p st st' lead ps := by
  have hi2 : st.i + 2 = BitVec.ofNat 32 (p + 2) := by
    rw [hi, BitVec.ofNat_add]
    rfl
  have hstep := printfStep_percent fb font args h hp hp' hi hc
  have hconvert := printfConvert_spec fb args hw cs[p + 1] st
  have hformat := formatted_percent args hp hc st.arg st.printColour
  have hq : p + 2 ≠ 0 := Nat.succ_ne_zero (p + 1)
  cases hkind : conversion cs[p + 1] (args st.arg) with
  | text t =>
    rw [hkind] at hconvert hformat
    obtain ⟨calls, e, hcalls⟩ := hconvert
    rw [e] at hstep
    obtain ⟨st', lead, ps, hprints⟩ := hrest { st with
      i := st.i + 2
      arg := st.arg + 1
      console := st.console.drawCalls fb font calls } hi2
    refine ⟨st', _, _, hprints.cons hq [] calls hstep rfl ?_ (.inl rfl)⟩
    rw [hformat]
    exact hcalls.append hprints.wrapped
  | colour n =>
    rw [hkind] at hconvert hformat
    rw [hconvert] at hstep
    obtain ⟨st', lead, ps, hprints⟩ :=
      hrest { st with i := st.i + 2, arg := st.arg + 1, printColour := n } hi2
    refine ⟨st', _, _, hprints.cons hq [] [] hstep rfl ?_ (.inl rfl)⟩
    rw [hformat]
    exact hprints.wrapped
  | nothing =>
    rw [hkind] at hconvert hformat
    rw [hconvert] at hstep
    obtain ⟨st', lead, ps, hprints⟩ := hrest { st with i := st.i + 2 } hi2
    refine ⟨st', _, _, hprints.cons hq [] [] hstep rfl ?_ (.inl rfl)⟩
    rw [hformat]
    exact hprints.wrapped

/-- From every place at which no percent sign is left open, the rest of the format is printed. -/
theorem printfLoop_prints (fb : BambooFb) (args : Nat → VaArg) (h : IsCString format cs)
    (hw : 0 < font.width) (hlen : cs.length < 2 ^ 31) (st : PrintfState) {p : Nat}
    (hp : p ≤ cs.length) (hopen : endsOpen (cs.drop p) = false) (hi : st.i = BitVec.ofNat 32 p) :
    ∃ st' lead ps, PrintsFrom fb font format args cs p st st' lead ps := by
  by_cases hend : p = cs.length
  · refine ⟨st, [], [], ⟨1, [st.i.toInt], ?_⟩, rfl, ?_, .inl rfl⟩
    · rw [printfLoop, printfStep_end h hlen (hend ▸ hi)]
    · rw [hend, List.drop_length]
      exact .nil
  · have hlt : p < cs.length := by omega
    by_cases hc : cs[p] = BambooOS.percent
    · obtain ⟨hp2, hopen'⟩ := (endsOpen_percent hlt hc).mp hopen
      exact PrintsFrom.percent h hw (by omega) (by omega) hc hi fun st1 hi1 =>
        printfLoop_prints fb args h hw hlen st1 hp2 hopen' hi1
    · obtain ⟨calls, hcalls, e⟩ := printfStep_literal fb args h hw hlt (by omega) hi hc
      rw [endsOpen_literal hlt hc] at hopen
      have hi1 : st.i + 1 = BitVec.ofNat 32 (p + 1) := by
        rw [hi, BitVec.ofNat_add]
        rfl
      obtain ⟨st', lead, ps, hrest⟩ := printfLoop_prints fb args h hw hlen { st with
        i := st.i + 1
        console := st.console.drawCalls fb font (calls ++ [(cs[p], st.printColour)]) } hlt hopen hi1
      obtain ⟨lead', ps', hprints⟩ := hrest.literal hlt hc hcalls e rfl ⟨rfl, rfl⟩
      exact ⟨st', lead', ps', hprints⟩
termination_by cs.length - p

/-- `printf` comes back with its colour as it was and its format printed: the text in its order and
its colours, with newlines before some of its spaces. In front there are at most a newline and a space,
and these only before a first character of the format's own on a line that has begun. -/
theorem printf_prints (fb : BambooFb) (args : Nat → VaArg) (h : IsCString format cs)
    (hf : font.Sized) (hlen : cs.length < 2 ^ 31) (hopen : endsOpen cs = false)
    (printColour : Nat) (s : Console) :
    ∃ fuel used lead ps, printf fb font format args fuel printColour s =
        (used, .ok (s.drawCalls fb font (lead ++ ps), printColour)) ∧
      Wrapped (formatted args cs 0 printColour) ps ∧
      (lead = [] ∨ lead = leadCalls ∧ MayLead fb font cs s) := by
  obtain ⟨st', lead, ps, ⟨fuel, used, e⟩, hconsole, hps, hlead⟩ := printfLoop_prints fb args h hf.width
    hlen { printColour := printColour, console := s } (Nat.zero_le _) hopen rfl
  refine ⟨fuel, used, lead, ps, ?_, hps, hlead.imp_right And.right⟩
  rw [printf, e]
  simp [Except.map, hconsole]

end Printf

/-! ## A number -/

/-- `"n=%d"`. -/
def numberChars : List (BitVec 8) := [ascii 'n', ascii '=', percent, ascii 'd']

theorem numberChars_formatted :
    formatted (fun _ => { int := -5 }) numberChars 0 0xFFFFFF =
      [(ascii 'n', 0xFFFFFF), (ascii '=', 0xFFFFFF), (minus, 0xFFFFFF), (ascii '5', 0xFFFFFF)] := by
  decide +kernel

/-- `printf("n=%d", -5)` on an empty screen draws these four characters. -/
theorem number_prints :
    ∃ fuel used, printf smallFb smallFont (formatOf numberChars) (fun _ => { int := -5 }) fuel
        0xFFFFFF {} =
      (used, .ok (Console.drawCalls smallFb smallFont [(ascii 'n', 0xFFFFFF), (ascii '=', 0xFFFFFF),
        (minus, 0xFFFFFF), (ascii '5', 0xFFFFFF)] {}, 0xFFFFFF)) := by
  have hchars : ∀ c ∈ numberChars, c ≠ 0 := by decide
  obtain ⟨fuel, used, lead, ps, e, hps, hlead⟩ := printf_prints smallFb
    (fun _ => { int := -5 }) (formatOf_isCString hchars)
    smallFont_fits.sized (by decide) (by decide) 0xFFFFFF {}
  refine ⟨fuel, used, ?_⟩
  -- the line is empty, and the text has no space to break at
  have hnew : ¬ LineBegun smallFb smallFont {} := by
    rintro ⟨left, perLine, hl, hp, hlt⟩
    cases hl
    cases hp
    exact absurd hlt (by decide +kernel)
  rw [hlead.resolve_right fun h => hnew h.2.begun, List.nil_append] at e
  rw [numberChars_formatted] at hps
  rw [hps.eq_of_no_space (by decide)] at e
  exact e

end BambooOS
