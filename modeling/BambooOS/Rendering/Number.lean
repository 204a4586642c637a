import BambooOS.Rendering.Cursor
import BambooOS.Rendering.Text
import Mathlib.Data.Nat.Digits.Lemmas

/-!
# Rendering.Number

`renderer_draw_number`: the digits of a value are written into a buffer of 30 bytes, the last one
first, and drawn from its end.

* `rendererDrawNumber_spec`: the characters drawn, and the indices used on the buffer.
* `bufferKept_iff`: the buffer is large enough exactly for values below `base ^ 30`.
* `rendererDrawNumber_reads`: what is drawn reads as the value.
-/

namespace BambooOS

/-! ## The source's function -/

def minus : BitVec 8 := 0x2D

/-- `mod + '0'`, or a letter from `'A'` or `'a'` on. -/
def digitChar (capitalise : Bool) (mod : Nat) : BitVec 8 :=
  if mod < 10 then BitVec.ofNat 8 (mod + 0x30)
  else if capitalise then BitVec.ofNat 8 (mod - 10 + 0x41)
  else BitVec.ofNat 8 (mod - 10 + 0x61)

/-- `buf` and `i`, and the indices used on the buffer so far. -/
structure NumberBuf where
  buf : Nat → BitVec 8
  i : Nat
  used : List Nat

/-- `buf[i] = c; i++`. -/
def NumberBuf.push (b : NumberBuf) (c : BitVec 8) : NumberBuf where
  buf := Function.update b.buf b.i c
  i := b.i + 1
  used := b.used ++ [b.i]

/-- The loop over the digits; in base 1 it has no end. -/
def drawNumberDigits (base : Nat) (capitalise : Bool) : Nat → Nat → NumberBuf → Except Fault NumberBuf
  | 0, _, _ => .error .hang
  | fuel + 1, currentDiv, b =>
    if base = 0 then .error .divideError
    else
      let div := currentDiv / base
      let mod := currentDiv % base
      let b := b.push (digitChar capitalise mod)
      if div > 0 then drawNumberDigits base capitalise fuel div b else .ok b

/-- The loop that draws `buf[j - 1]` to `buf[0]`, with the indices read. -/
def drawNumberBack (fb : BambooFb) (font : BambooFont) (colour : Nat) (buf : Nat → BitVec 8) :
    Nat → Console → List Nat → Console × List Nat
  | 0, s, used => (s, used)
  | j + 1, s, used =>
    drawNumberBack fb font colour buf j (s.drawChar fb font (buf j) colour) (used ++ [j])

/-- `"0x"` and `"0b"` for the two bases that have a prefix. -/
def drawNumberPrefix (fb : BambooFb) (font : BambooFont) (base colour : Nat) (s : Console) :
    Except Fault Console := do
  let s ← if base = 16 then rendererDrawString fb font colour [0x30, 0x78] s else pure s
  if base = 2 then rendererDrawString fb font colour [0x30, 0x62] s else pure s

/-- `current_div` before the loop. -/
def magnitude (val : BitVec 64) (isSigned : Bool) : Nat :=
  if isSigned then
    if 0 ≤ val.toInt then val.toNat else (~~~val + 1).toNat
  else val.toNat

/-- `renderer_draw_number(val, base, is_signed, capitalise, colour)`, and the indices used on its
buffer. A value of 64 bits has at most 64 digits. -/
def rendererDrawNumber (fb : BambooFb) (font : BambooFont) (val : BitVec 64) (base : Nat)
    (isSigned capitalise : Bool) (colour : Nat) (s : Console) : Except Fault (Console × List Nat) := do
  if base > 20 then return (s, [])
  let s := if isSigned = true ∧ val.toInt < 0 then s.drawChar fb font minus colour else s
  let b ← drawNumberDigits base capitalise 64 (magnitude val isSigned) ⟨fun _ => 0, 0, []⟩
  let s ← drawNumberPrefix fb font base colour s
  return drawNumberBack fb font colour b.buf b.i s b.used

/-! ## Digits -/

/-- The digits of `m`, the last one first; zero has one. -/
def numerals (base m : Nat) : List Nat := if m = 0 then [0] else Nat.digits base m

section Digits

variable {base m : Nat}

theorem numerals_step (hb : 1 < base) : numerals base m =
    m % base :: if m / base > 0 then numerals base (m / base) else [] := by
  unfold numerals
  by_cases hm : m = 0
  · simp [hm]
  · rw [if_neg hm, Nat.digits_def' hb (by omega)]
    by_cases hdiv : m / base = 0
    · simp [hdiv]
    · rw [if_pos (Nat.pos_of_ne_zero hdiv), if_neg hdiv]

theorem numerals_ne_nil : numerals base m ≠ [] := by
  unfold numerals
  split
  · simp
  · next hm => exact Nat.digits_ne_nil_iff_ne_zero.mpr hm

theorem numerals_lt (hb : 1 < base) {d : Nat} (hd : d ∈ numerals base m) : d < base := by
  unfold numerals at hd
  split at hd
  · rw [List.mem_singleton.mp hd]
    omega
  · exact Nat.digits_lt_base hb hd

theorem ofDigits_numerals : Nat.ofDigits base (numerals base m) = m := by
  unfold numerals
  split
  · next hm => simp [hm]
  · exact Nat.ofDigits_digits base m

theorem numerals_length_le (hb : 1 < base) {k : Nat} (hk : 0 < k) :
    (numerals base m).length ≤ k ↔ m < base ^ k := by
  unfold numerals
  split
  · next hm =>
    have hpos : 0 < base ^ k := Nat.pow_pos (by omega)
    simp [hm]
    omega
  · exact Nat.digits_length_le_iff hb m

/-- Only zero starts with the digit zero. -/
theorem numerals_getLast (h : (numerals base m).getLast? = some 0) : numerals base m = [0] := by
  unfold numerals at h ⊢
  split at h
  · next hm => rw [if_pos hm]
  · next hm =>
    have hne := Nat.digits_ne_nil_iff_ne_zero (b := base).mpr hm
    rw [List.getLast?_eq_some_getLast hne] at h
    exact absurd (Option.some_inj.mp h) (Nat.getLast_digit_ne_zero base hm)

end Digits

/-! ## The two loops -/

/-- The characters written so far. -/
def NumberBuf.written (b : NumberBuf) : List (BitVec 8) := (List.range b.i).map b.buf

section Loops

variable {base m : Nat}

theorem NumberBuf.written_push (b : NumberBuf) (c : BitVec 8) :
    (b.push c).written = b.written ++ [c] := by
  unfold written push
  dsimp only
  rw [List.range_succ, List.map_append, List.map_singleton, Function.update_self]
  congr 1
  refine List.map_congr_left fun j hj => Function.update_of_ne ?_ _ _
  exact Nat.ne_of_lt (List.mem_range.mp hj)

theorem drawNumberDigits_spec (hb : 1 < base) {fuel : Nat} (hpos : 0 < fuel) (hm : m < base ^ fuel)
    (capitalise : Bool) (b : NumberBuf) :
    ∃ b', drawNumberDigits base capitalise fuel m b = .ok b' ∧
      b'.written = b.written ++ (numerals base m).map (digitChar capitalise) ∧
      b'.i = b.i + (numerals base m).length ∧
      b'.used = b.used ++ List.range' b.i (numerals base m).length := by
  induction fuel generalizing m b with
  | zero => omega
  | succ fuel ih =>
    rw [drawNumberDigits, if_neg (by omega), numerals_step hb]
    dsimp only
    have hpush := b.written_push (digitChar capitalise (m % base))
    by_cases hdiv : m / base > 0
    · have hlt : m / base < base ^ fuel := Nat.div_lt_of_lt_mul (by rwa [← Nat.pow_succ'])
      have hfuel : 0 < fuel := by
        by_contra h0
        rw [show fuel = 0 by omega, Nat.pow_zero] at hlt
        omega
      obtain ⟨b', e, hw, hi, hu⟩ := ih hfuel hlt (b.push (digitChar capitalise (m % base)))
      rw [if_pos hdiv, if_pos hdiv]
      refine ⟨b', e, ?_, ?_, ?_⟩
      · rw [hw, hpush, List.map_cons, List.append_assoc, List.singleton_append]
      · rw [hi, List.length_cons]
        simp only [NumberBuf.push]
        omega
      · rw [hu, List.length_cons, List.range'_succ]
        simp only [NumberBuf.push, List.append_assoc, List.singleton_append]
    · rw [if_neg hdiv, if_neg hdiv]
      exact ⟨_, rfl, hpush, rfl, rfl⟩

variable {fb : BambooFb} {font : BambooFont} {colour : Nat}

theorem drawNumberBack_eq (buf : Nat → BitVec 8) (i : Nat) (s : Console) (used : List Nat) :
    drawNumberBack fb font colour buf i s used =
      (s.drawAll fb font colour ((List.range i).map buf).reverse, used ++ (List.range i).reverse) := by
  induction i generalizing s used with
  | zero => simp [drawNumberBack]
  | succ j ih =>
    rw [drawNumberBack, ih, List.range_succ, List.map_append, List.reverse_append,
      List.reverse_append, List.append_assoc]
    rfl

end Loops

/-! ## What is drawn -/

/-- The sign of a value, if it has one. -/
def numberSign (val : BitVec 64) (isSigned : Bool) : List (BitVec 8) :=
  if isSigned = true ∧ val.toInt < 0 then [minus] else []

/-- `0x` or `0b`. -/
def numberPrefix (base : Nat) : List (BitVec 8) :=
  if base = 16 then [0x30, 0x78] else if base = 2 then [0x30, 0x62] else []

section Draw

variable {fb : BambooFb} {font : BambooFont} {base : Nat} {isSigned capitalise : Bool}
  {colour : Nat} {val : BitVec 64}

theorem magnitude_lt (val : BitVec 64) (isSigned : Bool) : magnitude val isSigned < 2 ^ 64 := by
  unfold magnitude
  split
  · split
    · exact val.isLt
    · exact BitVec.isLt _
  · exact val.isLt

theorem drawNumberPrefix_eq (s : Console) : drawNumberPrefix fb font base colour s =
    .ok (s.drawAll fb font colour (numberPrefix base)) := by
  unfold drawNumberPrefix numberPrefix
  by_cases h16 : base = 16
  · have h2 : ¬ base = 2 := by omega
    simp only [h16, if_true, ok_bind,
      rendererDrawString_plain (show ∀ c ∈ [0x30, 0x78], c ≠ space by decide)]
    rfl
  · rw [if_neg h16, if_neg h16]
    by_cases hb2 : base = 2
    · simp only [hb2, if_true]
      exact rendererDrawString_plain (by decide) s
    · simp only [hb2, if_false]
      rfl

theorem rendererDrawNumber_spec (h2 : 2 ≤ base) (h20 : base ≤ 20) (s : Console) :
    rendererDrawNumber fb font val base isSigned capitalise colour s = .ok
      (s.drawAll fb font colour (numberSign val isSigned ++ (numberPrefix base ++
        ((numerals base (magnitude val isSigned)).map (digitChar capitalise)).reverse)),
        List.range (numerals base (magnitude val isSigned)).length ++
          (List.range (numerals base (magnitude val isSigned)).length).reverse) := by
  have hfit : magnitude val isSigned < base ^ 64 :=
    Nat.lt_of_lt_of_le (magnitude_lt val isSigned) (Nat.pow_le_pow_left h2 64)
  obtain ⟨b, e, hw, hi, hu⟩ := drawNumberDigits_spec (by omega) (by omega) hfit capitalise
    ⟨fun _ => 0, 0, []⟩
  have hwritten : (List.range b.i).map b.buf =
      (numerals base (magnitude val isSigned)).map (digitChar capitalise) := by
    rw [NumberBuf.written] at hw
    simpa [NumberBuf.written] using hw
  have hsign : (if isSigned = true ∧ val.toInt < 0 then s.drawChar fb font minus colour else s) =
      s.drawAll fb font colour (numberSign val isSigned) := by
    unfold numberSign
    split
    · rfl
    · rfl
  unfold rendererDrawNumber
  rw [if_neg (by omega)]
  simp only [hsign, e, ok_bind, drawNumberPrefix_eq, drawNumberBack_eq, hwritten]
  rw [hu, hi]
  simp only [List.range_eq_range', List.nil_append, Nat.zero_add, drawAll_append]
  rfl

/-! ## The buffer -/

/-- Every index used on `buf`, when it is written and when it is read back, is inside its 30
bytes. -/
def BufferKept (fb : BambooFb) (font : BambooFont) (val : BitVec 64) (base : Nat)
    (isSigned capitalise : Bool) (colour : Nat) (s : Console) : Prop :=
  ∃ s' used, rendererDrawNumber fb font val base isSigned capitalise colour s = .ok (s', used) ∧
    ∀ i ∈ used, i < 30

theorem bufferKept_length (h2 : 2 ≤ base) (h20 : base ≤ 20) (s : Console) :
    BufferKept fb font val base isSigned capitalise colour s ↔
      (numerals base (magnitude val isSigned)).length ≤ 30 := by
  rw [BufferKept, rendererDrawNumber_spec h2 h20]
  generalize (numerals base (magnitude val isSigned)).length = n
  constructor
  · intro ⟨s', used, e, hused⟩
    cases e
    by_contra hlt
    have hlast : 30 ∈ List.range n := List.mem_range.mpr (by omega)
    have := hused 30 (List.mem_append_left _ hlast)
    omega
  · intro hle
    refine ⟨_, _, rfl, fun i hi => ?_⟩
    simp only [List.mem_append, List.mem_reverse, List.mem_range, or_self] at hi
    omega

/-- From base 5 on every value fits. -/
theorem magnitude_lt_pow (h5 : 5 ≤ base) : magnitude val isSigned < base ^ 30 :=
  Nat.lt_of_lt_of_le (Nat.lt_trans (magnitude_lt val isSigned) (by decide : 2 ^ 64 < 5 ^ 30))
    (Nat.pow_le_pow_left h5 30)

/-- The buffer holds the values below the thirtieth power of the base; from base 5 on, all of
them. -/
theorem bufferKept_iff (h2 : 2 ≤ base) (h20 : base ≤ 20) (s : Console) :
    (BufferKept fb font val base isSigned capitalise colour s ↔
      magnitude val isSigned < base ^ 30) ∧
    (5 ≤ base → BufferKept fb font val base isSigned capitalise colour s) := by
  have hiff : BufferKept fb font val base isSigned capitalise colour s ↔
      magnitude val isSigned < base ^ 30 :=
    (bufferKept_length h2 h20 s).trans (numerals_length_le (by omega) (by decide))
  exact ⟨hiff, fun h5 => hiff.mpr (magnitude_lt_pow h5)⟩

/-! ## Reading it back -/

/-- The value of a digit, letters of either case counting from ten. -/
def digitValue (c : BitVec 8) : Option Nat :=
  if 0x30 ≤ c.toNat ∧ c.toNat ≤ 0x39 then some (c.toNat - 0x30)
  else if 0x41 ≤ c.toNat ∧ c.toNat ≤ 0x5A then some (c.toNat - 0x41 + 10)
  else if 0x61 ≤ c.toNat ∧ c.toNat ≤ 0x7A then some (c.toNat - 0x61 + 10)
  else none

/-- One more digit of a number read from the left. -/
def readDigit (base n : Nat) (c : BitVec 8) : Option Nat :=
  match digitValue c with
  | some d => if d < base then some (n * base + d) else none
  | none => none

/-- The number a digit string stands for. -/
def readNumber (base : Nat) (cs : List (BitVec 8)) : Option Nat := cs.foldlM (readDigit base) 0

theorem digitValue_digitChar {d : Nat} (hd : d < 20) (capitalise : Bool) :
    digitValue (digitChar capitalise d) = some d := by
  revert d capitalise
  decide

theorem readNumber_digits (h20 : base ≤ 20) {ds : List Nat} (hds : ∀ d ∈ ds, d < base) :
    readNumber base (ds.map (digitChar capitalise)).reverse = some (Nat.ofDigits base ds) := by
  induction ds with
  | nil => rfl
  | cons d ds ih =>
    have hd := hds d List.mem_cons_self
    have hrest := ih fun d' hd' => hds d' (List.mem_cons_of_mem d hd')
    unfold readNumber at hrest ⊢
    rw [List.map_cons, List.reverse_cons, List.foldlM_append, hrest]
    simp only [List.foldlM_cons, List.foldlM_nil, Option.bind_eq_bind, Option.bind_some, readDigit,
      digitValue_digitChar (show d < 20 by omega), if_pos hd, Option.pure_def, Nat.ofDigits_cons]
    congr 1
    ring

theorem complement_toNat (val : BitVec 64) :
    (~~~val + 1).toNat = (2 ^ 64 - val.toNat) % 2 ^ 64 := by
  have hneg : ~~~val + 1 = -val := (BitVec.neg_eq_not_add val).symm
  rw [hneg, BitVec.toNat_neg]

theorem signed_magnitude (val : BitVec 64) (isSigned : Bool) :
    (if numberSign val isSigned = [] then (magnitude val isSigned : Int)
      else -(magnitude val isSigned : Int)) = if isSigned then val.toInt else (val.toNat : Int) := by
  have hlt := val.isLt
  unfold numberSign magnitude
  cases isSigned with
  | false => simp
  | true =>
    have hint := BitVec.toInt_eq_toNat_cond val
    by_cases hneg : val.toInt < 0
    · have hhalf : 2 ^ 64 ≤ 2 * val.toNat := by
        rw [hint] at hneg
        split at hneg
        · omega
        · omega
      have hnn : ¬ 0 ≤ val.toInt := by omega
      rw [if_neg (by simp [hneg]), if_pos rfl, if_neg hnn, if_pos rfl, complement_toNat,
        Nat.mod_eq_of_lt (by omega), hint, if_neg (by omega)]
      omega
    · have hhalf : 2 * val.toNat < 2 ^ 64 := by
        by_contra hge
        rw [hint, if_neg hge] at hneg
        omega
      have hnn : 0 ≤ val.toInt := by omega
      rw [if_pos (by simp [hneg]), if_pos rfl, if_pos hnn, if_pos rfl, hint, if_pos hhalf]

/-- What is drawn of a value is a sign, the prefix of the base and digits without leading zeros, and
it reads as the value. -/
theorem rendererDrawNumber_reads (h5 : 5 ≤ base) (h20 : base ≤ 20) (s : Console) :
    ∃ s' used sign digits,
      rendererDrawNumber fb font val base isSigned capitalise colour s = .ok (s', used) ∧
      s'.drawn = s.drawn ++ (sign ++ numberPrefix base ++ digits).map (·, colour) ∧
      (sign = [] ∨ sign = [minus]) ∧ digits ≠ [] ∧
      (digits.head? = some 0x30 → digits = [0x30]) ∧
      ∃ n : Nat, readNumber base digits = some n ∧
        (if sign = [] then (n : Int) else -n) = if isSigned then val.toInt else (val.toNat : Int) := by
  have hlt : ∀ d ∈ numerals base (magnitude val isSigned), d < base := fun d hd =>
    numerals_lt (by omega) hd
  refine ⟨_, _, numberSign val isSigned,
    ((numerals base (magnitude val isSigned)).map (digitChar capitalise)).reverse,
    rendererDrawNumber_spec (by omega) h20 s, ?_, ?_, ?_, ?_, magnitude val isSigned, ?_,
    signed_magnitude val isSigned⟩
  · rw [drawAll_drawn, List.append_assoc]
  · unfold numberSign
    split
    · exact .inr rfl
    · exact .inl rfl
  · simp [numerals_ne_nil]
  · intro h0
    rw [List.head?_reverse, List.getLast?_map, Option.map_eq_some_iff] at h0
    obtain ⟨d, hd, hchar⟩ := h0
    have hzero : d = 0 := by
      have hval := digitValue_digitChar
        (show d < 20 from Nat.lt_of_lt_of_le (hlt d (List.mem_of_getLast? hd)) h20) capitalise
      rw [hchar] at hval
      exact (Option.some_inj.mp hval).symm
    rw [hzero] at hd
    rw [numerals_getLast hd]
    rfl
  · rw [readNumber_digits h20 hlt, ofDigits_numerals]

end Draw

/-! ## Small numbers -/

/-- `2 ^ 64 - 1` in base 2 has 64 digits. -/
theorem binary_overruns :
    ¬ BufferKept smallFb smallFont (BitVec.ofNat 64 (2 ^ 64 - 1)) 2 false true 0 {} := by
  rw [bufferKept_length (by decide) (by decide), numerals_length_le (by decide) (by decide)]
  decide

/-- The largest value that fits in base 2. -/
theorem binary_kept : BufferKept smallFb smallFont (BitVec.ofNat 64 (2 ^ 30 - 1)) 2 false true 0 {} :=
  (bufferKept_iff (by decide) (by decide) {}).1.mpr (by decide)

/-- INT64_MIN. -/
theorem intMin_reads : ∃ s' used sign digits,
    rendererDrawNumber smallFb smallFont (BitVec.intMin 64) 10 true true 0 {} = .ok (s', used) ∧
    s'.drawn = (sign ++ numberPrefix 10 ++ digits).map (·, 0) ∧ (sign = [] ∨ sign = [minus]) ∧
    ∃ n : Nat, readNumber 10 digits = some n ∧ (if sign = [] then (n : Int) else -n) = -2 ^ 63 := by
  obtain ⟨s', used, sign, digits, e, hd, hs, _, _, n, hn, hv⟩ :=
    @rendererDrawNumber_reads smallFb smallFont 10 true true 0 (BitVec.intMin 64) (by decide)
      (by decide) {}
  exact ⟨s', used, sign, digits, e, hd, hs, n, hn, hv.trans (by decide)⟩

end BambooOS
