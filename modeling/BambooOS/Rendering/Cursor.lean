import BambooOS.Rendering.Model
import Mathlib.Data.List.Induction

/-!
# Rendering.Cursor

Where the console puts its glyphs. Full lines and full halves are noticed at the next glyph, and a
newline moves the cursor down without a look.

* `Columns`: what holds of the cursor and the writes after every call.
* `rendererPlace_row`: a glyph is put above the last line unless the test for it overflows.
* `rendererDrawChars_kept_iff`: in a run the glyphs stay on the screen exactly when it never does.
* `rowsFit_of_length`: it does not in any run that is not astronomically long.
-/

namespace BambooOS

/-- A screen with room for the font in both columns, whose lines do not overlap. -/
structure Fits (fb : BambooFb) (font : BambooFont) : Prop where
  pitch : 4 * fb.width ≤ fb.pitch
  fontHeight : 0 < font.height
  fontWidth : 0 < font.width
  rows : font.height < fb.height
  columns : fb.width / 2 + font.width < fb.width

/-- The write of a pixel stays inside the `pitch * height` bytes of the buffer. -/
def Pixel.Inside (fb : BambooFb) (p : Pixel) : Prop := 4 * p.index + 4 ≤ fb.pitch * fb.height

/-- A glyph drawn at the cursor is on the screen and in its column. -/
structure GlyphPlaced (fb : BambooFb) (font : BambooFont) (c : BitVec 8) (colour : Nat)
    (s : Renderer) : Prop where
  row : s.rY + font.height < fb.height
  first : s.rOnSecondHalf = false → s.rX < fb.width / 2 ∧
    ∀ p ∈ rendererDrawCharAt fb font c s.rX s.rY colour, p.x < fb.width / 2 + font.width
  second : s.rOnSecondHalf = true → fb.width / 2 + font.width ≤ s.rX ∧ s.rX < fb.width

/-- In the run every glyph is placed well, and every write to the buffer is inside it. -/
def ConsoleKept (fb : BambooFb) (font : BambooFont) (calls : List (BitVec 8 × Nat)) : Prop :=
  (∀ before c colour after, calls = before ++ (c, colour) :: after → c ≠ newline →
    GlyphPlaced fb font c colour (rendererPlace fb font (rendererDrawChars fb font before))) ∧
  ∀ p ∈ (rendererDrawChars fb font calls).writes, p.Inside fb

/-- The test for the last line, made before each glyph, never overflows in the run. -/
def RowsFit (fb : BambooFb) (font : BambooFont) (calls : List (BitVec 8 × Nat)) : Prop :=
  ∀ before c colour after, calls = before ++ (c, colour) :: after → c ≠ newline →
    (rendererWrapLine fb font (rendererDrawChars fb font before)).rY + font.height < 2 ^ 64

section Cursor

variable {fb : BambooFb} {font : BambooFont}

/-! ## Writes -/

theorem pixelIndex_inside (h : Fits fb font) {x y : Nat} (hx : x < fb.width) (hy : y < fb.height) :
    4 * pixelIndex fb x y + 4 ≤ fb.pitch * fb.height := by
  have hp := h.pitch
  have hlines : fb.pitch * (y + 1) ≤ fb.pitch * fb.height := Nat.mul_le_mul_left _ hy
  have hline : fb.pitch * (y + 1) = y * fb.pitch + fb.pitch := by
    rw [Nat.mul_succ, Nat.mul_comm]
  -- wrapping only makes the offset of the line smaller
  have hmod := Nat.mod_le (y * fb.pitch) (2 ^ 64)
  have hindex := Nat.mod_le ((y * fb.pitch) % 2 ^ 64 / 4 + x) (2 ^ 64)
  unfold pixelIndex
  omega

theorem mem_setPixel {x y colour : Nat} {p : Pixel} (hp : p ∈ rendererSetPixel fb x y colour) :
    p = ⟨x, y, pixelIndex fb x y, colour⟩ ∧ x < fb.width ∧ y < fb.height := by
  unfold rendererSetPixel at hp
  split at hp
  · rename_i h
    exact ⟨List.mem_singleton.mp hp, h⟩
  · cases hp

theorem mem_drawCharAt {c : BitVec 8} {x y colour : Nat} {p : Pixel}
    (hp : p ∈ rendererDrawCharAt fb font c x y colour) :
    ∃ xOff < font.width, ∃ yOff < font.height,
      p = ⟨(xOff + x) % 2 ^ 64, (yOff + y) % 2 ^ 64,
        pixelIndex fb ((xOff + x) % 2 ^ 64) ((yOff + y) % 2 ^ 64), colour⟩ ∧
      (xOff + x) % 2 ^ 64 < fb.width ∧ (yOff + y) % 2 ^ 64 < fb.height := by
  unfold rendererDrawCharAt at hp
  split at hp
  · cases hp
  · simp only [List.mem_flatMap, List.mem_range] at hp
    obtain ⟨yOff, hy, xOff, hx, hp⟩ := hp
    split at hp
    · exact ⟨xOff, hx, yOff, hy, mem_setPixel hp⟩
    · cases hp

theorem drawCharAt_inside (h : Fits fb font) {c : BitVec 8} {x y colour : Nat} {p : Pixel}
    (hp : p ∈ rendererDrawCharAt fb font c x y colour) : p.Inside fb := by
  obtain ⟨_, _, _, _, rfl, hx, hy⟩ := mem_drawCharAt hp
  exact pixelIndex_inside h hx hy

theorem clearScreen_inside (h : Fits fb font) {colour : Nat} {s : Renderer}
    (hs : ∀ p ∈ s.writes, p.Inside fb) :
    ∀ p ∈ (rendererClearScreen fb colour s).writes, p.Inside fb := by
  intro p hp
  rcases List.mem_append.mp hp with hp | hp
  · exact hs p hp
  · simp only [List.mem_flatMap, List.mem_map, List.mem_range] at hp
    obtain ⟨y, hy, x, hx, rfl⟩ := hp
    exact pixelIndex_inside h hx hy

/-! ## The two tests -/

/-- What holds after every call: the cursor is at most one glyph behind its column, and the writes
so far were inside the buffer. -/
structure Columns (fb : BambooFb) (font : BambooFont) (s : Renderer) : Prop where
  row : s.rY < 2 ^ 64
  first : s.rOnSecondHalf = false → s.rX < fb.width / 2 + font.width
  second : s.rOnSecondHalf = true →
    fb.width / 2 + font.width ≤ s.rX ∧ s.rX < fb.width + font.width
  writes : ∀ p ∈ s.writes, p.Inside fb

/-- The columns a glyph is drawn in. -/
structure InColumn (fb : BambooFb) (font : BambooFont) (s : Renderer) : Prop extends
    Columns fb font s where
  firstX : s.rOnSecondHalf = false → s.rX < fb.width / 2
  secondX : s.rOnSecondHalf = true → s.rX < fb.width

theorem secondColumn_of_room (hc : fb.width / 2 + font.width < fb.width) :
    secondColumn fb font = fb.width / 2 + font.width := by
  have := fb.width_lt
  exact Nat.mod_eq_of_lt (by omega)

theorem secondColumn_eq (h : Fits fb font) : secondColumn fb font = fb.width / 2 + font.width :=
  secondColumn_of_room h.columns

theorem Fits.sized (h : Fits fb font) : font.Sized := ⟨h.fontWidth, h.fontHeight⟩

theorem Fits.half_pos (h : Fits fb font) : 0 < fb.width / 2 := by
  have := h.columns
  have := h.fontWidth
  omega

theorem InColumn.of_first {s : Renderer} (hf : s.rOnSecondHalf = false) (hx : s.rX < fb.width / 2)
    (hy : s.rY < 2 ^ 64) (hw : ∀ p ∈ s.writes, p.Inside fb) : InColumn fb font s where
  row := hy
  first _ := by omega
  second hs := by simp [hf] at hs
  writes := hw
  firstX _ := hx
  secondX hs := by simp [hf] at hs

theorem InColumn.of_second {s : Renderer} (hs : s.rOnSecondHalf = true)
    (hx : fb.width / 2 + font.width ≤ s.rX) (hx' : s.rX < fb.width) (hy : s.rY < 2 ^ 64)
    (hw : ∀ p ∈ s.writes, p.Inside fb) : InColumn fb font s where
  row := hy
  first hf := by simp [hs] at hf
  second _ := ⟨hx, by omega⟩
  writes := hw
  firstX hf := by simp [hs] at hf
  secondX _ := hx'

theorem Columns.wrapLine (h : Fits fb font) {s : Renderer} (hs : Columns fb font s) :
    InColumn fb font (rendererWrapLine fb font s) := by
  have hrow : (s.rY + font.height) % 2 ^ 64 < 2 ^ 64 := Nat.mod_lt _ (by decide)
  unfold rendererWrapLine
  split
  · rename_i hfull
    exact .of_first hfull.1 h.half_pos hrow hs.writes
  · rename_i hfirst
    split
    · rename_i hfull
      rw [secondColumn_eq h]
      exact .of_second hfull.1 (Nat.le_refl _) h.columns hrow hs.writes
    · rename_i hsecond
      exact ⟨hs, fun hf => Nat.lt_of_not_le fun hle => hfirst ⟨hf, hle⟩,
        fun hf => Nat.lt_of_not_le fun hle => hsecond ⟨hf, hle⟩⟩

theorem InColumn.wrapHalf (h : Fits fb font) {s : Renderer} (hs : InColumn fb font s) :
    InColumn fb font (rendererWrapHalf fb font s) := by
  have hzero : 0 < 2 ^ 64 := by decide
  unfold rendererWrapHalf
  split
  · split
    · -- the second half starts in its first line
      rw [secondColumn_eq h]
      exact .of_second rfl (Nat.le_refl _) h.columns hzero hs.writes
    · -- a full screen is cleared
      exact .of_first rfl h.half_pos hzero (clearScreen_inside h hs.writes)
  · exact hs

/-- The row of the next glyph: the test for the last line is right unless its sum overflows. -/
theorem rendererPlace_row (h : Fits fb font) {s : Renderer} (hs : Columns fb font s) :
    (rendererPlace fb font s).rY + font.height < fb.height ↔
      (rendererWrapLine fb font s).rY + font.height < 2 ^ 64 := by
  have hrows := h.rows
  have hheight := fb.height_lt
  have hrow := (hs.wrapLine h).row
  unfold rendererPlace
  generalize rendererWrapLine fb font s = s at hrow
  unfold rendererWrapHalf
  split
  · rename_i hfull
    -- an overflowing sum is smaller than the font's height
    have hsum : s.rY + font.height < 2 ^ 64 := by omega
    split
    · dsimp only
      omega
    · dsimp only [rendererClearScreen]
      omega
  · omega

/-- A glyph in its columns, none of whose pixels reaches the second column from the first half. -/
theorem InColumn.glyph {s : Renderer} (hs : InColumn fb font s)
    (hrow : s.rY + font.height < fb.height) (c : BitVec 8) (colour : Nat) :
    GlyphPlaced fb font c colour s := by
  refine ⟨hrow, fun hf => ⟨hs.firstX hf, fun p hp => ?_⟩, fun hf => ⟨(hs.second hf).1, hs.secondX hf⟩⟩
  obtain ⟨xOff, hx, _, _, rfl, _, _⟩ := mem_drawCharAt hp
  have := hs.firstX hf
  have := Nat.mod_le (xOff + s.rX) (2 ^ 64)
  dsimp only
  omega

/-! ## Runs -/

theorem Columns.draw (h : Fits fb font) {s : Renderer} (hs : Columns fb font s) (c : BitVec 8)
    (colour : Nat) : Columns fb font (rendererDrawChar fb font c colour s) := by
  have hc := h.columns
  have hp := h.pitch
  have hpitch := fb.pitch_lt
  unfold rendererDrawChar
  split
  · rw [secondColumn_eq h]
    refine ⟨Nat.mod_lt _ (by decide), fun hf => ?_, fun hf => ?_, hs.writes⟩
    · have hf : s.rOnSecondHalf = false := hf
      have := h.fontWidth
      simp only [hf, Bool.false_eq_true, if_false]
      omega
    · have hf : s.rOnSecondHalf = true := hf
      simp only [hf, if_true]
      omega
  · have hcol : InColumn fb font (rendererPlace fb font s) := (hs.wrapLine h).wrapHalf h
    generalize rendererPlace fb font s = s at hcol
    have hwide := font.width_lt
    refine ⟨hcol.row, fun hf => ?_, fun hf => ?_, fun p hp => ?_⟩
    · have := hcol.firstX hf
      dsimp only
      omega
    · have := hcol.secondX hf
      have := hcol.second hf
      dsimp only
      omega
    · rcases List.mem_append.mp hp with hp | hp
      · exact hcol.writes p hp
      · exact drawCharAt_inside h hp

theorem rendererDrawChars_columns (h : Fits fb font) (calls : List (BitVec 8 × Nat)) :
    Columns fb font (rendererDrawChars fb font calls) := by
  induction calls using List.reverseRecOn with
  | nil =>
    have hstart : InColumn fb font {} :=
      .of_first rfl h.half_pos (Nat.two_pow_pos 64) fun p hp => by cases hp
    exact hstart.toColumns
  | append_singleton calls call ih =>
    unfold rendererDrawChars at ih ⊢
    rw [List.foldl_append]
    exact ih.draw h call.1 call.2

theorem rendererDrawChars_kept_iff (h : Fits fb font) (calls : List (BitVec 8 × Nat)) :
    ConsoleKept fb font calls ↔ RowsFit fb font calls := by
  constructor
  · intro hk before c colour after he hc
    exact (rendererPlace_row h (rendererDrawChars_columns h before)).mp (hk.1 before c colour after he hc).row
  · intro hr
    refine ⟨fun before c colour after he hc => ?_, (rendererDrawChars_columns h calls).writes⟩
    have hs := rendererDrawChars_columns h before
    have hcol : InColumn fb font (rendererPlace fb font (rendererDrawChars fb font before)) :=
      (hs.wrapLine h).wrapHalf h
    exact hcol.glyph ((rendererPlace_row h hs).mpr (hr before c colour after he hc)) c colour

theorem rendererWrapLine_row_le (s : Renderer) :
    (rendererWrapLine fb font s).rY ≤ s.rY + font.height := by
  have hmod := Nat.mod_le (s.rY + font.height) (2 ^ 64)
  unfold rendererWrapLine
  split
  · exact hmod
  · split
    · exact hmod
    · exact Nat.le_add_right _ _

/-- A call moves the cursor down by one line at most. -/
theorem rendererDrawChar_row_le (c : BitVec 8) (colour : Nat) (s : Renderer) :
    (rendererDrawChar fb font c colour s).rY ≤ s.rY + font.height := by
  unfold rendererDrawChar
  split
  · exact Nat.mod_le _ _
  · have hline : (rendererWrapLine fb font s).rY ≤ s.rY + font.height := rendererWrapLine_row_le s
    refine Nat.le_trans ?_ hline
    dsimp only [rendererPlace]
    generalize rendererWrapLine fb font s = s
    unfold rendererWrapHalf
    split
    · split
      · exact Nat.zero_le _
      · exact Nat.zero_le _
    · exact Nat.le_refl _

/-- No run of fewer than `2 ^ 64 / height - 1` calls comes near the overflow. -/
theorem rowsFit_of_length {calls : List (BitVec 8 × Nat)}
    (h : (calls.length + 1) * font.height < 2 ^ 64) : RowsFit fb font calls := by
  have hrow : ∀ before : List (BitVec 8 × Nat),
      (rendererDrawChars fb font before).rY ≤ before.length * font.height := by
    intro before
    induction before using List.reverseRecOn with
    | nil => exact Nat.zero_le _
    | append_singleton before call ih =>
      unfold rendererDrawChars at ih ⊢
      rw [List.foldl_append, List.length_append, List.length_singleton, Nat.succ_mul]
      exact Nat.le_trans (rendererDrawChar_row_le call.1 call.2 _) (Nat.add_le_add_right ih _)
  intro before c colour after he _
  have hlen : before.length + 2 ≤ calls.length + 1 := by
    rw [he]
    simp
  have hmul := Nat.mul_le_mul_right font.height hlen
  have hline : (rendererWrapLine fb font (rendererDrawChars fb font before)).rY ≤ _ :=
    rendererWrapLine_row_le _
  have := hrow before
  rw [Nat.add_mul] at hmul
  omega

end Cursor

/-! ## A small console -/

/-- 1024 by 768 pixels. -/
def smallFb : BambooFb where
  width := 1024
  height := 768
  pitch := 4096
  width_lt := by decide
  height_lt := by decide
  pitch_lt := by decide

/-- 128 glyphs of 8 by 16 pixels. -/
def smallFont : BambooFont where
  width := 8
  height := 16
  numGlyphs := 128
  bytesPerGlyph := 16
  mappings := id
  glyphs _ := 0xFF
  width_lt := by decide
  height_lt := by decide

theorem smallFont_fits : Fits smallFb smallFont := by
  constructor <;> decide

theorem rendererDrawChars_newlines (fb : BambooFb) (font : BambooFont) (n colour : Nat) :
    rendererDrawChars fb font (List.replicate n (newline, colour)) =
      { rY := n * font.height % 2 ^ 64 } := by
  induction n with
  | zero => simp [rendererDrawChars]
  | succ n ih =>
    unfold rendererDrawChars at ih ⊢
    rw [List.replicate_succ', List.foldl_append, ih, List.foldl_cons, List.foldl_nil,
      rendererDrawChar, if_pos rfl]
    simp only [Bool.false_eq_true, if_false, Renderer.mk.injEq, true_and, and_true]
    rw [Nat.succ_mul]
    omega

/-- After so many newlines that the sum in the test for the last line overflows, a glyph is put
there. -/
theorem not_kept_of_newlines {n : Nat} (hn : 2 ^ 64 ≤ n * 16 % 2 ^ 64 + 16) :
    ¬ ConsoleKept smallFb smallFont (List.replicate n (newline, 0) ++ [(0x41, 0xFFFFFF)]) := by
  intro h
  have hrow := (h.1 _ _ _ [] rfl (by decide)).row
  rw [rendererPlace_row smallFont_fits (rendererDrawChars_columns smallFont_fits _),
    rendererDrawChars_newlines, rendererWrapLine, if_neg (by simp [smallFb]), if_neg (by simp)] at hrow
  have hheight : smallFont.height = 16 := rfl
  rw [hheight] at hrow
  dsimp only at hrow
  omega

theorem newlines_not_kept :
    ¬ ConsoleKept smallFb smallFont
      (List.replicate (2 ^ 60 - 1) (newline, 0) ++ [(0x41, 0xFFFFFF)]) :=
  not_kept_of_newlines (by decide)

/-- More glyphs than the screen has room for: the lines wrap in both halves, and it is cleared. -/
theorem glyphs_kept :
    ConsoleKept smallFb smallFont (List.replicate 10000 (0x41, 0xFFFFFF)) := by
  refine (rendererDrawChars_kept_iff smallFont_fits _).mpr (rowsFit_of_length ?_)
  rw [List.length_replicate]
  decide

end BambooOS
