import BambooOS.Rendering.Grid
import BambooOS.Rendering.Room

/-!
# Rendering.Screen

The screen shows the text. The framebuffer is written pixel by pixel and cleared only when both
columns are full; still, after every call it holds the picture of a page of text.

* `pixelIndex_inj`: no two pixels of the screen share an element of the buffer.
* `mem_drawCharAt_iff`: the pixels of a glyph are its bits.
* `Shows.draw`: a call of `renderer_draw_char` does on the screen what it does on the page.
* `drawFrom_shows`: so every run does.
-/

namespace BambooOS

/-- Lines of the screen do not overlap, and the buffer does not wrap around the address space. -/
structure Drawable (fb : BambooFb) (font : BambooFont) : Prop where
  pitch : 4 * fb.width ≤ fb.pitch
  buffer : fb.height * fb.pitch ≤ 2 ^ 64
  fontHeight : 0 < font.height
  fontWidth : 0 < font.width

/-! ## The buffer -/

/-- `r_fb->buffer` after the writes. -/
def framebuffer (buffer : Nat → Nat) (writes : List Pixel) : Nat → Nat :=
  writes.foldl (fun b p => Function.update b p.index p.colour) buffer

/-- A pixel of the screen, where the buffer has it. -/
def Pixel.OnScreen (fb : BambooFb) (p : Pixel) : Prop :=
  p.x < fb.width ∧ p.y < fb.height ∧ p.index = pixelIndex fb p.x p.y

section Buffer

variable {fb : BambooFb} {font : BambooFont} {buffer : Nat → Nat}

@[simp] theorem framebuffer_append (buffer : Nat → Nat) (ws ws' : List Pixel) :
    framebuffer buffer (ws ++ ws') = framebuffer (framebuffer buffer ws) ws' := by
  simp [framebuffer]

theorem framebuffer_other {ws : List Pixel} {i : Nat} (h : ∀ p ∈ ws, p.index ≠ i)
    (buffer : Nat → Nat) : framebuffer buffer ws i = buffer i := by
  induction ws generalizing buffer with
  | nil => rfl
  | cons w ws ih =>
    have hw := h w List.mem_cons_self
    refine (ih (fun p hp => h p (List.mem_cons_of_mem w hp)) _).trans ?_
    exact Function.update_of_ne (Ne.symm hw) _ _

theorem framebuffer_colour {ws : List Pixel} {colour i : Nat} (h : ∀ p ∈ ws, p.colour = colour)
    (hi : ∃ p ∈ ws, p.index = i) (buffer : Nat → Nat) : framebuffer buffer ws i = colour := by
  induction ws generalizing buffer with
  | nil =>
    obtain ⟨p, hp, _⟩ := hi
    cases hp
  | cons w ws ih =>
    by_cases hrest : ∃ p ∈ ws, p.index = i
    · exact ih (fun p hp => h p (List.mem_cons_of_mem w hp)) hrest _
    · have hlast : ∀ p ∈ ws, p.index ≠ i := fun p hp he => hrest ⟨p, hp, he⟩
      obtain ⟨p, hp, he⟩ := hi
      cases List.mem_cons.mp hp with
      | inl hpw =>
        refine (framebuffer_other hlast _).trans ?_
        have hw := h w List.mem_cons_self
        simp [← he, hpw, hw]
      | inr hp => exact absurd he (hlast p hp)

/-! ## Pixels -/

theorem Drawable.width_lt (h : Drawable fb font) : fb.width < 2 ^ 62 := by
  have := h.pitch
  have := fb.pitch_lt
  omega

theorem pixelIndex_eq (h : Drawable fb font) {x y : Nat} (hx : x < fb.width) (hy : y < fb.height) :
    pixelIndex fb x y = y * fb.pitch / 4 + x := by
  have hp := h.pitch
  have hlines : (y + 1) * fb.pitch ≤ fb.height * fb.pitch := Nat.mul_le_mul_right _ hy
  have hb := h.buffer
  rw [Nat.succ_mul] at hlines
  unfold pixelIndex
  rw [Nat.mod_eq_of_lt (a := y * fb.pitch) (by omega), Nat.mod_eq_of_lt (by omega)]

theorem pixelIndex_lt_row (h : Drawable fb font) {x y y' : Nat} (hx : x < fb.width) (hy : y < y')
    (x' : Nat) : y * fb.pitch / 4 + x < y' * fb.pitch / 4 + x' := by
  have hp := h.pitch
  have hlines : (y + 1) * fb.pitch ≤ y' * fb.pitch := Nat.mul_le_mul_right _ hy
  rw [Nat.succ_mul] at hlines
  omega

/-- Pixels of the screen have elements of their own. -/
theorem pixelIndex_inj (h : Drawable fb font) {x x' y y' : Nat} (hx : x < fb.width)
    (hy : y < fb.height) (hx' : x' < fb.width) (hy' : y' < fb.height)
    (he : pixelIndex fb x y = pixelIndex fb x' y') : x = x' ∧ y = y' := by
  rw [pixelIndex_eq h hx hy, pixelIndex_eq h hx' hy'] at he
  rcases Nat.lt_trichotomy y y' with hlt | heq | hgt
  · have := pixelIndex_lt_row h hx hlt x'
    omega
  · subst heq
    exact ⟨by omega, rfl⟩
  · have := pixelIndex_lt_row h hx' hgt x
    omega

end Buffer

/-! ## Glyphs -/

/-- The bit of the glyph of `c` in the column `xOff` and the row `yOff`; the highest bit of a byte is
its first one. A character without a glyph has none. -/
def glyphBit (font : BambooFont) (c : BitVec 8) (xOff yOff : Nat) : Bool :=
  let glyph := font.mappings c.toNat * font.bytesPerGlyph % 2 ^ 32
  let pitch := font.bytesPerGlyph / font.height
  decide (c.toNat < font.numGlyphs ∧ c.toNat < 128) &&
    (font.glyphs (glyph + (yOff * pitch % 2 ^ 32 + xOff / 8) % 2 ^ 32)).getLsbD (7 - xOff % 8)

theorem bit_iff (b : BitVec 8) (k : Nat) : b.toNat >>> k &&& 1 = 1 ↔ b.getLsbD k = true := by
  rw [BitVec.getLsbD, Nat.testBit, Nat.and_comm, Nat.one_and_eq_mod_two, bne_iff_ne]
  omega

section Glyphs

variable {fb : BambooFb} {font : BambooFont} {c : BitVec 8} {x y colour : Nat}

theorem mem_setPixel_iff {p : Pixel} : p ∈ rendererSetPixel fb x y colour ↔
    p = ⟨x, y, pixelIndex fb x y, colour⟩ ∧ x < fb.width ∧ y < fb.height := by
  unfold rendererSetPixel
  split
  · next h => simp [h]
  · next h => simp [h]

/-- The writes for a glyph are the pixels of its bits that are on the screen. -/
theorem mem_drawCharAt_iff (hx : x + font.width ≤ 2 ^ 64) (hy : y + font.height ≤ 2 ^ 64)
    {p : Pixel} : p ∈ rendererDrawCharAt fb font c x y colour ↔
      p.OnScreen fb ∧ p.colour = colour ∧ (x ≤ p.x ∧ p.x < x + font.width) ∧
        (y ≤ p.y ∧ p.y < y + font.height) ∧ glyphBit font c (p.x - x) (p.y - y) = true := by
  unfold rendererDrawCharAt glyphBit
  split
  · next hnone =>
    have hnone' : ¬ (c.toNat < font.numGlyphs ∧ c.toNat < 128) := by omega
    simp [hnone']
  · next hglyph =>
    have hglyph' : c.toNat < font.numGlyphs ∧ c.toNat < 128 := by omega
    simp only [List.mem_flatMap, List.mem_range, hglyph']
    constructor
    · intro h
      obtain ⟨yOff, hyOff, xOff, hxOff, hp⟩ := h
      split at hp
      · next hbit =>
        obtain ⟨rfl, hsx, hsy⟩ := mem_setPixel_iff.mp hp
        have hxeq : (xOff + x) % 2 ^ 64 = xOff + x := Nat.mod_eq_of_lt (by omega)
        have hyeq : (yOff + y) % 2 ^ 64 = yOff + y := Nat.mod_eq_of_lt (by omega)
        rw [hxeq] at hsx
        rw [hyeq] at hsy
        simp only [hxeq, hyeq, Nat.add_sub_cancel]
        refine ⟨⟨hsx, hsy, rfl⟩, trivial, by omega, by omega, ?_⟩
        exact (bit_iff _ _).mp hbit
      · cases hp
    · intro h
      obtain ⟨⟨hsx, hsy, hindex⟩, hcolour, hpx, hpy, hbit⟩ := h
      refine ⟨p.y - y, by omega, p.x - x, by omega, ?_⟩
      rw [if_pos ((bit_iff _ _).mpr hbit)]
      have hxeq : (p.x - x + x) % 2 ^ 64 = p.x := by omega
      have hyeq : (p.y - y + y) % 2 ^ 64 = p.y := by omega
      rw [hxeq, hyeq, mem_setPixel_iff]
      refine ⟨?_, hsx, hsy⟩
      rw [← hindex, ← hcolour]

end Glyphs

/-! ## The page on the screen -/

/-- The left side of a column. -/
def columnStart (fb : BambooFb) (font : BambooFont) (second : Bool) : Nat :=
  if second then fb.width / 2 + font.width else 0

/-- The side a line of a column is full at. -/
def columnEnd (fb : BambooFb) (second : Bool) : Nat := if second then fb.width else fb.width / 2

/-- The page a screen has room for: the last cell of a line may reach over the column's end, and the
last line is left free. -/
def textLayout (fb : BambooFb) (font : BambooFont) : Layout where
  rows := (fb.height - 1) / font.height
  cols second :=
    (columnEnd fb second - columnStart fb font second + (font.width - 1)) / font.width

/-- The colour of a pixel on the picture of a page. -/
def picture (fb : BambooFb) (font : BambooFont) (cells : Bool → Nat → Nat → Option (BitVec 8 × Nat))
    (x y : Nat) : Nat :=
  let second := decide (fb.width / 2 + font.width ≤ x)
  let xColumn := x - columnStart fb font second
  match cells second (y / font.height) (xColumn / font.width) with
  | some (c, colour) =>
    if glyphBit font c (xColumn % font.width) (y % font.height) then colour else colourBackground
  | none => colourBackground

/-- The framebuffer holds the picture of the page. -/
def Pictured (fb : BambooFb) (font : BambooFont) (buffer : Nat → Nat)
    (cells : Bool → Nat → Nat → Option (BitVec 8 × Nat)) : Prop :=
  ∀ x y, x < fb.width → y < fb.height →
    buffer (pixelIndex fb x y) = picture fb font cells x y

/-- The cursor of the console is the one of the page. -/
structure CursorAt (fb : BambooFb) (font : BambooFont) (s : Renderer)
    (g : TextGrid (BitVec 8 × Nat)) : Prop where
  second : s.rOnSecondHalf = g.second
  x : s.rX = columnStart fb font g.second + g.col * font.width
  y : s.rY = g.row * font.height

/-- The console and the page agree: the cursor, the picture, and which cells are still free. -/
structure Shows (fb : BambooFb) (font : BambooFont) (buffer : Nat → Nat) (s : Renderer)
    (g : TextGrid (BitVec 8 × Nat)) : Prop extends CursorAt fb font s g where
  within : g.Within (textLayout fb font)
  filled : g.Filled
  writes : ∀ p ∈ s.writes, p.OnScreen fb
  pictured : Pictured fb font (framebuffer buffer s.writes) g.cells

/-- What a call of `renderer_draw_char` puts on the page. -/
def textCall (call : BitVec 8 × Nat) : Option (BitVec 8 × Nat) :=
  if call.1 = newline then none else some call

section Page

variable {fb : BambooFb} {font : BambooFont} {s : Renderer} {g : TextGrid (BitVec 8 × Nat)}
  {buffer : Nat → Nat}

theorem Drawable.secondColumn (h : Drawable fb font) :
    secondColumn fb font = columnStart fb font true := by
  have := h.width_lt
  have := font.width_lt
  exact Nat.mod_eq_of_lt (by omega)

theorem columnEnd_le_iff (h : Drawable fb font) (second : Bool) (col : Nat) :
    columnEnd fb second ≤ columnStart fb font second + col * font.width ↔
      (textLayout fb font).cols second ≤ col := by
  simp only [textLayout, Nat.div_le_iff_le_mul_add_pred h.fontWidth]
  rw [Nat.mul_comm font.width col]
  omega

theorem height_le_iff (h : Drawable fb font) (row : Nat) :
    fb.height ≤ row * font.height + font.height ↔ (textLayout fb font).rows ≤ row := by
  have hpos := h.fontHeight
  simp only [textLayout, Nat.div_le_iff_le_mul_add_pred hpos]
  rw [Nat.mul_comm font.height row]
  omega

theorem textCursor_lt (h : Drawable fb font) (hw : g.Within (textLayout fb font)) :
    columnStart fb font g.second + g.col * font.width + font.width < 2 ^ 64 := by
  have hwide := h.width_lt
  have hfont := font.width_lt
  have hstart : columnStart fb font g.second ≤ fb.width + font.width := by
    unfold columnStart
    split
    · omega
    · omega
  have hcells : (textLayout fb font).cols g.second * font.width ≤ fb.width + font.width := by
    refine Nat.le_trans (Nat.div_mul_le_self _ _) ?_
    unfold columnEnd
    split
    · omega
    · omega
  have hcol : g.col * font.width ≤ fb.width + font.width := by
    cases hw with
    | inl hle => exact Nat.le_trans (Nat.mul_le_mul_right _ hle) hcells
    | inr hone => exact Nat.le_trans (Nat.mul_le_mul_right _ hone) (by omega)
  omega

/-! ## A step -/

theorem lineStart_eq (h : Drawable fb font) (hc : CursorAt fb font s g) :
    lineStart fb font s = columnStart fb font g.second := by
  rw [lineStart, hc.second, h.secondColumn]
  cases g.second with
  | false => rfl
  | true => rfl

theorem CursorAt.nextLine (h : Drawable fb font) (hc : CursorAt fb font s g)
    (hrow : (g.row + 1) * font.height < 2 ^ 64) :
    CursorAt fb font
      { s with rY := (s.rY + font.height) % 2 ^ 64, rX := lineStart fb font s } g.nextLine := by
  rw [Nat.succ_mul] at hrow
  refine ⟨hc.second, ?_, ?_⟩
  · simp [TextGrid.nextLine, lineStart_eq h hc]
  · simp only [TextGrid.nextLine, hc.y, Nat.succ_mul]
    exact Nat.mod_eq_of_lt hrow

/-- Both tests of the source for a full line are one. -/
theorem rendererWrapLine_eq (fb : BambooFb) (font : BambooFont) (s : Renderer) :
    rendererWrapLine fb font s =
      if lineEnd fb s ≤ s.rX then
        { s with rY := (s.rY + font.height) % 2 ^ 64, rX := lineStart fb font s }
      else s := by
  unfold rendererWrapLine lineEnd lineStart
  cases hs : s.rOnSecondHalf with
  | false => simp
  | true => simp

theorem CursorAt.wrapLine (h : Drawable fb font) (hc : CursorAt fb font s g)
    (hrow : (g.row + 1) * font.height < 2 ^ 64) :
    CursorAt fb font (rendererWrapLine fb font s) (g.wrapLine (textLayout fb font)) := by
  have hfull : lineEnd fb s ≤ s.rX ↔ (textLayout fb font).cols g.second ≤ g.col := by
    rw [← columnEnd_le_iff h, hc.x, lineEnd, hc.second, columnEnd]
  rw [rendererWrapLine_eq, TextGrid.wrapLine]
  by_cases hle : (textLayout fb font).cols g.second ≤ g.col
  · rw [if_pos hle, if_pos (hfull.mpr hle)]
    exact hc.nextLine h hrow
  · rw [if_neg hle, if_neg (mt hfull.mp hle)]
    exact hc

@[simp] theorem rendererWrapLine_writes (fb : BambooFb) (font : BambooFont) (s : Renderer) :
    (rendererWrapLine fb font s).writes = s.writes := by
  rw [rendererWrapLine_eq]
  split
  · rfl
  · rfl

theorem clearScreen_pictured (buffer : Nat → Nat) (s : Renderer) :
    Pictured fb font (framebuffer buffer (rendererClearScreen fb colourBackground s).writes)
      fun _ _ _ => none := by
  intro x y hx hy
  rw [rendererClearScreen, framebuffer_append]
  refine framebuffer_colour (fun p hp => ?_) ?_ _
  · simp only [List.mem_flatMap, List.mem_map] at hp
    obtain ⟨_, _, _, _, rfl⟩ := hp
    rfl
  · refine ⟨⟨x, y, pixelIndex fb x y, colourBackground⟩, ?_, rfl⟩
    simp only [List.mem_flatMap, List.mem_map, List.mem_range]
    exact ⟨y, hy, x, hx, rfl⟩

theorem CursorAt.wrapHalf (h : Drawable fb font) (hc : CursorAt fb font s g)
    (hrow : (g.row + 1) * font.height < 2 ^ 64)
    (hp : Pictured fb font (framebuffer buffer s.writes) g.cells) :
    CursorAt fb font (rendererWrapHalf fb font s) (g.wrapColumn (textLayout fb font)) ∧
      Pictured fb font (framebuffer buffer (rendererWrapHalf fb font s).writes)
        (g.wrapColumn (textLayout fb font)).cells := by
  rw [Nat.succ_mul] at hrow
  have hfull : fb.height ≤ (s.rY + font.height) % 2 ^ 64 ↔ (textLayout fb font).rows ≤ g.row := by
    rw [← height_le_iff h, hc.y, Nat.mod_eq_of_lt hrow]
  unfold rendererWrapHalf TextGrid.wrapColumn
  by_cases hle : (textLayout fb font).rows ≤ g.row
  · rw [if_pos hle, if_pos (hfull.mpr hle), hc.second]
    cases g.second with
    | false =>
      refine ⟨⟨rfl, ?_, ?_⟩, hp⟩
      · simp [h.secondColumn]
      · simp
    | true =>
      refine ⟨⟨rfl, ?_, ?_⟩, clearScreen_pictured buffer _⟩
      · simp [rendererClearScreen, columnStart]
      · simp [rendererClearScreen]
  · rw [if_neg hle, if_neg (mt hfull.mp hle)]
    exact ⟨hc, hp⟩

theorem cell_iff (h : Drawable fb font) {second : Bool} {col : Nat} (row x y : Nat)
    (hroom : second = false → col * font.width ≤ fb.width / 2) :
    (columnStart fb font second + col * font.width ≤ x ∧
        x < columnStart fb font second + col * font.width + font.width) ∧
      (row * font.height ≤ y ∧ y < row * font.height + font.height) ↔
    decide (fb.width / 2 + font.width ≤ x) = second ∧ y / font.height = row ∧
      (x - columnStart fb font second) / font.width = col := by
  have hwidth := h.fontWidth
  have hheight := h.fontHeight
  rw [Nat.div_eq_iff hheight, Nat.div_eq_iff hwidth]
  cases second with
  | false =>
    have hroom := hroom rfl
    simp only [columnStart, Bool.false_eq_true, if_false, decide_eq_false_iff_not]
    omega
  | true =>
    simp only [columnStart, if_true, decide_eq_true_eq]
    omega

theorem cell_offset {a w k : Nat} (hk : a / w = k) : a - k * w = a % w := by
  have hdiv := Nat.div_add_mod a w
  rw [hk, Nat.mul_comm] at hdiv
  omega

/-- A glyph at the cursor is drawn in a cell of its own. -/
theorem glyph_pictured (h : Drawable fb font) (hc : CursorAt fb font s g)
    (hp : Pictured fb font (framebuffer buffer s.writes) g.cells) (hfilled : g.Filled)
    (hroom : g.second = false → g.col * font.width ≤ fb.width / 2)
    (hx : s.rX + font.width ≤ 2 ^ 64) (hy : s.rY + font.height ≤ 2 ^ 64) (c : BitVec 8)
    (colour : Nat) :
    Pictured fb font
      (framebuffer buffer (s.writes ++ rendererDrawCharAt fb font c s.rX s.rY colour))
      (g.set (c, colour)).cells := by
  intro x y hsx hsy
  -- a write to this pixel's element is about this pixel
  have hwrite : ∀ p ∈ rendererDrawCharAt fb font c s.rX s.rY colour,
      p.index = pixelIndex fb x y → p.x = x ∧ p.y = y := by
    intro p hmem hindex
    obtain ⟨⟨hpx, hpy, hat⟩, _⟩ := (mem_drawCharAt_iff hx hy).mp hmem
    exact pixelIndex_inj h hpx hpy hsx hsy (hat.symm.trans hindex)
  have hcell := cell_iff h g.row x y hroom
  rw [← hc.x, ← hc.y] at hcell
  rw [framebuffer_append]
  by_cases hin : decide (fb.width / 2 + font.width ≤ x) = g.second ∧ y / font.height = g.row ∧
      (x - columnStart fb font g.second) / font.width = g.col
  · have hrect := hcell.mpr hin
    obtain ⟨hsecond, hrow, hcol⟩ := hin
    have hxOff : x - s.rX = (x - columnStart fb font g.second) % font.width := by
      rw [← cell_offset hcol, hc.x]
      omega
    have hyOff : y - s.rY = y % font.height := by
      rw [← cell_offset hrow, hc.y]
    have hnew : picture fb font (g.set (c, colour)).cells x y =
        if glyphBit font c (x - s.rX) (y - s.rY) then colour else colourBackground := by
      simp [picture, TextGrid.set, hsecond, hrow, hcol, hxOff, hyOff]
    have hold : picture fb font g.cells x y = colourBackground := by
      simp [picture, hsecond, hrow, hcol, hfilled.cursor]
    rw [hnew]
    by_cases hbit : glyphBit font c (x - s.rX) (y - s.rY) = true
    · rw [if_pos hbit]
      refine framebuffer_colour (fun p hmem => ((mem_drawCharAt_iff hx hy).mp hmem).2.1) ?_ _
      exact ⟨⟨x, y, pixelIndex fb x y, colour⟩,
        (mem_drawCharAt_iff hx hy).mpr ⟨⟨hsx, hsy, rfl⟩, rfl, hrect.1, hrect.2, hbit⟩, rfl⟩
    · rw [if_neg hbit, ← hold]
      refine (framebuffer_other (fun p hmem hindex => hbit ?_) _).trans (hp x y hsx hsy)
      obtain ⟨rfl, rfl⟩ := hwrite p hmem hindex
      exact ((mem_drawCharAt_iff hx hy).mp hmem).2.2.2.2
  · have hnew : picture fb font (g.set (c, colour)).cells x y = picture fb font g.cells x y := by
      have hcells : (g.set (c, colour)).cells (decide (fb.width / 2 + font.width ≤ x))
          (y / font.height) ((x - columnStart fb font (decide (fb.width / 2 + font.width ≤ x))) /
            font.width) =
          g.cells (decide (fb.width / 2 + font.width ≤ x)) (y / font.height)
            ((x - columnStart fb font (decide (fb.width / 2 + font.width ≤ x))) / font.width) := by
        refine if_neg fun hat => hin ⟨hat.1, hat.2.1, ?_⟩
        rw [← hat.1]
        exact hat.2.2
      simp only [picture, hcells]
    rw [hnew]
    refine (framebuffer_other (fun p hmem hindex => hin ?_) _).trans (hp x y hsx hsy)
    obtain ⟨rfl, rfl⟩ := hwrite p hmem hindex
    obtain ⟨_, _, hpx, hpy, _⟩ := (mem_drawCharAt_iff hx hy).mp hmem
    exact hcell.mp ⟨hpx, hpy⟩

/-! ## Writes outside the screen -/

theorem drawCharAt_onScreen {c : BitVec 8} {x y colour : Nat} {p : Pixel}
    (hp : p ∈ rendererDrawCharAt fb font c x y colour) : p.OnScreen fb := by
  obtain ⟨_, _, _, _, rfl, hx, hy⟩ := mem_drawCharAt hp
  exact ⟨hx, hy, rfl⟩

theorem clearScreen_onScreen {colour : Nat} (hs : ∀ p ∈ s.writes, p.OnScreen fb) :
    ∀ p ∈ (rendererClearScreen fb colour s).writes, p.OnScreen fb := by
  intro p hp
  cases List.mem_append.mp hp with
  | inl hp => exact hs p hp
  | inr hp =>
    simp only [List.mem_flatMap, List.mem_map, List.mem_range] at hp
    obtain ⟨y, hy, x, hx, rfl⟩ := hp
    exact ⟨hx, hy, rfl⟩

theorem wrapHalf_onScreen (hs : ∀ p ∈ s.writes, p.OnScreen fb) :
    ∀ p ∈ (rendererWrapHalf fb font s).writes, p.OnScreen fb := by
  unfold rendererWrapHalf
  split
  · split
    · exact hs
    · exact clearScreen_onScreen hs
  · exact hs

/-! ## Runs -/

theorem glyph_shows (h : Drawable fb font) (hc : CursorAt fb font s g)
    (hp : Pictured fb font (framebuffer buffer s.writes) g.cells) (hfilled : g.Filled)
    (hwrites : ∀ p ∈ s.writes, p.OnScreen fb)
    (hcell : g.col < (textLayout fb font).cols g.second ∨ g.col = 0)
    (hrow : (g.row + 1) * font.height < 2 ^ 64) (c : BitVec 8) (colour : Nat) :
    Shows fb font buffer
      { s with
        rX := (s.rX + font.width) % 2 ^ 64
        writes := s.writes ++ rendererDrawCharAt fb font c s.rX s.rY colour }
      (g.set (c, colour)) := by
  have hwithin : g.Within (textLayout fb font) := by
    cases hcell with
    | inl hlt => exact .inl (Nat.le_of_lt hlt)
    | inr hzero => exact .inr (by omega)
  have hx : s.rX + font.width < 2 ^ 64 := by
    rw [hc.x]
    exact textCursor_lt h hwithin
  have hy : s.rY + font.height < 2 ^ 64 := by
    rw [hc.y, ← Nat.succ_mul]
    exact hrow
  have hroom : g.second = false → g.col * font.width ≤ fb.width / 2 := by
    intro hfirst
    cases hcell with
    | inl hlt =>
      have hnot := mt (columnEnd_le_iff h g.second g.col).mp (Nat.not_le.mpr hlt)
      simp only [hfirst, columnEnd, columnStart, Bool.false_eq_true, if_false] at hnot
      omega
    | inr hzero => simp [hzero]
  refine ⟨⟨hc.second, ?_, hc.y⟩, ?_, hfilled.set _, ?_, ?_⟩
  · simp only [TextGrid.set, hc.x, Nat.succ_mul, ← Nat.add_assoc]
    exact Nat.mod_eq_of_lt (textCursor_lt h hwithin)
  · cases hcell with
    | inl hlt => exact .inl hlt
    | inr hzero => exact .inr (by simp [TextGrid.set, hzero])
  · intro p hp
    cases List.mem_append.mp hp with
    | inl hp => exact hwrites p hp
    | inr hp => exact drawCharAt_onScreen hp
  · exact glyph_pictured h hc hp hfilled hroom (Nat.le_of_lt hx) (Nat.le_of_lt hy) c colour

/-- A call does on the screen what it does on the page. -/
theorem Shows.draw (h : Drawable fb font) (hs : Shows fb font buffer s g)
    (hrow : (g.row + 2) * font.height < 2 ^ 64) (c : BitVec 8) (colour : Nat) :
    Shows fb font buffer (rendererDrawChar fb font c colour s)
      (g.draw (textLayout fb font) (textCall (c, colour))) := by
  have hrow1 : (g.row + 1) * font.height < 2 ^ 64 :=
    Nat.lt_of_le_of_lt (Nat.mul_le_mul_right _ (by omega)) hrow
  unfold textCall
  by_cases hc : c = newline
  · rw [if_pos hc, hc, rendererDrawChar_newline]
    exact ⟨hs.toCursorAt.nextLine h hrow1, TextGrid.draw_within _ _ none, hs.filled.nextLine,
      hs.writes, hs.pictured⟩
  · rw [if_neg hc, rendererDrawChar, if_neg hc]
    have hline := hs.toCursorAt.wrapLine h hrow1
    have hlineRow : ((g.wrapLine (textLayout fb font)).row + 1) * font.height < 2 ^ 64 := by
      have hle := TextGrid.wrapLine_row_le (textLayout fb font) g
      exact Nat.lt_of_le_of_lt (Nat.mul_le_mul_right _ (by omega)) hrow
    have hpage : Pictured fb font (framebuffer buffer (rendererWrapLine fb font s).writes)
        (g.wrapLine (textLayout fb font)).cells := by
      simpa using hs.pictured
    obtain ⟨hplace, hplaced⟩ := hline.wrapHalf h hlineRow hpage
    have hwrites : ∀ p ∈ (rendererPlace fb font s).writes, p.OnScreen fb :=
      wrapHalf_onScreen (by simpa using hs.writes)
    have hrowPlace : (g.place (textLayout fb font)).row ≤
        (g.wrapLine (textLayout fb font)).row := TextGrid.wrapColumn_row_le _ _
    exact glyph_shows h hplace hplaced hs.filled.place hwrites (TextGrid.place_within _ g)
      (Nat.lt_of_le_of_lt (Nat.mul_le_mul_right _ (Nat.succ_le_succ hrowPlace)) hlineRow) c colour

/-- The console after the boot code's `renderer_clear_screen`. -/
def clearedConsole (fb : BambooFb) : Renderer := rendererClearScreen fb colourBackground {}

theorem clearedConsole_shows (fb : BambooFb) (font : BambooFont) (buffer : Nat → Nat) :
    Shows fb font buffer (clearedConsole fb) {} := by
  refine ⟨⟨rfl, ?_, ?_⟩, .inr (Nat.zero_le 1), TextGrid.filled_empty,
    clearScreen_onScreen fun p hp => ?_, clearScreen_pictured buffer _⟩
  · simp [clearedConsole, rendererClearScreen, columnStart]
  · simp [clearedConsole, rendererClearScreen]
  · cases hp

theorem drawFrom_shows (h : Drawable fb font) (buffer : Nat → Nat) {calls : List (BitVec 8 × Nat)}
    (hlen : (calls.length + 1) * font.height < 2 ^ 64) :
    Shows fb font buffer (drawFrom fb font calls (clearedConsole fb))
      (TextGrid.run (textLayout fb font) (calls.map textCall)) := by
  induction calls using List.reverseRecOn with
  | nil => exact clearedConsole_shows fb font buffer
  | append_singleton calls call ih =>
    rw [List.length_append, List.length_singleton] at hlen
    have hrow : (TextGrid.run (textLayout fb font) (calls.map textCall)).row ≤ calls.length := by
      simpa using TextGrid.run_row_le (l := textLayout fb font) (calls.map textCall)
    have hs := ih (Nat.lt_of_le_of_lt (Nat.mul_le_mul_right _ (Nat.le_succ _)) hlen)
    rw [drawFrom_append, List.map_append, List.map_singleton, TextGrid.run_append_singleton]
    exact hs.draw h (Nat.lt_of_le_of_lt (Nat.mul_le_mul_right _ (by omega)) hlen) call.1 call.2

/-- After every run of `renderer_draw_char` on a cleared screen the framebuffer is the picture of the
text on a page of two columns, and what lies between the lines of the screen is as it was. -/
theorem console_pictured (h : Drawable fb font) (buffer : Nat → Nat)
    (calls : List (BitVec 8 × Nat)) (hlen : (calls.length + 1) * font.height < 2 ^ 64) :
    (∀ x y, x < fb.width → y < fb.height →
      framebuffer buffer (drawFrom fb font calls (clearedConsole fb)).writes (pixelIndex fb x y) =
        picture fb font (TextGrid.run (textLayout fb font) (calls.map textCall)).cells x y) ∧
    ∀ i, (∀ x y, x < fb.width → y < fb.height → pixelIndex fb x y ≠ i) →
      framebuffer buffer (drawFrom fb font calls (clearedConsole fb)).writes i = buffer i := by
  have hs := drawFrom_shows h buffer hlen
  refine ⟨hs.pictured, fun i hi => framebuffer_other (fun p hp he => ?_) buffer⟩
  obtain ⟨hx, hy, hat⟩ := hs.writes p hp
  exact hi p.x p.y hx hy (hat.symm.trans he)

end Page

/-! ## A small console -/

theorem smallFont_drawable : Drawable smallFb smallFont := by
  constructor <;> decide

/-- A letter fills the first cell, up to its last pixel. -/
theorem letter_pictured :
    framebuffer (fun _ => 0) (drawFrom smallFb smallFont [(letter, 0xFFFFFF)]
      (clearedConsole smallFb)).writes (pixelIndex smallFb 7 15) = 0xFFFFFF := by
  have hs := (console_pictured smallFont_drawable (fun _ => 0) [(letter, 0xFFFFFF)]
    (by decide)).1 7 15 (by decide) (by decide)
  rw [hs]
  decide

end BambooOS
