import Mathlib.Tactic.Ring

/-!
# Rendering.Model

The console of `renderer.c`: its cursor, and the pixels it writes into the framebuffer. The cursor
and the framebuffer's sizes are 64 bits wide and the font's 32 bits.
-/

namespace BambooOS

/-- `bamboo_fb_t` without the buffer, whose writes are listed. -/
structure BambooFb where
  width : Nat
  height : Nat
  pitch : Nat
  width_lt : width < 2 ^ 64
  height_lt : height < 2 ^ 64
  pitch_lt : pitch < 2 ^ 64

/-- `bamboo_font_t`; `glyphs` are the bytes behind the pointer of that name. -/
structure BambooFont where
  width : Nat
  height : Nat
  numGlyphs : Nat
  bytesPerGlyph : Nat
  mappings : Nat → Nat
  glyphs : Nat → BitVec 8
  width_lt : width < 2 ^ 32
  height_lt : height < 2 ^ 32

/-- A font of a positive size. One without a width faults when the room on a line is counted, one
without a height at its first glyph, whose `pitch` is a quotient by it. -/
structure BambooFont.Sized (font : BambooFont) : Prop where
  width : 0 < font.width
  height : 0 < font.height

/-- A write of `colour` to `buffer[index]`, for the pixel in column `x` and row `y`. -/
structure Pixel where
  x : Nat
  y : Nat
  index : Nat
  colour : Nat
  deriving DecidableEq, Repr

/-- The cursor, and the writes to the framebuffer in order. -/
structure Renderer where
  rX : Nat := 0
  rY : Nat := 0
  rOnSecondHalf : Bool := false
  writes : List Pixel := []
  deriving DecidableEq, Repr

def colourBackground : Nat := 0x040405

/-- `(y * pitch / sizeof(uint32_t)) + x`. -/
def pixelIndex (fb : BambooFb) (x y : Nat) : Nat := ((y * fb.pitch) % 2 ^ 64 / 4 + x) % 2 ^ 64

def rendererSetPixel (fb : BambooFb) (x y colour : Nat) : List Pixel :=
  if x < fb.width ∧ y < fb.height then [⟨x, y, pixelIndex fb x y, colour⟩] else []

/-- As a `uint32_t` a character from 128 on is larger still, so both tests are about its byte. For fonts
with a height: the source's division by it faults at 0. -/
def rendererDrawCharAt (fb : BambooFb) (font : BambooFont) (c : BitVec 8) (x y colour : Nat) :
    List Pixel :=
  if font.numGlyphs ≤ c.toNat ∨ 128 ≤ c.toNat then []
  else
    let glyph := font.mappings c.toNat * font.bytesPerGlyph % 2 ^ 32
    let pitch := font.bytesPerGlyph / font.height
    (List.range font.height).flatMap fun yOff =>
      (List.range font.width).flatMap fun xOff =>
        let bits := font.glyphs (glyph + (yOff * pitch % 2 ^ 32 + xOff / 8) % 2 ^ 32)
        if bits.toNat >>> (7 - xOff % 8) &&& 1 = 1 then
          rendererSetPixel fb ((xOff + x) % 2 ^ 64) ((yOff + y) % 2 ^ 64) colour
        else []

def rendererClearScreen (fb : BambooFb) (colour : Nat) (s : Renderer) : Renderer :=
  { s with
    rX := 0
    rY := 0
    writes := s.writes ++ (List.range fb.height).flatMap fun y =>
      (List.range fb.width).map fun x => ⟨x, y, pixelIndex fb x y, colour⟩ }

/-! ## `renderer_draw_char` -/

/-- The start of a line in the second half. -/
def secondColumn (fb : BambooFb) (font : BambooFont) : Nat := (fb.width / 2 + font.width) % 2 ^ 64

/-- The first test: a line that is full. -/
def rendererWrapLine (fb : BambooFb) (font : BambooFont) (s : Renderer) : Renderer :=
  if s.rOnSecondHalf = false ∧ fb.width / 2 ≤ s.rX then
    { s with rY := (s.rY + font.height) % 2 ^ 64, rX := 0 }
  else if s.rOnSecondHalf = true ∧ fb.width ≤ s.rX then
    { s with rY := (s.rY + font.height) % 2 ^ 64, rX := secondColumn fb font }
  else s

/-- The second test: a half that is full. -/
def rendererWrapHalf (fb : BambooFb) (font : BambooFont) (s : Renderer) : Renderer :=
  if fb.height ≤ (s.rY + font.height) % 2 ^ 64 then
    if s.rOnSecondHalf = false then
      { s with rOnSecondHalf := true, rX := secondColumn fb font, rY := 0 }
    else rendererClearScreen fb colourBackground { s with rOnSecondHalf := false, rX := 0, rY := 0 }
  else s

/-- Where the next glyph is drawn. -/
def rendererPlace (fb : BambooFb) (font : BambooFont) (s : Renderer) : Renderer :=
  rendererWrapHalf fb font (rendererWrapLine fb font s)

def newline : BitVec 8 := 0x0A

def rendererDrawChar (fb : BambooFb) (font : BambooFont) (c : BitVec 8) (colour : Nat)
    (s : Renderer) : Renderer :=
  if c = newline then
    { s with
      rY := (s.rY + font.height) % 2 ^ 64
      rX := if s.rOnSecondHalf then secondColumn fb font else 0 }
  else
    let s := rendererPlace fb font s
    { s with
      rX := (s.rX + font.width) % 2 ^ 64
      writes := s.writes ++ rendererDrawCharAt fb font c s.rX s.rY colour }

/-- Calls of `renderer_draw_char` with their colours, from the cursor after `renderer_init`. -/
def rendererDrawChars (fb : BambooFb) (font : BambooFont) (calls : List (BitVec 8 × Nat)) : Renderer :=
  calls.foldl (fun s call => rendererDrawChar fb font call.1 call.2 s) {}

end BambooOS
