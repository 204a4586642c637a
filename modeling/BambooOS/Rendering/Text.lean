import BambooOS.Inc.Faults
import BambooOS.Rendering.Model

/-!
# Rendering.Text

Strings on the console of `renderer.c`. A word that would not fit on the rest of the line goes to
the next one; the room is counted in glyphs, and a font without a width divides by zero.

* `Console`: the renderer with the calls of `renderer_draw_char` it has got.
* `rendererDrawString_plain`: a string without a space is drawn character by character.
-/

namespace BambooOS

/-- The renderer, and the characters and colours passed to `renderer_draw_char` so far. -/
structure Console where
  renderer : Renderer := {}
  drawn : List (BitVec 8 × Nat) := []
  deriving DecidableEq, Repr

def Console.drawChar (fb : BambooFb) (font : BambooFont) (c : BitVec 8) (colour : Nat)
    (s : Console) : Console where
  renderer := rendererDrawChar fb font c colour s.renderer
  drawn := s.drawn ++ [(c, colour)]

def space : BitVec 8 := 0x20

/-- `a - b` on `uint64_t`. -/
def sub64 (a b : Nat) : Nat := (a + (2 ^ 64 - b)) % 2 ^ 64

-- unfolding the wrapped arithmetic by accident makes the elaborator count to `2 ^ 64`
attribute [irreducible] sub64

/-- The end of the line the cursor is on. -/
def lineEnd (fb : BambooFb) (s : Renderer) : Nat :=
  if s.rOnSecondHalf then fb.width else fb.width / 2

def rendererCharsLeftOnLine (fb : BambooFb) (font : BambooFont) (s : Renderer) : Except Fault Nat :=
  if font.width = 0 then .error .divideError else .ok (sub64 (lineEnd fb s) s.rX / font.width)

def rendererCharsPerLine (fb : BambooFb) (font : BambooFont) : Except Fault Nat :=
  if font.width = 0 then .error .divideError else .ok (fb.width / 2 / font.width)

/-- The scan of `renderer_draw_string` over the next `n` characters: is there a space among them, or
the end of the string? -/
def spaceWithin : List (BitVec 8) → Nat → Bool → Bool
  | [], n, isSpace => isSpace || decide (0 < n)
  | c :: cs, n, isSpace =>
    if n = 0 then isSpace else spaceWithin cs (n - 1) (isSpace || decide (c = space))

/-- `renderer_draw_string(string, colour)`, on the characters before the NUL. -/
def rendererDrawString (fb : BambooFb) (font : BambooFont) (colour : Nat) :
    List (BitVec 8) → Console → Except Fault Console
  | [], s => .ok s
  | c :: cs, s => do
    if c = space then
      let charsLeft ← rendererCharsLeftOnLine fb font s.renderer
      let charsPerLine ← rendererCharsPerLine fb font
      -- the scan starts at this very space
      if charsLeft < charsPerLine ∧ spaceWithin (c :: cs) charsLeft false = false then
        rendererDrawString fb font colour cs
          ((s.drawChar fb font newline 0).drawChar fb font c colour)
      else rendererDrawString fb font colour cs (s.drawChar fb font c colour)
    else rendererDrawString fb font colour cs (s.drawChar fb font c colour)

/-- Characters drawn one after the other. -/
def Console.drawAll (fb : BambooFb) (font : BambooFont) (colour : Nat) (cs : List (BitVec 8))
    (s : Console) : Console := cs.foldl (fun s c => s.drawChar fb font c colour) s

section Draw

variable {fb : BambooFb} {font : BambooFont} {colour : Nat}

@[simp] theorem drawAll_nil (s : Console) : s.drawAll fb font colour [] = s := rfl

@[simp] theorem drawAll_cons (c : BitVec 8) (cs : List (BitVec 8)) (s : Console) :
    s.drawAll fb font colour (c :: cs) = (s.drawChar fb font c colour).drawAll fb font colour cs := rfl

@[simp] theorem drawAll_append (cs cs' : List (BitVec 8)) (s : Console) :
    s.drawAll fb font colour (cs ++ cs') =
      (s.drawAll fb font colour cs).drawAll fb font colour cs' := by
  simp [Console.drawAll]

@[simp] theorem drawAll_drawn (cs : List (BitVec 8)) (s : Console) :
    (s.drawAll fb font colour cs).drawn = s.drawn ++ cs.map (·, colour) := by
  induction cs generalizing s with
  | nil => simp
  | cons c cs ih => simp [ih, Console.drawChar]

/-- Without a space the line is never looked at. -/
theorem rendererDrawString_plain {cs : List (BitVec 8)} (h : ∀ c ∈ cs, c ≠ space) (s : Console) :
    rendererDrawString fb font colour cs s = .ok (s.drawAll fb font colour cs) := by
  induction cs generalizing s with
  | nil => rfl
  | cons c cs ih =>
    rw [rendererDrawString, if_neg (h c List.mem_cons_self)]
    exact ih (fun c' hc => h c' (List.mem_cons_of_mem c hc)) _

/-- Only the count of the room on a line can fail. -/
theorem rendererDrawString_returns (fb : BambooFb) (hw : 0 < font.width) (colour : Nat)
    (cs : List (BitVec 8)) (s : Console) : ∃ s', rendererDrawString fb font colour cs s = .ok s' := by
  induction cs generalizing s with
  | nil => exact ⟨s, rfl⟩
  | cons c cs ih =>
    have hw' : ¬ font.width = 0 := by omega
    simp only [rendererDrawString, rendererCharsLeftOnLine, rendererCharsPerLine, if_neg hw', ok_bind]
    split
    · split
      · exact ih _
      · exact ih _
    · exact ih _

end Draw

end BambooOS
