import BambooOS.Inc.Format
import BambooOS.Rendering.Screen

/-!
# Inc.Console

What the kernel prints is on the screen: from the boot code's clear screen on, whatever calls of
`printf` are made, the framebuffer is the picture of a page with their texts one after the other.

* `printfCalls_mono`: a run that ends does so with more fuel too.
* `printfCalls_pictured`: every run ends, with its text on the screen.
-/

namespace BambooOS

/-- A call of `printf` with a format an `int` can count and no open percent sign at its end. -/
structure PrintfCall where
  format : Int → BitVec 8
  args : Nat → VaArg
  chars : List (BitVec 8)
  isCString : IsCString format chars
  length_lt : chars.length < 2 ^ 31
  closed : endsOpen chars = false

/-- Calls of `printf`, each from the colour and the console the last one left. -/
def printfCalls (fb : BambooFb) (font : BambooFont) (fuel : Nat) :
    List PrintfCall → Console × Nat → Except Fault (Console × Nat)
  | [], s => .ok s
  | call :: calls, s => do
    let s ← (printf fb font call.format call.args fuel s.2 s.1).2
    printfCalls fb font fuel calls s

/-- The texts of the calls one after the other, from a console on: each has newlines before some of
its spaces, and in front at most a newline and a space where its format may lead. -/
def PrintedText (fb : BambooFb) (font : BambooFont) (colour : Nat) :
    List PrintfCall → Console → List (BitVec 8 × Nat) → Prop
  | [], _, drawn => drawn = []
  | call :: calls, s, drawn => ∃ lead ps rest, drawn = lead ++ ps ++ rest ∧
      (lead = [] ∨ lead = leadCalls ∧ MayLead fb font call.chars s) ∧
        Wrapped (formatted call.args call.chars 0 colour) ps ∧
          PrintedText fb font colour calls (s.drawCalls fb font (lead ++ ps)) rest

/-- The console when the kernel starts. -/
def bootConsole (fb : BambooFb) : Console := { renderer := clearedConsole fb }

section Calls

variable {fb : BambooFb} {font : BambooFont}

theorem printfLoop_mono {format : Int → BitVec 8} {args : Nat → VaArg} {fuel fuel' : Nat}
    (hle : fuel ≤ fuel') {st st' : PrintfState} {used : List Int}
    (e : printfLoop fb font format args fuel st = (used, .ok st')) :
    printfLoop fb font format args fuel' st = (used, .ok st') := by
  induction fuel generalizing fuel' st used with
  | zero => cases e
  | succ fuel ih =>
    obtain ⟨fuel', rfl⟩ : ∃ k, fuel' = k + 1 := ⟨fuel' - 1, by omega⟩
    rw [printfLoop] at e ⊢
    cases hstep : printfStep fb font format args st with
    | mk used1 r =>
      rw [hstep] at e
      cases r with
      | error err => cases e
      | ok next =>
        cases next with
        | none => exact e
        | some st1 =>
          cases hrest : printfLoop fb font format args fuel st1 with
          | mk used2 r2 =>
            simp only [hrest, Prod.mk.injEq] at e
            obtain ⟨hused, hr2⟩ := e
            rw [hr2] at hrest
            simp only [ih (Nat.le_of_succ_le_succ hle) hrest, hused]

theorem printf_mono {format : Int → BitVec 8} {args : Nat → VaArg} {fuel fuel' : Nat}
    (hle : fuel ≤ fuel') {colour : Nat} {s : Console} {s' : Console × Nat}
    (e : (printf fb font format args fuel colour s).2 = .ok s') :
    (printf fb font format args fuel' colour s).2 = .ok s' := by
  unfold printf at e ⊢
  dsimp only at e ⊢
  cases hloop : printfLoop fb font format args fuel { printColour := colour, console := s } with
  | mk used r =>
    rw [hloop] at e
    cases r with
    | error err => cases e
    | ok st =>
      rw [printfLoop_mono hle hloop]
      exact e

/-- A run that ends does so with more fuel too. -/
theorem printfCalls_mono {fuel fuel' : Nat} (hle : fuel ≤ fuel') (calls : List PrintfCall)
    {s s' : Console × Nat} (e : printfCalls fb font fuel calls s = .ok s') :
    printfCalls fb font fuel' calls s = .ok s' := by
  induction calls generalizing s with
  | nil => exact e
  | cons call calls ih =>
    obtain ⟨s1, e1, e⟩ := bind_ok e
    rw [printfCalls, printf_mono hle e1]
    exact ih e

theorem printfCalls_prints (fb : BambooFb) (hf : font.Sized) (colour : Nat)
    (calls : List PrintfCall) (s : Console) :
    ∃ fuel drawn, printfCalls fb font fuel calls (s, colour) =
        .ok (s.drawCalls fb font drawn, colour) ∧ PrintedText fb font colour calls s drawn := by
  induction calls generalizing s with
  | nil => exact ⟨0, [], rfl, rfl⟩
  | cons call calls ih =>
    obtain ⟨fuel, used, lead, ps, e, hps, hlead⟩ := printf_prints fb call.args
      call.isCString hf call.length_lt call.closed colour s
    obtain ⟨fuel', rest, e', hrest⟩ := ih (s.drawCalls fb font (lead ++ ps))
    refine ⟨max fuel fuel', lead ++ ps ++ rest, ?_, lead, ps, rest, rfl, hlead, hps, hrest⟩
    have hcall : (printf fb font call.format call.args fuel colour s).2 =
        .ok (s.drawCalls fb font (lead ++ ps), colour) := by rw [e]
    rw [printfCalls, printf_mono (Nat.le_max_left fuel fuel') hcall, ok_bind,
      printfCalls_mono (Nat.le_max_right fuel fuel') calls e', drawCalls_append _ rest]

/-- Whatever is printed from the start of the kernel on is on the screen. -/
theorem printfCalls_pictured (h : Drawable fb font) (buffer : Nat → Nat) (colour : Nat)
    (calls : List PrintfCall) :
    ∃ fuel s, printfCalls fb font fuel calls (bootConsole fb, colour) = .ok (s, colour) ∧
      PrintedText fb font colour calls (bootConsole fb) s.drawn ∧
      ((s.drawn.length + 1) * font.height < 2 ^ 64 → ∀ x y, x < fb.width → y < fb.height →
        framebuffer buffer s.renderer.writes (pixelIndex fb x y) =
          picture fb font
            (TextGrid.run (textLayout fb font) (s.drawn.map textCall)).cells x y) := by
  obtain ⟨fuel, drawn, e, htext⟩ := printfCalls_prints fb ⟨h.fontWidth, h.fontHeight⟩ colour
    calls (bootConsole fb)
  have hdrawn : ((bootConsole fb).drawCalls fb font drawn).drawn = drawn := drawCalls_drawn _ _
  refine ⟨fuel, _, e, ?_, fun hlen => ?_⟩
  · rw [hdrawn]
    exact htext
  · rw [hdrawn] at hlen ⊢
    rw [drawCalls_renderer]
    exact (drawFrom_shows h buffer hlen).pictured

end Calls

/-- `printf("n=%d", -5)`. -/
def numberCall : PrintfCall where
  format := formatOf numberChars
  args _ := { int := -5 }
  chars := numberChars
  isCString := formatOf_isCString (by decide)
  length_lt := by decide
  closed := by decide

/-- `printf(" %c", 'A')`. -/
def letterCall : PrintfCall where
  format := formatOf [space, percent, ascii 'c']
  args _ := { int := 0x41 }
  chars := [space, percent, ascii 'c']
  isCString := formatOf_isCString (by decide)
  length_lt := by decide
  closed := by decide

theorem letters_pictured :
    ∃ fuel s, printfCalls smallFb smallFont fuel [numberCall, letterCall]
        (bootConsole smallFb, 0xFFFFFF) = .ok (s, 0xFFFFFF) ∧
      PrintedText smallFb smallFont 0xFFFFFF [numberCall, letterCall] (bootConsole smallFb) s.drawn ∧
      ((s.drawn.length + 1) * 16 < 2 ^ 64 → ∀ x y, x < 1024 → y < 768 →
        framebuffer (fun _ => 0) s.renderer.writes (pixelIndex smallFb x y) =
          picture smallFb smallFont
            (TextGrid.run (textLayout smallFb smallFont) (s.drawn.map textCall)).cells x y) :=
  printfCalls_pictured smallFont_drawable (fun _ => 0) 0xFFFFFF [numberCall, letterCall]

end BambooOS
