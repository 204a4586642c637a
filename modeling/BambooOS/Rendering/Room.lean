import BambooOS.Rendering.Cursor
import BambooOS.Rendering.Text

/-!
# Rendering.Room

The room left on a line, which the word wraps of `printf` and `renderer_draw_string` ask for. The
cursor is brought back to its column only before the next glyph, so after the last glyph of a line
it stands behind the column's end unless the glyphs fill the line exactly.

* `OnLine.draw`: where both columns are whole numbers of glyphs the cursor never passes their end.
* `overrun`: a column that is not a whole number of glyphs is passed by a full line.
* `roomTrue_iff`: the count is the true one in every run exactly for such screens.
-/

namespace BambooOS

/-- The subtraction in `renderer_chars_left_on_line` does not wrap, and the count is the true
one. -/
def RoomTrue (fb : BambooFb) (font : BambooFont) (s : Renderer) : Prop :=
  s.rX ≤ lineEnd fb s ∧
    rendererCharsLeftOnLine fb font s = .ok ((lineEnd fb s - s.rX) / font.width) ∧
    (lineEnd fb s - s.rX) / font.width ≤ fb.width / font.width

/-- The cursor gets into the second half: some number of lines is one too many for the screen. -/
def SecondUsed (fb : BambooFb) (font : BambooFont) : Prop :=
  ∃ k, fb.height ≤ k * font.height % 2 ^ 64

/-- The columns the console uses are whole numbers of glyphs. A screen without rows changes halves
at every glyph, and only its second half needs room for two of them. -/
def WholeColumns (fb : BambooFb) (font : BambooFont) : Prop :=
  if fb.height = 0 then fb.width / 2 + 2 * font.width ≤ fb.width
  else fb.width / 2 % font.width = 0 ∧
    (SecondUsed fb font → (fb.width - fb.width / 2) % font.width = 0)

section Room

variable {fb : BambooFb} {font : BambooFont} {s : Renderer}

theorem sub64_eq {a b : Nat} (h : b ≤ a) (ha : a < 2 ^ 64) : sub64 a b = a - b := by
  unfold sub64
  omega

theorem lineEnd_le : lineEnd fb s ≤ fb.width := by
  unfold lineEnd
  split
  · exact Nat.le_refl _
  · exact Nat.div_le_self _ _

/-- Only the subtraction matters. -/
theorem roomTrue_of_le (hw : 0 < font.width) (h : s.rX ≤ lineEnd fb s) : RoomTrue fb font s := by
  have hle : lineEnd fb s ≤ fb.width := lineEnd_le
  have hwide := fb.width_lt
  have hw' : ¬ font.width = 0 := by omega
  refine ⟨h, ?_, Nat.div_le_div_right (by omega)⟩
  rw [rendererCharsLeftOnLine, if_neg hw', sub64_eq h (by omega)]

/-- The start of a line in the half the cursor is in. -/
def lineStart (fb : BambooFb) (font : BambooFont) (s : Renderer) : Nat :=
  if s.rOnSecondHalf then secondColumn fb font else 0

/-! ## A call -/

theorem rendererDrawChar_newline (colour : Nat) (s : Renderer) :
    rendererDrawChar fb font newline colour s =
      { s with rY := (s.rY + font.height) % 2 ^ 64, rX := lineStart fb font s } := if_pos rfl

theorem rendererPlace_of_room (hx : s.rX < lineEnd fb s)
    (hy : (s.rY + font.height) % 2 ^ 64 < fb.height) : rendererPlace fb font s = s := by
  unfold lineEnd at hx
  have hline : rendererWrapLine fb font s = s := by
    cases hhalf : s.rOnSecondHalf with
    | false =>
      simp only [hhalf, Bool.false_eq_true, if_false] at hx
      simp [rendererWrapLine, hhalf, Nat.not_le.mpr hx]
    | true =>
      simp only [hhalf, if_true] at hx
      simp [rendererWrapLine, hhalf, Nat.not_le.mpr hx]
  rw [rendererPlace, hline, rendererWrapHalf, if_neg (by omega)]

theorem rendererPlace_half (font : BambooFont) (hx : s.rX < lineEnd fb s)
    (hhalf : s.rOnSecondHalf = false) (hy : fb.height ≤ (s.rY + font.height) % 2 ^ 64) : rendererPlace fb font s =
      { s with rOnSecondHalf := true, rX := secondColumn fb font, rY := 0 } := by
  simp only [lineEnd, hhalf, Bool.false_eq_true, if_false] at hx
  have hline : rendererWrapLine fb font s = s := by
    simp [rendererWrapLine, hhalf, Nat.not_le.mpr hx]
  rw [rendererPlace, hline, rendererWrapHalf, if_pos hy, if_pos hhalf]

theorem rendererDrawChar_glyph (fb : BambooFb) (font : BambooFont) (s : Renderer) {c : BitVec 8}
    (hc : c ≠ newline) (colour : Nat) :
    (rendererDrawChar fb font c colour s).rOnSecondHalf = (rendererPlace fb font s).rOnSecondHalf ∧
      (rendererDrawChar fb font c colour s).rX =
        ((rendererPlace fb font s).rX + font.width) % 2 ^ 64 ∧
      (rendererDrawChar fb font c colour s).rY = (rendererPlace fb font s).rY := by
  rw [rendererDrawChar, if_neg hc]
  exact ⟨rfl, rfl, rfl⟩

/-! ## Whole columns -/

/-- What holds after every call: the cursor is a number of glyphs and lines from the start of its
half, and not behind the half's end. -/
structure OnLine (fb : BambooFb) (font : BambooFont) (s : Renderer) : Prop where
  glyphs : font.width ∣ s.rX
  lines : ∃ k, s.rY = k * font.height % 2 ^ 64
  le : s.rX ≤ lineEnd fb s
  half : s.rOnSecondHalf = true → SecondUsed fb font

/-- The columns that are used are whole numbers of glyphs. -/
structure WholeLines (fb : BambooFb) (font : BambooFont) : Prop where
  width : 0 < font.width
  columns : fb.width / 2 + font.width < fb.width
  first : font.width ∣ fb.width / 2
  second : SecondUsed fb font → font.width ∣ fb.width - fb.width / 2

theorem WholeLines.half_pos (h : WholeLines fb font) : 0 < fb.width / 2 := by
  have := h.width
  have := h.columns
  omega

theorem WholeLines.dvd_width (h : WholeLines fb font) (hs : SecondUsed fb font) : font.width ∣ fb.width := by
  have hsum := Nat.dvd_add h.first (h.second hs)
  rwa [show fb.width / 2 + (fb.width - fb.width / 2) = fb.width by omega] at hsum

theorem WholeLines.dvd_secondColumn (h : WholeLines fb font) : font.width ∣ secondColumn fb font := by
  rw [secondColumn_of_room h.columns]
  exact Nat.dvd_add h.first (Nat.dvd_refl _)

theorem OnLine.dvd_lineEnd (h : WholeLines fb font) (hs : OnLine fb font s) :
    font.width ∣ lineEnd fb s := by
  unfold lineEnd
  split
  · next hhalf => exact h.dvd_width (hs.half hhalf)
  · exact h.first

theorem lineStart_dvd_lt (h : WholeLines fb font) (s : Renderer) :
    font.width ∣ lineStart fb font s ∧ lineStart fb font s < lineEnd fb s := by
  unfold lineStart lineEnd
  split
  · refine ⟨h.dvd_secondColumn, ?_⟩
    rw [secondColumn_of_room h.columns]
    exact h.columns
  · exact ⟨Nat.dvd_zero _, h.half_pos⟩

theorem lines_succ {y : Nat} (hy : ∃ k, y = k * font.height % 2 ^ 64) :
    ∃ k, (y + font.height) % 2 ^ 64 = k * font.height % 2 ^ 64 := by
  obtain ⟨k, rfl⟩ := hy
  refine ⟨k + 1, ?_⟩
  rw [Nat.succ_mul, Nat.mod_add_mod]

theorem OnLine.newline (h : WholeLines fb font) (hs : OnLine fb font s) :
    OnLine fb font { s with rY := (s.rY + font.height) % 2 ^ 64, rX := lineStart fb font s } where
  glyphs := (lineStart_dvd_lt h s).1
  lines := lines_succ hs.lines
  le := Nat.le_of_lt (lineStart_dvd_lt h s).2
  half := hs.half

theorem OnLine.wrapLine (h : WholeLines fb font) (hs : OnLine fb font s) :
    OnLine fb font (rendererWrapLine fb font s) ∧
      (rendererWrapLine fb font s).rX < lineEnd fb (rendererWrapLine fb font s) := by
  have hstart := (lineStart_dvd_lt h s).2
  have hnext := hs.newline h
  cases hhalf : s.rOnSecondHalf with
  | false =>
    have he : lineStart fb font s = 0 := by simp [lineStart, hhalf]
    rw [he] at hstart hnext
    unfold rendererWrapLine
    split
    · exact ⟨hnext, hstart⟩
    · next hfull =>
      have hroom : s.rX < fb.width / 2 := Nat.lt_of_not_le fun hle => hfull ⟨hhalf, hle⟩
      rw [if_neg (by simp [hhalf])]
      exact ⟨hs, by simpa [lineEnd, hhalf] using hroom⟩
  | true =>
    have he : lineStart fb font s = secondColumn fb font := by simp [lineStart, hhalf]
    rw [he] at hstart hnext
    unfold rendererWrapLine
    rw [if_neg (by simp [hhalf])]
    split
    · exact ⟨hnext, hstart⟩
    · next hfull =>
      have hroom : s.rX < fb.width := Nat.lt_of_not_le fun hle => hfull ⟨hhalf, hle⟩
      exact ⟨hs, by simpa [lineEnd, hhalf] using hroom⟩

theorem OnLine.wrapHalf (h : WholeLines fb font) (hs : OnLine fb font s) (hx : s.rX < lineEnd fb s) :
    OnLine fb font (rendererWrapHalf fb font s) ∧
      (rendererWrapHalf fb font s).rX < lineEnd fb (rendererWrapHalf fb font s) := by
  unfold rendererWrapHalf
  split
  · next hfull =>
    split
    · have hused : SecondUsed fb font := by
        obtain ⟨k, hk⟩ := lines_succ hs.lines
        exact ⟨k, hk ▸ hfull⟩
      have hstart : secondColumn fb font < fb.width := by
        rw [secondColumn_of_room h.columns]
        exact h.columns
      exact ⟨⟨h.dvd_secondColumn, ⟨0, by simp⟩, Nat.le_of_lt hstart, fun _ => hused⟩, hstart⟩
    · exact ⟨⟨Nat.dvd_zero _, ⟨0, by simp [rendererClearScreen]⟩, Nat.zero_le _,
        fun hhalf => by cases hhalf⟩, h.half_pos⟩
  · exact ⟨hs, hx⟩

theorem OnLine.draw (h : WholeLines fb font) (hs : OnLine fb font s) (c : BitVec 8) (colour : Nat) :
    OnLine fb font (rendererDrawChar fb font c colour s) := by
  by_cases hc : c = BambooOS.newline
  · rw [hc, rendererDrawChar_newline]
    exact hs.newline h
  · obtain ⟨hline, hx⟩ := hs.wrapLine h
    obtain ⟨hp, hx⟩ : OnLine fb font (rendererPlace fb font s) ∧
      (rendererPlace fb font s).rX < lineEnd fb (rendererPlace fb font s) := hline.wrapHalf h hx
    obtain ⟨ehalf, ex, ey⟩ := rendererDrawChar_glyph fb font s hc colour
    have hend : lineEnd fb (rendererDrawChar fb font c colour s) =
        lineEnd fb (rendererPlace fb font s) := by
      unfold lineEnd
      rw [ehalf]
    -- the next multiple of the glyph's width is not behind the end
    have hle : (rendererPlace fb font s).rX + font.width ≤ lineEnd fb (rendererPlace fb font s) := by
      obtain ⟨a, ha⟩ := hp.glyphs
      obtain ⟨b, hb⟩ := hp.dvd_lineEnd h
      rw [ha, hb] at hx ⊢
      have hab : a < b := Nat.lt_of_mul_lt_mul_left hx
      rw [← Nat.mul_succ]
      exact Nat.mul_le_mul_left _ hab
    have hwide := fb.width_lt
    have hlast : lineEnd fb (rendererPlace fb font s) ≤ fb.width := lineEnd_le
    have hmod : (rendererDrawChar fb font c colour s).rX =
        (rendererPlace fb font s).rX + font.width := by
      rw [ex]
      exact Nat.mod_eq_of_lt (by omega)
    refine ⟨?_, ?_, ?_, ?_⟩
    · rw [hmod]
      exact Nat.dvd_add hp.glyphs (Nat.dvd_refl _)
    · rw [ey]
      exact hp.lines
    · rw [hmod, hend]
      exact hle
    · rw [ehalf]
      exact hp.half

theorem rendererDrawChars_onLine (h : WholeLines fb font) (calls : List (BitVec 8 × Nat)) :
    OnLine fb font (rendererDrawChars fb font calls) := by
  induction calls using List.reverseRecOn with
  | nil =>
    exact ⟨Nat.dvd_zero _, ⟨0, by simp [rendererDrawChars]⟩, Nat.zero_le _, fun h => by cases h⟩
  | append_singleton calls call ih =>
    unfold rendererDrawChars at ih ⊢
    rw [List.foldl_append]
    exact ih.draw h call.1 call.2

/-- On a screen without rows every glyph is the first of a line. -/
theorem rendererDrawChar_noRows (hc : fb.width / 2 + font.width < fb.width)
    (hrows : fb.height = 0) (htwo : fb.width / 2 + 2 * font.width ≤ fb.width) (c : BitVec 8)
    (colour : Nat) (s : Renderer) : (rendererDrawChar fb font c colour s).rX ≤
      lineEnd fb (rendererDrawChar fb font c colour s) := by
  have hsecond : secondColumn fb font = fb.width / 2 + font.width := secondColumn_of_room hc
  by_cases hn : c = newline
  · rw [hn, rendererDrawChar_newline]
    unfold lineStart lineEnd
    dsimp only
    split
    · omega
    · exact Nat.zero_le _
  · obtain ⟨ehalf, ex, _⟩ := rendererDrawChar_glyph fb font s hn colour
    have hwide := fb.width_lt
    have hmod := Nat.mod_le ((rendererPlace fb font s).rX + font.width) (2 ^ 64)
    unfold lineEnd
    rw [ehalf, ex]
    have hplace : ((rendererPlace fb font s).rOnSecondHalf = true ∧
        (rendererPlace fb font s).rX = secondColumn fb font) ∨
        ((rendererPlace fb font s).rOnSecondHalf = false ∧ (rendererPlace fb font s).rX = 0) := by
      unfold rendererPlace rendererWrapHalf
      rw [if_pos (by omega)]
      split
      · exact .inl ⟨rfl, rfl⟩
      · exact .inr ⟨rfl, rfl⟩
    cases hplace with
    | inl h =>
      rw [if_pos h.1]
      omega
    | inr h =>
      rw [if_neg (by simp [h.1])]
      omega

/-! ## Full lines -/

/-- Calls from any cursor. -/
def drawFrom (fb : BambooFb) (font : BambooFont) (calls : List (BitVec 8 × Nat)) (s : Renderer) :
    Renderer := calls.foldl (fun s call => rendererDrawChar fb font call.1 call.2 s) s

theorem drawFrom_append (calls calls' : List (BitVec 8 × Nat)) (s : Renderer) :
    drawFrom fb font (calls ++ calls') s = drawFrom fb font calls' (drawFrom fb font calls s) :=
  List.foldl_append

theorem drawFrom_newlines (fb : BambooFb) (font : BambooFont) (n : Nat) (s : Renderer) :
    drawFrom fb font (List.replicate (n + 1) (newline, 0)) s =
      { s with rY := (s.rY + (n + 1) * font.height) % 2 ^ 64, rX := lineStart fb font s } := by
  induction n with
  | zero =>
    simp only [drawFrom, List.replicate_succ, List.replicate_zero, List.foldl_cons, List.foldl_nil,
      rendererDrawChar_newline, Nat.zero_add, Nat.one_mul]
  | succ n ih =>
    rw [List.replicate_succ', drawFrom_append, ih]
    simp only [drawFrom, List.foldl_cons, List.foldl_nil, rendererDrawChar_newline, Nat.mod_add_mod,
      Nat.succ_mul, Nat.add_assoc]
    rfl

theorem drawFrom_glyphs (fb : BambooFb) (font : BambooFont) (s : Renderer) {c : BitVec 8}
    (hc : c ≠ newline) (n : Nat) (hy : (s.rY + font.height) % 2 ^ 64 < fb.height)
    (hfit : s.rX + n * font.width < 2 ^ 64)
    (hroom : ∀ j < n, s.rX + j * font.width < lineEnd fb s) :
    (drawFrom fb font (List.replicate n (c, 0)) s).rX = s.rX + n * font.width ∧
      (drawFrom fb font (List.replicate n (c, 0)) s).rY = s.rY ∧
      (drawFrom fb font (List.replicate n (c, 0)) s).rOnSecondHalf = s.rOnSecondHalf := by
  induction n with
  | zero => simp [drawFrom]
  | succ n ih =>
    rw [Nat.succ_mul] at hfit ⊢
    obtain ⟨ix, iy, ihalf⟩ := ih (by omega) fun j hj => hroom j (by omega)
    rw [List.replicate_succ', drawFrom_append]
    generalize drawFrom fb font (List.replicate n (c, 0)) s = t at ix iy ihalf
    have hend : lineEnd fb t = lineEnd fb s := by
      unfold lineEnd
      rw [ihalf]
    have hplace : rendererPlace fb font t = t := by
      refine rendererPlace_of_room ?_ ?_
      · rw [ix, hend]
        exact hroom n (Nat.lt_succ_self n)
      · rw [iy]
        exact hy
    obtain ⟨ehalf, ex, ey⟩ := rendererDrawChar_glyph fb font t hc 0
    rw [hplace] at ehalf ex ey
    refine ⟨?_, ey.trans iy, ehalf.trans ihalf⟩
    show (rendererDrawChar fb font c 0 t).rX = _
    rw [ex, ix, Nat.mod_eq_of_lt (by omega)]
    omega

/-- A letter. -/
def letter : BitVec 8 := 0x41

/-- From the first row, a column that is no whole number of glyphs is passed by a full line: after
so many newlines that the row is about to start again from the top, its glyphs stay in this half. -/
theorem overrun (fb : BambooFb) (font : BambooFont) (s : Renderer) (hw : 0 < font.width)
    (hrows : 0 < fb.height) (hy : s.rY = 0)
    (hstart : lineStart fb font s < lineEnd fb s) (hfit : lineEnd fb s + font.width ≤ 2 ^ 64)
    (hpart : (lineEnd fb s - lineStart fb font s) % font.width ≠ 0) :
    ∃ calls, ¬ (drawFrom fb font calls s).rX ≤ lineEnd fb (drawFrom fb font calls s) := by
  obtain ⟨n, hn⟩ : ∃ n, n + 2 = 2 ^ 64 := ⟨2 ^ 64 - 2, rfl⟩
  have hnewlines := drawFrom_newlines fb font n s
  generalize List.replicate (n + 1) (newline, 0) = before at hnewlines
  -- the glyphs that start before the column's end
  obtain ⟨m, hm⟩ : ∃ m, (lineEnd fb s - lineStart fb font s) / font.width = m := ⟨_, rfl⟩
  have hsplit := Nat.div_add_mod (lineEnd fb s - lineStart fb font s) font.width
  have hlt := Nat.mod_lt (lineEnd fb s - lineStart fb font s) hw
  rw [hm, Nat.mul_comm] at hsplit
  refine ⟨before ++ List.replicate (m + 1) (letter, 0), ?_⟩
  rw [drawFrom_append, hnewlines]
  have hrow : ((s.rY + (n + 1) * font.height) % 2 ^ 64 + font.height) % 2 ^ 64 < fb.height := by
    have hsum : s.rY + (n + 1) * font.height + font.height = 2 ^ 64 * font.height := by
      rw [hy, ← hn]
      ring
    rw [Nat.mod_add_mod, hsum, Nat.mul_mod_right]
    exact hrows
  obtain ⟨ex, _, ehalf⟩ := drawFrom_glyphs fb font
    { s with rY := (s.rY + (n + 1) * font.height) % 2 ^ 64, rX := lineStart fb font s }
    (show letter ≠ newline by decide) (m + 1) hrow
    (by
      dsimp only
      rw [Nat.succ_mul]
      omega)
    (fun j hj => by
      have := Nat.mul_le_mul_right font.width (Nat.le_of_lt_succ hj)
      show lineStart fb font s + j * font.width < lineEnd fb s
      omega)
  have hend : lineEnd fb (drawFrom fb font (List.replicate (m + 1) (letter, 0))
      { s with rY := (s.rY + (n + 1) * font.height) % 2 ^ 64, rX := lineStart fb font s }) =
      lineEnd fb s := by
    unfold lineEnd
    rw [ehalf]
  rw [hend, ex]
  dsimp only
  rw [Nat.succ_mul]
  omega

/-! ## Whole columns are enough, and needed -/

theorem roomTrue_of_wholeColumns (hw : 0 < font.width)
    (hc : fb.width / 2 + font.width < fb.width) (h : WholeColumns fb font)
    (calls : List (BitVec 8 × Nat)) : RoomTrue fb font (rendererDrawChars fb font calls) := by
  refine roomTrue_of_le hw ?_
  unfold WholeColumns at h
  split at h
  · next hrows =>
    induction calls using List.reverseRecOn with
    | nil => exact Nat.zero_le _
    | append_singleton calls call _ =>
      unfold rendererDrawChars
      rw [List.foldl_append]
      exact rendererDrawChar_noRows hc hrows h call.1 call.2 _
  · have hwhole : WholeLines fb font :=
      ⟨hw, hc, Nat.dvd_of_mod_eq_zero h.1, fun hs => Nat.dvd_of_mod_eq_zero (h.2 hs)⟩
    exact (rendererDrawChars_onLine hwhole calls).le

/-- After a line too many, the next glyph is the first of the second half. -/
theorem second_reached (hw : 0 < font.width) (hc : fb.width / 2 + font.width < fb.width)
    (hrows : 0 < fb.height) (hs : SecondUsed fb font) :
    ∃ calls, (drawFrom fb font calls {}).rOnSecondHalf = true ∧
      (drawFrom fb font calls {}).rY = 0 := by
  obtain ⟨k, hk⟩ := hs
  cases k with
  | zero =>
    rw [Nat.zero_mul, Nat.zero_mod] at hk
    omega
  | succ k =>
    have hhalf : 0 < fb.width / 2 := by omega
    have hto : ∀ s : Renderer, s.rOnSecondHalf = false → s.rX = 0 →
        fb.height ≤ (s.rY + font.height) % 2 ^ 64 →
        (drawFrom fb font [(letter, 0)] s).rOnSecondHalf = true ∧
          (drawFrom fb font [(letter, 0)] s).rY = 0 := by
      intro s hf hx hy
      have hroom : s.rX < lineEnd fb s := by
        rw [hx, lineEnd, if_neg (by simp [hf])]
        exact hhalf
      have hplace := rendererPlace_half font hroom hf hy
      obtain ⟨ehalf, _, ey⟩ := rendererDrawChar_glyph fb font s
        (show letter ≠ newline by decide) 0
      rw [hplace] at ehalf ey
      exact ⟨ehalf, ey⟩
    cases k with
    | zero => exact ⟨[(letter, 0)], hto {} rfl rfl (by simpa using hk)⟩
    | succ k =>
      refine ⟨List.replicate (k + 1) (newline, 0) ++ [(letter, 0)], ?_⟩
      rw [drawFrom_append, drawFrom_newlines]
      refine hto _ rfl rfl ?_
      dsimp only
      rw [Nat.zero_add, Nat.mod_add_mod, ← Nat.succ_mul]
      exact hk

theorem wholeColumns_of_roomTrue (hw : 0 < font.width)
    (hc : fb.width / 2 + font.width < fb.width) (hfit : fb.width + font.width ≤ 2 ^ 64)
    (h : ∀ calls, RoomTrue fb font (rendererDrawChars fb font calls)) : WholeColumns fb font := by
  have hle : ∀ calls, (drawFrom fb font calls {}).rX ≤ lineEnd fb (drawFrom fb font calls {}) :=
    fun calls => (h calls).1
  have hhalf : 0 < fb.width / 2 := by omega
  unfold WholeColumns
  split
  · next hrows =>
    have hone := hle [(letter, 0)]
    have hroom : ({} : Renderer).rX < lineEnd fb {} := hhalf
    have hplace := rendererPlace_half font hroom rfl (by omega)
    obtain ⟨ehalf, ex, _⟩ := rendererDrawChar_glyph fb font {}
      (show letter ≠ newline by decide) 0
    rw [hplace] at ehalf ex
    have hx : (drawFrom fb font [(letter, 0)] {}).rX = fb.width / 2 + 2 * font.width := by
      refine ex.trans ?_
      dsimp only
      rw [secondColumn_of_room hc, Nat.mod_eq_of_lt (by omega)]
      omega
    have hend : lineEnd fb (drawFrom fb font [(letter, 0)] {}) = fb.width := if_pos ehalf
    rw [hx, hend] at hone
    exact hone
  · next hrows =>
    constructor
    · by_contra hpart
      obtain ⟨calls, hover⟩ := overrun fb font {} hw (by omega) rfl
        (by simpa [lineStart, lineEnd] using hhalf) (by
          show fb.width / 2 + font.width ≤ 2 ^ 64
          omega) hpart
      exact hover (hle calls)
    · intro hs
      by_contra hpart
      obtain ⟨before, hsecond, hy⟩ := second_reached hw hc (by omega) hs
      have hle' : ∀ calls, (drawFrom fb font calls (drawFrom fb font before {})).rX ≤
          lineEnd fb (drawFrom fb font calls (drawFrom fb font before {})) := fun calls => by
        rw [← drawFrom_append]
        exact hle _
      generalize drawFrom fb font before {} = s at hsecond hy hle'
      have hstart : lineStart fb font s = fb.width / 2 + font.width := by
        rw [lineStart, if_pos hsecond, secondColumn_of_room hc]
      have hend : lineEnd fb s = fb.width := if_pos hsecond
      obtain ⟨calls, hover⟩ := overrun fb font s hw (by omega) hy
        (by rwa [hstart, hend]) (by rwa [hend]) (by
          rw [hstart, hend]
          have hsub : fb.width - fb.width / 2 =
              fb.width - (fb.width / 2 + font.width) + font.width := by omega
          rwa [hsub, Nat.add_mod_right] at hpart)
      exact hover (hle' calls)

/-- Whatever is drawn, the room on the line is counted right if the columns in use are whole numbers
of glyphs; and if not, some run gets it wrong, unless the screen is so wide that the cursor itself
wraps at its end. -/
theorem roomTrue_iff (hw : 0 < font.width) (hc : fb.width / 2 + font.width < fb.width) :
    (WholeColumns fb font → ∀ calls, RoomTrue fb font (rendererDrawChars fb font calls)) ∧
    (fb.width + font.width ≤ 2 ^ 64 →
      ((∀ calls, RoomTrue fb font (rendererDrawChars fb font calls)) ↔ WholeColumns fb font)) := by
  refine ⟨roomTrue_of_wholeColumns hw hc, fun hfit => ⟨?_, roomTrue_of_wholeColumns hw hc⟩⟩
  exact wholeColumns_of_roomTrue hw hc hfit

end Room

/-! ## Two screens -/

theorem small_wholeColumns : WholeColumns smallFb smallFont := by
  rw [WholeColumns, if_neg (by decide)]
  exact ⟨by decide, fun _ => by decide⟩

/-- A full line of the first column. -/
theorem small_roomTrue :
    RoomTrue smallFb smallFont (rendererDrawChars smallFb smallFont (List.replicate 64 (letter, 0))) :=
  (roomTrue_iff (by decide) (by decide)).1 small_wholeColumns _

/-- 1366 by 768 pixels. -/
def laptopFb : BambooFb :=
  { smallFb with width := 1366, pitch := 5464, width_lt := by decide, pitch_lt := by decide }

/-- 86 glyphs of 8 pixels go 5 pixels over the 683 of a column. -/
theorem laptop_overrun :
    0 < smallFont.width ∧ laptopFb.width / 2 + smallFont.width < laptopFb.width ∧ ¬ RoomTrue laptopFb smallFont
      (rendererDrawChars laptopFb smallFont (List.replicate 86 (letter, 0))) := by
  refine ⟨by decide, by decide, fun h => ?_⟩
  obtain ⟨ex, _, ehalf⟩ := drawFrom_glyphs laptopFb smallFont {}
    (show letter ≠ newline by decide) 86 (by decide) (by decide) (by decide)
  have hend : lineEnd laptopFb (drawFrom laptopFb smallFont (List.replicate 86 (letter, 0)) {}) =
      683 := if_neg (by
        rw [ehalf]
        decide)
  have hle : (drawFrom laptopFb smallFont (List.replicate 86 (letter, 0)) {}).rX ≤
      lineEnd laptopFb (drawFrom laptopFb smallFont (List.replicate 86 (letter, 0)) {}) := h.1
  rw [ex, hend] at hle
  exact absurd hle (by decide)

end BambooOS
