import Mathlib.Data.List.Induction

/-!
# Rendering.Grid

What the console is for: a page of text in two columns. Characters are put one behind the other, a
full line goes on below, a full column in the next one, and after the second column the page starts
anew.

* `Behind`: the cells the cursor has passed.
* `TextGrid.draw_filled`: only those are filled, so no cell is written twice.
-/

namespace BambooOS

/-- The lines of a column, and the cells of a line in each of the two. -/
structure Layout where
  rows : Nat
  cols : Bool → Nat

/-- The column, line and cell of the cursor, and what the cells hold. -/
structure TextGrid (α : Type) where
  second : Bool := false
  row : Nat := 0
  col : Nat := 0
  cells : Bool → Nat → Nat → Option α := fun _ _ _ => none

namespace TextGrid

variable {α : Type}

def nextLine (g : TextGrid α) : TextGrid α := { g with row := g.row + 1, col := 0 }

def wrapLine (l : Layout) (g : TextGrid α) : TextGrid α :=
  if l.cols g.second ≤ g.col then g.nextLine else g

def wrapColumn (l : Layout) (g : TextGrid α) : TextGrid α :=
  if l.rows ≤ g.row then
    if g.second then {} else { g with second := true, row := 0, col := 0 }
  else g

/-- Where the next character goes. -/
def place (l : Layout) (g : TextGrid α) : TextGrid α := (g.wrapLine l).wrapColumn l

/-- The character at the cursor. -/
def set (a : α) (g : TextGrid α) : TextGrid α :=
  { g with
    col := g.col + 1
    cells := fun second row col =>
      if second = g.second ∧ row = g.row ∧ col = g.col then some a else g.cells second row col }

/-- A character, or the end of a line. -/
def draw (l : Layout) (a : Option α) (g : TextGrid α) : TextGrid α :=
  match a with
  | none => g.nextLine
  | some a => (g.place l).set a

/-- The page after the characters `as`. -/
def run (l : Layout) (as : List (Option α)) : TextGrid α := as.foldl (fun g a => g.draw l a) {}

theorem run_append_singleton (l : Layout) (as : List (Option α)) (a : Option α) :
    run l (as ++ [a]) = (run l as).draw l a := by
  simp [run]

@[simp] theorem nextLine_cells (g : TextGrid α) : g.nextLine.cells = g.cells := rfl

@[simp] theorem wrapLine_cells (l : Layout) (g : TextGrid α) : (g.wrapLine l).cells = g.cells := by
  unfold wrapLine
  split
  · rfl
  · rfl

@[simp] theorem wrapLine_second (l : Layout) (g : TextGrid α) :
    (g.wrapLine l).second = g.second := by
  unfold wrapLine
  split
  · rfl
  · rfl

/-! ## Filled cells -/

/-- The cursor is behind the cell. -/
def Behind (g : TextGrid α) (second : Bool) (row col : Nat) : Prop :=
  (second = g.second ∧ (row < g.row ∨ (row = g.row ∧ col < g.col))) ∨
    (second = false ∧ g.second = true)

/-- Only cells behind the cursor hold a character. -/
def Filled (g : TextGrid α) : Prop :=
  ∀ second row col, g.cells second row col ≠ none → g.Behind second row col

variable {g : TextGrid α} {l : Layout}

theorem filled_empty : Filled ({} : TextGrid α) := by
  intro second row col h
  simp at h

theorem Filled.nextLine (h : g.Filled) : g.nextLine.Filled := by
  intro second row col hc
  cases h second row col hc with
  | inl here =>
    obtain ⟨hs, hr⟩ := here
    refine .inl ⟨hs, .inl ?_⟩
    simp only [TextGrid.nextLine]
    omega
  | inr before => exact .inr before

theorem Filled.wrapLine (h : g.Filled) : (g.wrapLine l).Filled := by
  unfold TextGrid.wrapLine
  split
  · exact h.nextLine
  · exact h

theorem Filled.wrapColumn (h : g.Filled) : (g.wrapColumn l).Filled := by
  unfold TextGrid.wrapColumn
  split
  · split
    · exact filled_empty
    · next hs =>
      intro second row col hc
      cases h second row col hc with
      | inl here =>
        have hfirst : g.second = false := by simpa using hs
        exact .inr ⟨here.1.trans hfirst, rfl⟩
      | inr before => exact absurd before.2 hs
  · exact h

theorem Filled.place (h : g.Filled) : (g.place l).Filled := h.wrapLine.wrapColumn

theorem Filled.cursor (h : g.Filled) : g.cells g.second g.row g.col = none := by
  by_contra hne
  cases h _ _ _ hne with
  | inl here => omega
  | inr before => simp [before.1] at before

theorem Filled.set (h : g.Filled) (a : α) : (g.set a).Filled := by
  intro second row col hc
  by_cases hat : second = g.second ∧ row = g.row ∧ col = g.col
  · obtain ⟨hs, hr, hcol⟩ := hat
    refine .inl ⟨hs, .inr ⟨hr, ?_⟩⟩
    simp [TextGrid.set, hcol]
  · simp only [TextGrid.set, if_neg hat] at hc
    cases h second row col hc with
    | inl here =>
      obtain ⟨hs, hr⟩ := here
      refine .inl ⟨hs, ?_⟩
      simp only [TextGrid.set]
      omega
    | inr before => exact .inr before

theorem draw_filled (h : g.Filled) (a : Option α) : (g.draw l a).Filled := by
  cases a with
  | none => exact h.nextLine
  | some a => exact h.place.set a

/-! ## The cursor -/

/-- The cursor is at most one cell behind its line, which may have no cell at all. -/
def Within (l : Layout) (g : TextGrid α) : Prop := g.col ≤ l.cols g.second ∨ g.col ≤ 1

/-- The cell a character is put in is on the line, or the line's first. -/
theorem place_within (l : Layout) (g : TextGrid α) :
    (g.place l).col < l.cols (g.place l).second ∨ (g.place l).col = 0 := by
  have hline : (g.wrapLine l).col < l.cols (g.wrapLine l).second ∨ (g.wrapLine l).col = 0 := by
    unfold wrapLine
    split
    · exact .inr rfl
    · next hroom => exact .inl (Nat.lt_of_not_le hroom)
  unfold place wrapColumn
  split
  · split
    · exact .inr rfl
    · exact .inr rfl
  · exact hline

theorem draw_within (l : Layout) (g : TextGrid α) (a : Option α) : (g.draw l a).Within l := by
  cases a with
  | none => exact .inr (Nat.zero_le 1)
  | some a =>
    cases place_within l g with
    | inl hroom => exact .inl hroom
    | inr hzero => exact .inr (by simp [draw, set, hzero])

theorem wrapLine_row_le (l : Layout) (g : TextGrid α) : (g.wrapLine l).row ≤ g.row + 1 := by
  unfold wrapLine
  split
  · exact Nat.le_refl _
  · exact Nat.le_succ _

theorem wrapColumn_row_le (l : Layout) (g : TextGrid α) : (g.wrapColumn l).row ≤ g.row := by
  unfold wrapColumn
  split
  · split
    · exact Nat.zero_le _
    · exact Nat.zero_le _
  · exact Nat.le_refl _

theorem draw_row_le (a : Option α) : (g.draw l a).row ≤ g.row + 1 := by
  cases a with
  | none => exact Nat.le_refl _
  | some a =>
    have hcolumn : (g.place l).row ≤ (g.wrapLine l).row := wrapColumn_row_le l _
    exact Nat.le_trans hcolumn (wrapLine_row_le l g)

theorem run_row_le (as : List (Option α)) : (run l as).row ≤ as.length := by
  induction as using List.reverseRecOn with
  | nil => exact Nat.le_refl _
  | append_singleton as a ih =>
    rw [run_append_singleton, List.length_append, List.length_singleton]
    exact Nat.le_trans (draw_row_le a) (Nat.add_le_add_right ih 1)

end TextGrid

end BambooOS
