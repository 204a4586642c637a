import Mathlib.Tactic.Common

/-!
# Lib.Tiling

A list laid out over addresses: each element takes its width, and starts where the one before ends.

* `Tile`: the element that starts at an address.
* `exists_tile`: the elements cover the addresses the list takes.
* `Tile.sep`: two elements are the same one, or one ends before the other starts.
-/

namespace Tiling

variable {α : Type*} {w : α → Nat}

/-- The addresses `l` takes. -/
def span (w : α → Nat) : List α → Nat
  | [] => 0
  | s :: l => w s + span w l

/-- `s` starts at `q` when `l` is laid out from `p` on. -/
def Tile (w : α → Nat) (p : Nat) (l : List α) (q : Nat) (s : α) : Prop :=
  ∃ a b, l = a ++ s :: b ∧ q = p + span w a

@[simp] theorem span_nil : span w ([] : List α) = 0 := rfl

@[simp] theorem span_cons (s : α) (l : List α) : span w (s :: l) = w s + span w l := rfl

@[simp] theorem span_append (a b : List α) : span w (a ++ b) = span w a + span w b := by
  induction a with
  | nil => simp
  | cons s a ih => simp [ih, Nat.add_assoc]

theorem tile_nil (p q : Nat) (s : α) : ¬ Tile w p [] q s := by
  rintro ⟨a, b, h, _⟩
  cases a <;> cases h

theorem tile_cons {p q : Nat} {s t : α} {l : List α} :
    Tile w p (t :: l) q s ↔ (q = p ∧ s = t) ∨ Tile w (p + w t) l q s := by
  constructor
  · rintro ⟨a, b, h, hq⟩
    cases a with
    | nil =>
      cases h
      exact .inl ⟨hq, rfl⟩
    | cons u a =>
      cases h
      exact .inr ⟨a, b, rfl, by simp only [span_cons] at hq; omega⟩
  · rintro (⟨rfl, rfl⟩ | ⟨a, b, rfl, hq⟩)
    · exact ⟨[], l, rfl, rfl⟩
    · exact ⟨t :: a, b, rfl, by simp only [span_cons]; omega⟩

theorem tile_append {p q : Nat} {s : α} {a b : List α} :
    Tile w p (a ++ b) q s ↔ Tile w p a q s ∨ Tile w (p + span w a) b q s := by
  induction a generalizing p with
  | nil => simp [tile_nil]
  | cons t a ih =>
    rw [List.cons_append, tile_cons, tile_cons, ih, span_cons, Nat.add_assoc, or_assoc]

theorem tile_mid (p : Nat) (a b : List α) (s : α) : Tile w p (a ++ s :: b) (p + span w a) s :=
  ⟨a, b, rfl, rfl⟩

theorem Tile.mem {p q : Nat} {s : α} {l : List α} (h : Tile w p l q s) : s ∈ l := by
  obtain ⟨a, b, rfl, _⟩ := h
  simp

theorem Tile.bounds {p q : Nat} {s : α} {l : List α} (h : Tile w p l q s) :
    p ≤ q ∧ q + w s ≤ p + span w l := by
  obtain ⟨a, b, rfl, rfl⟩ := h
  simp only [span_append, span_cons]
  omega

theorem Tile.sep {p q q' : Nat} {s s' : α} {l : List α} (h : Tile w p l q s)
    (h' : Tile w p l q' s') : (q = q' ∧ s = s') ∨ q + w s ≤ q' ∨ q' + w s' ≤ q := by
  induction l generalizing p with
  | nil => exact absurd h (tile_nil p q s)
  | cons t l ih =>
    rcases tile_cons.mp h with ⟨rfl, rfl⟩ | hl
    · rcases tile_cons.mp h' with ⟨rfl, rfl⟩ | hl'
      · exact .inl ⟨rfl, rfl⟩
      · exact .inr (.inl hl'.bounds.1)
    · rcases tile_cons.mp h' with ⟨rfl, rfl⟩ | hl'
      · exact .inr (.inr hl.bounds.1)
      · exact ih hl hl'

/-- Every address the list takes is in an element. -/
theorem exists_tile {p x : Nat} {l : List α} (hlo : p ≤ x) (hhi : x < p + span w l) :
    ∃ q s, Tile w p l q s ∧ q ≤ x ∧ x < q + w s := by
  induction l generalizing p with
  | nil =>
    simp only [span_nil] at hhi
    omega
  | cons t l ih =>
    by_cases hx : x < p + w t
    · exact ⟨p, t, tile_mid p [] l t, hlo, hx⟩
    · simp only [span_cons] at hhi
      obtain ⟨q, s, hs, hq⟩ := ih (p := p + w t) (by omega) (by omega)
      exact ⟨q, s, tile_cons.mpr (.inr hs), hq⟩

theorem Tile.of_lt {p q : Nat} {s : α} {a b : List α} (h : Tile w p (a ++ b) q s)
    (hq : q < p + span w a) : Tile w p a q s := by
  rcases tile_append.mp h with ha | hb
  · exact ha
  · have := hb.bounds.1
    omega

/-- One element exchanged for others of its width: every other element stays. -/
theorem Tile.replace {p q : Nat} {s t : α} {a b c : List α} (h : Tile w p (a ++ s :: b) q t)
    (hq : q ≠ p + span w a) (hspan : b ≠ [] → span w c = w s) : Tile w p (a ++ (c ++ b)) q t := by
  rcases tile_append.mp h with ha | hs
  · exact tile_append.mpr (.inl ha)
  · rcases tile_cons.mp hs with ⟨he, _⟩ | hb
    · exact absurd he hq
    · have hne : b ≠ [] := by
        intro h0
        subst h0
        exact tile_nil _ _ _ hb
      refine tile_append.mpr (.inr (tile_append.mpr (.inr ?_)))
      rw [hspan hne]
      exact hb

end Tiling
