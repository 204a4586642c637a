import Mathlib.Data.Set.Lattice
import Mathlib.Order.BourbakiWitt
import Mathlib.Order.CompletePartialOrder
import Mathlib.Logic.Function.Basic

/-!
# Lib.Radix

Radix trees stored in tables: an entry at level `l` is absent, a leaf, or points to a table of
entries at level `l - 1`. Entries are values of `V`, tables are identified by frames of `F` and
indexed by `I`; `Format` says how an entry value is read.

* `Tree.find`: the leaf a path reaches, with its level; `Tree.tables`: the entries above it.
* `Tree.get` / `Tree.put` / `Tree.loc`: the subtree `n` steps down a path, its replacement, and
  the table slot that holds its entry.
* `Tree.Rep`: an entry value and the contents of the tables below it represent a tree.
* `Tree.Sep`: no table is shared.
* `Rep.put`: rewriting one slot, and nothing else the rest of the tree reads, represents the tree
  with that subtree replaced. Every update of a stored tree is an instance.
* `Rep.unique`, `Rep.exists_put`: where entry values are read in one way only, the tables represent
  one tree, so any tree read after such a rewrite is that one.
-/

namespace Radix

/-- How entry values are read: at which level a value is a leaf or points to a table, and the
frame it points to. -/
structure Format (V F : Type*) where
  absent : V → Prop
  leaf : Nat → V → Prop
  table : Nat → V → Prop
  base : V → F

/-- At the levels up to `n` a value is read in one way only. -/
structure Format.Exclusive {V F : Type*} (fmt : Format V F) (n : Nat) : Prop where
  absent_leaf : ∀ l v, l ≤ n → fmt.absent v → ¬ fmt.leaf l v
  absent_table : ∀ l v, l ≤ n → fmt.absent v → ¬ fmt.table l v
  leaf_table : ∀ l v, l ≤ n → fmt.leaf l v → ¬ fmt.table l v

theorem Format.Exclusive.below {V F : Type*} {fmt : Format V F} {m n : Nat}
    (h : fmt.Exclusive n) (hmn : m ≤ n) : fmt.Exclusive m where
  absent_leaf l v hl := h.absent_leaf l v (Nat.le_trans hl hmn)
  absent_table l v hl := h.absent_table l v (Nat.le_trans hl hmn)
  leaf_table l v hl := h.leaf_table l v (Nat.le_trans hl hmn)

inductive Tree (V I : Type*) where
  | none
  | leaf (e : V)
  | table (e : V) (sub : I → Tree V I)

namespace Tree

variable {V F I : Type*}

/-- The leaf reached along `p` from an entry at level `l`, and its level. -/
def find (p : Nat → I) : Nat → Tree V I → Option (Nat × V)
  | _, .none => Option.none
  | l, .leaf e => some (l, e)
  | l, .table _ sub => (sub (p (l - 1))).find p (l - 1)

/-- The entries along the path that point to tables, from the root on. -/
def tables (p : Nat → I) : Nat → Tree V I → List V
  | _, .none => []
  | _, .leaf _ => []
  | l, .table e sub => e :: (sub (p (l - 1))).tables p (l - 1)

/-- The subtree `n` steps down the path. -/
def get (p : Nat → I) : Nat → Nat → Tree V I → Option (Tree V I)
  | 0, _, t => some t
  | n + 1, l, .table _ sub => (sub (p (l - 1))).get p n (l - 1)
  | _ + 1, _, _ => Option.none

/-- The subtree `n` steps down the path, or nothing where the path ends above it. -/
def under (p : Nat → I) (n l : Nat) (T : Tree V I) : Tree V I := (T.get p n l).getD .none

def isNone : Tree V I → Bool
  | .none => true
  | _ => false

/-- The frame and index of the slot that holds the entry `n + 1` steps down the path. -/
def loc (base : V → F) (p : Nat → I) : Nat → Nat → Tree V I → Option (F × I)
  | 0, l, .table e _ => some (base e, p (l - 1))
  | n + 1, l, .table _ sub => (sub (p (l - 1))).loc base p n (l - 1)
  | _, _, _ => Option.none

/-- The frames of the tables of a tree. -/
def frames (base : V → F) : Tree V I → Set F
  | .none => ∅
  | .leaf _ => ∅
  | .table e sub => insert (base e) (⋃ i, (sub i).frames base)

/-- No table of the tree is shared. -/
def Sep (base : V → F) : Tree V I → Prop
  | .none => True
  | .leaf _ => True
  | .table e sub => (∀ i, base e ∉ (sub i).frames base) ∧
      (∀ i j, i ≠ j → Disjoint ((sub i).frames base) ((sub j).frames base)) ∧
      ∀ i, (sub i).Sep base

/-- The entry value `v` at level `l`, with the tables read by `rd`, represents the tree. -/
def Rep (fmt : Format V F) (rd : F → I → V) : Nat → Tree V I → V → Prop
  | _, .none, v => fmt.absent v
  | l, .leaf e, v => v = e ∧ fmt.leaf l e
  | l, .table e sub, v => v = e ∧ fmt.table l e ∧
      ∀ i, (sub i).Rep fmt rd (l - 1) (rd (fmt.base e) i)

section Put

variable [DecidableEq I]

/-- The tree with the subtree `n` steps down the path replaced. -/
def put (p : Nat → I) : Nat → Nat → Tree V I → Tree V I → Tree V I
  | 0, _, _, t' => t'
  | n + 1, l, .table e sub, t' =>
    .table e (Function.update sub (p (l - 1)) ((sub (p (l - 1))).put p n (l - 1) t'))
  | _ + 1, _, t, _ => t

end Put

/-! ## Paths -/

section Path

variable {p q : Nat → I} {b : V → F}

theorem get_loc_succ {n l : Nat} {T : Tree V I} {e : V} {sub : I → Tree V I}
    (h : T.get p n l = some (.table e sub)) :
    T.loc b p n l = some (b e, p (l - n - 1)) ∧
      T.get p (n + 1) l = some (sub (p (l - n - 1))) := by
  induction n generalizing l T with
  | zero =>
    simp only [get, Option.some.injEq] at h
    subst h
    simp [loc, get]
  | succ n ih =>
    cases T with
    | none => simp [get] at h
    | leaf e => simp [get] at h
    | table e' sub' =>
      have := ih (l := l - 1) (T := sub' (p (l - 1))) h
      rw [show l - 1 - n - 1 = l - (n + 1) - 1 by omega] at this
      exact this

theorem exists_get_of_loc {n l : Nat} {T : Tree V I} {f : F} {i : I}
    (h : T.loc b p n l = some (f, i)) :
    ∃ e sub, T.get p n l = some (.table e sub) ∧ b e = f ∧ p (l - n - 1) = i ∧
      T.get p (n + 1) l = some (sub i) := by
  induction n generalizing l T with
  | zero =>
    cases T with
    | none => simp [loc] at h
    | leaf e => simp [loc] at h
    | table e sub =>
      simp only [loc, Option.some.injEq, Prod.mk.injEq] at h
      obtain ⟨rfl, rfl⟩ := h
      exact ⟨e, sub, rfl, rfl, rfl, rfl⟩
  | succ n ih =>
    cases T with
    | none => simp [loc] at h
    | leaf e => simp [loc] at h
    | table e' sub' =>
      obtain ⟨e, sub, h₁, h₂, h₃, h₄⟩ := ih (l := l - 1) (T := sub' (p (l - 1))) h
      exact ⟨e, sub, h₁, h₂, by rw [← h₃]; congr 1; omega, h₄⟩

theorem exists_loc_of_get {n l : Nat} {T t : Tree V I} (h : T.get p (n + 1) l = some t) :
    ∃ f, T.loc b p n l = some (f, p (l - n - 1)) := by
  induction n generalizing l T with
  | zero =>
    cases T with
    | none => simp [get] at h
    | leaf e => simp [get] at h
    | table e sub => exact ⟨b e, rfl⟩
  | succ n ih =>
    cases T with
    | none => simp [get] at h
    | leaf e => simp [get] at h
    | table e sub =>
      obtain ⟨f, hf⟩ := ih (l := l - 1) (T := sub (p (l - 1))) h
      exact ⟨f, by rw [show l - (n + 1) - 1 = l - 1 - n - 1 by omega]; exact hf⟩

theorem exists_loc_of_succ {n l : Nat} {T : Tree V I} {f : F} {i : I}
    (h : T.loc b p (n + 1) l = some (f, i)) : ∃ g j, T.loc b p n l = some (g, j) := by
  induction n generalizing l T with
  | zero =>
    cases T with
    | none => simp [loc] at h
    | leaf e => simp [loc] at h
    | table e sub => exact ⟨b e, p (l - 1), rfl⟩
  | succ n ih =>
    cases T with
    | none => simp [loc] at h
    | leaf e => simp [loc] at h
    | table e sub => exact ih (l := l - 1) (T := sub (p (l - 1))) h

theorem loc_get {m n l : Nat} {T t : Tree V I} (hg : T.get p m l = some t) :
    T.loc b p (m + n) l = t.loc b p n (l - m) := by
  induction m generalizing l T with
  | zero =>
    simp only [get, Option.some.injEq] at hg
    subst hg
    rw [Nat.zero_add, Nat.sub_zero]
  | succ m ih =>
    cases T with
    | none => simp [get] at hg
    | leaf e => simp [get] at hg
    | table e sub =>
      rw [show m + 1 + n = m + n + 1 by omega, show l - (m + 1) = l - 1 - m by omega]
      exact ih hg

theorem get_congr {n l : Nat} {T : Tree V I} (hn : n ≤ l)
    (h : ∀ j, l - n ≤ j → j < l → q j = p j) : T.get q n l = T.get p n l := by
  induction n generalizing l T with
  | zero => rfl
  | succ n ih =>
    cases T with
    | none => rfl
    | leaf e => rfl
    | table e sub =>
      simp only [get]
      rw [h (l - 1) (by omega) (by omega)]
      exact ih (by omega) fun j h₁ h₂ => h j (by omega) (by omega)

theorem get_add {m n l : Nat} {T t : Tree V I} (hg : T.get p m l = some t) :
    T.get p (m + n) l = t.get p n (l - m) := by
  induction m generalizing l T with
  | zero =>
    simp only [get, Option.some.injEq] at hg
    subst hg
    rw [Nat.zero_add, Nat.sub_zero]
  | succ m ih =>
    cases T with
    | none => simp [get] at hg
    | leaf e => simp [get] at hg
    | table e sub =>
      rw [show m + 1 + n = m + n + 1 by omega, show l - (m + 1) = l - 1 - m by omega]
      exact ih hg

theorem under_of_get {n l : Nat} {T t : Tree V I} (hg : T.get p n l = some t) :
    T.under p n l = t := by rw [under, hg, Option.getD_some]

theorem under_add {m n l : Nat} {T t : Tree V I} (hm : m ≤ l) (hg : T.get p m l = some t)
    (h : ∀ j, l - m ≤ j → j < l → q j = p j) : T.under q (m + n) l = t.under q n (l - m) := by
  rw [← get_congr hm h] at hg
  rw [under, under, get_add hg]

@[simp] theorem under_none (p : Nat → I) (n l : Nat) : (none : Tree V I).under p n l = .none := by
  cases n with
  | zero => rfl
  | succ n => rfl

theorem under_table (p : Nat → I) (n l : Nat) (e : V) (sub : I → Tree V I) :
    (table e sub).under p (n + 1) l = (sub (p (l - 1))).under p n (l - 1) := rfl

theorem loc_under {n l : Nat} (T : Tree V I) :
    T.loc b p n l = (T.under p n l).loc b p 0 (l - n) := by
  cases hg : T.get p n l with
  | some t => rw [under_of_get hg, ← loc_get (n := 0) hg, Nat.add_zero]
  | none =>
    rw [under, hg, Option.getD_none]
    cases hl : T.loc b p n l with
    | none => rfl
    | some x =>
      obtain ⟨e, sub, hg', _⟩ := exists_get_of_loc hl
      rw [hg] at hg'
      cases hg'

theorem find_of_get {n l : Nat} {T t : Tree V I} (hn : n ≤ l) (hg : T.get p n l = some t)
    (h : ∀ j, l - n ≤ j → j < l → q j = p j) : T.find q l = t.find q (l - n) := by
  induction n generalizing l T with
  | zero =>
    simp only [get, Option.some.injEq] at hg
    subst hg
    rfl
  | succ n ih =>
    cases T with
    | none => simp [get] at hg
    | leaf e => simp [get] at hg
    | table e sub =>
      simp only [find]
      rw [h (l - 1) (by omega) (by omega),
        ih (by omega) hg fun j h₁ h₂ => h j (by omega) (by omega)]
      congr 1; omega

theorem find_congr {l : Nat} {T : Tree V I} (h : ∀ j, j ≤ l - 1 → q j = p j) :
    T.find q l = T.find p l := by
  induction T generalizing l with
  | none => rfl
  | leaf e => rfl
  | table e sub ih =>
    simp only [find]
    rw [h (l - 1) (Nat.le_refl _)]
    exact ih _ fun j hj => h j (by omega)

theorem find_level_le {l : Nat} {T : Tree V I} {m : Nat} {e : V} (h : T.find p l = some (m, e)) :
    m ≤ l := by
  induction T generalizing l with
  | none => simp [find] at h
  | leaf e => simp only [find, Option.some.injEq, Prod.mk.injEq] at h; omega
  | table e sub ih =>
    have := ih _ (l := l - 1) h
    omega

/-- A path that meets no leaf in its first `n` steps, or one below them, and is not cut off
by a missing entry reaches a subtree. -/
theorem get_cases (n l : Nat) (T : Tree V I) (hn : n ≤ l) :
    (∃ t, T.get p n l = some t) ∨
    (T.find p l = Option.none ∧ ∃ m, m < n ∧ T.get p m l = some .none) ∨
    ∃ m e, m < n ∧ T.get p m l = some (.leaf e) ∧ T.find p l = some (l - m, e) := by
  induction n generalizing l T with
  | zero => exact .inl ⟨T, rfl⟩
  | succ n ih =>
    cases T with
    | none => exact .inr (.inl ⟨rfl, 0, by omega, rfl⟩)
    | leaf e => exact .inr (.inr ⟨0, e, by omega, rfl, rfl⟩)
    | table e sub =>
      rcases ih (l - 1) (sub (p (l - 1))) (by omega) with ⟨t, h⟩ | ⟨hf, m, hm, h⟩ | ⟨m, e', hm, h, hf⟩
      · exact .inl ⟨t, h⟩
      · exact .inr (.inl ⟨hf, m + 1, by omega, h⟩)
      · refine .inr (.inr ⟨m + 1, e', by omega, h, ?_⟩)
        simp only [find]
        rw [hf]
        congr 2; omega

end Path

/-! ## Replacing a subtree -/

section Replace

variable [DecidableEq I] {p q : Nat → I} {b : V → F} {u : Tree V I}

theorem get_put {n l : Nat} {T t : Tree V I} (hg : T.get p n l = some t) :
    (T.put p n l u).get p n l = some u := by
  induction n generalizing l T with
  | zero => rfl
  | succ n ih =>
    cases T with
    | none => simp [get] at hg
    | leaf e => simp [get] at hg
    | table e sub =>
      simp only [put, get, Function.update_self]
      exact ih hg

theorem put_get {n l : Nat} {T t : Tree V I} (hg : T.get p n l = some t) :
    T.put p n l t = T := by
  induction n generalizing l T with
  | zero => simpa [get, put] using hg.symm
  | succ n ih =>
    cases T with
    | none => rfl
    | leaf e => rfl
    | table e sub =>
      simp only [put]
      rw [ih hg, Function.update_eq_self]

/-- The tables above a subtree, whatever it is replaced by. -/
theorem tables_put {n l : Nat} {T t : Tree V I} (hg : T.get p n l = some t) :
    ∃ above : List V, above.length = n ∧ T.tables p l = above ++ t.tables p (l - n) ∧
      ∀ u, (T.put p n l u).tables p l = above ++ u.tables p (l - n) := by
  induction n generalizing l T with
  | zero =>
    simp only [get, Option.some.injEq] at hg
    subst hg
    exact ⟨[], rfl, rfl, fun u => rfl⟩
  | succ n ih =>
    cases T with
    | none => simp [get] at hg
    | leaf e => simp [get] at hg
    | table e sub =>
      obtain ⟨above, hlen, htables, hput⟩ := ih (l := l - 1) hg
      rw [show l - (n + 1) = l - 1 - n by omega]
      refine ⟨e :: above, by rw [List.length_cons, hlen], ?_, fun u => ?_⟩
      · simp only [tables, htables, List.cons_append]
      · simp only [put, tables, Function.update_self, hput, List.cons_append]

theorem loc_put {n m l : Nat} {T t : Tree V I} (hm : m < n) (hg : T.get p n l = some t) :
    (T.put p n l u).loc b p m l = T.loc b p m l := by
  induction n generalizing l T m with
  | zero => omega
  | succ n ih =>
    cases T with
    | none => simp [get] at hg
    | leaf e => simp [get] at hg
    | table e sub =>
      cases m with
      | zero => rfl
      | succ m =>
        simp only [put, loc, Function.update_self]
        exact ih (by omega) hg

theorem find_put_same {n l : Nat} {T t : Tree V I} (hn : n ≤ l) (hg : T.get p n l = some t)
    (h : ∀ j, l - n ≤ j → j < l → q j = p j) :
    (T.put p n l u).find q l = u.find q (l - n) := find_of_get hn (get_put hg) h

theorem find_put_other {n l : Nat} {T : Tree V I} (hn : n ≤ l)
    (h : ¬ ∀ j, l - n ≤ j → j < l → q j = p j) : (T.put p n l u).find q l = T.find q l := by
  induction n generalizing l T with
  | zero => exact absurd (fun j _ _ => by omega) h
  | succ n ih =>
    cases T with
    | none => rfl
    | leaf e => rfl
    | table e sub =>
      simp only [put, find]
      by_cases hq : q (l - 1) = p (l - 1)
      · rw [hq, Function.update_self]
        apply ih (by omega)
        intro hall
        apply h
        intro j h₁ h₂
        by_cases hj : j = l - 1
        · exact hj ▸ hq
        · exact hall j (by omega) (by omega)
      · rw [Function.update_of_ne hq]

/-- Off the path of the replaced subtree nothing changes. -/
theorem get_put_other {m n l : Nat} {T : Tree V I} (hn : n ≤ l) (hm : m ≤ l)
    (hp : ¬ ∀ j, l - n ≤ j → j < l → q j = p j) (hq : ¬ ∀ j, l - m ≤ j → j < l → q j = p j) :
    (T.put p n l u).get q m l = T.get q m l := by
  induction n generalizing m l T with
  | zero => exact absurd (fun j _ _ => by omega) hp
  | succ n ih =>
    cases m with
    | zero => exact absurd (fun j _ _ => by omega) hq
    | succ m =>
      cases T with
      | none => rfl
      | leaf e => rfl
      | table e sub =>
        simp only [put, get]
        by_cases hs : q (l - 1) = p (l - 1)
        · have deeper : ∀ {i}, (¬ ∀ j, l - (i + 1) ≤ j → j < l → q j = p j) →
              ¬ ∀ j, l - 1 - i ≤ j → j < l - 1 → q j = p j := by
            intro i h hall
            apply h
            intro j h₁ h₂
            by_cases hj : j = l - 1
            · exact hj ▸ hs
            · exact hall j (by omega) (by omega)
          rw [hs, Function.update_self]
          exact ih (by omega) (by omega) (deeper hp) (deeper hq)
        · rw [Function.update_of_ne hs]

theorem frames_put {n l : Nat} {T t : Tree V I} (hg : T.get p n l = some t) :
    (T.put p n l u).frames b = (T.put p n l .none).frames b ∪ u.frames b := by
  induction n generalizing l T with
  | zero => simp [put, frames]
  | succ n ih =>
    cases T with
    | none => simp [get] at hg
    | leaf e => simp [get] at hg
    | table e sub =>
      ext f
      simp only [put, frames, Set.mem_insert_iff, Set.mem_iUnion, Set.mem_union]
      have ih := ih (l := l - 1) hg
      constructor
      · rintro (h | ⟨i, h⟩)
        · exact .inl (.inl h)
        · by_cases hi : i = p (l - 1)
          · subst hi
            rw [Function.update_self, ih] at h
            rcases h with h | h
            · exact .inl (.inr ⟨p (l - 1), by rwa [Function.update_self]⟩)
            · exact .inr h
          · rw [Function.update_of_ne hi] at h
            exact .inl (.inr ⟨i, by rwa [Function.update_of_ne hi]⟩)
      · rintro ((h | ⟨i, h⟩) | h)
        · exact .inl h
        · by_cases hi : i = p (l - 1)
          · subst hi
            rw [Function.update_self] at h
            exact .inr ⟨p (l - 1), by rw [Function.update_self, ih]; exact .inl h⟩
          · rw [Function.update_of_ne hi] at h
            exact .inr ⟨i, by rwa [Function.update_of_ne hi]⟩
        · exact .inr ⟨p (l - 1), by rw [Function.update_self, ih]; exact .inr h⟩

theorem frames_get {n l : Nat} {T t : Tree V I} (hg : T.get p n l = some t) :
    T.frames b = (T.put p n l .none).frames b ∪ t.frames b := by
  rw [← frames_put hg, put_get hg]

theorem loc_mem {n l : Nat} {T : Tree V I} {f : F} {i : I} (hl : T.loc b p n l = some (f, i)) :
    f ∈ T.frames b := by
  obtain ⟨e, sub, hg, rfl, _, _⟩ := exists_get_of_loc hl
  rw [frames_get (b := b) hg]
  exact .inr (by simp [frames])

/-- Under `Sep` a subtree shares no table with the rest. -/
theorem Sep.disjoint_get {n l : Nat} {T t : Tree V I} (hs : T.Sep b)
    (hg : T.get p n l = some t) :
    t.Sep b ∧ Disjoint (t.frames b) ((T.put p n l .none).frames b) := by
  induction n generalizing l T with
  | zero =>
    simp only [get, Option.some.injEq] at hg
    subst hg
    exact ⟨hs, by simp [put, frames]⟩
  | succ n ih =>
    cases T with
    | none => simp [get] at hg
    | leaf e => simp [get] at hg
    | table e sub =>
      obtain ⟨hroot, hsib, hsub⟩ := hs
      have ⟨ht, hd⟩ := ih (l := l - 1) (hsub _) hg
      have hin : t.frames b ⊆ (sub (p (l - 1))).frames b := by
        rw [frames_get (b := b) (l := l - 1) hg]
        exact Set.subset_union_right
      refine ⟨ht, ?_⟩
      rw [Set.disjoint_left] at hd ⊢
      intro f hf hmem
      simp only [put, frames, Set.mem_insert_iff, Set.mem_iUnion] at hmem
      rcases hmem with rfl | ⟨i, hi⟩
      · exact hroot _ (hin hf)
      · by_cases hip : i = p (l - 1)
        · subst hip
          rw [Function.update_self] at hi
          exact hd hf hi
        · rw [Function.update_of_ne hip] at hi
          exact Set.disjoint_left.mp (hsib i (p (l - 1)) hip) hi (hin hf)

theorem Sep.put {n l : Nat} {T t : Tree V I} (hs : T.Sep b) (hg : T.get p n l = some t)
    (hu : u.Sep b) (hd : Disjoint (u.frames b) ((T.put p n l .none).frames b)) :
    (T.put p n l u).Sep b := by
  induction n generalizing l T with
  | zero => exact hu
  | succ n ih =>
    cases T with
    | none => simp [get] at hg
    | leaf e => simp [get] at hg
    | table e sub =>
      obtain ⟨hroot, hsib, hsub⟩ := hs
      rw [Set.disjoint_left] at hd
      have hrest : ∀ f ∈ u.frames b, f ∉ ((sub (p (l - 1))).put p n (l - 1) .none).frames b := by
        intro f hf hmem
        apply hd hf
        simp only [Tree.put, frames, Set.mem_insert_iff, Set.mem_iUnion]
        exact .inr ⟨p (l - 1), by rwa [Function.update_self]⟩
      have hfr := frames_put (b := b) (u := u) (l := l - 1) hg
      have hsubset : ((sub (p (l - 1))).put p n (l - 1) .none).frames b ⊆
          (sub (p (l - 1))).frames b := by
        rw [frames_get (b := b) (l := l - 1) hg]
        exact Set.subset_union_left
      have hother : ∀ i, i ≠ p (l - 1) → ∀ f ∈ u.frames b, f ∉ (sub i).frames b := by
        intro i hi f hf hmem
        apply hd hf
        simp only [Tree.put, frames, Set.mem_insert_iff, Set.mem_iUnion]
        exact .inr ⟨i, by rwa [Function.update_of_ne hi]⟩
      have hbase : b e ∉ u.frames b := by
        intro hf
        apply hd hf
        simp [Tree.put, frames]
      have hkey : ∀ i, i ≠ p (l - 1) →
          Disjoint ((sub i).frames b) (((sub (p (l - 1))).put p n (l - 1) u).frames b) := by
        intro i hi
        rw [hfr, Set.disjoint_left]
        rintro f hf (hmem | hmem)
        · exact Set.disjoint_left.mp (hsib i _ hi) hf (hsubset hmem)
        · exact hother i hi f hmem hf
      refine ⟨?_, ?_, ?_⟩
      · intro i
        by_cases hi : i = p (l - 1)
        · subst hi
          rw [Function.update_self, hfr]
          rintro (h | h)
          · exact hroot _ (hsubset h)
          · exact hbase h
        · rw [Function.update_of_ne hi]
          exact hroot i
      · intro i j hij
        by_cases hi : i = p (l - 1)
        · subst hi
          rw [Function.update_self, Function.update_of_ne (Ne.symm hij)]
          exact (hkey j (Ne.symm hij)).symm
        · rw [Function.update_of_ne hi]
          by_cases hj : j = p (l - 1)
          · subst hj
            rw [Function.update_self]
            exact hkey i hi
          · rw [Function.update_of_ne hj]
            exact hsib i j hij
      · intro i
        by_cases hi : i = p (l - 1)
        · subst hi
          rw [Function.update_self]
          exact ih (hsub _) hg (Set.disjoint_left.mpr hrest)
        · rw [Function.update_of_ne hi]
          exact hsub i

end Replace

/-! ## Stored trees -/

section Stored

variable {fmt : Format V F} {rd rd' : F → I → V}

/-- A stored tree survives any change outside its own tables. -/
theorem Rep.congr {l : Nat} {T : Tree V I} {v : V} (h : T.Rep fmt rd l v)
    (hrd : ∀ f ∈ T.frames fmt.base, ∀ i, rd' f i = rd f i) : T.Rep fmt rd' l v := by
  induction T generalizing l v with
  | none => exact h
  | leaf e => exact h
  | table e sub ih =>
    obtain ⟨hv, ht, hsub⟩ := h
    refine ⟨hv, ht, fun i => ?_⟩
    rw [hrd _ (by simp [frames]) i]
    apply ih i (hsub i)
    intro f hf j
    apply hrd
    simp only [frames, Set.mem_insert_iff, Set.mem_iUnion]
    exact .inr ⟨i, hf⟩

theorem Rep.of_loc {p : Nat → I} {n l : Nat} {T : Tree V I} {v : V} {f : F} {i : I}
    (h : T.Rep fmt rd l v) (hl : T.loc fmt.base p n l = some (f, i)) :
    ∃ t, T.get p (n + 1) l = some t ∧ t.Rep fmt rd (l - (n + 1)) (rd f i) := by
  induction n generalizing l T v with
  | zero =>
    cases T with
    | none => simp [loc] at hl
    | leaf e => simp [loc] at hl
    | table e sub =>
      simp only [loc, Option.some.injEq, Prod.mk.injEq] at hl
      obtain ⟨rfl, rfl⟩ := hl
      exact ⟨_, rfl, h.2.2 _⟩
  | succ n ih =>
    cases T with
    | none => simp [loc] at hl
    | leaf e => simp [loc] at hl
    | table e sub =>
      obtain ⟨t, hg, ht⟩ := ih (h.2.2 _) hl
      exact ⟨t, hg, by rw [show l - (n + 1 + 1) = l - 1 - (n + 1) by omega]; exact ht⟩

/-- Where an entry value is read in one way only, it represents one tree. -/
theorem Rep.unique {l : Nat} {T T' : Tree V I} {v : V} (hfmt : fmt.Exclusive l)
    (h : T.Rep fmt rd l v) (h' : T'.Rep fmt rd l v) : T = T' := by
  induction T generalizing l T' v with
  | none =>
    cases T' with
    | none => rfl
    | leaf e' => exact absurd (h'.1 ▸ h'.2) (hfmt.absent_leaf l v (Nat.le_refl l) h)
    | table e' sub' => exact absurd (h'.1 ▸ h'.2.1) (hfmt.absent_table l v (Nat.le_refl l) h)
  | leaf e =>
    obtain ⟨rfl, hleaf⟩ := h
    cases T' with
    | none => exact absurd hleaf (hfmt.absent_leaf l v (Nat.le_refl l) h')
    | leaf e' => rw [h'.1]
    | table e' sub' => exact absurd (h'.1 ▸ h'.2.1) (hfmt.leaf_table l v (Nat.le_refl l) hleaf)
  | table e sub ih =>
    obtain ⟨rfl, htable, hsub⟩ := h
    cases T' with
    | none => exact absurd htable (hfmt.absent_table l v (Nat.le_refl l) h')
    | leaf e' => exact absurd htable (hfmt.leaf_table l v (Nat.le_refl l) (h'.1 ▸ h'.2))
    | table e' sub' =>
      obtain ⟨rfl, _, hsub'⟩ := h'
      congr 1
      funext i
      exact ih i (hfmt.below (Nat.sub_le l 1)) (hsub i) (hsub' i)

theorem Rep.exists_table {l : Nat} {T : Tree V I} {v : V} (hfmt : fmt.Exclusive l)
    (hv : fmt.table l v) (h : T.Rep fmt rd l v) : ∃ sub, T = .table v sub := by
  cases T with
  | none => exact absurd hv (hfmt.absent_table l v (Nat.le_refl l) h)
  | leaf e => exact absurd hv (hfmt.leaf_table l v (Nat.le_refl l) (h.1 ▸ h.2))
  | table e sub => exact ⟨sub, by rw [h.1]⟩

variable [DecidableEq I]

theorem loc_frame_mem {p : Nat → I} {u : Tree V I} {n l : Nat} {T : Tree V I} {f : F} {i : I}
    (hl : T.loc fmt.base p n l = some (f, i)) : f ∈ (T.put p (n + 1) l u).frames fmt.base := by
  induction n generalizing l T with
  | zero =>
    cases T with
    | none => simp [loc] at hl
    | leaf e => simp [loc] at hl
    | table e sub =>
      simp only [loc, Option.some.injEq, Prod.mk.injEq] at hl
      simp [put, frames, hl.1]
  | succ n ih =>
    cases T with
    | none => simp [loc] at hl
    | leaf e => simp [loc] at hl
    | table e sub =>
      rw [put]
      simp only [frames, Set.mem_insert_iff, Set.mem_iUnion]
      exact .inr ⟨p (l - 1), by rw [Function.update_self]; exact ih hl⟩

/-- One rewritten slot: the tree is stored again with the subtree behind the slot replaced, if
the rest of the tree reads the same outside that slot. -/
theorem Rep.put {p : Nat → I} {n l : Nat} {T u : Tree V I} {v : V} {f : F} {i : I}
    (h : T.Rep fmt rd l v) (hs : T.Sep fmt.base) (hl : T.loc fmt.base p n l = some (f, i))
    (hrd : ∀ g ∈ (T.put p (n + 1) l .none).frames fmt.base, ∀ j, (g, j) ≠ (f, i) →
      rd' g j = rd g j)
    (hu : u.Rep fmt rd' (l - (n + 1)) (rd' f i)) :
    (T.put p (n + 1) l u).Rep fmt rd' l v := by
  induction n generalizing l T v with
  | zero =>
    cases T with
    | none => simp [loc] at hl
    | leaf e => simp [loc] at hl
    | table e sub =>
      simp only [loc, Option.some.injEq, Prod.mk.injEq] at hl
      obtain ⟨rfl, rfl⟩ := hl
      obtain ⟨hv, ht, hsub⟩ := h
      obtain ⟨hroot, _, _⟩ := hs
      refine ⟨hv, ht, fun i => ?_⟩
      by_cases hi : i = p (l - 1)
      · subst hi
        rw [Function.update_self]
        exact hu
      · rw [Function.update_of_ne hi, hrd _ (by simp [Tree.put, frames]) i (by simp [hi])]
        apply (hsub i).congr
        intro g hg j
        apply hrd
        · simp only [Tree.put, frames, Set.mem_insert_iff, Set.mem_iUnion]
          exact .inr ⟨i, by rwa [Function.update_of_ne hi]⟩
        · intro heq
          simp only [Prod.mk.injEq] at heq
          exact hroot i (heq.1 ▸ hg)
  | succ n ih =>
    cases T with
    | none => simp [loc] at hl
    | leaf e => simp [loc] at hl
    | table e sub =>
      obtain ⟨hv, ht, hsub⟩ := h
      obtain ⟨hroot, hsib, hsep⟩ := hs
      -- the slot lies in a table of the child on the path
      have hin : f ∈ (sub (p (l - 1))).frames fmt.base := by
        obtain ⟨t, hg, _⟩ := (hsub (p (l - 1))).of_loc hl
        rw [frames_get (b := fmt.base) (l := l - 1) hg]
        exact .inl (loc_frame_mem (u := .none) hl)
      refine ⟨hv, ht, fun i' => ?_⟩
      have hne : fmt.base e ≠ f := fun heq => hroot _ (heq ▸ hin)
      rw [hrd _ (by simp [Tree.put, frames]) i' (by simp [hne])]
      by_cases hi : i' = p (l - 1)
      · subst hi
        rw [Function.update_self]
        apply ih (hsub _) (hsep _) hl
        · intro g hg j hj
          apply hrd _ _ _ hj
          rw [Tree.put]
          simp only [frames, Set.mem_insert_iff, Set.mem_iUnion]
          exact .inr ⟨p (l - 1), by rwa [Function.update_self]⟩
        · rw [show l - 1 - (n + 1) = l - (n + 1 + 1) by omega]
          exact hu
      · rw [Function.update_of_ne hi]
        apply (hsub i').congr
        intro g hg j
        apply hrd
        · rw [Tree.put]
          simp only [frames, Set.mem_insert_iff, Set.mem_iUnion]
          exact .inr ⟨i', by rwa [Function.update_of_ne hi]⟩
        · intro heq
          simp only [Prod.mk.injEq] at heq
          exact Set.disjoint_left.mp (hsib i' _ hi) (heq.1 ▸ hg) hin

/-- One rewritten slot, and nothing else the rest of the tree reads: whatever tree is stored
afterwards is the old one with the subtree behind the slot replaced. -/
theorem Rep.exists_put {p : Nat → I} {n l : Nat} {T T' : Tree V I} {e : V} {sub' : I → Tree V I}
    {v : V} {f : F} {i : I} (hfmt : fmt.Exclusive (l - 1)) (h : T.Rep fmt rd l v)
    (hs : T.Sep fmt.base) (hl : T.loc fmt.base p n l = some (f, i))
    (hrd : ∀ g ∈ (T.put p (n + 1) l .none).frames fmt.base, ∀ j, (g, j) ≠ (f, i) →
      rd' g j = rd g j)
    (h' : T'.Rep fmt rd' l v) (htable : T' = .table e sub') :
    ∃ u, T' = T.put p (n + 1) l u := by
  subst htable
  induction n generalizing l T v e sub' with
  | zero =>
    cases T with
    | none => simp [loc] at hl
    | leaf e => simp [loc] at hl
    | table e₀ sub =>
      simp only [loc, Option.some.injEq, Prod.mk.injEq] at hl
      obtain ⟨rfl, rfl⟩ := hl
      obtain ⟨rfl, _, hsub⟩ := h
      obtain ⟨rfl, _, hsub'⟩ := h'
      obtain ⟨hroot, _, _⟩ := hs
      refine ⟨sub' (p (l - 1)), ?_⟩
      simp only [Tree.put, Tree.table.injEq, true_and]
      funext j
      by_cases hj : j = p (l - 1)
      · rw [hj, Function.update_self]
      · rw [Function.update_of_ne hj]
        have hslot := hrd (fmt.base v) (by simp [Tree.put, frames]) j (by simp [hj])
        refine Rep.unique hfmt (hslot ▸ hsub' j) ((hsub j).congr fun g hg m => ?_)
        apply hrd
        · simp only [Tree.put, frames, Set.mem_insert_iff, Set.mem_iUnion]
          exact .inr ⟨j, by rwa [Function.update_of_ne hj]⟩
        · intro heq
          simp only [Prod.mk.injEq] at heq
          exact hroot j (heq.1 ▸ hg)
  | succ n ih =>
    cases T with
    | none => simp [loc] at hl
    | leaf e => simp [loc] at hl
    | table e₀ sub =>
      obtain ⟨rfl, _, hsub⟩ := h
      obtain ⟨rfl, _, hsub'⟩ := h'
      obtain ⟨hroot, hsib, hsep⟩ := hs
      have hin : f ∈ (sub (p (l - 1))).frames fmt.base := by
        obtain ⟨t, hg, _⟩ := (hsub (p (l - 1))).of_loc hl
        rw [frames_get (b := fmt.base) (l := l - 1) hg]
        exact .inl (loc_frame_mem (u := .none) hl)
      have hne : fmt.base v ≠ f := fun heq => hroot _ (heq ▸ hin)
      have hslot : ∀ j, rd' (fmt.base v) j = rd (fmt.base v) j := by
        intro j
        exact hrd _ (by simp [Tree.put, frames]) j (by simp [hne])
      -- the child on the path is a table still
      obtain ⟨sub₁, hchild⟩ : ∃ sub₁, sub' (p (l - 1)) = .table (rd (fmt.base v) (p (l - 1))) sub₁ := by
        refine Rep.exists_table hfmt ?_ (hslot _ ▸ hsub' (p (l - 1)))
        have hrep := hsub (p (l - 1))
        cases hold : sub (p (l - 1)) with
        | none => simp [hold, loc] at hl
        | leaf e => simp [hold, loc] at hl
        | table e₁ sub₁ =>
          rw [hold] at hrep
          exact hrep.1 ▸ hrep.2.1
      obtain ⟨u, hu⟩ := ih (hfmt.below (Nat.sub_le _ _)) (hsub (p (l - 1))) (hsep _) hl
        (fun g hg j hj => by
          apply hrd _ _ _ hj
          rw [Tree.put]
          simp only [frames, Set.mem_insert_iff, Set.mem_iUnion]
          exact .inr ⟨p (l - 1), by rwa [Function.update_self]⟩)
        (by rw [← hslot, ← hchild]; exact hsub' (p (l - 1)))
      refine ⟨u, ?_⟩
      rw [Tree.put, Tree.table.injEq]
      refine ⟨rfl, ?_⟩
      funext j
      by_cases hj : j = p (l - 1)
      · rw [hj, Function.update_self, hchild, hu]
      · rw [Function.update_of_ne hj]
        refine Rep.unique hfmt (hslot j ▸ hsub' j) ((hsub j).congr fun g hg m => ?_)
        apply hrd
        · rw [Tree.put]
          simp only [frames, Set.mem_insert_iff, Set.mem_iUnion]
          exact .inr ⟨j, by rwa [Function.update_of_ne hj]⟩
        · intro heq
          simp only [Prod.mk.injEq] at heq
          exact Set.disjoint_left.mp (hsib j _ hj) (heq.1 ▸ hg) hin

end Stored

end Tree

end Radix
