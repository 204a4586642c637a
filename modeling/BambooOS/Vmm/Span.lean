import BambooOS.Vmm.Leaf

/-!
# Vmm.Span

The range of a call of `vmm_map_pages_pml4`, leaf by leaf.

* `Visits`: the pages whose tables the loop looks at. It maps a whole GiB inside the range by one
  leaf, after a look at its first 2 MiB.
* `blockLevel`, `HeadAt`: the size of the leaf at a page, and the pages where a leaf starts.
* `returnable`: the frames the call may give back. They are the tables that a large leaf replaces,
  and as many of the first free frames as the call can take up to the last such table.
* `Pristine`: a tree that is not changed yet over the pages ahead; `Pristine.missing`: there the
  call takes what is counted beforehand.
-/

namespace BambooOS

open ByteMem Radix Kernel

/-! ## The range -/

/-- The first page of the GiB around `q`. -/
def gib (q : Nat) : Nat := q / 262144 * 262144

/-- The GiB around `q` is mapped by one leaf, as part of `n` pages from `q₀` on. -/
def Whole (q₀ n q : Nat) : Prop := q₀ ≤ gib q ∧ gib q + 262144 + 1 < q₀ + n

/-- The loop looks at the tables over `q`. -/
def Visits (q₀ n q : Nat) : Prop := Whole q₀ n q → q / 512 = gib q / 512

/-- Some 2 MiB block of the range is mapped by one leaf, or by part of a larger one. -/
def Leaps (q₀ n : Nat) : Prop := ∃ i, (q₀ + i) % 512 = 0 ∧ i + 513 < n

/-- The loop starts a leaf at `q`: not inside a GiB that it maps by one leaf. -/
def HeadAt (q₀ n q : Nat) : Prop := Whole q₀ n q → q = gib q

theorem HeadAt.visits {q₀ n q : Nat} (h : HeadAt q₀ n q) : Visits q₀ n q :=
  fun hw => by rw [← h hw]

theorem headAt_start (q₀ n : Nat) : HeadAt q₀ n q₀ := by
  rintro ⟨h, _⟩
  simp only [gib] at h ⊢
  omega

theorem headAt_iff {q₀ n q : Nat} : HeadAt q₀ n q ↔
    (q₀ ≤ q / 262144 * 262144 → q / 262144 * 262144 + 262145 < q₀ + n → q % 262144 = 0) := by
  simp only [HeadAt, Whole, gib]
  constructor
  · intro h h₁ h₂
    have := h ⟨h₁, by omega⟩
    omega
  · rintro h ⟨h₁, h₂⟩
    have := h h₁ (by omega)
    omega

/-- A step of `s` pages inside the range, which passes no GiB that is mapped by one leaf. -/
theorem headAt_step {q₀ n i s : Nat} (h : HeadAt q₀ n (q₀ + i))
    (hs : s = 1 ∨ s = 512 ∨ s = 262144) (hq : (q₀ + i) % s = 0)
    (hmax : (q₀ + i) % 262144 = 0 → i + 262145 < n → s = 262144) :
    HeadAt q₀ n (q₀ + (i + s)) := by
  rw [headAt_iff] at h ⊢
  intro h₁ h₂
  by_contra hne
  have hgib : (q₀ + i) / 262144 = (q₀ + (i + s)) / 262144 := by
    rcases hs with rfl | rfl | rfl <;> omega
  rw [hgib] at h
  have h₀ := h h₁ h₂
  have := hmax h₀ (by omega)
  omega

theorem HeadAt.next {q₀ n i m : Nat} (h : HeadAt q₀ n (q₀ + i)) (hm : m ≤ 2)
    (hq : (q₀ + i) % 512 ^ m = 0)
    (hmax : (q₀ + i) % 512 ^ 2 = 0 → i + 512 ^ 2 + 1 < n → m = 2) :
    HeadAt q₀ n (q₀ + (i + 512 ^ m)) := by
  have h₁ : m ≠ 2 → 512 ^ m = 1 ∨ 512 ^ m = 512 := by
    rintro hne
    rcases (by omega : m = 0 ∨ m = 1) with rfl | rfl
    · exact .inl rfl
    · exact .inr rfl
  have h₂ : m = 2 → 512 ^ m = 262144 := by
    rintro rfl
    rfl
  apply headAt_step h (by omega) hq
  norm_num at hmax
  exact fun hq' hn => h₂ (hmax hq' hn)

/-- The level of the leaf the loop sets at the page `q₀ + i`. -/
def blockLevel (q₀ n i : Nat) : Nat :=
  if n - 1 - i > 512 * 512 ∧ (q₀ + i) / 512 % 512 = 0 ∧ (q₀ + i) % 512 = 0 then 2
  else if n - 1 - i > 512 ∧ (q₀ + i) % 512 = 0 then 1
  else 0

theorem blockLevel_le (q₀ n i : Nat) : blockLevel q₀ n i ≤ 2 := by
  rw [blockLevel]
  split
  · exact Nat.le_refl 2
  · split <;> omega

theorem leafLevel_block {q n : Nat} {c : MapCursor} (hi : Indices c (q + c.i)) : leafLevel n c = blockLevel q n c.i := by
  have h₁ : c.pdI = (q + c.i) / 512 % 512 := by rw [hi.pdI, path_val]; norm_num
  have h₀ : c.ptI = (q + c.i) % 512 := by rw [hi.ptI, path_val]; norm_num
  rw [leafLevel, blockLevel, h₁, h₀]

theorem sameBlock_interval {m q r : Nat} (hm : m ≤ 2) (hq : q % 512 ^ m = 0) (hlt : q < 2 ^ 36)
    (hr : r < 2 ^ 36) : SameBlock m q r ↔ q ≤ r ∧ r < q + 512 ^ m := by
  rw [sameBlock_iff (by omega)]
  rcases (by omega : m = 0 ∨ m = 1 ∨ m = 2) with rfl | rfl | rfl
  · norm_num; omega
  · norm_num at hq ⊢; omega
  · norm_num at hq ⊢; omega

theorem path_mod {q l : Nat} (hl : l < 4) : path (q % 2 ^ 36) l = path q l := by
  rw [Fin.ext_iff, path_val, path_val]
  rcases (by omega : l = 0 ∨ l = 1 ∨ l = 2 ∨ l = 3) with rfl | rfl | rfl | rfl <;> norm_num <;> omega

/-! ## The frames a call may give back -/

/-- The entries that the page `q` of a range from `q₀` on adds to the tree: at the levels where it is
the first page of the range or of a table. Each takes a frame. -/
def PageTree.opens (T : PageTree) (q₀ q : Nat) : Nat :=
  [1, 2, 3, 4].countP fun m =>
    decide (q = q₀ ∨ q % 512 ^ (4 - m) = 0) && (T.under (path q) m 4).isNone

/-- The loop comes to the page `q₀ + i` with `b` frames taken. So many it has taken, at most, when it
takes the last table that it gives back: a large leaf replaces a new table if the tree has no PT there.
Giving a table back may take a frame. -/
def PageTree.takes (T : PageTree) (q₀ n b i : Nat) : Nat :=
  max (if blockLevel q₀ n i ≠ 0 ∧ (T.under (path (q₀ + i)) 3 4).isNone then
      b + T.opens q₀ (q₀ + i) else 0)
    (if i + 512 ^ blockLevel q₀ n i < n then
      T.takes q₀ n (b + T.opens q₀ (q₀ + i) + blockLevel q₀ n i) (i + 512 ^ blockLevel q₀ n i)
    else 0)
termination_by n - i
decreasing_by
  have : 0 < 512 ^ blockLevel q₀ n i := Nat.pow_pos (by omega)
  omega

/-- The tables of the tree that the large leaves of a range replace. -/
def PageTree.replaced (T : PageTree) (q₀ n : Nat) : Set Nat :=
  {f | ∃ i < n, HeadAt q₀ n (q₀ + i) ∧ f ∈ T.replacedAt (q₀ + i) (blockLevel q₀ n i)}

/-- The frames that mapping a range may give back: tables that large leaves replace, the tree's or
taken by the call itself, which takes the first free ones. -/
def Kernel.returnable (k : Kernel) (T : PageTree) (q₀ n : Nat) : Set Nat :=
  T.replaced q₀ n ∪ k.First (T.takes q₀ n 0 0)

theorem returnable_subset (k : Kernel) (T : PageTree) (q₀ n : Nat) :
    k.returnable T q₀ n ⊆ T.frames fmt.base ∪ k.Free := by
  rintro f (⟨i, _, _, m, j, _, _, hl⟩ | ⟨hf, _⟩)
  · exact .inl (Tree.loc_mem hl)
  · exact .inr hf

/-- Where a page shares no table with the first `i` pages from `q₀` on, `T` is still `T₀`. -/
def Pristine (T₀ T : PageTree) (q₀ i : Nat) : Prop :=
  ∀ r m, m ≤ 4 → (∀ j < i, ¬ SameBlock (4 - m) (q₀ + j) r) →
    T.under (path r) m 4 = T₀.under (path r) m 4

section Pristine

variable {T₀ T T' : PageTree} {q₀ i d m : Nat}

/-- The first page of a table is in none that an earlier page is in. -/
theorem opens_apart {q r l : Nat} (hl : l ≤ 4) (hq : q < 2 ^ 36) (hlt : r < q) (h : q % 512 ^ l = 0) :
    ¬ SameBlock l r q := by
  rw [sameBlock_iff hl]
  rcases (by omega : l = 0 ∨ l = 1 ∨ l = 2 ∨ l = 3 ∨ l = 4) with rfl | rfl | rfl | rfl | rfl <;>
    norm_num at h ⊢ <;> omega

/-- The page `q₀ + i` is, below depth `d`, the first of the range or of its tables. -/
def Opens (q₀ i d : Nat) : Prop := i = 0 ∨ (q₀ + i) % 512 ^ (3 - d) = 0

theorem Opens.level (h : Opens q₀ i d) (hm : d < m) : q₀ + i = q₀ ∨ (q₀ + i) % 512 ^ (4 - m) = 0 := by
  cases h with
  | inl h => exact .inl (by omega)
  | inr h => exact .inr (Nat.mod_eq_zero_of_dvd ((pow_dvd_pow 512 (by omega)).trans
      (Nat.dvd_of_mod_eq_zero h)))

theorem Pristine.at_page (h : Pristine T₀ T q₀ i) (hq : q₀ + i < 2 ^ 36) (ho : Opens q₀ i d)
    (hm : d < m) (hm4 : m ≤ 4) : T.under (path (q₀ + i)) m 4 = T₀.under (path (q₀ + i)) m 4 := by
  refine h _ m hm4 fun j hj => ?_
  cases ho.level hm with
  | inl h₀ => omega
  | inr h₀ => exact opens_apart (by omega) hq (by omega) h₀

/-- What the page lacks is what was counted for it. -/
theorem Pristine.missing (h : Pristine T₀ T q₀ i) (hq : q₀ + i < 2 ^ 36) (ho : Opens q₀ i d) :
    T.missing (q₀ + i) d ≤ T₀.opens q₀ (q₀ + i) := by
  refine List.countP_mono_left fun m hm hb => ?_
  have hm4 : m ≤ 4 := by simp only [List.mem_cons, List.not_mem_nil, or_false] at hm; omega
  simp only [Bool.and_eq_true, decide_eq_true_eq] at hb ⊢
  refine ⟨ho.level hb.1, ?_⟩
  rw [← h.at_page hq ho hb.1 hm4]
  exact hb.2

theorem Pristine.enter (h : Pristine T₀ T q₀ i) (he : Entered T (q₀ + i) T') :
    Pristine T₀ T' q₀ (i + 1) := fun r m hm hno =>
  (he.under r m hm (hno i (Nat.lt_succ_self i))).trans
    (h r m hm fun j hj => hno j (Nat.lt_succ_of_lt hj))

theorem Pristine.leaf {l e s : Nat} (h : Pristine T₀ T q₀ (i + 1)) (hl : l ≤ 2)
    (hs : s = 512 ^ l) (hq : (q₀ + i) % s = 0) (hlt : q₀ + i + s ≤ 2 ^ 36) :
    Pristine T₀ (T.put (path (q₀ + i)) (4 - l) 4 (.leaf e)) q₀ (i + s) := by
  subst hs
  have hpos : 0 < 512 ^ l := Nat.pow_pos (by omega)
  intro r m hm hno
  rw [under_put_other (by omega) hm _ (hno i (by omega))]
  · exact h r m hm fun j hj => hno j (by omega)
  · intro hb
    rw [show 4 - (4 - l) = l by omega] at hb
    -- a page of the block is one of those the leaf maps
    have hr : SameBlock l (q₀ + i) (r % 2 ^ 36) := by
      intro j h₁ h₂
      rw [path_mod h₂]
      exact hb j h₁ h₂
    rw [sameBlock_interval hl hq (by omega) (Nat.mod_lt _ (by omega))] at hr
    apply hno (r % 2 ^ 36 - q₀) (by omega)
    rw [show q₀ + (r % 2 ^ 36 - q₀) = r % 2 ^ 36 by omega]
    intro j _ h₂
    rw [path_mod h₂]

end Pristine

end BambooOS
