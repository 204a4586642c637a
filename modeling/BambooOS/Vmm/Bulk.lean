import BambooOS.Vmm.Span

/-!
# Vmm.Bulk

`vmm_map_pages_pml4` over a range of pages.

* `Progress`: the translations after the first pages of the range.
* `mapPagesLoop_spec`: the loop keeps `Progress` and reaches the end of the range.
* `vmmMapPagesPml4_ranged`: afterwards the range, and nothing else, translates differently.
-/

namespace BambooOS

open ByteMem Radix Kernel

/-! ## Progress -/

/-- The translations of `T` when the first `i` of the `n` pages from `q₀` on are mapped to those
from `pa` on, and `T₀` was there before. -/
structure Progress (T₀ T : PageTree) (q₀ n pa i : Nat) : Prop where
  done : ∀ j, j < i → PageTree.xlate T (q₀ + j) = some (pageOf pa + j * 0x1000)
  outside : ∀ r, r < 2 ^ 36 → r < q₀ ∨ q₀ + n ≤ r → PageTree.xlate T r = PageTree.xlate T₀ r
  todo : ∀ j, i ≤ j → j < n → Visits q₀ n (q₀ + j) → ¬ PageTree.Large T (q₀ + j)
  large : ∀ r, r < 2 ^ 36 → r < q₀ ∨ q₀ + n ≤ r → PageTree.Large T r → PageTree.Large T₀ r
  fits : PageTree.Fits T₀ → PageTree.Fits T
  huge : ∀ r, r < 2 ^ 36 → PageTree.Huge T r → PageTree.Huge T₀ r ∨ Whole q₀ n r

section Progress

variable {T₀ T T' : PageTree} {q₀ n pa i : Nat}

theorem Progress.start (h : ∀ j, j < n → Visits q₀ n (q₀ + j) → ¬ PageTree.Large T₀ (q₀ + j)) :
    Progress T₀ T₀ q₀ n pa 0 :=
  ⟨fun j hj => absurd hj (by omega), fun _ _ _ => rfl, fun j _ => h j, fun _ _ _ hl => hl, id,
    fun _ _ => .inl⟩

theorem Progress.enter (h : Progress T₀ T q₀ n pa i) (hi : i < n) (hn : q₀ + n ≤ 2 ^ 36)
    (he : Entered T (q₀ + i) T') : Progress T₀ T' q₀ n pa i where
  done j hj := he.same _ _ (h.done j hj)
  outside r hr hout := by
    rw [he.other r ?_, h.outside r hr hout]
    rw [sameBlock_zero, Nat.mod_eq_of_lt hr, Nat.mod_eq_of_lt (by omega)]
    omega
  todo j h₁ h₂ hv := fun ⟨l, e, hl, hf⟩ => h.todo j h₁ h₂ hv ⟨l, e, hl, he.large _ l e hl hf⟩
  large r hr hout := fun ⟨l, e, hl, hf⟩ => h.large r hr hout ⟨l, e, hl, he.large _ l e hl hf⟩
  fits h₀ := fits_of_large he.large (h.fits h₀)
  huge r hr := fun ⟨e, hf⟩ => h.huge r hr ⟨e, he.large _ 2 e (by omega) hf⟩

theorem getAddress_page {a : Nat} (ha : a < 2 ^ 52) : vmmPtEntryGetAddress a = pageOf a := by
  rw [getAddress_eq, pageOf]; omega

theorem Progress.leaf {m e : Nat} {t : PageTree} (h : Progress T₀ T q₀ n pa i) (hm : m ≤ 2)
    (hq : (q₀ + i) % 512 ^ m = 0) (hin : i + 512 ^ m ≤ n)
    (hend : m = 0 ∨ i + 512 ^ m + 1 < n) (hn : q₀ + n ≤ 2 ^ 36)
    (hpa : pa + n * 0x1000 ≤ 2 ^ 52) (hg : T.get (path (q₀ + i)) (4 - m) 4 = some t)
    (hT' : T' = T.put (path (q₀ + i)) (4 - m) 4 (.leaf e))
    (he : vmmPtEntryGetAddress e = vmmPtEntryGetAddress (pa + i * 0x1000)) :
    Progress T₀ T' q₀ n pa (i + 512 ^ m) := by
  have hpos : 0 < 512 ^ m := Nat.pow_pos (by omega)
  have hlev : 4 - (4 - m) = m := by omega
  have hblock : ∀ r, r < 2 ^ 36 →
      (SameBlock (4 - (4 - m)) (q₀ + i) r ↔ q₀ + i ≤ r ∧ r < q₀ + i + 512 ^ m) := by
    intro r hr
    rw [hlev]
    exact sameBlock_interval hm hq (by omega) hr
  have hfind : ∀ r, ¬ SameBlock (4 - (4 - m)) (q₀ + i) r →
      T'.find (path r) 4 = T.find (path r) 4 := by
    intro r hr
    rw [hT']
    exact Tree.find_put_other (by omega) hr
  have hsame : ∀ r, SameBlock (4 - (4 - m)) (q₀ + i) r → T'.find (path r) 4 = some (m, e) := by
    intro r hr
    rw [hT', Tree.find_put_same (by omega) hg hr, Tree.find, hlev]
  have hpage : vmmPtEntryGetAddress (pa + i * 0x1000) = pageOf pa + i * 0x1000 := by
    rw [getAddress_page (by omega)]
    simp only [pageOf]
    omega
  have hx : ∀ r, PageTree.xlate T' r = if SameBlock (4 - (4 - m)) (q₀ + i) r then
      some (pageOf pa + i * 0x1000 + r % 512 ^ m * 0x1000) else PageTree.xlate T r := by
    intro r
    rw [hT', xlate_put (by omega) hg]
    simp only [PageTree.xlateFrom, Tree.find, Option.map_some, he, hpage, hlev]
  constructor
  · intro j hj
    rw [hx]
    by_cases hji : j < i
    · rw [if_neg, h.done j hji]
      rw [hblock _ (by omega)]
      omega
    · rw [if_pos ((hblock _ (by omega)).mpr (by omega))]
      have hmod : (q₀ + j) % 512 ^ m = j - i := by
        rw [show q₀ + j = q₀ + i + (j - i) by omega, Nat.add_mod, hq, Nat.zero_add, Nat.mod_mod]
        exact Nat.mod_eq_of_lt (by omega)
      rw [hmod]
      congr 1
      omega
  · intro r hr hout
    rw [hx, if_neg, h.outside r hr hout]
    rw [hblock r hr]
    omega
  · rintro j h₁ h₂ hv ⟨l, e', hl, hf⟩
    rw [hfind _ (by rw [hblock _ (by omega)]; omega)] at hf
    exact h.todo j (by omega) h₂ hv ⟨l, e', hl, hf⟩
  · rintro r hr hout ⟨l, e', hl, hf⟩
    rw [hfind _ (by rw [hblock _ hr]; omega)] at hf
    exact h.large r hr hout ⟨l, e', hl, hf⟩
  · intro h₀ r l e' hf
    by_cases hb : SameBlock (4 - (4 - m)) (q₀ + i) r
    · rw [hsame r hb, Option.some.injEq, Prod.mk.injEq] at hf
      obtain ⟨rfl, rfl⟩ := hf
      rw [he, hpage]
      simp only [pageOf]
      omega
    · rw [hfind r hb] at hf
      exact h.fits h₀ r l e' hf
  · rintro r hr ⟨e', hf⟩
    by_cases hb : SameBlock (4 - (4 - m)) (q₀ + i) r
    · rw [hsame r hb, Option.some.injEq, Prod.mk.injEq] at hf
      obtain ⟨rfl, _⟩ := hf
      obtain ⟨h₁, h₂⟩ := (hblock r hr).mp hb
      norm_num at hq h₂ hend
      refine .inr ⟨?_, ?_⟩ <;> simp only [gib] <;> omega
    · rw [hfind r hb] at hf
      exact h.huge r hr ⟨e', hf⟩

end Progress

/-! ## The loop -/

theorem nextEntry_later {p : Nat} {c c' : MapCursor} {k k' : Kernel}
    (h : nextEntry p c k = some (c', k')) : Later k k' := by
  have hprep : ∀ d e, prepare p d e k = (c', k') → Later k k' := by
    intro d e he
    have := prepare_later p d e k
    rwa [he] at this
  by_cases h₀ : c.ptI ≤ 511
  · rw [nextEntry_pt p k h₀, Option.some.injEq] at h
    exact hprep 3 _ h
  by_cases h₁ : c.pdI + 1 ≤ 511
  · rw [nextEntry_pd p k (by omega) h₁, Option.some.injEq] at h
    exact hprep 2 _ h
  by_cases h₂ : c.pdptI + 1 ≤ 511
  · rw [nextEntry_pdpt p k (by omega) (by omega) h₂, Option.some.injEq] at h
    exact hprep 1 _ h
  by_cases h₃ : c.pml4I + 1 ≤ 511
  · rw [nextEntry_pml4 p k (by omega) (by omega) (by omega) h₃, Option.some.injEq] at h
    exact hprep 0 _ h
  · rw [nextEntry, if_pos (by omega)] at h
    simp only [] at h
    rw [if_pos (by omega), if_pos (by omega), if_pos (by omega)] at h
    cases h

theorem mapLeaf_later (n : Nat) (c : MapCursor) (k : Kernel) : Later k (mapLeaf n c k).2 := by
  rw [mapLeaf]
  split
  · exact (pmmFree_later _ _).trans ((pmmFree_later _ _).trans (setLarge_later _ _ _))
  split
  · exact (pmmFree_later _ _).trans (setLarge_later _ _ _)
  · exact st64_later _ _ _

theorem mapPagesLoop_later (p n fuel : Nat) (c : MapCursor) (k : Kernel) :
    Later k (mapPagesLoop p n fuel c k) := by
  induction fuel generalizing c k with
  | zero => exact Later.refl k
  | succ fuel ih =>
    rw [mapPagesLoop]
    split
    · simp only []
      split
      · exact mapLeaf_later n c k
      · split
        · exact mapLeaf_later n c k
        · rename_i hn
          exact (mapLeaf_later n c k).trans ((nextEntry_later hn).trans (ih _ _))
    · exact Later.refl k

theorem mapPagesLoop_next {p n fuel : Nat} {c c₁ c₂ : MapCursor} {k k₁ k₂ : Kernel} (hi : c.i < n)
    (hl : mapLeaf n c k = (c₁, k₁)) (hne : c₁.i ≠ n - 1)
    (hx : nextEntry p c₁ k₁ = some (c₂, k₂)) : mapPagesLoop p n (fuel + 1) c k =
      mapPagesLoop p n fuel { c₂ with i := c₂.i + 1 } k₂ := by
  rw [mapPagesLoop, if_pos hi, hl]
  simp only []
  rw [if_neg hne, hx]

theorem mapPagesLoop_last {p n fuel : Nat} {c c₁ : MapCursor} {k k₁ : Kernel} (hi : c.i < n)
    (hl : mapLeaf n c k = (c₁, k₁)) (heq : c₁.i = n - 1) :
    mapPagesLoop p n (fuel + 1) c k = k₁ := by
  rw [mapPagesLoop, if_pos hi, hl]
  simp only []
  rw [if_pos heq]

/-- The state between two leaves: the first `i` pages are mapped, the next one is not looked at yet.
The current tree is a window of the frames that may come back, the tree's and the free ones. -/
structure Between (root croot : Nat) (W F : Set Nat) (P : Prop) (k₀ : Kernel) (T₀ C₀ : PageTree)
    (q₀ n pa i : Nat) (k : Kernel) (T C : PageTree) : Prop where
  ready : Ready root croot W F P k T C
  move : Move k₀ T₀ C₀ k T C
  progress : Progress T₀ T q₀ n pa i
  pristine : Pristine T₀ T q₀ i
  replaced : T₀.replaced q₀ n ⊆ W
  first : ∃ b, (∀ x, k.First x ⊆ W ∪ k₀.First (x + b)) ∧
    (i < n → k₀.First (T₀.takes q₀ n b i) ⊆ W)
  at_head : HeadAt q₀ n (q₀ + i)

/-- The state at the head of the loop: the first `c.i` pages are mapped, the next one's PT entry is
present. -/
structure Head (root croot : Nat) (W F : Set Nat) (P : Prop) (k₀ : Kernel) (T₀ C₀ : PageTree)
    (q₀ n pa : Nat) (k : Kernel) (T C : PageTree) (c : MapCursor) : Prop where
  ready : Ready root croot W F P k T C
  move : Move k₀ T₀ C₀ k T C
  lt : c.i < n
  indices : Indices c (q₀ + c.i)
  down : Down k.toGlobals T c (q₀ + c.i) 3
  slot : SlotAt k.toGlobals T (q₀ + c.i) 3 c.ptEntry
  entry : ∃ e, T.get (path (q₀ + c.i)) 4 4 = some (.leaf e)
  phys : c.currentPhys = pa + c.i * 0x1000
  progress : Progress T₀ T q₀ n pa c.i
  pristine : Pristine T₀ T q₀ (c.i + 1)
  replaced : T₀.replaced q₀ n ⊆ W
  first : ∃ b, (∀ x, k.First x ⊆ W ∪ k₀.First (x + b)) ∧
    (c.i + 512 ^ blockLevel q₀ n c.i < n → k₀.First (T₀.takes q₀ n (b + blockLevel q₀ n c.i)
      (c.i + 512 ^ blockLevel q₀ n c.i)) ⊆ W)
  back : T.replacedAt (q₀ + c.i) (blockLevel q₀ n c.i) ⊆ W
  at_head : HeadAt q₀ n (q₀ + c.i)

/-- A run over the whole range. -/
structure Ranged (root croot : Nat) (W F : Set Nat) (P : Prop) (k : Kernel) (T C : PageTree)
    (q₀ n pa : Nat) (k' : Kernel) (T' C' : PageTree) : Prop where
  ready : Ready root croot W F P k' T' C'
  move : Move k T C k' T' C'
  progress : Progress T T' q₀ n pa n

section Loop

variable {root croot q₀ n pa i d : Nat} {W F : Set Nat} {P : Prop} {k₀ k : Kernel}
  {T₀ C₀ T C : PageTree} {c : MapCursor}

theorem leap_i {m : Nat} (hm : m ≤ 2) (c : MapCursor) : (leap m c).i + 1 = c.i + 512 ^ m := by
  rcases (by omega : m = 0 ∨ m = 1 ∨ m = 2) with rfl | rfl | rfl <;> norm_num [leap]

theorem leap_phys {m : Nat} (hm : m ≤ 2) (c : MapCursor) :
    (leap m c).currentPhys = (c.currentPhys + 512 ^ m * 0x1000) % 2 ^ 64 := by
  rcases (by omega : m = 0 ∨ m = 1 ∨ m = 2) with rfl | rfl | rfl <;> norm_num [leap]

/-- The frames among the first, `m` more taken. -/
theorem first_drew {k' : Kernel} {G : Set Nat} {b m : Nat} (hd : Drew m k k')
    (hback : k'.Free ⊆ G ∪ k.Free) (hG : G ⊆ W) (h : ∀ x, k.First x ⊆ W ∪ k₀.First (x + b)) (x : Nat) :
    k'.First x ⊆ W ∪ k₀.First (x + (b + m)) := by
  refine (hd.first hback).trans (Set.union_subset (hG.trans Set.subset_union_left) ?_)
  refine (h (x + m)).trans (Set.union_subset_union_right _ (first_mono ?_))
  omega

/-- A table over the page that a large leaf replaces is the tree's own, or was taken for the page. -/
theorem Between.back {c₁ c' : MapCursor} {k' : Kernel} {T' : PageTree}
    (h : Between root croot W F P k₀ T₀ C₀ q₀ n pa i k T C) (hn : q₀ + n ≤ 2 ^ 36) (hlt : i < n)
    (ho : Opens q₀ i d) (hd : d ≤ 3 - blockLevel q₀ n i)
    (hp : Prepared d root k T c₁ (q₀ + i) c' k' T') :
    T'.replacedAt (q₀ + i) (blockLevel q₀ n i) ⊆ W := by
  rintro f ⟨m, j, hm, hm3, hl⟩
  have hlevel := blockLevel_le q₀ n i
  have hsame : ∀ {m}, 3 < m + blockLevel q₀ n i → m ≤ 3 →
      T.under (path (q₀ + i)) m 4 = T₀.under (path (q₀ + i)) m 4 := fun hm hm3 =>
    h.pristine.at_page (by omega) ho (by omega) (by omega)
  cases hp.inherits m f j hm3 hl with
  | inl hl' =>
    rw [Tree.loc_under, hsame hm hm3, ← Tree.loc_under] at hl'
    exact h.replaced ⟨i, hlt, h.at_head, m, j, hm, hm3, hl'⟩
  | inr hnew =>
    obtain ⟨hf, hnone⟩ := hnew
    have hle := h.pristine.missing (by omega) ho
    have hused : f ∉ k'.Free := Set.disjoint_left.mp hp.step.owned.free (Tree.loc_mem hl)
    obtain ⟨b, hb, hW⟩ := h.first
    have hlevel₀ : blockLevel q₀ n i ≠ 0 := by omega
    rw [hsame (by omega) (Nat.le_refl 3)] at hnone
    have htakes := hW hlt
    rw [PageTree.takes, if_pos ⟨hlevel₀, hnone⟩] at htakes
    cases hb _ (first_mono hle (hp.drew.mem_first hf hused)) with
    | inl hf => exact hf
    | inr hf => exact htakes (first_mono (by omega) hf)

theorem Between.prepared {c₁ c' c₂ : MapCursor} {k' : Kernel} {T' : PageTree}
    (h : Between root croot W F P k₀ T₀ C₀ q₀ n pa i k T C) (hn : q₀ + n ≤ 2 ^ 36) (hlt : i < n)
    (ho : Opens q₀ i d) (hd : d ≤ 3 - blockLevel q₀ n i) (hphys : c₁.currentPhys = pa + i * 0x1000)
    (hp : Prepared d root k T c₁ (q₀ + i) c' k' T') (hc : c₂ = { c' with i := i }) :
    Head root croot W F P k₀ T₀ C₀ q₀ n pa k' T' C c₂ := by
  obtain ⟨hr', hm'⟩ := h.ready.step hp.step
  have hmiss := h.pristine.missing (by omega) ho
  have hi := hp.indices
  obtain ⟨b, hb, hW⟩ := h.first
  subst hc
  refine ⟨hr', h.move.trans hm', hlt, ⟨hi.pml4I, hi.pdptI, hi.pdI, hi.ptI⟩, hp.down, hp.slot,
    hp.entered.entry, hp.phys.trans hphys, h.progress.enter hlt hn hp.entered,
    h.pristine.enter hp.entered, h.replaced, ⟨b + T₀.opens q₀ (q₀ + i),
      first_drew (hp.drew.mono hmiss) (hp.step.free.trans Set.subset_union_right)
        (Set.empty_subset W) hb, fun hnext => ?_⟩, h.back hn hlt ho hd hp, h.at_head⟩
  have htakes := hW hlt
  rw [PageTree.takes, if_pos hnext] at htakes
  exact (first_mono (Nat.le_max_right _ _)).trans htakes

theorem blockLevel_opens (q₀ n i : Nat) : (q₀ + i) % 512 ^ blockLevel q₀ n i = 0 := by
  rw [blockLevel]
  split
  · norm_num
    omega
  · split
    · norm_num
      omega
    · exact Nat.mod_one _

/-- The preparation of the page of a large leaf starts above the tables that the leaf replaces. -/
theorem Moved.above {g : Globals} {c' : MapCursor} (h : Moved g T c c' (q₀ + i) d) :
    d ≤ 3 - blockLevel q₀ n i := by
  by_contra hlt
  have hd := h.depth
  refine h.shared (by omega) (Nat.mod_eq_zero_of_dvd ?_)
  exact (pow_dvd_pow 512 (by omega)).trans (Nat.dvd_of_mod_eq_zero (blockLevel_opens q₀ n i))

theorem Head.large (hP : Leaps q₀ n → P) (h : Head root croot W F P k₀ T₀ C₀ q₀ n pa k T C c)
    (hne : leafLevel n c ≠ 0) : P := by
  obtain ⟨hle, hq, hfits, _⟩ := leafLevel_spec n h.indices
  refine hP ⟨c.i, ?_⟩
  rcases (by omega : leafLevel n c = 1 ∨ leafLevel n c = 2) with hl | hl <;>
    rw [hl] at hq hfits <;> norm_num at hq hfits <;> omega

theorem Head.leaf (hP : Leaps q₀ n → P) (hn : q₀ + n ≤ 2 ^ 36) (hpa : pa + n * 0x1000 ≤ 2 ^ 52)
    (h : Head root croot W F P k₀ T₀ C₀ q₀ n pa k T C c) (hs : (mapLeaf n c k).2.Supplied) :
    ∃ T₁ C₁, c.i + 512 ^ blockLevel q₀ n c.i ≤ n ∧
      Between root croot W F P k₀ T₀ C₀ q₀ n pa (c.i + 512 ^ blockLevel q₀ n c.i)
        (mapLeaf n c k).2 T₁ C₁ ∧
      Down (mapLeaf n c k).2.toGlobals T₁ c (q₀ + c.i) (3 - blockLevel q₀ n c.i) := by
  have hlevel := leafLevel_block (n := n) h.indices
  obtain ⟨hm, hq, hfits, hmax⟩ := leafLevel_spec n h.indices
  have hback := h.back
  rw [← hlevel] at hback ⊢
  obtain ⟨T₁, C₁, hmap⟩ := mapLeaf_spec h.ready h.down h.slot h.entry (h.large hP) hback hs
  obtain ⟨e, t, hg, hT₁, he⟩ := hmap.put
  rw [h.phys] at he
  have hlt := h.lt
  have hin : c.i + 512 ^ leafLevel n c ≤ n := by
    cases hfits with
    | inl h₀ => rw [h₀, Nat.pow_zero]; omega
    | inr h₀ => omega
  obtain ⟨b, hb, hW⟩ := h.first
  rw [← hlevel] at hW
  refine ⟨T₁, C₁, hin, ⟨hmap.ready, h.move.trans hmap.move,
    h.progress.leaf hm hq hin hfits hn hpa hg hT₁ he, ?_, h.replaced,
    ⟨_, first_drew hmap.drew hmap.back Set.Subset.rfl hb, hW⟩,
    h.at_head.next hm hq fun h₁ h₂ => ?_⟩, hmap.down⟩
  · rw [hT₁]
    exact h.pristine.leaf hm rfl hq (by omega)
  · by_contra hne
    exact hmax 2 (Nat.le_refl 2) (by omega) h₁ h₂

theorem Head.next {k₁ : Kernel} {T₁ C₁ : PageTree} (p : Nat) (hn : q₀ + n ≤ 2 ^ 36)
    (hpa : pa + n * 0x1000 ≤ 2 ^ 52) (h : Head root croot W F P k₀ T₀ C₀ q₀ n pa k T C c)
    (hlt : c.i + 512 ^ blockLevel q₀ n c.i < n)
    (hb : Between root croot W F P k₀ T₀ C₀ q₀ n pa (c.i + 512 ^ blockLevel q₀ n c.i) k₁ T₁ C₁)
    (hdown : Down k₁.toGlobals T₁ c (q₀ + c.i) (3 - blockLevel q₀ n c.i)) :
    ∃ d c₂, (∀ k', nextEntry p (leap (blockLevel q₀ n c.i) c) k' = some (prepare p d c₂ k')) ∧
      Moved k₁.toGlobals T₁ (leap (blockLevel q₀ n c.i) c) c₂
        (q₀ + (c.i + 512 ^ blockLevel q₀ n c.i)) d ∧
      ¬ PageTree.Large T₁ (q₀ + (c.i + 512 ^ blockLevel q₀ n c.i)) ∧
      ((prepare (k₁.virt root) d c₂ k₁).2.Supplied →
        (prepare (k₁.virt root) d c₂ k₁).1.i + 1 = c.i + 512 ^ blockLevel q₀ n c.i ∧
        ∃ T₂, Head root croot W F P k₀ T₀ C₀ q₀ n pa (prepare (k₁.virt root) d c₂ k₁).2 T₂ C₁
          { (prepare (k₁.virt root) d c₂ k₁).1 with
            i := (prepare (k₁.virt root) d c₂ k₁).1.i + 1 }) := by
  have hle := blockLevel_le q₀ n c.i
  have hi := leap_i hle c
  obtain ⟨d, c₂, hmoved, hnext⟩ := advance_spec p hle h.indices (blockLevel_opens q₀ n c.i)
    (by omega) hdown
  rw [Nat.add_assoc] at hmoved
  have hnl := hb.progress.todo _ (Nat.le_refl _) hlt hb.at_head.visits
  refine ⟨d, c₂, hnext, hmoved, hnl, fun hs => ?_⟩
  obtain ⟨T₂, hT₂⟩ := prepare_spec hmoved.depth hb.ready.tree hmoved.indices hnl hmoved.down hs
  have hphys : c₂.currentPhys = pa + (c.i + 512 ^ blockLevel q₀ n c.i) * 0x1000 := by
    rw [hmoved.phys, leap_phys hle, h.phys]
    omega
  have hi₂ := hT₂.i.trans hmoved.i
  have hidx : (prepare (k₁.virt root) d c₂ k₁).1.i + 1 = c.i + 512 ^ blockLevel q₀ n c.i := by omega
  exact ⟨hidx, T₂, hb.prepared hn hlt (.inr hmoved.opens) hmoved.above hphys hT₂ (by rw [hidx])⟩

/-- The leaf is all that one iteration does before the next entry. -/
theorem mapLeaf_supplied {p fuel : Nat} (hlt : c.i < n)
    (hs : (mapPagesLoop p n (fuel + 1) c k).Supplied) : (mapLeaf n c k).2.Supplied := by
  rw [mapPagesLoop, if_pos hlt] at hs
  refine Later.supplied ?_ hs
  simp only []
  split
  · exact Later.refl _
  · split
    · exact Later.refl _
    · rename_i hnext
      exact (nextEntry_later hnext).trans (mapPagesLoop_later _ _ _ _ _)

theorem Head.mapLeaf_eq {k₁ : Kernel} (h : Head root croot W F P k₀ T₀ C₀ q₀ n pa k T C c)
    (hk₁ : (mapLeaf n c k).2 = k₁) :
    mapLeaf n c k = (leap (blockLevel q₀ n c.i) c, k₁) := by
  rw [← hk₁, ← leafLevel_block h.indices, ← mapLeaf_cursor n c k]

theorem Head.unroll_last {k₁ : Kernel} {p fuel : Nat}
    (h : Head root croot W F P k₀ T₀ C₀ q₀ n pa k T C c) (hk₁ : (mapLeaf n c k).2 = k₁)
    (hlast : c.i + 512 ^ blockLevel q₀ n c.i = n) : mapPagesLoop p n (fuel + 1) c k = k₁ := by
  have hi := leap_i (blockLevel_le q₀ n c.i) c
  exact mapPagesLoop_last h.lt (h.mapLeaf_eq hk₁) (by omega)

theorem Head.unroll_next {k₁ : Kernel} {p fuel d : Nat} {c₂ : MapCursor}
    (h : Head root croot W F P k₀ T₀ C₀ q₀ n pa k T C c) (hk₁ : (mapLeaf n c k).2 = k₁)
    (hlt : c.i + 512 ^ blockLevel q₀ n c.i < n)
    (hnext : nextEntry p (leap (blockLevel q₀ n c.i) c) k₁ = some (prepare p d c₂ k₁)) :
    mapPagesLoop p n (fuel + 1) c k = mapPagesLoop p n fuel
      { (prepare p d c₂ k₁).1 with i := (prepare p d c₂ k₁).1.i + 1 } (prepare p d c₂ k₁).2 := by
  have hi := leap_i (blockLevel_le q₀ n c.i) c
  exact mapPagesLoop_next h.lt (h.mapLeaf_eq hk₁) (by omega) hnext

/-- The loop, from any head: `n` iterations reach the end of the range. -/
theorem mapPagesLoop_spec (hP : Leaps q₀ n → P) (hn : q₀ + n ≤ 2 ^ 36)
    (hpa : pa + n * 0x1000 ≤ 2 ^ 52) (fuel : Nat) (hfuel : n ≤ c.i + fuel)
    (h : Head root croot W F P k₀ T₀ C₀ q₀ n pa k T C c)
    (hs : (mapPagesLoop (k₀.virt root) n fuel c k).Supplied) :
    ∃ T' C', Ranged root croot W F P k₀ T₀ C₀ q₀ n pa (mapPagesLoop (k₀.virt root) n fuel c k)
      T' C' := by
  induction fuel generalizing k T C c with
  | zero => have := h.lt; omega
  | succ fuel ih =>
    obtain ⟨T₁, C₁, hin, hb, hdown⟩ := h.leaf hP hn hpa (mapLeaf_supplied h.lt hs)
    generalize hk₁ : (mapLeaf n c k).2 = k₁ at hb hdown
    have hpos : 0 < 512 ^ blockLevel q₀ n c.i := Nat.pow_pos (by omega)
    by_cases hlast : c.i + 512 ^ blockLevel q₀ n c.i = n
    · rw [h.unroll_last hk₁ hlast]
      have hprog := hb.progress
      rw [hlast] at hprog
      exact ⟨T₁, C₁, hb.ready, hb.move, hprog⟩
    · have hlt : c.i + 512 ^ blockLevel q₀ n c.i < n := by omega
      obtain ⟨d, c₂, hnext, hmoved, _, hhead⟩ := h.next (k₀.virt root) hn hpa hlt hb hdown
      rw [h.unroll_next hk₁ hlt (hnext k₁)] at hs ⊢
      rw [show k₁.virt root = k₀.virt root by rw [hb.move.within.globals]] at hhead
      obtain ⟨hidx, T₂, hT₂⟩ := hhead ((mapPagesLoop_later _ _ _ _ _).supplied hs)
      exact ih (by simp only [hidx]; omega) hT₂ hs

end Loop

/-! ## The whole call -/

section Call

variable {root croot n pa va : Nat} {W F : Set Nat} {P : Prop} {k : Kernel} {T C : PageTree}

/-- The cursor `vmm_map_pages_pml4` starts with. -/
def mapStart (pa va : Nat) : MapCursor :=
  { pml4I := pml4Index va, pdptI := pdptIndex va, pdI := pdIndex va, ptI := ptIndex va
    pml4Entry := 0, pdpt := 0, pdptEntry := 0, pd := 0, pdEntry := 0, pt := 0, ptEntry := 0
    currentPhys := pa, i := 0 }

theorem vmmMapPagesPml4_eq (k : Kernel) (p pa va n : Nat) : k.vmmMapPagesPml4 p pa va n =
    mapPagesLoop p n n (prepare p 0 (mapStart (k.convertPhys pa) va) k).1
      (prepare p 0 (mapStart (k.convertPhys pa) va) k).2 := rfl

theorem vmmMapPagesPml4_later (k : Kernel) (p pa va n : Nat) :
    Later k (k.vmmMapPagesPml4 p pa va n) :=
  (prepare_later p 0 _ k).trans (mapPagesLoop_later p n n _ _)

theorem mapStart_indices (pa va : Nat) : Indices (mapStart pa va) (vpn va) := by
  constructor
  · exact (pml4Index_eq va).trans (by rw [vpn, path_mod (by omega)])
  · exact (pdptIndex_eq va).trans (by rw [vpn, path_mod (by omega)])
  · exact (pdIndex_eq va).trans (by rw [vpn, path_mod (by omega)])
  · exact (ptIndex_eq va).trans (by rw [vpn, path_mod (by omega)])

/-- The entry of the first page is prepared before the count is looked at. -/
theorem mapStart_prepared (h : Ready root croot W F P k T C) (hl : ¬ PageTree.Large T (vpn va))
    (hs : (prepare (k.virt root) 0 (mapStart pa va) k).2.Supplied) :
    ∃ T', Prepared 0 root k T (mapStart pa va) (vpn va)
      (prepare (k.virt root) 0 (mapStart pa va) k).1
      (prepare (k.virt root) 0 (mapStart pa va) k).2 T' :=
  prepare_spec (by omega) h.tree (mapStart_indices pa va) hl trivial hs

theorem Ready.between (h : Ready root croot W F P k T C)
    (hW : k.returnable T (vpn va) n ⊆ W) {pa' : Nat}
    (hl : ∀ j, j < n → Visits (vpn va) n (vpn va + j) → ¬ PageTree.Large T (vpn va + j)) :
    Between root croot W F P k T C (vpn va) n pa' 0 k T C where
  ready := h
  move := Move.refl _ _ _
  progress := Progress.start hl
  pristine _ _ _ _ := rfl
  replaced := Set.subset_union_left.trans hW
  first := ⟨0, fun _ => Set.subset_union_right, fun _ => Set.subset_union_right.trans hW⟩
  at_head := headAt_start (vpn va) n

theorem Ready.returnable {q₀ : Nat} (h : Ready root croot F F P k T C) :
    k.returnable T q₀ n ⊆ F := (returnable_subset k T q₀ n).trans h.frames

theorem Ready.head {pa' : Nat} (h : Ready root croot W F P k T C)
    (hW : k.returnable T (vpn va) n ⊆ W) (hn : 0 < n) (hrange : vpn va + n ≤ 2 ^ 36)
    (hl : ∀ j, j < n → Visits (vpn va) n (vpn va + j) → ¬ PageTree.Large T (vpn va + j))
    (hs : (prepare (k.virt root) 0 (mapStart pa' va) k).2.Supplied) :
    (prepare (k.virt root) 0 (mapStart pa' va) k).1.i = 0 ∧ ∃ T₁,
      Head root croot W F P k T C (vpn va) n pa' (prepare (k.virt root) 0 (mapStart pa' va) k).2 T₁ C
        (prepare (k.virt root) 0 (mapStart pa' va) k).1 := by
  obtain ⟨T₁, hT₁⟩ := mapStart_prepared h (hl 0 hn (headAt_start (vpn va) n).visits) hs
  generalize prepare (k.virt root) 0 (mapStart pa' va) k = r at hT₁ ⊢
  have hi : r.1.i = 0 := hT₁.i
  have hc : r.1 = { r.1 with i := 0 } := by rw [← hi]
  exact ⟨hi, T₁, (h.between hW hl).prepared hrange hn (.inl rfl) (Nat.zero_le _)
    (by simp [mapStart]) hT₁ hc⟩

/-- A range of pages, none of them under a large leaf where the loop looks. The frames are counted
from whatever the physical address is taken for. -/
theorem vmmMapPagesPml4_ranged {pa' : Nat} (hP : Leaps (vpn va) n → P)
    (h : Ready root croot W F P k T C) (hW : k.returnable T (vpn va) n ⊆ W) (hn : 0 < n)
    (hrange : vpn va + n ≤ 2 ^ 36) (hpa : pa' + n * 0x1000 ≤ 2 ^ 52)
    (hl : ∀ j, j < n → Visits (vpn va) n (vpn va + j) → ¬ PageTree.Large T (vpn va + j))
    (hc : k.convertPhys pa = pa') (hs : (k.vmmMapPagesPml4 (k.virt root) pa va n).Supplied) :
    ∃ T' C', Ranged root croot W F P k T C (vpn va) n pa'
      (k.vmmMapPagesPml4 (k.virt root) pa va n) T' C' := by
  rw [vmmMapPagesPml4_eq, hc] at hs ⊢
  obtain ⟨_, T₁, hT₁⟩ := h.head hW hn hrange hl ((mapPagesLoop_later _ _ _ _ _).supplied hs)
  exact mapPagesLoop_spec hP hrange hpa n (by omega) hT₁ hs

/-- An empty range still gets the tables and the PT entry of its first page: where that was absent,
the page is mapped to the frame the entry took. -/
theorem vmmMapPagesPml4_zero (h : Ready root croot W F P k T C) (hl : ¬ PageTree.Large T (vpn va))
    (hs : (k.vmmMapPagesPml4 (k.virt root) pa va 0).Supplied) :
    ∃ T', Ready root croot W F P (k.vmmMapPagesPml4 (k.virt root) pa va 0) T' C ∧
      Move k T C (k.vmmMapPagesPml4 (k.virt root) pa va 0) T' C ∧ Entered T (vpn va) T' ∧
      ∀ a, PageTree.xlate T' (vpn va) = some a → PageTree.xlate T (vpn va) = some a ∨ a ∈ k.Free := by
  rw [vmmMapPagesPml4_eq] at hs ⊢
  obtain ⟨T₁, hT₁⟩ := mapStart_prepared h hl hs
  obtain ⟨hr, hm⟩ := h.step hT₁.step
  exact ⟨T₁, hr, hm, hT₁.entered, hT₁.fresh⟩

end Call

end BambooOS
