import BambooOS.Vmm.Calls

/-!
# Vmm.Conserve

Mapping and unmapping a page loses no frame: a frame that was free or a table before is one of the
two after it.

* `Stored.unique`: the tables in memory stand for one tree.
* `Managed`: the frames of a tree and the free ones. Every block of the descent keeps them.
* `vmmMapPagePml4_managed`, `vmmUnmapPage_managed`: so does a map and an unmap.
-/

namespace BambooOS

open ByteMem Radix Kernel

/-- Below the root pointer an entry is read in one way only. -/
theorem fmt_exclusive : fmt.Exclusive 3 where
  absent_leaf := by
    rintro l v _ rfl ⟨hp, _⟩
    exact not_present_zero hp
  absent_table := by
    rintro l v hl rfl (h4 | ⟨hp, _⟩)
    · omega
    · exact not_present_zero hp
  leaf_table := by
    rintro l v hl ⟨_, hleaf⟩ (h4 | ⟨_, htable⟩)
    · omega
    · rcases hleaf with h0 | ⟨hlev, hlar⟩
      · omega
      · rcases htable with h3 | ⟨_, hnot⟩
        · omega
        · exact hnot hlar

/-! ## One tree -/

section Stored

variable {k k' : Kernel} {root f n q : Nat} {i : Fin 512} {T T' t : PageTree}

theorem Stored.unique (h : Stored k root T) (h' : Stored k root T') : T = T' := by
  obtain ⟨sub, rfl⟩ := h.table
  obtain ⟨sub', rfl⟩ := h'.table
  congr 1
  funext i
  exact Tree.Rep.unique fmt_exclusive (h.rep.2.2 i) (h'.rep.2.2 i)

theorem Stored.frames_kept (h : Stored k root T) (h' : Stored k' root T')
    (hl : T.loc fmt.base (path q) n 4 = some (f, i)) (hg : T.get (path q) (n + 1) 4 = some t)
    (ht : t.frames fmt.base = ∅)
    (hrd : ∀ g ∈ (T.put (path q) (n + 1) 4 .none).frames fmt.base, ∀ j, (g, j) ≠ (f, i) →
      k'.rd g j = k.rd g j) :
    T'.loc fmt.base (path q) n 4 = some (f, i) ∧ T.frames fmt.base ⊆ T'.frames fmt.base := by
  obtain ⟨sub', hsub'⟩ := h'.table
  obtain ⟨u, rfl⟩ := Tree.Rep.exists_put fmt_exclusive h.rep h.sep hl hrd h'.rep hsub'
  refine ⟨(Tree.loc_put (by omega) hg).trans hl, ?_⟩
  rw [Tree.frames_put hg, Tree.frames_get (b := fmt.base) hg, ht, Set.union_empty]
  exact Set.subset_union_left

end Stored

/-! ## The two ways a slot changes -/

/-- The frames of a tree and the free ones. -/
def PageTree.Managed (T : PageTree) (k : Kernel) : Set Nat := T.frames fmt.base ∪ k.Free

section Slots

variable {k k' : Kernel} {root f g v n q : Nat} {i : Fin 512} {T T' t : PageTree}

theorem Owned.grown_managed (h : Owned k root T) (h' : Owned k' root T') (hn : n < 3)
    (hl : T.loc fmt.base (path q) n 4 = some (f, i)) (hg : T.get (path q) (n + 1) 4 = some t)
    (ht : t.frames fmt.base = ∅) (hgr : Grown k f i (freshEntry g) g k') :
    PageTree.Managed T k ⊆ PageTree.Managed T' k' := by
  have hrest := rest_subset hg
  have hrd : ∀ x ∈ (T.put (path q) (n + 1) 4 .none).frames fmt.base, ∀ j, (x, j) ≠ (f, i) →
      k'.rd x j = k.rd x j := by
    intro x hx j hne
    by_cases hxf : x = f
    · subst hxf
      exact hgr.other j fun hj => hne (hj ▸ rfl)
    · apply hgr.within.kept.rd (frames_spec (hrest hx)).1
      rintro ((hx' | hx') | hx')
      · exact hxf hx'
      · cases hx'
        exact Set.disjoint_left.mp h.free (hrest hx) hgr.mem_free
      · exact Set.disjoint_left.mp h.bitmap (hrest hx) hx'
  obtain ⟨hl', hsub⟩ := h.stored.frames_kept h'.stored hl hg ht hrd
  have hmem : g ∈ T'.frames fmt.base := by
    have hgf := free_lt h.ok.toPmmOk hgr.mem_free
    have hgal := free_aligned h.ok.toPmmOk hgr.mem_free
    obtain ⟨u, hu, hrep⟩ := h'.stored.rep.of_loc hl'
    rw [hgr.slot] at hrep
    have htable : fmt.table (4 - (n + 1)) (freshEntry g) := by
      refine .inr ⟨present_fresh g, ?_⟩
      by_cases h0 : n = 0
      · exact .inl (by omega)
      · exact .inr ⟨by omega, not_larger_fresh g⟩
    obtain ⟨sub, rfl⟩ := hrep.exists_table (fmt_exclusive.below (by omega)) htable
    have hbase : fmt.base (freshEntry g) = g := by
      simp only [fmt]
      rw [getAddress_fresh, getAddress_of_aligned hgal (by omega)]
    rw [Tree.frames_get (b := fmt.base) hu]
    exact .inr (.inl hbase.symm)
  intro x hx
  rcases hx with hx | hx
  · exact .inl (hsub hx)
  · by_cases hxg : x = g
    · exact .inl (hxg ▸ hmem)
    · exact .inr (hgr.free ▸ ⟨hx, hxg⟩)

theorem Owned.wrote_managed (h : Owned k root T) (h' : Owned k' root T')
    (hl : T.loc fmt.base (path q) n 4 = some (f, i)) (hg : T.get (path q) (n + 1) 4 = some t)
    (ht : t.frames fmt.base = ∅) (hw : Wrote k f i v k') :
    PageTree.Managed T k ⊆ PageTree.Managed T' k' := by
  obtain ⟨_, _, _, hbit⟩ := h.frame hl
  have hsub := (h.stored.frames_kept h'.stored hl hg ht fun x hx j hne =>
    hw.rd (frames_spec (rest_subset hg hx)).1 hne).2
  exact Set.union_subset_union hsub (hw.free h.ok.toPmmOk hbit).ge

theorem Stored.slot_frames (h : Stored k root T) (hn : n < 4)
    (hl : T.loc fmt.base (path q) n 4 = some (f, i)) (hno : n = 3 ∨ 0 < n ∧ Larger (k.rd f i) ∨
      ¬ Present (k.rd f i)) :
    ∃ t, T.get (path q) (n + 1) 4 = some t ∧ t.frames fmt.base = ∅ := by
  rcases h.slot_cases hn hl with ⟨hg, _⟩ | ⟨e, hg, _⟩ | ⟨e, sub, hg, hv, hp, hn', hlar, _⟩
  · exact ⟨_, hg, rfl⟩
  · exact ⟨_, hg, rfl⟩
  · rw [hv] at hno
    rcases hno with h3 | ⟨h0, hl'⟩ | hp'
    · omega
    · exact absurd hl' (hlar.resolve_left (by omega))
    · exact absurd hp hp'

end Slots

/-! ## The descent -/

section Descent

variable {k : Kernel} {root f n q v : Nat} {i : Fin 512} {T T' : PageTree}

theorem ensureEntry_managed (h : Owned k root T) (hn : n < 3)
    (hl : T.loc fmt.base (path q) n 4 = some (f, i))
    (hs : (k.ensureEntry (k.virt f + 8 * i.val)).Supplied)
    (h' : Owned (k.ensureEntry (k.virt f + 8 * i.val)) root T') :
    PageTree.Managed T k ⊆ PageTree.Managed T' (k.ensureEntry (k.virt f + 8 * i.val)) := by
  obtain ⟨hal, hlt, hfree, hbit⟩ := h.frame hl
  by_cases hp : Present (k.rd f i)
  · rw [ensureEntry_present h.ok hlt hp] at h' ⊢
    rw [h.stored.unique h'.stored]
  · obtain ⟨t, hg, ht⟩ := h.stored.slot_frames (by omega) hl (.inr (.inr hp))
    have hz : k.rd f i = 0 := by
      rcases h.stored.slot_cases (by omega) hl with ⟨_, hv⟩ | ⟨e, _, hv, hp', _⟩ |
        ⟨e, sub, _, hv, hp', _⟩
      · exact hv
      · exact absurd (hv ▸ hp') hp
      · exact absurd (hv ▸ hp') hp
    obtain ⟨g, hgr, _⟩ := ensureEntry_grown h.ok h.held hlt hal hfree hbit i hz hs
    exact h.grown_managed h' hn hl hg ht hgr

theorem splitEntry_managed {size : Nat} (h : Owned k root T) (h0 : 0 < n) (hn : n < 3)
    (hl : T.loc fmt.base (path q) n 4 = some (f, i))
    (hs : (k.splitEntry (k.virt f + 8 * i.val) size).Supplied)
    (h' : Owned (k.splitEntry (k.virt f + 8 * i.val) size) root T') :
    PageTree.Managed T k ⊆ PageTree.Managed T' (k.splitEntry (k.virt f + 8 * i.val) size) := by
  obtain ⟨hal, hlt, hfree, hbit⟩ := h.frame hl
  by_cases hlar : Larger (k.rd f i)
  · obtain ⟨t, hg, ht⟩ := h.stored.slot_frames (by omega) hl (.inr (.inl ⟨h0, hlar⟩))
    obtain ⟨g, hgr, _⟩ := splitEntry_grown h.ok h.held hlt hal hfree hbit i hlar hs
    exact h.grown_managed h' hn hl hg ht hgr
  · rw [splitEntry_small h.ok hlt _ hlar] at h' ⊢
    rw [h.stored.unique h'.stored]

theorem enter_managed (h : Owned k root T) (hn : n < 3)
    (hl : T.loc fmt.base (path q) n 4 = some (f, i))
    (hs : (k.ensureEntry (k.virt f + 8 * i.val)).Supplied) :
    ∃ T', Owned (k.ensureEntry (k.virt f + 8 * i.val)) root T' ∧
      T'.loc fmt.base (path q) n 4 = some (f, i) ∧
      PageTree.Managed T k ⊆ PageTree.Managed T' (k.ensureEntry (k.virt f + 8 * i.val)) := by
  obtain ⟨_, hlt, _, _⟩ := h.frame hl
  by_cases hp : Present (k.rd f i)
  · rw [ensureEntry_present h.ok hlt hp]
    exact ⟨T, h, hl, Set.Subset.rfl⟩
  · have hleaf : ∀ e, T.get (path q) (n + 1) 4 ≠ some (.leaf e) := by
      intro e hg
      rcases h.stored.slot_cases (by omega) hl with ⟨hg', _⟩ | ⟨e', _, hv, hp', _⟩ | ⟨e', _, hg', _⟩
      · rw [hg] at hg'
        cases hg'
      · exact hp (hv ▸ hp')
      · rw [hg] at hg'
        cases hg'
    obtain ⟨T', _, hst, _, hloc, _⟩ := enter_spec h hn hl hleaf hs
    exact ⟨T', hst.owned, (hloc n (Nat.le_refl n)).trans hl, ensureEntry_managed h hn hl hs hst.owned⟩

theorem fromPd_managed (h : Owned k root T)
    (hl : T.loc fmt.base (path (v / 0x1000)) 2 4 = some (f, path (v / 0x1000) 1))
    (hs : (k.fromPd (k.virt f) v).2.Supplied) (h' : Owned (k.fromPd (k.virt f) v).2 root T') :
    PageTree.Managed T k ⊆ PageTree.Managed T' (k.fromPd (k.virt f) v).2 := by
  simp only [fromPd, pdIndex_eq] at hs h' ⊢
  obtain ⟨T₁, h₁, hl₁, hsub⟩ := enter_managed h (by omega) hl ((splitEntry_later _ _ _).supplied hs)
  have hg := (ensureEntry_later k (k.virt f + 8 * (path (v / 0x1000) 1).val)).1
  generalize k.ensureEntry (k.virt f + 8 * (path (v / 0x1000) 1).val) = k₁ at hs h' h₁ hsub hg ⊢
  rw [← congrArg Globals.virt hg] at hs h' ⊢
  exact hsub.trans (splitEntry_managed h₁ (by omega) (by omega) hl₁ hs h')

theorem fromPdpt_managed (h : Owned k root T) (hhuge : ¬ PageTree.Huge T (v / 0x1000))
    (hl : T.loc fmt.base (path (v / 0x1000)) 1 4 = some (f, path (v / 0x1000) 2))
    (hs : (k.fromPdpt (k.virt f) v).2.Supplied) (h' : Owned (k.fromPdpt (k.virt f) v).2 root T') :
    PageTree.Managed T k ⊆ PageTree.Managed T' (k.fromPdpt (k.virt f) v).2 := by
  simp only [fromPdpt, pdptIndex_eq] at hs h' ⊢
  have hno : ∀ e, T.get (path (v / 0x1000)) 2 4 ≠ some (.leaf e) := by
    intro e hg
    apply hhuge
    rw [PageTree.Huge, Tree.find_of_get (by omega) hg fun _ _ _ => rfl]
    exact ⟨e, rfl⟩
  have hs₂ := (fromPd_later _ _ _).supplied hs
  obtain ⟨T₂, f₂, hst₂, _, hl₂, hto⟩ :=
    enterSplit_spec (0x1000 * 512) h (by omega) (by omega) hl hno hs₂
  obtain ⟨T₁, h₁, hl₁, hsub₁⟩ :=
    enter_managed h (by omega) hl ((splitEntry_later _ _ _).supplied hs₂)
  have hg := (ensureEntry_later k (k.virt f + 8 * (path (v / 0x1000) 2).val)).1
  rw [← splitPdptEntry] at hst₂ hto
  rw [hto] at hs h' ⊢
  rw [splitPdptEntry] at hs h' hst₂ hs₂ ⊢
  generalize k.ensureEntry (k.virt f + 8 * (path (v / 0x1000) 2).val) = k₁
    at hs h' hs₂ hst₂ h₁ hsub₁ hg ⊢
  have hvirt : k.virt = k₁.virt := (congrArg Globals.virt hg).symm
  rw [hvirt] at hs h' hs₂ hst₂ ⊢
  have hsub₂ := splitEntry_managed h₁ (by omega) (by omega) hl₁ hs₂ hst₂.owned
  generalize k₁.splitEntry (k₁.virt f + 8 * (path (v / 0x1000) 2).val) (0x1000 * 512) = k₂
    at hs h' hst₂ hsub₂ ⊢
  have hvirt₂ : k₁.virt = k₂.virt := by
    rw [← hvirt]
    exact (congrArg Globals.virt hst₂.within.globals).symm
  rw [hvirt₂] at hs h' ⊢
  exact (hsub₁.trans hsub₂).trans (fromPd_managed hst₂.owned hl₂ hs h')

theorem descend_managed (h : Owned k root T) (hhuge : ¬ PageTree.Huge T (v / 0x1000))
    (hs : (k.descend (k.virt root) v).2.Supplied) (h' : Owned (k.descend (k.virt root) v).2 root T') :
    PageTree.Managed T k ⊆ PageTree.Managed T' (k.descend (k.virt root) v).2 := by
  have hl₀ := h.stored.loc_zero (v / 0x1000)
  rw [descend_eq, pml4Index_eq] at hs h' ⊢
  have hs₁ := (fromPdpt_later _ _ _).supplied hs
  obtain ⟨T₁, f₁, hst₁, hsp, _, hl₁, hto, _⟩ := enter_spec h (by omega) hl₀ h.stored.root_table hs₁
  have hsub := ensureEntry_managed h (by omega) hl₀ hs₁ hst₁.owned
  rw [hto] at hs h' ⊢
  generalize k.ensureEntry (k.virt root + 8 * (path (v / 0x1000) 3).val) = k₁ at hs h' hst₁ hsub ⊢
  rw [← congrArg Globals.virt hst₁.within.globals] at hs h' ⊢
  have hno : ¬ PageTree.Huge T₁ (v / 0x1000) := fun ⟨e, he⟩ => hhuge ⟨e, hsp.large _ 2 e (by omega) he⟩
  exact hsub.trans (fromPdpt_managed hst₁.owned hno hl₁ hs h')

theorem descend_wrote_managed {w : Nat} (h : Owned k root T) (hfit : PageTree.Fits T)
    (hhuge : ¬ PageTree.Huge T (v / 0x1000)) (hs : (k.descend (k.virt root) v).2.Supplied)
    (hw : w < 2 ^ 64)
    (h' : Owned ((k.descend (k.virt root) v).2.st64 (k.descend (k.virt root) v).1 w) root T') :
    PageTree.Managed T k ⊆
      PageTree.Managed T' ((k.descend (k.virt root) v).2.st64 (k.descend (k.virt root) v).1 w) := by
  obtain ⟨T₁, f, hst, _, hl, hptr⟩ := descend_spec h hfit hhuge hs
  have hsub := descend_managed h hhuge hs hst.owned
  rw [hptr] at h' ⊢
  generalize (k.descend (k.virt root) v).2 = k₁ at hst hsub h' ⊢
  obtain ⟨hal, hlt, _, _⟩ := hst.owned.frame hl
  obtain ⟨t, hg, ht⟩ := hst.owned.stored.slot_frames (by omega) hl (.inl rfl)
  rw [← congrArg Globals.virt hst.within.globals] at h' ⊢
  exact hsub.trans (hst.owned.wrote_managed h' hl hg ht (st64_wrote hst.owned.ok.hhdm_lt hlt hal hw))

theorem vmmMapPagePml4_managed {pa flags : Nat} (h : Owned k root T) (hfit : PageTree.Fits T)
    (hhuge : ¬ PageTree.Huge T (v / 0x1000)) (hflags : flags < 2 ^ 12)
    (hs : (k.vmmMapPagePml4 (k.virt root) pa v flags).Supplied)
    (h' : Owned (k.vmmMapPagePml4 (k.virt root) pa v flags) root T') :
    PageTree.Managed T k ⊆ PageTree.Managed T' (k.vmmMapPagePml4 (k.virt root) pa v flags) := by
  rw [vmmMapPagePml4_eq] at hs h' ⊢
  exact descend_wrote_managed h hfit hhuge ((st64_later _ _ _).supplied hs)
    (pageEntry_lt k pa hflags) h'

theorem vmmUnmapPage_managed (h : Owned k root T) (hr : k.pml4 = k.virt root)
    (hfit : PageTree.Fits T) (hhuge : ¬ PageTree.Huge T (v / 0x1000))
    (hs : (k.vmmUnmapPage v).Supplied) (h' : Owned (k.vmmUnmapPage v) root T') :
    PageTree.Managed T k ⊆ PageTree.Managed T' (k.vmmUnmapPage v) := by
  rw [vmmUnmapPage_eq, hr] at hs h' ⊢
  exact descend_wrote_managed h hfit hhuge ((st64_later _ _ _).supplied hs) (by decide) h'

end Descent

end BambooOS
