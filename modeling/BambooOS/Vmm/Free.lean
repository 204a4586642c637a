import BambooOS.Vmm.Refine

/-!
# Vmm.Free

`pmm_free` once the tables are in use: it gives the frame back and maps its window page again, in
the current tree.

* `Window`: what that takes of the current tree, over a set of frames.
* `pmmFree_spec`: the frame is free, and the current tree is in order and keeps its window.
-/

namespace BambooOS

open ByteMem Radix Kernel

/-- The current tree `C` as the window of the frames `F`: each is mapped at its own higher-half
address or not at all, is not taken for another virtual address, and lies under no 1 GiB leaf. -/
structure Window (g : Globals) (C : PageTree) (F : Set Nat) : Prop where
  upper : 2 ^ 64 - 2 ^ 47 ≤ g.hhdm
  aligned : g.hhdm % 0x1000 = 0
  fits : PageTree.Fits C
  inside : ∀ f ∈ F, g.hhdm + f < 2 ^ 64
  virt : ∀ f ∈ F, ∀ a, PageTree.xlate C (g.virt f / 0x1000) = some a → a = f
  phys : ∀ f ∈ F, ∀ a, PageTree.xlate C (f / 0x1000) = some a → a = f
  no_huge : ∀ f ∈ F, ¬ PageTree.Huge C (g.virt f / 0x1000)

section Window

variable {g : Globals} {C C' : PageTree} {F : Set Nat} {f f' : Nat}

theorem Window.virt_eq (h : Window g C F) (hf : f ∈ F) : g.virt f = g.hhdm + f := by
  have := h.inside f hf
  rw [Globals.virt, Nat.add_comm f]
  exact Nat.mod_eq_of_lt this

theorem Window.virt_inj (h : Window g C F) (hf : f ∈ F) (hf' : f' ∈ F) (hal : f % 0x1000 = 0)
    (hal' : f' % 0x1000 = 0) (hb : SameBlock 0 (g.virt f / 0x1000) (g.virt f' / 0x1000)) :
    f' = f := by
  have hu := h.upper
  have ha := h.aligned
  have hi := h.inside f hf
  have hi' := h.inside f' hf'
  rw [sameBlock_zero, h.virt_eq hf, h.virt_eq hf'] at hb
  omega

theorem Window.virt_ne (h : Window g C F) (hf : f ∈ F) (hf' : f' ∈ F) :
    ¬ SameBlock 0 (g.virt f / 0x1000) (f' / 0x1000) := by
  have hu := h.upper
  have hi := h.inside f hf
  have hi' := h.inside f' hf'
  rw [sameBlock_zero, h.virt_eq hf]
  omega

/-- Mapping a frame where it belongs keeps the window. -/
theorem Window.update (h : Window g C F) (hal : ∀ x ∈ F, x % 0x1000 = 0) (hf : f ∈ F)
    (hup : Updated C (g.virt f / 0x1000) (some f) C') : Window g C' F where
  upper := h.upper
  aligned := h.aligned
  fits := hup.fits h.fits
  inside := h.inside
  virt := by
    intro f' hf' a ha
    rw [hup.xlate] at ha
    split at ha
    · rename_i hb
      cases ha
      exact (h.virt_inj hf hf' (hal f hf) (hal f' hf') hb).symm
    · exact h.virt f' hf' a ha
  phys := by
    intro f' hf' a ha
    rw [hup.xlate, if_neg (h.virt_ne hf hf')] at ha
    exact h.phys f' hf' a ha
  no_huge := fun f' hf' ⟨e, he⟩ => h.no_huge f' hf' ⟨e, hup.large _ 2 e (by omega) he⟩

end Window

section Free

variable {k : Kernel} {root f : Nat} {C : PageTree} {F : Set Nat}

theorem pmmSet_later (k : Kernel) (i : Nat) (b : Bool) :
    Later k (k.pmmSetUsablePageAllocatedByIndex i b) := by
  refine ⟨set_toGlobals k i b, ?_⟩
  simp only [pmmSetUsablePageAllocatedByIndex]
  split
  · exact List.suffix_refl _
  · exact List.suffix_cons _ _

theorem log_later (k : Kernel) (e : Event) : Later k (k.log e) := ⟨rfl, List.suffix_cons _ _⟩

theorem vmmMapPagePml4_later (k : Kernel) (p pa va flags : Nat) :
    Later k (k.vmmMapPagePml4 p pa va flags) := (descend_later _ _ _).trans (st64_later _ _ _)

theorem pmmFree_later (k : Kernel) (page : Nat) : Later k (k.pmmFree page) := by
  simp only [pmmFree]
  split
  · exact Later.refl k
  · split
    · have h := (pmmSet_later k (k.pmmGetIndexByAddress (k.pmmVirtToPhys page)) false).trans
        (log_later _ (.free (k.pmmVirtToPhys page)))
      split
      · exact h.trans (vmmMapPagePml4_later _ _ _ _ _)
      · exact h
    · exact Later.refl k

/-- `k'` is `k` after the frames `G` were given back, with the current tree `C'` now. -/
structure Freed (root : Nat) (G F : Set Nat) (k : Kernel) (C : PageTree) (k' : Kernel)
    (C' : PageTree) : Prop where
  owned : Owned k' root C'
  window : Window k'.toGlobals C' F
  within : Within (G ∪ PageTree.Territory C k) k k'
  frames : C'.frames fmt.base ⊆ G ∪ (C.frames fmt.base ∪ k.Free)
  free : k'.Free ⊆ G ∪ k.Free
  same : ∀ r, PageTree.xlate C' r = PageTree.xlate C r

theorem Freed.trans {G G' : Set Nat} {k' k'' : Kernel} {C' C'' : PageTree}
    (h : Freed root G F k C k' C') (h' : Freed root G' F k' C' k'' C'') :
    Freed root (G ∪ G') F k C k'' C'' where
  owned := h'.owned
  window := h'.window
  within := by
    refine (h.within.mono (Set.union_subset_union_left _ Set.subset_union_left)).trans
      (h'.within.mono ?_)
    rintro x (hx | (hx | hx) | hx)
    · exact .inl (.inr hx)
    · rcases h.frames hx with hx | hx
      · exact .inl (.inl hx)
      · exact .inr (.inl hx)
    · rcases h.free hx with hx | hx
      · exact .inl (.inl hx)
      · exact .inr (.inl (.inr hx))
    · rw [h.within.globals] at hx
      exact .inr (.inr hx)
  frames := by
    intro x hx
    rcases h'.frames hx with hx | hx | hx
    · exact .inl (.inr hx)
    · rcases h.frames hx with hx | hx
      · exact .inl (.inl hx)
      · exact .inr hx
    · rcases h.free hx with hx | hx
      · exact .inl (.inl hx)
      · exact .inr (.inr hx)
  free := by
    intro x hx
    rcases h'.free hx with hx | hx
    · exact .inl (.inr hx)
    · rcases h.free hx with hx | hx
      · exact .inl (.inl hx)
      · exact .inr hx
  same r := (h'.same r).trans (h.same r)

/-- The frame of `a` given back, its window page not yet mapped again. -/
def Kernel.released (k : Kernel) (a : Nat) : Kernel :=
  (k.pmmSetUsablePageAllocatedByIndex (k.pmmGetIndexByAddress a) false).log (.free a)

theorem pmmFree_eq {p a : Nat} (hk : k.VmmOk) (ha : k.vmmVirtToPhys p = a) (hne : a ≠ uint64Max)
    (hbit : pageOf a ∉ k.Bitmap) : k.pmmFree p =
      (k.released a).vmmMapPagePml4 k.pml4 a (k.virt a) ptEntryReadWrite := by
  have hphys : k.pmmVirtToPhys p = a := by rw [pmmVirtToPhys, if_pos hk.initialised, ha]
  have hge := (release_guard hk.toPmmOk a).mpr hbit
  have hg : (k.released a).toGlobals = k.toGlobals := by rw [released, log_toGlobals, set_toGlobals]
  have hpv : (k.released a).pmmPhysToVirt a = k.virt a := by
    rw [hg, Globals.pmmPhysToVirt, Globals.virt, hk.offset]
  rw [pmmFree, hphys]
  simp only [if_neg hne, if_pos hge]
  change (if (k.released a).vmmInitialised then
    (k.released a).vmmMapPage a ((k.released a).pmmPhysToVirt a) else k.released a) = _
  rw [hpv, vmmMapPage, hg, if_pos hk.initialised]

/-- An address without translation, or in the bitmap, is not given back. -/
theorem pmmFree_refused {p a : Nat} (hk : k.VmmOk) (ha : k.vmmVirtToPhys p = a)
    (h : a = uint64Max ∨ pageOf a ∈ k.Bitmap) : k.pmmFree p = k := by
  have hphys : k.pmmVirtToPhys p = a := by rw [pmmVirtToPhys, if_pos hk.initialised, ha]
  rw [pmmFree, hphys]
  simp only
  split
  · rfl
  · rename_i hne
    exact if_neg fun hge => (release_guard hk.toPmmOk a).mp hge (h.resolve_left hne)

/-- Clearing the sentinel index changes nothing. -/
theorem released_unusable {a : Nat} (hk : k.PmmOk) (ha : ¬ Usable k.memmapEntries a) :
    k.released a = k.log (.free a) := by
  have hle := hk.usable_le
  rw [released, hk.index_none ha, set_of_le hk]
  simp only [bitmapPage, uint64Max]
  omega

theorem Owned.log (h : Owned k root C) (ev : Event) : Owned (k.log ev) root C where
  ok := h.ok
  held := bitmapHeld_congr h.ok.toPmmOk rfl (fun _ _ => rfl) h.held
  stored := ⟨h.stored.table, h.stored.rep, h.stored.sep, h.stored.aligned, h.stored.lt⟩
  free := by
    have hf : (k.log ev).Free = k.Free := free_congr h.ok.toPmmOk rfl fun _ _ => rfl
    rw [hf]
    exact h.free
  bitmap := h.bitmap

/-- Freeing unusable memory maps its higher-half page, and does nothing else. -/
theorem pmmFree_unusable {v a : Nat} (hk : k.VmmOk) (ha : k.vmmVirtToPhys v = a) (hne : a ≠ uint64Max)
    (hun : ¬ Usable k.memmapEntries a) : k.pmmFree v =
      (k.log (.free a)).vmmMapPagePml4 k.pml4 a (k.virt a) ptEntryReadWrite := by
  have hle := hk.usable_le
  have hb := hk.bitmap_le
  have hbit : pageOf a ∉ k.Bitmap := by
    rw [← release_guard hk.toPmmOk, hk.index_none hun, uint64Max]
    omega
  rw [pmmFree_eq hk ha hne hbit, released_unusable hk.toPmmOk hun]

theorem released_spec {a : Nat} (h : Owned k root C) (hC : pageOf a ∉ C.frames fmt.base)
    (hbit : pageOf a ∉ k.Bitmap) : Owned (k.released a) root C ∧
      Within ({a} ∪ k.Bitmap) k (k.released a) ∧
      ∀ f, f ∈ (k.released a).Free ↔ f ∈ k.Free ∨ (f = pageOf a ∧ Usable k.memmapEntries a) := by
  have hk := h.ok.toPmmOk
  obtain ⟨hg, hb, hkept, htr, hfree⟩ := release_spec hk h.held a hbit
  rw [released]
  generalize k.pmmSetUsablePageAllocatedByIndex (k.pmmGetIndexByAddress a) false = k₁
    at hg hb hkept htr hfree ⊢
  have hk₁ : k₁.PmmOk := by rw [hg]; exact hk
  have hfree₂ : (k₁.log (.free a)).Free = k₁.Free := free_congr hk₁ rfl fun _ _ => rfl
  have hkept₂ : MemKept k.Bitmap k (k₁.log (.free a)) := hkept
  have hg₂ : (k₁.log (.free a)).toGlobals = k.toGlobals := hg
  refine ⟨⟨by rw [hg₂]; exact h.ok, bitmapHeld_congr hk₁ rfl (fun _ _ => rfl) hb,
    h.stored.congr hkept₂ h.bitmap, ?_, by rw [hg₂]; exact h.bitmap⟩,
    ⟨hg₂, hkept₂.mono Set.subset_union_right, ?_⟩, by rw [hfree₂]; exact hfree⟩
  · rw [hfree₂, Set.disjoint_left]
    intro x hxC hxf
    rcases (hfree x).mp hxf with hxf | ⟨rfl, _⟩
    · exact Set.disjoint_left.mp h.free hxC hxf
    · exact hC hxC
  · rcases htr with ht | ⟨x, hxb, ht⟩
    · refine ⟨[.free a], by rw [log_trace, ht]; rfl, ?_⟩
      intro ev hev
      simp only [List.mem_singleton] at hev
      subst hev
      exact .inl rfl
    · refine ⟨[.free a, .store x 1], by rw [log_trace, ht]; rfl, ?_⟩
      intro ev hev
      simp only [List.mem_cons, List.not_mem_nil, or_false] at hev
      rcases hev with rfl | rfl
      · exact .inl rfl
      · exact ⟨.inr hxb, by omega⟩

/-- Freeing a frame that is neither the current tree's nor the bitmap's. -/
theorem pmmFree_spec (h : Owned k root C) (hr : k.pml4 = k.virt root)
    (hw : Window k.toGlobals C F) (hal : ∀ x ∈ F, x % 0x1000 = 0) (hf : f ∈ F) (hlt : f < 2 ^ 52)
    (hC : f ∉ C.frames fmt.base) (hbit : f ∉ k.Bitmap) (hs : (k.pmmFree (k.virt f)).Supplied) :
    ∃ C', Freed root {f} F k C (k.pmmFree (k.virt f)) C' := by
  have hfal := hal f hf
  have hvirt := hw.virt_eq hf
  have hha := hw.aligned
  have hkeep : Freed root {f} F k C k C :=
    ⟨h, hw, Within.refl _ _, fun x hx => .inr (.inl hx), Set.subset_union_right, fun _ => rfl⟩
  have hphys : k.vmmVirtToPhys (k.virt f) =
      (PageTree.xlate C (k.virt f / 0x1000)).getD uint64Max :=
    vmmVirtToPhys_aligned h.ok h.stored hr (by omega)
  rcases hx : PageTree.xlate C (k.virt f / 0x1000) with _ | a
  · -- an unmapped window page is not given back at all
    have : k.pmmFree (k.virt f) = k := by
      rw [pmmFree, pmmVirtToPhys, if_pos h.ok.initialised, hphys, hx]
      rfl
    rw [this]
    exact ⟨C, hkeep⟩
  · obtain rfl := hw.virt f hf a hx
    rw [hx, Option.getD_some] at hphys
    have hpage : pageOf a = a := pageOf_self hfal
    rw [pmmFree_eq h.ok hphys (by simp only [uint64Max]; omega) (by rwa [hpage])] at hs ⊢
    obtain ⟨hO₂, hwin, hfree⟩ := released_spec h (by rwa [hpage]) (by rwa [hpage])
    rw [hpage] at hfree
    have hg₂ := hwin.globals
    generalize k.released a = k₂ at hs hO₂ hwin hfree hg₂ ⊢
    have hfsub : k₂.Free ⊆ insert a k.Free := by
      intro x hx
      rcases (hfree x).mp hx with h' | ⟨h', _⟩
      · exact .inr h'
      · exact .inl h'
    have hwin₂ : Within ({a} ∪ PageTree.Territory C k) k k₂ := by
      refine hwin.mono ?_
      rintro x (hx | hx)
      · exact .inl hx
      · exact .inr (.inr hx)
    have hr₂ : k₂.pml4 = k₂.virt root := by rw [hg₂]; exact hr
    have hconv : k₂.convertPhys a = a := by
      have hwalk := vmmVirtToPhys_aligned hO₂.ok hO₂.stored hr₂ hfal
      rw [convertPhys, hwalk]
      rcases hxa : PageTree.xlate C (a / 0x1000) with _ | b
      · simp
      · obtain rfl := hw.phys a hf b hxa
        simp
    rw [show k.pml4 = k₂.virt root by rw [← hr₂, hg₂]] at hs ⊢
    obtain ⟨C', hst, hup⟩ := vmmMapPagePml4_spec hO₂ hw.fits (hw.no_huge a hf) (by decide) hs
    rw [hconv, getAddress_of_aligned hfal hlt] at hup
    refine ⟨C', hst.owned, ?_, hwin₂.trans (hst.within.mono ?_), ?_, hst.free.trans hfsub, ?_⟩
    · rw [hst.within.globals, hg₂]
      exact hw.update hal hf hup
    · rintro x ((hx | hx) | hx)
      · exact .inr (.inl (.inl hx))
      · rcases hfsub hx with rfl | hx
        · exact .inl rfl
        · exact .inr (.inl (.inr hx))
      · rw [hg₂] at hx
        exact .inr (.inr hx)
    · intro x hx
      rcases hst.frames hx with hx | hx
      · exact .inr (.inl hx)
      · rcases hfsub hx with rfl | hx
        · exact .inl rfl
        · exact .inr (.inr hx)
    · -- the page was mapped to this frame before
      intro r
      rw [hup.xlate]
      split
      · rename_i hb
        rw [← xlate_mod C r, sameBlock_zero.mp hb, xlate_mod, hx]
      · rfl

end Free

end BambooOS
