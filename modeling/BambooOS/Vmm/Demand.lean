import BambooOS.Vmm.Bulk
import BambooOS.Vmm.Stock

/-!
# Vmm.Demand

What `vmm_map_pages_pml4` takes from the allocator.

* `mapFrames`: a bound on the frames, leaf by leaf. A leaf costs the preparation of the next page,
  a large one also the freeing of its tables, which maps their window pages again.
* `mapLeaf_stocked`, `prepare_stocked`: the two halves of an iteration stay within it.
* `vmmMapPagesPml4_stocked`: with that many frames in stock no allocation of the call fails.
-/

namespace BambooOS

open ByteMem Radix Kernel

/-- The frames the loop takes from the page `q₀ + i` on, at most. -/
def mapFrames (q₀ n : Nat) : Nat → Nat → Nat
  | 0, _ => 0
  | fuel + 1, i =>
    5 * blockLevel q₀ n i +
      if i + 512 ^ blockLevel q₀ n i < n then
        4 + mapFrames q₀ n fuel (i + 512 ^ blockLevel q₀ n i)
      else 0

/-! ## Single entries -/

section Entries

variable {k k' : Kernel} {root f n q v m : Nat} {i : Fin 512} {T : PageTree}

theorem Kernel.Grown.stocked {w g : Nat} (h : Grown k f i w g k') (hs : k'.Supplied)
    (hst : k.Stocked (m + 1)) : k'.Stocked m := hst.take hs h.free

theorem Kernel.Wrote.stocked {w : Nat} (hk : k.PmmOk) (h : Wrote k f i w k') (hb : f ∉ k.Bitmap)
    (hs : k'.Supplied) (hst : k.Stocked m) : k'.Stocked m := hst.of_free hs (h.free hk hb)

/-- Making an entry present takes one frame, or none. -/
theorem ensureEntry_stocked (h : Owned k root T) (hn : n < 4)
    (hl : T.loc fmt.base (path q) n 4 = some (f, i)) (hst : k.Stocked (m + 1)) :
    (k.ensureEntry (k.virt f + 8 * i.val)).Stocked m := by
  obtain ⟨hal, hlt, hfree, hbit⟩ := h.frame hl
  have hs := hst.ensureEntry h.ok.toPmmOk (k.virt f + 8 * i.val)
  have hpresent : Present (k.rd f i) → (k.ensureEntry (k.virt f + 8 * i.val)).Stocked m := by
    intro hp
    rw [ensureEntry_present h.ok hlt hp]
    exact hst.mono (by omega)
  rcases h.stored.slot_cases hn hl with ⟨_, hv⟩ | ⟨e, _, hv, hp, _⟩ | ⟨e, _, _, hv, hp, _⟩
  · obtain ⟨g, hgr, _⟩ := ensureEntry_grown h.ok h.held hlt hal hfree hbit i hv hs
    exact hgr.stocked hs hst
  · exact hpresent (hv ▸ hp)
  · exact hpresent (hv ▸ hp)

theorem splitEntry_stocked (h : Owned k root T) (hl : T.loc fmt.base (path q) n 4 = some (f, i))
    (size : Nat) (hst : k.Stocked (m + 1)) :
    (k.splitEntry (k.virt f + 8 * i.val) size).Stocked m := by
  obtain ⟨hal, hlt, hfree, hbit⟩ := h.frame hl
  have hs := hst.splitEntry h.ok.toPmmOk (k.virt f + 8 * i.val) size
  by_cases hlar : Larger (k.rd f i)
  · obtain ⟨g, hgr, _⟩ := splitEntry_grown h.ok h.held hlt hal hfree hbit i hlar hs
    exact hgr.stocked hs hst
  · rw [splitEntry_small h.ok hlt size hlar]
    exact hst.mono (by omega)

theorem ensureEntry_owned (h : Owned k root T) (hn : n < 3)
    (hl : T.loc fmt.base (path q) n 4 = some (f, i))
    (hs : (k.ensureEntry (k.virt f + 8 * i.val)).Supplied) :
    ∃ T', Owned (k.ensureEntry (k.virt f + 8 * i.val)) root T' ∧
      T'.loc fmt.base (path q) n 4 = some (f, i) ∧
      (k.ensureEntry (k.virt f + 8 * i.val)).virt = k.virt := by
  by_cases hleaf : ∃ e, T.get (path q) (n + 1) 4 = some (.leaf e)
  · obtain ⟨e, hg⟩ := hleaf
    have hp : Present (k.rd f i) := by
      rcases h.stored.slot_cases (by omega) hl with ⟨hg', _⟩ | ⟨e', _, hv, hp, _⟩ |
        ⟨e', _, _, hv, hp, _⟩
      · rw [hg] at hg'; cases hg'
      · exact hv ▸ hp
      · exact hv ▸ hp
    rw [ensureEntry_present h.ok (h.frame hl).2.1 hp]
    exact ⟨T, h, hl, rfl⟩
  · obtain ⟨T', f', hst, _, hlocs, _⟩ := enter_spec h hn hl (fun e hg => hleaf ⟨e, hg⟩) hs
    exact ⟨T', hst.owned, (hlocs n (Nat.le_refl n)).trans hl, congrArg Globals.virt hst.within.globals⟩

end Entries

/-! ## The descent -/

section Descent

variable {k : Kernel} {root f q v m : Nat} {T C : PageTree} {F : Set Nat}

theorem fromPd_stocked (h : Owned k root T)
    (hl : T.loc fmt.base (path (v / 0x1000)) 2 4 = some (f, path (v / 0x1000) 1))
    (hst : k.Stocked (m + 2)) : (k.fromPd (k.virt f) v).2.Stocked m := by
  simp only [fromPd, pdIndex_eq, splitPdEntry]
  have hst₁ : (k.ensureEntry (k.virt f + 8 * (path (v / 0x1000) 1).val)).Stocked (m + 1) :=
    ensureEntry_stocked h (by omega) hl hst
  obtain ⟨T₁, hO₁, hl₁, hvirt⟩ := ensureEntry_owned h (by omega) hl hst₁.supplied
  generalize k.ensureEntry (k.virt f + 8 * (path (v / 0x1000) 1).val) = k₁ at hst₁ hO₁ hvirt ⊢
  rw [← hvirt]
  exact splitEntry_stocked hO₁ hl₁ _ hst₁

theorem fromPdpt_stocked (h : Owned k root T) (hhuge : ¬ PageTree.Huge T (v / 0x1000))
    (hl : T.loc fmt.base (path (v / 0x1000)) 1 4 = some (f, path (v / 0x1000) 2))
    (hst : k.Stocked (m + 4)) : (k.fromPdpt (k.virt f) v).2.Stocked m := by
  simp only [fromPdpt, pdptIndex_eq, splitPdptEntry]
  have hno : ∀ e, T.get (path (v / 0x1000)) 2 4 ≠ some (.leaf e) := by
    intro e hg
    exact hhuge ⟨e, by rw [Tree.find_of_get (by omega) hg fun _ _ _ => rfl]; rfl⟩
  have hst₁ : (k.ensureEntry (k.virt f + 8 * (path (v / 0x1000) 2).val)).Stocked (m + 3) :=
    ensureEntry_stocked h (by omega) hl hst
  obtain ⟨T₁, hO₁, hl₁, hvirt₁⟩ := ensureEntry_owned h (by omega) hl hst₁.supplied
  have hst₂ : ((k.ensureEntry (k.virt f + 8 * (path (v / 0x1000) 2).val)).splitEntry
      (k.virt f + 8 * (path (v / 0x1000) 2).val) (0x1000 * 512)).Stocked (m + 2) := by
    generalize k.ensureEntry (k.virt f + 8 * (path (v / 0x1000) 2).val) = k₁ at hst₁ hO₁ hvirt₁ ⊢
    rw [← hvirt₁]
    exact splitEntry_stocked hO₁ hl₁ _ hst₁
  obtain ⟨T₂, f₂, hstep, _, hl₂, hto⟩ :=
    enterSplit_spec (0x1000 * 512) h (by omega) (by omega) hl hno hst₂.supplied
  generalize (k.ensureEntry (k.virt f + 8 * (path (v / 0x1000) 2).val)).splitEntry
    (k.virt f + 8 * (path (v / 0x1000) 2).val) (0x1000 * 512) = k₂ at hst₂ hstep hto ⊢
  rw [hto, ← congrArg Globals.virt hstep.within.globals]
  exact fromPd_stocked hstep.owned hl₂ hst₂

theorem descend_stocked_le (h : Owned k root T) (hhuge : ¬ PageTree.Huge T (v / 0x1000))
    (hst : k.Stocked (m + 5)) : (k.descend (k.virt root) v).2.Stocked m := by
  rw [descend_eq, pml4Index_eq]
  have hl := h.stored.loc_zero (v / 0x1000)
  have hst₁ : (k.ensureEntry (k.virt root + 8 * (path (v / 0x1000) 3).val)).Stocked (m + 4) :=
    ensureEntry_stocked h (by omega) hl hst
  obtain ⟨T₁, f₁, hstep, hsp, _, hl₁, hto, _⟩ :=
    enter_spec h (by omega) hl h.stored.root_table hst₁.supplied
  have hno : ¬ PageTree.Huge T₁ (v / 0x1000) :=
    fun ⟨e, he⟩ => hhuge ⟨e, hsp.large _ 2 e (by omega) he⟩
  rw [hto]
  generalize k.ensureEntry (k.virt root + 8 * (path (v / 0x1000) 3).val) = k₁ at hst₁ hstep ⊢
  rw [← congrArg Globals.virt hstep.within.globals]
  exact fromPdpt_stocked hstep.owned hno hl₁ hst₁

theorem descend_store_stocked {w : Nat} (h : Owned k root T) (hfit : PageTree.Fits T)
    (hhuge : ¬ PageTree.Huge T (v / 0x1000)) (hw : w < 2 ^ 64) (hst : k.Stocked (m + 5)) :
    ((k.descend (k.virt root) v).2.st64 (k.descend (k.virt root) v).1 w).Stocked m := by
  have hst₁ := descend_stocked_le h hhuge hst
  obtain ⟨T', g, hstep, _, hl, hptr⟩ := descend_spec h hfit hhuge hst₁.supplied
  rw [hptr]
  generalize (k.descend (k.virt root) v).2 = k₂ at hst₁ hstep ⊢
  rw [← congrArg Globals.virt hstep.within.globals]
  obtain ⟨hgal, hglt, _, hgbit⟩ := hstep.owned.frame hl
  exact (st64_wrote hstep.owned.ok.hhdm_lt hglt hgal hw).stocked hstep.owned.ok.toPmmOk hgbit
    (hst₁.supplied.st64 _ _) hst₁

theorem vmmMapPagePml4_stocked {pa flags : Nat} (h : Owned k root T) (hfit : PageTree.Fits T)
    (hhuge : ¬ PageTree.Huge T (v / 0x1000)) (hflags : flags < 2 ^ 12) (hst : k.Stocked (m + 5)) :
    (k.vmmMapPagePml4 (k.virt root) pa v flags).Stocked m :=
  descend_store_stocked h hfit hhuge (pageEntry_lt k pa hflags) hst

theorem released_supplied {a : Nat} (hs : k.Supplied) : (k.released a).Supplied := by
  have hset : (k.pmmSetUsablePageAllocatedByIndex (k.pmmGetIndexByAddress a) false).Supplied := by
    simp only [pmmSetUsablePageAllocatedByIndex]
    split
    · exact hs
    · simpa [Supplied, st8] using hs
  simpa [Supplied, released] using hset

/-- Giving back a frame of the window takes what mapping its window page takes. -/
theorem pmmFree_stocked (h : Owned k root C) (hr : k.pml4 = k.virt root)
    (hw : Window k.toGlobals C F) (hal : ∀ x ∈ F, x % 0x1000 = 0) (hf : f ∈ F) (h0 : f ≠ 0)
    (hlt : f < 2 ^ 52) (hC : f ∉ C.frames fmt.base) (hbit : f ∉ k.Bitmap)
    (hst : k.Stocked (m + 5)) : (k.pmmFree (k.virt f)).Stocked m := by
  have hfal := hal f hf
  have hha := hw.aligned
  have hpage : pageOf f = f := pageOf_self hfal
  have hval : k.virt f % 0x1000 = 0 := by
    rw [hw.virt_eq hf]
    omega
  have hphys := vmmVirtToPhys_aligned h.ok h.stored hr hval
  cases hx : PageTree.xlate C (k.virt f / 0x1000) with
  | none =>
    rw [hx] at hphys
    rw [pmmFree_refused h.ok hphys (.inl rfl)]
    exact hst.mono (by omega)
  | some a =>
    obtain rfl := hw.virt f hf a hx
    rw [hx, Option.getD_some] at hphys
    rw [pmmFree_eq h.ok hphys (by simp only [uint64Max]; omega) (by rwa [hpage])]
    obtain ⟨hO, hwin, hfree⟩ := released_spec h (by rwa [hpage]) (by rwa [hpage])
    have hstock : (k.released a).Stocked (m + 5) := by
      obtain ⟨hs, hz, t, hcard, hsub⟩ := hst
      refine ⟨released_supplied hs, ?_, t, hcard, fun x hx => (hfree x).mpr (.inl (hsub hx))⟩
      intro h0'
      rcases (hfree 0).mp h0' with h' | ⟨h', _⟩
      · exact hz h'
      · exact h0 (h'.trans hpage).symm
    have hvirt : k.virt = (k.released a).virt := (congrArg Globals.virt hwin.globals).symm
    have hno : ¬ PageTree.Huge C ((k.released a).virt a / 0x1000) := hvirt ▸ hw.no_huge a hf
    rw [hr, hvirt]
    exact vmmMapPagePml4_stocked hO hw.fits hno (by decide) hstock

end Descent

/-! ## The range -/

section Range

variable {k : Kernel} {root croot q m n : Nat} {W F : Set Nat} {P : Prop} {T C : PageTree}
  {c : MapCursor}

/-- Preparing the entries of a page, from whichever depth, takes four frames at most. -/
theorem ptStep_stocked (h : Owned k root T) (hi : Indices c q) (hd : Down k.toGlobals T c q 3)
    (hst : k.Stocked (m + 1)) : (ptStep c k).2.Stocked m := by
  simp only [ptStep, hi.ptI]
  obtain ⟨f, hl, hp⟩ := hd.2.2.2.2.slot
  rw [show c.pt + 8 * (path q 0).val = k.virt f + 8 * (path q (3 - 3)).val from hp]
  exact ensureEntry_stocked h (by omega) hl hst

theorem pdStep_stocked (h : Owned k root T) (hi : Indices c q) (hlarge : ¬ PageTree.Large T q)
    (hd : Down k.toGlobals T c q 2) (p : Nat) (hst : k.Stocked (m + 2)) :
    (prepare p 2 c k).2.Stocked m := by
  change (ptStep (pdStep c k).1 (pdStep c k).2).2.Stocked m
  have hst₁ : (pdStep c k).2.Stocked (m + 1) := by
    simp only [pdStep, hi.pdI]
    obtain ⟨f, hl, hp⟩ := hd.2.2.slot
    rw [show c.pd + 8 * (path q 1).val = k.virt f + 8 * (path q (3 - 2)).val from hp]
    exact ensureEntry_stocked h (by omega) hl hst
  obtain ⟨T₁, hstep, _, _, _, hd₁⟩ := pdStep_spec h hi hlarge hd hst₁.supplied
  have hi₁ : Indices (pdStep c k).1 q := ⟨hi.pml4I, hi.pdptI, hi.pdI, hi.ptI⟩
  exact ptStep_stocked hstep.owned hi₁ hd₁ hst₁

theorem pdptStep_stocked (h : Owned k root T) (hi : Indices c q) (hlarge : ¬ PageTree.Large T q)
    (hd : Down k.toGlobals T c q 1) (p : Nat) (hst : k.Stocked (m + 3)) :
    (prepare p 1 c k).2.Stocked m := by
  change (prepare p 2 (pdptStep c k).1 (pdptStep c k).2).2.Stocked m
  have hst₁ : (pdptStep c k).2.Stocked (m + 2) := by
    simp only [pdptStep, hi.pdptI]
    obtain ⟨f, hl, hp⟩ := TableAt.slot hd
    rw [show c.pdpt + 8 * (path q 2).val = k.virt f + 8 * (path q (3 - 1)).val from hp]
    exact ensureEntry_stocked h (by omega) hl hst
  obtain ⟨T₁, hstep, hsp, _, _, hd₁⟩ := pdptStep_spec h hi hlarge hd hst₁.supplied
  have hi₁ : Indices (pdptStep c k).1 q := ⟨hi.pml4I, hi.pdptI, hi.pdI, hi.ptI⟩
  exact pdStep_stocked hstep.owned hi₁ (not_large_split hlarge hsp.toSplit) hd₁ p hst₁

theorem pml4Step_stocked (h : Owned k root T) (hi : Indices c q) (hlarge : ¬ PageTree.Large T q)
    (hst : k.Stocked (m + 4)) : (prepare (k.virt root) 0 c k).2.Stocked m := by
  change (prepare (k.virt root) 1 (pml4Step (k.virt root) c k).1
    (pml4Step (k.virt root) c k).2).2.Stocked m
  have hst₁ : (pml4Step (k.virt root) c k).2.Stocked (m + 3) := by
    simp only [pml4Step, hi.pml4I]
    exact ensureEntry_stocked h (by omega) (h.stored.loc_zero q) hst
  obtain ⟨T₁, hstep, hsp, _, _, hd₁⟩ := pml4Step_spec h hi hlarge hst₁.supplied
  have hi₁ : Indices (pml4Step (k.virt root) c k).1 q := ⟨hi.pml4I, hi.pdptI, hi.pdI, hi.ptI⟩
  exact pdptStep_stocked hstep.owned hi₁ (not_large_split hlarge hsp.toSplit) hd₁ _ hst₁

theorem prepare_stocked {d : Nat} (hd3 : d ≤ 3) (h : Owned k root T) (hi : Indices c q)
    (hlarge : ¬ PageTree.Large T q) (hd : Down k.toGlobals T c q d) (hst : k.Stocked (m + 4)) :
    (prepare (k.virt root) d c k).2.Stocked m := by
  rcases (by omega : d = 0 ∨ d = 1 ∨ d = 2 ∨ d = 3) with rfl | rfl | rfl | rfl
  · exact pml4Step_stocked h hi hlarge hst
  · exact pdptStep_stocked h hi hlarge hd _ (hst.mono (by omega))
  · exact pdStep_stocked h hi hlarge hd _ (hst.mono (by omega))
  · exact ptStep_stocked h hi hd (hst.mono (by omega))

theorem setLarge_stocked {k₂ : Kernel} {f : Nat} {i : Fin 512} (hk : k₂.PmmOk) (hlt : f < 2 ^ 52)
    (hal : f % 0x1000 = 0) (hbit : f ∉ k₂.Bitmap) (phys : Nat) (hst : k₂.Stocked m) :
    (k₂.setLarge (k₂.virt f + 8 * i.val) phys).Stocked m :=
  (setLarge_wrote hk.hhdm_lt hlt hal phys).stocked hk hbit ((hst.supplied.orEntry _ _).st64 _ _) hst

/-- The first of two tables given back is not handed out as the second. -/
theorem Ready.table_apart {f₂ f₃ : Nat} {i₂ i₃ : Fin 512} {k₁ : Kernel} {C₁ : PageTree}
    (h : Ready root croot W F P k T C) (hl₂ : T.loc fmt.base (path q) 2 4 = some (f₂, i₂))
    (hl₃ : T.loc fmt.base (path q) 3 4 = some (f₃, i₃)) (hfr : Freed croot {f₃} W k C k₁ C₁) :
    f₂ ∉ C₁.frames fmt.base := by
  obtain ⟨e₂, sub₂, hg₂, rfl, _, hsub⟩ := Tree.exists_get_of_loc hl₂
  obtain ⟨e₃, sub₃, hg₃, rfl, _, _⟩ := Tree.exists_get_of_loc hl₃
  have hm := Tree.loc_mem hl₂
  rw [hg₃, Option.some.injEq] at hsub
  have hne : fmt.base e₂ ≠ fmt.base e₃ := by
    intro heq
    apply (h.tree.stored.sep.disjoint_get hg₂).1.1 i₂
    rw [← hsub, heq]
    simp [Tree.frames]
  intro hx
  rcases hfr.frames hx with hx | hx | hx
  · exact hne hx
  · exact Set.disjoint_left.mp h.apart hm hx
  · exact (h.tree.frame hl₂).2.2.1 hx

/-- Setting a leaf takes what the freeing of its tables takes. -/
theorem mapLeaf_stocked (h : Ready root croot W F P k T C) (hd : Down k.toGlobals T c q 3)
    (hsl : SlotAt k.toGlobals T q 3 c.ptEntry) (hP : leafLevel n c ≠ 0 → P)
    (hW : T.replacedAt q (leafLevel n c) ⊆ W) (h0 : 0 ∉ F)
    (hst : k.Stocked (m + 5 * leafLevel n c)) : (mapLeaf n c k).2.Stocked m := by
  have hk := h.tree.ok.toPmmOk
  have hne : ∀ {x}, x ∈ W → x ≠ 0 := fun hx hz => h0 (hz ▸ h.window_sub hx)
  have hfree : ∀ {f j : Nat} {i : Fin 512} {m : Nat}, P → T.loc fmt.base (path q) j 4 = some (f, i) →
      f ∈ W → k.Stocked (m + 5) → (k.pmmFree (k.virt f)).Stocked m := by
    intro f j i m hp hl hf hst
    obtain ⟨_, hlt, _, hbit⟩ := h.tree.frame hl
    exact pmmFree_stocked h.current h.pml4 (h.window hp) h.window_aligned hf (hne hf) hlt
      (Set.disjoint_left.mp h.apart (Tree.loc_mem hl)) hbit hst
  obtain ⟨_, ⟨f₁, hl₁, hp₁⟩, ⟨f₂, hl₂, hp₂⟩, ⟨f₂', hl₂', hp₂'⟩, ⟨f₃, hl₃, hp₃⟩⟩ := hd
  rw [leafLevel] at hst hP hW
  rw [mapLeaf]
  split
  · -- a 1 GiB leaf gives back a PT and a PD
    rename_i hc
    rw [if_pos hc] at hst hP hW
    change (((k.pmmFree c.pt).pmmFree c.pd).setLarge c.pdptEntry c.currentPhys).Stocked m
    have hp := hP (by omega)
    obtain ⟨hal, hlt, _, hbit⟩ := h.tree.frame hl₁
    obtain ⟨_, hlt₂, _, hbit₂⟩ := h.tree.frame hl₂
    have hW₃ := hW ⟨3, _, by omega, Nat.le_refl 3, hl₃⟩
    have hW₂ := hW ⟨2, _, by omega, by omega, hl₂⟩
    have hst₁ : (k.pmmFree (k.virt f₃)).Stocked (m + 5) := hfree hp hl₃ hW₃ hst
    obtain ⟨_, C₁, hfr₁⟩ := h.free_table hp hl₃ hW₃ hst₁.supplied
    have hout := h.table_apart hl₂ hl₃ hfr₁
    rw [hp₃, hp₂, hp₁]
    generalize k.pmmFree (k.virt f₃) = k₁ at hst₁ hfr₁ ⊢
    have hg := hfr₁.within.globals
    rw [← congrArg Globals.virt hg]
    have hst₂ : (k₁.pmmFree (k₁.virt f₂)).Stocked m :=
      pmmFree_stocked hfr₁.owned (by rw [hg]; exact h.pml4) hfr₁.window h.window_aligned hW₂
        (hne hW₂) hlt₂ hout (by rw [hg]; exact hbit₂) hst₁
    have hg₂ := (pmmFree_later k₁ (k₁.virt f₂)).1
    generalize k₁.pmmFree (k₁.virt f₂) = k₂ at hst₂ hg₂ ⊢
    rw [← congrArg Globals.virt hg₂]
    rw [hg] at hg₂
    exact setLarge_stocked (by rw [hg₂]; exact hk) hlt hal (by rw [hg₂]; exact hbit) _ hst₂
  · rename_i hc
    rw [if_neg hc] at hst hP hW
    split
    · -- a 2 MiB leaf gives back a PT
      rename_i hc'
      rw [if_pos hc'] at hst hP hW
      change ((k.pmmFree c.pt).setLarge c.pdEntry c.currentPhys).Stocked m
      obtain ⟨hal, hlt, _, hbit⟩ := h.tree.frame hl₂'
      have hst₁ : (k.pmmFree (k.virt f₃)).Stocked m :=
        hfree (hP (by omega)) hl₃ (hW ⟨3, _, by omega, Nat.le_refl 3, hl₃⟩) hst
      have hg := (pmmFree_later k (k.virt f₃)).1
      rw [hp₃, hp₂']
      generalize k.pmmFree (k.virt f₃) = k₁ at hst₁ hg ⊢
      rw [← congrArg Globals.virt hg]
      exact setLarge_stocked (by rw [hg]; exact hk) hlt hal (by rw [hg]; exact hbit) _ hst₁
    · rename_i hc'
      rw [if_neg hc', Nat.mul_zero, Nat.add_zero] at hst
      obtain ⟨f, hl, hp⟩ := hsl
      obtain ⟨hal, hlt, _, hbit⟩ := h.tree.frame hl
      rw [hp]
      exact (st64_wrote hk.hhdm_lt hlt hal (setAddress_lt _ _)).stocked hk hbit
        (hst.supplied.st64 _ _) hst

theorem mapPagesLoop_stocked {q₀ pa : Nat} {k₀ : Kernel} {T₀ C₀ : PageTree}
    (hP : Leaps q₀ n → P) (hn : q₀ + n ≤ 2 ^ 36) (hpa : pa + n * 0x1000 ≤ 2 ^ 52) (h0 : 0 ∉ F)
    (fuel : Nat) (h : Head root croot W F P k₀ T₀ C₀ q₀ n pa k T C c)
    (hst : k.Stocked (m + mapFrames q₀ n fuel c.i)) :
    (mapPagesLoop (k₀.virt root) n fuel c k).Stocked m := by
  induction fuel generalizing k T C c with
  | zero => exact hst
  | succ fuel ih =>
    rw [mapFrames] at hst
    have hlevel := leafLevel_block (n := n) h.indices
    have hback := h.back
    rw [← hlevel] at hback
    have hleaf := mapLeaf_stocked (n := n) h.ready h.down h.slot (h.large hP) hback h0
      (m := m + if c.i + 512 ^ blockLevel q₀ n c.i < n then
        4 + mapFrames q₀ n fuel (c.i + 512 ^ blockLevel q₀ n c.i) else 0)
      (hst.mono (by rw [hlevel]; omega))
    obtain ⟨T₁, C₁, hin, hb, hdown⟩ := h.leaf hP hn hpa hleaf.supplied
    generalize hk₁ : (mapLeaf n c k).2 = k₁ at hleaf hb hdown
    by_cases hlast : c.i + 512 ^ blockLevel q₀ n c.i = n
    · rw [h.unroll_last hk₁ hlast]
      exact hleaf.mono (by omega)
    · have hlt : c.i + 512 ^ blockLevel q₀ n c.i < n := by omega
      obtain ⟨d, c₂, hnext, hmoved, hnl, hhead⟩ := h.next (k₀.virt root) hn hpa hlt hb hdown
      rw [h.unroll_next hk₁ hlt (hnext k₁)]
      rw [if_pos hlt] at hleaf
      have hprep : (prepare (k₁.virt root) d c₂ k₁).2.Stocked
          (m + mapFrames q₀ n fuel (c.i + 512 ^ blockLevel q₀ n c.i)) :=
        prepare_stocked hmoved.depth hb.ready.tree hmoved.indices hnl hmoved.down
          (hleaf.mono (by omega))
      obtain ⟨hidx, T₂, hT₂⟩ := hhead hprep.supplied
      rw [show k₁.virt root = k₀.virt root by rw [hb.move.within.globals]] at hprep hidx hT₂
      refine ih hT₂ ?_
      simp only [hidx]
      exact hprep

/-- With `4 + mapFrames` frames in stock no allocation of the call fails, and what is more stays in
stock. -/
theorem vmmMapPagesPml4_stocked {pa va pa' : Nat} (hP : Leaps (vpn va) n → P)
    (h : Ready root croot W F P k T C) (hW : k.returnable T (vpn va) n ⊆ W) (h0 : 0 ∉ F)
    (hrange : vpn va + n ≤ 2 ^ 36) (hpa : pa' + n * 0x1000 ≤ 2 ^ 52)
    (hl : ∀ j, j < n → Visits (vpn va) n (vpn va + j) → ¬ PageTree.Large T (vpn va + j))
    (hl0 : ¬ PageTree.Large T (vpn va)) (hc : k.convertPhys pa = pa')
    (hst : k.Stocked (m + (4 + mapFrames (vpn va) n n 0))) :
    (k.vmmMapPagesPml4 (k.virt root) pa va n).Stocked m := by
  rw [vmmMapPagesPml4_eq, hc]
  have hprep : (prepare (k.virt root) 0 (mapStart pa' va) k).2.Stocked
      (m + mapFrames (vpn va) n n 0) :=
    prepare_stocked (by omega) h.tree (mapStart_indices pa' va) hl0 trivial (hst.mono (by omega))
  by_cases hn : n = 0
  · subst hn
    rw [mapFrames] at hprep
    exact hprep
  · obtain ⟨hi, T₁, hT₁⟩ := h.head hW (by omega) hrange hl hprep.supplied
    refine mapPagesLoop_stocked hP hrange hpa h0 n hT₁ ?_
    rw [hi]
    exact hprep

end Range

end BambooOS
