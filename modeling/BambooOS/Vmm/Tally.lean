import BambooOS.Vmm.Bulk
import BambooOS.Vmm.Demand
import BambooOS.Vmm.Stock

/-!
# Vmm.Tally

The allocator's counter over a call of `vmm_map_pages_pml4`.

* `pmmFree_tallied`, `mapLeaf_tallied`, `prepare_tallied`: each part of an iteration keeps it.
* `vmmMapPagesPml4_tallied`: so does the call.
-/

namespace BambooOS

open ByteMem Radix Kernel

section Entries

variable {k : Kernel} {root q f n : Nat} {i : Fin 512} {F : Set Nat} {T C : PageTree} {c : MapCursor}

theorem Owned.ensure_tallied (h : Owned k root T) (hl : T.loc fmt.base (path q) n 4 = some (f, i))
    (hs : (k.ensureEntry (k.virt f + 8 * i.val)).Supplied) (ht : k.Tallied) :
    (k.ensureEntry (k.virt f + 8 * i.val)).Tallied := by
  obtain ⟨hal, hlt, _, hbit⟩ := h.frame hl
  exact ht.ensureEntry h.ok hlt hal hbit hs

/-- A frame given back is counted as free, and mapping its window page keeps the count. -/
theorem pmmFree_tallied (h : Owned k root C) (hr : k.pml4 = k.virt root)
    (hw : Window k.toGlobals C F) (hal : ∀ x ∈ F, x % 0x1000 = 0) (hf : f ∈ F) (hlt : f < 2 ^ 52)
    (hC : f ∉ C.frames fmt.base) (hbit : f ∉ k.Bitmap) (hs : (k.pmmFree (k.virt f)).Supplied)
    (ht : k.Tallied) : (k.pmmFree (k.virt f)).Tallied := by
  have hha := hw.aligned
  have hpage : pageOf f = f := pageOf_self (hal f hf)
  have hval : k.virt f % 0x1000 = 0 := by
    have := hal f hf
    rw [hw.virt_eq hf]
    omega
  have hphys := vmmVirtToPhys_aligned h.ok h.stored hr hval
  cases hx : PageTree.xlate C (k.virt f / 0x1000) with
  | none =>
    rw [hx] at hphys
    rw [pmmFree_refused h.ok hphys (.inl rfl)]
    exact ht
  | some a =>
    obtain rfl := hw.virt f hf a hx
    rw [hx, Option.getD_some] at hphys
    rw [pmmFree_eq h.ok hphys (by simp only [uint64Max]; omega) (by rwa [hpage])] at hs ⊢
    obtain ⟨hO, hwin, _⟩ := released_spec h (by rwa [hpage]) (by rwa [hpage])
    have hk₁ : (k.pmmSetUsablePageAllocatedByIndex (k.pmmGetIndexByAddress a) false).PmmOk := by
      rw [set_toGlobals]
      exact h.ok.toPmmOk
    have ht₁ : (k.released a).Tallied := ⟨hO.held, counted_congr hk₁ rfl rfl (fun _ _ => rfl)
      (release_counted h.ok.toPmmOk ht.counted a)⟩
    have hvirt : k.virt = (k.released a).virt := (congrArg Globals.virt hwin.globals).symm
    have hno : ¬ PageTree.Huge C ((k.released a).virt a / 0x1000) := hvirt ▸ hw.no_huge a hf
    rw [hr, hvirt] at hs ⊢
    exact vmmMapPagePml4_tallied hO hw.fits hno hs ht₁

theorem setLarge_tallied {k₂ : Kernel} (hk : k₂.PmmOk) (hlt : f < 2 ^ 52) (hal : f % 0x1000 = 0)
    (hbit : f ∉ k₂.Bitmap) (phys : Nat) (ht : k₂.Tallied) :
    (k₂.setLarge (k₂.virt f + 8 * i.val) phys).Tallied := by
  have hg : (k₂.orEntry (k₂.virt f + 8 * i.val) ptEntryLargerPages).toGlobals = k₂.toGlobals :=
    (orEntry_later _ _ _).1
  exact (ht.slot hk rfl hlt hal hbit i _).slot hk hg hlt hal hbit i _

end Entries

section Range

variable {k : Kernel} {root croot q n : Nat} {W F : Set Nat} {P : Prop} {T C : PageTree}
  {c : MapCursor}

theorem ptStep_tallied (h : Owned k root T) (hi : Indices c q) (hd : Down k.toGlobals T c q 3)
    (hs : (ptStep c k).2.Supplied) (ht : k.Tallied) : (ptStep c k).2.Tallied := by
  simp only [ptStep, hi.ptI] at hs ⊢
  obtain ⟨f, hl, hp⟩ := hd.2.2.2.2.slot
  rw [show c.pt + 8 * (path q 0).val = k.virt f + 8 * (path q (3 - 3)).val from hp] at hs ⊢
  exact h.ensure_tallied hl hs ht

theorem pdStep_tallied (h : Owned k root T) (hi : Indices c q) (hlarge : ¬ PageTree.Large T q)
    (hd : Down k.toGlobals T c q 2) (p : Nat) (hs : (prepare p 2 c k).2.Supplied)
    (ht : k.Tallied) : (prepare p 2 c k).2.Tallied := by
  change (ptStep (pdStep c k).1 (pdStep c k).2).2.Supplied at hs
  change (ptStep (pdStep c k).1 (pdStep c k).2).2.Tallied
  have hs₁ : (pdStep c k).2.Supplied := (ensureEntry_later _ _).supplied hs
  obtain ⟨T₁, hstep, _, _, _, hd₁⟩ := pdStep_spec h hi hlarge hd hs₁
  have ht₁ : (pdStep c k).2.Tallied := by
    simp only [pdStep, hi.pdI] at hs₁ ⊢
    obtain ⟨f, hl, hp⟩ := hd.2.2.slot
    rw [show c.pd + 8 * (path q 1).val = k.virt f + 8 * (path q (3 - 2)).val from hp] at hs₁ ⊢
    exact h.ensure_tallied hl hs₁ ht
  have hi₁ : Indices (pdStep c k).1 q := ⟨hi.pml4I, hi.pdptI, hi.pdI, hi.ptI⟩
  exact ptStep_tallied hstep.owned hi₁ hd₁ hs ht₁

theorem pdptStep_tallied (h : Owned k root T) (hi : Indices c q) (hlarge : ¬ PageTree.Large T q)
    (hd : Down k.toGlobals T c q 1) (p : Nat) (hs : (prepare p 1 c k).2.Supplied)
    (ht : k.Tallied) : (prepare p 1 c k).2.Tallied := by
  change (prepare p 2 (pdptStep c k).1 (pdptStep c k).2).2.Supplied at hs
  change (prepare p 2 (pdptStep c k).1 (pdptStep c k).2).2.Tallied
  have hs₁ : (pdptStep c k).2.Supplied := (prepare_later p 2 _ _).supplied hs
  obtain ⟨T₁, hstep, hsp, _, _, hd₁⟩ := pdptStep_spec h hi hlarge hd hs₁
  have ht₁ : (pdptStep c k).2.Tallied := by
    simp only [pdptStep, hi.pdptI] at hs₁ ⊢
    obtain ⟨f, hl, hp⟩ := TableAt.slot hd
    rw [show c.pdpt + 8 * (path q 2).val = k.virt f + 8 * (path q (3 - 1)).val from hp] at hs₁ ⊢
    exact h.ensure_tallied hl hs₁ ht
  have hi₁ : Indices (pdptStep c k).1 q := ⟨hi.pml4I, hi.pdptI, hi.pdI, hi.ptI⟩
  exact pdStep_tallied hstep.owned hi₁ (not_large_split hlarge hsp.toSplit) hd₁ p hs ht₁

theorem pml4Step_tallied (h : Owned k root T) (hi : Indices c q) (hlarge : ¬ PageTree.Large T q)
    (hs : (prepare (k.virt root) 0 c k).2.Supplied) (ht : k.Tallied) :
    (prepare (k.virt root) 0 c k).2.Tallied := by
  change (prepare (k.virt root) 1 (pml4Step (k.virt root) c k).1
    (pml4Step (k.virt root) c k).2).2.Supplied at hs
  change (prepare (k.virt root) 1 (pml4Step (k.virt root) c k).1
    (pml4Step (k.virt root) c k).2).2.Tallied
  have hs₁ : (pml4Step (k.virt root) c k).2.Supplied := (prepare_later _ 1 _ _).supplied hs
  obtain ⟨T₁, hstep, hsp, _, _, hd₁⟩ := pml4Step_spec h hi hlarge hs₁
  have ht₁ : (pml4Step (k.virt root) c k).2.Tallied := by
    simp only [pml4Step, hi.pml4I] at hs₁ ⊢
    exact h.ensure_tallied (h.stored.loc_zero q) hs₁ ht
  have hi₁ : Indices (pml4Step (k.virt root) c k).1 q := ⟨hi.pml4I, hi.pdptI, hi.pdI, hi.ptI⟩
  exact pdptStep_tallied hstep.owned hi₁ (not_large_split hlarge hsp.toSplit) hd₁ _ hs ht₁

theorem prepare_tallied {d : Nat} (hd3 : d ≤ 3) (h : Owned k root T) (hi : Indices c q)
    (hlarge : ¬ PageTree.Large T q) (hd : Down k.toGlobals T c q d)
    (hs : (prepare (k.virt root) d c k).2.Supplied) (ht : k.Tallied) :
    (prepare (k.virt root) d c k).2.Tallied := by
  rcases (by omega : d = 0 ∨ d = 1 ∨ d = 2 ∨ d = 3) with rfl | rfl | rfl | rfl
  · exact pml4Step_tallied h hi hlarge hs ht
  · exact pdptStep_tallied h hi hlarge hd _ hs ht
  · exact pdStep_tallied h hi hlarge hd _ hs ht
  · exact ptStep_tallied h hi hd hs ht

/-- A leaf of any size. -/
theorem mapLeaf_tallied (h : Ready root croot W F P k T C) (hd : Down k.toGlobals T c q 3)
    (hsl : SlotAt k.toGlobals T q 3 c.ptEntry) (hP : leafLevel n c ≠ 0 → P)
    (hW : T.replacedAt q (leafLevel n c) ⊆ W) (hs : (mapLeaf n c k).2.Supplied) (ht : k.Tallied) : (mapLeaf n c k).2.Tallied := by
  have hk := h.tree.ok.toPmmOk
  obtain ⟨_, ⟨f₁, hl₁, hp₁⟩, ⟨f₂, hl₂, hp₂⟩, ⟨f₂', hl₂', hp₂'⟩, ⟨f₃, hl₃, hp₃⟩⟩ := hd
  obtain ⟨_, hlt₃, _, hbit₃⟩ := h.tree.frame hl₃
  have hm₃ := Tree.loc_mem hl₃
  -- the PT, which both large leaves give back
  have hfree : P → f₃ ∈ W → (k.pmmFree (k.virt f₃)).Supplied →
      (k.pmmFree (k.virt f₃)).Tallied := fun hp hf hs =>
    pmmFree_tallied h.current h.pml4 (h.window hp) h.window_aligned hf hlt₃
      (Set.disjoint_left.mp h.apart hm₃) hbit₃ hs ht
  rw [leafLevel] at hP hW
  rw [mapLeaf] at hs ⊢
  split
  · rename_i hc
    rw [if_pos hc] at hs hP hW
    change (((k.pmmFree c.pt).pmmFree c.pd).setLarge c.pdptEntry c.currentPhys).Supplied at hs
    change (((k.pmmFree c.pt).pmmFree c.pd).setLarge c.pdptEntry c.currentPhys).Tallied
    have hp := hP (by omega)
    rw [hp₃, hp₂, hp₁] at hs
    rw [hp₃, hp₂, hp₁]
    obtain ⟨hal, hlt, _, hbit⟩ := h.tree.frame hl₁
    obtain ⟨_, hlt₂, _, hbit₂⟩ := h.tree.frame hl₂
    have hW₃ := hW ⟨3, _, by omega, Nat.le_refl 3, hl₃⟩
    have hW₂ := hW ⟨2, _, by omega, by omega, hl₂⟩
    have hs₂ := (setLarge_later _ _ _).supplied hs
    have hs₁ := (pmmFree_later _ _).supplied hs₂
    obtain ⟨_, C₁, hfr₁⟩ := h.free_table hp hl₃ hW₃ hs₁
    have hout := h.table_apart hl₂ hl₃ hfr₁
    have ht₁ := hfree hp hW₃ hs₁
    generalize k.pmmFree (k.virt f₃) = k₁ at hs₂ hfr₁ ht₁ ⊢
    have hg := hfr₁.within.globals
    rw [← congrArg Globals.virt hg] at hs₂ ⊢
    have ht₂ : (k₁.pmmFree (k₁.virt f₂)).Tallied :=
      pmmFree_tallied hfr₁.owned (by rw [hg]; exact h.pml4) hfr₁.window h.window_aligned hW₂ hlt₂ hout
        (by rw [hg]; exact hbit₂) hs₂ ht₁
    have hg₂ := (pmmFree_later k₁ (k₁.virt f₂)).1
    generalize k₁.pmmFree (k₁.virt f₂) = k₂ at ht₂ hg₂ ⊢
    rw [← congrArg Globals.virt hg₂]
    rw [hg] at hg₂
    exact setLarge_tallied (by rw [hg₂]; exact hk) hlt hal (by rw [hg₂]; exact hbit) _ ht₂
  · rename_i hc
    rw [if_neg hc] at hs hP hW
    split
    · rename_i hc'
      rw [if_pos hc'] at hs hP hW
      change ((k.pmmFree c.pt).setLarge c.pdEntry c.currentPhys).Supplied at hs
      change ((k.pmmFree c.pt).setLarge c.pdEntry c.currentPhys).Tallied
      rw [hp₃] at hs
      rw [hp₃, hp₂']
      obtain ⟨hal, hlt, _, hbit⟩ := h.tree.frame hl₂'
      have ht₁ := hfree (hP (by omega)) (hW ⟨3, _, by omega, Nat.le_refl 3, hl₃⟩) ((setLarge_later _ _ _).supplied hs)
      have hg := (pmmFree_later k (k.virt f₃)).1
      generalize k.pmmFree (k.virt f₃) = k₁ at ht₁ hg ⊢
      rw [← congrArg Globals.virt hg]
      exact setLarge_tallied (by rw [hg]; exact hk) hlt hal (by rw [hg]; exact hbit) _ ht₁
    · change (k.st64 c.ptEntry (vmmPtEntrySetAddress (k.ld64 c.ptEntry) c.currentPhys)).Tallied
      obtain ⟨f, hl, hp⟩ := hsl
      obtain ⟨hal, hlt, _, hbit⟩ := h.tree.frame hl
      rw [hp]
      exact ht.st64 hk hlt hal hbit _ _

theorem mapPagesLoop_tallied {q₀ pa : Nat} {k₀ : Kernel} {T₀ C₀ : PageTree} (hP : Leaps q₀ n → P)
    (hn : q₀ + n ≤ 2 ^ 36) (hpa : pa + n * 0x1000 ≤ 2 ^ 52) (fuel : Nat)
    (h : Head root croot W F P k₀ T₀ C₀ q₀ n pa k T C c)
    (hs : (mapPagesLoop (k₀.virt root) n fuel c k).Supplied) (ht : k.Tallied) :
    (mapPagesLoop (k₀.virt root) n fuel c k).Tallied := by
  induction fuel generalizing k T C c with
  | zero => exact ht
  | succ fuel ih =>
    have hsleaf := mapLeaf_supplied h.lt hs
    have hback := h.back
    rw [← leafLevel_block h.indices] at hback
    have hleaf := mapLeaf_tallied (n := n) h.ready h.down h.slot (h.large hP) hback hsleaf ht
    obtain ⟨T₁, C₁, hin, hb, hdown⟩ := h.leaf hP hn hpa hsleaf
    generalize hk₁ : (mapLeaf n c k).2 = k₁ at hleaf hb hdown
    by_cases hlast : c.i + 512 ^ blockLevel q₀ n c.i = n
    · rw [h.unroll_last hk₁ hlast]
      exact hleaf
    · have hlt : c.i + 512 ^ blockLevel q₀ n c.i < n := by omega
      obtain ⟨d, c₂, hnext, hmoved, hnl, hhead⟩ := h.next (k₀.virt root) hn hpa hlt hb hdown
      rw [h.unroll_next hk₁ hlt (hnext k₁)] at hs ⊢
      have hvirt : k₁.virt root = k₀.virt root := by rw [hb.move.within.globals]
      have hsprep : (prepare (k₁.virt root) d c₂ k₁).2.Supplied := by
        rw [hvirt]
        exact (mapPagesLoop_later _ _ _ _ _).supplied hs
      have hprep := prepare_tallied hmoved.depth hb.ready.tree hmoved.indices hnl hmoved.down hsprep
        hleaf
      obtain ⟨_, T₂, hT₂⟩ := hhead hsprep
      rw [hvirt] at hprep hT₂
      exact ih hT₂ hs hprep

/-- The whole call, of an empty range too. -/
theorem vmmMapPagesPml4_tallied {pa va pa' : Nat} (hP : Leaps (vpn va) n → P)
    (h : Ready root croot W F P k T C) (hW : k.returnable T (vpn va) n ⊆ W)
    (hrange : vpn va + n ≤ 2 ^ 36) (hpa : pa' + n * 0x1000 ≤ 2 ^ 52)
    (hl : ∀ j, j < n → Visits (vpn va) n (vpn va + j) → ¬ PageTree.Large T (vpn va + j))
    (hl0 : ¬ PageTree.Large T (vpn va)) (hc : k.convertPhys pa = pa')
    (hs : (k.vmmMapPagesPml4 (k.virt root) pa va n).Supplied) (ht : k.Tallied) :
    (k.vmmMapPagesPml4 (k.virt root) pa va n).Tallied := by
  rw [vmmMapPagesPml4_eq, hc] at hs ⊢
  have hsp := (mapPagesLoop_later _ _ _ _ _).supplied hs
  have hprep := prepare_tallied (Nat.zero_le 3) h.tree (mapStart_indices pa' va) hl0 trivial hsp ht
  by_cases hn : n = 0
  · subst hn
    exact hprep
  · obtain ⟨_, T₁, hT₁⟩ := h.head hW (by omega) hrange hl hsp
    exact mapPagesLoop_tallied hP hrange hpa n hT₁ hs hprep

end Range

end BambooOS
