import BambooOS.Pmm.Count
import BambooOS.Vmm.Free

/-!
# Vmm.Stock

What the page-table code takes from the allocator.

* `missingTables`: the tables the descent to a page has to create. `descend_supplied`: with that
  many frames in stock none of its allocations fails.
* `Tallied`: the marks of the bitmap pages and the counter beside the bits. Every block of the
  descent keeps them.
-/

namespace BambooOS

open ByteMem Radix Kernel

namespace Kernel

/-- The tables the descent to an address creates: below an entry that is absent, or in place of a
2 MiB leaf. -/
def missingTables (k : Kernel) (virtualAddress : Nat) : Nat :=
  let pml4Entry := k.pml4 + 8 * pml4Index virtualAddress
  if k.ld64 pml4Entry &&& ptEntryPresent = 0 then 3
  else
    let pdptEntry := k.tableOf pml4Entry + 8 * pdptIndex virtualAddress
    if k.ld64 pdptEntry &&& ptEntryPresent = 0 then 2
    else
      let pdEntry := k.tableOf pdptEntry + 8 * pdIndex virtualAddress
      if k.ld64 pdEntry &&& ptEntryPresent = 0 ∨ k.ld64 pdEntry &&& ptEntryLargerPages ≠ 0 then 1
      else 0

end Kernel

/-! ## Frames in stock -/

section Supply

variable {k : Kernel} {root f q v : Nat} {i : Fin 512} {T : PageTree}

/-- The kinds of slot the descent meets below the PML4: absent, a table, or at the PD a leaf. -/
theorem missingTables_eq (h : Owned k root T) (hr : k.pml4 = k.virt root)
    (hhuge : ¬ PageTree.Huge T (v / 0x1000)) : k.missingTables v =
      if (T.loc fmt.base (path (v / 0x1000)) 1 4).isNone then 3
      else if (T.loc fmt.base (path (v / 0x1000)) 2 4).isNone then 2
      else if (T.loc fmt.base (path (v / 0x1000)) 3 4).isNone then 1 else 0 := by
  generalize hq : v / 0x1000 = q at *
  have hlt : ∀ e, vmmPtEntryGetAddress e < 2 ^ 52 := fun e => by have := getAddress_lt e; omega
  have below : ∀ {n t}, n < 3 → T.get (path q) (n + 1) 4 = some t → (∀ e sub, t ≠ .table e sub) →
      T.loc fmt.base (path q) (n + 1) 4 = none := by
    intro n t hn hg ht
    have := Tree.loc_get (b := fmt.base) (n := 0) hg
    rw [Nat.add_zero] at this
    rw [this]
    cases t with
    | none => rfl
    | leaf e => rfl
    | table e sub => exact absurd rfl (ht e sub)
  have hl₀ := h.stored.loc_zero q
  simp only [missingTables, hr, pml4Index_eq, pdptIndex_eq, pdIndex_eq, and_present, and_larger, hq]
  rw [ld64_slot h.ok.hhdm_lt h.stored.lt, tableOf_eq h.ok h.stored.lt]
  rcases h.stored.slot_cases (by omega) hl₀ with ⟨hg, hv⟩ | ⟨e, hg, _⟩ |
    ⟨e₁, _, _, hv, hp, _, _, hl₁⟩
  · rw [below (by omega) hg (by simp), hv]
    rfl
  · exact absurd hg (h.stored.root_table e)
  rw [hv, if_neg (not_not.mpr hp), hl₁, ld64_slot h.ok.hhdm_lt (hlt _), tableOf_eq h.ok (hlt _)]
  rcases h.stored.slot_cases (by omega) hl₁ with ⟨hg, hv⟩ | ⟨e, hg, _⟩ |
    ⟨e₂, _, _, hv, hp, _, _, hl₂⟩
  · rw [below (by omega) hg (by simp), hv]
    rfl
  · exact absurd ⟨e, by rw [Tree.find_of_get (by omega) hg fun _ _ _ => rfl]; rfl⟩ hhuge
  rw [hv, if_neg (not_not.mpr hp), hl₂, ld64_slot h.ok.hhdm_lt (hlt _)]
  rcases h.stored.slot_cases (by omega) hl₂ with ⟨hg, hv⟩ | ⟨e, hg, hv, hp, hlev⟩ |
    ⟨e₃, _, _, hv, hp, _, hlar, hl₃⟩
  · rw [below (by omega) hg (by simp), hv]
    rfl
  · rw [below (by omega) hg (by simp), hv, if_pos (.inr (hlev.resolve_left (by omega)).2)]
    rfl
  · rw [hl₃, hv, if_neg]
    · rfl
    · rintro (hc | hc)
      · exact hc hp
      · exact hlar.resolve_left (by omega) hc

/-- One frame serves the step from a PD: it makes the missing PT, or splits the leaf. -/
theorem fromPd_supplied (h : Owned k root T)
    (hl : T.loc fmt.base (path (v / 0x1000)) 2 4 = some (f, path (v / 0x1000) 1))
    (hst : k.Stocked 1) : (k.fromPd (k.virt f) v).2.Supplied := by
  simp only [fromPd, pdIndex_eq]
  obtain ⟨hal, hlt, hfree, hbit⟩ := h.frame hl
  rcases h.stored.slot_cases (by omega) hl with ⟨hg, hv⟩ | ⟨e, hg, hv, hp, _⟩ |
    ⟨e, sub, hg, hv, hp, _⟩
  · have hs := hst.ensureEntry h.ok.toPmmOk (k.virt f + 8 * (path (v / 0x1000) 1).val)
    obtain ⟨g, hgr, _⟩ := ensureEntry_grown h.ok h.held hlt hal hfree hbit _ hv hs
    generalize k.ensureEntry (k.virt f + 8 * (path (v / 0x1000) 1).val) = k₁ at hs hgr ⊢
    have hok₁ : k₁.VmmOk := by rw [hgr.within.globals]; exact h.ok
    rw [← congrArg Globals.virt hgr.within.globals, splitPdEntry,
      splitEntry_small hok₁ hlt _ (hgr.slot ▸ not_larger_fresh g)]
    exact hs
  · rw [ensureEntry_present h.ok hlt (hv ▸ hp)]
    exact hst.splitEntry h.ok.toPmmOk _ _
  · rw [ensureEntry_present h.ok hlt (hv ▸ hp)]
    exact hst.splitEntry h.ok.toPmmOk _ _

theorem fromPdpt_supplied (h : Owned k root T) (hhuge : ¬ PageTree.Huge T (v / 0x1000))
    (hl : T.loc fmt.base (path (v / 0x1000)) 1 4 = some (f, path (v / 0x1000) 2))
    (hst : k.Stocked 2) : (k.fromPdpt (k.virt f) v).2.Supplied := by
  obtain ⟨hal, hlt, hfree, hbit⟩ := h.frame hl
  rcases h.stored.slot_cases (by omega) hl with ⟨hg, hv⟩ | ⟨e, hg, _⟩ |
    ⟨e, sub, _, _, _, _, _, hl₂⟩
  · have hno : ∀ e, T.get (path (v / 0x1000)) 2 4 ≠ some (.leaf e) := fun e he => by
      rw [hg] at he; cases he
    have hs := hst.ensureEntry h.ok.toPmmOk (k.virt f + 8 * (path (v / 0x1000) 2).val)
    obtain ⟨g, hgr, _⟩ := ensureEntry_grown h.ok h.held hlt hal hfree hbit _ hv hs
    obtain ⟨T₁, f₁, hst₁, _, _, hl₁, hto, _⟩ := enter_spec h (by omega) hl hno hs
    simp only [fromPdpt, pdptIndex_eq]
    generalize k.ensureEntry (k.virt f + 8 * (path (v / 0x1000) 2).val) = k₁ at hs hgr hst₁ hto ⊢
    have hvirt : k₁.virt = k.virt := congrArg Globals.virt hgr.within.globals
    rw [← hvirt] at hto
    rw [← hvirt, splitPdptEntry,
      splitEntry_small hst₁.owned.ok hlt _ (hgr.slot ▸ not_larger_fresh g), hto]
    exact fromPd_supplied hst₁.owned hl₁ (hst.take hs hgr.free)
  · exact absurd ⟨e, by rw [Tree.find_of_get (by omega) hg fun _ _ _ => rfl]; rfl⟩ hhuge
  · rw [fromPdpt_walked h hl hl₂]
    exact fromPd_supplied h hl₂ (hst.mono (by omega))

/-- With a frame for every missing table the descent cannot fail. -/
theorem descend_supplied (h : Owned k root T) (hr : k.pml4 = k.virt root)
    (hhuge : ¬ PageTree.Huge T (v / 0x1000)) (hst : k.Stocked (k.missingTables v)) :
    (k.descend (k.virt root) v).2.Supplied := by
  rw [missingTables_eq h hr hhuge] at hst
  cases h₃ : T.loc fmt.base (path (v / 0x1000)) 3 4 with
  | some l =>
    rw [descend_walked h h₃]
    exact hst.supplied
  | none =>
    cases h₂ : T.loc fmt.base (path (v / 0x1000)) 2 4 with
    | some l =>
      obtain ⟨f, i⟩ := l
      obtain ⟨f₁, i₁, h₁⟩ := Tree.exists_loc_of_succ h₂
      simp only [h₁, h₂, h₃, Option.isNone_none, Option.isNone_some, Bool.false_eq_true, if_true,
        if_false] at hst
      rw [descend_pd h h₂]
      exact fromPd_supplied h (loc_index h₂ ▸ h₂) hst
    | none =>
      cases h₁ : T.loc fmt.base (path (v / 0x1000)) 1 4 with
      | some l =>
        obtain ⟨f, i⟩ := l
        simp only [h₁, h₂, Option.isNone_none, Option.isNone_some, Bool.false_eq_true, if_true,
          if_false] at hst
        rw [descend_pdpt h h₁]
        exact fromPdpt_supplied h hhuge (loc_index h₁ ▸ h₁) hst
      | none =>
        simp only [h₁, Option.isNone_none, if_true] at hst
        have hl₀ := h.stored.loc_zero (v / 0x1000)
        obtain ⟨hal, hlt, hfree, hbit⟩ := h.frame hl₀
        have hv : k.rd root (path (v / 0x1000) 3) = 0 := by
          rcases h.stored.slot_cases (by omega) hl₀ with ⟨_, hv⟩ | ⟨e, hg, _⟩ |
            ⟨e, sub, _, _, _, _, _, hl₁⟩
          · exact hv
          · exact absurd hg (h.stored.root_table e)
          · rw [h₁] at hl₁; cases hl₁
        have hs := Stocked.ensureEntry (n := 2) h.ok.toPmmOk hst
          (k.virt root + 8 * (path (v / 0x1000) 3).val)
        obtain ⟨g, hgr, _⟩ := ensureEntry_grown h.ok h.held hlt hal hfree hbit _ hv hs
        obtain ⟨T₁, f₁, hst₁, hsp, _, hl₁, hto, _⟩ :=
          enter_spec h (by omega) hl₀ h.stored.root_table hs
        have hno : ¬ PageTree.Huge T₁ (v / 0x1000) :=
          fun ⟨e, he⟩ => hhuge ⟨e, hsp.large _ 2 e (by omega) he⟩
        rw [descend_eq, pml4Index_eq, hto]
        generalize k.ensureEntry (k.virt root + 8 * (path (v / 0x1000) 3).val) = k₁ at hs hgr hst₁ ⊢
        rw [← congrArg Globals.virt hst₁.within.globals]
        exact fromPdpt_supplied hst₁.owned hno hl₁ (Stocked.take (n := 2) hst hs hgr.free)

/-- Three frames are enough for any descent. -/
theorem descend_stocked (h : Owned k root T) (hr : k.pml4 = k.virt root)
    (hhuge : ¬ PageTree.Huge T (v / 0x1000)) {n : Nat} (hst : k.Stocked (n + 3)) :
    (k.descend (k.virt root) v).2.Supplied := by
  have hroom : k.missingTables v ≤ n + 3 := by
    rw [missingTables_eq h hr hhuge]
    split_ifs <;> omega
  exact descend_supplied h hr hhuge (hst.mono hroom)

end Supply

/-! ## The counter -/

namespace Kernel

/-- The bitmap's own pages are marked, and the counter is the number of set bits. -/
structure Tallied (k : Kernel) : Prop where
  held : k.BitmapHeld
  counted : k.Counted

section Tally

variable {k k' : Kernel} {f : Nat} {i : Fin 512}

theorem Tallied.congr (hk : k.PmmOk) (hg : k'.toGlobals = k.toGlobals)
    (hn : k'.pmmNumAllocatedPages = k.pmmNumAllocatedPages)
    (hm : ∀ x, pageOf x ∈ k.Bitmap → k'.mem x = k.mem x) (h : k.Tallied) : k'.Tallied :=
  ⟨bitmapHeld_congr hk hg hm h.held, counted_congr hk hg hn hm h.counted⟩

theorem Tallied.st64 (hk : k.PmmOk) (hf : f < 2 ^ 52) (hal : f % 0x1000 = 0) (hbit : f ∉ k.Bitmap)
    (i : Fin 512) (v : Nat) (h : k.Tallied) : (k.st64 (k.virt f + 8 * i.val) v).Tallied := by
  refine h.congr hk (st64_toGlobals _ _ _) (by simp only [Kernel.st64]) fun x hx => ?_
  refine st64_slot_kept hk.hhdm_lt hf i hal v x ?_
  rintro rfl
  exact hbit hx

theorem Tallied.allocz (hk : k.PmmOk) (hs : k.pmmAllocz.2.Supplied) (h : k.Tallied) :
    k.pmmAllocz.2.Tallied := by
  obtain ⟨f, hf, ht⟩ := pmmAllocz_spec hk h.held hs
  have hg := pmmAllocPhys_toGlobals k
  have hnb : f ∉ k.Bitmap := free_not_bitmap hk h.held ht.mem_free
  have hflt := free_lt hk ht.mem_free
  have hfal := free_aligned hk ht.mem_free
  refine ⟨ht.held h.held, ?_⟩
  rw [pmmAllocz_eq] at hf ⊢
  simp only at hf ⊢
  rw [hf]
  refine counted_congr (by rw [hg]; exact hk) (memset_toGlobals _ _ _ _)
    (by simp only [Kernel.memset]) (fun x hx => ?_) (pmmAllocPhys_counted hk h.counted)
  rw [hg] at hx
  rw [memset_mem, hg, Globals.phys_virt hk.hhdm_lt (by omega), fill, if_neg]
  rintro ⟨h₁, h₂⟩
  exact hnb (pageOf_of_page hfal h₁ h₂ ▸ hx)

theorem Tallied.slot {t : Kernel} (hk : k.PmmOk) (hg : t.toGlobals = k.toGlobals)
    (hf : f < 2 ^ 52) (hal : f % 0x1000 = 0) (hbit : f ∉ k.Bitmap) (i : Fin 512) (v : Nat)
    (h : t.Tallied) : (t.st64 (k.virt f + 8 * i.val) v).Tallied := by
  rw [← congrArg Globals.virt hg]
  exact h.st64 (by rw [hg]; exact hk) hf hal (by rw [hg]; exact hbit) i v

theorem Tallied.ensureEntry (hk : k.VmmOk) (hf : f < 2 ^ 52) (hal : f % 0x1000 = 0)
    (hbit : f ∉ k.Bitmap) (hs : (k.ensureEntry (k.virt f + 8 * i.val)).Supplied) (h : k.Tallied) :
    (k.ensureEntry (k.virt f + 8 * i.val)).Tallied := by
  rw [Kernel.ensureEntry] at hs ⊢
  split
  · rename_i hp
    rw [if_pos hp] at hs
    have hsz : k.pmmAllocz.2.Supplied := (((st64_later _ _ _).trans (orEntry_later _ _ _)).trans
      (orEntry_later _ _ _)).supplied hs
    have hg := pmmAllocz_toGlobals k
    have hg₁ : (k.vmmInitPtEntry (k.virt f + 8 * i.val)).toGlobals = k.toGlobals :=
      (vmmInitPtEntry_later _ _).1
    have hg₂ : ((k.vmmInitPtEntry (k.virt f + 8 * i.val)).orEntry (k.virt f + 8 * i.val)
        ptEntryReadWrite).toGlobals = k.toGlobals := ((orEntry_later _ _ _).1).trans hg₁
    have hz := (h.allocz hk.toPmmOk hsz).slot hk.toPmmOk hg hf hal hbit i
    exact ((hz _).slot hk.toPmmOk hg₁ hf hal hbit i _).slot hk.toPmmOk hg₂ hf hal hbit i _
  · exact h

theorem Tallied.splitEntry {size : Nat} (hk : k.VmmOk) (hf : f < 2 ^ 52) (hal : f % 0x1000 = 0)
    (hbit : f ∉ k.Bitmap) (hs : (k.splitEntry (k.virt f + 8 * i.val) size).Supplied)
    (h : k.Tallied) : (k.splitEntry (k.virt f + 8 * i.val) size).Tallied := by
  rw [Kernel.splitEntry] at hs ⊢
  split
  · rename_i hlar
    rw [if_pos hlar] at hs
    have hsz : k.pmmAllocz.2.Supplied :=
      ((splitLoop_later _ _ _ _ _).trans (st64_later _ _ _)).supplied hs
    obtain ⟨g, hpage, ht⟩ := pmmAllocz_spec hk.toPmmOk h.held hsz
    have hz := h.allocz hk.toPmmOk hsz
    have hgb : g ∉ k.Bitmap := free_not_bitmap hk.toPmmOk h.held ht.mem_free
    have hglt := free_lt hk.toPmmOk ht.mem_free
    have hgal := free_aligned hk.toPmmOk ht.mem_free
    simp only [hpage, Taken.newAddress hk ht]
    have htab : (g + k.pmmAllocz.2.vmmPageTablesOffset) % 2 ^ 64 = k.virt g := by
      rw [ht.globals, hk.tables, Globals.virt]
    rw [htab]
    have hloop := Loop.upto_inv (n := 512) (s := k.pmmAllocz.2)
      (f := splitBody (k.virt g) (vmmPtEntryGetAddress (k.ld64 (k.virt f + 8 * i.val))) size)
      (P := fun _ t => t.toGlobals = k.toGlobals ∧ t.Tallied) ⟨ht.globals, hz⟩ fun n t hn htal => by
        obtain ⟨hg, htal⟩ := htal
        have hst : ∀ (u : Kernel) w, u.toGlobals = k.toGlobals → u.Tallied →
            (u.st64 (k.virt g + 8 * n) w).Tallied := fun u w hu hut =>
          hut.slot hk.toPmmOk hu (by omega) hgal hgb ⟨n, hn⟩ w
        refine ⟨(splitBody_later _ _ _ _ _).1.trans hg, hst _ _ ?_ (hst _ _ ?_ (hst _ _ hg htal))⟩
        · exact ((orEntry_later _ _ _).1.trans (st64_later _ _ _).1).trans hg
        · exact (st64_later _ _ _).1.trans hg
    exact hloop.2.slot hk.toPmmOk hloop.1 hf hal hbit i _
  · exact h

end Tally

end Kernel

section Descent

variable {k : Kernel} {root f v : Nat} {T : PageTree}

theorem fromPd_tallied (h : Owned k root T)
    (hl : T.loc fmt.base (path (v / 0x1000)) 2 4 = some (f, path (v / 0x1000) 1))
    (hs : (k.fromPd (k.virt f) v).2.Supplied) (ht : k.Tallied) :
    (k.fromPd (k.virt f) v).2.Tallied := by
  obtain ⟨hal, hlt, _, hbit⟩ := h.frame hl
  simp only [fromPd, pdIndex_eq] at hs ⊢
  have hs₁ := (splitEntry_later _ _ _).supplied hs
  have ht₁ := ht.ensureEntry h.ok hlt hal hbit hs₁
  have hg := (ensureEntry_later k (k.virt f + 8 * (path (v / 0x1000) 1).val)).1
  generalize k.ensureEntry (k.virt f + 8 * (path (v / 0x1000) 1).val) = k₁ at hs ht₁ hg ⊢
  rw [← congrArg Globals.virt hg] at hs ⊢
  exact ht₁.splitEntry (by rw [hg]; exact h.ok) hlt hal (by rw [hg]; exact hbit) hs

theorem fromPdpt_tallied (h : Owned k root T) (hhuge : ¬ PageTree.Huge T (v / 0x1000))
    (hl : T.loc fmt.base (path (v / 0x1000)) 1 4 = some (f, path (v / 0x1000) 2))
    (hs : (k.fromPdpt (k.virt f) v).2.Supplied) (ht : k.Tallied) :
    (k.fromPdpt (k.virt f) v).2.Tallied := by
  obtain ⟨hal, hlt, _, hbit⟩ := h.frame hl
  simp only [fromPdpt, pdptIndex_eq] at hs ⊢
  have hno : ∀ e, T.get (path (v / 0x1000)) 2 4 ≠ some (.leaf e) := by
    intro e hg
    apply hhuge
    rw [PageTree.Huge, Tree.find_of_get (by omega) hg fun _ _ _ => rfl]
    exact ⟨e, rfl⟩
  have hs₁ := (fromPd_later _ _ _).supplied hs
  obtain ⟨T₁, f₁, hst₁, _, hl₁, hto⟩ :=
    enterSplit_spec (0x1000 * 512) h (by omega) (by omega) hl hno hs₁
  have ht₁ := ht.ensureEntry h.ok hlt hal hbit ((splitEntry_later _ _ _).supplied hs₁)
  have hg := (ensureEntry_later k (k.virt f + 8 * (path (v / 0x1000) 2).val)).1
  rw [← splitPdptEntry] at hst₁ hto
  rw [hto] at hs ⊢
  rw [splitPdptEntry] at hs hst₁ hs₁ ⊢
  generalize k.ensureEntry (k.virt f + 8 * (path (v / 0x1000) 2).val) = k₁ at hs hs₁ ht₁ hst₁ hg ⊢
  have hvirt : k.virt = k₁.virt := (congrArg Globals.virt hg).symm
  rw [hvirt] at hs hs₁ hst₁ ⊢
  have ht₂ := ht₁.splitEntry (by rw [hg]; exact h.ok) hlt hal (by rw [hg]; exact hbit) hs₁
  generalize k₁.splitEntry (k₁.virt f + 8 * (path (v / 0x1000) 2).val) (0x1000 * 512) = k₂
    at hs ht₂ hst₁ ⊢
  have hvirt₂ : k₁.virt = k₂.virt := by
    rw [← hvirt]
    exact (congrArg Globals.virt hst₁.within.globals).symm
  rw [hvirt₂] at hs ⊢
  exact fromPd_tallied hst₁.owned hl₁ hs ht₂

theorem descend_tallied (h : Owned k root T) (hhuge : ¬ PageTree.Huge T (v / 0x1000))
    (hs : (k.descend (k.virt root) v).2.Supplied) (ht : k.Tallied) :
    (k.descend (k.virt root) v).2.Tallied := by
  have hl₀ := h.stored.loc_zero (v / 0x1000)
  obtain ⟨hal, hlt, _, hbit⟩ := h.frame hl₀
  rw [descend_eq, pml4Index_eq] at hs ⊢
  have hs₁ := (fromPdpt_later _ _ _).supplied hs
  obtain ⟨T₁, f₁, hst₁, hsp, _, hl₁, hto, _⟩ := enter_spec h (by omega) hl₀ h.stored.root_table hs₁
  have ht₁ := ht.ensureEntry h.ok hlt hal hbit hs₁
  rw [hto] at hs ⊢
  generalize k.ensureEntry (k.virt root + 8 * (path (v / 0x1000) 3).val) = k₁ at hs ht₁ hst₁ ⊢
  rw [← congrArg Globals.virt hst₁.within.globals] at hs ⊢
  exact fromPdpt_tallied hst₁.owned (fun ⟨e, he⟩ => hhuge ⟨e, hsp.large _ 2 e (by omega) he⟩) hl₁ hs
    ht₁

theorem vmmMapPagePml4_tallied {pa flags : Nat} (h : Owned k root T) (hfit : PageTree.Fits T)
    (hhuge : ¬ PageTree.Huge T (v / 0x1000))
    (hs : (k.vmmMapPagePml4 (k.virt root) pa v flags).Supplied) (ht : k.Tallied) :
    (k.vmmMapPagePml4 (k.virt root) pa v flags).Tallied := by
  rw [vmmMapPagePml4_eq] at hs ⊢
  have hs₁ := (st64_later _ _ _).supplied hs
  obtain ⟨T', f, hst, _, hl, hptr⟩ := descend_spec h hfit hhuge hs₁
  have ht' := descend_tallied h hhuge hs₁ ht
  rw [hptr]
  generalize (k.descend (k.virt root) v).2 = k' at hst ht' ⊢
  obtain ⟨hal, hlt, _, hbit⟩ := hst.owned.frame hl
  rw [← congrArg Globals.virt hst.within.globals]
  exact ht'.st64 hst.owned.ok.toPmmOk hlt hal hbit _ _

theorem vmmUnmapPage_tallied (h : Owned k root T) (hr : k.pml4 = k.virt root)
    (hfit : PageTree.Fits T) (hhuge : ¬ PageTree.Huge T (v / 0x1000))
    (hs : (k.vmmUnmapPage v).Supplied) (ht : k.Tallied) : (k.vmmUnmapPage v).Tallied := by
  rw [vmmUnmapPage_eq, hr] at hs ⊢
  have hs₁ := (st64_later _ _ _).supplied hs
  obtain ⟨T', f, hst, _, hl, hptr⟩ := descend_spec h hfit hhuge hs₁
  have ht' := descend_tallied h hhuge hs₁ ht
  rw [hptr]
  generalize (k.descend (k.virt root) v).2 = k' at hst ht' ⊢
  obtain ⟨hal, hlt, _, hbit⟩ := hst.owned.frame hl
  rw [← congrArg Globals.virt hst.within.globals]
  exact ht'.st64 hst.owned.ok.toPmmOk hlt hal hbit _ _

end Descent

end BambooOS
