import BambooOS.Vmm.Offset
import BambooOS.Vmm.Stock
import BambooOS.Vmm.Huge
import BambooOS.Vmm.Refine

/-!
# Vmm.Unmanaged

`pmm_free` of an address that the allocator does not manage. The index of such an address is the
sentinel `UINT64_MAX`, which passes the test meant for the bitmap's own pages: no bit is cleared,
but the higher-half page of the address is mapped all the same.

* `map_untouched`: a map changes nothing exactly when the entry it writes is already there.
* `pmmFree_unmanaged`: when the call leaves bitmap, counter and tables as they were.
-/

namespace BambooOS

open Radix Kernel

/-- The allocation bitmap, its counter and every entry of the tables are the same. -/
structure Untouched (T : PageTree) (k k' : Kernel) : Prop where
  bitmap : ∀ x, pageOf x ∈ k.Bitmap → k'.mem x = k.mem x
  count : k'.pmmNumAllocatedPages = k.pmmNumAllocatedPages
  entries : ∀ f ∈ T.frames fmt.base, ∀ i, k'.rd f i = k.rd f i

theorem Untouched.refl (T : PageTree) (k : Kernel) : Untouched T k k :=
  ⟨fun _ _ => rfl, rfl, fun _ _ _ => rfl⟩

section Unmanaged

variable {k k' : Kernel} {root a q e : Nat} {T : PageTree}

theorem Untouched.stored (hu : Untouched T k k') (h : Stored k root T) : Stored k' root T :=
  ⟨h.table, h.rep.congr hu.entries, h.sep, h.aligned, h.lt⟩

section Map

variable {pa va flags : Nat}

theorem map_untouched_of_page (h : Owned k root T) (hflags : flags < 2 ^ 12)
    (hf : T.find (path (va / 0x1000)) 4 = some (0, k.pageEntry pa flags)) :
    Untouched T k (k.vmmMapPagePml4 (k.virt root) pa va flags) := by
  have hlt := pageEntry_lt k pa hflags
  obtain ⟨f, hl, hv, _⟩ := h.stored.slot_of_leaf (by omega) hf
  obtain ⟨hal, hflt, _, hbit⟩ := h.frame hl
  rw [vmmMapPagePml4_eq, descend_walked h hl, ← pageEntry]
  refine ⟨fun x hx => ?_, rfl, fun g hg i => ?_⟩
  · refine st64_slot_kept h.ok.hhdm_lt hflt _ hal _ x ?_
    rintro rfl
    exact hbit hx
  · rw [st64_slot_rd h.ok.hhdm_lt hflt _ hal hlt (frames_spec hg).1]
    split
    · rename_i hgf
      rw [hgf.1, hgf.2, hv]
    · rfl

/-- A map inside a 1 GiB leaf overwrites its entry. -/
theorem map_huge_touches (h : Owned k root T) (hfit : PageTree.Fits T)
    (hhuge : PageTree.Huge T (va / 0x1000))
    (hs : (k.vmmMapPagePml4 (k.virt root) pa va ptEntryReadWrite).Supplied) :
    ¬ Untouched T k (k.vmmMapPagePml4 (k.virt root) pa va ptEntryReadWrite) := by
  intro hu
  obtain ⟨e, he⟩ := hhuge
  have hfit : vmmPtEntryGetAddress e + 2 ^ 30 ≤ 2 ^ 52 := by
    have := hfit _ _ _ he
    norm_num at this ⊢
    exact this
  obtain ⟨f, i, hl, hlat, hdesc⟩ := descend_huge h he hfit
  obtain ⟨hal, hlt, _, _⟩ := h.frame hl
  -- before, the slot is the leaf
  have hlar : Larger (k.rd f i) := by
    obtain ⟨f', hl', hv, _, hlev⟩ := h.stored.slot_of_leaf (by omega) he
    cases hl.symm.trans hl'
    exact hv ▸ hlev.resolve_left (by omega)
  have hvlt : k.pageEntry pa ptEntryReadWrite < 2 ^ 64 := pageEntry_lt k pa (by decide)
  have hnl : ¬ Larger (k.pageEntry pa ptEntryReadWrite) := by
    rw [pageEntry, larger_or, larger_or, larger_setAddress]
    decide
  rw [vmmMapPagePml4_eq, ← pageEntry] at hs hu
  obtain ⟨heq, g, hgr⟩ := hdesc (hlat.supplied ((st64_later _ _ _).supplied hs))
  rw [heq] at hu
  have hsame := hu.entries f (Tree.loc_mem hl) i
  generalize k.splitPdptEntry (k.virt f + 8 * i.val) = k₁ at hgr hsame
  have hj := (path (va / 0x1000) 1).isLt
  have hbal := getAddress_aligned e
  have hslot := hgr.slot
  have hhd : k₁.hhdm < 2 ^ 64 := by
    rw [hgr.within.globals]
    exact h.ok.hhdm_lt
  rw [show k.virt = k₁.virt from (congrArg Globals.virt hgr.within.globals).symm,
    st64_slot_rd hhd (by omega) _ (by omega) hvlt hal] at hsame
  rw [← hsame] at hlar
  split at hlar
  · exact hnl hlar
  · rw [hslot] at hlar
    exact not_larger_fresh _ hlar

/-- A served map touches nothing exactly when the page has its entry already. -/
theorem map_untouched (h : Owned k root T) (hfit : PageTree.Fits T)
    (hs : (k.vmmMapPagePml4 (k.virt root) pa va ptEntryReadWrite).Supplied)
    (hu : Untouched T k (k.vmmMapPagePml4 (k.virt root) pa va ptEntryReadWrite)) :
    T.find (path (va / 0x1000)) 4 = some (0, k.pageEntry pa ptEntryReadWrite) := by
  by_cases hhuge : PageTree.Huge T (va / 0x1000)
  · exact absurd hu (map_huge_touches h hfit hhuge hs)
  · obtain ⟨T', t, _, hg, _, hst⟩ := vmmMapPagePml4_put h hfit hhuge (by decide) hs
    -- the same memory stores the tree of before and the tree of afterwards
    have hold := (hu.stored h.stored).hardwareWalk (va / 0x1000)
    rw [hst.owned.stored.hardwareWalk,
      Tree.find_put_same (by omega) hg fun _ _ _ => rfl] at hold
    exact hold.symm

end Map

/-- With three frames in stock the map of a page that has no entry creates one. -/
theorem free_touches {v : Nat} (h : Owned k root T) (hr : k.pml4 = k.virt root)
    (hT : SmallLeaves T) (ha : k.vmmVirtToPhys v = a) (hne : a ≠ uint64Max)
    (hun : ¬ Usable k.memmapEntries a) (hst : k.Stocked 3)
    (hnone : T.find (path (k.virt a / 0x1000)) 4 = none) : ¬ Untouched T k (k.pmmFree v) := by
  intro hu
  rw [pmmFree_unusable h.ok ha hne hun] at hu
  have hO := h.log (.free a)
  have hr₁ : (k.log (.free a)).pml4 = (k.log (.free a)).virt root := hr
  have hst₁ : (k.log (.free a)).Stocked 3 :=
    hst.of_free (by simpa [Supplied] using hst.supplied) (free_congr h.ok.toPmmOk rfl fun _ _ => rfl)
  have hs := descend_stocked (n := 0) hO hr₁ (hT.no_huge (k.virt a / 0x1000)) hst₁
  rw [hr] at hu
  have hf := map_untouched hO hT.fits (hs.st64 _ _) ⟨hu.bitmap, hu.count, hu.entries⟩
  rw [hnone] at hf
  cases hf

end Unmanaged

/-- Freeing an address that is not usable memory, or is the bitmap's, changes nothing if it has no
translation, is the bitmap's, or its higher-half page already has the very entry that the call
writes; and, where the call finds its page tables, only then. -/
theorem pmmFree_unmanaged {k : Kernel} {root v a : Nat} {T : PageTree} (h : Owned k root T)
    (hr : k.pml4 = k.virt root) (hfit : PageTree.Fits T) (ha : k.vmmVirtToPhys v = a)
    (hun : ¬ Usable k.memmapEntries a ∨ pageOf a ∈ k.Bitmap) :
    ((a = uint64Max ∨ pageOf a ∈ k.Bitmap ∨
        hardwareWalk k.rd (k.virt a / 0x1000) 4 root = some (0, k.pageEntry a ptEntryReadWrite)) →
      Untouched T k (k.pmmFree v)) ∧
    ((k.pmmFree v).Supplied → Untouched T k (k.pmmFree v) →
      a = uint64Max ∨ pageOf a ∈ k.Bitmap ∨
        hardwareWalk k.rd (k.virt a / 0x1000) 4 root =
          some (0, k.pageEntry a ptEntryReadWrite)) := by
  by_cases hmax : a = uint64Max
  · rw [pmmFree_refused h.ok ha (.inl hmax)]
    exact ⟨fun _ => .refl T k, fun _ _ => .inl hmax⟩
  by_cases hbit : pageOf a ∈ k.Bitmap
  · rw [pmmFree_refused h.ok ha (.inr hbit)]
    exact ⟨fun _ => .refl T k, fun _ _ => .inr (.inl hbit)⟩
  -- the tests are passed, and the map is all that is done
  rw [pmmFree_unusable h.ok ha hmax (hun.resolve_right hbit), hr, h.stored.hardwareWalk]
  have hO := h.log (.free a)
  have hentry : (k.log (.free a)).pageEntry a ptEntryReadWrite = k.pageEntry a ptEntryReadWrite := rfl
  constructor
  · rintro (hc | hc | hc)
    · exact absurd hc hmax
    · exact absurd hc hbit
    · obtain ⟨h₁, h₂, h₃⟩ := map_untouched_of_page hO (by decide) (hentry ▸ hc)
      exact ⟨h₁, h₂, h₃⟩
  · intro hs hu
    have := map_untouched hO hfit hs ⟨hu.bitmap, hu.count, hu.entries⟩
    exact .inr (.inr this)

/-! ## A page outside usable memory -/

theorem pageTree_small : SmallLeaves pageTree where
  fits := by
    intro q l e h
    obtain ⟨rfl, rfl⟩ := pageTree_find h
    decide
  no_huge := by
    rintro q ⟨e, h⟩
    cases (pageTree_find h).1

theorem pageMachine_phys : (machine pageSlots).vmmVirtToPhys 0x3000 = 0x7000 := by
  rw [vmmVirtToPhys_eq pageMachine_owned.1.ok pageMachine_owned.1.stored pageMachine_owned.2,
    show pageTree.find (path (0x3000 / 0x1000)) 4 = some (0, 0x7003) by decide]
  decide

theorem pageMachine_unusable : ¬ Usable (machine pageSlots).memmapEntries 0x7000 := by
  rw [machine_toGlobals]
  intro hu
  have := machine_usable.mp hu
  omega

/-- Page 3 maps the frame `0x7000`, which is not usable memory. Freeing it creates tables. -/
theorem pageMachine_free_touches :
    (machine pageSlots).vmmVirtToPhys 0x3000 = 0x7000 ∧
    ¬ Usable (machine pageSlots).memmapEntries 0x7000 ∧
    ¬ Untouched pageTree (machine pageSlots) ((machine pageSlots).pmmFree 0x3000) := by
  obtain ⟨h, hr⟩ := pageMachine_owned
  refine ⟨pageMachine_phys, pageMachine_unusable, ?_⟩
  have hst : (machine pageSlots).Stocked 3 := (machine_stocked pageSlots).mono (by decide)
  refine free_touches h hr pageTree_small pageMachine_phys (by decide) pageMachine_unusable hst ?_
  rw [machine_virt _ (by omega)]
  decide

/-- Freeing page 3 creates tables; freeing it again finds the entry in place and touches nothing. -/
theorem pmmFree_unmanaged_twice :
    ¬ Untouched pageTree (machine pageSlots) ((machine pageSlots).pmmFree 0x3000) ∧
    ∃ T', Owned ((machine pageSlots).pmmFree 0x3000) 0x400000 T' ∧
      Untouched T' ((machine pageSlots).pmmFree 0x3000)
        (((machine pageSlots).pmmFree 0x3000).pmmFree 0x3000) := by
  obtain ⟨h, hr⟩ := pageMachine_owned
  have hv : (machine pageSlots).virt 0x7000 = 0xFFFF800000007000 := machine_virt _ (by omega)
  have hst : (machine pageSlots).Stocked 3 := (machine_stocked pageSlots).mono (by decide)
  have hO := h.log (.free 0x7000)
  have hno := pageTree_small.no_huge ((machine pageSlots).virt 0x7000 / 0x1000)
  have hfree := pmmFree_unusable h.ok pageMachine_phys (by decide) pageMachine_unusable
  rw [hr] at hfree
  have hs : ((machine pageSlots).pmmFree 0x3000).Supplied := by
    rw [hfree]
    refine (descend_stocked (n := 0) hO hr hno ?_).st64 _ _
    exact hst.of_free (by simpa [Supplied] using hst.supplied)
      (free_congr h.ok.toPmmOk rfl fun _ _ => rfl)
  refine ⟨fun hu => ?_, ?_⟩
  · have hbit : pageOf 0x7000 ∉ (machine pageSlots).Bitmap := by
      rw [machine_toGlobals, machine_bitmap]
      decide
    have hnone : hardwareWalk (machine pageSlots).rd ((machine pageSlots).virt 0x7000 / 0x1000) 4
        0x400000 = none := by
      rw [h.stored.hardwareWalk, hv]
      decide
    have hwhen := (pmmFree_unmanaged h hr pageTree_small.fits pageMachine_phys
      (.inl pageMachine_unusable)).2 hs hu
    rw [hnone] at hwhen
    rcases hwhen with hmax | hb | hsome
    · exact absurd hmax (by decide)
    · exact hbit hb
    · cases hsome
  · rw [hfree] at hs
    have hflags : ptEntryReadWrite < 2 ^ 12 := by decide
    obtain ⟨T', t, ho, hg, _, hstep⟩ := vmmMapPagePml4_put hO pageTree_small.fits hno hflags hs
    have hup := updated_leaf (v := ((machine pageSlots).log (.free 0x7000)).pageEntry 0x7000
      ptEntryReadWrite) ho.toSplit hg
    rw [show ((machine pageSlots).log (.free 0x7000)).virt 0x400000 =
      (machine pageSlots).virt 0x400000 from rfl, ← hfree] at hstep
    generalize (machine pageSlots).pmmFree 0x3000 = k' at hstep
    have hglob : k'.toGlobals = (machine pageSlots).toGlobals := hstep.within.globals
    have hr' : k'.pml4 = k'.virt 0x400000 := by rw [hglob]; exact hr
    have hv' : k'.virt 0x7000 = 0xFFFF800000007000 := by rw [hglob]; exact hv
    have hk' := hstep.owned
    rw [hv] at hg hup hk'
    -- page 3 and page 7 are translated as before
    have hphys : k'.vmmVirtToPhys 0x3000 = 0x7000 := by
      rw [vmmVirtToPhys_aligned hk'.ok hk'.stored hr' (by decide), hup.xlate,
        if_neg (by rw [sameBlock_zero]; decide)]
      decide
    have hconv : ∀ k : Kernel, k.vmmVirtToPhys 0x7000 = uint64Max → k.convertPhys 0x7000 = 0x7000 := by
      intro k hmax
      rw [convertPhys, hmax, if_neg (by simp)]
    have hlow : k'.vmmVirtToPhys 0x7000 = uint64Max := by
      rw [vmmVirtToPhys_eq_max hk'.ok hk'.stored hr', hup.xlate, if_neg (by rw [sameBlock_zero]; decide)]
      decide
    have hlow₀ : ((machine pageSlots).log (.free 0x7000)).vmmVirtToPhys 0x7000 = uint64Max :=
      (vmmVirtToPhys_eq_max hO.ok hO.stored hr _).mpr (by decide)
    have hentry : hardwareWalk k'.rd (k'.virt 0x7000 / 0x1000) 4 0x400000 =
        some (0, k'.pageEntry 0x7000 ptEntryReadWrite) := by
      rw [hk'.stored.hardwareWalk, hv', Tree.find_put_same (by omega) hg fun _ _ _ => rfl,
        Kernel.pageEntry, Kernel.pageEntry, hconv _ hlow₀, hconv _ hlow]
      rfl
    have hun' : ¬ Usable k'.memmapEntries 0x7000 := by rw [hglob]; exact pageMachine_unusable
    exact ⟨_, hk', (pmmFree_unmanaged hk' hr' (hup.fits pageTree_small.fits) hphys (.inl hun')).1
      (.inr (.inr hentry))⟩

end BambooOS
