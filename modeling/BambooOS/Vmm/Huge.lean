import BambooOS.Vmm.Boot
import BambooOS.Vmm.Page

/-!
# Vmm.Huge

Mapping and unmapping a page inside a 1 GiB leaf. The split of a PDPT entry leaves the
larger-pages bit of the 512 new PD entries clear, so the data they point to is taken for PTs.

* `descend_huge`: the descent ends in the mapped data itself.
* `store_huge`: so the store that follows hits the data.
* `huge_not_kept`: no map and no unmap inside a 1 GiB leaf keeps the address space.
-/

namespace BambooOS

open Radix Kernel

/-- The events of a run from `k` to `k'`, newest first. -/
def newEvents (k k' : Kernel) : List Event := k'.trace.take (k'.trace.length - k.trace.length)

theorem newEvents_append {k k' : Kernel} {es : List Event} (h : k'.trace = es ++ k.trace) :
    newEvents k k' = es := by
  simp [newEvents, h]

/-- The event writes the byte `a`. -/
def Event.Writes (a : Nat) : Event → Prop
  | .store s n => s ≤ a ∧ a < s + n
  | _ => False

/-- The walk of `vmm_virt_to_phys` over the tree at `p`. -/
def Kernel.walkAt (k : Kernel) (p v : Nat) : Nat := ({ k with pml4 := p } : Kernel).vmmVirtToPhys v

section Huge

variable {k : Kernel} {root v e : Nat} {T : PageTree}

/-- Below a 1 GiB leaf the descent takes one frame, for the split, and reaches no table: its PT
pointer is into the leaf's data. -/
theorem descend_huge (h : Owned k root T) (hhuge : T.find (path (v / 0x1000)) 4 = some (2, e))
    (hfit : vmmPtEntryGetAddress e + 2 ^ 30 ≤ 2 ^ 52) :
    ∃ f i, T.loc fmt.base (path (v / 0x1000)) 1 4 = some (f, i) ∧
      Later (k.splitPdptEntry (k.virt f + 8 * i.val)) (k.descend (k.virt root) v).2 ∧
      ((k.splitPdptEntry (k.virt f + 8 * i.val)).Supplied →
        k.descend (k.virt root) v =
          (k.virt (vmmPtEntryGetAddress e + (path (v / 0x1000) 1).val * (0x1000 * 512)) +
            8 * (path (v / 0x1000) 0).val, k.splitPdptEntry (k.virt f + 8 * i.val)) ∧
        ∃ g, Grown k f i (freshEntry g) g (k.splitPdptEntry (k.virt f + 8 * i.val))) := by
  generalize hq : v / 0x1000 = q at *
  simp only [Kernel.descend, pml4Index_eq, pdptIndex_eq, pdIndex_eq, ptIndex_eq, hq]
  have hl₀ := h.stored.loc_zero q
  have hfind : ∀ {n t}, n ≤ 4 → T.get (path q) n 4 = some t →
      T.find (path q) 4 = t.find (path q) (4 - n) :=
    fun hn hg => Tree.find_of_get hn hg fun _ _ _ => rfl
  -- the PML4 entry points to a PDPT
  obtain ⟨e₁, sub, hg₁, hv₁, hp₁, _, _, hl₁⟩ : ∃ e sub, T.get (path q) 1 4 = some (.table e sub) ∧
      k.rd root (path q 3) = e ∧ Present e ∧ 0 < 3 ∧ (0 = 0 ∨ ¬ Larger e) ∧
      T.loc fmt.base (path q) 1 4 = some (vmmPtEntryGetAddress e, path q 2) := by
    rcases h.stored.slot_cases (by omega) hl₀ with ⟨hg, _⟩ | ⟨e', hg, _, _, hlev⟩ | hc
    · rw [hfind (by omega) hg] at hhuge
      cases hhuge
    · omega
    · exact hc
  -- whose entry is the leaf
  obtain ⟨hv₂, hp₂, hlar⟩ : k.rd (vmmPtEntryGetAddress e₁) (path q 2) = e ∧ Present e ∧ Larger e := by
    rcases h.stored.slot_cases (by omega) hl₁ with ⟨hg, _⟩ | ⟨e', hg, hv, hp, hlev⟩ |
      ⟨e', sub', hg, _⟩
    · rw [hfind (by omega) hg] at hhuge
      cases hhuge
    · rw [hfind (by omega) hg] at hhuge
      simp only [Tree.find, Option.some.injEq, Prod.mk.injEq] at hhuge
      obtain ⟨_, rfl⟩ := hhuge
      exact ⟨hv, hp, (hlev.resolve_left (by omega)).2⟩
    · rw [hfind (by omega) hg] at hhuge
      have := Tree.find_level_le (show (sub' (path q 1)).find (path q) 1 = some (2, e) from hhuge)
      omega
  obtain ⟨hal₁, hlt₁, hfree₁, hbit₁⟩ := h.frame hl₁
  rw [ensureEntry_present h.ok h.stored.lt (hv₁ ▸ hp₁), tableOf_eq h.ok h.stored.lt, hv₁,
    ensureEntry_present h.ok hlt₁ (hv₂ ▸ hp₂)]
  refine ⟨_, _, hl₁, (ensureEntry_later _ _).trans (splitEntry_later _ _ _),
    fun hs => ?_⟩
  obtain ⟨g, hgr, hfill⟩ := splitEntry_grown h.ok h.held hlt₁ hal₁ hfree₁ hbit₁ (path q 2)
    (hv₂ ▸ hlar) hs
  rw [← splitPdptEntry] at hgr hfill
  refine ⟨?_, g, hgr⟩
  generalize k.splitPdptEntry (k.virt (vmmPtEntryGetAddress e₁) + 8 * (path q 2).val) = k₁
    at hgr hfill ⊢
  rw [hv₂] at hfill
  have hglt := free_lt h.ok.toPmmOk hgr.mem_free
  have hgg : vmmPtEntryGetAddress g = g :=
    getAddress_of_aligned (free_aligned h.ok.toPmmOk hgr.mem_free) (by omega)
  have hvirt : k₁.virt = k.virt := congrArg Globals.virt hgr.within.globals
  have hok₁ : k₁.VmmOk := by rw [hgr.within.globals]; exact h.ok
  rw [hgr.within.tableOf h.ok hlt₁, hgr.slot, getAddress_fresh, hgg, ← hvirt]
  -- its entries are present, and not marked as larger pages
  have hrd := hfill (path q 1)
  rw [ensureEntry_present hok₁ (by omega) (hrd ▸ present_fresh _), splitPdEntry,
    splitEntry_small hok₁ (by omega) _ (hrd ▸ not_larger_fresh _), tableOf_eq hok₁ (by omega), hrd,
    getAddress_fresh]
  have hj := (path q 1).isLt
  have hal := getAddress_aligned e
  rw [getAddress_of_aligned (by omega) (by omega)]

/-- The store after the descent hits the leaf's data. -/
theorem store_huge (h : Owned k root T) (hhuge : T.find (path (v / 0x1000)) 4 = some (2, e))
    (hfit : vmmPtEntryGetAddress e + 2 ^ 30 ≤ 2 ^ 52)
    (hs : (k.descend (k.virt root) v).2.Supplied) (w : Nat) :
    ∃ a, vmmPtEntryGetAddress e ≤ a ∧ a < vmmPtEntryGetAddress e + 2 ^ 30 ∧
      ∃ ev ∈ newEvents k ((k.descend (k.virt root) v).2.st64 (k.descend (k.virt root) v).1 w),
        ev.Writes a := by
  obtain ⟨f, i, _, hlat, hdesc⟩ := descend_huge h hhuge hfit
  rw [(hdesc (hlat.supplied hs)).1]
  have hlat : Later k (k.splitPdptEntry (k.virt f + 8 * i.val)) := splitEntry_later _ _ _
  generalize k.splitPdptEntry (k.virt f + 8 * i.val) = k' at hlat ⊢
  obtain ⟨es, hes⟩ := hlat.2
  have h₁ := (path (v / 0x1000) 1).isLt
  have h₀ := (path (v / 0x1000) 0).isLt
  let a := vmmPtEntryGetAddress e + (path (v / 0x1000) 1).val * (0x1000 * 512)
  have htr := st64_slot_trace (k := k') (f := a) (by rw [hlat.1]; exact h.ok.hhdm_lt) (by omega)
    (path (v / 0x1000) 0) w
  rw [congrArg Globals.virt hlat.1, ← hes, ← List.cons_append] at htr
  refine ⟨a + 8 * (path (v / 0x1000) 0).val, by omega, by omega, .store _ 8, ?_,
    Nat.le_refl _, by omega⟩
  rw [newEvents_append htr]
  exact List.mem_cons_self

theorem huge_supplied (h : Owned k root T) (hhuge : T.find (path (v / 0x1000)) 4 = some (2, e))
    (hfit : vmmPtEntryGetAddress e + 2 ^ 30 ≤ 2 ^ 52) {n : Nat} (hst : k.Stocked (n + 1)) :
    (k.descend (k.virt root) v).2.Supplied := by
  obtain ⟨f, i, _, _, hdesc⟩ := descend_huge h hhuge hfit
  have hs : (k.splitPdptEntry (k.virt f + 8 * i.val)).Supplied :=
    hst.splitEntry h.ok.toPmmOk _ _
  rw [(hdesc hs).1]
  exact hs

/-- An operation on the page `va` of the 1 GiB leaf that maps `[base, base + 2 ^ 30)` gave `va` the
translation `result` and kept all else. -/
structure KeepsGiB (k k' : Kernel) (p va base result : Nat) : Prop where
  others : ∀ v, v % 0x1000 = 0 → v / 2 ^ 30 = va / 2 ^ 30 → v ≠ va → k'.walkAt p v = k.walkAt p v
  page : k'.walkAt p va = result
  data : ∀ ev ∈ newEvents k k', ∀ a, base ≤ a → a < base + 2 ^ 30 → ¬ ev.Writes a

/-- Neither `vmm_map_page_pml4` nor `vmm_unmap_page` keeps a 1 GiB leaf's address space: both write
the leaf's own data, for every address inside it. -/
theorem huge_not_kept {k : Kernel} {root va e : Nat} {T : PageTree} (h : Owned k root T)
    (hhuge : T.find (path (va / 0x1000)) 4 = some (2, e))
    (hfit : vmmPtEntryGetAddress e + 2 ^ 30 ≤ 2 ^ 52) :
    (∀ pa flags, (k.vmmMapPagePml4 (k.virt root) pa va flags).Supplied →
      ¬ KeepsGiB k (k.vmmMapPagePml4 (k.virt root) pa va flags) (k.virt root) va
        (vmmPtEntryGetAddress e) pa) ∧
    (k.pml4 = k.virt root → (k.vmmUnmapPage va).Supplied →
      ¬ KeepsGiB k (k.vmmUnmapPage va) (k.virt root) va (vmmPtEntryGetAddress e) uint64Max) := by
  constructor
  · intro pa flags hs hkeep
    rw [vmmMapPagePml4_eq] at hs hkeep
    obtain ⟨a, h₁, h₂, ev, hev, hw⟩ := store_huge h hhuge hfit ((st64_later _ _ _).supplied hs) _
    exact hkeep.data ev hev a h₁ h₂ hw
  · intro hr hs hkeep
    rw [vmmUnmapPage_eq, hr] at hs hkeep
    obtain ⟨a, h₁, h₂, ev, hev, hw⟩ := store_huge h hhuge hfit ((st64_later _ _ _).supplied hs) _
    exact hkeep.data ev hev a h₁ h₂ hw

end Huge

/-! ## A machine with a 1 GiB leaf -/

def hugeSlots : List (Nat × Nat) := [(0x400000, 0x401003), (0x401000, 0x40000083)]

/-- The first GiB is mapped to the second one by a single PDPT entry. -/
def hugeTree : PageTree := .single 0x400000 0 (.single 0x401003 0 (.leaf 0x40000083))

theorem hugeTree_frames : hugeTree.frames fmt.base = {0x400000, 0x401000} := by
  rw [hugeTree, single_frames, single_frames, show vmmPtEntryGetAddress 0x400000 = 0x400000 by decide,
    show vmmPtEntryGetAddress 0x401003 = 0x401000 by decide]
  simp [Tree.frames]

theorem hugeTree_stored : Stored (bareMachine hugeSlots) 0x400000 hugeTree := by
  have hroot : vmmPtEntryGetAddress 0x400000 = 0x400000 := by decide
  have hpdpt : vmmPtEntryGetAddress 0x401003 = 0x401000 := by decide
  have hrep : hugeTree.Rep fmt (bareMachine hugeSlots).rd 4 0x400000 := by
    refine machine_single (v := 0x401003) (.inl rfl) (by decide) (by decide) ?_
    exact machine_single (v := 0x40000083) (.inr ⟨by decide, .inl rfl⟩) (by decide) (by decide)
      ⟨rfl, by decide, .inr ⟨.inr rfl, by decide⟩⟩
  refine ⟨⟨_, rfl⟩, hrep, single_sep (single_sep trivial (Set.notMem_empty _)) ?_, by decide, by decide⟩
  rw [single_frames, hroot, hpdpt]
  simp [Tree.frames]

theorem hugeMachine_owned : Owned (machine hugeSlots) 0x400000 hugeTree ∧
    (machine hugeSlots).pml4 = (machine hugeSlots).virt 0x400000 := by
  refine machine_owned hugeTree_stored ?_
  intro f hf
  rw [hugeTree_frames] at hf
  simp only [Set.mem_insert_iff, Set.mem_singleton_iff] at hf
  omega

/-- On that machine neither mapping nor unmapping the page 5 keeps the GiB. -/
theorem hugeMachine_not_kept :
    ¬ KeepsGiB (machine hugeSlots)
      ((machine hugeSlots).vmmMapPagePml4 0xFFFF800000400000 0x7000 0x5000 ptEntryReadWrite)
      0xFFFF800000400000 0x5000 0x40000000 0x7000 ∧
    ¬ KeepsGiB (machine hugeSlots) ((machine hugeSlots).vmmUnmapPage 0x5000)
      0xFFFF800000400000 0x5000 0x40000000 uint64Max := by
  obtain ⟨hO, hr⟩ := hugeMachine_owned
  have hfind : hugeTree.find (path (0x5000 / 0x1000)) 4 = some (2, 0x40000083) := by decide
  have hbase : vmmPtEntryGetAddress 0x40000083 = 0x40000000 := by decide
  have hfit : vmmPtEntryGetAddress 0x40000083 + 2 ^ 30 ≤ 2 ^ 52 := by rw [hbase]; omega
  have hsup := huge_supplied hO hfind hfit (machine_stocked hugeSlots)
  have hv : (machine hugeSlots).virt 0x400000 = 0xFFFF800000400000 := machine_virt _ (by omega)
  rw [hv] at hr
  constructor
  · intro hkeep
    obtain ⟨a, h₁, h₂, ev, hev, hw⟩ := store_huge hO hfind hfit hsup
      (vmmPtEntrySetAddress 0 ((machine hugeSlots).convertPhys 0x7000) ||| ptEntryReadWrite |||
        ptEntryPresent)
    rw [hv, ← vmmMapPagePml4_eq] at hev
    exact hkeep.data ev hev a (hbase ▸ h₁) (hbase ▸ h₂) hw
  · intro hkeep
    obtain ⟨a, h₁, h₂, ev, hev, hw⟩ := store_huge hO hfind hfit hsup 0
    rw [hv, ← hr, ← vmmUnmapPage_eq] at hev
    exact hkeep.data ev hev a (hbase ▸ h₁) (hbase ▸ h₂) hw

/-- The last page of the GiB. -/
theorem huge_not_kept_last :
    ¬ KeepsGiB (machine hugeSlots) ((machine hugeSlots).vmmMapPagePml4
      ((machine hugeSlots).virt 0x400000) 0x7000 0x3FFFF000 ptEntryReadWrite)
      ((machine hugeSlots).virt 0x400000) 0x3FFFF000 (vmmPtEntryGetAddress 0x40000083) 0x7000 ∧
    ¬ KeepsGiB (machine hugeSlots) ((machine hugeSlots).vmmUnmapPage 0x3FFFF000)
      ((machine hugeSlots).virt 0x400000) 0x3FFFF000 (vmmPtEntryGetAddress 0x40000083)
      uint64Max := by
  obtain ⟨hO, hr⟩ := hugeMachine_owned
  have hfind : hugeTree.find (path (0x3FFFF000 / 0x1000)) 4 = some (2, 0x40000083) := by decide
  have hfit : vmmPtEntryGetAddress 0x40000083 + 2 ^ 30 ≤ 2 ^ 52 := by decide
  have hsup := huge_supplied hO hfind hfit (machine_stocked hugeSlots)
  obtain ⟨hmap, hunmap⟩ := huge_not_kept hO hfind hfit
  exact ⟨hmap _ _ (hsup.st64 _ _), hunmap hr (by rw [vmmUnmapPage_eq, hr]; exact hsup.st64 _ _)⟩

end BambooOS
