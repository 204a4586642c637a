import BambooOS.Lib.Run
import BambooOS.Vmm.Boot
import BambooOS.Vmm.Page

/-!
# Vmm.Refine

`vmm_map_page` and `vmm_unmap_page` as operations on a finite map from virtual to physical pages.

* `PageMap`: the abstract address space; `PageOp.spec` what an operation means on it.
* `Tracks`: the simulation relation, kept by every operation (`tracks_step`).
* `vmmVirtToPhys_refines`: over any run, `vmm_virt_to_phys` is lookup in the map.
-/

namespace BambooOS

open Radix Kernel

/-! ## The abstract address space -/

/-- Virtual page numbers, as the walk reads them: bits 12 to 47. -/
def vpn (v : Nat) : Nat := v / 0x1000 % 2 ^ 36

theorem vpn_lt (v : Nat) : vpn v < 2 ^ 36 := Nat.mod_lt _ (by decide)

abbrev PageMap := Nat → Option Nat

inductive PageOp where
  | map (physicalAddress virtualAddress : Nat)
  | unmap (virtualAddress : Nat)
  deriving DecidableEq, Repr

def PageOp.spec (m : PageMap) : PageOp → PageMap
  | .map pa va => Function.update m (vpn va) (some pa)
  | .unmap va => Function.update m (vpn va) none

/-! ## The operations of the source -/

def PageOp.run (k : Kernel) : PageOp → Kernel
  | .map pa va => k.vmmMapPage pa va
  | .unmap va => k.vmmUnmapPage va

/-- Page-aligned arguments; a physical address is below `2 ^ 52` and not taken for a virtual one. -/
def PageOp.Valid (k : Kernel) : PageOp → Prop
  | .map pa va => pa % 0x1000 = 0 ∧ pa < 2 ^ 52 ∧ k.vmmVirtToPhys pa = uint64Max ∧
      va % 0x1000 = 0 ∧ va < 2 ^ 64
  | .unmap va => va % 0x1000 = 0 ∧ va < 2 ^ 64

/-- One operation with valid arguments that the allocator could serve. -/
def pageStep (k : Kernel) (op : PageOp) (k' : Kernel) : Prop :=
  op.Valid k ∧ k' = op.run k ∧ k'.Supplied

/-- The address space the tables of `k` stand for. -/
def pageMap (k : Kernel) : PageMap := fun p =>
  if k.vmmVirtToPhys (p * 0x1000) = uint64Max then none else some (k.vmmVirtToPhys (p * 0x1000))

/-- Every leaf of the current tree is a 4 KiB or a 2 MiB page. -/
structure SmallLeaves (T : PageTree) : Prop where
  fits : PageTree.Fits T
  no_huge : ∀ q, ¬ PageTree.Huge T q

/-! ## The simulation -/

section Pages

theorem sameBlock_zero {q r : Nat} : SameBlock 0 q r ↔ r % 2 ^ 36 = q % 2 ^ 36 := by
  rw [sameBlock_iff (by omega), Nat.pow_zero, Nat.div_one, Nat.div_one, Nat.sub_zero,
    show 512 ^ 4 = 2 ^ 36 by norm_num]

/-- The walk reads 36 bits of a page number. -/
theorem xlate_mod (T : PageTree) (q : Nat) :
    PageTree.xlate T (q % 2 ^ 36) = PageTree.xlate T q := by
  have h : SameBlock 0 q (q % 2 ^ 36) := sameBlock_zero.mpr (Nat.mod_mod _ _)
  have hfind : T.find (path (q % 2 ^ 36)) 4 = T.find (path q) 4 :=
    Tree.find_congr fun j hj => h j (Nat.zero_le j) (by omega)
  rw [PageTree.xlate, PageTree.xlate, PageTree.xlateFrom, PageTree.xlateFrom, hfind]
  rcases hf : T.find (path q) 4 with _ | ⟨l, e⟩
  · simp only [Option.map_none]
  · have hl := Tree.find_level_le hf
    have hdvd : 512 ^ l ∣ 2 ^ 36 := by
      rw [show 2 ^ 36 = 512 ^ 4 by norm_num]
      exact Nat.pow_dvd_pow 512 hl
    simp only [Option.map_some]
    rw [Nat.mod_mod_of_dvd _ hdvd]

end Pages

/-- The current tree of `k` is in order and translates by `m`. -/
def Tracks (root : Nat) (k : Kernel) (m : PageMap) : Prop :=
  ∃ T, Owned k root T ∧ k.pml4 = k.virt root ∧ SmallLeaves T ∧
    ∀ q, PageTree.xlate T q = m (q % 2 ^ 36)

section Simulation

variable {root : Nat} {k k' : Kernel} {m : PageMap}

theorem Updated.small {T T' : PageTree} {q : Nat} {o : Option Nat} (h : Updated T q o T')
    (hT : SmallLeaves T) : SmallLeaves T' where
  fits := h.fits hT.fits
  no_huge r := fun ⟨e, he⟩ => hT.no_huge r ⟨e, h.large r 2 e (by omega) he⟩

theorem Updated.tracks {T T' : PageTree} {va : Nat} {o : Option Nat}
    (h : Updated T (va / 0x1000) o T') (hm : ∀ q, PageTree.xlate T q = m (q % 2 ^ 36)) (q : Nat) :
    PageTree.xlate T' q = Function.update m (vpn va) o (q % 2 ^ 36) := by
  rw [h.xlate]
  by_cases hq : SameBlock 0 (va / 0x1000) q
  · rw [if_pos hq, sameBlock_zero.mp hq, vpn, Function.update_self]
  · rw [if_neg hq, hm, Function.update_of_ne]
    exact fun h => hq (sameBlock_zero.mpr h)

theorem tracks_step {op : PageOp} (h : Tracks root k m) (hs : pageStep k op k') :
    Tracks root k' (op.spec m) := by
  obtain ⟨T, hO, hr, hsmall, hm⟩ := h
  obtain ⟨hv, rfl, hsup⟩ := hs
  cases op with
  | map pa va =>
    obtain ⟨hpal, hplt, hun, _, _⟩ := hv
    have hconv : k.convertPhys pa = pa := by rw [convertPhys, if_neg (by rw [hun]; simp)]
    rw [PageOp.run, vmmMapPage, hr] at hsup ⊢
    obtain ⟨T', hst, hup⟩ :=
      vmmMapPagePml4_spec hO hsmall.fits (hsmall.no_huge _) (by decide) hsup
    rw [hconv, getAddress_of_aligned hpal hplt] at hup
    exact ⟨T', hst.owned, by rw [hst.within.globals]; exact hr, hup.small hsmall, hup.tracks hm⟩
  | unmap va =>
    obtain ⟨T', hst, hup⟩ := vmmUnmapPage_spec hO hr hsmall.fits (hsmall.no_huge _) hsup
    exact ⟨T', hst.owned, by rw [PageOp.run, hst.within.globals]; exact hr, hup.small hsmall,
      hup.tracks hm⟩

theorem Tracks.lookup (h : Tracks root k m) {v : Nat} (hv : v % 0x1000 = 0) :
    k.vmmVirtToPhys v = (m (vpn v)).getD uint64Max := by
  obtain ⟨T, hO, hr, _, hm⟩ := h
  rw [vmmVirtToPhys_aligned hO.ok hO.stored hr hv, hm, vpn]

theorem tracks_pageMap {T : PageTree} (hO : Owned k root T) (hr : k.pml4 = k.virt root)
    (hT : SmallLeaves T) : Tracks root k (pageMap k) := by
  refine ⟨T, hO, hr, hT, fun q => ?_⟩
  have hq : q % 2 ^ 36 * 0x1000 / 0x1000 = q % 2 ^ 36 := by omega
  have hwalk := vmmVirtToPhys_aligned hO.ok hO.stored hr (v := q % 2 ^ 36 * 0x1000) (by omega)
  have hmax := vmmVirtToPhys_eq_max hO.ok hO.stored hr (q % 2 ^ 36 * 0x1000)
  rw [hq, xlate_mod] at hwalk hmax
  simp only [pageMap]
  rcases hx : PageTree.xlate T q with _ | a
  · rw [if_pos (hmax.mpr hx)]
  · rw [if_neg (fun h => by rw [hmax.mp h] at hx; cases hx), hwalk, hx]
    rfl

end Simulation

/-- Over any run of maps and unmaps, `vmm_virt_to_phys` is lookup in the abstract map. -/
theorem vmmVirtToPhys_refines {root : Nat} {k k' : Kernel} {T : PageTree} {ops : List PageOp}
    (hO : Owned k root T) (hr : k.pml4 = k.virt root) (hT : SmallLeaves T)
    (hrun : Run.Exec pageStep k ops k') (v : Nat) (hv : v % 0x1000 = 0) :
    k'.vmmVirtToPhys v = (ops.foldl PageOp.spec (pageMap k) (vpn v)).getD uint64Max := by
  have hend : Tracks root k' (ops.foldl PageOp.spec (pageMap k)) :=
    hrun.sim (fun _ _ _ _ => tracks_step) (tracks_pageMap hO hr hT)
  exact hend.lookup hv

theorem chainTree_small : SmallLeaves chainTree where
  fits := fun q l e h => by rw [chainTree_find] at h; cases h
  no_huge := fun q ⟨e, h⟩ => by rw [chainTree_find] at h; cases h

/-- One map on a machine whose tables are in place. -/
theorem vmmVirtToPhys_refines_one :
    ((machine chainSlots).vmmMapPage 0x7000 0x3000).vmmVirtToPhys 0x3000 =
      ([PageOp.map 0x7000 0x3000].foldl PageOp.spec (pageMap (machine chainSlots))
        (vpn 0x3000)).getD uint64Max := by
  obtain ⟨hO, hr⟩ := chainMachine_owned
  have hun : (machine chainSlots).vmmVirtToPhys 0x7000 = uint64Max := by
    rw [vmmVirtToPhys_eq_max hO.ok hO.stored hr, PageTree.xlate, PageTree.xlateFrom, chainTree_find]
    rfl
  have hl : chainTree.loc fmt.base (path (0x3000 / 0x1000)) 3 4 = some (0x403000, 3) := by decide
  have hs : ((machine chainSlots).vmmMapPage 0x7000 0x3000).Supplied := by
    rw [vmmMapPage, hr, vmmMapPagePml4_eq, descend_walked hO hl]
    exact (machine_stocked chainSlots).supplied.st64 _ _
  have hstep : pageStep (machine chainSlots) (.map 0x7000 0x3000)
      ((machine chainSlots).vmmMapPage 0x7000 0x3000) :=
    ⟨⟨by decide, by decide, hun, by decide, by decide⟩, rfl, hs⟩
  exact vmmVirtToPhys_refines hO hr chainTree_small (.cons hstep .nil) 0x3000 (by decide)

end BambooOS
