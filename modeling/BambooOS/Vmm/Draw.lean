import BambooOS.Pmm.Order
import BambooOS.Vmm.Free

/-!
# Vmm.Draw

The frames the page-table code takes, in the allocator's order.

* `ensureEntry_drew`: making an entry present takes the first free frame, or none.
* `PageTree.missing`: the levels at which a page has no entry; `missing_deepened`: one level down
  the rest is still missing.
* `pmmFree_drew`: giving back a frame of the window takes one frame at most, for the split of the
  2 MiB leaf over its window page.
-/

namespace BambooOS

open ByteMem Radix Kernel

/-- The entries that are missing over the page `q` more than `d` levels down. -/
def PageTree.missing (T : PageTree) (q d : Nat) : Nat :=
  [1, 2, 3, 4].countP fun n => decide (d < n) && (T.under (path q) n 4).isNone

section Missing

variable {T T' : PageTree} {q d n : Nat}

theorem missing_step (T : PageTree) (q : Nat) (hd : d < 4) :
    T.missing q d = (T.under (path q) (d + 1) 4).isNone.toNat + T.missing q (d + 1) := by
  simp only [PageTree.missing, List.countP_cons, List.countP_nil]
  rcases (by omega : d = 0 ∨ d = 1 ∨ d = 2 ∨ d = 3) with rfl | rfl | rfl | rfl <;>
    simp [Bool.toNat, Bool.cond_eq_ite] <;> omega

/-- Deeper levels are missing as before. -/
theorem missing_deepened (h : Deepened n q T T') : T'.missing q (n + 1) = T.missing q (n + 1) := by
  simp only [PageTree.missing]
  refine List.countP_congr fun m hm => ?_
  have hm4 : m ≤ 4 := by simp only [List.mem_cons, List.not_mem_nil, or_false] at hm; omega
  by_cases hlt : n + 1 < m
  · rw [h.under q m hm4 fun hle => by omega]
  · simp [hlt]

end Missing

/-! ## Single entries -/

section Entries

variable {k k' : Kernel} {root f n q : Nat} {i : Fin 512} {T : PageTree}

theorem Kernel.Grown.drew {w g : Nat} (hk : k.PmmOk) (h : Grown k f i w g k') : Drew 1 k k' :=
  .take hk h.within.globals h.mem_free h.first h.free

theorem Kernel.Wrote.drew {w : Nat} (hk : k.PmmOk) (h : Wrote k f i w k') (hb : f ∉ k.Bitmap) :
    Drew 0 k k' := .of_subset hk h.within.globals (h.free hk hb).ge

theorem ensureEntry_drew (h : Owned k root T) (hn : n < 4)
    (hl : T.loc fmt.base (path q) n 4 = some (f, i))
    (hs : (k.ensureEntry (k.virt f + 8 * i.val)).Supplied) :
    Drew (T.under (path q) (n + 1) 4).isNone.toNat k (k.ensureEntry (k.virt f + 8 * i.val)) := by
  obtain ⟨hal, hlt, hfree, hbit⟩ := h.frame hl
  have hpresent : Present (k.rd f i) →
      Drew (T.under (path q) (n + 1) 4).isNone.toNat k (k.ensureEntry (k.virt f + 8 * i.val)) := by
    intro hp
    rw [ensureEntry_present h.ok hlt hp]
    exact (Drew.refl k).mono (Nat.zero_le _)
  rcases h.stored.slot_cases hn hl with ⟨hg, hv⟩ | ⟨e, _, hv, hp, _⟩ | ⟨e, _, _, hv, hp, _⟩
  · obtain ⟨g, hgr, _⟩ := ensureEntry_grown h.ok h.held hlt hal hfree hbit i hv hs
    rw [Tree.under_of_get hg]
    exact hgr.drew h.ok.toPmmOk
  · exact hpresent (hv ▸ hp)
  · exact hpresent (hv ▸ hp)

theorem splitEntry_drew (h : Owned k root T) (hl : T.loc fmt.base (path q) n 4 = some (f, i))
    (size : Nat) (hs : (k.splitEntry (k.virt f + 8 * i.val) size).Supplied) :
    Drew 1 k (k.splitEntry (k.virt f + 8 * i.val) size) := by
  obtain ⟨hal, hlt, hfree, hbit⟩ := h.frame hl
  by_cases hlar : Larger (k.rd f i)
  · obtain ⟨g, hgr, _⟩ := splitEntry_grown h.ok h.held hlt hal hfree hbit i hlar hs
    exact hgr.drew h.ok.toPmmOk
  · rw [splitEntry_small h.ok hlt size hlar]
    exact (Drew.refl k).mono (Nat.zero_le _)

end Entries

/-! ## Giving a table back -/

section Free

variable {k : Kernel} {root f v a : Nat} {C : PageTree} {F : Set Nat}

/-- The descent to a page that is mapped, by a 4 KiB or a 2 MiB leaf. -/
theorem descend_drew (h : Owned k root C) (hx : PageTree.xlate C (v / 0x1000) = some a)
    (hhuge : ¬ PageTree.Huge C (v / 0x1000)) (hs : (k.descend (k.virt root) v).2.Supplied) :
    Drew 1 k (k.descend (k.virt root) v).2 := by
  rcases Tree.get_cases (p := path (v / 0x1000)) 4 4 C (Nat.le_refl 4) with ⟨t, hg⟩ | ⟨hf, _⟩ |
    ⟨m, e, hm, hg, hf⟩
  · obtain ⟨f₃, hl⟩ := Tree.exists_loc_of_get (b := fmt.base) (n := 3) hg
    rw [descend_walked h hl]
    exact (Drew.refl k).mono (Nat.zero_le 1)
  · rw [PageTree.xlate, PageTree.xlateFrom, hf] at hx
    cases hx
  · rcases (by omega : m = 0 ∨ m = 1 ∨ m = 2 ∨ m = 3) with rfl | rfl | rfl | rfl
    · have hroot := h.stored.loc_zero (v / 0x1000)
      obtain ⟨e', sub, hg', _⟩ := Tree.exists_get_of_loc hroot
      rw [hg] at hg'
      cases hg'
    · exact absurd hg (h.stored.root_table e)
    · exact absurd ⟨e, hf⟩ hhuge
    · obtain ⟨f₂, hl⟩ := Tree.exists_loc_of_get (b := fmt.base) (n := 2) hg
      obtain ⟨_, hlt, _, _⟩ := h.frame hl
      rw [descend_pd h hl] at hs ⊢
      simp only [fromPd, splitPdEntry, pdIndex_eq] at hs ⊢
      have hp : Present (k.rd f₂ (path (v / 0x1000) 1)) := by
        rcases h.stored.slot_cases (by omega) hl with ⟨hg', _⟩ | ⟨e', _, hv, hp, _⟩ |
          ⟨e', _, _, hv, hp, _⟩
        · rw [hg] at hg'
          cases hg'
        · exact hv ▸ hp
        · exact hv ▸ hp
      rw [ensureEntry_present h.ok hlt hp] at hs ⊢
      exact splitEntry_drew h hl _ hs

theorem pmmFree_drew (h : Owned k root C) (hr : k.pml4 = k.virt root)
    (hw : Window k.toGlobals C F) (hal : ∀ x ∈ F, x % 0x1000 = 0) (hf : f ∈ F) (hlt : f < 2 ^ 52)
    (hC : f ∉ C.frames fmt.base) (hbit : f ∉ k.Bitmap) (hs : (k.pmmFree (k.virt f)).Supplied) :
    Drew 1 k (k.pmmFree (k.virt f)) := by
  have hfal := hal f hf
  have hha := hw.aligned
  have hpage : pageOf f = f := pageOf_self hfal
  have hval : k.virt f % 0x1000 = 0 := by
    rw [hw.virt_eq hf]
    omega
  have hphys := vmmVirtToPhys_aligned h.ok h.stored hr hval
  cases hx : PageTree.xlate C (k.virt f / 0x1000) with
  | none =>
    rw [hx] at hphys
    rw [pmmFree_refused h.ok hphys (.inl rfl)]
    exact (Drew.refl k).mono (Nat.zero_le 1)
  | some a =>
    obtain rfl := hw.virt f hf a hx
    rw [hx, Option.getD_some] at hphys
    rw [pmmFree_eq h.ok hphys (by simp only [uint64Max]; omega) (by rwa [hpage])] at hs ⊢
    obtain ⟨hO, hwin, hfree⟩ := released_spec h (by rwa [hpage]) (by rwa [hpage])
    have hrel : Drew 0 k (k.released a) := .of_subset h.ok.toPmmOk hwin.globals fun x hx =>
      (hfree x).mpr (.inl hx)
    have hvirt : k.virt = (k.released a).virt := (congrArg Globals.virt hwin.globals).symm
    have hno : ¬ PageTree.Huge C ((k.released a).virt a / 0x1000) := hvirt ▸ hw.no_huge a hf
    rw [hvirt] at hx
    rw [hr, hvirt, vmmMapPagePml4_eq] at hs ⊢
    have hsd := (st64_later _ _ _).supplied hs
    have hdesc := descend_drew hO hx hno hsd
    obtain ⟨T', g, hstep, _, hl, hptr⟩ := descend_spec hO hw.fits hno hsd
    rw [hptr]
    generalize ((k.released a).descend ((k.released a).virt root) ((k.released a).virt a)).2 = k₂
      at hdesc hstep ⊢
    rw [← congrArg Globals.virt hstep.within.globals]
    obtain ⟨hgal, hglt, _, hgbit⟩ := hstep.owned.frame hl
    change Drew (0 + 1 + 0) k _
    refine (hrel.trans hdesc).trans ?_
    exact (st64_wrote hstep.owned.ok.hhdm_lt hglt hgal
      (pageEntry_lt (k.released a) a (by decide))).drew hstep.owned.ok.toPmmOk hgbit

end Free

end BambooOS
