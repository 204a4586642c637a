import BambooOS.Vmm.Bulk
import Mathlib.Data.Nat.ModEq

/-!
# Vmm.Alignment

The physical addresses of the large leaves that `vmm_map_pages_pml4` sets. It chooses the size of a
leaf by the virtual indices and the count alone.

* `LoopHead`: the states its loop comes by. They name one page after the other (`Paced`).
* `Paced.reach`: the first block of the range that is large enough is met at its first page.
* `vmmMapPagesPml4_aligned`: the leaves are aligned exactly when the physical range is as far into
  its blocks as the virtual one, for every size of block in the range.
-/

namespace BambooOS

open ByteMem Radix Kernel

/-- The states at the head of the loop of one call. -/
inductive LoopHead (k : Kernel) (pPml4 pa va n : Nat) : MapCursor → Kernel → Prop where
  | start : LoopHead k pPml4 pa va n (prepare pPml4 0 (mapStart (k.convertPhys pa) va) k).1
      (prepare pPml4 0 (mapStart (k.convertPhys pa) va) k).2
  | next {c c₁ c₂ : MapCursor} {k' k₁ k₂ : Kernel} : LoopHead k pPml4 pa va n c k' → c.i < n →
      mapLeaf n c k' = (c₁, k₁) → c₁.i ≠ n - 1 → nextEntry pPml4 c₁ k₁ = some (c₂, k₂) →
      LoopHead k pPml4 pa va n { c₂ with i := c₂.i + 1 } k₂

/-- The entry an iteration marks as larger pages. -/
def largeEntry (n : Nat) (c : MapCursor) : Nat :=
  if leafLevel n c = 2 then c.pdptEntry else c.pdEntry

/-- Every entry that the call marks as larger pages holds an address that its size divides. -/
def LargeAligned (k : Kernel) (pPml4 pa va n : Nat) : Prop :=
  ∀ c k', LoopHead k pPml4 pa va n c k' → leafLevel n c ≠ 0 →
    vmmPtEntryGetAddress ((mapLeaf n c k').2.ld64 (largeEntry n c)) % leafSize (leafLevel n c) = 0

/-- The `n` pages from `q` on have a block of `512 ^ m` pages that ends more than a page before
they do, and before the last page there is. -/
def HasBlock (m q n : Nat) : Prop :=
  ∃ i, (q + i) % 512 ^ m = 0 ∧ i + 512 ^ m + 1 < n ∧ q + i < 2 ^ 36

section Entry

variable {k : Kernel} {n : Nat} {c : MapCursor}

theorem ld64_st64 (k : Kernel) (p : Nat) {v : Nat} (hv : v < 2 ^ 64) : (k.st64 p v).ld64 p = v := by
  rw [ld64, st64_toGlobals, st64, load_store_same (by norm_num; omega)]

theorem mapLeaf_large (h : leafLevel n c ≠ 0) :
    Larger ((mapLeaf n c k).2.ld64 (largeEntry n c)) ∧
      vmmPtEntryGetAddress ((mapLeaf n c k).2.ld64 (largeEntry n c)) =
        vmmPtEntryGetAddress c.currentPhys := by
  have key : ∀ (k : Kernel) p, Larger ((k.setLarge p c.currentPhys).ld64 p) ∧
      vmmPtEntryGetAddress ((k.setLarge p c.currentPhys).ld64 p) =
        vmmPtEntryGetAddress c.currentPhys := by
    intro k p
    have hlt : k.ld64 p ||| ptEntryLargerPages < 2 ^ 64 :=
      Nat.or_lt_two_pow (by have := load_lt k.mem (k.phys p) 8; rw [ld64]; omega) (by decide)
    rw [setLarge, orEntry, ld64_st64 k p hlt, ld64_st64 _ p (setAddress_lt _ _)]
    exact ⟨larger_setAddress.mpr (larger_or.mpr (.inr larger_flag)), getAddress_setAddress _ _⟩
  rw [leafLevel] at h
  rw [largeEntry, leafLevel, mapLeaf]
  split at h
  · rename_i hc
    simp only [if_pos hc]
    exact key _ _
  split at h
  · rename_i hc hc'
    simp only [if_neg hc, if_pos hc']
    exact key _ _
  · exact absurd rfl h

end Entry

/-! ## The pages named -/

/-- The cursor names page `c.i` of the range from `q` on, for the frames from `pa` on. -/
structure Paced (q pa : Nat) (c : MapCursor) : Prop where
  lt : q + c.i < 2 ^ 36
  indices : Indices c (q + c.i)
  phys : c.currentPhys % 2 ^ 64 = (pa + c.i * 0x1000) % 2 ^ 64

section Pace

variable {q pa n p : Nat} {k : Kernel} {c c₂ : MapCursor}

theorem prepare_cursor (p d : Nat) (c : MapCursor) (k : Kernel) :
    (Indices c q → Indices (prepare p d c k).1 q) ∧ (prepare p d c k).1.i = c.i ∧
      (prepare p d c k).1.currentPhys = c.currentPhys := by
  rcases d with _ | _ | _ | d <;> exact ⟨fun h => ⟨h.1, h.2, h.3, h.4⟩, rfl, rfl⟩

theorem mapStart_paced (k : Kernel) (p pa va : Nat) :
    Paced (vpn va) pa (prepare p 0 (mapStart pa va) k).1 := by
  obtain ⟨hind, hi, hphys⟩ := prepare_cursor (q := vpn va) p 0 (mapStart pa va) k
  have h0 : (mapStart pa va).i = 0 := rfl
  refine ⟨?_, ?_, ?_⟩
  · have := vpn_lt va
    omega
  · rw [hi, h0, Nat.add_zero]
    exact hind (mapStart_indices pa va)
  · rw [hi, h0, hphys]
    simp [mapStart]

/-- The next head of the loop is one leaf on, and there is one unless the tables end. -/
theorem Paced.next (h : Paced q pa c) (hlt : q + (c.i + 512 ^ leafLevel n c) < 2 ^ 36) (k : Kernel) :
    ∃ c₂ k₂, nextEntry p (leap (leafLevel n c) c) k = some (c₂, k₂) ∧
      c₂.i + 1 = c.i + 512 ^ leafLevel n c ∧ Paced q pa { c₂ with i := c₂.i + 1 } := by
  obtain ⟨hm, hq, _, _⟩ := leafLevel_spec n h.indices
  generalize leafLevel n c = m at *
  obtain ⟨d, c', _, hcar, hnext⟩ := (leap_leapt hm h.indices hq).next p (by omega)
  obtain ⟨hind, hi, hphys⟩ := prepare_cursor (q := q + c.i + 512 ^ m) p d c' k
  have hstep : (prepare p d c' k).1.i + 1 = c.i + 512 ^ m := by
    rw [hi, hcar.i, leap_i hm]
  have hc := hind hcar.indices
  have hp := h.phys
  have hl := leap_phys hm c
  have hx := hnext k
  rw [hcar.phys] at hphys
  rw [Nat.add_assoc] at hc
  generalize prepare p d c' k = r at *
  obtain ⟨c₂, k₂⟩ := r
  refine ⟨c₂, k₂, hx, hstep, ?_⟩
  rw [hstep]
  refine ⟨hlt, ⟨hc.1, hc.2, hc.3, hc.4⟩, ?_⟩
  change c₂.currentPhys % 2 ^ 64 = (pa + (c.i + 512 ^ m) * 0x1000) % 2 ^ 64
  rw [show c₂.currentPhys = _ from hphys, hl]
  omega

theorem Paced.step {c₁ : MapCursor} {k' k₁ k₂ : Kernel} (h : Paced q pa c)
    (hl : mapLeaf n c k' = (c₁, k₁)) (hx : nextEntry p c₁ k₁ = some (c₂, k₂)) :
    c₂.i + 1 = c.i + 512 ^ leafLevel n c ∧ Paced q pa { c₂ with i := c₂.i + 1 } := by
  have hcur := mapLeaf_cursor n c k'
  rw [hl] at hcur
  simp only [] at hcur
  subst hcur
  by_cases hlt : q + (c.i + 512 ^ leafLevel n c) < 2 ^ 36
  · obtain ⟨c', k'', hx', hi, hp⟩ := h.next (p := p) hlt k₁
    rw [hx', Option.some.injEq, Prod.mk.injEq] at hx
    rw [← hx.1]
    exact ⟨hi, hp⟩
  · obtain ⟨hm, hq, _, _⟩ := leafLevel_spec n h.indices
    rw [(leap_leapt hm h.indices hq).stop p k₁ h.lt (by omega)] at hx
    cases hx

theorem LoopHead.paced {va : Nat} {k' : Kernel} (h : LoopHead k p pa va n c k') :
    Paced (vpn va) (k.convertPhys pa) c := by
  induction h with
  | start => exact mapStart_paced k p _ va
  | next _ _ hl _ hx ih => exact (ih.step hl hx).2

theorem LoopHead.run {va : Nat} {k' : Kernel} (h : LoopHead k p pa va n c k') :
    ∃ fuel, n ≤ c.i + fuel ∧ k.vmmMapPagesPml4 p pa va n = mapPagesLoop p n fuel c k' := by
  induction h with
  | start => exact ⟨n, by omega, rfl⟩
  | @next c c₁ c₂ k' k₁ k₂ hc hi hl hne hx ih =>
    obtain ⟨fuel, hfuel, hrun⟩ := ih
    obtain ⟨fuel, rfl⟩ : ∃ f, fuel = f + 1 := ⟨fuel - 1, by omega⟩
    have hpos : 0 < 512 ^ leafLevel n c := Nat.pow_pos (by omega)
    have hstep := (hc.paced.step hl hx).1
    refine ⟨fuel, ?_, hrun.trans (mapPagesLoop_next hi hl hne hx)⟩
    change n ≤ c₂.i + 1 + fuel
    omega

/-- The loop comes to the first page of the first block that is large enough. -/
theorem Paced.reach {va m t : Nat} (ht : (vpn va + t) % 512 ^ m = 0)
    (hn : t + 512 ^ m + 1 < n) (hlt : vpn va + t < 2 ^ 36)
    (hfirst : ∀ i < t, (vpn va + i) % 512 ^ m ≠ 0) :
    ∃ c k', LoopHead k p pa va n c k' ∧ c.i = t := by
  have hpos : 0 < 512 ^ m := Nat.pow_pos (by omega)
  suffices hgo : ∀ d c k', LoopHead k p pa va n c k' → c.i + d = t →
      ∃ c k', LoopHead k p pa va n c k' ∧ c.i = t by
    refine hgo t _ _ .start ?_
    rw [(prepare_cursor (q := 0) p 0 (mapStart (k.convertPhys pa) va) k).2.1]
    exact Nat.zero_add t
  intro d
  induction d using Nat.strongRecOn with
  | _ d ih =>
    intro c k' hc hd
    rcases Nat.eq_zero_or_pos d with rfl | hdpos
    · exact ⟨c, k', hc, hd⟩
    have hp := hc.paced
    obtain ⟨hl2, hq, _, _⟩ := leafLevel_spec n hp.indices
    -- a leaf before the block is smaller than it, and ends before it
    have hlm : leafLevel n c < m := by
      by_contra hge
      refine hfirst c.i (by omega) ?_
      exact Nat.mod_eq_zero_of_dvd ((Nat.pow_dvd_pow 512 (by omega)).trans
        (Nat.dvd_of_mod_eq_zero hq))
    have hend : c.i + 512 ^ leafLevel n c ≤ t := by
      have h₁ : 512 ^ leafLevel n c ∣ vpn va + t :=
        (Nat.pow_dvd_pow 512 (by omega)).trans (Nat.dvd_of_mod_eq_zero ht)
      have h₂ := (Nat.dvd_sub h₁ (Nat.dvd_of_mod_eq_zero hq))
      have h₃ := Nat.le_of_dvd (by omega) h₂
      omega
    obtain ⟨c₂, k₂, hx, hi, _⟩ := hp.next (n := n) (p := p) (by omega) (mapLeaf n c k').2
    have hpos' : 0 < 512 ^ leafLevel n c := Nat.pow_pos (by omega)
    have hne : (leap (leafLevel n c) c).i ≠ n - 1 := by
      have := leap_i hl2 c
      omega
    have hnext := LoopHead.next hc (by omega) (Prod.ext (mapLeaf_cursor n c k') rfl) hne hx
    exact ih (d - 512 ^ leafLevel n c) (by omega) _ _ hnext (by simp only [hi]; omega)

end Pace

/-! ## Alignment -/

section Alignment

variable {pa q i m : Nat}

theorem getAddress_mod (hm : m ≤ 2) {a : Nat} (h : a % 2 ^ 64 = (pa + i * 0x1000) % 2 ^ 64) :
    vmmPtEntryGetAddress a % leafSize m = 0 ↔ (pa / 0x1000 + i) % 512 ^ m = 0 := by
  rw [getAddress_eq]
  rcases (by omega : m = 0 ∨ m = 1 ∨ m = 2) with rfl | rfl | rfl <;> simp only [leafSize] <;>
    norm_num <;> omega

theorem aligned_together (hq : (q + i) % 512 ^ m = 0) :
    (pa + i) % 512 ^ m = 0 ↔ pa % 512 ^ m = q % 512 ^ m := by
  constructor
  · intro h
    exact Nat.ModEq.add_right_cancel' i (h.trans hq.symm)
  · intro h
    have hmod : (pa + i) % 512 ^ m = (q + i) % 512 ^ m := Nat.ModEq.add_right i h
    exact hmod.trans hq

end Alignment

/-- The large leaves are aligned to their sizes exactly when, for every size of which the range has
a whole block, physical and virtual range start equally far into such a block. -/
theorem vmmMapPagesPml4_aligned (k : Kernel) (pPml4 pa va n : Nat) :
    LargeAligned k pPml4 pa va n ↔ ∀ m, m = 1 ∨ m = 2 → HasBlock m (vpn va) n →
      k.convertPhys pa / 0x1000 % 512 ^ m = vpn va % 512 ^ m := by
  have hleaf : ∀ {c k'}, LoopHead k pPml4 pa va n c k' → leafLevel n c ≠ 0 →
      (vmmPtEntryGetAddress ((mapLeaf n c k').2.ld64 (largeEntry n c)) % leafSize (leafLevel n c) = 0 ↔
        k.convertPhys pa / 0x1000 % 512 ^ leafLevel n c = vpn va % 512 ^ leafLevel n c) := by
    intro c k' hc hne
    have hp := hc.paced
    obtain ⟨hl, hq, _, _⟩ := leafLevel_spec n hp.indices
    rw [(mapLeaf_large hne).2, getAddress_mod hl hp.phys, aligned_together hq]
  constructor
  · intro h m hm ⟨i, hq, hn, hlt⟩
    -- the first block of this size
    have hex : ∃ t, (vpn va + t) % 512 ^ m = 0 := ⟨i, hq⟩
    classical
    have hle : Nat.find hex ≤ i := Nat.find_min' hex hq
    obtain ⟨c, k', hc, hi⟩ : ∃ c k', LoopHead k pPml4 pa va n c k' ∧ c.i = Nat.find hex :=
      Paced.reach (Nat.find_spec hex) (show Nat.find hex + 512 ^ m + 1 < n by omega) (by omega)
        fun j hj => Nat.find_min hex hj
    have hspec := Nat.find_spec hex
    rw [← hi] at hspec hle
    obtain ⟨hl, _, _, hmax⟩ := leafLevel_spec n hc.paced.indices
    have hge : m ≤ leafLevel n c := by
      by_contra hlt
      exact hmax m (by omega) (by omega) hspec (by omega)
    have hal := (hleaf hc (by omega)).mp (h c k' hc (by omega))
    exact Nat.ModEq.of_dvd (Nat.pow_dvd_pow 512 hge) hal
  · intro h c k' hc hne
    have hp := hc.paced
    obtain ⟨hl, hq, hfits, _⟩ := leafLevel_spec n hp.indices
    rw [hleaf hc hne]
    exact h _ (by omega) ⟨c.i, hq, hfits.resolve_left hne, hp.lt⟩

/-- Two MiB of pages at `0x200000`, mapped to the frames from `0x1000` on: the first leaf is a 2 MiB
one at `0x1000`. -/
theorem chainMachine_misaligned : ¬ LargeAligned (machine chainSlots)
    ((machine chainSlots).virt 0x400000) 0x1000 0x200000 1026 := by
  obtain ⟨hO, hr⟩ := chainMachine_owned
  have hun : (machine chainSlots).vmmVirtToPhys 0x1000 = uint64Max := by
    rw [vmmVirtToPhys_eq_max hO.ok hO.stored hr, PageTree.xlate, PageTree.xlateFrom, chainTree_find]
    rfl
  have hconv : (machine chainSlots).convertPhys 0x1000 = 0x1000 := by
    rw [convertPhys, if_neg (by rw [hun]; simp)]
  intro h
  have hstart := h _ _ .start
  rw [hconv] at hstart
  have hind : Indices (mapStart 0x1000 0x200000) 512 := mapStart_indices 0x1000 0x200000
  generalize machine chainSlots = k at hstart
  have hcur := prepare_cursor (q := 512) (k.virt 0x400000) 0 (mapStart 0x1000 0x200000) k
  generalize prepare (k.virt 0x400000) 0 (mapStart 0x1000 0x200000) k = r at hstart hcur
  obtain ⟨hi, h0, hphys⟩ := hcur
  have hI := hi hind
  have hlev : leafLevel 1026 r.1 = 1 := by
    rw [leafLevel, hI.pdI, hI.ptI, h0]
    decide
  have := hstart (by rw [hlev]; decide)
  rw [(mapLeaf_large (by rw [hlev]; decide)).2, hlev, hphys] at this
  exact absurd this (by decide)

end BambooOS
