import BambooOS.Pmm.Alloc

/-!
# Pmm.Order

The order in which `pmm_alloc_phys` hands out the free pages: by index, the lowest first.

* `ahead`, `First`: the free pages before a page, and the first `n` of them all.
* `Drew`: a run that took `m` frames at most and gave any number back.
* `Drew.trans`, `Drew.first`: such runs compose; a frame among the first `n` after one was given
  back on the way, or was among the first `n + m` before.
-/

namespace BambooOS

namespace Kernel

/-- The number of free pages before the page of `a`. -/
def ahead (k : Kernel) (a : Nat) : Nat :=
  ((Finset.range (k.pmmGetIndexByAddress a)).filter fun i =>
    k.pmmIsUsablePageAllocatedByIndex i = false).card

/-- The frames that the next `n` allocations take, if none is given back in between. -/
def First (k : Kernel) (n : Nat) : Set Nat := {a ∈ k.Free | k.ahead a < n}

/-- From `k` to `k'` at most `m` frames were taken, each the first that was free. -/
structure Drew (m : Nat) (k k' : Kernel) : Prop where
  taken : ∀ a ∈ k.Free, a ∉ k'.Free → k.ahead a < m
  kept : ∀ a ∈ k.Free, a ∈ k'.Free → k.ahead a ≤ k'.ahead a + m

section Order

variable {k k' k'' : Kernel} {m m' n a : Nat}

theorem first_mono (h : m ≤ n) : k.First m ⊆ k.First n := fun _ ⟨ha, hlt⟩ => ⟨ha, by omega⟩

theorem mem_free_iff (hk : k.PmmOk) {i : Nat} (hi : i < k.pmmUsablePages) :
    k.pmmGetAddressByIndex i ∈ k.Free ↔ k.pmmIsUsablePageAllocatedByIndex i = false := by
  constructor
  · rintro ⟨j, hj, hji, hb⟩
    exact hk.address_inj hj hi hji ▸ hb
  · exact fun hb => ⟨i, hi, rfl, hb⟩

/-- Taking the frame `g` moves another one place forward at most. -/
theorem ahead_le_succ (hk : k.PmmOk) (hg : k'.toGlobals = k.toGlobals) {g : Nat}
    (h : k.Free \ {g} ⊆ k'.Free) (ha : a ∈ k.Free) : k.ahead a ≤ k'.ahead a + 1 := by
  have hlt := (hk.index (free_usable hk ha)).1
  rw [ahead, ahead, hg]
  refine (Finset.card_le_card (t := insert (k.pmmGetIndexByAddress g)
    ((Finset.range (k.pmmGetIndexByAddress a)).filter fun i =>
      k'.pmmIsUsablePageAllocatedByIndex i = false)) fun i hi => ?_).trans (Finset.card_insert_le _ _)
  obtain ⟨hia, hb⟩ := Finset.mem_filter.mp hi
  have hiu : i < k.pmmUsablePages := (Finset.mem_range.mp hia).trans hlt
  by_cases hig : k.pmmGetAddressByIndex i = g
  · rw [← hig, (hk.address hiu).2.2]
    exact Finset.mem_insert_self _ _
  · have hk' : k'.PmmOk := by rw [hg]; exact hk
    have hfree : k'.pmmGetAddressByIndex i ∈ k'.Free := by
      rw [hg]
      exact h ⟨(mem_free_iff hk hiu).mpr hb, hig⟩
    exact Finset.mem_insert_of_mem (Finset.mem_filter.mpr ⟨hia, (mem_free_iff hk' (by rwa [hg])).mp hfree⟩)

theorem ahead_le (hk : k.PmmOk) (hg : k'.toGlobals = k.toGlobals) (h : k.Free ⊆ k'.Free)
    (ha : a ∈ k.Free) : k.ahead a ≤ k'.ahead a := by
  have hlt := (hk.index (free_usable hk ha)).1
  have hk' : k'.PmmOk := by rw [hg]; exact hk
  rw [ahead, ahead, hg]
  refine Finset.card_le_card fun i hi => ?_
  obtain ⟨hia, hb⟩ := Finset.mem_filter.mp hi
  have hiu : i < k.pmmUsablePages := (Finset.mem_range.mp hia).trans hlt
  have hfree : k'.pmmGetAddressByIndex i ∈ k'.Free := by
    rw [hg]
    exact h ((mem_free_iff hk hiu).mpr hb)
  exact Finset.mem_filter.mpr ⟨hia, (mem_free_iff hk' (by rwa [hg])).mp hfree⟩

theorem ahead_eq_zero (hk : k.PmmOk) (ha : a ∈ k.Free)
    (hfirst : ∀ b ∈ k.Free, k.pmmGetIndexByAddress a ≤ k.pmmGetIndexByAddress b) :
    k.ahead a = 0 := by
  have hlt := (hk.index (free_usable hk ha)).1
  rw [ahead, Finset.card_eq_zero, Finset.filter_eq_empty_iff]
  intro i hi hb
  have hia := Finset.mem_range.mp hi
  have hiu : i < k.pmmUsablePages := hia.trans hlt
  have hle := hfirst _ ((mem_free_iff hk hiu).mpr hb)
  rw [(hk.address hiu).2.2] at hle
  omega

theorem Drew.of_subset (hk : k.PmmOk) (hg : k'.toGlobals = k.toGlobals) (h : k.Free ⊆ k'.Free) :
    Drew 0 k k' :=
  ⟨fun _ ha hna => absurd (h ha) hna, fun _ ha _ => ahead_le hk hg h ha⟩

theorem Drew.refl (k : Kernel) : Drew 0 k k :=
  ⟨fun _ ha hna => absurd ha hna, fun _ _ _ => Nat.le_refl _⟩

theorem Drew.take (hk : k.PmmOk) (hg : k'.toGlobals = k.toGlobals) {g : Nat} (hgf : g ∈ k.Free)
    (hfirst : ∀ b ∈ k.Free, k.pmmGetIndexByAddress g ≤ k.pmmGetIndexByAddress b)
    (hfree : k'.Free = k.Free \ {g}) : Drew 1 k k' where
  taken a ha hna := by
    rw [hfree] at hna
    obtain rfl : a = g := by
      by_contra hne
      exact hna ⟨ha, hne⟩
    rw [ahead_eq_zero hk ha hfirst]
    omega
  kept _ ha _ := ahead_le_succ hk hg hfree.ge ha

theorem Drew.mono (hm : m ≤ m') (h : Drew m k k') : Drew m' k k' :=
  ⟨fun a ha hna => (h.taken a ha hna).trans_le hm,
    fun a ha ha' => (h.kept a ha ha').trans (Nat.add_le_add_left hm _)⟩

theorem Drew.trans (h : Drew m k k') (h' : Drew m' k' k'') : Drew (m + m') k k'' where
  taken a ha hna := by
    by_cases ha' : a ∈ k'.Free
    · have h₁ := h.kept a ha ha'
      have h₂ := h'.taken a ha' hna
      omega
    · have h₁ := h.taken a ha ha'
      omega
  kept a ha ha'' := by
    by_cases ha' : a ∈ k'.Free
    · have h₁ := h.kept a ha ha'
      have h₂ := h'.kept a ha' ha''
      omega
    · have h₁ := h.taken a ha ha'
      omega

/-- The frames among the first now: what was given back, and what was among the first before. -/
theorem Drew.first (h : Drew m k k') {G : Set Nat} (hG : k'.Free ⊆ G ∪ k.Free) :
    k'.First n ⊆ G ∪ k.First (n + m) := by
  rintro a ⟨ha', hlt⟩
  cases hG ha' with
  | inl ha => exact .inl ha
  | inr ha =>
    have hle := h.kept a ha ha'
    exact .inr ⟨ha, by omega⟩

theorem Drew.mem_first (h : Drew m k k') (ha : a ∈ k.Free) (hna : a ∉ k'.Free) : a ∈ k.First m :=
  ⟨ha, h.taken a ha hna⟩

end Order

end Kernel

end BambooOS
