import BambooOS.Heap.Leak

/-!
# Heap.Sizes

The 32-bit `size` field under `malloc`.

* `malloc_tiled`: where the last segment can be extended, the sizes stay exact and a block is handed
  out.
* `mallocExact_iff`: nowhere else. The field wraps, and the pages stay mapped behind a NULL.
-/

namespace BambooOS

open ByteMem Tiling

/-- `malloc(size)` comes back, the segments cover the heap exactly, and it has handed out `size`
bytes of one of them, or else NULL with `heap_size` and the segments as they were. -/
def MallocExact (h : Heap) (segs : List Seg) (size : Nat) : Prop :=
  ∃ h' p segs', malloc h size = .ok (h', p) ∧ Tiled h' segs' ∧
    ((∃ a s b, segs' = a ++ s :: b ∧ p = h'.base + span Seg.width a + 21 ∧ size ≤ s.size) ∨
      (p = 0 ∧ h'.size = h.size ∧ segs' = segs))

section Exact

variable {h : Heap} {segs : List Seg} {size : Nat}

theorem malloc_tiled (ht : Tiled h segs) (hf : ExtensionFits h size) : MallocExact h segs size := by
  have hfull := ht.full
  rcases first_or_none (fun s : Seg => s.Fits size) segs with ⟨a, s, b, rfl, ha, hs⟩ | hno
  · obtain ⟨h', e, hc', t, _⟩ := malloc_found ht.toChain ha hs
    obtain ⟨s', mid, hcut, _, hsize, _⟩ := s.cut_eq size
    have hspan := s.span_cut size
    rw [hcut] at hc' hspan
    refine ⟨h', _, _, e, ⟨hc', ?_⟩, .inl ⟨a, s', mid ++ b, rfl, by rw [t.base], hsize hs.2⟩⟩
    rw [t.size, ← hfull]
    simp only [span_append, span_cons] at hspan ⊢
    omega
  · obtain ⟨a, s, rfl⟩ := ht.exists_last
    obtain ⟨hlim, hsmall⟩ := (extensionFits_iff ht.toChain).mp hf a s rfl hno
    obtain ⟨n, hn⟩ : ∃ n, n = size / 0x1000 + 1 := ⟨_, rfl⟩
    rw [← hn] at hlim hsmall
    obtain ⟨h', p, e, hb, hs, _, hrest⟩ := malloc_extend ht.toChain hno hn hlim
    have hext : (s.extended n).size = s.size + n * 0x1000 := Nat.mod_eq_of_lt hsmall
    have hw : s.width = 21 + s.size := rfl
    have hwe : (s.extended n).width = 21 + (s.extended n).size := rfl
    obtain ⟨s', mid, hcut, _, hsize, _⟩ := (s.extended n).cut_eq size
    have hspan := (s.extended n).span_cut size
    rw [if_pos (by omega), hcut] at hrest
    rw [hcut] at hspan
    obtain ⟨hp, hc', _⟩ := hrest
    refine ⟨h', p, _, e, ⟨hc', ?_⟩, .inl ⟨a, s', mid, rfl, by rw [hb]; exact hp, hsize (by omega)⟩⟩
    rw [hs]
    simp only [span_append, span_cons, span_nil] at hfull hspan ⊢
    omega

/-- The size field loses no bits exactly where a free segment fits or the last one can be
extended. -/
theorem mallocExact_iff (ht : Tiled h segs) : MallocExact h segs size ↔ ExtensionFits h size := by
  constructor
  · intro hm
    obtain ⟨h', p, segs', e, ht', _⟩ := hm
    refine extension_fits ht e ht'.space fun segs'' hc'' => ?_
    rw [hc''.unique ht'.toChain, ht'.full]
  · exact malloc_tiled ht

end Exact

/-- A fresh heap and a small request. -/
theorem mallocExact_first : ∃ h, heapInit (fun _ => 7) 0x10000 = .ok h ∧
    MallocExact h [⟨0x1000 - 21, true⟩] 100 := by
  obtain ⟨h, e, ht⟩ := heapInit_tiled (fun _ => 7) (show 0x10000 + 0x1000 < 2 ^ 64 by decide)
  have hfits : (⟨0x1000 - 21, true⟩ : Seg).Fits 100 := by decide
  refine ⟨h, e, (mallocExact_iff ht).mpr fun hno => ?_⟩
  exact absurd hfits ((nothingFits_iff ht.toChain).mp hno _ (by simp))

/-- A request just below 4 GiB on a fresh heap: the field of the last segment wraps back to what it
was, and NULL is returned with 2^20 pages more on the heap. -/
theorem malloc_wraps : ∃ h, heapInit (fun _ => 7) 0x10000 = .ok h ∧
    Tiled h [⟨0x1000 - 21, true⟩] ∧ ¬ MallocExact h [⟨0x1000 - 21, true⟩] 0xfffff000 := by
  obtain ⟨h, e, hbase, hsize, hc, _⟩ := heapInit_spec (fun _ => 7) (show 0x10000 + 0x1000 < 2 ^ 64 by decide)
  have ht : Tiled h [⟨0x1000 - 21, true⟩] := ⟨hc, by rw [hsize]; rfl⟩
  refine ⟨h, e, ht, fun hm => ?_⟩
  obtain ⟨h', p, segs', e', _, hblock⟩ := hm
  have hno : ∀ t ∈ ([] ++ [⟨0x1000 - 21, true⟩] : List Seg), ¬ t.Fits 0xfffff000 := by decide
  obtain ⟨h₁, p₁, e₁, _, hs₁, _, hrest⟩ := malloc_extend (a := []) ht.toChain hno rfl
    (by simp only [Heap.limit, hbase, hsize]; omega)
  rw [e'] at e₁
  cases e₁
  rw [if_neg (by decide)] at hrest
  rcases hblock with ⟨a, s, b, _, hp, _⟩ | ⟨_, hs, _⟩
  · have h0 := hrest.1
    omega
  · omega

end BambooOS
