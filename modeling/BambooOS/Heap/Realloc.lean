import BambooOS.Heap.Free

/-!
# Heap.Realloc

The bytes `realloc` copies.

* `allocFrom_payload`: a header is written around the `size` bytes handed out, never in them.
* `malloc_grows`: the last segment, extended in place, keeps the bytes handed out.
* `realloc_keeps`: the new block starts with the old one's bytes, wherever it lies.
-/

namespace BambooOS

open ByteMem Tiling

section Payload

variable {h h' : Heap} {p q size x : Nat}

theorem write_other {n v : Nat} (e : h.write p n v = .ok h') (hx : x < p ∨ p + n ≤ x) :
    h'.mem x = h.mem x := by
  unfold Heap.write at e
  split at e
  · cases e
    simp only [store]
    rw [if_neg (by omega)]
  · cases e

theorem heapSplitSegment_payload (hp : p + 21 + size < 2 ^ 64) (hlo : p + 21 ≤ x)
    (hhi : x < p + 21 + size) (e : heapSplitSegment h p size = .ok h') : h'.mem x = h.mem x := by
  unfold heapSplitSegment at e
  rw [Nat.mod_eq_of_lt hp] at e
  obtain ⟨c, _, e⟩ := bind_ok e
  split at e
  · cases e
    rfl
  · obtain ⟨h₁, e₁, e⟩ := bind_ok e
    obtain ⟨h₂, e₂, e⟩ := bind_ok e
    obtain ⟨z, _, e⟩ := bind_ok e
    obtain ⟨h₃, e₃, e⟩ := bind_ok e
    obtain ⟨h₄, e₄, e⟩ := bind_ok e
    obtain ⟨c', _, e⟩ := bind_ok e
    obtain ⟨h₅, e₅, e⟩ := bind_ok e
    rw [write_other e (by omega), write_other e₅ (by omega), write_other e₄ (by omega),
      write_other e₃ (by omega), write_other e₂ (by omega), write_other e₁ (by omega)]

/-- The bytes of a block that is handed out are not written. -/
theorem allocFrom_payload (hp : p + 21 + size < 2 ^ 64) (hlo : p + 21 ≤ x)
    (hhi : x < p + 21 + size) (e : allocFrom h p size = .ok (some (h', q))) :
    h'.mem x = h.mem x := by
  unfold allocFrom at e
  obtain ⟨c, _, e⟩ := bind_ok e
  split at e
  · obtain ⟨h₁, e₁, e⟩ := bind_ok e
    cases e
    exact write_other e₁ (by omega)
  · split at e
    · obtain ⟨h₁, e₁, e⟩ := bind_ok e
      obtain ⟨h₂, e₂, e⟩ := bind_ok e
      cases e
      rw [write_other e₂ (by omega), heapSplitSegment_payload hp hlo hhi e₁]
    · cases e

end Payload

section Realloc

variable {h h' : Heap} {a b : List Seg} {s : Seg} {p size : Nat}

/-- No free segment fits: the first `size` bytes behind the last header stay, as far as they were on
the heap. -/
theorem malloc_grows (hc : Chain h (a ++ [s])) (hno : ∀ t ∈ a ++ [s], ¬ t.Fits size)
    (hl : h.limit + (size / 0x1000 + 1) * 0x1000 < 2 ^ 64) (e : malloc h size = .ok (h', p))
    {x : Nat} (hlo : h.base + span Seg.width a + 21 ≤ x)
    (hhi : x < h.base + span Seg.width a + 21 + size) (hx : x < h.limit) :
    h'.mem x = h.mem x := by
  obtain ⟨h₁, e₁, _, _, _, ho⟩ := heapExtend_chain hc hl
  have hend := hc.mapped_hdr.2
  have hlen : a.length < h.fuel := by
    have := hc.length_lt
    simp at this
    omega
  have hsearch := mallocSearch_none hc.headers hc.mapped hno hlen
  unfold malloc at e
  simp only [hsearch, ok_bind, e₁] at e
  obtain ⟨r, er, e⟩ := bind_ok e
  rw [← ho x hx (.inr (by omega))]
  cases r with
  | none =>
    cases e
    rfl
  | some r =>
    cases e
    exact allocFrom_payload (by omega) hlo hhi er

/-- `realloc` of a payload of the list: a `malloc`, then the copy, as long as the old size says. -/
theorem realloc_start (hc : Chain h (a ++ s :: b)) :
    realloc h (h.base + span Seg.width a + 21) size = do
      let (h₁, newPtr) ← malloc h size
      let oldSize ← h₁.segSize (h.base + span Seg.width a)
      let h₂ ← h₁.copy newPtr (h.base + span Seg.width a + 21) (min oldSize size)
      return (h₂, newPtr) := by
  have hend := hc.mapped_hdr.2
  have hspace := hc.space
  have haddr : hdrAddr (h.base + span Seg.width a + 21) = h.base + span Seg.width a :=
    hdrAddr_payload (by omega)
  have hlen : a.length < h.fuel := by
    have := hc.length_lt
    simp at this
    omega
  have hfound := findHdr_found hc.headers hc.mapped hlen
  have hmin : ∀ old, (if old < size then old else size) = min old size := by
    intro old
    split <;> omega
  unfold realloc
  simp only [haddr, hfound, ok_bind, Bool.not_true, Bool.false_eq_true, if_false, hmin]

/-- A copy into the payload of a segment, from behind or from wholly below it. -/
theorem Tiled.copy (ht : Tiled h (a ++ s :: b)) (src n : Nat) (hn : n ≤ s.size)
    (hsrc : h.Mapped src n)
    (hd : h.base + span Seg.width a + 21 ≤ src ∨ src + n ≤ h.base + span Seg.width a + 21) :
    ∃ h', h.copy (h.base + span Seg.width a + 21) src n = .ok h' ∧ Tiled h' (a ++ s :: b) ∧
      h'.base = h.base ∧ h'.mem = moved h.mem (h.base + span Seg.width a + 21) src n := by
  have hw : s.width = 21 + s.size := rfl
  have hdest : h.Mapped (h.base + span Seg.width a + 21) n :=
    ht.mapped_seg.sub (by omega) (by omega)
  have htouch : Touched h
      { h with mem := memcpy h.mem (h.base + span Seg.width a + 21) src n }
      (h.base + span Seg.width a + 21) (h.base + span Seg.width a + s.width) :=
    ⟨rfl, rfl, fun x hx => memcpy_other (by omega)⟩
  refine ⟨_, if_pos (.inr ⟨hdest, hsrc⟩), ⟨ht.payload htouch, ht.full⟩, rfl, memcpy_apply hd⟩

variable {n : Nat}

/-- `malloc` took the very segment that is in use: it had to extend it. -/
theorem malloc_same (hc : Chain h (a ++ s :: b)) (hs : s.free = false)
    (hl : h'.limit < 2 ^ 64)
    (e : malloc h n = .ok (h', h.base + span Seg.width a + 21)) :
    b = [] ∧ ∀ t ∈ a ++ s :: b, ¬ t.Fits n := by
  have hw : s.width = 21 + s.size := rfl
  rcases malloc_cases hc e hl with
    ⟨c, t, d, hsegs, _, hfit, hp, _⟩ | ⟨c, t, k, hsegs, hno, _, _, _, _, hrest⟩
  · exfalso
    have hmine := tile_mid (w := Seg.width) h.base a b s
    have htaken := tile_mid (w := Seg.width) h.base c d t
    rw [← hsegs] at htaken
    exact tile_free_ne hmine htaken hs hfit.1 (by omega)
  · refine ⟨?_, hno⟩
    have hwt : t.width = 21 + t.size := rfl
    have hlast := congrArg (span Seg.width) hsegs
    have hsep := (tile_mid (w := Seg.width) h.base a b s).sep
      (hsegs ▸ tile_mid (w := Seg.width) h.base c [] t)
    simp only [span_append, span_cons, span_nil] at hlast
    have hb := Seg.length_le_span b
    have hpos : span Seg.width a = span Seg.width c := by
      split at hrest
      · have hp := hrest.1
        omega
      · have hp := hrest.1
        omega
    have hlen : b.length = 0 := by
      rcases hsep with ⟨_, rfl⟩ | hlt | hgt
      · omega
      · omega
      · omega
    exact List.eq_nil_of_length_eq_zero hlen

/-- `realloc` of a block in use keeps the bytes that fit in both blocks. -/
theorem realloc_keeps (ht : Tiled h (a ++ s :: b)) (hs : s.free = false)
    (hsmall : (∀ t ∈ a ++ s :: b, ¬ t.Fits n) →
      (h.size + (n / 0x1000 + 1)) * 0x1000 < 2 ^ 32 ∧ h.base + 2 ^ 32 ≤ 2 ^ 64) :
    ∃ h' q, realloc h (h.base + span Seg.width a + 21) n = .ok (h', q) ∧ q ≠ 0 ∧
      (∃ c t d, Tiled h' (c ++ t :: d) ∧ q = h'.base + span Seg.width c + 21 ∧ t.free = false ∧
        n ≤ t.size) ∧
      ∀ i, i < min s.size n → h'.mem (q + i) = h.mem (h.base + span Seg.width a + 21 + i) := by
  have hc := ht.toChain
  have hw : s.width = 21 + s.size := rfl
  have hin := hc.mapped_seg.2
  have hlimit : h.limit = h.base + h.size * 0x1000 := rfl
  obtain ⟨h₁, q, e₁, hq, hb₁, c, t, d, t', mid, hsegs, ht₁, hqc, hused, hsize, _, hspan, ho⟩ :=
    malloc_takes ht hsmall
  have hwt : t.width = 21 + t.size := rfl
  have hwt' : t'.width = 21 + t'.size := rfl
  rw [realloc_start hc, e₁, ok_bind]
  simp only
  rw [← hb₁] at hqc
  subst hqc
  rcases (tile_mid (w := Seg.width) h.base a b s).sep (hsegs ▸ tile_mid h.base c d t) with
    ⟨hpos, rfl⟩ | hapart
  · -- the block itself, at the end of the heap: it is copied onto itself
    have hpos' : h.base + span Seg.width a = h₁.base + span Seg.width c := by omega
    obtain ⟨rfl, hno⟩ := malloc_same hc hs ht₁.space (by rw [hpos']; exact e₁)
    obtain ⟨hlt, hspace⟩ := hsmall hno
    have hsizeOk := ht₁.hdrAt.segSize_ok ht₁.mapped_hdr
    have hmapped := ht₁.mapped_seg
    obtain ⟨h₂, e₂, ht₂, hb₂, hm₂⟩ := ht₁.copy (h.base + span Seg.width a + 21)
      (min t'.size n) (by omega) (hmapped.sub (by omega) (by omega)) (.inl (by omega))
    refine ⟨h₂, h₁.base + span Seg.width c + 21, ?_, by omega,
      ⟨c, t', mid ++ d, ht₂, by rw [hb₂], hused, hsize⟩, fun i hi => ?_⟩
    · rw [hpos', hsizeOk, ok_bind]
      rw [hpos'] at e₂
      rw [e₂]
      rfl
    · rw [hm₂, hpos', moved_self, ← hpos']
      exact malloc_grows hc hno (by omega) e₁ (by omega) (by omega) (by omega)
  · -- another segment: `malloc` has written nothing in this one
    have hlim : h.limit ≤ h₁.limit := by
      have hgrow := (malloc_pages hc e₁).2
      simp only [Heap.limit, hb₁]
      omega
    have hkeep : ∀ x, h.base + span Seg.width a ≤ x → x < h.base + span Seg.width a + s.width →
        h₁.mem x = h.mem x := fun x hlo hhi => ho x (by omega) (by omega) (by omega)
    have hmapped : h₁.Mapped (h.base + span Seg.width a) s.width := ⟨by omega, by omega⟩
    have hhdr := hc.hdrAt.congr fun x hlo hhi => hkeep x (by omega) (by omega)
    have hdisj : h₁.base + span Seg.width c + 21 + min s.size n ≤ h.base + span Seg.width a + 21 ∨
        h.base + span Seg.width a + s.width ≤ h₁.base + span Seg.width c + 21 := by
      rcases hapart with hlt | hgt
      · exact .inr (by omega)
      · -- the segment taken is not the last one, and is cut inside its old extent
        have hlast := congrArg (span Seg.width) hsegs
        simp only [span_append, span_cons] at hlast
        have hd : d ≠ [] := by
          intro h0
          rw [h0, span_nil] at hlast
          omega
        have hwidth := hspan hd
        rw [span_cons] at hwidth
        exact .inl (by omega)
    obtain ⟨h₂, e₂, ht₂, hb₂, hm₂⟩ := ht₁.copy (h.base + span Seg.width a + 21)
      (min s.size n) (by omega) (hmapped.sub (by omega) (by omega)) (by omega)
    refine ⟨h₂, h₁.base + span Seg.width c + 21, ?_, by omega,
      ⟨c, t', mid ++ d, ht₂, by rw [hb₂], hused, hsize⟩, fun i hi => ?_⟩
    · rw [hhdr.segSize_ok (hmapped.sub (by omega) (by omega)), ok_bind, e₂]
      rfl
    · rw [hm₂, moved, if_pos (by omega), Nat.add_sub_cancel_left]
      exact hkeep _ (by omega) (by omega)

end Realloc

/-- A block of fifty bytes behind one of a hundred, moved to the rest of the page. -/
theorem realloc_keeps_second : ∃ h h' q,
    (do
      let h ← heapInit (fun _ => 7) 0x10000
      heapRun h [.malloc 100, .malloc 50]) = .ok h ∧
    realloc h (h.base + span Seg.width [⟨100, false⟩] + 21) 100 = .ok (h', q) ∧ q ≠ 0 := by
  let segs : List Seg := [⟨100, false⟩, ⟨50, false⟩, ⟨3883, true⟩]
  have hrun : returns (do
      let h ← heapInit (fun _ => 7) 0x10000
      heapRun h [.malloc 100, .malloc 50]) (fun h => decide (h.base = 0x10000 ∧ h.size = 1 ∧
        Headers h.mem 0x10000 segs 0 ∧ Backs h.mem 0 0x10000 segs)) = true := by
    decide +kernel
  obtain ⟨h, e, hread⟩ := returns_iff.mp hrun
  have hl : Linked h segs := linked_page (by decide) (by decide) (of_decide_eq_true hread)
  have hsize : h.size = 1 := (of_decide_eq_true hread).2.1
  have ht : Tiled h ([⟨100, false⟩] ++ ⟨50, false⟩ :: [⟨3883, true⟩]) :=
    ⟨hl.toChain, by rw [hsize]; rfl⟩
  have hfits : (⟨3883, true⟩ : Seg).Fits 100 := by decide
  obtain ⟨h', q, e', hq, _⟩ := realloc_keeps (n := 100) ht rfl fun hno => absurd hfits (hno _ (by simp))
  exact ⟨h, h', q, e, e', hq⟩

end BambooOS
