import BambooOS.Heap.Header

/-!
# Heap.Chain

`malloc` on a heap whose segments lie one behind the other.

* `Chain`: the segments from the heap's base on, the last `next` 0, all of them on the heap's pages.
* `malloc_found` / `malloc_extend`: the first free segment that fits is taken, and where there is
  none the last segment is, with the new pages added to it.
* `Tiled`: the chain ends exactly where the heap does; `malloc` keeps this.
-/

namespace BambooOS

open ByteMem Tiling

/-- `malloc(size)` takes the segment when it meets it. -/
def Seg.Fits (s : Seg) (size : Nat) : Prop := s.free = true ∧ size ≤ s.size

instance (s : Seg) (size : Nat) : Decidable (s.Fits size) := inferInstanceAs (Decidable (_ ∧ _))

/-- The segments of the heap, in the order of the `next` links. -/
structure Chain (h : Heap) (segs : List Seg) : Prop where
  nonempty : segs ≠ []
  headers : Headers h.mem h.base segs 0
  inside : h.base + span Seg.width segs ≤ h.limit
  space : h.limit < 2 ^ 64

theorem Seg.length_le_span (segs : List Seg) : segs.length ≤ span Seg.width segs := by
  induction segs with
  | nil => simp
  | cons s segs ih =>
    simp only [List.length_cons, span_cons, Seg.width]
    omega

theorem first_or_none {α : Type*} (P : α → Prop) [DecidablePred P] (l : List α) :
    (∃ a s b, l = a ++ s :: b ∧ (∀ t ∈ a, ¬ P t) ∧ P s) ∨ ∀ t ∈ l, ¬ P t := by
  cases hf : l.find? fun t => decide (P t) with
  | none =>
    refine .inr fun t ht hP => ?_
    have hno := List.find?_eq_none.mp hf t ht
    simp [hP] at hno
  | some s =>
    obtain ⟨hs, a, b, hl, ha⟩ := List.find?_eq_some_iff_append.mp hf
    exact .inl ⟨a, s, b, hl, fun t ht => by simpa using ha t ht, by simpa using hs⟩

section Search

variable {h : Heap} {p size : Nat} {s : Seg}

theorem mallocSearch_skip {z : Nat} (ha : At h.mem p s z) (hm : h.Mapped p s.width)
    (hno : ¬ s.Fits size) (fuel : Nat) :
    mallocSearch h size (fuel + 1) p =
      if z = 0 then .ok (.inr p) else mallocSearch h size fuel z := by
  have hw : s.width = 21 + s.size := rfl
  have hmp : h.Mapped p 21 := hm.sub (by omega) (by omega)
  rw [mallocSearch, ha.isFree_ok hmp, ok_bind]
  by_cases hf : s.free = true
  · have hsmall : s.size < size := by
      by_contra hs
      exact hno ⟨hf, by omega⟩
    rw [if_pos hf, allocFrom_small ha hm hsmall, ok_bind, ha.next_ok hmp]
    rfl
  · rw [if_neg hf, ha.next_ok hmp]
    rfl

theorem mallocSearch_found {a b : List Seg} {r : Heap × Nat} {fuel : Nat}
    (hh : Headers h.mem p (a ++ s :: b) 0) (hm : h.Mapped p (span Seg.width (a ++ s :: b)))
    (ha : ∀ t ∈ a, ¬ t.Fits size) (hs : s.Fits size)
    (hr : allocFrom h (p + span Seg.width a) size = .ok (some r)) (hfuel : a.length < fuel) :
    mallocSearch h size fuel p = .ok (.inl r) := by
  induction a generalizing p fuel with
  | nil =>
    obtain ⟨fuel, rfl⟩ : ∃ k, fuel = k + 1 := ⟨fuel - 1, by omega⟩
    have hw : s.width = 21 + s.size := rfl
    simp only [List.nil_append, span_cons] at hm
    have hfree := hh.1.isFree_ok (hm.sub (by omega) (by omega))
    rw [mallocSearch, hfree, ok_bind, if_pos hs.1]
    rw [span_nil, Nat.add_zero] at hr
    rw [hr]
    rfl
  | cons t a ih =>
    obtain ⟨fuel, rfl⟩ : ∃ k, fuel = k + 1 := ⟨fuel - 1, by simp at hfuel; omega⟩
    have hw : t.width = 21 + t.size := rfl
    simp only [List.cons_append, span_cons] at hm hr
    have hat := hh.1
    rw [if_neg (by simp)] at hat
    rw [mallocSearch_skip hat (hm.sub (by omega) (by omega)) (ha t (by simp)), if_neg (by omega)]
    refine ih hh.2 (hm.sub (by omega) (by omega)) (fun u hu => ha u (by simp [hu])) ?_ ?_
    · rw [← hr, Nat.add_assoc]
    · simp at hfuel
      omega

/-- No segment fits: the search ends at the last one. -/
theorem mallocSearch_none {a : List Seg} {fuel : Nat} (hh : Headers h.mem p (a ++ [s]) 0)
    (hm : h.Mapped p (span Seg.width (a ++ [s]))) (hno : ∀ t ∈ a ++ [s], ¬ t.Fits size)
    (hfuel : a.length < fuel) :
    mallocSearch h size fuel p = .ok (.inr (p + span Seg.width a)) := by
  induction a generalizing p fuel with
  | nil =>
    obtain ⟨fuel, rfl⟩ : ∃ k, fuel = k + 1 := ⟨fuel - 1, by omega⟩
    have hat := hh.1
    rw [if_pos rfl] at hat
    rw [mallocSearch_skip hat (by simpa using hm) (hno s (by simp)), if_pos rfl]
    rfl
  | cons t a ih =>
    obtain ⟨fuel, rfl⟩ : ∃ k, fuel = k + 1 := ⟨fuel - 1, by simp at hfuel; omega⟩
    have hw : t.width = 21 + t.size := rfl
    simp only [List.cons_append, span_cons] at hm
    have hat := hh.1
    rw [if_neg (by simp)] at hat
    rw [mallocSearch_skip hat (hm.sub (by omega) (by omega)) (hno t (by simp)), if_neg (by omega),
      ih hh.2 (hm.sub (by omega) (by omega)) (fun u hu => hno u (by simp at hu ⊢; tauto))
        (by simp at hfuel; omega)]
    rw [span_cons, Nat.add_assoc]

end Search

namespace Chain

variable {h : Heap} {a b segs : List Seg} {s : Seg} {size : Nat}

theorem exists_last (hc : Chain h segs) : ∃ a s, segs = a ++ [s] :=
  ⟨_, _, (List.dropLast_concat_getLast hc.nonempty).symm⟩

theorem mapped (hc : Chain h segs) : h.Mapped h.base (span Seg.width segs) :=
  ⟨Nat.le_refl _, hc.inside⟩

theorem hdrAt (hc : Chain h (a ++ s :: b)) : At h.mem (h.base + span Seg.width a) s
    (if b = [] then 0 else h.base + span Seg.width a + s.width) := hc.headers.at

theorem mapped_seg (hc : Chain h (a ++ s :: b)) :
    h.Mapped (h.base + span Seg.width a) s.width := by
  refine hc.mapped.sub (by omega) ?_
  simp only [span_append, span_cons]
  omega

theorem mapped_hdr (hc : Chain h (a ++ s :: b)) : h.Mapped (h.base + span Seg.width a) 21 :=
  hc.mapped_seg.sub (Nat.le_refl _) (by simp only [Seg.width]; omega)

theorem length_lt (hc : Chain h segs) : segs.length < h.fuel := by
  have h₁ := Seg.length_le_span segs
  have h₂ := hc.inside
  simp only [Heap.fuel, Heap.limit] at *
  omega

theorem replace {h' : Heap} {c : List Seg} (hc : Chain h (a ++ s :: b)) (hne : c ≠ [])
    (ht : Touched h h' (h.base + span Seg.width a) (h.base + span Seg.width a + s.width))
    (hh : Headers h'.mem (h.base + span Seg.width a) c
      (if b = [] then 0 else h.base + span Seg.width a + s.width))
    (hspan : span Seg.width c = s.width) : Chain h' (a ++ (c ++ b)) := by
  refine ⟨by simp [hne], ?_, ?_, ?_⟩
  · rw [ht.base]
    exact hc.headers.replace hne hh (fun _ => hspan) (fun x _ hx => ht.other x (.inl hx))
      fun x hx _ => ht.other x (.inr hx)
  · have hin := hc.inside
    rw [ht.base, ht.limit]
    simp only [span_append, span_cons, hspan] at hin ⊢
    omega
  · rw [ht.limit]
    exact hc.space

end Chain

section Malloc

variable {h : Heap} {a b : List Seg} {s : Seg} {size : Nat}

/-- A free segment fits: the first such one is taken, whole or cut. -/
theorem malloc_found (hc : Chain h (a ++ s :: b)) (ha : ∀ t ∈ a, ¬ t.Fits size)
    (hs : s.Fits size) :
    ∃ h', malloc h size = .ok (h', h.base + span Seg.width a + 21) ∧
      Chain h' (a ++ (s.cut size ++ b)) ∧
      Touched h h' (h.base + span Seg.width a + 8) (h.base + span Seg.width a + s.width) ∧
      (size + 21 < s.size → load h'.mem (h.base + span Seg.width a + 21 + size) 8 =
        h.base + span Seg.width a) := by
  obtain ⟨h', e, t, hh, hback⟩ := allocFrom_fits hc.hdrAt hc.mapped_seg hc.space hs.2
  refine ⟨h', ?_, ?_, t, hback⟩
  · unfold malloc
    rw [mallocSearch_found hc.headers hc.mapped ha hs e (by
      have := hc.length_lt
      simp at this
      omega)]
    rfl
  · exact hc.replace (s.cut_ne_nil size) (t.mono (by omega) (by omega)) hh (s.span_cut size)

/-- The last segment after an extension by `n` pages. -/
def Seg.extended (s : Seg) (n : Nat) : Seg := ⟨(s.size + n * 0x1000) % 2 ^ 32, s.free⟩

theorem heapExtend_chain (hc : Chain h (a ++ [s])) {n : Nat}
    (hl : h.limit + n * 0x1000 < 2 ^ 64) :
    ∃ h', heapExtend h (h.base + span Seg.width a) n = .ok h' ∧ h'.base = h.base ∧
      h'.size = h.size + n ∧ Chain h' (a ++ [s.extended n]) ∧
      ∀ x, x < h.limit → (x < h.base + span Seg.width a + 16 ∨ h.base + span Seg.width a + 20 ≤ x) →
        h'.mem x = h.mem x := by
  obtain ⟨h', e, hb, hs, ha, ho⟩ := heapExtend_spec hc.hdrAt hc.mapped_hdr n
  have hin := hc.inside
  have hw : s.width = 21 + s.size := rfl
  have hwe : (s.extended n).width = 21 + (s.size + n * 0x1000) % 2 ^ 32 := rfl
  have hlim : h'.limit = h.limit + n * 0x1000 := by
    simp only [Heap.limit, hb, hs]
    omega
  simp only [span_append, span_cons, span_nil] at hin
  refine ⟨h', e, hb, hs, ⟨by simp, ?_, ?_, by omega⟩, ho⟩
  · rw [hb]
    refine hc.headers.replace (c := [s.extended n]) (by simp) ?_ (fun hb => absurd rfl hb) ?_ ?_
    · exact ⟨ha, trivial⟩
    · intro x _ hx
      exact ho x (by omega) (.inl (by omega))
    · intro x hx hx'
      simp only [span_append, span_cons, span_nil] at hx'
      omega
  · simp only [span_append, span_cons, span_nil]
    omega

/-- No free segment fits: the pages are added to the last segment, and that one is taken if it is
large enough now. -/
theorem malloc_extend (hc : Chain h (a ++ [s])) (hno : ∀ t ∈ a ++ [s], ¬ t.Fits size) {n : Nat}
    (hn : n = size / 0x1000 + 1) (hl : h.limit + n * 0x1000 < 2 ^ 64) :
    ∃ h' p, malloc h size = .ok (h', p) ∧ h'.base = h.base ∧ h'.size = h.size + n ∧
      (∀ x, x < h.limit → (x < h.base + span Seg.width a + 8 ∨
        h.base + span Seg.width a + (s.extended n).width ≤ x) → h'.mem x = h.mem x) ∧
      if size ≤ (s.extended n).size then
        p = h.base + span Seg.width a + 21 ∧ Chain h' (a ++ (s.extended n).cut size) ∧
          (size + 21 < (s.extended n).size →
            load h'.mem (h.base + span Seg.width a + 21 + size) 8 = h.base + span Seg.width a)
      else p = 0 ∧ Chain h' (a ++ [s.extended n]) := by
  have hwe : (s.extended n).width = 21 + (s.extended n).size := rfl
  obtain ⟨h₁, e₁, hb₁, hs₁, hc₁, ho₁⟩ := heapExtend_chain hc hl
  have hlim : h.limit ≤ h₁.limit := by
    simp only [Heap.limit, hb₁, hs₁]
    omega
  have hsearch := mallocSearch_none hc.headers hc.mapped hno (by
    have := hc.length_lt
    simp at this
    exact Nat.lt_of_succ_lt this)
  have hat := hc₁.hdrAt
  have hms := hc₁.mapped_seg
  rw [hb₁] at hat hms
  by_cases hfit : size ≤ (s.extended n).size
  · obtain ⟨h₂, e₂, t₂, hh₂, hback⟩ := allocFrom_fits hat hms hc₁.space hfit
    refine ⟨h₂, h.base + span Seg.width a + 21, ?_, t₂.base.trans hb₁, t₂.size.trans hs₁, ?_, ?_⟩
    · unfold malloc
      simp only [hsearch, ok_bind, ← hn, e₁, e₂]
      rfl
    · intro x hx hx'
      rw [t₂.other x hx', ho₁ x hx (by omega)]
    · rw [if_pos hfit]
      refine ⟨rfl, ?_, hback⟩
      have hrep := hc₁.replace ((s.extended n).cut_ne_nil size)
        (t₂.mono (by rw [hb₁]; omega) (by rw [hb₁])) (by rw [hb₁]; exact hh₂)
        ((s.extended n).span_cut size)
      rwa [List.append_nil] at hrep
  · have hnone := allocFrom_small hat hms (Nat.lt_of_not_le hfit)
    refine ⟨h₁, 0, ?_, hb₁, hs₁, fun x hx hx' => ho₁ x hx (by omega), ?_⟩
    · unfold malloc
      simp only [hsearch, ok_bind, ← hn, e₁, hnone]
      rfl
    · rw [if_neg hfit]
      exact ⟨rfl, hc₁⟩

end Malloc

/-- `heap_init` leaves one free segment, with no links. -/
theorem heapInit_spec (m : Mem) {base : Nat} (hb : base + 0x1000 < 2 ^ 64) :
    ∃ h, heapInit m base = .ok h ∧ h.base = base ∧ h.size = 1 ∧
      Chain h [⟨0x1000 - 21, true⟩] ∧ load h.mem base 8 = 0 := by
  let h₀ : Heap := { base := base, size := 1, mem := fill m base 0x1000 0 }
  have hlim : h₀.limit = base + 0x1000 := by simp only [h₀, Heap.limit]
  have hm : h₀.Mapped base 21 := ⟨Nat.le_refl _, by omega⟩
  obtain ⟨h₁, e₁, t₁, l₁⟩ := setPrev_spec (v := 0) hm (by omega)
  obtain ⟨h₂, e₂, t₂, l₂⟩ := setNext_spec (v := 0) (t₁.mapped.mpr hm) (by omega)
  have hm₂ := t₂.mapped.mpr (t₁.mapped.mpr hm)
  obtain ⟨h₃, e₃, t₃, l₃⟩ := setFree_spec hm₂ true
  obtain ⟨h₄, e₄, t₄, l₄⟩ := setSize_spec (v := 0x1000 - 21) (t₃.mapped.mpr hm₂)
  have hb₄ : h₄.base = base := t₄.base.trans (t₃.base.trans (t₂.base.trans t₁.base))
  have hs₄ : h₄.size = 1 := t₄.size.trans (t₃.size.trans (t₂.size.trans t₁.size))
  have hlim₄ : h₄.limit = base + 0x1000 := by
    rw [t₄.limit, t₃.limit, t₂.limit, t₁.limit, hlim]
  refine ⟨h₄, ?_, hb₄, hs₄, ⟨by simp, ?_, ?_, by omega⟩, ?_⟩
  · show (h₀.setPrev base 0 >>= fun h => h.setNext base 0 >>= fun h => h.setFree base true >>=
      fun h => h.setSize base (0x1000 - 21)) = .ok h₄
    simp only [e₁, ok_bind, e₂, e₃, e₄]
  · refine ⟨⟨?_, ?_, ?_⟩, trivial⟩
    · rw [if_pos rfl, hb₄, t₄.load (by omega), t₃.load (by omega), l₂]
    · rw [hb₄, l₄]
      rfl
    · rw [hb₄, t₄.load (by omega), l₃]
  · rw [hb₄, hlim₄]
    simp [Seg.width]
  · rw [t₄.load (by omega), t₃.load (by omega), t₂.load (by omega), l₁]

/-- The chain of segments covers the heap's pages exactly. -/
structure Tiled (h : Heap) (segs : List Seg) : Prop extends Chain h segs where
  full : span Seg.width segs = h.size * 0x1000

theorem Seg.cut_eq (s : Seg) (size : Nat) : ∃ s' mid, s.cut size = s' :: mid ∧ s'.free = false ∧
    (size ≤ s.size → size ≤ s'.size) ∧ (mid = [] ∨ ∃ r, mid = [⟨r, true⟩]) := by
  unfold Seg.cut
  split
  · exact ⟨_, [], rfl, rfl, id, .inl rfl⟩
  · exact ⟨_, _, rfl, rfl, fun _ => Nat.le_refl _, .inr ⟨_, rfl⟩⟩

theorem heapInit_tiled (m : Mem) {base : Nat} (hb : base + 0x1000 < 2 ^ 64) :
    ∃ h, heapInit m base = .ok h ∧ Tiled h [⟨0x1000 - 21, true⟩] := by
  obtain ⟨h, e, _, hs, hc, _⟩ := heapInit_spec m hb
  exact ⟨h, e, hc, by rw [hs]; rfl⟩

/-- `malloc` takes one segment, and cuts it if there is room for a second header. -/
theorem malloc_takes {h : Heap} {segs : List Seg} {size : Nat} (ht : Tiled h segs)
    (hsmall : (∀ s ∈ segs, ¬ s.Fits size) →
      (h.size + (size / 0x1000 + 1)) * 0x1000 < 2 ^ 32 ∧ h.base + 2 ^ 32 ≤ 2 ^ 64) :
    ∃ h' p, malloc h size = .ok (h', p) ∧ p ≠ 0 ∧ h'.base = h.base ∧
      ∃ a s b s' mid, segs = a ++ s :: b ∧ Tiled h' (a ++ s' :: (mid ++ b)) ∧
        p = h.base + span Seg.width a + 21 ∧ s'.free = false ∧ size ≤ s'.size ∧
        (mid = [] ∨ ∃ r, mid = [⟨r, true⟩]) ∧
        (b ≠ [] → span Seg.width (s' :: mid) = s.width) ∧
        ∀ x, h.base ≤ x → x < h.limit →
          (x < h.base + span Seg.width a ∨ h.base + span Seg.width a + s.width ≤ x) →
            h'.mem x = h.mem x := by
  have hfull := ht.full
  rcases first_or_none (fun s : Seg => s.Fits size) segs with ⟨a, s, b, rfl, ha, hs⟩ | hno
  · obtain ⟨h', e, hc', t, _⟩ := malloc_found ht.toChain ha hs
    obtain ⟨s', mid, hcut, hfree, hsize, hmid⟩ := s.cut_eq size
    have hspan := s.span_cut size
    rw [hcut] at hc' hspan
    refine ⟨h', _, e, by omega, t.base, a, s, b, s', mid, rfl, ⟨hc', ?_⟩, rfl, hfree, hsize hs.2,
      hmid, fun _ => hspan, fun x _ _ hx => t.other x (by omega)⟩
    rw [t.size, ← hfull]
    simp only [span_append, span_cons] at hspan ⊢
    omega
  · obtain ⟨hlt, hspace⟩ := hsmall hno
    obtain ⟨a, s, rfl⟩ := ht.exists_last
    have hw : s.width = 21 + s.size := rfl
    have hlim : h.limit = h.base + h.size * 0x1000 := rfl
    simp only [span_append, span_cons, span_nil] at hfull
    -- no wrap: the last segment and the new pages are inside the extended heap
    have hext : s.extended (size / 0x1000 + 1) = ⟨s.size + (size / 0x1000 + 1) * 0x1000, s.free⟩ := by
      rw [Seg.extended, Nat.mod_eq_of_lt (by omega)]
    obtain ⟨h', p, e, hb, hs, ho, hrest⟩ := malloc_extend ht.toChain hno rfl (by omega)
    obtain ⟨s', mid, hcut, hfree, hsize, hmid⟩ := (s.extended (size / 0x1000 + 1)).cut_eq size
    have hspan := (s.extended (size / 0x1000 + 1)).span_cut size
    rw [hext] at hspan hsize hcut ho
    rw [hext, if_pos (by show size ≤ s.size + (size / 0x1000 + 1) * 0x1000; omega), hcut] at hrest
    rw [hcut] at hspan
    obtain ⟨rfl, hc', _⟩ := hrest
    have hfit : size ≤ s.size + (size / 0x1000 + 1) * 0x1000 := by omega
    refine ⟨h', _, e, by omega, hb, a, s, [], s', mid, rfl, ⟨?_, ?_⟩, rfl, hfree, hsize hfit,
      hmid, fun hne => absurd rfl hne, fun x _ hx hx' => ho x hx ?_⟩
    · rwa [List.append_nil]
    · simp only [span_cons, Seg.width, span_append, List.append_nil] at hspan ⊢
      rw [hs]
      omega
    · simp only [Seg.width]
      omega

/-- `heap_init` tiles the heap's page, and `malloc` takes one segment of a tiled heap: the first
free one that fits, or the last one with new pages added to it. -/
theorem malloc_tiles :
    (∀ (m : Mem) (base : Nat), base + 0x1000 < 2 ^ 64 →
      ∃ h, heapInit m base = .ok h ∧ Tiled h [⟨0x1000 - 21, true⟩]) ∧
    ∀ (h : Heap) (segs : List Seg) (size : Nat), Tiled h segs →
      ((∀ s ∈ segs, ¬ s.Fits size) → (h.size + (size / 0x1000 + 1)) * 0x1000 < 2 ^ 32 ∧
        h.base + 2 ^ 32 ≤ 2 ^ 64) →
      ∃ h' p, malloc h size = .ok (h', p) ∧ p ≠ 0 ∧ h'.base = h.base ∧
        ∃ a s b s' mid, segs = a ++ s :: b ∧ Tiled h' (a ++ s' :: (mid ++ b)) ∧
          p = h.base + span Seg.width a + 21 ∧ s'.free = false ∧ size ≤ s'.size ∧
          (mid = [] ∨ ∃ r, mid = [⟨r, true⟩]) ∧
          (b ≠ [] → span Seg.width (s' :: mid) = s.width) ∧
          ∀ x, h.base ≤ x → x < h.limit →
            (x < h.base + span Seg.width a ∨ h.base + span Seg.width a + s.width ≤ x) →
              h'.mem x = h.mem x := by
  exact ⟨fun m _ hb => heapInit_tiled m hb, fun _ _ _ ht hsmall => malloc_takes ht hsmall⟩

/-- A fresh heap, and the block of a first small request. -/
theorem malloc_tiles_first : ∃ h, heapInit (fun _ => 7) 0x10000 = .ok h ∧
    ∃ h' p, malloc h 100 = .ok (h', p) ∧ p ≠ 0 := by
  obtain ⟨h, e, ht⟩ := malloc_tiles.1 (fun _ => 7) 0x10000 (by decide)
  have hfits : (⟨0x1000 - 21, true⟩ : Seg).Fits 100 := by decide
  obtain ⟨h', p, e', hp, _⟩ := malloc_tiles.2 h _ 100 ht fun hno => absurd hfits (hno _ (by simp))
  exact ⟨h, e, h', p, e', hp⟩

end BambooOS
