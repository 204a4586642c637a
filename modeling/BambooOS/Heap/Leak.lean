import BambooOS.Heap.Live

/-!
# Heap.Leak

Who owns the bytes of the heap, through runs of the allocator.

* `NoLeak`: the segments in use are those of the live blocks, and the segments cover the heap.
* `malloc_intact`, `free_cases`, `realloc_noLeak`: what a call does to the segments and their owners.
* `noLeak_run_iff`: a run leaks nothing exactly when `realloc` only ever grows the last segment in
  place, `free` merges nothing, and no segment outgrows its size field. `realloc` never frees the
  block it has copied.
-/

namespace BambooOS

open ByteMem Tiling

/-- The pointers behind the headers in use are those of the live blocks. -/
def SegmentsOwned (st : HeapState) : Prop :=
  ∀ ptr, (∃ p, InChain st.heap p ∧ load st.heap.mem (p + 20) 1 = 0 ∧ ptr = p + 21) ↔
    ∃ b ∈ st.live, b.ptr = ptr

/-- A byte of a header, of a free segment, or of the segment of a live block. -/
def AccountedFor (st : HeapState) (x : Nat) : Prop :=
  ∃ p, InChain st.heap p ∧ p ≤ x ∧ (x < p + 21 ∨ x < p + 21 + load st.heap.mem (p + 16) 4 ∧
    (load st.heap.mem (p + 20) 1 ≠ 0 ∨ ∃ b ∈ st.live, b.ptr = p + 21))

/-- The heap does not leak; its pages have addresses. -/
structure NoLeak (st : HeapState) : Prop where
  space : st.heap.limit < 2 ^ 64
  owned : SegmentsOwned st
  covered : ∀ x, st.heap.base ≤ x → x < st.heap.limit → AccountedFor st x

/-- Where no free segment fits, the last segment can be extended: its size stays below 2^32, and the
heap's end below 2^64. -/
def ExtensionFits (h : Heap) (size : Nat) : Prop :=
  (∀ p, InChain h p → ¬ FitsAt h size p) → h.limit + (size / 0x1000 + 1) * 0x1000 < 2 ^ 64 ∧
    ∀ l, InChain h l → load h.mem (l + 8) 8 = 0 →
      load h.mem (l + 16) 4 + (size / 0x1000 + 1) * 0x1000 < 2 ^ 32

/-- `realloc` grows the last segment in place: no free segment fits, and the block is in the last
one. -/
def GrowsInPlace (h : Heap) (ptr size : Nat) : Prop :=
  (∀ p, InChain h p → ¬ FitsAt h size p) ∧ load h.mem (hdrAddr ptr + 8) 8 = 0

/-- The call keeps the segments in use those of the live blocks. -/
def KeepsOwners (st : HeapState) : HeapOp → Prop
  | .malloc size => ExtensionFits st.heap size
  | .free ptr => MergesNothing st.heap ptr
  | .realloc ptr size => ExtensionFits st.heap size ∧
      ((∃ b ∈ st.live, b.ptr = ptr) → GrowsInPlace st.heap ptr size)

/-- A call of a program that frees live blocks only. -/
def liveCall (st : HeapState) (op : HeapOp) (st' : HeapState) : Prop :=
  (∀ ptr, op = .free ptr → ∃ b ∈ st.live, b.ptr = ptr) ∧ liveStep st op = .ok st'

/-- Behind one of the headers in use when `segs` is laid out from `base` on. -/
def InUse (base : Nat) (segs : List Seg) (ptr : Nat) : Prop :=
  ∃ p s, Tile Seg.width base segs p s ∧ s.free = false ∧ ptr = p + 21

section InUse

variable {base ptr : Nat} {a b segs : List Seg} {s : Seg}

@[simp] theorem inUse_nil : ¬ InUse base [] ptr := by
  intro h
  obtain ⟨p, s, hs, _⟩ := h
  exact tile_nil _ _ _ hs

@[simp] theorem inUse_cons : InUse base (s :: segs) ptr ↔
    (s.free = false ∧ ptr = base + 21) ∨ InUse (base + s.width) segs ptr := by
  constructor
  · intro h
    obtain ⟨p, t, ht, hf, hp⟩ := h
    rcases tile_cons.mp ht with ⟨rfl, rfl⟩ | ht
    · exact .inl ⟨hf, hp⟩
    · exact .inr ⟨p, t, ht, hf, hp⟩
  · intro h
    rcases h with ⟨hf, hp⟩ | ⟨p, t, ht, hf, hp⟩
    · exact ⟨base, s, tile_mid base [] segs s, hf, hp⟩
    · exact ⟨p, t, tile_cons.mpr (.inr ht), hf, hp⟩

@[simp] theorem inUse_append : InUse base (a ++ b) ptr ↔
    InUse base a ptr ∨ InUse (base + span Seg.width a) b ptr := by
  induction a generalizing base with
  | nil => simp
  | cons t a ih => simp [ih, or_assoc, Nat.add_assoc]

theorem InUse.bounds (h : InUse base segs ptr) :
    base + 21 ≤ ptr ∧ ptr ≤ base + span Seg.width segs := by
  obtain ⟨p, s, hs, _, rfl⟩ := h
  have hb := hs.bounds
  have hw : s.width = 21 + s.size := rfl
  omega

end InUse

section Owned

variable {h : Heap} {live : List Block} {segs : List Seg} {ptr : Nat}

theorem Chain.inUse_iff (hc : Chain h segs) : InUse h.base segs ptr ↔
    ∃ p, InChain h p ∧ load h.mem (p + 20) 1 = 0 ∧ ptr = p + 21 := by
  have hflag : ∀ p s, Tile Seg.width h.base segs p s →
      (load h.mem (p + 20) 1 = 0 ↔ s.free = false) := by
    intro p s hs
    obtain ⟨a, b, rfl, rfl⟩ := hs
    rw [← hc.hdrAt.free]
    simp
  constructor
  · intro hu
    obtain ⟨p, s, hs, hf, hp⟩ := hu
    exact ⟨p, hc.inChain_iff.mpr ⟨s, hs⟩, (hflag p s hs).mpr hf, hp⟩
  · intro hu
    obtain ⟨p, hin, h0, hp⟩ := hu
    obtain ⟨s, hs⟩ := hc.inChain_iff.mp hin
    exact ⟨p, s, hs, (hflag p s hs).mp h0, hp⟩

theorem noLeak_iff (hc : Chain h segs) : NoLeak ⟨h, live⟩ ↔
    (∀ ptr, InUse h.base segs ptr ↔ ∃ b ∈ live, b.ptr = ptr) ∧
      span Seg.width segs = h.size * 0x1000 := by
  have hin := hc.inside
  have hlim : h.limit = h.base + h.size * 0x1000 := rfl
  constructor
  · intro hn
    refine ⟨fun ptr => hc.inUse_iff.trans (hn.owned ptr), ?_⟩
    by_contra hne
    -- the last byte is in no segment
    obtain ⟨p, hp, hle, hx⟩ := hn.covered (h.limit - 1)
      (show h.base ≤ h.limit - 1 by omega) (show h.limit - 1 < h.limit by omega)
    obtain ⟨s, hs⟩ := hc.inChain_iff.mp hp
    have hb := hs.bounds
    obtain ⟨a, b, rfl, rfl⟩ := hs
    have hsize := hc.hdrAt.size
    have hw : s.width = 21 + s.size := rfl
    simp only at hx
    omega
  · intro hn
    obtain ⟨howned, hfull⟩ := hn
    refine ⟨hc.space, fun ptr => hc.inUse_iff.symm.trans (howned ptr), fun x hlo hhi => ?_⟩
    simp only at hlo hhi
    obtain ⟨p, s, hs, hle, hlt⟩ := exists_tile (w := Seg.width) (l := segs) hlo (by omega)
    have hp := hc.inChain_iff.mpr ⟨s, hs⟩
    have hw : s.width = 21 + s.size := rfl
    have hsize : load h.mem (p + 16) 4 = s.size := by
      obtain ⟨a, b, rfl, rfl⟩ := hs
      exact hc.hdrAt.size
    refine ⟨p, hp, hle, .inr ⟨by simp only; omega, ?_⟩⟩
    by_cases h0 : load h.mem (p + 20) 1 = 0
    · exact .inr ((howned (p + 21)).mp (hc.inUse_iff.mpr ⟨p, hp, h0, rfl⟩))
    · exact .inl h0

end Owned

/-- Segments that cover the heap, the last of them not empty, and whose `prev` fields name earlier
ones. -/
structure Intact (h : Heap) (segs : List Seg) : Prop extends Tiled h segs where
  low : 0x1000 ≤ h.base
  prevs : Prevs h segs
  last : ∀ s ∈ segs.getLast?, s.size ≠ 0

section Malloc

variable {h h' : Heap} {live : List Block} {segs : List Seg} {p size : Nat}

theorem Chain.last_iff {a : List Seg} {s : Seg} (hc : Chain h (a ++ [s])) :
    InChain h p ∧ load h.mem (p + 8) 8 = 0 ↔ p = h.base + span Seg.width a := by
  constructor
  · intro hp
    obtain ⟨hin, hnext⟩ := hp
    obtain ⟨t, c, d, hsegs, rfl⟩ := hc.inChain_iff.mp hin
    rw [hsegs] at hc
    have hz := hc.hdrAt.next
    have hw : t.width = 21 + t.size := rfl
    rw [hnext] at hz
    cases d with
    | nil =>
      obtain ⟨rfl, _⟩ := List.append_inj' hsegs rfl
      rfl
    | cons u d =>
      rw [if_neg (List.cons_ne_nil u d)] at hz
      omega
  · intro hp
    rw [hp]
    exact ⟨hc.inChain_iff.mpr ⟨s, tile_mid h.base a [] s⟩, hc.hdrAt.next⟩

/-- The memory below the heap's end determines the segments. -/
theorem Headers.unique {m : Mem} {q : Nat} {a b : List Seg} (ha : Headers m q a 0)
    (hb : Headers m q b 0) (hna : a ≠ []) (hnb : b ≠ []) : a = b := by
  induction a generalizing q b with
  | nil => exact absurd rfl hna
  | cons s a ih =>
    obtain ⟨t, b, rfl⟩ := List.exists_cons_of_ne_nil hnb
    have hs := ha.1
    have ht := hb.1
    have hw : s.width = 21 + s.size := rfl
    have hwt : t.width = 21 + t.size := rfl
    have hst : s = t := by
      rw [Seg.mk.injEq, ← hs.size, ← ht.size, ← hs.free, ← ht.free]
      exact ⟨rfl, rfl⟩
    subst hst
    have hnext := hs.next.symm.trans ht.next
    cases a with
    | nil =>
      cases b with
      | nil => rfl
      | cons u b =>
        simp only [if_true, if_neg (List.cons_ne_nil _ _)] at hnext
        omega
    | cons u a =>
      cases b with
      | nil =>
        simp only [if_true, if_neg (List.cons_ne_nil _ _)] at hnext
        omega
      | cons v b => rw [ih ha.2 hb.2 (List.cons_ne_nil _ _) (List.cons_ne_nil _ _)]

theorem Chain.unique {segs' : List Seg} (hc : Chain h segs) (hc' : Chain h segs') : segs = segs' :=
  hc.headers.unique hc'.headers hc.nonempty hc'.nonempty

@[simp] theorem inUse_cut {base ptr : Nat} (s : Seg) :
    InUse base (s.cut size) ptr ↔ ptr = base + 21 := by
  unfold Seg.cut
  split <;> simp

theorem inUse_take {base ptr : Nat} {a b : List Seg} {s s' : Seg} (hb : b ≠ [] → s'.width = s.width) :
    InUse base (a ++ (s'.cut size ++ b)) ptr ↔
      ptr = base + span Seg.width a + 21 ∨ InUse base (a ++ s :: b) ptr := by
  have hrest : InUse (base + span Seg.width a + s'.width) b ptr ↔
      InUse (base + span Seg.width a + s.width) b ptr := by
    by_cases hnil : b = []
    · rw [hnil]
      exact iff_of_false inUse_nil inUse_nil
    · rw [hb hnil]
  simp only [inUse_append, inUse_cons, inUse_cut, Seg.span_cut, hrest]
  tauto

theorem Seg.cut_last {s t : Seg} (hs : s.size ≠ 0) (ht : t ∈ (s.cut size).getLast?) :
    t.size ≠ 0 := by
  unfold Seg.cut at ht
  split at ht
  · cases ht
    exact hs
  · next hroom =>
    cases ht
    show s.size - (size + 21) ≠ 0
    omega

theorem getLast?_append_right {a b : List Seg} (hb : b ≠ []) :
    (a ++ b).getLast? = b.getLast? := by
  obtain ⟨b, z, rfl⟩ := (List.eq_nil_or_concat b).resolve_left hb
  simp

theorem last_replace {a b c : List Seg} {s t : Seg} (hl : ∀ t ∈ (a ++ s :: b).getLast?, t.size ≠ 0)
    (hc : b = [] → ∀ t ∈ c.getLast?, t.size ≠ 0) (hne : c ≠ [])
    (ht : t ∈ (a ++ (c ++ b)).getLast?) : t.size ≠ 0 := by
  by_cases hb : b = []
  · rw [hb, List.append_nil, getLast?_append_right hne] at ht
    exact hc hb t ht
  · rw [← List.append_assoc, getLast?_append_right hb] at ht
    refine hl t ?_
    rw [List.append_cons, getLast?_append_right hb]
    exact ht

theorem extensionFits_iff (hc : Chain h segs) : ExtensionFits h size ↔
    ∀ a s, segs = a ++ [s] → (∀ t ∈ segs, ¬ t.Fits size) →
      h.limit + (size / 0x1000 + 1) * 0x1000 < 2 ^ 64 ∧
        s.size + (size / 0x1000 + 1) * 0x1000 < 2 ^ 32 := by
  unfold ExtensionFits
  rw [nothingFits_iff hc]
  obtain ⟨a, s, rfl⟩ := hc.exists_last
  constructor
  · intro h a' s' hsegs hno
    rw [hsegs] at hc
    obtain ⟨hl, hsize⟩ := h hno
    obtain ⟨hin, hnext⟩ := hc.last_iff.mpr rfl
    have hfit := hsize _ hin hnext
    rw [hc.hdrAt.size] at hfit
    exact ⟨hl, hfit⟩
  · intro h hno
    obtain ⟨hl, hsize⟩ := h a s rfl hno
    refine ⟨hl, fun l hin hnext => ?_⟩
    rw [hc.last_iff.mp ⟨hin, hnext⟩, hc.hdrAt.size]
    exact hsize

/-- `realloc` grows a block in place exactly when it gets the last segment again. -/
theorem growsInPlace_iff {a : List Seg} {s : Seg} {ptr : Nat} (hc : Chain h (a ++ [s]))
    (hno : ∀ t ∈ a ++ [s], ¬ t.Fits size) (hu : InUse h.base (a ++ [s]) ptr) :
    GrowsInPlace h ptr size ↔ h.base + span Seg.width a + 21 = ptr := by
  obtain ⟨q, t, ht, _, rfl⟩ := hu
  have hb := ht.bounds
  have hin := hc.inside
  have hspace := hc.space
  have hw : t.width = 21 + t.size := rfl
  have hq : hdrAddr (q + 21) = q := hdrAddr_payload (by omega)
  have hlast := hc.last_iff (p := q)
  unfold GrowsInPlace
  rw [nothingFits_iff hc, hq]
  constructor
  · intro hg
    rw [hlast.mp ⟨hc.inChain_iff.mpr ⟨t, ht⟩, hg.2⟩]
  · intro hp
    exact ⟨hno, (hlast.mpr (by omega)).2⟩

theorem found_intact {a b : List Seg} {s : Seg} (hi : Intact h (a ++ s :: b)) (hfit : s.Fits size)
    (hc' : Chain h' (a ++ (s.cut size ++ b)))
    (ht : Touched h h' (h.base + span Seg.width a + 8) (h.base + span Seg.width a + s.width))
    (hback : size + 21 < s.size → load h'.mem (h.base + span Seg.width a + 21 + size) 8 =
      h.base + span Seg.width a) : Intact h' (a ++ (s.cut size ++ b)) := by
  obtain ⟨s', mid, hcut, _, _, hmid⟩ := s.cut_back hfit.2 hback
  have hspan := s.span_cut size
  refine ⟨⟨hc', ?_⟩, ?_, ?_, fun t ht => ?_⟩
  · rw [ht.size, ← hi.full]
    simp only [span_append, span_cons, hspan]
  · rw [ht.base]
    exact hi.low
  · rw [hcut] at hspan ⊢
    exact hi.prevs.replace ht.base (fun x _ hx => ht.other x hx) (fun _ => hspan) hmid
  · refine last_replace hi.last (fun hnil t ht => ?_) (s.cut_ne_nil size) ht
    exact Seg.cut_last (hi.last s (by simp [hnil])) ht

theorem extend_intact {a : List Seg} {s : Seg} {n : Nat} (hi : Intact h (a ++ [s]))
    (hsmall : s.size + n * 0x1000 < 2 ^ 32) (hpos : 0 < n) (hfit : size ≤ (s.extended n).size)
    (hb : h'.base = h.base) (hs : h'.size = h.size + n)
    (ho : ∀ x, x < h.limit → (x < h.base + span Seg.width a + 8 ∨
      h.base + span Seg.width a + (s.extended n).width ≤ x) → h'.mem x = h.mem x)
    (hc' : Chain h' (a ++ (s.extended n).cut size))
    (hback : size + 21 < (s.extended n).size →
      load h'.mem (h.base + span Seg.width a + 21 + size) 8 = h.base + span Seg.width a) :
    Intact h' (a ++ (s.extended n).cut size) := by
  obtain ⟨s', mid, hcut, _, _, hmid⟩ := (s.extended n).cut_back hfit hback
  have hsize : (s.extended n).size = s.size + n * 0x1000 := Nat.mod_eq_of_lt hsmall
  have hws : s.width = 21 + s.size := rfl
  have hwe : (s.extended n).width = 21 + (s.extended n).size := rfl
  have hspan := (s.extended n).span_cut size
  have hfull := hi.full
  have hin := hi.inside
  simp only [span_append, span_cons, span_nil] at hin hfull
  refine ⟨⟨hc', ?_⟩, ?_, ?_, fun t ht => ?_⟩
  · rw [hs, span_append, hspan]
    omega
  · rw [hb]
    exact hi.low
  · have hm : ∀ x, x < h.base + span Seg.width (a ++ [s]) →
        (x < h.base + span Seg.width a + 8 ∨ h.base + span Seg.width a + s.width ≤ x) →
          h'.mem x = h.mem x := by
      intro x hx hx'
      simp only [span_append, span_cons, span_nil] at hx
      exact ho x (by omega) (by omega)
    have hprevs := hi.prevs.replace hb hm (fun hne => absurd rfl hne) hmid
    rw [List.append_nil] at hprevs
    rw [hcut]
    exact hprevs
  · refine last_replace (b := []) hi.last (fun _ t ht => ?_) ((s.extended n).cut_ne_nil size)
      (by simpa using ht)
    exact Seg.cut_last (by omega) ht

/-- `malloc` takes one segment, which then is in use besides those that were. -/
theorem malloc_intact (hi : Intact h segs) (hf : ExtensionFits h size)
    (e : malloc h size = .ok (h', p)) : ∃ segs', Intact h' segs' ∧
      (∀ ptr, InUse h'.base segs' ptr ↔ ptr = p ∨ InUse h.base segs ptr) ∧
      ∀ ptr, InUse h.base segs ptr → (GrowsInPlace h ptr size ↔ p = ptr) := by
  have hc := hi.toChain
  obtain ⟨hb, hs⟩ := malloc_pages hc e
  have hl : h'.limit < 2 ^ 64 := by
    have hspace := hc.space
    have hlim : h.limit = h.base + h.size * 0x1000 := rfl
    obtain ⟨a, s, hsegs⟩ := hc.exists_last
    simp only [Heap.limit, hb, hs]
    split
    · next hno =>
      have hl := ((extensionFits_iff hc).mp hf a s hsegs hno).1
      omega
    · omega
  rcases malloc_cases hc e hl with
    ⟨a, s, b, rfl, _, hfit, hp, hc', ht, hback⟩ | ⟨a, s, n, rfl, hno, hn, _, hs', ho, hrest⟩
  · refine ⟨_, found_intact hi hfit hc' ht hback, fun ptr => ?_, fun ptr hu => ?_⟩
    · rw [hb, hp]
      exact inUse_take fun _ => rfl
    · -- a free segment fits, and is no block's
      constructor
      · intro hg
        exact absurd hfit ((nothingFits_iff hc).mp hg.1 s (by simp))
      · intro he
        obtain ⟨q, t, htile, htf, hq⟩ := hu
        have hne := tile_free_ne htile (tile_mid h.base a b s) htf hfit.1
        omega
  · obtain ⟨_, hsmall⟩ := (extensionFits_iff hc).mp hf a s rfl hno
    rw [← hn] at hsmall
    have hfit : size ≤ (s.extended n).size := by
      have hsize : (s.extended n).size = s.size + n * 0x1000 := Nat.mod_eq_of_lt hsmall
      omega
    rw [if_pos hfit] at hrest
    obtain ⟨hp, hc', hback⟩ := hrest
    refine ⟨_, extend_intact hi hsmall (by omega) hfit hb hs' ho hc' hback, fun ptr => ?_,
      fun ptr hu => ?_⟩
    · have htake : InUse h.base (a ++ ((s.extended n).cut size ++ [])) ptr ↔ _ :=
        inUse_take (s := s) (absurd rfl)
      rw [List.append_nil] at htake
      rw [hb, hp]
      exact htake
    · rw [hp]
      exact growsInPlace_iff hc hno hu

/-- Where the segments cover the heap behind a `malloc`, no size has wrapped. -/
theorem extension_fits (ht : Tiled h segs) (e : malloc h size = .ok (h', p))
    (hl : h'.limit < 2 ^ 64)
    (hfull : ∀ segs', Chain h' segs' → span Seg.width segs' = h'.size * 0x1000) :
    ExtensionFits h size := by
  have hc := ht.toChain
  refine (extensionFits_iff hc).mpr fun a s hsegs hno => ?_
  subst hsegs
  rcases malloc_cases hc e hl with
    ⟨c, t, d, hsegs, _, hfit, _⟩ | ⟨c, t, n, hsegs, _, hn, hb, hs, _, hrest⟩
  · exact absurd hfit (hno t (by rw [hsegs]; simp))
  · obtain ⟨rfl, hst⟩ := List.append_inj' hsegs rfl
    obtain rfl : s = t := by simpa using hst
    have hold := ht.full
    have hwe : (s.extended n).width = 21 + (s.size + n * 0x1000) % 2 ^ 32 := rfl
    have hws : s.width = 21 + s.size := rfl
    -- the extended segment, whole or cut, has the width that is left
    have hspan : span Seg.width a + (s.extended n).width = h'.size * 0x1000 := by
      split at hrest
      · rw [← hfull _ hrest.2.1, span_append, Seg.span_cut]
      · rw [← hfull _ hrest.2]
        simp
    simp only [span_append, span_cons, span_nil] at hold
    rw [← hn]
    refine ⟨?_, ?_⟩
    · simp only [Heap.limit, hb, hs] at hl ⊢
      omega
    · have hlt : (s.size + n * 0x1000) % 2 ^ 32 < 2 ^ 32 := Nat.mod_lt _ (by decide)
      omega

theorem realloc_payload {ptr : Nat} (hc : Chain h segs) (hlow : 0 < h.base)
    (e : realloc h ptr size = .ok (h', p)) : ∃ h₁, malloc h size = .ok (h₁, p) ∧
      h₁.limit = h'.limit ∧ (h₁.limit < 2 ^ 64 → ∃ a s b, Chain h₁ (a ++ s :: b) ∧
        Touched h₁ h' (h₁.base + span Seg.width a + 21)
          (h₁.base + span Seg.width a + s.width)) := by
  obtain ⟨h₁, e₁, hcopy⟩ := realloc_cases e
  obtain ⟨hb, _⟩ := malloc_pages hc e₁
  refine ⟨h₁, e₁, ?_, fun hl => ?_⟩
  · rcases hcopy with rfl | ⟨n, _, ht, _⟩
    · rfl
    · exact ht.limit.symm
  -- the block's segment takes what is copied
  have hin : ∀ a s b c, c = s :: b → size ≤ s.size → Chain h₁ (a ++ c) →
      p = h.base + span Seg.width a + 21 → ∃ a s b, Chain h₁ (a ++ s :: b) ∧
        Touched h₁ h' (h₁.base + span Seg.width a + 21)
          (h₁.base + span Seg.width a + s.width) := by
    intro a s b c hcs hsize hc₁ hp
    rw [hcs] at hc₁
    refine ⟨a, s, b, hc₁, ?_⟩
    rcases hcopy with rfl | ⟨n, hn, ht, _⟩
    · exact .refl _ _ _
    · have hw : s.width = 21 + s.size := rfl
      rw [hp, ← hb] at ht
      exact ht.mono (Nat.le_refl _) (by omega)
  rcases malloc_cases hc e₁ hl with
    ⟨a, s, b, rfl, _, hfit, hp, hc', _, hback⟩ | ⟨a, s, n, rfl, _, hn, _, _, _, hrest⟩
  · obtain ⟨s', mid, hcut, _, hsize, _⟩ := s.cut_back hfit.2 hback
    exact hin a s' (mid ++ b) _ (by rw [hcut]; rfl) hsize hc' hp
  · split at hrest
    · next hfit =>
      obtain ⟨hp, hc', hback⟩ := hrest
      obtain ⟨s', mid, hcut, _, hsize, _⟩ := (s.extended n).cut_back hfit hback
      exact hin a s' mid _ hcut hsize hc' hp
    · obtain ⟨hp, hc'⟩ := hrest
      refine ⟨a, _, [], hc', ?_⟩
      rcases hcopy with rfl | ⟨n, _, ht, hm⟩
      · exact .refl _ _ _
      · -- no block: nothing was copied to NULL
        have hn0 : n = 0 := hm.resolve_right fun hm => by
          have := hm.1
          omega
        rw [hn0] at ht
        rw [ht.eq_of_empty]
        exact .refl _ _ _

theorem Intact.payload {a b : List Seg} {s : Seg} (hi : Intact h (a ++ s :: b))
    (ht : Touched h h' (h.base + span Seg.width a + 21) (h.base + span Seg.width a + s.width)) :
    Intact h' (a ++ s :: b) := by
  refine ⟨⟨hi.toChain.payload ht, ?_⟩, ?_, hi.prevs.payload ht, hi.last⟩
  · rw [ht.size]
    exact hi.full
  · rw [ht.base]
    exact hi.low

end Malloc

section Free

variable {h h' h₁ : Heap} {live : List Block} {a b l r : List Seg} {s t u : Seg} {q : Nat}

/-- The headers that can be reached behind a merge: those before it, the merged one and the cleared
one. -/
theorem merged_reach (hc : Chain h (l ++ t :: u :: r))
    (hm : Merged h h' (h.base + span Seg.width l)
      (h.base + span Seg.width l + t.width + u.width) ⟨(t.size + u.width) % 2 ^ 32, t.free⟩)
    (hq : InChain h' q) : (∃ v, Tile Seg.width h.base l q v) ∨ q = h.base + span Seg.width l ∨
      q = h.base + span Seg.width l + t.width + u.width := by
  induction hq with
  | base =>
    rw [hm.base]
    cases l with
    | nil => exact .inr (.inl rfl)
    | cons v l => exact .inl ⟨v, tile_mid h.base [] l v⟩
  | @next q n _ hn hn0 ih =>
    rcases ih with ⟨v, hv⟩ | rfl | rfl
    · have hb := hv.bounds
      have hw : v.width = 21 + v.size := rfl
      have hload : load h'.mem (q + 8) 8 = load h.mem (q + 8) 8 :=
        load_congr fun x _ hx => hm.below x (by omega)
      obtain ⟨c, d, rfl, rfl⟩ := hv
      rw [List.append_assoc, List.cons_append] at hc
      rw [hload, hc.hdrAt.next, if_neg (by simp)] at hn
      cases d with
      | nil =>
        refine .inr (.inl ?_)
        rw [← hn]
        simp [Nat.add_assoc]
      | cons w d =>
        refine .inl ⟨w, c ++ [v], d, by simp, ?_⟩
        rw [← hn]
        simp [Nat.add_assoc]
    · exact .inr (.inr (hn.symm.trans hm.hdr.next))
    · exact absurd (hn.symm.trans hm.cleared.next) hn0

/-- A merge leaves the bytes behind the cleared header to nobody. -/
theorem merged_leaks (hi : Intact h (l ++ t :: u :: r))
    (e : heapMergeForward h (h.base + span Seg.width l) = .ok h') : ¬ NoLeak ⟨h', live⟩ := by
  intro hn
  have hc := hi.toChain
  have hr := hc.merge_ok hi.low e
  obtain ⟨h₂, e₂, hm, _⟩ := hc.merge hr
  rw [e] at e₂
  cases e₂
  have hwt : t.width = 21 + t.size := rfl
  have hwu : u.width = 21 + u.size := rfl
  -- more than a header is left behind
  have hrest : 21 < span Seg.width r := by
    obtain ⟨r, z, rfl⟩ := (List.eq_nil_or_concat r).resolve_left hr
    have hz := hi.last z (by
      rw [List.append_cons, List.append_cons, getLast?_append_right hr]
      simp)
    have hw : z.width = 21 + z.size := rfl
    simp only [List.concat_eq_append, span_append, span_cons, span_nil]
    omega
  have hlim : h'.limit = h.base + h.size * 0x1000 := by simp only [Heap.limit, hm.base, hm.size]
  have hfull := hi.full
  simp only [span_append, span_cons] at hfull
  obtain ⟨q, hq, hle, hx⟩ := hn.covered (h'.limit - 1)
    (show h'.base ≤ h'.limit - 1 by rw [hm.base]; omega) (show h'.limit - 1 < h'.limit by omega)
  simp only at hq hle hx
  rcases merged_reach hc hm hq with ⟨v, hv⟩ | rfl | rfl
  · have hb := hv.bounds
    have hw : v.width = 21 + v.size := rfl
    have hsize : load h'.mem (q + 16) 4 = v.size := by
      have hload : load h'.mem (q + 16) 4 = load h.mem (q + 16) 4 :=
        load_congr fun x _ hx => hm.below x (by omega)
      obtain ⟨c, d, rfl, rfl⟩ := hv
      rw [List.append_assoc, List.cons_append] at hc
      rw [hload, hc.hdrAt.size]
    omega
  · have hsize := hm.hdr.size
    have hmod : (t.size + u.width) % 2 ^ 32 ≤ t.size + u.width := Nat.mod_le _ _
    simp only at hsize
    omega
  · have hsize := hm.cleared.size
    simp only at hsize
    omega

theorem Intact.release (hi : Intact h (a ++ s :: b)) (hc₁ : Chain h₁ (a ++ ⟨s.size, true⟩ :: b))
    (t₁ : Touched h h₁ (h.base + span Seg.width a + 20) (h.base + span Seg.width a + 21)) :
    Intact h₁ (a ++ ⟨s.size, true⟩ :: b) := by
  have hws : s.width = 21 + s.size := rfl
  refine ⟨⟨hc₁, ?_⟩, ?_, ?_, fun t ht => ?_⟩
  · rw [t₁.size, ← hi.full]
    simp only [span_append, span_cons, Seg.width]
  · rw [t₁.base]
    exact hi.low
  · exact hi.prevs.replace t₁.base (fun x _ hx => t₁.other x (by omega)) (fun _ => rfl) (.inl rfl)
  · refine last_replace (c := [⟨s.size, true⟩]) hi.last (fun hb t ht => ?_) (by simp) ht
    cases ht
    exact hi.last s (by simp [hb])

theorem prev_place (hi : Intact h (a ++ s :: b)) :
    load h.mem (h.base + span Seg.width a) 8 = 0 ∨ ∃ l t r,
      a ++ ⟨s.size, true⟩ :: b = l ++ t :: r ∧ r ≠ [] ∧
        load h.mem (h.base + span Seg.width a) 8 = h.base + span Seg.width l ∧
          h.base + span Seg.width l + 21 ≤ h.base + span Seg.width a := by
  rcases hi.prevs _ s (tile_mid h.base a b s) with h0 | ⟨hlt, t, htile⟩
  · exact .inl h0
  · have hwt : t.width = 21 + t.size := rfl
    have hsep := htile.sep (tile_mid h.base a b s)
    obtain ⟨l, r, hsegs, hql⟩ :=
      htile.replace (c := [(⟨s.size, true⟩ : Seg)]) (by omega) fun _ => rfl
    refine .inr ⟨l, t, r, hsegs, ?_, hql, by omega⟩
    intro h0
    rw [h0] at hsegs
    have hspan := congrArg (span Seg.width) hsegs
    simp only [span_append, span_cons, span_nil, List.singleton_append, Seg.width] at hspan hsep
    omega

/-- What `free` of the payload of a segment did: it set the flag, and no more, or it went on to
merge two segments. -/
theorem free_cases (hi : Intact h (a ++ s :: b))
    (e : free h (h.base + span Seg.width a + 21) = .ok h') :
    (MergesNothing h (h.base + span Seg.width a + 21) ∧ Intact h' (a ++ ⟨s.size, true⟩ :: b) ∧
      h'.base = h.base) ∨
    (¬ MergesNothing h (h.base + span Seg.width a + 21) ∧ ∃ h₁ l t u r,
      Intact h₁ (l ++ t :: u :: r) ∧ heapMergeForward h₁ (h₁.base + span Seg.width l) = .ok h') := by
  have hc := hi.toChain
  have hspace := hc.space
  have hend := hc.mapped_seg.2
  have hws : s.width = 21 + s.size := rfl
  have hmerges : MergesNothing h (h.base + span Seg.width a + 21) ↔
      (load h.mem (h.base + span Seg.width a) 8 = 0 ∨
        load h.mem (load h.mem (h.base + span Seg.width a) 8 + 20) 1 = 0) ∧
      load h.mem (load h.mem (h.base + span Seg.width a + 8) 8 + 20) 1 = 0 := by
    unfold MergesNothing
    rw [hdrAddr_payload (by omega)]
    exact ⟨fun hm => hm (hc.inChain_iff.mpr ⟨s, tile_mid h.base a b s⟩), fun hm _ => hm⟩
  obtain ⟨h₁, t₁, hc₁, e₁⟩ := free_start hc
  have hi₁ := hi.release hc₁ t₁
  have hprev : load h₁.mem (h₁.base + span Seg.width a) 8 = load h.mem (h.base + span Seg.width a) 8 := by
    rw [t₁.base]
    exact t₁.load (by omega)
  rw [e₁, ← t₁.base] at e
  by_cases hback : load h.mem (h.base + span Seg.width a) 8 = 0 ∨
      load h.mem (load h.mem (h.base + span Seg.width a) 8 + 20) 1 = 0
  · have hskip : mergeBackward h₁ (h₁.base + span Seg.width a) =
        .ok (h₁, h₁.base + span Seg.width a) := by
      refine mergeBackward_skip hc₁.mapped_hdr ?_
      rw [hprev]
      rcases prev_place hi with h0 | ⟨l, t, r, hsegs, _, hq, hle⟩
      · exact .inl h0
      · refine hback.imp_right fun h0 => ?_
        have hc₂ : Chain h₁ (l ++ t :: r) := hsegs ▸ hc₁
        have hmapped := hc₂.mapped_hdr
        rw [t₁.base] at hmapped
        rw [hq] at h0 ⊢
        exact ⟨hmapped, by rw [t₁.load (by omega), h0]⟩
    obtain ⟨n, b, rfl, hcase⟩ := free_forward hc₁ hi₁.low hskip e
    have hn : Chain h ((a ++ [s]) ++ n :: b) := by simpa using hc
    have hflag := hn.hdrAt.free
    have hnext := hc.hdrAt.next
    rw [if_neg (List.cons_ne_nil n b)] at hnext
    simp only [span_append, span_cons, span_nil, Nat.add_zero, ← Nat.add_assoc] at hflag
    rw [hmerges, hnext]
    rcases hcase with ⟨hf, rfl⟩ | ⟨hf, em⟩
    · refine .inl ⟨⟨hback, ?_⟩, hi₁, t₁.base⟩
      rw [hf, decide_eq_false_iff_not, not_not] at hflag
      exact hflag
    · rw [hf, decide_eq_true_iff] at hflag
      exact .inr ⟨fun hm => hflag hm.2, h₁, a, _, n, b, hi₁, em⟩
  · -- the segment that `prev` names is free, and absorbs the next one
    refine .inr ⟨fun hm => hback (hmerges.mp hm).1, ?_⟩
    rw [not_or] at hback
    obtain ⟨l, t, r, hsegs, hr, hq, hle⟩ := (prev_place hi).resolve_left hback.1
    obtain ⟨u, r, rfl⟩ := List.exists_cons_of_ne_nil hr
    rw [hsegs] at hi₁
    have hflag := hi₁.hdrAt.free
    rw [t₁.base, t₁.load (by omega), ← hq, decide_eq_true hback.2] at hflag
    exact ⟨h₁, l, t, u, r, hi₁, free_backward hi₁.toChain hi₁.low hc₁.mapped_hdr
      (hprev.trans (by rw [hq, t₁.base])) hflag.symm e⟩

theorem inUse_release {base ptr : Nat} : InUse base (a ++ ⟨s.size, true⟩ :: b) ptr ↔
    InUse base (a ++ s :: b) ptr ∧ ptr ≠ base + span Seg.width a + 21 := by
  have hw : (⟨s.size, true⟩ : Seg).width = s.width := rfl
  have hws : s.width = 21 + s.size := rfl
  simp only [inUse_append, inUse_cons, hw, Bool.true_eq_false, false_and, false_or]
  constructor
  · intro hu
    rcases hu with ha | hb
    · have hbound := ha.bounds
      exact ⟨.inl ha, by omega⟩
    · have hbound := hb.bounds
      exact ⟨.inr (.inr hb), by omega⟩
  · intro hu
    obtain ⟨ha | ⟨_, hp⟩ | hb, hne⟩ := hu
    · exact .inl ha
    · exact absurd hp hne
    · exact .inr hb

end Free

section Steps

variable {h h' : Heap} {live : List Block} {segs : List Seg} {p ptr size : Nat}

theorem malloc_noLeak (hi : Intact h segs)
    (hn : ∀ ptr, InUse h.base segs ptr ↔ ∃ b ∈ live, b.ptr = ptr)
    (e : malloc h size = .ok (h', p)) :
    (ExtensionFits h size ↔ NoLeak ⟨h', handOut p size live live⟩) ∧
      (ExtensionFits h size → ∃ segs', Intact h' segs') := by
  refine ⟨⟨fun hf => ?_, fun hn' => ?_⟩, fun hf => ?_⟩
  · obtain ⟨segs', hi', hu, _⟩ := malloc_intact hi hf e
    have hp := ((hu p).mpr (.inl rfl)).bounds.1
    refine (noLeak_iff hi'.toChain).mpr ⟨fun ptr => ?_, hi'.full⟩
    rw [hu, hn, handOut, if_neg (by omega)]
    simp [eq_comm]
  · exact extension_fits hi.toTiled e hn'.space fun segs' hc' => ((noLeak_iff hc').mp hn').2
  · obtain ⟨segs', hi', _⟩ := malloc_intact hi hf e
    exact ⟨segs', hi'⟩

theorem free_noLeak (hi : Intact h segs)
    (hn : ∀ ptr, InUse h.base segs ptr ↔ ∃ b ∈ live, b.ptr = ptr) (hu : InUse h.base segs ptr)
    (e : free h ptr = .ok h') :
    (MergesNothing h ptr ↔ NoLeak ⟨h', others live ptr⟩) ∧
      (MergesNothing h ptr → ∃ segs', Intact h' segs') := by
  obtain ⟨q, s, ⟨a, b, rfl, rfl⟩, _, rfl⟩ := hu
  rcases free_cases hi e with ⟨hm, hi', hb⟩ | ⟨hm, h₁, l, t, u, r, hi₁, em⟩
  · refine ⟨iff_of_true hm ?_, fun _ => ⟨_, hi'⟩⟩
    refine (noLeak_iff hi'.toChain).mpr ⟨fun ptr => ?_, hi'.full⟩
    rw [hb, inUse_release, hn]
    constructor
    · intro hp
      obtain ⟨⟨c, hc, rfl⟩, hne⟩ := hp
      exact ⟨c, mem_others.mpr ⟨hc, hne⟩, rfl⟩
    · intro hp
      obtain ⟨c, hc, rfl⟩ := hp
      obtain ⟨hcl, hne⟩ := mem_others.mp hc
      exact ⟨⟨c, hcl, rfl⟩, hne⟩
  · exact ⟨iff_of_false hm (merged_leaks hi₁ em), fun hm' => absurd hm' hm⟩

/-- `realloc` never gives up the block it has copied: what is live stays owned only if the new block
is in the old segment. -/
theorem realloc_noLeak (hi : Intact h segs)
    (hn : ∀ ptr, InUse h.base segs ptr ↔ ∃ b ∈ live, b.ptr = ptr)
    (e : realloc h ptr size = .ok (h', p)) :
    (ExtensionFits h size ∧ ((∃ b ∈ live, b.ptr = ptr) → GrowsInPlace h ptr size) ↔
      NoLeak ⟨h', handOut p size live (others live ptr)⟩) ∧
      (ExtensionFits h size → ∃ segs', Intact h' segs') := by
  have hlow := hi.low
  obtain ⟨h₁, e₁, hl₁, hpay⟩ := realloc_payload hi.toChain (by omega) e
  by_cases hf : ExtensionFits h size
  · obtain ⟨segs', hi₁, hu, hgrow⟩ := malloc_intact hi hf e₁
    have hp := ((hu p).mpr (.inl rfl)).bounds.1
    obtain ⟨a, s, b, hc₁, ht⟩ := hpay hi₁.space
    obtain rfl := hc₁.unique hi₁.toChain
    have hi' := hi₁.payload ht
    refine ⟨?_, fun _ => ⟨_, hi'⟩⟩
    rw [noLeak_iff hi'.toChain, handOut, if_neg (by omega), ht.base]
    constructor
    · intro hk
      refine ⟨fun x => ?_, hi'.full⟩
      rw [hu, hn]
      simp only [List.mem_cons, exists_eq_or_imp, mem_others]
      constructor
      · intro hx
        rcases hx with rfl | ⟨c, hc, rfl⟩
        · exact .inl rfl
        · by_cases hcp : c.ptr = ptr
          · refine .inl ?_
            rw [hcp]
            exact (hgrow ptr ((hn ptr).mpr ⟨c, hc, hcp⟩)).mp (hk.2 ⟨c, hc, hcp⟩)
          · exact .inr ⟨c, ⟨hc, hcp⟩, rfl⟩
      · intro hx
        rcases hx with hx | ⟨c, ⟨hc, _⟩, hx⟩
        · exact .inl hx.symm
        · exact .inr ⟨c, hc, hx⟩
    · intro hk
      refine ⟨hf, fun hlive => ?_⟩
      have hin := (hn ptr).mpr hlive
      rw [hgrow ptr hin]
      -- the old block's segment is in use, so it is the new block's
      obtain ⟨c, hc, hcp⟩ := (hk.1 ptr).mp ((hu ptr).mpr (.inr hin))
      rcases List.mem_cons.mp hc with rfl | hc
      · exact hcp
      · exact absurd hcp (mem_others.mp hc).2
  · refine ⟨iff_of_false (fun hk => hf hk.1) fun hn' => hf ?_, fun hf' => absurd hf' hf⟩
    have hl : h₁.limit < 2 ^ 64 := by
      rw [hl₁]
      exact hn'.space
    obtain ⟨a, s, b, hc₁, ht⟩ := hpay hl
    refine extension_fits hi.toTiled e₁ hl fun segs' hc' => ?_
    rw [hc'.unique hc₁, ((noLeak_iff (hc₁.payload ht)).mp hn').2, ht.size]

theorem liveCall_noLeak {st st' : HeapState} {op : HeapOp} (hn : NoLeak st)
    (hi : Intact st.heap segs) (hs : liveCall st op st') :
    (KeepsOwners st op ↔ NoLeak st') ∧ (KeepsOwners st op → ∃ segs', Intact st'.heap segs') := by
  obtain ⟨hfree, e⟩ := hs
  have howned := ((noLeak_iff hi.toChain).mp hn).1
  cases op with
  | malloc size =>
    obtain ⟨⟨h, p⟩, e₁, e⟩ := bind_ok e
    cases e
    exact malloc_noLeak hi howned e₁
  | free ptr =>
    obtain ⟨h, e₁, e⟩ := bind_ok e
    cases e
    exact free_noLeak hi howned ((howned ptr).mpr (hfree ptr rfl)) e₁
  | realloc ptr size =>
    obtain ⟨⟨h, p⟩, e₁, e⟩ := bind_ok e
    cases e
    obtain ⟨hiff, hkeep⟩ := realloc_noLeak hi howned e₁
    exact ⟨hiff, fun hk => hkeep hk.1⟩

end Steps

/-- A fresh heap leaks nothing, and the runs from it whose calls all meet the condition are those
that leak nothing in any state they reach. -/
theorem noLeak_run_iff {m : Mem} {base : Nat} (hb : 0x1000 ≤ base ∧ base + 0x1000 < 2 ^ 64)
    {h : Heap} (hinit : heapInit m base = .ok h) : NoLeak ⟨h, []⟩ ∧
      ∀ ops st, Run.Exec (fun st op st' => liveCall st op st' ∧ KeepsOwners st op) ⟨h, []⟩ ops st ↔
        Run.Exec (fun st op st' => liveCall st op st' ∧ NoLeak st') ⟨h, []⟩ ops st := by
  obtain ⟨h₀, e₀, hbase, hsize, hc, hprev⟩ := heapInit_spec m hb.2
  rw [hinit] at e₀
  cases e₀
  have hi : Intact h [⟨0x1000 - 21, true⟩] := by
    refine ⟨⟨hc, by rw [hsize]; rfl⟩, by omega, fun p s hs => ?_, by simp⟩
    rcases tile_cons.mp hs with ⟨rfl, _⟩ | hs
    · rw [hbase]
      exact .inl hprev
    · exact absurd hs (tile_nil _ _ _)
  have hstart : NoLeak ⟨h, []⟩ := by
    refine (noLeak_iff hc).mpr ⟨fun ptr => ?_, hi.full⟩
    simp
  refine ⟨hstart, fun ops st => ?_⟩
  refine Run.Exec.congr (I := fun st => NoLeak st ∧ ∃ segs, Intact st.heap segs) ?_ ?_ ⟨hstart, _, hi⟩
  · intro st op st' hinv
    obtain ⟨hn, segs, hi⟩ := hinv
    exact and_congr_right fun hs => (liveCall_noLeak hn hi hs).1
  · intro st op st' hinv hs
    obtain ⟨hn, segs, hi⟩ := hinv
    obtain ⟨hiff, hkeep⟩ := liveCall_noLeak hn hi hs.1
    exact ⟨hiff.mp hs.2, hkeep hs.2⟩

/-- Two blocks, and the first one freed in front of the second. -/
theorem noLeak_freed : ∃ h st, heapInit (fun _ => 7) 0x10000 = .ok h ∧
    Run.Exec liveCall ⟨h, []⟩ [.malloc 100, .malloc 50, .free 0x10015] st ∧ NoLeak st := by
  have hrun : returns (do
      let h ← heapInit (fun _ => 7) 0x10000
      let st₁ ← liveStep ⟨h, []⟩ (.malloc 100)
      let st₂ ← liveStep st₁ (.malloc 50)
      let st₃ ← liveStep st₂ (.free 0x10015)
      return (h, st₁, st₂, st₃)) (fun r => decide (FitsAt r.1 100 r.1.base ∧
        load r.2.1.heap.mem (r.2.1.heap.base + 8) 8 = 0x10079 ∧ FitsAt r.2.1.heap 50 0x10079 ∧
        load r.2.2.1.heap.mem 0x10000 8 = 0 ∧
        load r.2.2.1.heap.mem (load r.2.2.1.heap.mem 0x10008 8 + 20) 1 = 0 ∧
        r.2.2.1.live = [⟨0x1008e, 50⟩, ⟨0x10015, 100⟩])) = true := by
    decide +kernel
  obtain ⟨⟨h, st₁, st₂, st₃⟩, e, htest⟩ := returns_iff.mp hrun
  obtain ⟨h', e₀, e⟩ := bind_ok e
  obtain ⟨st₁', e₁, e⟩ := bind_ok e
  obtain ⟨st₂', e₂, e⟩ := bind_ok e
  obtain ⟨st₃', e₃, e⟩ := bind_ok e
  cases e
  obtain ⟨hfit, hnext, hfit', hprev, hflag, hlive⟩ := of_decide_eq_true htest
  simp only at hfit hnext hfit' hprev hflag hlive
  have c₁ : liveCall ⟨h, []⟩ (.malloc 100) st₁ := ⟨by simp, e₁⟩
  have c₂ : liveCall st₁ (.malloc 50) st₂ := ⟨by simp, e₂⟩
  have c₃ : liveCall st₂ (.free 0x10015) st₃ := by
    refine ⟨fun ptr hp => ?_, e₃⟩
    cases hp
    exact ⟨⟨0x10015, 100⟩, by simp [hlive], rfl⟩
  have k₁ : KeepsOwners ⟨h, []⟩ (.malloc 100) := fun hno => absurd hfit (hno _ .base)
  have k₂ : KeepsOwners st₁ (.malloc 50) :=
    fun hno => absurd hfit' (hno _ (InChain.base.next hnext (by decide)))
  have k₃ : KeepsOwners st₂ (.free 0x10015) := fun _ => ⟨.inl hprev, hflag⟩
  have hkept := ((noLeak_run_iff (by decide) e₀).2 _ st₃).mp
    (.cons ⟨c₁, k₁⟩ (.cons ⟨c₂, k₂⟩ (.cons ⟨c₃, k₃⟩ .nil)))
  refine ⟨h, st₃, e₀, .cons c₁ (.cons c₂ (.cons c₃ .nil)), ?_⟩
  cases hkept with
  | cons _ hkept => cases hkept with
    | cons _ hkept => cases hkept with
      | cons hs hkept =>
        cases hkept
        exact hs.2

/-- A block of ten bytes is grown to twenty: its old segment stays in use, and nobody's. -/
theorem realloc_leaks : ∃ h st, heapInit (fun _ => 7) 0x10000 = .ok h ∧
    Run.Exec (fun st op st' => LiveArg st op ∧ liveStep st op = .ok st') ⟨h, []⟩
      [.malloc 10, .realloc 0x10015 20] st ∧ ¬ SegmentsOwned st := by
  have hrun : returns (do
      let h ← heapInit (fun _ => 7) 0x10000
      let st₁ ← liveStep ⟨h, []⟩ (.malloc 10)
      let st₂ ← liveStep st₁ (.realloc 0x10015 20)
      return (h, st₁, st₂)) (fun r => decide (r.2.1.live = [⟨0x10015, 10⟩] ∧
        r.2.2.live = [⟨0x10034, 20⟩] ∧ r.2.2.heap.base = 0x10000 ∧
        load r.2.2.heap.mem 0x10014 1 = 0)) = true := by
    decide +kernel
  obtain ⟨⟨h, st₁, st₂⟩, e, htest⟩ := returns_iff.mp hrun
  obtain ⟨h', e₀, e⟩ := bind_ok e
  obtain ⟨st₁', e₁, e⟩ := bind_ok e
  obtain ⟨st₂', e₂, e⟩ := bind_ok e
  cases e
  obtain ⟨hlive₁, hlive, hbase, hflag⟩ := of_decide_eq_true htest
  simp only at hlive₁ hlive hbase hflag
  have harg : LiveArg st₁ (.realloc 0x10015 20) := ⟨⟨0x10015, 10⟩, by simp [hlive₁], rfl⟩
  refine ⟨h, st₂, e₀, .cons ⟨trivial, e₁⟩ (.cons ⟨harg, e₂⟩ .nil), fun ho => ?_⟩
  have hin : InChain st₂.heap 0x10000 := hbase ▸ InChain.base
  obtain ⟨b, hb, hp⟩ := (ho 0x10015).mp ⟨0x10000, hin, hflag, rfl⟩
  rw [hlive] at hb
  obtain rfl := List.mem_singleton.mp hb
  exact absurd hp (by decide)

end BambooOS
