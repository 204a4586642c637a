import BambooOS.Heap.Free

/-!
# Heap.Live

The blocks a program holds, through runs of the allocator.

* `Placed`: where a live block lies, in a segment in use or, after a merge has cut the list short,
  behind its end.
* `malloc_live`, `free_live`: what one call does to the blocks.
* `blocksApart_run`: live blocks stay disjoint as long as `malloc` extends no segment in use and
  `free` merges over none.
-/

namespace BambooOS

open ByteMem Tiling

/-- The bytes `malloc(size)` or `realloc(_, size)` handed out at `ptr`. -/
structure Block where
  ptr : Nat
  size : Nat
  deriving DecidableEq, Repr

def Block.Holds (b : Block) (x : Nat) : Prop := b.ptr ≤ x ∧ x < b.ptr + b.size

/-- No two of the blocks share a byte. -/
def BlocksApart (live : List Block) : Prop :=
  live.Pairwise fun b c => ∀ x, ¬ (b.Holds x ∧ c.Holds x)

/-- The blocks at other pointers. -/
def others (live : List Block) (ptr : Nat) : List Block := live.filter fun b => b.ptr ≠ ptr

theorem mem_others {live : List Block} {ptr : Nat} {b : Block} :
    b ∈ others live ptr ↔ b ∈ live ∧ b.ptr ≠ ptr := by simp [others]

/-- The heap, and the blocks that are live. -/
structure HeapState where
  heap : Heap
  live : List Block

/-- The block a call that returned `p` hands out, if any. -/
def handOut (p size : Nat) (live live' : List Block) : List Block :=
  if p = 0 then live else ⟨p, size⟩ :: live'

/-- A call, and the blocks that are live behind it. -/
def liveStep (st : HeapState) : HeapOp → Except Fault HeapState
  | .malloc size => do
    let (h, p) ← malloc st.heap size
    return ⟨h, handOut p size st.live st.live⟩
  | .free ptr => do
    let h ← free st.heap ptr
    return ⟨h, others st.live ptr⟩
  | .realloc ptr size => do
    let (h, p) ← realloc st.heap ptr size
    return ⟨h, handOut p size st.live (others st.live ptr)⟩

/-- `free` and `realloc` are called on live blocks. -/
def LiveArg (st : HeapState) : HeapOp → Prop
  | .malloc _ => True
  | .free ptr => ∃ b ∈ st.live, b.ptr = ptr
  | .realloc ptr _ => ∃ b ∈ st.live, b.ptr = ptr

/-- Where no free segment fits, the last segment holds no block, nor do the bytes behind it. -/
def LastUnused (h : Heap) (size : Nat) (live : List Block) : Prop :=
  (∀ p, InChain h p → ¬ FitsAt h size p) →
    ∀ l, InChain h l → load h.mem (l + 8) 8 = 0 → ∀ b ∈ live, b.ptr < l + 21

/-- Where `prev` names a free segment, the segment behind that one holds no block. -/
def MergesUnused (h : Heap) (ptr : Nat) (live : List Block) : Prop :=
  InChain h (hdrAddr ptr) → ∀ q, load h.mem (hdrAddr ptr) 8 = q → q ≠ 0 →
    load h.mem (q + 20) 1 ≠ 0 → ∀ b ∈ live, b.ptr ≠ load h.mem (q + 8) 8 + 21

/-- The call takes no segment from a block other than its argument. -/
def TakesUnused (st : HeapState) : HeapOp → Prop
  | .malloc size => LastUnused st.heap size st.live
  | .free ptr => MergesUnused st.heap ptr (others st.live ptr)
  | .realloc ptr size => LastUnused st.heap size (others st.live ptr)

/-- A call of a program that frees live blocks only, on a heap below 4 GiB. -/
def allowedStep (st : HeapState) (op : HeapOp) (st' : HeapState) : Prop :=
  LiveArg st op ∧ liveStep st op = .ok st' ∧ st'.heap.size * 0x1000 < 2 ^ 32

/-- The `prev` fields name earlier segments of the list, not always the last one before. -/
def Prevs (h : Heap) (segs : List Seg) : Prop :=
  ∀ p s, Tile Seg.width h.base segs p s → load h.mem p 8 = 0 ∨
    load h.mem p 8 < p ∧ ∃ t, Tile Seg.width h.base segs (load h.mem p 8) t

/-- The last header of the list is one that a merge has cleared. -/
def Cleared (h : Heap) (segs : List Seg) : Prop :=
  ∃ l, segs = l ++ [⟨0, false⟩] ∧ load h.mem (h.base + span Seg.width l) 8 = 0

/-- A block lies in a segment in use, or behind a list that a merge has cut short. -/
def Placed (h : Heap) (segs : List Seg) (b : Block) : Prop :=
  (∃ q s, b.ptr = q + 21 ∧ Tile Seg.width h.base segs q s ∧ s.free = false ∧ b.size ≤ s.size) ∨
    (Cleared h segs ∧ h.base + span Seg.width segs ≤ b.ptr ∧ b.ptr ≤ h.limit)

/-- What every call that takes no used segment keeps. -/
structure LiveInv (h : Heap) (live : List Block) (segs : List Seg) : Prop extends Chain h segs where
  low : 0x1000 ≤ h.base
  high : h.base + 2 ^ 32 ≤ 2 ^ 64
  small : h.size * 0x1000 < 2 ^ 32
  prevs : Prevs h segs
  placed : ∀ b ∈ live, Placed h segs b
  apart : BlocksApart live

section Replace

variable {h h' : Heap} {a b mid : List Seg} {s s' : Seg}

theorem Prevs.replace (hp : Prevs h (a ++ s :: b)) (hbase : h'.base = h.base)
    (hm : ∀ x, x < h.base + span Seg.width (a ++ s :: b) →
      (x < h.base + span Seg.width a + 8 ∨ h.base + span Seg.width a + s.width ≤ x) →
        h'.mem x = h.mem x)
    (hspan : b ≠ [] → span Seg.width (s' :: mid) = s.width)
    (hmid : mid = [] ∨ ∃ r, mid = [r] ∧
      load h'.mem (h.base + span Seg.width a + s'.width) 8 = h.base + span Seg.width a) :
    Prevs h' (a ++ (s' :: mid ++ b)) := by
  have hws : s.width = 21 + s.size := rfl
  have hws' : s'.width = 21 + s'.size := rfl
  -- every old start is a start of the new list
  have hstart : ∀ p u, Tile Seg.width h.base (a ++ s :: b) p u →
      ∃ t, Tile Seg.width h.base (a ++ (s' :: mid ++ b)) p t := by
    intro p u hu
    by_cases hpq : p = h.base + span Seg.width a
    · exact ⟨s', a, mid ++ b, rfl, hpq⟩
    · exact ⟨u, hu.replace hpq hspan⟩
  -- a header that was there keeps its `prev`
  have hold : ∀ p u, Tile Seg.width h.base (a ++ s :: b) p u →
      load h'.mem p 8 = 0 ∨ load h'.mem p 8 < p ∧
        ∃ t, Tile Seg.width h.base (a ++ (s' :: mid ++ b)) (load h'.mem p 8) t := by
    intro p u hu
    have hwu : u.width = 21 + u.size := rfl
    have hload : load h'.mem p 8 = load h.mem p 8 := by
      have hb := hu.bounds
      refine load_congr fun x hx hx' => hm x (by omega) ?_
      rcases hu.sep (tile_mid h.base a b s) with ⟨rfl, _⟩ | hlt | hgt
      · omega
      · omega
      · omega
    rw [hload]
    rcases hp p u hu with h0 | ⟨hlt, t, ht⟩
    · exact .inl h0
    · exact .inr ⟨hlt, hstart _ t ht⟩
  intro p u hu
  rw [hbase] at hu ⊢
  rcases tile_append.mp hu with ha | hcb
  · exact hold p u (tile_append.mpr (.inl ha))
  · rw [List.cons_append] at hcb
    rcases tile_cons.mp hcb with ⟨rfl, _⟩ | hrest
    · exact hold _ s (tile_mid h.base a b s)
    · rcases tile_append.mp hrest with hr | hb
      · rcases hmid with rfl | ⟨r, rfl, hback⟩
        · exact absurd hr (tile_nil _ _ _)
        · rcases tile_cons.mp hr with ⟨rfl, _⟩ | hr
          · rw [hback]
            exact .inr ⟨by omega, s', a, [r] ++ b, rfl, rfl⟩
          · exact absurd hr (tile_nil _ _ _)
      · have hne : b ≠ [] := by
          intro h0
          subst h0
          exact tile_nil _ _ _ hb
        have hsp := hspan hne
        rw [span_cons] at hsp
        rw [Nat.add_assoc, hsp] at hb
        exact hold p u (tile_append.mpr (.inr (tile_cons.mpr (.inr hb))))

theorem Cleared.replace {c : List Seg} (hc : Cleared h (a ++ s :: b)) (hbase : h'.base = h.base)
    (hm : ∀ x, h.base + span Seg.width a + s.width ≤ x →
      x < h.base + span Seg.width (a ++ s :: b) → h'.mem x = h.mem x)
    (hspan : span Seg.width c = s.width) (hne : b ≠ []) : Cleared h' (a ++ (c ++ b)) := by
  obtain ⟨l, hl, hprev⟩ := hc
  obtain ⟨b, z, rfl⟩ : ∃ b₀ z, b = b₀ ++ [z] := ⟨_, _, (List.dropLast_concat_getLast hne).symm⟩
  have hsplit : (a ++ s :: b) ++ [z] = l ++ [⟨0, false⟩] := by simpa using hl
  obtain ⟨rfl, hz⟩ := List.append_inj' hsplit rfl
  obtain rfl : z = ⟨0, false⟩ := by simpa using hz
  refine ⟨a ++ (c ++ b), by simp, ?_⟩
  have hpos : span Seg.width (a ++ (c ++ b)) = span Seg.width (a ++ s :: b) := by
    simp only [span_append, span_cons, hspan]
  rw [hbase, hpos, ← hprev]
  refine load_congr fun x hx hx' => hm x ?_ ?_
  · simp only [span_append, span_cons] at hx
    omega
  · simp only [span_append, span_cons, span_nil, Seg.width] at hx' ⊢
    omega

/-- A cleared last segment is not the one that changes. -/
theorem Cleared.ne_nil (hc : Cleared h (a ++ s :: b)) (hs : s ≠ ⟨0, false⟩) : b ≠ [] := by
  intro h0
  subst h0
  obtain ⟨l, hl, _⟩ := hc
  obtain ⟨_, hz⟩ := List.append_inj' hl rfl
  exact hs (by simpa using hz)

end Replace

section Calls

variable {h h' : Heap} {live : List Block} {segs : List Seg} {p q size : Nat}

theorem Seg.cut_back (s : Seg) {m : Mem} (hfit : size ≤ s.size)
    (hback : size + 21 < s.size → load m (q + 21 + size) 8 = q) :
    ∃ s' mid, s.cut size = s' :: mid ∧ s'.free = false ∧ size ≤ s'.size ∧
      (mid = [] ∨ ∃ r, mid = [r] ∧ load m (q + s'.width) 8 = q) := by
  unfold Seg.cut
  by_cases hfull : s.size ≤ size + 21
  · rw [if_pos hfull]
    exact ⟨_, [], rfl, rfl, hfit, .inl rfl⟩
  · rw [if_neg hfull]
    refine ⟨_, _, rfl, rfl, Nat.le_refl _, .inr ⟨_, rfl, ?_⟩⟩
    show load m (q + (21 + size)) 8 = q
    rw [← Nat.add_assoc]
    exact hback (by omega)

theorem payload_apart {base : Nat} {s t : Seg} {b c : Block} (hs : Tile Seg.width base segs p s)
    (ht : Tile Seg.width base segs q t) (hpq : p ≠ q) (hb : b.ptr = p + 21) (hc : c.ptr = q + 21)
    (hbs : b.size ≤ s.size) (hct : c.size ≤ t.size) (x : Nat) : ¬ (b.Holds x ∧ c.Holds x) := by
  rintro ⟨⟨h₁, h₂⟩, h₃, h₄⟩
  have hws : s.width = 21 + s.size := rfl
  have hwt : t.width = 21 + t.size := rfl
  rcases hs.sep ht with ⟨he, _⟩ | hlt | hgt
  · exact hpq he
  · omega
  · omega

theorem LiveInv.sublist {live' : List Block} (hi : LiveInv h live segs)
    (hs : live'.Sublist live) : LiveInv h live' segs :=
  { hi with
    placed := fun b hb => hi.placed b (hs.subset hb)
    apart := hi.apart.sublist hs }

theorem LiveInv.limit_lt (hi : LiveInv h live segs) (hb : h'.base = h.base)
    (hs : h'.size * 0x1000 < 2 ^ 32) : h'.limit < 2 ^ 64 := by
  have hhigh := hi.high
  simp only [Heap.limit, hb]
  omega

theorem malloc_found_live {a b : List Seg} {s : Seg} (hi : LiveInv h live (a ++ s :: b))
    (hs : s.Fits size) (hc' : Chain h' (a ++ (s.cut size ++ b)))
    (ht : Touched h h' (h.base + span Seg.width a + 8) (h.base + span Seg.width a + s.width))
    (hback : size + 21 < s.size → load h'.mem (h.base + span Seg.width a + 21 + size) 8 =
      h.base + span Seg.width a) :
    ∃ s' mid, size ≤ s'.size ∧
      LiveInv h' (⟨h.base + span Seg.width a + 21, size⟩ :: live) (a ++ s' :: (mid ++ b)) := by
  obtain ⟨s', mid, hcut, hf, hsize, hmid⟩ := s.cut_back hs.2 hback
  have hspan := s.span_cut size
  rw [hcut] at hc' hspan
  have hmine := tile_mid (w := Seg.width) h.base a b s
  have hmine' := tile_mid (w := Seg.width) h.base a (mid ++ b) s'
  refine ⟨s', mid, hsize, hc', ?_, ?_, ?_, ?_, ?_, ?_⟩
  · rw [ht.base]
    exact hi.low
  · rw [ht.base]
    exact hi.high
  · rw [ht.size]
    exact hi.small
  · exact hi.prevs.replace ht.base (fun x _ hx => ht.other x hx) (fun _ => hspan) hmid
  · intro c hc
    unfold Placed
    rw [ht.base, ht.limit]
    rcases List.mem_cons.mp hc with rfl | hc
    · exact .inl ⟨_, s', rfl, hmine', hf, hsize⟩
    · rcases hi.placed c hc with ⟨q, t, hq, htile, htf, hts⟩ | ⟨hcl, hlo, hhi⟩
      · exact .inl ⟨q, t, hq, htile.replace (tile_free_ne htile hmine htf hs.1) fun _ => hspan, htf, hts⟩
      · have hne : b ≠ [] := hcl.ne_nil fun h0 => by
          have := hs.1
          rw [h0] at this
          cases this
        refine .inr ⟨hcl.replace ht.base (fun x hx _ => ht.other x (.inr hx)) hspan hne, ?_, hhi⟩
        simp only [span_append, span_cons] at hlo hspan ⊢
        omega
  · refine List.pairwise_cons.mpr ⟨fun c hc x => ?_, hi.apart⟩
    rcases hi.placed c hc with ⟨q, t, hq, htile, htf, hts⟩ | ⟨_, hlo, _⟩
    · exact payload_apart hmine htile (tile_free_ne htile hmine htf hs.1).symm rfl hq hs.2 hts x
    · rintro ⟨⟨h₁, h₂⟩, h₃, h₄⟩
      have hws : s.width = 21 + s.size := rfl
      have hfit := hs.2
      simp only [span_append, span_cons] at hlo h₁ h₂
      omega

theorem malloc_extend_live {a : List Seg} {s e : Seg} (hi : LiveInv h live (a ++ [s]))
    (hun : ∀ b ∈ live, b.ptr < h.base + span Seg.width a + 21) (hbase : h'.base = h.base)
    (hsmall : h'.size * 0x1000 < 2 ^ 32) (hfit : size ≤ e.size)
    (hm : ∀ x, x < h.base + span Seg.width (a ++ [s]) →
      (x < h.base + span Seg.width a + 8 ∨ h.base + span Seg.width a + s.width ≤ x) →
        h'.mem x = h.mem x)
    (hc' : Chain h' (a ++ e.cut size))
    (hback : size + 21 < e.size → load h'.mem (h.base + span Seg.width a + 21 + size) 8 =
      h.base + span Seg.width a) :
    ∃ s' mid, size ≤ s'.size ∧
      LiveInv h' (⟨h.base + span Seg.width a + 21, size⟩ :: live) (a ++ s' :: mid) := by
  obtain ⟨s', mid, hcut, hf, hsize, hmid⟩ := e.cut_back hfit hback
  rw [hcut] at hc'
  have hmine' := tile_mid (w := Seg.width) h.base a mid s'
  -- every live block is in a segment before the last one
  have hbefore : ∀ c ∈ live, ∃ q t, c.ptr = q + 21 ∧ Tile Seg.width h.base a q t ∧
      t.free = false ∧ c.size ≤ t.size := by
    intro c hc
    have hlt := hun c hc
    rcases hi.placed c hc with ⟨q, t, hq, htile, htf, hts⟩ | ⟨_, hlo, _⟩
    · exact ⟨q, t, hq, htile.of_lt (by omega), htf, hts⟩
    · simp only [span_append, span_cons, span_nil, Seg.width] at hlo
      omega
  have hprevs : Prevs h' (a ++ (s' :: mid ++ [])) :=
    hi.prevs.replace hbase hm (fun hne => absurd rfl hne) hmid
  rw [List.append_nil] at hprevs
  refine ⟨s', mid, hsize, hc', ?_, ?_, hsmall, hprevs, ?_, ?_⟩
  · rw [hbase]
    exact hi.low
  · rw [hbase]
    exact hi.high
  · intro c hc
    unfold Placed
    rw [hbase]
    rcases List.mem_cons.mp hc with rfl | hc
    · exact .inl ⟨_, s', rfl, hmine', hf, hsize⟩
    · obtain ⟨q, t, hq, htile, htf, hts⟩ := hbefore c hc
      exact .inl ⟨q, t, hq, tile_append.mpr (.inl htile), htf, hts⟩
  · refine List.pairwise_cons.mpr ⟨fun c hc x => ?_, hi.apart⟩
    obtain ⟨q, t, hq, htile, htf, hts⟩ := hbefore c hc
    have hend := htile.bounds.2
    have hwt : t.width = 21 + t.size := rfl
    rintro ⟨⟨h₁, h₂⟩, h₃, h₄⟩
    simp only at h₁ h₂
    omega

/-- `malloc`, where the last segment is not taken from a block. -/
theorem malloc_live (hi : LiveInv h live segs) (hu : LastUnused h size live)
    (e : malloc h size = .ok (h', p)) (hs : h'.size * 0x1000 < 2 ^ 32) :
    ∃ a s b, p = h'.base + span Seg.width a + 21 ∧ size ≤ s.size ∧
      LiveInv h' (⟨p, size⟩ :: live) (a ++ s :: b) := by
  obtain ⟨hb, hsize⟩ := malloc_pages hi.toChain e
  rw [hb]
  rcases malloc_cases hi.toChain e (hi.limit_lt hb hs) with
    ⟨a, s, b, rfl, _, hfit, rfl, hc', ht, hback⟩ | ⟨a, s, n, rfl, hno, hn, _, hs', ho, hrest⟩
  · obtain ⟨s', mid, hle, hi'⟩ := malloc_found_live hi hfit hc' ht hback
    exact ⟨a, s', mid ++ b, rfl, hle, hi'⟩
  · have hc := hi.toChain
    have hin := hc.inside
    have hlim : h.limit = h.base + h.size * 0x1000 := rfl
    have hws : s.width = 21 + s.size := rfl
    simp only [span_append, span_cons, span_nil] at hin
    -- the extended segment does not wrap, so it fits
    have hext : s.extended n = ⟨s.size + n * 0x1000, s.free⟩ := by
      rw [Seg.extended, Nat.mod_eq_of_lt (by omega)]
    have hfit : size ≤ (s.extended n).size := by
      rw [hext]
      show size ≤ s.size + n * 0x1000
      omega
    rw [if_pos hfit] at hrest
    obtain ⟨rfl, hc', hback⟩ := hrest
    have hlast := hu ((nothingFits_iff hc).mpr hno) _ (hc.inChain_iff.mpr ⟨s, tile_mid _ a [] s⟩) hc.hdrAt.next
    have hm : ∀ x, x < h.base + span Seg.width (a ++ [s]) →
        (x < h.base + span Seg.width a + 8 ∨ h.base + span Seg.width a + s.width ≤ x) →
          h'.mem x = h.mem x := by
      intro x hx hx'
      simp only [span_append, span_cons, span_nil] at hx
      exact ho x (by omega) (by omega)
    obtain ⟨s', mid, hle, hi'⟩ := malloc_extend_live hi hlast hb hs hfit hm hc' hback
    exact ⟨a, s', mid, rfl, hle, hi'⟩

theorem payload_prev {a b : List Seg} {s u : Seg}
    (ht : Touched h h' (h.base + span Seg.width a + 21) (h.base + span Seg.width a + s.width))
    (hu : Tile Seg.width h.base (a ++ s :: b) p u) : load h'.mem p 8 = load h.mem p 8 := by
  have hwu : u.width = 21 + u.size := rfl
  refine ht.load ?_
  rcases hu.sep (tile_mid h.base a b s) with ⟨rfl, _⟩ | hlt | hgt
  · omega
  · omega
  · omega

theorem Prevs.payload {a b : List Seg} {s : Seg} (hp : Prevs h (a ++ s :: b))
    (ht : Touched h h' (h.base + span Seg.width a + 21) (h.base + span Seg.width a + s.width)) :
    Prevs h' (a ++ s :: b) := by
  intro p u hu
  rw [ht.base] at hu ⊢
  rw [payload_prev ht hu]
  exact hp p u hu

theorem LiveInv.payload {a b : List Seg} {s : Seg} (hi : LiveInv h live (a ++ s :: b))
    (ht : Touched h h' (h.base + span Seg.width a + 21) (h.base + span Seg.width a + s.width)) :
    LiveInv h' live (a ++ s :: b) := by
  refine ⟨hi.toChain.payload ht, ?_, ?_, ?_, hi.prevs.payload ht, ?_, hi.apart⟩
  · rw [ht.base]
    exact hi.low
  · rw [ht.base]
    exact hi.high
  · rw [ht.size]
    exact hi.small
  · intro c hc
    unfold Placed Cleared
    rw [ht.base, ht.limit]
    rcases hi.placed c hc with hin | ⟨⟨l, hl, hprev⟩, hrest⟩
    · exact .inl hin
    · refine .inr ⟨⟨l, hl, ?_⟩, hrest⟩
      rw [payload_prev (p := _) (s := s) ht ⟨l, [], hl, rfl⟩]
      exact hprev

/-- `realloc`: the old block ends, and the copy stays in the new one. -/
theorem realloc_live {ptr : Nat} (hi : LiveInv h live segs)
    (hu : LastUnused h size (others live ptr)) (e : realloc h ptr size = .ok (h', p))
    (hs : h'.size * 0x1000 < 2 ^ 32) :
    p ≠ 0 ∧ ∃ segs', LiveInv h' (⟨p, size⟩ :: others live ptr) segs' := by
  have hi' : LiveInv h (others live ptr) segs := hi.sublist List.filter_sublist
  obtain ⟨h₁, e₁, hcopy⟩ := realloc_cases e
  rcases hcopy with rfl | ⟨n, hn, ht, _⟩
  · obtain ⟨a, s, b, rfl, _, hi₁⟩ := malloc_live hi' hu e₁ hs
    exact ⟨by omega, _, hi₁⟩
  · rw [ht.size] at hs
    obtain ⟨a, s, b, rfl, hle, hi₁⟩ := malloc_live hi' hu e₁ hs
    have hws : s.width = 21 + s.size := rfl
    exact ⟨by omega, _, hi₁.payload (ht.mono (Nat.le_refl _) (by omega))⟩

end Calls

section Free

variable {h h' h₁ : Heap} {live : List Block} {segs a b : List Seg} {s t n : Seg} {p q : Nat}

theorem free_forward (hc : Chain h₁ (a ++ s :: b)) (hlow : 0x1000 ≤ h₁.base)
    (hskip : mergeBackward h₁ (h₁.base + span Seg.width a) =
      .ok (h₁, h₁.base + span Seg.width a))
    (e : (do
      let r ← mergeBackward h₁ (h₁.base + span Seg.width a)
      let next ← r.1.next r.2
      let nextFree ← r.1.isFree next
      if nextFree then heapMergeForward r.1 r.2 else return r.1) = .ok h') :
    ∃ n b', b = n :: b' ∧ ((n.free = false ∧ h' = h₁) ∨
      (n.free = true ∧ heapMergeForward h₁ (h₁.base + span Seg.width a) = .ok h')) := by
  have hnext := hc.hdrAt.next_ok hc.mapped_hdr
  simp only [hskip, ok_bind, hnext] at e
  cases b with
  | nil =>
    rw [if_pos rfl, isFree_null hlow] at e
    cases e
  | cons n b =>
    have hn : Chain h₁ ((a ++ [s]) ++ n :: b) := by simpa using hc
    have hflag := hn.hdrAt.isFree_ok hn.mapped_hdr
    simp only [span_append, span_cons, span_nil, Nat.add_zero, ← Nat.add_assoc] at hflag
    rw [if_neg (List.cons_ne_nil n b), hflag, ok_bind] at e
    refine ⟨n, b, rfl, ?_⟩
    cases hf : n.free with
    | false =>
      rw [hf] at e
      cases e
      exact .inl ⟨rfl, rfl⟩
    | true =>
      rw [hf] at e
      exact .inr ⟨rfl, e⟩

theorem Chain.merge_ok (hc : Chain h (a ++ t :: s :: b)) (hlow : 0x1000 ≤ h.base)
    (e : heapMergeForward h (h.base + span Seg.width a) = .ok h') : b ≠ [] :=
  (hc.merge_iff hlow).mp ⟨h', e⟩

/-- What `free` does behind a first merge: the second one finds the cleared header, in use. -/
theorem free_backward (hc : Chain h₁ (a ++ t :: s :: b)) (hlow : 0x1000 ≤ h₁.base)
    (hm : h₁.Mapped p 21) (hq : load h₁.mem p 8 = h₁.base + span Seg.width a) (htf : t.free = true)
    (e : (do
      let r ← mergeBackward h₁ p
      let next ← r.1.next r.2
      let nextFree ← r.1.isFree next
      if nextFree then heapMergeForward r.1 r.2 else return r.1) = .ok h') :
    heapMergeForward h₁ (h₁.base + span Seg.width a) = .ok h' := by
  have hflag := hc.hdrAt.free
  rw [htf, decide_eq_true_iff] at hflag
  rw [mergeBackward_merge hm hq (by omega) hc.mapped_hdr hflag] at e
  obtain ⟨k, ek, e⟩ := bind_ok e
  obtain ⟨h₂, em, ek⟩ := bind_ok ek
  cases ek
  obtain ⟨h₃, em', hmd, hmz⟩ := hc.merge (hc.merge_ok hlow em)
  rw [em] at em'
  cases em'
  have hlook := hmd.hdr.next_ok (hmd.mapped hc.mapped_hdr)
  have hfree := hmd.cleared.isFree_ok (hmd.mapped hmz)
  simp only [hlook, hfree, ok_bind] at e
  cases e
  exact em

/-- Behind a merge the list ends with the cleared header; the blocks beyond are out of its reach. -/
theorem merged_live (hc : Chain h (a ++ t :: s :: b)) (hne : b ≠ []) (hlow : 0x1000 ≤ h.base)
    (hhigh : h.base + 2 ^ 32 ≤ 2 ^ 64) (hsmall : h.size * 0x1000 < 2 ^ 32)
    (hp : Prevs h (a ++ t :: s :: b))
    (hm : Merged h h' (h.base + span Seg.width a)
      (h.base + span Seg.width a + t.width + s.width) ⟨(t.size + s.width) % 2 ^ 32, t.free⟩)
    (htf : t.free = true) (hap : BlocksApart live)
    (hpl : ∀ c ∈ live, (∃ q u, c.ptr = q + 21 ∧ Tile Seg.width h.base (a ++ t :: s :: b) q u ∧
        u.free = false ∧ c.size ≤ u.size ∧ q ≠ h.base + span Seg.width a + t.width) ∨
      (h.base + span Seg.width (a ++ t :: s :: b) ≤ c.ptr ∧ c.ptr ≤ h.limit)) :
    LiveInv h' live (a ++ [⟨t.size + s.width, t.free⟩, ⟨0, false⟩]) := by
  obtain ⟨n, b, rfl⟩ := List.exists_cons_of_ne_nil hne
  have hwt : t.width = 21 + t.size := rfl
  have hws : s.width = 21 + s.size := rfl
  have hwn : n.width = 21 + n.size := rfl
  have hwm : (⟨t.size + s.width, t.free⟩ : Seg).width = 21 + (t.size + s.width) := rfl
  have hin := hc.inside
  have hlim : h.limit = h.base + h.size * 0x1000 := rfl
  have hlim' : h'.limit = h.limit := by simp only [Heap.limit, hm.base, hm.size]
  simp only [span_append, span_cons] at hin hpl
  have hhdr := hm.hdr
  rw [Nat.mod_eq_of_lt (by omega)] at hhdr
  have hmine := tile_mid (w := Seg.width) h.base a (s :: n :: b) t
  -- headers up to the merged one keep their `prev`
  have hprev : ∀ p u, Tile Seg.width h.base (a ++ t :: s :: n :: b) p u →
      p ≤ h.base + span Seg.width a → load h'.mem p 8 = 0 ∨ load h'.mem p 8 < p ∧
        ∃ v, Tile Seg.width h.base (a ++ [⟨t.size + s.width, t.free⟩, ⟨0, false⟩])
          (load h'.mem p 8) v := by
    intro p u hu hle
    have hload : load h'.mem p 8 = load h.mem p 8 :=
      load_congr fun x _ hx => hm.below x (by omega)
    rw [hload]
    rcases hp p u hu with h0 | ⟨hlt, v, hv⟩
    · exact .inl h0
    · exact .inr ⟨hlt, v, tile_append.mpr (.inl (hv.of_lt (by omega)))⟩
  refine ⟨⟨by simp, ?_, ?_, ?_⟩, ?_, ?_, ?_, ?_, ?_, hap⟩
  · have hh := headers_append.mp hc.headers
    rw [if_neg (List.cons_ne_nil _ _)] at hh
    rw [hm.base]
    refine headers_append.mpr ⟨?_, ?_⟩
    · rw [if_neg (List.cons_ne_nil _ _)]
      exact hh.1.congr fun x _ hx => hm.below x (by omega)
    · have hz : h.base + span Seg.width a + (⟨t.size + s.width, t.free⟩ : Seg).width =
          h.base + span Seg.width a + t.width + s.width := by omega
      simp only [Headers, if_neg (List.cons_ne_nil _ _), if_true, and_true, hz]
      exact ⟨hhdr, hm.cleared⟩
  · rw [hm.base, hlim']
    simp only [span_append, span_cons, span_nil, Seg.width] at hin ⊢
    omega
  · rw [hlim']
    exact hc.space
  · rw [hm.base]
    exact hlow
  · rw [hm.base]
    exact hhigh
  · rw [hm.size]
    exact hsmall
  · intro p u hu
    rw [hm.base] at hu ⊢
    rcases tile_append.mp hu with ha | hrest
    · have hb := ha.bounds
      exact hprev p u (tile_append.mpr (.inl ha)) (by omega)
    · rcases tile_cons.mp hrest with ⟨rfl, _⟩ | hrest
      · exact hprev _ t hmine (Nat.le_refl _)
      · rcases tile_cons.mp hrest with ⟨rfl, _⟩ | hrest
        · refine .inl ?_
          have hback := hm.prev
          rw [show h.base + span Seg.width a + t.width + s.width = h.base + span Seg.width a +
            (⟨t.size + s.width, t.free⟩ : Seg).width by omega] at hback
          exact hback
        · exact absurd hrest (tile_nil _ _ _)
  · have hclear : Cleared h' (a ++ [⟨t.size + s.width, t.free⟩, ⟨0, false⟩]) := by
      refine ⟨a ++ [⟨t.size + s.width, t.free⟩], by simp, ?_⟩
      rw [hm.base, ← hm.prev]
      congr 1
      simp only [span_append, span_cons, span_nil]
      omega
    intro c hcl
    unfold Placed
    rw [hm.base, hlim']
    rcases hpl c hcl with ⟨q, u, hq, hu, huf, hus, hqn⟩ | ⟨hlo, hhi⟩
    · have hne : q ≠ h.base + span Seg.width a := tile_free_ne hu hmine huf htf
      rcases tile_append.mp hu with ha | hrest
      · exact .inl ⟨q, u, hq, tile_append.mpr (.inl ha), huf, hus⟩
      · -- not the merged segments: behind them
        rcases tile_cons.mp hrest with ⟨he, _⟩ | hrest
        · exact absurd he hne
        · rcases tile_cons.mp hrest with ⟨he, _⟩ | hrest
          · exact absurd he hqn
          · have hb := hrest.bounds
            have hwu : u.width = 21 + u.size := rfl
            refine .inr ⟨hclear, ?_, ?_⟩
            · simp only [span_append, span_cons, span_nil, Seg.width] at hb ⊢
              omega
            · simp only [span_cons] at hb
              omega
    · refine .inr ⟨hclear, ?_, hhi⟩
      simp only [span_append, span_cons, span_nil, Seg.width] at hlo ⊢
      omega

/-- What `free` left the other blocks in: their segments in use, or behind the end of the list. -/
theorem LiveInv.elsewhere (hi : LiveInv h live (a ++ s :: b)) {c : Block} (hc : c ∈ live)
    (hne : c.ptr ≠ h.base + span Seg.width a + 21) :
    (∃ q u, c.ptr = q + 21 ∧ Tile Seg.width h.base (a ++ ⟨s.size, true⟩ :: b) q u ∧
        u.free = false ∧ c.size ≤ u.size) ∨
      (Cleared h (a ++ s :: b) ∧
        h.base + span Seg.width (a ++ ⟨s.size, true⟩ :: b) ≤ c.ptr ∧ c.ptr ≤ h.limit) := by
  rcases hi.placed c hc with ⟨q, u, hq, hu, huf, hus⟩ | ⟨hcl, hlo, hhi⟩
  · refine .inl ⟨q, u, hq, hu.replace (c := [(⟨s.size, true⟩ : Seg)]) (by omega) fun _ => rfl, huf, hus⟩
  · refine .inr ⟨hcl, ?_, hhi⟩
    simp only [span_append, span_cons, Seg.width] at hlo ⊢
    exact hlo

theorem free_forward_live (hi : LiveInv h live (a ++ s :: b))
    (t₁ : Touched h h₁ (h.base + span Seg.width a + 20) (h.base + span Seg.width a + 21))
    (hc₁ : Chain h₁ (a ++ ⟨s.size, true⟩ :: b)) (hp₁ : Prevs h₁ (a ++ ⟨s.size, true⟩ :: b))
    (hskip : mergeBackward h₁ (h₁.base + span Seg.width a) =
      .ok (h₁, h₁.base + span Seg.width a))
    (e : (do
      let r ← mergeBackward h₁ (h₁.base + span Seg.width a)
      let next ← r.1.next r.2
      let nextFree ← r.1.isFree next
      if nextFree then heapMergeForward r.1 r.2 else return r.1) = .ok h') :
    ∃ segs', LiveInv h' (others live (h.base + span Seg.width a + 21)) segs' := by
  have hws : s.width = 21 + s.size := rfl
  have hlow : 0x1000 ≤ h₁.base := by
    rw [t₁.base]
    exact hi.low
  have hhigh : h₁.base + 2 ^ 32 ≤ 2 ^ 64 := by
    rw [t₁.base]
    exact hi.high
  have hsmall : h₁.size * 0x1000 < 2 ^ 32 := by
    rw [t₁.size]
    exact hi.small
  have hap : BlocksApart (others live (h.base + span Seg.width a + 21)) :=
    hi.apart.sublist List.filter_sublist
  obtain ⟨n, b, rfl, hcase⟩ := free_forward hc₁ hlow hskip e
  rcases hcase with ⟨_, rfl⟩ | ⟨hnf, em⟩
  · refine ⟨_, hc₁, hlow, hhigh, hsmall, hp₁, fun c hc => ?_, hap⟩
    obtain ⟨hcl, hcp⟩ := mem_others.mp hc
    unfold Placed
    rw [t₁.base, t₁.limit]
    rcases hi.elsewhere hcl hcp with hin | ⟨hclear, hrest⟩
    · exact .inl hin
    · refine .inr ⟨?_, hrest⟩
      exact hclear.replace (c := [(⟨s.size, true⟩ : Seg)]) t₁.base
        (fun x hx _ => t₁.other x (by omega)) rfl (List.cons_ne_nil n b)
  · have hne := hc₁.merge_ok hlow em
    obtain ⟨h₂, em', hm, _⟩ := hc₁.merge hne
    rw [em] at em'
    cases em'
    refine ⟨_, merged_live hc₁ hne hlow hhigh hsmall hp₁ hm rfl hap fun c hc => ?_⟩
    obtain ⟨hcl, hcp⟩ := mem_others.mp hc
    rw [t₁.base, t₁.limit]
    rcases hi.elsewhere hcl hcp with ⟨q, u, hq, hu, huf, hus⟩ | ⟨_, hrest⟩
    · refine .inl ⟨q, u, hq, hu, huf, hus, ?_⟩
      have hn := tile_mid (w := Seg.width) h.base (a ++ [(⟨s.size, true⟩ : Seg)]) b n
      rw [List.append_assoc, List.singleton_append] at hn
      simp only [span_append, span_cons, span_nil, Nat.add_zero, ← Nat.add_assoc] at hn
      exact tile_free_ne hu hn huf hnf
    · exact .inr hrest

theorem free_seg_live (hi : LiveInv h live (a ++ s :: b))
    (hu : MergesUnused h (h.base + span Seg.width a + 21)
      (others live (h.base + span Seg.width a + 21)))
    (e : free h (h.base + span Seg.width a + 21) = .ok h') :
    ∃ segs', LiveInv h' (others live (h.base + span Seg.width a + 21)) segs' := by
  have hws : s.width = 21 + s.size := rfl
  have hend := hi.toChain.mapped_seg.2
  have hspace := hi.space
  have hlow₀ := hi.low
  obtain ⟨h₁, t₁, hc₁, e₁⟩ := free_start hi.toChain
  rw [e₁, ← t₁.base] at e
  have hlow : 0x1000 ≤ h₁.base := by
    rw [t₁.base]
    exact hi.low
  have hap : BlocksApart (others live (h.base + span Seg.width a + 21)) :=
    hi.apart.sublist List.filter_sublist
  have hp₁ : Prevs h₁ (a ++ ⟨s.size, true⟩ :: b) :=
    hi.prevs.replace t₁.base (fun x _ hx => t₁.other x (by omega)) (fun _ => rfl) (.inl rfl)
  have hmine := tile_mid (w := Seg.width) h.base a b s
  have hprev : load h₁.mem (h₁.base + span Seg.width a) 8 = load h.mem (h.base + span Seg.width a) 8 := by
    rw [t₁.base]
    exact t₁.load (by omega)
  rcases hi.prevs _ s hmine with h0 | ⟨hlt, t, htile⟩
  · rw [h0] at hprev
    exact free_forward_live hi t₁ hc₁ hp₁ (mergeBackward_skip hc₁.mapped_hdr (.inl hprev)) e
  · obtain ⟨q, hq⟩ : ∃ q, q = load h.mem (h.base + span Seg.width a) 8 := ⟨_, rfl⟩
    rw [← hq] at htile hlt hprev
    obtain ⟨l, r, hsegs, hql⟩ := htile.replace (c := [(⟨s.size, true⟩ : Seg)]) (by omega) fun _ => rfl
    have hc₂ : Chain h₁ (l ++ t :: r) := hsegs ▸ hc₁
    have hflag := hc₂.hdrAt.free
    have hmq := hc₂.mapped_hdr
    rw [t₁.base, ← hql] at hflag hmq
    cases htf : t.free with
    | false =>
      refine free_forward_live hi t₁ hc₁ hp₁ (mergeBackward_skip hc₁.mapped_hdr (.inr ?_)) e
      rw [hprev]
      exact ⟨hmq, by simpa [htf] using hflag⟩
    | true =>
      -- backward: the segment that `prev` names absorbs the one behind it
      have hpos : h.base + span Seg.width l + t.width ≤ h.base + span Seg.width a := by
        rcases htile.sep hmine with ⟨he, _⟩ | hle | hgt
        · omega
        · omega
        · omega
      have hr : r ≠ [] := by
        intro h0
        rw [h0] at hsegs
        have hspan := congrArg (span Seg.width) hsegs
        simp only [span_append, span_cons, span_nil, List.singleton_append, Seg.width] at hspan hpos
        omega
      obtain ⟨n, r, rfl⟩ := List.exists_cons_of_ne_nil hr
      have hnext := hc₂.hdrAt.next
      rw [if_neg (List.cons_ne_nil n r), t₁.base, ← hql, t₁.load (by omega)] at hnext
      rw [htf, decide_eq_true_iff] at hflag
      have em := free_backward hc₂ hlow hc₁.mapped_hdr (by rw [hprev, hql, t₁.base]) htf e
      have hne := hc₂.merge_ok hlow em
      obtain ⟨h₃, em', hm, _⟩ := hc₂.merge hne
      rw [em] at em'
      cases em'
      refine ⟨_, merged_live hc₂ hne hlow ?_ ?_ (hsegs ▸ hp₁) hm htf hap fun c hc => ?_⟩
      · rw [t₁.base]
        exact hi.high
      · rw [t₁.size]
        exact hi.small
      · obtain ⟨hcl, hcp⟩ := mem_others.mp hc
        have hhdr := hdrAddr_payload (q := h.base + span Seg.width a) (by omega)
        have hun := hu (by
          rw [hhdr]
          exact hi.toChain.inChain_iff.mpr ⟨s, hmine⟩) q (by rw [hhdr, hq]) (by omega) (by
          rw [← t₁.load (by omega)]
          exact hflag) c hc
        rw [hnext] at hun
        rw [t₁.base, t₁.limit, ← hsegs, ← hql]
        rcases hi.elsewhere hcl hcp with ⟨q', u, hq', hu', huf, hus⟩ | ⟨_, hrest⟩
        · exact .inl ⟨q', u, hq', hu', huf, hus, by omega⟩
        · exact .inr hrest

/-- `free` of a live block, which merges over no other block. -/
theorem free_live (hi : LiveInv h live segs) (harg : ∃ b ∈ live, b.ptr = p)
    (hu : MergesUnused h p (others live p)) (e : free h p = .ok h') :
    ∃ segs', LiveInv h' (others live p) segs' := by
  obtain ⟨b, hb, rfl⟩ := harg
  rcases hi.placed b hb with ⟨q, s, hq, ⟨a, c, rfl, rfl⟩, _⟩ | ⟨⟨l, rfl, hprev⟩, hlo, hhi⟩
  · rw [hq] at hu e ⊢
    exact free_seg_live hi hu e
  · -- a block behind the list: not found, unless its header is the cleared one
    have hspace := hi.space
    have hlow := hi.low
    simp only [span_append, span_cons, span_nil, Seg.width] at hlo
    obtain ⟨q, hq⟩ : ∃ q, b.ptr = q + 21 := ⟨b.ptr - 21, by omega⟩
    have hfound := e
    unfold free at hfound
    rw [hq, hdrAddr_payload (by omega)] at hfound
    obtain ⟨valid, ev, hfound⟩ := bind_ok hfound
    cases valid with
    | false =>
      cases hfound
      exact ⟨_, hi.sublist List.filter_sublist⟩
    | true =>
      exfalso
      obtain ⟨u, hu'⟩ := hi.toChain.inChain_iff.mp (findHdr_inChain .base ev)
      have hbound := hu'.bounds
      have hwu : u.width = 21 + u.size := rfl
      simp only [span_append, span_cons, span_nil, Seg.width] at hbound
      have hqe : q = h.base + span Seg.width l := by omega
      obtain ⟨h₁, t₁, hc₁, e₁⟩ := free_start hi.toChain
      rw [hq, hqe, e₁, ← t₁.base] at e
      have hprev₁ : load h₁.mem (h₁.base + span Seg.width l) 8 = 0 := by
        rw [t₁.base, t₁.load (by omega)]
        exact hprev
      obtain ⟨n, b', hnil, _⟩ := free_forward hc₁ (by rw [t₁.base]; exact hlow)
        (mergeBackward_skip hc₁.mapped_hdr (.inl hprev₁)) e
      cases hnil

end Free

/-- An allowed call that takes no segment from another block. -/
def safeStep (st : HeapState) (op : HeapOp) (st' : HeapState) : Prop :=
  TakesUnused st op ∧ allowedStep st op st'

theorem safeStep_live {st st' : HeapState} {op : HeapOp} (hs : safeStep st op st')
    (hi : ∃ segs, LiveInv st.heap st.live segs) : ∃ segs, LiveInv st'.heap st'.live segs := by
  obtain ⟨hu, harg, e, hsmall⟩ := hs
  obtain ⟨segs, hi⟩ := hi
  cases op with
  | malloc size =>
    obtain ⟨⟨h, p⟩, e₁, e⟩ := bind_ok e
    cases e
    obtain ⟨a, s, b, hp, _, hi'⟩ := malloc_live hi hu e₁ hsmall
    rw [handOut, if_neg (by omega)]
    exact ⟨_, hi'⟩
  | free ptr =>
    obtain ⟨h, e₁, e⟩ := bind_ok e
    cases e
    exact free_live hi harg hu e₁
  | realloc ptr size =>
    obtain ⟨⟨h, p⟩, e₁, e⟩ := bind_ok e
    cases e
    obtain ⟨hp, hi'⟩ := realloc_live hi hu e₁ hsmall
    rw [handOut, if_neg hp]
    exact hi'

/-- From `heap_init` on, live blocks are disjoint as long as no call takes a segment from another
block. -/
theorem blocksApart_run {m : Mem} {base : Nat}
    (hb : 0x1000 ≤ base ∧ base + 2 ^ 32 ≤ 2 ^ 64) {h : Heap} {st : HeapState} {ops : List HeapOp}
    (hinit : heapInit m base = .ok h) (hrun : Run.Exec safeStep ⟨h, []⟩ ops st) :
    BlocksApart st.live := by
  obtain ⟨h₀, e₀, hbase, hsize, hc, hprev⟩ := heapInit_spec m (show base + 0x1000 < 2 ^ 64 by omega)
  rw [hinit] at e₀
  cases e₀
  have hprevs : Prevs h [⟨0x1000 - 21, true⟩] := by
    intro p s hs
    rcases tile_cons.mp hs with ⟨rfl, _⟩ | hs
    · rw [hbase]
      exact .inl hprev
    · exact absurd hs (tile_nil _ _ _)
  have hstart : LiveInv h [] [⟨0x1000 - 21, true⟩] :=
    ⟨hc, by omega, by omega, by rw [hsize]; decide, hprevs, by simp, .nil⟩
  obtain ⟨segs, hi⟩ := hrun.inv (I := fun st => ∃ segs, LiveInv st.heap st.live segs)
    (fun _ _ _ hi hs => safeStep_live hs hi) ⟨_, hstart⟩
  exact hi.apart

/-- Two blocks, and the first one freed and handed out again in front of the second. -/
theorem blocksApart_reused : ∃ h st, heapInit (fun _ => 7) 0x10000 = .ok h ∧
    Run.Exec allowedStep ⟨h, []⟩ [.malloc 100, .malloc 50, .free 0x10015, .malloc 30] st ∧
    st.live = [⟨0x10015, 30⟩, ⟨0x1008e, 50⟩] ∧ BlocksApart st.live := by
  have hrun : returns (do
      let h ← heapInit (fun _ => 7) 0x10000
      let st₁ ← liveStep ⟨h, []⟩ (.malloc 100)
      let st₂ ← liveStep st₁ (.malloc 50)
      let st₃ ← liveStep st₂ (.free 0x10015)
      let st₄ ← liveStep st₃ (.malloc 30)
      return (h, st₁, st₂, st₃, st₄)) (fun (h, st₁, st₂, st₃, st₄) => decide (
        (FitsAt h 100 h.base ∧ st₁.heap.size = 1) ∧
        (load st₁.heap.mem (st₁.heap.base + 8) 8 = 0x10079 ∧ FitsAt st₁.heap 50 0x10079 ∧
          st₂.heap.size = 1) ∧
        (st₂.live = [⟨0x1008e, 50⟩, ⟨0x10015, 100⟩] ∧ load st₂.heap.mem 0x10000 8 = 0 ∧
          st₃.heap.size = 1) ∧
        (FitsAt st₃.heap 30 st₃.heap.base ∧ st₄.heap.size = 1) ∧
        st₄.live = [⟨0x10015, 30⟩, ⟨0x1008e, 50⟩])) = true := by
    decide +kernel
  obtain ⟨⟨h, st₁, st₂, st₃, st₄⟩, e, htest⟩ := returns_iff.mp hrun
  obtain ⟨h', e₀, e⟩ := bind_ok e
  obtain ⟨st₁', e₁, e⟩ := bind_ok e
  obtain ⟨st₂', e₂, e⟩ := bind_ok e
  obtain ⟨st₃', e₃, e⟩ := bind_ok e
  obtain ⟨st₄', e₄, e⟩ := bind_ok e
  cases e
  obtain ⟨⟨hfit₁, hs₁⟩, ⟨hnext, hfit₂, hs₂⟩, ⟨hlive, hprev, hs₃⟩, ⟨hfit₄, hs₄⟩, hlive'⟩ :=
    of_decide_eq_true htest
  have hsmall : ∀ st : HeapState, st.heap.size = 1 → st.heap.size * 0x1000 < 2 ^ 32 := by
    intro st hs
    rw [hs]
    decide
  have c₁ : allowedStep ⟨h, []⟩ (.malloc 100) st₁ := ⟨trivial, e₁, hsmall _ hs₁⟩
  have c₂ : allowedStep st₁ (.malloc 50) st₂ := ⟨trivial, e₂, hsmall _ hs₂⟩
  have c₃ : allowedStep st₂ (.free 0x10015) st₃ :=
    ⟨⟨⟨0x10015, 100⟩, by simp [hlive], rfl⟩, e₃, hsmall _ hs₃⟩
  have c₄ : allowedStep st₃ (.malloc 30) st₄ := ⟨trivial, e₄, hsmall _ hs₄⟩
  -- each time a free segment fits, and the freed one is the first
  have u₁ : TakesUnused ⟨h, []⟩ (.malloc 100) := fun hno => absurd hfit₁ (hno _ .base)
  have u₂ : TakesUnused st₁ (.malloc 50) :=
    fun hno => absurd hfit₂ (hno _ (InChain.base.next hnext (by decide)))
  have u₃ : TakesUnused st₂ (.free 0x10015) := fun _ q hq hq0 => absurd (hq.symm.trans hprev) hq0
  have u₄ : TakesUnused st₃ (.malloc 30) := fun hno => absurd hfit₄ (hno _ .base)
  have hrun := blocksApart_run (by decide) e₀
    (.cons ⟨u₁, c₁⟩ (.cons ⟨u₂, c₂⟩ (.cons ⟨u₃, c₃⟩ (.cons ⟨u₄, c₄⟩ .nil))))
  exact ⟨h, st₄, e₀, .cons c₁ (.cons c₂ (.cons c₃ (.cons c₄ .nil))), hlive', hrun⟩

/-- The whole first page is handed out, and then handed out again with the second page. -/
theorem malloc_takes_used : ∃ h st, heapInit (fun _ => 7) 0x10000 = .ok h ∧
    Run.Exec allowedStep ⟨h, []⟩ [.malloc 4075, .malloc 10] st ∧ ¬ BlocksApart st.live := by
  have hrun : returns (do
      let h ← heapInit (fun _ => 7) 0x10000
      let st₁ ← liveStep ⟨h, []⟩ (.malloc 4075)
      let st₂ ← liveStep st₁ (.malloc 10)
      return (h, st₁, st₂)) (fun r => decide (r.2.1.heap.size = 1 ∧ r.2.2.heap.size = 2 ∧
        r.2.2.live = [⟨0x10015, 10⟩, ⟨0x10015, 4075⟩])) = true := by
    decide +kernel
  obtain ⟨⟨h, st₁, st₂⟩, e, htest⟩ := returns_iff.mp hrun
  obtain ⟨h', e₀, e⟩ := bind_ok e
  obtain ⟨st₁', e₁, e⟩ := bind_ok e
  obtain ⟨st₂', e₂, e⟩ := bind_ok e
  cases e
  obtain ⟨hs₁, hs₂, hlive⟩ := of_decide_eq_true htest
  simp only at hs₁ hs₂ hlive
  refine ⟨h, st₂, e₀, .cons ⟨trivial, e₁, ?_⟩ (.cons ⟨trivial, e₂, ?_⟩ .nil), ?_⟩
  · rw [hs₁]
    decide
  · rw [hs₂]
    decide
  · rw [hlive]
    intro hap
    have hboth := (List.pairwise_cons.mp hap).1 ⟨0x10015, 4075⟩ (by simp) 0x10015
    exact hboth ⟨⟨by decide, by decide⟩, by decide, by decide⟩

end BambooOS
