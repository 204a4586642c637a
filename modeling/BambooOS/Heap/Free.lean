import BambooOS.Heap.Links

/-!
# Heap.Free

`free` on a well-formed heap.

* `free_start`: the flag is set, then the two neighbours are looked at.
* `free_breaks`: every merge clears the header behind the absorbed segment, and the last segment is
  freed through a NULL `next`.
* `free_keeps`: the others are kept exactly when nothing is merged and there is a next segment.
-/

namespace BambooOS

open ByteMem Tiling

/-- Segments in address order, off the page of NULL, `prev` inverse to `next`, no two free ones side
by side. -/
structure WellFormed (h : Heap) (segs : List Seg) : Prop extends Chain h segs where
  base : 0x1000 ≤ h.base
  backs : Backs h.mem 0 h.base segs
  apart : segs.IsChain fun s t => ¬ (s.free = true ∧ t.free = true)

/-- Segments in address order, off the page of NULL, `prev` inverse to `next`. -/
structure Linked (h : Heap) (segs : List Seg) : Prop extends Chain h segs where
  low : 0x1000 ≤ h.base
  backs : Backs h.mem 0 h.base segs

/-- Around a segment with `a` and `l` before it and `r` and `b` behind it, `l` and `r` are its free
neighbours. -/
structure Neighbours (a l r b : List Seg) : Prop where
  left : (∃ p, l = [p] ∧ p.free = true) ∨ (l = [] ∧ ∀ p ∈ a.getLast?, p.free = false)
  right : (∃ n, r = [n] ∧ n.free = true) ∨ (r = [] ∧ ∀ n ∈ b.head?, n.free = false)

/-- A segment made one with its free neighbours. -/
def fused (l : List Seg) (s : Seg) (r : List Seg) : Seg :=
  ⟨span Seg.width (l ++ s :: r) - 21, true⟩

/-- Freeing `s` fuses it with `l` and `r`: the segments around keep their headers, the first one
behind points back to the fused one, and the blocks in use keep their bytes. -/
def KeepsOthers (h : Heap) (a l : List Seg) (s : Seg) (r b : List Seg) : Prop :=
  ∃ h', free h (h.base + span Seg.width (a ++ l) + 21) = .ok h' ∧
    Chain h' (a ++ fused l s r :: b) ∧
    (b ≠ [] → load h'.mem (h.base + span Seg.width a + (fused l s r).width) 8 =
      h.base + span Seg.width a) ∧
    ∀ q u, Tile Seg.width h.base (a ++ (l ++ s :: (r ++ b))) q u → u.free = false →
      q ≠ h.base + span Seg.width (a ++ l) →
        ∀ x, q + 21 ≤ x → x < q + u.width → h'.mem x = h.mem x

/-- Every segment has its neighbours. -/
theorem exists_neighbours (a' b' : List Seg) (s : Seg) :
    ∃ a l r b, a' ++ s :: b' = a ++ (l ++ s :: (r ++ b)) ∧ Neighbours a l r b := by
  have hleft : ∃ a l, a' = a ++ l ∧
      ((∃ p, l = [p] ∧ p.free = true) ∨ (l = [] ∧ ∀ p ∈ a.getLast?, p.free = false)) := by
    induction a' using List.reverseRecOn with
    | nil => exact ⟨[], [], rfl, .inr ⟨rfl, by simp⟩⟩
    | append_singleton a p =>
      cases hp : p.free with
      | true => exact ⟨a, [p], rfl, .inl ⟨p, rfl, hp⟩⟩
      | false => exact ⟨a ++ [p], [], by simp, .inr ⟨rfl, by simp [hp]⟩⟩
  have hright : ∃ r b, b' = r ++ b ∧
      ((∃ n, r = [n] ∧ n.free = true) ∨ (r = [] ∧ ∀ n ∈ b.head?, n.free = false)) := by
    cases b' with
    | nil => exact ⟨[], [], rfl, .inr ⟨rfl, by simp⟩⟩
    | cons n b =>
      cases hn : n.free with
      | true => exact ⟨[n], b, rfl, .inl ⟨n, rfl, hn⟩⟩
      | false => exact ⟨[], n :: b, rfl, .inr ⟨rfl, by simp [hn]⟩⟩
  obtain ⟨a, l, rfl, hl⟩ := hleft
  obtain ⟨r, b, rfl, hr⟩ := hright
  exact ⟨a, l, r, b, by simp, hl, hr⟩

section Start

variable {h : Heap} {a b : List Seg} {s : Seg} {p : Nat}

theorem findHdr_found {z fuel : Nat} (hh : Headers h.mem p (a ++ s :: b) z)
    (hm : h.Mapped p (span Seg.width (a ++ s :: b))) (hfuel : a.length < fuel) :
    findHdr h (p + span Seg.width a) fuel p = .ok true := by
  induction a generalizing p fuel with
  | nil =>
    obtain ⟨fuel, rfl⟩ : ∃ k, fuel = k + 1 := ⟨fuel - 1, by omega⟩
    rw [findHdr, if_pos (by simp)]
    rfl
  | cons t a ih =>
    obtain ⟨fuel, rfl⟩ : ∃ k, fuel = k + 1 := ⟨fuel - 1, by simp at hfuel; omega⟩
    have hw : t.width = 21 + t.size := rfl
    simp only [List.cons_append, span_cons] at hm ⊢
    have hat := hh.1
    rw [if_neg (by simp)] at hat
    have hlen : a.length < fuel := by
      simp at hfuel
      omega
    have hrest := ih hh.2 (hm.sub (by omega) (by omega)) hlen
    rw [Nat.add_assoc] at hrest
    rw [findHdr, if_neg (by omega), hat.next_ok (hm.sub (by omega) (by omega)), ok_bind,
      if_neg (by omega), if_pos (by omega), hrest]

theorem hdrAddr_payload {q : Nat} (hq : q + 21 < 2 ^ 64) : hdrAddr (q + 21) = q := by
  unfold hdrAddr
  rw [show q + 21 + 2 ^ 64 - 21 = q + 2 ^ 64 by omega, Nat.add_mod_right, Nat.mod_eq_of_lt (by omega)]

/-- `free` of a payload of the list: the flag is set before the neighbours are looked at. -/
theorem free_start (hc : Chain h (a ++ s :: b)) :
    ∃ h₁, Touched h h₁ (h.base + span Seg.width a + 20) (h.base + span Seg.width a + 21) ∧
      Chain h₁ (a ++ ⟨s.size, true⟩ :: b) ∧
      free h (h.base + span Seg.width a + 21) = do
        let r ← mergeBackward h₁ (h.base + span Seg.width a)
        let next ← r.1.next r.2
        let nextFree ← r.1.isFree next
        if nextFree then heapMergeForward r.1 r.2 else return r.1 := by
  have hm := hc.mapped_hdr
  have hw : s.width = 21 + s.size := rfl
  have hend := hc.mapped_seg.2
  have hspace := hc.space
  have haddr : hdrAddr (h.base + span Seg.width a + 21) = h.base + span Seg.width a :=
    hdrAddr_payload (by omega)
  obtain ⟨h₁, e₁, t₁, ha₁⟩ := hc.hdrAt.setFree hm true
  have hc₁ : Chain h₁ (a ++ ([⟨s.size, true⟩] ++ b)) :=
    hc.replace (by simp) (t₁.mono (by omega) (by omega)) ⟨ha₁, trivial⟩ rfl
  have hlen : a.length < h.fuel := by
    have := hc.length_lt
    simp at this
    omega
  have hfound := findHdr_found hc.headers hc.mapped hlen
  refine ⟨h₁, t₁, hc₁, ?_⟩
  unfold free
  simp only [haddr, hfound, ok_bind, Bool.not_true, Bool.false_eq_true, if_false, e₁]

theorem isFree_null (hbase : 0x1000 ≤ h.base) : h.isFree 0 = .error .pageFault := by
  unfold Heap.isFree Heap.read
  rw [if_neg fun hm => by have := hm.1; omega]
  rfl

theorem mergeBackward_skip (hm : h.Mapped p 21)
    (hno : load h.mem p 8 = 0 ∨
      (h.Mapped (load h.mem p 8) 21 ∧ load h.mem (load h.mem p 8 + 20) 1 = 0)) :
    mergeBackward h p = .ok (h, p) := by
  unfold mergeBackward
  rw [Heap.prev_ok hm, ok_bind]
  rcases hno with h0 | ⟨hmp, hf⟩
  · rw [if_pos h0]
    rfl
  · split
    · rfl
    · rw [Heap.isFree_ok hmp, hf]
      rfl

theorem mergeBackward_merge (hm : h.Mapped p 21) {q : Nat} (hq : load h.mem p 8 = q) (hq0 : q ≠ 0)
    (hmq : h.Mapped q 21) (hf : load h.mem (q + 20) 1 ≠ 0) :
    mergeBackward h p = do
      let h ← heapMergeForward h q
      return (h, q) := by
  unfold mergeBackward
  rw [Heap.prev_ok hm, ok_bind, hq, if_neg hq0, Heap.isFree_ok hmq, ok_bind,
    if_pos (decide_eq_true hf)]

end Start

section Keeps

variable {h : Heap} {a l r b : List Seg} {s t : Seg}

theorem Backs.prev {m : Mem} {base : Nat} (hb : Backs m 0 base (a ++ t :: s :: b)) :
    load m (base + span Seg.width a + t.width) 8 = base + span Seg.width a :=
  (backs_append.mp hb).2.2.1

/-- No merge with a segment in use before this one, or with none. -/
theorem prev_inUse (hc : Chain h (a ++ s :: b)) (hb : Backs h.mem 0 h.base (a ++ s :: b))
    (ha : ∀ p ∈ a.getLast?, p.free = false) :
    load h.mem (h.base + span Seg.width a) 8 = 0 ∨
      (h.Mapped (load h.mem (h.base + span Seg.width a) 8) 21 ∧
        load h.mem (load h.mem (h.base + span Seg.width a) 8 + 20) 1 = 0) := by
  induction a using List.reverseRecOn with
  | nil => exact .inl hb.1
  | append_singleton a p =>
    rw [List.append_assoc, List.singleton_append] at hc hb
    have hprev := hb.prev
    have hflag := hc.hdrAt.free
    rw [ha p (by simp), decide_eq_false_iff_not, not_not] at hflag
    rw [span_append, span_cons, span_nil, Nat.add_zero, ← Nat.add_assoc, hprev]
    exact .inr ⟨hc.mapped_hdr, hflag⟩

/-- The heap `h'` that a merge from the segment at `p` over its successor leaves: the header at `z`,
behind the absorbed segment, is cleared. -/
structure Merged (h h' : Heap) (p z : Nat) (t : Seg) : Prop where
  base : h'.base = h.base
  size : h'.size = h.size
  hdr : At h'.mem p t z
  cleared : At h'.mem z ⟨0, false⟩ 0
  prev : load h'.mem z 8 = 0
  below : ∀ x, x < p + 8 → h'.mem x = h.mem x

theorem Merged.mapped {h' : Heap} {p z q n : Nat} (hm : Merged h h' p z t) (hq : h.Mapped q n) :
    h'.Mapped q n := by
  simpa only [Heap.Mapped, Heap.limit, hm.base, hm.size] using hq

theorem Chain.merge (hc : Chain h (a ++ t :: s :: b)) (hb : b ≠ []) :
    ∃ h', heapMergeForward h (h.base + span Seg.width a) = .ok h' ∧
      Merged h h' (h.base + span Seg.width a) (h.base + span Seg.width a + t.width + s.width)
        ⟨(t.size + s.width) % 2 ^ 32, t.free⟩ ∧
      h.Mapped (h.base + span Seg.width a + t.width + s.width) 21 := by
  have hwt : t.width = 21 + t.size := rfl
  have hws : s.width = 21 + s.size := rfl
  obtain ⟨u, b, rfl⟩ := List.exists_cons_of_ne_nil hb
  have hat := hc.hdrAt
  have hmp := hc.mapped_hdr
  rw [if_neg (List.cons_ne_nil _ _)] at hat
  have hc₂ : Chain h ((a ++ [t]) ++ s :: u :: b) := by simpa using hc
  have has := hc₂.hdrAt
  have hms := hc₂.mapped_hdr
  have hc₃ : Chain h ((a ++ [t, s]) ++ u :: b) := by simpa using hc
  have hmu := hc₃.mapped_hdr
  rw [if_neg (List.cons_ne_nil _ _)] at has
  simp only [span_append, span_cons, span_nil, Nat.add_zero, ← Nat.add_assoc] at has hms hmu
  obtain ⟨h', e, hbase, hsize, ha', hzero, hother⟩ :=
    heapMergeForward_spec hat has hmp hms (by omega) hmu (by omega)
  obtain ⟨hz, hback⟩ := at_zero hzero
  exact ⟨h', e, ⟨hbase, hsize, ha', hz, hback, fun x hx => hother x (by omega) (by omega)⟩, hmu⟩

/-- A merge from `t` over `s` needs a header behind `s` to clear. -/
theorem Chain.merge_iff (hc : Chain h (a ++ t :: s :: b)) (hlow : 0x1000 ≤ h.base) :
    (∃ h', heapMergeForward h (h.base + span Seg.width a) = .ok h') ↔ b ≠ [] := by
  constructor
  · intro he hb
    subst hb
    obtain ⟨h', e⟩ := he
    have hat := hc.hdrAt
    have hc₂ : Chain h ((a ++ [t]) ++ [s]) := by simpa using hc
    have has := hc₂.hdrAt
    have hms := hc₂.mapped_hdr
    have hwt : t.width = 21 + t.size := rfl
    rw [if_neg (List.cons_ne_nil _ _)] at hat
    rw [if_pos rfl] at has
    simp only [span_append, span_cons, span_nil, Nat.add_zero, ← Nat.add_assoc] at has hms
    rw [heapMergeForward_last hat has hc.mapped_hdr hms (by omega) (by omega)] at e
    cases e
  · intro hb
    obtain ⟨h', e, _⟩ := hc.merge hb
    exact ⟨h', e⟩

/-- A merge loses the header behind it, and the last segment has no `next` to look at. -/
theorem free_breaks (hw : WellFormed h (a ++ (l ++ s :: (r ++ b)))) (hn : Neighbours a l r b)
    (habs : l ≠ [] ∨ r ≠ [] → b ≠ []) (hbad : l ≠ [] ∨ r ≠ [] ∨ b = []) :
    ¬ KeepsOthers h a l s r b := by
  rintro ⟨h', e, hc', hback, _⟩
  have hbase := hw.base
  have hws : s.width = 21 + s.size := rfl
  have hc₀ : Chain h ((a ++ l) ++ s :: (r ++ b)) := by simpa using hw.toChain
  have hb₀ : Backs h.mem 0 h.base ((a ++ l) ++ s :: (r ++ b)) := by simpa using hw.backs
  obtain ⟨h₁, t₁, hc₁, e₁⟩ := free_start hc₀
  have hb₁ : Backs h₁.mem 0 h₁.base ((a ++ l) ++ ⟨s.size, true⟩ :: (r ++ b)) := by
    rw [t₁.base]
    exact hb₀.same (fun _ => rfl) fun x hx _ => t₁.other x (by omega)
  rw [e₁] at e
  rw [← t₁.base] at e hbase hback
  rcases hn.left with ⟨p, rfl, hpf⟩ | ⟨rfl, hpf⟩
  · -- backward: the header behind `s` is cleared
    have hne : r ++ b ≠ [] := by simp [habs (.inl (by simp))]
    have hp₁ : Chain h₁ (a ++ p :: ⟨s.size, true⟩ :: (r ++ b)) := by simpa using hc₁
    have hpb : Backs h₁.mem 0 h₁.base (a ++ p :: ⟨s.size, true⟩ :: (r ++ b)) := by simpa using hb₁
    have hms := hc₁.mapped_hdr
    simp only [span_append, span_cons, span_nil, Nat.add_zero, ← Nat.add_assoc] at e hms
    obtain ⟨h₂, em, hm₂, hmz⟩ := hp₁.merge hne
    have hnext := hm₂.hdr.next_ok (hm₂.mapped hp₁.mapped_hdr)
    have hfree := hm₂.cleared.isFree_ok (hm₂.mapped hmz)
    have hz := hm₂.prev
    have hflag := hp₁.hdrAt.free
    rw [hpf, decide_eq_true_iff] at hflag
    rw [mergeBackward_merge hms hpb.prev (by omega) hp₁.mapped_hdr hflag, em] at e
    simp only [ok_bind, pure_bind, hnext, hfree, Bool.false_eq_true, if_false] at e
    cases e
    rcases hn.right with ⟨n, rfl, _⟩ | ⟨rfl, _⟩
    · -- the fused segment should reach behind `n`, but its `next` is `n`
      have hfar := hc'.hdrAt.next_ok hc'.mapped_hdr
      have hwn : n.width = 21 + n.size := rfl
      have hwf : (fused [p] s [n]).width = 21 + (p.width + (s.width + n.width) - 21) := rfl
      rw [if_neg (habs (.inl (by simp))), hm₂.base, hnext] at hfar
      injection hfar with hfar
      simp only [Seg.width] at *
      omega
    · have hlink := hback (habs (.inl (by simp)))
      have hwf : (fused [p] s []).width = p.width + s.width := by
        simp only [fused, Seg.width, span_cons, span_nil, List.singleton_append]
        omega
      have hws' : (⟨s.size, true⟩ : Seg).width = s.width := rfl
      rw [hws'] at hz
      rw [hwf, ← Nat.add_assoc, hz] at hlink
      omega
  · rw [List.append_nil] at e hc₁ hb₁
    have hskip := mergeBackward_skip hc₁.mapped_hdr (prev_inUse hc₁ hb₁ (by simpa using hpf))
    rw [hskip] at e
    rcases hn.right with ⟨n, rfl, hnf⟩ | ⟨rfl, _⟩
    · -- forward: the header behind `n` is cleared
      have hb0 := habs (.inr (by simp))
      have hm₁ : Chain h₁ (a ++ ⟨s.size, true⟩ :: n :: b) := by simpa using hc₁
      obtain ⟨h₂, em, hm₂, _⟩ := hm₁.merge hb0
      have hz := hm₂.prev
      have hn₁ : Chain h₁ ((a ++ [⟨s.size, true⟩]) ++ n :: b) := by simpa using hm₁
      have hnext := hm₁.hdrAt.next_ok hm₁.mapped_hdr
      have hflag := hn₁.hdrAt.isFree_ok hn₁.mapped_hdr
      have hws' : (⟨s.size, true⟩ : Seg).width = s.width := rfl
      rw [if_neg (List.cons_ne_nil n b), hws'] at hnext
      simp only [span_append, span_cons, span_nil, Nat.add_zero, ← Nat.add_assoc, hws'] at hflag
      simp only [ok_bind, hnext, hflag, hnf, if_true, em] at e
      cases e
      have hlink := hback hb0
      have hwf : (fused [] s [n]).width = s.width + n.width := by
        simp only [fused, Seg.width, span_cons, span_nil, List.nil_append]
        omega
      rw [hws'] at hz
      rw [hwf, ← Nat.add_assoc, hz] at hlink
      omega
    · -- no next segment: NULL is read
      have hb0 : b = [] := by simpa using hbad
      subst hb0
      have hend := hc₁.hdrAt.next_ok hc₁.mapped_hdr
      rw [List.append_nil, if_pos rfl] at hend
      simp only [ok_bind, hend, isFree_null hbase, error_bind] at e
      cases e

theorem free_alone (hw : WellFormed h (a ++ s :: b)) (hpf : ∀ p ∈ a.getLast?, p.free = false)
    (hnf : ∀ n ∈ b.head?, n.free = false) (hb : b ≠ []) : KeepsOthers h a [] s [] b := by
  have hws : s.width = 21 + s.size := rfl
  obtain ⟨h₁, t₁, hc₁, e₁⟩ := free_start hw.toChain
  have hb₁ : Backs h₁.mem 0 h₁.base (a ++ ⟨s.size, true⟩ :: b) := by
    rw [t₁.base]
    exact hw.backs.same (fun _ => rfl) fun x hx _ => t₁.other x (by omega)
  have hf : fused [] s [] = ⟨s.size, true⟩ := by
    unfold fused
    rw [Seg.mk.injEq]
    refine ⟨?_, rfl⟩
    simp only [List.nil_append, span_cons, span_nil]
    omega
  obtain ⟨n, b, rfl⟩ := List.exists_cons_of_ne_nil hb
  have hn₁ : Chain h₁ ((a ++ [⟨s.size, true⟩]) ++ n :: b) := by simpa using hc₁
  have hnext := hc₁.hdrAt.next_ok hc₁.mapped_hdr
  have hflag := hn₁.hdrAt.isFree_ok hn₁.mapped_hdr
  have hskip := mergeBackward_skip hc₁.mapped_hdr (prev_inUse hc₁ hb₁ hpf)
  rw [if_neg (List.cons_ne_nil n b)] at hnext
  simp only [span_append, span_cons, span_nil, Nat.add_zero, ← Nat.add_assoc] at hflag
  unfold KeepsOthers
  rw [hf, List.append_nil]
  refine ⟨h₁, ?_, hc₁, fun _ => ?_, ?_⟩
  · rw [e₁, ← t₁.base, hskip]
    simp only [ok_bind, hnext, hflag, hnf n (by simp)]
    rfl
  · rw [← t₁.base]
    exact hb₁.prev
  · intro q u hu _ hq x hx hx'
    refine t₁.other x ?_
    rcases hu.sep (tile_mid h.base a (n :: b) s) with ⟨rfl, _⟩ | hlt | hgt
    · exact absurd rfl hq
    · omega
    · omega

/-- Freeing a block keeps every other block exactly when its neighbours are in use and there is one
behind it. -/
theorem free_keeps (hw : WellFormed h (a ++ (l ++ s :: (r ++ b)))) (hn : Neighbours a l r b)
    (habs : l ≠ [] ∨ r ≠ [] → b ≠ []) : KeepsOthers h a l s r b ↔
      l = [] ∧ r = [] ∧ b ≠ [] := by
  constructor
  · intro hk
    by_contra hbad
    refine free_breaks hw hn habs ?_ hk
    tauto
  · rintro ⟨rfl, rfl, hb⟩
    have hpf : ∀ p ∈ a.getLast?, p.free = false := by simpa using hn.left
    have hnf : ∀ n ∈ b.head?, n.free = false := by simpa using hn.right
    exact free_alone hw hpf hnf hb

end Keeps

theorem linked_page {h : Heap} {segs : List Seg} (hsegs : segs ≠ [])
    (hspan : span Seg.width segs ≤ 0x1000)
    (hread : h.base = 0x10000 ∧ h.size = 1 ∧ Headers h.mem 0x10000 segs 0 ∧
      Backs h.mem 0 0x10000 segs) : Linked h segs := by
  obtain ⟨hb, hs, hh, hk⟩ := hread
  have hlim : h.limit = 0x11000 := by
    unfold Heap.limit
    rw [hb, hs]
  exact ⟨⟨hsegs, by rw [hb]; exact hh, by omega, by omega⟩, by omega, by rw [hb]; exact hk⟩

theorem wellFormed_page {h : Heap} {segs : List Seg} (hsegs : segs ≠ [])
    (hspan : span Seg.width segs ≤ 0x1000)
    (hapart : segs.IsChain fun s t => ¬ (s.free = true ∧ t.free = true))
    (hread : h.base = 0x10000 ∧ h.size = 1 ∧ Headers h.mem 0x10000 segs 0 ∧
      Backs h.mem 0 0x10000 segs) : WellFormed h segs := by
  have hl := linked_page hsegs hspan hread
  exact ⟨hl.toChain, hl.low, hl.backs, hapart⟩

/-- Three blocks are allocated, and the middle one is freed. -/
theorem free_keeps_middle : ∃ h,
    (do
      let h ← heapInit (fun _ => 7) 0x10000
      heapRun h [.malloc 100, .malloc 50, .malloc 30]) = .ok h ∧
    KeepsOthers h [⟨100, false⟩] [] ⟨50, false⟩ [] [⟨30, false⟩, ⟨3832, true⟩] := by
  let segs : List Seg := [⟨100, false⟩, ⟨50, false⟩, ⟨30, false⟩, ⟨3832, true⟩]
  have hrun : returns (do
      let h ← heapInit (fun _ => 7) 0x10000
      heapRun h [.malloc 100, .malloc 50, .malloc 30]) (fun h => decide (h.base = 0x10000 ∧
        h.size = 1 ∧ Headers h.mem 0x10000 segs 0 ∧ Backs h.mem 0 0x10000 segs)) = true := by
    decide +kernel
  obtain ⟨h, e, hread⟩ := returns_iff.mp hrun
  have hw : WellFormed h segs :=
    wellFormed_page (by decide) (by decide) (by decide) (of_decide_eq_true hread)
  have hn : Neighbours [⟨100, false⟩] [] [] [⟨30, false⟩, ⟨3832, true⟩] :=
    ⟨.inr ⟨rfl, by decide⟩, .inr ⟨rfl, by decide⟩⟩
  exact ⟨h, e, (free_keeps hw hn (by simp)).mpr ⟨rfl, rfl, by simp⟩⟩

/-- The first of three blocks is free already: with the second one freed, the header of the third is
cleared. -/
theorem free_loses_next : ∃ h,
    (do
      let h ← heapInit (fun _ => 7) 0x10000
      heapRun h [.malloc 100, .malloc 50, .malloc 30, .free 0x10015]) = .ok h ∧
    WellFormed h [⟨100, true⟩, ⟨50, false⟩, ⟨30, false⟩, ⟨3832, true⟩] ∧
    Neighbours [] [⟨100, true⟩] [] [⟨30, false⟩, ⟨3832, true⟩] ∧
    ¬ KeepsOthers h [] [⟨100, true⟩] ⟨50, false⟩ [] [⟨30, false⟩, ⟨3832, true⟩] := by
  let segs : List Seg := [⟨100, true⟩, ⟨50, false⟩, ⟨30, false⟩, ⟨3832, true⟩]
  have hrun : returns (do
      let h ← heapInit (fun _ => 7) 0x10000
      heapRun h [.malloc 100, .malloc 50, .malloc 30, .free 0x10015]) (fun h =>
        decide (h.base = 0x10000 ∧ h.size = 1 ∧ Headers h.mem 0x10000 segs 0 ∧
          Backs h.mem 0 0x10000 segs)) = true := by
    decide +kernel
  obtain ⟨h, e, hread⟩ := returns_iff.mp hrun
  have hw : WellFormed h segs :=
    wellFormed_page (by decide) (by decide) (by decide) (of_decide_eq_true hread)
  have hn : Neighbours [] [⟨100, true⟩] [] [⟨30, false⟩, ⟨3832, true⟩] :=
    ⟨.inl ⟨_, rfl, rfl⟩, .inr ⟨rfl, by decide⟩⟩
  exact ⟨h, e, hw, hn, free_breaks (a := []) hw hn (by simp) (.inl (by simp))⟩

end BambooOS
