import BambooOS.Heap.Free

/-!
# Heap.Bounds

`free` reads and writes the heap's pages only as long as it comes back: everything else is a page
fault, the links of the first and the last segment included.

* `free_backward_iff`, `free_forward_iff`: when each way through the merges comes back.
* `free_returns_iff`: which segments of a linked heap can be freed.
-/

namespace BambooOS

open ByteMem Tiling

/-- Every access of `free(ptr)` is to the heap's pages. -/
def StaysOnHeap (h : Heap) (ptr : Nat) : Prop := ∃ h', free h ptr = .ok h'

/-- There is a segment behind `s`; and if it is free and the last one, the segment before `s` is
free too. -/
def FreesInside (a b : List Seg) : Prop :=
  b ≠ [] ∧ ∀ n, b = [n] → n.free = true → ∃ p ∈ a.getLast?, p.free = true

section Bounds

variable {h h₁ : Heap} {a b : List Seg} {s t : Seg}

/-- `free` behind a merge into a free segment before: the second merge finds a cleared header. -/
theorem free_backward_iff (hc : Chain h₁ (a ++ t :: s :: b)) (hlow : 0x1000 ≤ h₁.base)
    (hbk : Backs h₁.mem 0 h₁.base (a ++ t :: s :: b)) (ht : t.free = true) :
    (∃ h', (do
      let r ← mergeBackward h₁ (h₁.base + span Seg.width a + t.width)
      let next ← r.1.next r.2
      let nextFree ← r.1.isFree next
      if nextFree then heapMergeForward r.1 r.2 else return r.1) = .ok h') ↔ b ≠ [] := by
  have hc₂ : Chain h₁ ((a ++ [t]) ++ s :: b) := by simpa using hc
  have hms := hc₂.mapped_hdr
  simp only [span_append, span_cons, span_nil, Nat.add_zero, ← Nat.add_assoc] at hms
  have hflag := hc.hdrAt.free
  rw [ht, decide_eq_true_iff] at hflag
  rw [mergeBackward_merge hms hbk.prev (by omega) hc.mapped_hdr hflag]
  constructor
  · intro he
    obtain ⟨h', e⟩ := he
    obtain ⟨r, er, _⟩ := bind_ok e
    obtain ⟨h₂, em, _⟩ := bind_ok er
    exact (hc.merge_iff hlow).mp ⟨h₂, em⟩
  · intro hb
    obtain ⟨h₂, em, hmd, hmz⟩ := hc.merge hb
    have hlook := hmd.hdr.next_ok (hmd.mapped hc.mapped_hdr)
    have hfree := hmd.cleared.isFree_ok (hmd.mapped hmz)
    refine ⟨h₂, ?_⟩
    simp only [em, ok_bind, pure_bind, hlook, hfree, Bool.false_eq_true, if_false]
    rfl

/-- `free` with no merge before: it looks at the segment behind, and may absorb it. -/
theorem free_forward_iff (hc : Chain h₁ (a ++ s :: b)) (hlow : 0x1000 ≤ h₁.base)
    (hskip : mergeBackward h₁ (h₁.base + span Seg.width a) =
      .ok (h₁, h₁.base + span Seg.width a)) :
    (∃ h', (do
      let r ← mergeBackward h₁ (h₁.base + span Seg.width a)
      let next ← r.1.next r.2
      let nextFree ← r.1.isFree next
      if nextFree then heapMergeForward r.1 r.2 else return r.1) = .ok h') ↔
        b ≠ [] ∧ ∀ n, b = [n] → n.free = false := by
  have hnext := hc.hdrAt.next_ok hc.mapped_hdr
  simp only [hskip, ok_bind, hnext]
  cases b with
  | nil =>
    rw [if_pos rfl, isFree_null hlow]
    constructor
    · intro he
      obtain ⟨h', e⟩ := he
      cases e
    · intro hb
      exact absurd rfl hb.1
  | cons n b =>
    have hn : Chain h₁ ((a ++ [s]) ++ n :: b) := by simpa using hc
    have hflag := hn.hdrAt.isFree_ok hn.mapped_hdr
    simp only [span_append, span_cons, span_nil, Nat.add_zero, ← Nat.add_assoc] at hflag
    rw [if_neg (List.cons_ne_nil n b), hflag, ok_bind]
    cases hf : n.free with
    | false =>
      constructor
      · intro _
        refine ⟨List.cons_ne_nil n b, fun u hu => ?_⟩
        cases hu
        exact hf
      · intro _
        exact ⟨h₁, rfl⟩
    | true =>
      rw [if_pos rfl, hc.merge_iff hlow]
      constructor
      · intro hb
        refine ⟨List.cons_ne_nil n b, fun u hu => ?_⟩
        cases hu
        exact absurd rfl hb
      · intro hall hb
        subst hb
        have := hall.2 n rfl
        rw [hf] at this
        cases this

/-- Freeing a segment stays on the heap's pages exactly when there is a segment behind it, and not
just a free last one that it would have to absorb. -/
theorem free_returns_iff (hl : Linked h (a ++ s :: b)) :
    StaysOnHeap h (h.base + span Seg.width a + 21) ↔ FreesInside a b := by
  have hws : s.width = 21 + s.size := rfl
  obtain ⟨h₁, t₁, hc₁, e₁⟩ := free_start hl.toChain
  have hlow := hl.low
  have hb₁ : Backs h₁.mem 0 h₁.base (a ++ ⟨s.size, true⟩ :: b) := by
    rw [t₁.base]
    exact hl.backs.same (fun _ => rfl) fun x hx _ => t₁.other x (by omega)
  unfold StaysOnHeap FreesInside
  rw [e₁]
  rw [← t₁.base] at hlow ⊢
  by_cases hprev : ∀ p ∈ a.getLast?, p.free = false
  · rw [free_forward_iff hc₁ hlow (mergeBackward_skip hc₁.mapped_hdr (prev_inUse hc₁ hb₁ hprev))]
    refine and_congr_right fun _ => forall_congr' fun n => forall_congr' fun _ => ?_
    constructor
    · intro hf ht
      rw [hf] at ht
      cases ht
    · intro himp
      by_contra hf
      obtain ⟨p, hp, hpf⟩ := himp (by simpa using hf)
      rw [hprev p hp] at hpf
      cases hpf
  · -- the segment before is free, and absorbs this one first
    push Not at hprev
    obtain ⟨p, hp, hpf⟩ := hprev
    obtain ⟨a, rfl⟩ : ∃ a', a = a' ++ [p] := by
      obtain ⟨a', ha'⟩ := List.getLast?_eq_some_iff.mp hp
      exact ⟨a', ha'⟩
    have hpf : p.free = true := by simpa using hpf
    have hc₂ : Chain h₁ (a ++ p :: ⟨s.size, true⟩ :: b) := by simpa using hc₁
    have hb₂ : Backs h₁.mem 0 h₁.base (a ++ p :: ⟨s.size, true⟩ :: b) := by simpa using hb₁
    have hiff := free_backward_iff hc₂ hlow hb₂ hpf
    simp only [span_append, span_cons, span_nil, Nat.add_zero, ← Nat.add_assoc]
    rw [hiff]
    constructor
    · intro hb
      exact ⟨hb, fun _ _ _ => ⟨p, by simp, hpf⟩⟩
    · intro hb
      exact hb.1

end Bounds

/-- The newest block of a heap, with all that is free behind it, cannot be freed. -/
theorem free_newest_leaves : ∃ h,
    (do
      let h ← heapInit (fun _ => 7) 0x10000
      heapRun h [.malloc 100]) = .ok h ∧
    Linked h [⟨100, false⟩, ⟨3954, true⟩] ∧ ¬ StaysOnHeap h 0x10015 := by
  let segs : List Seg := [⟨100, false⟩, ⟨3954, true⟩]
  have hrun : returns (do
      let h ← heapInit (fun _ => 7) 0x10000
      heapRun h [.malloc 100]) (fun h => decide (h.base = 0x10000 ∧ h.size = 1 ∧
        Headers h.mem 0x10000 segs 0 ∧ Backs h.mem 0 0x10000 segs) &&
          !returns (free h 0x10015) fun _ => true) = true := by
    decide +kernel
  obtain ⟨h, e, htest⟩ := returns_iff.mp hrun
  rw [Bool.and_eq_true, Bool.not_eq_true', decide_eq_true_iff] at htest
  obtain ⟨hread, hfault⟩ := htest
  refine ⟨h, e, linked_page (by decide) (by decide) hread, fun hstay => ?_⟩
  obtain ⟨h', e'⟩ := hstay
  have hcomes : returns (free h 0x10015) (fun _ => true) = true := returns_iff.mpr ⟨h', e', rfl⟩
  rw [hfault] at hcomes
  cases hcomes

/-- A block with two segments behind it can. -/
theorem free_returns_middle : ∃ h,
    (do
      let h ← heapInit (fun _ => 7) 0x10000
      heapRun h [.malloc 100, .malloc 50]) = .ok h ∧
    StaysOnHeap h (h.base + span Seg.width [] + 21) := by
  let segs : List Seg := [⟨100, false⟩, ⟨50, false⟩, ⟨3883, true⟩]
  have hrun : returns (do
      let h ← heapInit (fun _ => 7) 0x10000
      heapRun h [.malloc 100, .malloc 50]) (fun h => decide (h.base = 0x10000 ∧ h.size = 1 ∧
        Headers h.mem 0x10000 segs 0 ∧ Backs h.mem 0 0x10000 segs)) = true := by
    decide +kernel
  obtain ⟨h, e, hread⟩ := returns_iff.mp hrun
  have hl : Linked h ([] ++ ⟨100, false⟩ :: [⟨50, false⟩, ⟨3883, true⟩]) :=
    linked_page (by decide) (by decide) (of_decide_eq_true hread)
  exact ⟨h, e, (free_returns_iff hl).mpr ⟨by simp, by simp⟩⟩

end BambooOS
