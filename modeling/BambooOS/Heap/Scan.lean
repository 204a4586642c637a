import BambooOS.Heap.Free

/-!
# Heap.Scan

The validity scan that `free` and `realloc` make before they touch a pointer.

* `findHdr_scan`: on headers that follow one another the scan comes to an end, and finds exactly
  their addresses.
* `free_invalid` / `realloc_invalid`: a pointer behind no header is no block.
-/

namespace BambooOS

open ByteMem Tiling

section Scan

variable {h : Heap} {segs : List Seg} {p ptr target : Nat}

/-- The scan gives up at the first header above its target: those behind it lie higher still. -/
theorem findHdr_scan {fuel : Nat} (hne : segs ≠ []) (hh : Headers h.mem p segs 0)
    (hm : h.Mapped p (span Seg.width segs)) (hfuel : segs.length ≤ fuel) :
    ∃ valid, findHdr h target fuel p = .ok valid ∧
      (valid = true ↔ ∃ s, Tile Seg.width p segs target s) := by
  induction segs generalizing p fuel with
  | nil => exact absurd rfl hne
  | cons s l ih =>
    obtain ⟨fuel, rfl⟩ : ∃ k, fuel = k + 1 := ⟨fuel - 1, by simp at hfuel; omega⟩
    have hw : s.width = 21 + s.size := rfl
    simp only [span_cons] at hm
    have hmp : h.Mapped p 21 := hm.sub (by omega) (by omega)
    rw [findHdr]
    by_cases he : target = p
    · rw [if_pos he]
      refine ⟨true, rfl, ?_⟩
      simp only [true_iff]
      exact ⟨s, tile_cons.mpr (.inl ⟨he, rfl⟩)⟩
    · rw [if_neg he, hh.1.next_ok hmp, ok_bind]
      cases l with
      | nil =>
        refine ⟨false, by rw [if_pos rfl, if_pos rfl]; rfl, ?_⟩
        simp [tile_cons, tile_nil, he]
      | cons t l =>
        rw [if_neg (List.cons_ne_nil t l), if_neg (by omega)]
        by_cases hle : p + s.width ≤ target
        · obtain ⟨valid, e, hiff⟩ := ih (List.cons_ne_nil t l) hh.2 (hm.sub (by omega) (by omega))
            (by simpa using hfuel)
          refine ⟨valid, by rw [if_pos hle, e], ?_⟩
          simp only [hiff, tile_cons (l := t :: l) (t := s), he, false_and, false_or]
        · refine ⟨false, by rw [if_neg hle]; rfl, ?_⟩
          simp only [Bool.false_eq_true, false_iff]
          intro hex
          obtain ⟨u, hu⟩ := hex
          rcases tile_cons.mp hu with ⟨h0, _⟩ | hrest
          · exact he h0
          · exact hle hrest.bounds.1

theorem Chain.scan (hc : Chain h segs) (target : Nat) :
    ∃ valid, findHdr h target h.fuel h.base = .ok valid ∧ (valid = true ↔ InChain h target) := by
  obtain ⟨valid, e, hiff⟩ := findHdr_scan hc.nonempty hc.headers hc.mapped
    (Nat.le_of_lt hc.length_lt)
  exact ⟨valid, e, hiff.trans hc.inChain_iff.symm⟩

theorem Chain.scan_invalid (hc : Chain h segs) (hno : ¬ InChain h target) :
    findHdr h target h.fuel h.base = .ok false := by
  obtain ⟨valid, e, hiff⟩ := hc.scan target
  cases valid with
  | false => exact e
  | true => exact absurd (hiff.mp rfl) hno

/-- `free` of a pointer behind no header writes nothing. -/
theorem free_invalid (hc : Chain h segs) (hno : ¬ InChain h (hdrAddr ptr)) :
    free h ptr = .ok h := by
  unfold free
  rw [hc.scan_invalid hno]
  rfl

/-- `realloc` of a pointer behind no header is `malloc`. -/
theorem realloc_invalid (hc : Chain h segs) (hno : ¬ InChain h (hdrAddr ptr)) (n : Nat) :
    realloc h ptr n = malloc h n := by
  unfold realloc
  rw [hc.scan_invalid hno]
  rfl

/-- The scans of `free` and `realloc` tell the heap's own pointers from all others. -/
theorem scan_exact (ht : Tiled h segs) (ptr n : Nat) :
    (∃ valid, findHdr h (hdrAddr ptr) h.fuel h.base = .ok valid ∧
      (valid = true ↔ InChain h (hdrAddr ptr))) ∧
    (¬ InChain h (hdrAddr ptr) → free h ptr = .ok h ∧ realloc h ptr n = malloc h n) :=
  ⟨ht.scan _, fun hno => ⟨free_invalid ht.toChain hno, realloc_invalid ht.toChain hno n⟩⟩

end Scan

/-- A heap with two blocks: the pointer to the second is found, one into the middle of the first is
not. -/
theorem scan_exact_second : ∃ h,
    (do
      let h ← heapInit (fun _ => 7) 0x10000
      heapRun h [.malloc 100, .malloc 50]) = .ok h ∧
    findHdr h (hdrAddr 0x1008e) h.fuel h.base = .ok true ∧
    findHdr h (hdrAddr 0x10050) h.fuel h.base = .ok false ∧ free h 0x10050 = .ok h ∧
    realloc h 0x10050 200 = malloc h 200 := by
  let segs : List Seg := [⟨100, false⟩, ⟨50, false⟩, ⟨3883, true⟩]
  have hrun : returns (do
      let h ← heapInit (fun _ => 7) 0x10000
      heapRun h [.malloc 100, .malloc 50]) (fun h => decide (h.base = 0x10000 ∧ h.size = 1 ∧
        Headers h.mem 0x10000 segs 0 ∧ Backs h.mem 0 0x10000 segs)) = true := by
    decide +kernel
  obtain ⟨h, e, hread⟩ := returns_iff.mp hrun
  have hl : Linked h segs := linked_page (by decide) (by decide) (of_decide_eq_true hread)
  obtain ⟨hbase, hsize, _⟩ := of_decide_eq_true hread
  have ht : Tiled h segs := ⟨hl.toChain, by rw [hsize]; rfl⟩
  have hyes : InChain h (hdrAddr 0x1008e) :=
    ht.inChain_iff.mpr ⟨⟨50, false⟩, [⟨100, false⟩], [⟨3883, true⟩], rfl, by rw [hbase]; rfl⟩
  have hno : ¬ InChain h (hdrAddr 0x10050) := by
    rw [ht.inChain_iff, hbase]
    rintro ⟨s, hs⟩
    have haddr : hdrAddr 0x10050 = 0x1003b := rfl
    simp [segs, tile_cons, tile_nil, haddr, Seg.width] at hs
  obtain ⟨⟨v, ev, hv⟩, _⟩ := scan_exact ht 0x1008e 200
  obtain ⟨⟨w, ew, hw⟩, hinv⟩ := scan_exact ht 0x10050 200
  rw [hv.mpr hyes] at ev
  rw [Bool.eq_false_iff.mpr fun h => hno (hw.mp h)] at ew
  exact ⟨h, e, ev, ew, hinv hno⟩

end BambooOS
