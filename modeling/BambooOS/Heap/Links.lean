import BambooOS.Heap.Chain
import BambooOS.Lib.Run
import Mathlib.Data.List.Induction

/-!
# Heap.Links

Runs of the allocator, and the back links of its list.

* `malloc_cases`, `realloc_cases`, `findHdr_inChain`: what a call that comes back has done.
* `Backs`: the `prev` fields of a list of segments.
* `doublyLinked_run`: the list stays doubly linked as long as no call splits a segment with a
  successor or merges two; `heap_split_segment` forgets the old successor's `prev`, and
  `heap_merge_forward` clears it.
-/

namespace BambooOS

open ByteMem Tiling

/-- The calls into the allocator. -/
inductive HeapOp where
  | malloc (size : Nat)
  | free (ptr : Nat)
  | realloc (ptr size : Nat)
  deriving DecidableEq, Repr

/-- The heap a call leaves behind, if it comes back. -/
def heapStep (h : Heap) : HeapOp → Except Fault Heap
  | .malloc size => do
    let (h, _) ← malloc h size
    return h
  | .free ptr => free h ptr
  | .realloc ptr size => do
    let (h, _) ← realloc h ptr size
    return h

/-- The calls of `ops` one after the other. -/
def heapRun (h : Heap) : List HeapOp → Except Fault Heap
  | [] => return h
  | op :: ops => do
    let h ← heapStep h op
    heapRun h ops

theorem heapRun_exec {h h' : Heap} {ops : List HeapOp} (e : heapRun h ops = .ok h') :
    Run.Exec (fun h op h' => heapStep h op = .ok h') h ops h' := by
  induction ops generalizing h with
  | nil =>
    cases e
    exact .nil
  | cons op ops ih =>
    obtain ⟨h₁, e₁, e⟩ := bind_ok e
    exact .cons e₁ (ih e)

/-- The headers met from the heap's base on by following `next`. -/
inductive InChain (h : Heap) : Nat → Prop
  | base : InChain h h.base
  | next {p n : Nat} : InChain h p → load h.mem (p + 8) 8 = n → n ≠ 0 → InChain h n

/-- The first header has no `prev`, and every `next` is undone by `prev`. -/
def DoublyLinked (h : Heap) : Prop :=
  load h.mem h.base 8 = 0 ∧
    ∀ p n, InChain h p → load h.mem (p + 8) 8 = n → n ≠ 0 → load h.mem n 8 = p

/-- The `prev` fields of the headers of `segs`, laid out from `p` on behind a header at `q`. -/
def Backs (m : Mem) : Nat → Nat → List Seg → Prop
  | _, _, [] => True
  | q, p, s :: segs => load m p 8 = q ∧ Backs m p (p + s.width) segs

instance decidableBacks (m : Mem) : ∀ q p segs, Decidable (Backs m q p segs)
  | _, _, [] => inferInstanceAs (Decidable True)
  | _, p, s :: segs =>
    have := decidableBacks m p (p + s.width) segs
    inferInstanceAs (Decidable (_ ∧ _))

/-- The header before the end of `segs`, laid out from `p` on behind a header at `q`. -/
def lastHdr : Nat → Nat → List Seg → Nat
  | q, _, [] => q
  | _, p, s :: segs => lastHdr p (p + s.width) segs

section Backs

variable {m m' : Mem} {q p : Nat}

theorem backs_append {a b : List Seg} : Backs m q p (a ++ b) ↔
    Backs m q p a ∧ Backs m (lastHdr q p a) (p + span Seg.width a) b := by
  induction a generalizing q p with
  | nil => simp [Backs, lastHdr]
  | cons s a ih =>
    rw [List.cons_append, Backs, ih, Backs, lastHdr, span_cons, Nat.add_assoc, and_assoc]

theorem Backs.congr {a : List Seg} (h : Backs m q p a)
    (hm : ∀ t s, Tile Seg.width p a t s → load m' t 8 = load m t 8) : Backs m' q p a := by
  induction a generalizing q p with
  | nil => trivial
  | cons s a ih =>
    refine ⟨?_, ih h.2 fun t u ht => hm t u (tile_cons.mpr (.inr ht))⟩
    rw [hm p s (tile_cons.mpr (.inl ⟨rfl, rfl⟩))]
    exact h.1

theorem lastHdr_lt {a : List Seg} (hq : q < p) : lastHdr q p a < p + span Seg.width a := by
  induction a generalizing q p with
  | nil => simpa [lastHdr] using hq
  | cons s a ih =>
    have hw : s.width = 21 + s.size := rfl
    have hrest := ih (q := p) (p := p + s.width) (by omega)
    simp only [lastHdr, span_cons]
    omega

theorem Backs.same {a b : List Seg} {s s' : Seg} (h : Backs m q p (a ++ s :: b))
    (hw : b ≠ [] → s'.width = s.width)
    (hm : ∀ x, (x < p + span Seg.width a + 8 ∨ p + span Seg.width a + s.width ≤ x) →
      x < p + span Seg.width (a ++ s :: b) → m' x = m x) : Backs m' q p (a ++ s' :: b) := by
  obtain ⟨ha, hs, hb⟩ := backs_append.mp h
  have hws : s.width = 21 + s.size := rfl
  simp only [span_append, span_cons] at hm
  have hpre : ∀ t u, Tile Seg.width p a t u → load m' t 8 = load m t 8 := by
    intro t u ht
    have hbound := ht.bounds
    have hwu : u.width = 21 + u.size := rfl
    exact load_congr fun x hx hx' => hm x (.inl (by omega)) (by omega)
  refine backs_append.mpr ⟨ha.congr hpre, ?_, ?_⟩
  · rw [← hs]
    exact load_congr fun x hx hx' => hm x (.inl hx') (by omega)
  · cases b with
    | nil => trivial
    | cons t b =>
      rw [hw (List.cons_ne_nil t b)]
      refine hb.congr fun t' u ht => ?_
      have hbound := ht.bounds
      have hwu : u.width = 21 + u.size := rfl
      exact load_congr fun x hx hx' => hm x (.inr (by omega)) (by omega)

theorem Backs.grow {a : List Seg} {s s' r : Seg} (h : Backs m q p (a ++ [s]))
    (hm : ∀ x, x < p + span Seg.width a + 8 → m' x = m x)
    (hr : load m' (p + span Seg.width a + s'.width) 8 = p + span Seg.width a) :
    Backs m' q p (a ++ [s', r]) := by
  obtain ⟨ha, hs, _⟩ := backs_append.mp h
  refine backs_append.mpr ⟨ha.congr fun t u ht => ?_, ?_, hr, trivial⟩
  · have hbound := ht.bounds
    have hwu : u.width = 21 + u.size := rfl
    exact load_congr fun x hx hx' => hm x (by omega)
  · rw [← hs]
    exact load_congr fun x hx hx' => hm x hx'

end Backs

theorem tile_free_ne {base p q : Nat} {segs : List Seg} {s t : Seg} (hs : Tile Seg.width base segs p s)
    (ht : Tile Seg.width base segs q t) (hf : s.free = false) (hf' : t.free = true) : p ≠ q := by
  intro he
  have hws : s.width = 21 + s.size := rfl
  have hwt : t.width = 21 + t.size := rfl
  rcases hs.sep ht with ⟨_, rfl⟩ | hlt | hgt
  · rw [hf] at hf'
    cases hf'
  · omega
  · omega

namespace Chain

variable {h : Heap} {segs : List Seg} {p : Nat}

theorem inChain_iff (hc : Chain h segs) :
    InChain h p ↔ ∃ s, Tile Seg.width h.base segs p s := by
  constructor
  · intro hp
    induction hp with
    | base =>
      obtain ⟨s, l, rfl⟩ := List.exists_cons_of_ne_nil hc.nonempty
      exact ⟨s, tile_mid h.base [] l s⟩
    | next _ hn hn0 ih =>
      obtain ⟨s, a, b, rfl, rfl⟩ := ih
      rw [hc.hdrAt.next] at hn
      cases b with
      | nil => exact absurd hn.symm (by simpa using hn0)
      | cons t b =>
        rw [if_neg (List.cons_ne_nil t b)] at hn
        refine ⟨t, a ++ [s], b, by simp, ?_⟩
        rw [← hn]
        simp [Nat.add_assoc]
  · rintro ⟨s, a, b, rfl, rfl⟩
    induction a using List.reverseRecOn generalizing s b with
    | nil => exact .base
    | append_singleton a t ih =>
      rw [List.append_assoc, List.singleton_append] at hc
      have hprev := ih t (s :: b) hc
      have hnext := hc.hdrAt.next
      rw [if_neg (List.cons_ne_nil s b)] at hnext
      have hw : t.width = 21 + t.size := rfl
      have hp := hprev.next hnext (by omega)
      simpa [Nat.add_assoc] using hp

theorem doublyLinked (hc : Chain h segs) (hb : Backs h.mem 0 h.base segs) : DoublyLinked h := by
  constructor
  · obtain ⟨s, l, rfl⟩ := List.exists_cons_of_ne_nil hc.nonempty
    exact hb.1
  · intro p n hp hn hn0
    obtain ⟨s, a, b, rfl, rfl⟩ := hc.inChain_iff.mp hp
    rw [hc.hdrAt.next] at hn
    cases b with
    | nil => exact absurd hn.symm (by simpa using hn0)
    | cons t b =>
      rw [if_neg (List.cons_ne_nil t b)] at hn
      rw [← hn]
      exact (backs_append.mp hb).2.2.1

end Chain

section Pages

variable {h h' : Heap} {p size : Nat}

/-- The same pages under both heaps. -/
structure SamePages (h h' : Heap) : Prop where
  base : h'.base = h.base
  size : h'.size = h.size

theorem SamePages.trans {h'' : Heap} (h₁ : SamePages h h') (h₂ : SamePages h' h'') :
    SamePages h h'' := ⟨h₂.base.trans h₁.base, h₂.size.trans h₁.size⟩

theorem write_pages {n v : Nat} (e : h.write p n v = .ok h') : SamePages h h' := by
  unfold Heap.write at e
  split at e
  · cases e
    exact ⟨rfl, rfl⟩
  · cases e

theorem heapSplitSegment_pages (e : heapSplitSegment h p size = .ok h') : SamePages h h' := by
  unfold heapSplitSegment at e
  obtain ⟨c, _, e⟩ := bind_ok e
  split at e
  · cases e
    exact ⟨rfl, rfl⟩
  · obtain ⟨h₁, e₁, e⟩ := bind_ok e
    obtain ⟨h₂, e₂, e⟩ := bind_ok e
    obtain ⟨z, _, e⟩ := bind_ok e
    obtain ⟨h₃, e₃, e⟩ := bind_ok e
    obtain ⟨h₄, e₄, e⟩ := bind_ok e
    obtain ⟨c', _, e⟩ := bind_ok e
    obtain ⟨h₅, e₅, e⟩ := bind_ok e
    have h₁₃ := (write_pages e₁).trans ((write_pages e₂).trans (write_pages e₃))
    exact h₁₃.trans ((write_pages e₄).trans ((write_pages e₅).trans (write_pages e)))

theorem allocFrom_pages {q : Nat} (e : allocFrom h p size = .ok (some (h', q))) :
    SamePages h h' := by
  unfold allocFrom at e
  obtain ⟨c, _, e⟩ := bind_ok e
  split at e
  · obtain ⟨h₁, e₁, e⟩ := bind_ok e
    cases e
    exact write_pages e₁
  · split at e
    · obtain ⟨h₁, e₁, e⟩ := bind_ok e
      obtain ⟨h₂, e₂, e⟩ := bind_ok e
      cases e
      exact (heapSplitSegment_pages e₁).trans (write_pages e₂)
    · cases e

/-- The heap grows where nothing fits, whether or not the extended segment is taken then. -/
theorem malloc_pages {segs : List Seg} (hc : Chain h segs) (e : malloc h size = .ok (h', p)) :
    h'.base = h.base ∧
      h'.size = h.size + if ∀ s ∈ segs, ¬ s.Fits size then size / 0x1000 + 1 else 0 := by
  rcases first_or_none (fun s : Seg => s.Fits size) segs with ⟨a, s, b, rfl, ha, hs⟩ | hno
  · obtain ⟨h₁, e₁, _, ht, _⟩ := malloc_found hc ha hs
    rw [e] at e₁
    cases e₁
    rw [if_neg fun hno => hno s (by simp) hs]
    exact ⟨ht.base, ht.size⟩
  · obtain ⟨a, s, rfl⟩ := hc.exists_last
    obtain ⟨h₁, e₁, hb₁, hs₁, _⟩ := heapExtend_spec hc.hdrAt hc.mapped_hdr (size / 0x1000 + 1)
    have hsearch := mallocSearch_none hc.headers hc.mapped hno (by
      have := hc.length_lt
      simp at this
      exact Nat.lt_of_succ_lt this)
    unfold malloc at e
    simp only [hsearch, ok_bind, e₁] at e
    obtain ⟨r, er, e⟩ := bind_ok e
    rw [if_pos hno, ← hb₁, ← hs₁]
    cases r with
    | none =>
      cases e
      exact ⟨rfl, rfl⟩
    | some r =>
      cases e
      exact ⟨(allocFrom_pages er).base, (allocFrom_pages er).size⟩

end Pages

section Cases

variable {h h' : Heap} {segs : List Seg} {p size : Nat}

/-- What `malloc` did: the first segment `s` that fits was cut, or the last one was extended. -/
theorem malloc_cases (hc : Chain h segs) (e : malloc h size = .ok (h', p))
    (hl : h'.limit < 2 ^ 64) :
    (∃ a s b, segs = a ++ s :: b ∧ (∀ t ∈ a, ¬ t.Fits size) ∧ s.Fits size ∧
      p = h.base + span Seg.width a + 21 ∧ Chain h' (a ++ (s.cut size ++ b)) ∧
      Touched h h' (h.base + span Seg.width a + 8) (h.base + span Seg.width a + s.width) ∧
      (size + 21 < s.size → load h'.mem (h.base + span Seg.width a + 21 + size) 8 =
        h.base + span Seg.width a)) ∨
    ∃ a s n, segs = a ++ [s] ∧ (∀ t ∈ segs, ¬ t.Fits size) ∧ n = size / 0x1000 + 1 ∧
      h'.base = h.base ∧ h'.size = h.size + n ∧
      (∀ x, x < h.limit → (x < h.base + span Seg.width a + 8 ∨
        h.base + span Seg.width a + (s.extended n).width ≤ x) → h'.mem x = h.mem x) ∧
      if size ≤ (s.extended n).size then
        p = h.base + span Seg.width a + 21 ∧ Chain h' (a ++ (s.extended n).cut size) ∧
          (size + 21 < (s.extended n).size →
            load h'.mem (h.base + span Seg.width a + 21 + size) 8 = h.base + span Seg.width a)
      else p = 0 ∧ Chain h' (a ++ [s.extended n]) := by
  rcases first_or_none (fun s : Seg => s.Fits size) segs with ⟨a, s, b, rfl, ha, hs⟩ | hno
  · obtain ⟨h₁, e₁, hc₁, ht, hback⟩ := malloc_found hc ha hs
    rw [e] at e₁
    cases e₁
    exact .inl ⟨a, s, b, rfl, ha, hs, rfl, hc₁, ht, hback⟩
  · obtain ⟨a, s, rfl⟩ := hc.exists_last
    have hlim : h.limit + (size / 0x1000 + 1) * 0x1000 < 2 ^ 64 := by
      obtain ⟨hb, hs⟩ := malloc_pages hc e
      rw [if_pos hno] at hs
      simp only [Heap.limit, hb, hs] at hl ⊢
      omega
    obtain ⟨h₁, p₁, e₁, hrest⟩ := malloc_extend hc hno rfl hlim
    rw [e] at e₁
    cases e₁
    exact .inr ⟨a, s, _, rfl, hno, rfl, hrest⟩

theorem Heap.copy_ok {dest src n : Nat} (e : h.copy dest src n = .ok h') :
    Touched h h' dest (dest + n) ∧ (n = 0 ∨ h.Mapped dest n) := by
  unfold Heap.copy at e
  split at e
  · next hm =>
    cases e
    exact ⟨⟨rfl, rfl, fun x hx => memcpy_other hx⟩, hm.imp_right And.left⟩
  · cases e

/-- What `realloc` did: a `malloc`, and a copy into the new block at most. -/
theorem realloc_cases {ptr : Nat} (e : realloc h ptr size = .ok (h', p)) :
    ∃ h₁, malloc h size = .ok (h₁, p) ∧
      (h' = h₁ ∨ ∃ n ≤ size, Touched h₁ h' p (p + n) ∧ (n = 0 ∨ h₁.Mapped p n)) := by
  unfold realloc at e
  obtain ⟨valid, _, e⟩ := bind_ok e
  cases valid with
  | false => exact ⟨h', e, .inl rfl⟩
  | true =>
    obtain ⟨⟨h₁, p₁⟩, e₁, e⟩ := bind_ok e
    obtain ⟨old, _, e⟩ := bind_ok e
    obtain ⟨h₂, e₂, e⟩ := bind_ok e
    cases e
    obtain ⟨ht, hm⟩ := Heap.copy_ok e₂
    refine ⟨h₁, e₁, .inr ⟨_, ?_, ht, hm⟩⟩
    split <;> omega

theorem next_inv {n : Nat} (e : h.next p = .ok n) : load h.mem (p + 8) 8 = n := by
  unfold Heap.next Heap.read at e
  split at e
  · injection e
  · cases e

/-- A pointer is valid only if it is behind a header of the list. -/
theorem findHdr_inChain {target fuel : Nat} (hp : InChain h p)
    (e : findHdr h target fuel p = .ok true) : InChain h target := by
  induction fuel generalizing p with
  | zero =>
    rw [findHdr] at e
    cases e
  | succ fuel ih =>
    rw [findHdr] at e
    split at e
    · next he =>
      rw [he]
      exact hp
    · obtain ⟨n, en, e⟩ := bind_ok e
      split at e
      · cases e
      · next hn =>
        split at e
        · exact ih (hp.next (next_inv en) hn) e
        · cases e

end Cases

/-- `malloc(size)` takes the header at `p` when it meets it. -/
def FitsAt (h : Heap) (size p : Nat) : Prop :=
  load h.mem (p + 20) 1 ≠ 0 ∧ size ≤ load h.mem (p + 16) 4

instance (h : Heap) (size p : Nat) : Decidable (FitsAt h size p) :=
  inferInstanceAs (Decidable (_ ∧ _))

/-- The headers `malloc(size)` looks at. -/
inductive Visited (h : Heap) (size : Nat) : Nat → Prop
  | base : Visited h size h.base
  | next {p n : Nat} : Visited h size p → ¬ FitsAt h size p → load h.mem (p + 8) 8 = n → n ≠ 0 →
      Visited h size n

/-- The segment `malloc(size)` takes is the last one, or has no room for a second header. -/
def SplitsLast (h : Heap) (size : Nat) : Prop :=
  ∀ p, Visited h size p → FitsAt h size p →
    load h.mem (p + 8) 8 = 0 ∨ load h.mem (p + 16) 4 ≤ size + 21

/-- Neither neighbour that `free(ptr)` looks at is free. -/
def MergesNothing (h : Heap) (ptr : Nat) : Prop :=
  InChain h (hdrAddr ptr) →
    (load h.mem (hdrAddr ptr) 8 = 0 ∨ load h.mem (load h.mem (hdrAddr ptr) 8 + 20) 1 = 0) ∧
      load h.mem (load h.mem (hdrAddr ptr + 8) 8 + 20) 1 = 0

/-- The call neither splits a segment that has a successor nor merges two segments. -/
def KeepsLinks (h : Heap) : HeapOp → Prop
  | .malloc size => SplitsLast h size
  | .free ptr => MergesNothing h ptr
  | .realloc _ size => SplitsLast h size

section Kept

variable {h h' : Heap} {segs a b : List Seg} {s : Seg} {p q size : Nat}

theorem At.fitsAt {z : Nat} (ha : At h.mem p s z) : FitsAt h size p ↔ s.Fits size := by
  unfold FitsAt Seg.Fits
  rw [ha.size, ← ha.free, decide_eq_true_iff]

theorem nothingFits_iff (hc : Chain h segs) :
    (∀ p, InChain h p → ¬ FitsAt h size p) ↔ ∀ s ∈ segs, ¬ s.Fits size := by
  constructor
  · intro hno s hs
    obtain ⟨a, b, rfl⟩ := List.append_of_mem hs
    rw [← hc.hdrAt.fitsAt]
    exact hno _ (hc.inChain_iff.mpr ⟨s, tile_mid h.base a b s⟩)
  · intro hno p hp
    obtain ⟨s, a, b, rfl, rfl⟩ := hc.inChain_iff.mp hp
    rw [hc.hdrAt.fitsAt]
    exact hno s (by simp)

theorem Chain.visited (hc : Chain h (a ++ s :: b)) (ha : ∀ t ∈ a, ¬ t.Fits size) :
    Visited h size (h.base + span Seg.width a) := by
  induction a using List.reverseRecOn generalizing s b with
  | nil => exact .base
  | append_singleton a t ih =>
    rw [List.append_assoc, List.singleton_append] at hc
    have hprev := ih hc fun u hu => ha u (by simp [hu])
    have hno : ¬ FitsAt h size (h.base + span Seg.width a) := by
      rw [hc.hdrAt.fitsAt]
      exact ha t (by simp)
    have hnext := hc.hdrAt.next
    rw [if_neg (List.cons_ne_nil s b)] at hnext
    have hw : t.width = 21 + t.size := rfl
    have hp := hprev.next hno hnext (by omega)
    simpa [Nat.add_assoc] using hp

theorem Chain.payload (hc : Chain h (a ++ s :: b))
    (ht : Touched h h' (h.base + span Seg.width a + 21) (h.base + span Seg.width a + s.width)) :
    Chain h' (a ++ s :: b) := by
  have hc' := hc.replace (c := [s]) (by simp) (ht.mono (by omega) (Nat.le_refl _)) ?_ (by simp)
  · simpa using hc'
  · have hat := hc.hdrAt
    exact ⟨hat.congr fun x _ hx => ht.other x (.inl hx), trivial⟩

theorem Touched.eq_of_empty (ht : Touched h h' p p) : h' = h := by
  have hmem : h'.mem = h.mem := funext fun x => ht.other x (by omega)
  cases h
  cases h'
  cases ht.base
  cases ht.size
  cases hmem
  rfl

/-- A `malloc` that splits no segment with a successor keeps the back links, and its block lies in a
segment of the new list. -/
theorem malloc_backs (hc : Chain h segs) (hb : Backs h.mem 0 h.base segs)
    (hsplit : SplitsLast h size) (e : malloc h size = .ok (h', p)) (hl : h'.limit < 2 ^ 64) :
    h'.base = h.base ∧ ∃ segs', Chain h' segs' ∧ Backs h'.mem 0 h'.base segs' ∧
      (p = 0 ∨ ∃ a s b, segs' = a ++ s :: b ∧ p = h'.base + span Seg.width a + 21 ∧
        size ≤ s.size) := by
  rcases malloc_cases hc e hl with
    ⟨a, s, b, rfl, ha, hs, hp, hc', ht, hback⟩ | ⟨a, s, n, rfl, _, _, hbase, _, ho, hrest⟩
  · have hlast : b = [] ∨ s.size ≤ size + 21 := by
      have hsp := hsplit _ (hc.visited ha) (hc.hdrAt.fitsAt.mpr hs)
      rw [hc.hdrAt.next, hc.hdrAt.size] at hsp
      refine hsp.imp_left fun hn => ?_
      by_contra hb0
      rw [if_neg hb0] at hn
      have hw : s.width = 21 + s.size := rfl
      omega
    refine ⟨ht.base, _, hc', ?_, ?_⟩
    · rw [ht.base]
      by_cases hfull : s.size ≤ size + 21
      · rw [Seg.cut, if_pos hfull]
        exact hb.same (fun _ => rfl) fun x hx _ => ht.other x hx
      · obtain rfl := hlast.resolve_right hfull
        rw [Seg.cut, if_neg hfull]
        refine hb.grow (fun x hx => ht.other x (.inl hx)) ?_
        show load h'.mem (_ + (21 + size)) 8 = _
        rw [← Nat.add_assoc]
        exact hback (by omega)
    · obtain ⟨s', mid, hcut, _, hsize, _⟩ := s.cut_eq size
      rw [hcut]
      exact .inr ⟨a, s', mid ++ b, rfl, by rw [ht.base]; exact hp, hsize hs.2⟩
  · have hin := hc.inside
    have hsame : ∀ x, (x < h.base + span Seg.width a + 8 ∨
        h.base + span Seg.width a + s.width ≤ x) →
        x < h.base + span Seg.width (a ++ [s]) → h'.mem x = h.mem x := by
      intro x hx hx'
      simp only [span_append, span_cons, span_nil] at hin hx'
      exact ho x (by omega) (by omega)
    refine ⟨hbase, ?_⟩
    rw [hbase]
    split at hrest
    · next hfit =>
      obtain ⟨hp, hc', hback⟩ := hrest
      refine ⟨_, hc', ?_, ?_⟩
      · by_cases hfull : (s.extended n).size ≤ size + 21
        · rw [Seg.cut, if_pos hfull]
          exact hb.same (fun hne => absurd rfl hne) hsame
        · rw [Seg.cut, if_neg hfull]
          refine hb.grow (fun x hx => hsame x (.inl hx) ?_) ?_
          · simp only [span_append, span_cons, span_nil, Seg.width]
            omega
          · show load h'.mem (_ + (21 + size)) 8 = _
            rw [← Nat.add_assoc]
            exact hback (by omega)
      · obtain ⟨s', mid, hcut, _, hsize, _⟩ := (s.extended n).cut_eq size
        rw [hcut]
        exact .inr ⟨a, s', mid, rfl, hp, hsize hfit⟩
    · obtain ⟨hp, hc'⟩ := hrest
      exact ⟨_, hc', hb.same (fun hne => absurd rfl hne) hsame, .inl hp⟩

theorem isFree_inv {f : Bool} (e : h.isFree p = .ok f) :
    f = decide (load h.mem (p + 20) 1 ≠ 0) := by
  unfold Heap.isFree Heap.read at e
  split at e
  · cases e
    rfl
  · cases e

theorem mergeBackward_none {r : Heap × Nat} (hm : h.Mapped p 21)
    (hno : load h.mem p 8 = 0 ∨ load h.mem (load h.mem p 8 + 20) 1 = 0)
    (e : mergeBackward h p = .ok r) : r = (h, p) := by
  unfold mergeBackward at e
  rw [Heap.prev_ok hm, ok_bind] at e
  split at e
  · cases e
    rfl
  · next hp =>
    obtain ⟨f, ef, e⟩ := bind_ok e
    have hf : f = false := by
      rw [isFree_inv ef, hno.resolve_left hp]
      rfl
    rw [hf] at e
    cases e
    rfl

/-- A `free` that merges nothing sets one flag at most. -/
theorem free_backs (hc : Chain h segs) (hb : Backs h.mem 0 h.base segs) (hbase : 0 < h.base)
    (hno : MergesNothing h p) (e : free h p = .ok h') :
    h'.base = h.base ∧ ∃ segs', Chain h' segs' ∧ Backs h'.mem 0 h'.base segs' := by
  unfold free at e
  obtain ⟨valid, ev, e⟩ := bind_ok e
  cases valid with
  | false =>
    rw [Bool.not_false, if_pos rfl] at e
    cases e
    exact ⟨rfl, segs, hc, hb⟩
  | true =>
    have hin := findHdr_inChain .base ev
    obtain ⟨hprev, hnext⟩ := hno hin
    obtain ⟨s, a, b, rfl, hq⟩ := hc.inChain_iff.mp hin
    rw [hq] at e hprev hnext
    have hm := hc.mapped_hdr
    have hw : s.width = 21 + s.size := rfl
    -- the back link points below the header, the forward link behind it or nowhere
    have hlow : load h.mem (h.base + span Seg.width a) 8 < h.base + span Seg.width a := by
      rw [(backs_append.mp hb).2.1]
      exact lastHdr_lt hbase
    obtain ⟨h₁, e₁, t₁, ha₁⟩ := hc.hdrAt.setFree hm true
    have hc₁ : Chain h₁ (a ++ ([⟨s.size, true⟩] ++ b)) :=
      hc.replace (by simp) (t₁.mono (by omega) (by omega)) ⟨ha₁, trivial⟩ rfl
    have hb₁ : Backs h₁.mem 0 h₁.base (a ++ ([⟨s.size, true⟩] ++ b)) := by
      rw [t₁.base]
      exact hb.same (fun _ => rfl) fun x hx _ => t₁.other x (by omega)
    have hm₁ := t₁.mapped.mpr hm
    simp only [Bool.not_true, Bool.false_eq_true, if_false, e₁, ok_bind] at e
    obtain ⟨r, er, e⟩ := bind_ok e
    have hp₁ : load h₁.mem (h.base + span Seg.width a) 8 = load h.mem (h.base + span Seg.width a) 8 :=
      t₁.load (by omega)
    have hr := mergeBackward_none hm₁ (by rw [hp₁, t₁.load (by omega)]; exact hprev) er
    rw [hr] at e
    obtain ⟨n, en, e⟩ := bind_ok e
    obtain ⟨f, ef, e⟩ := bind_ok e
    have hn : n = load h.mem (h.base + span Seg.width a + 8) 8 := by
      rw [← next_inv en, t₁.load (by omega)]
    have hnfar : n = 0 ∨ h.base + span Seg.width a + 21 ≤ n := by
      rw [hn, hc.hdrAt.next]
      split
      · exact .inl rfl
      · exact .inr (by omega)
    have hf : f = false := by
      rw [isFree_inv ef, t₁.load (by omega), hn, hnext]
      rfl
    rw [hf] at e
    cases e
    exact ⟨t₁.base, _, hc₁, hb₁⟩

end Kept

/-- A call that keeps the links, comes back, and leaves the heap inside the address space. -/
def linkStep (h : Heap) (op : HeapOp) (h' : Heap) : Prop :=
  KeepsLinks h op ∧ heapStep h op = .ok h' ∧ h'.limit < 2 ^ 64

theorem linkStep_backs {h h' : Heap} {op : HeapOp} (hs : linkStep h op h')
    (hi : 0 < h.base ∧ ∃ segs, Chain h segs ∧ Backs h.mem 0 h.base segs) :
    0 < h'.base ∧ ∃ segs, Chain h' segs ∧ Backs h'.mem 0 h'.base segs := by
  obtain ⟨hk, e, hl⟩ := hs
  obtain ⟨hbase, segs, hc, hb⟩ := hi
  cases op with
  | malloc size =>
    obtain ⟨⟨h₁, p⟩, e₁, e⟩ := bind_ok e
    cases e
    obtain ⟨hb', segs', hc', hbk, _⟩ := malloc_backs hc hb hk e₁ hl
    exact ⟨by omega, segs', hc', hbk⟩
  | free ptr =>
    obtain ⟨hb', hrest⟩ := free_backs hc hb hbase hk e
    exact ⟨by omega, hrest⟩
  | realloc ptr size =>
    obtain ⟨⟨h₂, p⟩, e₂, e⟩ := bind_ok e
    cases e
    obtain ⟨h₁, e₁, hcopy⟩ := realloc_cases e₂
    have hl₁ : h₁.limit < 2 ^ 64 := by
      rcases hcopy with rfl | ⟨n, _, ht, _⟩
      · exact hl
      · rw [← ht.limit]
        exact hl
    obtain ⟨hb', segs', hc', hbk, hblock⟩ := malloc_backs hc hb hk e₁ hl₁
    rcases hcopy with rfl | ⟨n, hn, ht, hm⟩
    · exact ⟨by omega, segs', hc', hbk⟩
    · refine ⟨by rw [ht.base]; omega, segs', ?_⟩
      rcases hblock with rfl | ⟨a, s, b, rfl, rfl, hsize⟩
      · -- no block: nothing was copied to NULL
        have hn0 : n = 0 := hm.resolve_right fun hm => by
          have := hm.1
          omega
        rw [hn0] at ht
        rw [ht.eq_of_empty]
        exact ⟨hc', hbk⟩
      · have hw : s.width = 21 + s.size := rfl
        have ht' := ht.mono (Nat.le_refl _)
          (d := h₁.base + span Seg.width a + s.width) (by omega)
        refine ⟨hc'.payload ht', ?_⟩
        rw [ht.base]
        exact hbk.same (fun _ => rfl) fun x hx _ => ht'.other x (by omega)

/-- From `heap_init` on, calls that split no segment with a successor and merge none keep the list
doubly linked. -/
theorem doublyLinked_run {m : Mem} {base : Nat} (hb : 0 < base ∧ base + 0x1000 < 2 ^ 64)
    {h h' : Heap} {ops : List HeapOp} (hinit : heapInit m base = .ok h)
    (hrun : Run.Exec linkStep h ops h') : DoublyLinked h' := by
  obtain ⟨h₀, e₀, hbase, _, hc, hprev⟩ := heapInit_spec m hb.2
  rw [hinit] at e₀
  cases e₀
  have hinv := hrun.inv
    (I := fun h => 0 < h.base ∧ ∃ segs, Chain h segs ∧ Backs h.mem 0 h.base segs)
    (fun _ _ _ hi hs => linkStep_backs hs hi)
    ⟨by omega, _, hc, by rw [hbase]; exact hprev, trivial⟩
  obtain ⟨_, segs, hc', hb'⟩ := hinv
  exact hc'.doublyLinked hb'

theorem Visited.inChain {h : Heap} {size p : Nat} (hv : Visited h size p) : InChain h p := by
  induction hv with
  | base => exact .base
  | next _ _ hn hn0 ih => exact ih.next hn hn0

/-- The first call on a fresh heap. -/
theorem doublyLinked_first : ∃ h h', heapInit (fun _ => 7) 0x10000 = .ok h ∧
    heapStep h (.malloc 100) = .ok h' ∧ DoublyLinked h' := by
  obtain ⟨h, e, _, _, hc, _⟩ := heapInit_spec (fun _ => 7) (show 0x10000 + 0x1000 < 2 ^ 64 by decide)
  have hfits : (⟨0x1000 - 21, true⟩ : Seg).Fits 100 := by decide
  obtain ⟨h', e', hc', _⟩ := malloc_found (a := []) (b := []) hc (by simp) hfits
  have hstep : heapStep h (.malloc 100) = .ok h' := by
    show (malloc h 100 >>= _) = _
    rw [e']
    rfl
  refine ⟨h, h', e, hstep, doublyLinked_run (by decide) e (.cons ⟨?_, hstep, hc'.space⟩ .nil)⟩
  intro p hv _
  obtain ⟨s, a, b, hsegs, rfl⟩ := hc.inChain_iff.mp hv.inChain
  have hb : b = [] := by
    cases a with
    | nil =>
      cases hsegs
      rfl
    | cons t a => simp at hsegs
  rw [hsegs] at hc
  rw [hc.hdrAt.next, if_pos hb]
  exact .inl rfl

/-- A block freed in front of one in use and split again: the block behind it still points back to
the first part. -/
theorem split_not_linked : ∃ h h', heapInit (fun _ => 7) 0x10000 = .ok h ∧
    Run.Exec (fun h op h' => heapStep h op = .ok h') h
      [.malloc 100, .malloc 50, .free 0x10015, .malloc 30] h' ∧ ¬ DoublyLinked h' := by
  have hrun : returns (do
      let h ← heapInit (fun _ => 7) 0x10000
      heapRun h [.malloc 100, .malloc 50, .free 0x10015, .malloc 30]) (fun h =>
        h.base == 0x10000 && load h.mem (0x10000 + 8) 8 == 0x10033 &&
          load h.mem (0x10033 + 8) 8 == 0x10079 && load h.mem 0x10079 8 == 0x10000) = true := by
    decide +kernel
  obtain ⟨h', e, htest⟩ := returns_iff.mp hrun
  obtain ⟨h, e₀, e⟩ := bind_ok e
  simp only [Bool.and_eq_true, beq_iff_eq] at htest
  obtain ⟨⟨⟨hbase, hnext⟩, hnext'⟩, hprev⟩ := htest
  refine ⟨h, h', e₀, heapRun_exec e, fun hl => ?_⟩
  have hin : InChain h' 0x10033 := (hbase ▸ InChain.base (h := h')).next hnext (by decide)
  have hback := hl.2 0x10033 0x10079 hin hnext' (by decide)
  rw [hprev] at hback
  exact absurd hback (by decide)

end BambooOS
