import BambooOS.Heap.Model
import BambooOS.Lib.Tiling

/-!
# Heap.Header

The segments as a list, and what each helper of the allocator does to it.

* `Headers`: the headers of a list of segments, one behind the other in memory.
* `Touched`: an operation that changes the bytes of one range only.
* `heapSplitSegment_room`, `heapExtend_spec`, `allocFrom_fits`, `heapMergeForward_spec`: what each
  helper leaves behind.
-/

namespace BambooOS

open ByteMem Tiling

/-- A segment: the `size` and `free` of its header. -/
structure Seg where
  size : Nat
  free : Bool
  deriving DecidableEq, Repr

/-- The bytes a segment takes, header included. -/
def Seg.width (s : Seg) : Nat := 21 + s.size

/-- The header at `p` is that of `s`, and its `next` is `n`. -/
structure At (m : Mem) (p : Nat) (s : Seg) (n : Nat) : Prop where
  next : load m (p + 8) 8 = n
  size : load m (p + 16) 4 = s.size
  free : decide (load m (p + 20) 1 ≠ 0) = s.free

/-- The headers of `segs` follow one another from `p` on; the `next` of the last one is `z`. -/
def Headers (m : Mem) : Nat → List Seg → Nat → Prop
  | _, [], _ => True
  | p, s :: segs, z =>
    At m p s (if segs = [] then z else p + s.width) ∧ Headers m (p + s.width) segs z

instance (m : Mem) (p : Nat) (s : Seg) (n : Nat) : Decidable (At m p s n) :=
  decidable_of_iff (load m (p + 8) 8 = n ∧ load m (p + 16) 4 = s.size ∧
    decide (load m (p + 20) 1 ≠ 0) = s.free)
    ⟨fun h => ⟨h.1, h.2.1, h.2.2⟩, fun h => ⟨h.next, h.size, h.free⟩⟩

instance decidableHeaders (m : Mem) : ∀ p segs z, Decidable (Headers m p segs z)
  | _, [], _ => inferInstanceAs (Decidable True)
  | p, s :: segs, z =>
    have := decidableHeaders m (p + s.width) segs z
    inferInstanceAs (Decidable (_ ∧ _))

/-- `h'` differs from `h` in bytes of `[a, b)` at most. -/
structure Touched (h h' : Heap) (a b : Nat) : Prop where
  base : h'.base = h.base
  size : h'.size = h.size
  other : ∀ x, x < a ∨ b ≤ x → h'.mem x = h.mem x

theorem At.size_lt {m : Mem} {p : Nat} {s : Seg} {n : Nat} (h : At m p s n) : s.size < 2 ^ 32 := by
  have hlt := load_lt m (p + 16) 4
  rw [h.size] at hlt
  omega

theorem At.congr {m m' : Mem} {p : Nat} {s : Seg} {n : Nat} (h : At m p s n)
    (hm : ∀ x, p + 8 ≤ x → x < p + 21 → m' x = m x) : At m' p s n := by
  have hag : ∀ i k, 8 ≤ i → i + k ≤ 21 → load m' (p + i) k = load m (p + i) k := by
    intro i k hi hk
    exact load_congr fun x hx hx' => hm x (by omega) (by omega)
  refine ⟨?_, ?_, ?_⟩
  · rw [hag 8 8 (by omega) (by omega)]
    exact h.next
  · rw [hag 16 4 (by omega) (by omega)]
    exact h.size
  · rw [hag 20 1 (by omega) (by omega)]
    exact h.free

theorem Headers.congr {m m' : Mem} {p : Nat} {segs : List Seg} {z : Nat} (h : Headers m p segs z)
    (hm : ∀ x, p ≤ x → x < p + span Seg.width segs → m' x = m x) : Headers m' p segs z := by
  induction segs generalizing p with
  | nil => trivial
  | cons s segs ih =>
    have hw : s.width = 21 + s.size := rfl
    simp only [span_cons] at hm
    refine ⟨h.1.congr fun x hx hx' => hm x (by omega) (by omega), ih h.2 fun x hx hx' => ?_⟩
    exact hm x (by omega) (by omega)

theorem headers_append {m : Mem} {p : Nat} {a b : List Seg} {z : Nat} :
    Headers m p (a ++ b) z ↔ Headers m p a (if b = [] then z else p + span Seg.width a) ∧
      Headers m (p + span Seg.width a) b z := by
  induction a generalizing p with
  | nil => simp [Headers]
  | cons s a ih =>
    rw [List.cons_append, Headers, ih, Headers, span_cons, Nat.add_assoc, and_assoc]
    have hnext : (if a ++ b = [] then z else p + s.width) = if a = [] then
        (if b = [] then z else p + (s.width + span Seg.width a)) else p + s.width := by
      cases a with
      | nil => simp
      | cons t a => simp
    rw [hnext]

theorem Headers.at {m : Mem} {p : Nat} {a b : List Seg} {s : Seg} {z : Nat}
    (h : Headers m p (a ++ s :: b) z) :
    At m (p + span Seg.width a) s
      (if b = [] then z else p + span Seg.width a + s.width) := (headers_append.mp h).2.1

theorem Headers.replace {m m' : Mem} {p : Nat} {a b c : List Seg} {s : Seg} {z : Nat}
    (h : Headers m p (a ++ s :: b) z) (hne : c ≠ [])
    (hc : Headers m' (p + span Seg.width a) c
      (if b = [] then z else p + span Seg.width a + s.width))
    (hspan : b ≠ [] → span Seg.width c = s.width)
    (hleft : ∀ x, p ≤ x → x < p + span Seg.width a → m' x = m x)
    (hright : ∀ x, p + span Seg.width a + s.width ≤ x →
      x < p + span Seg.width (a ++ s :: b) → m' x = m x) :
    Headers m' p (a ++ (c ++ b)) z := by
  obtain ⟨ha, hs⟩ := headers_append.mp h
  rw [if_neg (List.cons_ne_nil s b)] at ha
  have hne' : c ++ b ≠ [] := by simp [hne]
  refine headers_append.mpr ⟨?_, headers_append.mpr ⟨?_, ?_⟩⟩
  · rw [if_neg hne']
    exact ha.congr hleft
  · by_cases hb : b = []
    · rw [if_pos hb] at hc ⊢
      exact hc
    · rw [if_neg hb] at hc ⊢
      rw [hspan hb]
      exact hc
  · by_cases hb : b = []
    · subst hb
      trivial
    · rw [hspan hb]
      refine hs.2.congr fun x hx hx' => hright x (by omega) ?_
      simp only [span_append, span_cons]
      omega

namespace Touched

variable {h h' h'' : Heap} {a b : Nat}

theorem refl (h : Heap) (a b : Nat) : Touched h h a b := ⟨rfl, rfl, fun _ _ => rfl⟩

theorem trans (h₁ : Touched h h' a b) (h₂ : Touched h' h'' a b) : Touched h h'' a b :=
  ⟨h₂.base.trans h₁.base, h₂.size.trans h₁.size,
    fun x hx => (h₂.other x hx).trans (h₁.other x hx)⟩

theorem mono {c d : Nat} (ht : Touched h h' a b) (hc : c ≤ a) (hd : b ≤ d) : Touched h h' c d :=
  ⟨ht.base, ht.size, fun x hx => ht.other x (by omega)⟩

theorem limit (ht : Touched h h' a b) : h'.limit = h.limit := by
  unfold Heap.limit
  rw [ht.base, ht.size]

theorem mapped (ht : Touched h h' a b) {p n : Nat} : h'.Mapped p n ↔ h.Mapped p n := by
  unfold Heap.Mapped
  rw [ht.base, ht.limit]

theorem load (ht : Touched h h' a b) {p n : Nat} (hd : p + n ≤ a ∨ b ≤ p) :
    load h'.mem p n = load h.mem p n :=
  load_congr fun x _ _ => ht.other x (by omega)

end Touched

section Access

variable {h : Heap} {p n v : Nat}

theorem Heap.read_ok (hm : h.Mapped p n) : h.read p n = .ok (load h.mem p n) := if_pos hm

theorem Heap.write_ok (hm : h.Mapped p n) :
    h.write p n v = .ok { h with mem := store h.mem p n v } := if_pos hm

theorem Heap.Mapped.sub (hm : h.Mapped p n) {q k : Nat} (h₁ : p ≤ q) (h₂ : q + k ≤ p + n) :
    h.Mapped q k := by
  have h₃ := hm.1
  have h₄ := hm.2
  exact ⟨by omega, by omega⟩

theorem Heap.prev_ok (hm : h.Mapped p 21) : h.prev p = .ok (load h.mem p 8) :=
  Heap.read_ok (hm.sub (by omega) (by omega))

theorem Heap.next_ok (hm : h.Mapped p 21) : h.next p = .ok (load h.mem (p + 8) 8) :=
  Heap.read_ok (hm.sub (by omega) (by omega))

theorem Heap.segSize_ok (hm : h.Mapped p 21) : h.segSize p = .ok (load h.mem (p + 16) 4) :=
  Heap.read_ok (hm.sub (by omega) (by omega))

theorem Heap.isFree_ok (hm : h.Mapped p 21) :
    h.isFree p = .ok (decide (load h.mem (p + 20) 1 ≠ 0)) := by
  unfold Heap.isFree
  rw [Heap.read_ok (hm.sub (by omega) (by omega))]
  rfl

theorem At.next_ok {s : Seg} {z : Nat} (ha : At h.mem p s z) (hm : h.Mapped p 21) :
    h.next p = .ok z := by rw [Heap.next_ok hm, ha.next]

theorem At.segSize_ok {s : Seg} {z : Nat} (ha : At h.mem p s z) (hm : h.Mapped p 21) :
    h.segSize p = .ok s.size := by rw [Heap.segSize_ok hm, ha.size]

theorem At.isFree_ok {s : Seg} {z : Nat} (ha : At h.mem p s z) (hm : h.Mapped p 21) :
    h.isFree p = .ok s.free := by rw [Heap.isFree_ok hm, ha.free]

theorem write_touched (hm : h.Mapped p n) (hv : v < 256 ^ n) :
    ∃ h', h.write p n v = .ok h' ∧ Touched h h' p (p + n) ∧ load h'.mem p n = v := by
  refine ⟨_, Heap.write_ok hm, ⟨rfl, rfl, fun x hx => ?_⟩, load_store_same hv⟩
  simp only [store]
  rw [if_neg (by omega)]

theorem setPrev_spec (hm : h.Mapped p 21) (hv : v < 2 ^ 64) :
    ∃ h', h.setPrev p v = .ok h' ∧ Touched h h' p (p + 8) ∧ load h'.mem p 8 = v :=
  write_touched (hm.sub (by omega) (by omega)) (by omega)

theorem setNext_spec (hm : h.Mapped p 21) (hv : v < 2 ^ 64) :
    ∃ h', h.setNext p v = .ok h' ∧ Touched h h' (p + 8) (p + 16) ∧ load h'.mem (p + 8) 8 = v :=
  write_touched (hm.sub (by omega) (by omega)) (by omega)

theorem setSize_spec (hm : h.Mapped p 21) :
    ∃ h', h.setSize p v = .ok h' ∧ Touched h h' (p + 16) (p + 20) ∧
      load h'.mem (p + 16) 4 = v % 2 ^ 32 :=
  write_touched (hm.sub (by omega) (by omega)) (by omega)

theorem setFree_spec (hm : h.Mapped p 21) (f : Bool) :
    ∃ h', h.setFree p f = .ok h' ∧ Touched h h' (p + 20) (p + 21) ∧
      decide (load h'.mem (p + 20) 1 ≠ 0) = f := by
  obtain ⟨h', he, ht, hl⟩ := write_touched (p := p + 20) (n := 1) (v := if f then 1 else 0)
    (hm.sub (by omega) (by omega)) (by cases f <;> simp)
  refine ⟨h', he, ht, ?_⟩
  rw [hl]
  cases f <;> simp

theorem At.setFree {s : Seg} {z : Nat} (ha : At h.mem p s z) (hm : h.Mapped p 21) (f : Bool) :
    ∃ h', h.setFree p f = .ok h' ∧ Touched h h' (p + 20) (p + 21) ∧ At h'.mem p ⟨s.size, f⟩ z := by
  obtain ⟨h', he, ht, hf⟩ := setFree_spec hm f
  refine ⟨h', he, ht, ?_, ?_, hf⟩
  · rw [ht.load (by omega)]
    exact ha.next
  · rw [ht.load (by omega)]
    exact ha.size

end Access

/-- What is left of a segment that `size` bytes were allocated from. -/
def Seg.cut (s : Seg) (size : Nat) : List Seg :=
  if s.size ≤ size + 21 then [⟨s.size, false⟩]
  else [⟨size, false⟩, ⟨s.size - (size + 21), true⟩]

theorem Seg.cut_ne_nil (s : Seg) (size : Nat) : s.cut size ≠ [] := by
  unfold Seg.cut
  split <;> simp

theorem Seg.span_cut (s : Seg) (size : Nat) : span Seg.width (s.cut size) = s.width := by
  unfold Seg.cut
  split
  · simp [Seg.width]
  · simp only [span_cons, span_nil, Seg.width]
    omega

section Helpers

variable {h : Heap} {p z size : Nat} {s : Seg}

theorem heapSplitSegment_full (ha : At h.mem p s z) (hm : h.Mapped p s.width)
    (hs : s.size ≤ size + 21) : heapSplitSegment h p size = .ok h := by
  have hw : s.width = 21 + s.size := rfl
  unfold heapSplitSegment
  rw [ha.segSize_ok (hm.sub (by omega) (by omega)), ok_bind, if_pos hs]
  rfl

/-- The split: the new header is behind the `size` bytes that stay. -/
theorem heapSplitSegment_room (ha : At h.mem p s z) (hm : h.Mapped p s.width)
    (hl : h.limit < 2 ^ 64) (hs : size + 21 < s.size) :
    ∃ h', heapSplitSegment h p size = .ok h' ∧ Touched h h' (p + 8) (p + s.width) ∧
      Headers h'.mem p [⟨size, s.free⟩, ⟨s.size - (size + 21), true⟩] z ∧
      load h'.mem (p + 21 + size) 8 = p := by
  have hw : s.width = 21 + s.size := rfl
  have hlt := ha.size_lt
  have hz : z < 2 ^ 64 := by
    rw [← ha.next]
    exact load_lt _ _ 8
  have hend : p + s.width ≤ h.limit := hm.2
  obtain ⟨new, hnew⟩ : ∃ new, new = p + 21 + size := ⟨_, rfl⟩
  have hmp : h.Mapped p 21 := hm.sub (by omega) (by omega)
  have hmn : h.Mapped new 21 := hm.sub (by omega) (by omega)
  obtain ⟨h₁, e₁, t₁, l₁⟩ := setPrev_spec (v := p) hmn (by omega)
  obtain ⟨h₂, e₂, t₂, l₂⟩ := setFree_spec (t₁.mapped.mpr hmn) true
  have hn₂ : h₂.next p = .ok z := by
    rw [Heap.next_ok (t₂.mapped.mpr (t₁.mapped.mpr hmp)), t₂.load (by omega), t₁.load (by omega),
      ha.next]
  have hm₂ := fun {q n} => (t₂.mapped (p := q) (n := n)).trans t₁.mapped
  obtain ⟨h₃, e₃, t₃, l₃⟩ := setNext_spec (v := z) (hm₂.mpr hmn) hz
  have hm₃ := fun {q n} => (t₃.mapped (p := q) (n := n)).trans hm₂
  obtain ⟨h₄, e₄, t₄, l₄⟩ := setNext_spec (v := new) (hm₃.mpr hmp) (by omega)
  have hm₄ := fun {q n} => (t₄.mapped (p := q) (n := n)).trans hm₃
  have hs₄ : h₄.segSize p = .ok s.size := by
    rw [Heap.segSize_ok (hm₄.mpr hmp), t₄.load (by omega), t₃.load (by omega), t₂.load (by omega),
      t₁.load (by omega), ha.size]
  obtain ⟨h₅, e₅, t₅, l₅⟩ := setSize_spec (v := s.size - (size + 21)) (hm₄.mpr hmn)
  have hm₅ := fun {q n} => (t₅.mapped (p := q) (n := n)).trans hm₄
  obtain ⟨h₆, e₆, t₆, l₆⟩ := setSize_spec (v := size) (hm₅.mpr hmp)
  have hmod : (p + 21 + size) % 2 ^ 64 = new := by
    rw [hnew]
    exact Nat.mod_eq_of_lt (by omega)
  have hzz : (if z = 0 then 0 else z) = z := by
    split
    · next hz0 => exact hz0.symm
    · rfl
  refine ⟨h₆, ?_, ?_, ?_, ?_⟩
  · unfold heapSplitSegment
    simp only [hmod]
    rw [ha.segSize_ok hmp, ok_bind, if_neg (by omega)]
    simp only [e₁, e₂, hn₂, ok_bind, hzz, e₃, e₄, hs₄, e₅, e₆]
  · have hwide := fun {k k' : Heap} {a b : Nat} (t : Touched k k' a b) h₁ h₂ =>
      t.mono (c := p + 8) (d := p + s.width) h₁ h₂
    exact (hwide t₁ (by omega) (by omega)).trans <| (hwide t₂ (by omega) (by omega)).trans <|
      (hwide t₃ (by omega) (by omega)).trans <| (hwide t₄ (by omega) (by omega)).trans <|
      (hwide t₅ (by omega) (by omega)).trans (hwide t₆ (by omega) (by omega))
  · have hstay : At h₆.mem p ⟨size, s.free⟩ new := by
      refine ⟨?_, ?_, ?_⟩
      · rw [t₆.load (by omega), t₅.load (by omega), l₄]
      · rw [l₆, Nat.mod_eq_of_lt (by omega)]
      · rw [t₆.load (by omega), t₅.load (by omega), t₄.load (by omega), t₃.load (by omega),
          t₂.load (by omega), t₁.load (by omega), ha.free]
    have hrest : At h₆.mem new ⟨s.size - (size + 21), true⟩ z := by
      refine ⟨?_, ?_, ?_⟩
      · rw [t₆.load (by omega), t₅.load (by omega), t₄.load (by omega), l₃]
      · rw [t₆.load (by omega), l₅, Nat.mod_eq_of_lt (by omega)]
      · rw [t₆.load (by omega), t₅.load (by omega), t₄.load (by omega), t₃.load (by omega), l₂]
    have hwid : p + (⟨size, s.free⟩ : Seg).width = new := by
      simp only [Seg.width]
      omega
    simp only [Headers, if_neg (List.cons_ne_nil _ _), if_true, hwid, and_true]
    exact ⟨hstay, hrest⟩
  · rw [← hnew, t₆.load (by omega), t₅.load (by omega), t₄.load (by omega), t₃.load (by omega),
      t₂.load (by omega), l₁]

theorem allocFrom_small (ha : At h.mem p s z) (hm : h.Mapped p s.width) (hs : s.size < size) :
    allocFrom h p size = .ok none := by
  have hw : s.width = 21 + s.size := rfl
  unfold allocFrom
  rw [ha.segSize_ok (hm.sub (by omega) (by omega)), ok_bind, if_neg (by omega), if_neg (by omega)]
  rfl

/-- A segment that fits is taken: whole, or cut in two. -/
theorem allocFrom_fits (ha : At h.mem p s z) (hm : h.Mapped p s.width) (hl : h.limit < 2 ^ 64)
    (hs : size ≤ s.size) :
    ∃ h', allocFrom h p size = .ok (some (h', p + 21)) ∧ Touched h h' (p + 8) (p + s.width) ∧
      Headers h'.mem p (s.cut size) z ∧
      (size + 21 < s.size → load h'.mem (p + 21 + size) 8 = p) := by
  have hw : s.width = 21 + s.size := rfl
  have hend : p + s.width ≤ h.limit := hm.2
  have hmp : h.Mapped p 21 := hm.sub (by omega) (by omega)
  have hmod : (p + 21) % 2 ^ 64 = p + 21 := Nat.mod_eq_of_lt (by omega)
  unfold allocFrom
  simp only [ha.segSize_ok hmp, ok_bind, hmod]
  by_cases hroom : size + 21 < s.size
  · -- the flag is cleared in the header the split has just rewritten
    obtain ⟨h₁, e₁, t₁, hh, hback⟩ := heapSplitSegment_room ha hm hl hroom
    simp only [Headers, if_neg (List.cons_ne_nil _ _), if_true, and_true] at hh
    obtain ⟨h₂, e₂, t₂, ha₂⟩ := hh.1.setFree (t₁.mapped.mpr hmp) false
    have hwid : p + (⟨size, s.free⟩ : Seg).width = p + 21 + size := by
      simp only [Seg.width]
      omega
    refine ⟨h₂, ?_, t₁.trans (t₂.mono (by omega) (by omega)), ?_, fun _ => ?_⟩
    · rw [if_neg (by omega), if_pos (by omega), e₁, ok_bind, e₂]
      rfl
    · rw [Seg.cut, if_neg (by omega)]
      simp only [Headers, if_neg (List.cons_ne_nil _ _), if_true, and_true]
      refine ⟨ha₂, hh.2.congr fun x hx _ => t₂.other x (.inr ?_)⟩
      simp only [Seg.width] at hx
      omega
    · rw [t₂.load (by omega), hback]
  · obtain ⟨h₁, e₁, t₁, ha₁⟩ := ha.setFree hmp false
    refine ⟨h₁, ?_, t₁.mono (by omega) (by omega), ?_, fun hr => absurd hr hroom⟩
    · by_cases he : s.size = size
      · rw [if_pos he, e₁]
        rfl
      · rw [if_neg he, if_pos (by omega), heapSplitSegment_full ha hm (by omega), ok_bind, e₁]
        rfl
    · rw [Seg.cut, if_pos (by omega)]
      simp only [Headers, if_true, and_true]
      exact ha₁

/-- The extension adds whole pages to the size of the last segment, whatever that segment is. -/
theorem heapExtend_spec (ha : At h.mem p s z) (hm : h.Mapped p 21) (n : Nat) :
    ∃ h', heapExtend h p n = .ok h' ∧ h'.base = h.base ∧ h'.size = h.size + n ∧
      At h'.mem p ⟨(s.size + n * 0x1000) % 2 ^ 32, s.free⟩ z ∧
      ∀ x, x < h.limit → (x < p + 16 ∨ p + 20 ≤ x) → h'.mem x = h.mem x := by
  induction n generalizing h s with
  | zero =>
    have hlt := ha.size_lt
    refine ⟨h, rfl, rfl, rfl, ?_, fun _ _ _ => rfl⟩
    rw [Nat.zero_mul, Nat.add_zero, Nat.mod_eq_of_lt hlt]
    exact ha
  | succ n ih =>
    have hlim : h.mapPage.limit = h.limit + 0x1000 := by
      simp only [Heap.limit, Heap.mapPage]
      omega
    have hmp : h.mapPage.Mapped p 21 := by
      refine ⟨hm.1, ?_⟩
      have := hm.2
      omega
    have hkeep : ∀ x, x < h.limit → h.mapPage.mem x = h.mem x := by
      intro x hx
      simp only [Heap.mapPage, fill]
      rw [if_neg (by omega)]
    have ha' : At h.mapPage.mem p s z := ha.congr fun x _ hx => hkeep x (by have := hm.2; omega)
    obtain ⟨h₁, e₁, t₁, l₁⟩ := setSize_spec (v := s.size + 0x1000) hmp
    have ha₁ : At h₁.mem p ⟨(s.size + 0x1000) % 2 ^ 32, s.free⟩ z := by
      refine ⟨?_, l₁, ?_⟩
      · rw [t₁.load (by omega)]
        exact ha'.next
      · rw [t₁.load (by omega)]
        exact ha'.free
    obtain ⟨h₂, e₂, hb₂, hs₂, ha₂, ho₂⟩ := ih ha₁ (t₁.mapped.mpr hmp)
    have hb₁ : h₁.base = h.base := t₁.base
    have hs₁ : h₁.size = h.size + 1 := t₁.size
    refine ⟨h₂, ?_, by omega, by omega, ?_, ?_⟩
    · unfold heapExtend
      simp only [ha'.segSize_ok hmp, ok_bind, e₁, e₂]
    · have hsum : ((s.size + 0x1000) % 2 ^ 32 + n * 0x1000) % 2 ^ 32 =
          (s.size + (n + 1) * 0x1000) % 2 ^ 32 := by omega
      rw [← hsum]
      exact ha₂
    · intro x hx hx'
      rw [ho₂ x (by rw [t₁.limit]; omega) hx', t₁.other x hx', hkeep x hx]

theorem at_zero {m : Mem} {q : Nat} (h0 : ∀ x, q ≤ x → x < q + 21 → m x = 0) :
    At m q ⟨0, false⟩ 0 ∧ load m q 8 = 0 := by
  have hz : ∀ i k, i + k ≤ 21 → load m (q + i) k = 0 :=
    fun i k hik => load_of_zero fun x hx hx' => h0 x (by omega) (by omega)
  refine ⟨⟨hz 8 8 (by omega), hz 16 4 (by omega), ?_⟩, hz 0 8 (by omega)⟩
  rw [hz 20 1 (by omega)]
  rfl

variable {q : Nat} {t : Seg}

/-- The links of `heap_merge_forward`, up to the header that is cleared. -/
theorem heapMergeForward_eq (ha : At h.mem p s q) (hb : At h.mem q t z) (hp : h.Mapped p 21)
    (hq : h.Mapped q 21) (hpq : p + 21 ≤ q) :
    ∃ h', Touched h h' (p + 8) (p + 20) ∧ At h'.mem p ⟨(s.size + t.width) % 2 ^ 32, s.free⟩ z ∧
      heapMergeForward h p = if h'.Mapped z 21 then .ok { h' with mem := memset h'.mem z 0 21 }
        else .error .pageFault := by
  have hz : z < 2 ^ 64 := by
    rw [← hb.next]
    exact load_lt _ _ 8
  obtain ⟨h₁, e₁, t₁, l₁⟩ := setSize_spec (v := s.size + (21 + t.size)) hp
  have hn₁ : h₁.next p = .ok q := by
    rw [Heap.next_ok (t₁.mapped.mpr hp), t₁.load (by omega), ha.next]
  have hnn₁ : h₁.next q = .ok z := by
    rw [Heap.next_ok (t₁.mapped.mpr hq), t₁.load (by omega), hb.next]
  obtain ⟨h₂, e₂, t₂, l₂⟩ := setNext_spec (v := z) (t₁.mapped.mpr hp) hz
  have hn₂ : h₂.next p = .ok z := by
    rw [Heap.next_ok (t₂.mapped.mpr (t₁.mapped.mpr hp)), l₂]
  refine ⟨h₂, (t₁.mono (by omega) (by omega)).trans (t₂.mono (by omega) (by omega)), ?_, ?_⟩
  · refine ⟨l₂, ?_, ?_⟩
    · rw [t₂.load (by omega), l₁, Seg.width]
    · rw [t₂.load (by omega), t₁.load (by omega), ha.free]
  · unfold heapMergeForward
    simp only [ha.segSize_ok hp, ha.next_ok hp, hb.segSize_ok hq, ok_bind, e₁, hn₁, hnn₁, e₂, hn₂]
    rfl

/-- The absorbed segment is the last one: NULL is cleared. -/
theorem heapMergeForward_last (ha : At h.mem p s q) (hb : At h.mem q t 0) (hp : h.Mapped p 21)
    (hq : h.Mapped q 21) (hpq : p + 21 ≤ q) (hbase : 0 < h.base) :
    heapMergeForward h p = .error .pageFault := by
  obtain ⟨h', ht, _, he⟩ := heapMergeForward_eq ha hb hp hq hpq
  rw [he, if_neg]
  intro hm
  have hlow := (ht.mapped.mp hm).1
  omega

/-- The header behind the absorbed segment is cleared, whatever it was. -/
theorem heapMergeForward_spec (ha : At h.mem p s q) (hb : At h.mem q t z) (hp : h.Mapped p 21)
    (hq : h.Mapped q 21) (hpq : p + 21 ≤ q) (hz : h.Mapped z 21) (hpz : p + 21 ≤ z) :
    ∃ h', heapMergeForward h p = .ok h' ∧ h'.base = h.base ∧ h'.size = h.size ∧
      At h'.mem p ⟨(s.size + t.width) % 2 ^ 32, s.free⟩ z ∧
      (∀ x, z ≤ x → x < z + 21 → h'.mem x = 0) ∧
      ∀ x, (x < p + 8 ∨ p + 20 ≤ x) → (x < z ∨ z + 21 ≤ x) → h'.mem x = h.mem x := by
  obtain ⟨h', ht, ha', he⟩ := heapMergeForward_eq ha hb hp hq hpq
  rw [if_pos (ht.mapped.mpr hz)] at he
  refine ⟨_, he, ht.base, ht.size, ?_, ?_, ?_⟩
  · refine ha'.congr fun x _ hx => ?_
    simp only [memset_eq_fill, fill]
    rw [if_neg (by omega)]
  · intro x hx hx'
    simp only [memset_eq_fill, fill]
    rw [if_pos ⟨hx, hx'⟩]
  · intro x hx hx'
    simp only [memset_eq_fill, fill]
    rw [if_neg (by omega), ht.other x hx]

end Helpers

end BambooOS
