import BambooOS.Pmm.Alloc
import BambooOS.Vmm.Entry

/-!
# Vmm.Slot

Tables as arrays of 512 slots, and what the two blocks that extend a tree do to them.

* `Later`: the globals are as before and the trace has grown. Every operation satisfies it.
* `Within`: all writes and frees stay inside a set of frames.
* `Grown`: one frame was taken and one slot written, nothing else a table could hold.
* `ensureEntry_grown`, `splitEntry_grown`: both blocks are of that form.
-/

namespace BambooOS

open ByteMem

/-- What `pmm_init` and `vmm_init` leave in the globals. -/
structure Globals.VmmOk (g : Globals) : Prop extends g.PmmOk where
  initialised : g.vmmInitialised = true
  tables : g.vmmPageTablesOffset = g.hhdm

namespace Kernel

/-- Slot `i` of the table in the frame `f`. -/
def rd (k : Kernel) (f : Nat) (i : Fin 512) : Nat := load k.mem (f + 8 * i.val) 8

theorem rd_lt (k : Kernel) (f : Nat) (i : Fin 512) : k.rd f i < 2 ^ 64 := by
  have := load_lt k.mem (f + 8 * i.val) 8
  rw [rd]; omega

theorem phys_slot {g : Globals} (hg : g.hhdm < 2 ^ 64) {f : Nat} (hf : f < 2 ^ 52) (i : Fin 512) :
    g.phys (g.virt f + 8 * i.val) = f + 8 * i.val :=
  Globals.phys_virt_add hg (by have := i.isLt; omega)

theorem ld64_slot {k : Kernel} (hk : k.hhdm < 2 ^ 64) {f : Nat} (hf : f < 2 ^ 52) (i : Fin 512) :
    k.ld64 (k.virt f + 8 * i.val) = k.rd f i := by
  rw [ld64, phys_slot hk hf, rd]

theorem tableOf_slot {k : Kernel} (hk : k.hhdm < 2 ^ 64) (ht : k.vmmPageTablesOffset = k.hhdm)
    {f : Nat} (hf : f < 2 ^ 52) (i : Fin 512) :
    k.tableOf (k.virt f + 8 * i.val) = k.virt (vmmPtEntryGetAddress (k.rd f i)) := by
  rw [tableOf, ld64_slot hk hf, ht, Globals.virt]

theorem tableOf_eq {k : Kernel} (hk : k.VmmOk) {f : Nat} (hf : f < 2 ^ 52) (i : Fin 512) :
    k.tableOf (k.virt f + 8 * i.val) = k.virt (vmmPtEntryGetAddress (k.rd f i)) :=
  tableOf_slot hk.hhdm_lt hk.tables hf i

section Store

variable {k : Kernel} (hk : k.hhdm < 2 ^ 64) {f : Nat} (hf : f < 2 ^ 52) (i : Fin 512)

include hk hf

theorem st64_slot_mem (v : Nat) :
    (k.st64 (k.virt f + 8 * i.val) v).mem = store k.mem (f + 8 * i.val) 8 v := by
  simp only [st64, phys_slot hk hf]

theorem st64_slot_trace (v : Nat) :
    (k.st64 (k.virt f + 8 * i.val) v).trace = .store (f + 8 * i.val) 8 :: k.trace := by
  simp only [st64, phys_slot hk hf]

theorem st64_slot_rd (hal : f % 0x1000 = 0) {v : Nat} (hv : v < 2 ^ 64) {g : Nat}
    (hg : g % 0x1000 = 0) (j : Fin 512) :
    (k.st64 (k.virt f + 8 * i.val) v).rd g j = if g = f ∧ j = i then v else k.rd g j := by
  have hi := i.isLt
  have hj := j.isLt
  simp only [rd]
  rw [st64_slot_mem hk hf]
  by_cases h : g = f ∧ j = i
  · obtain ⟨rfl, rfl⟩ := h
    rw [if_pos ⟨rfl, rfl⟩, load_store_same (by norm_num; omega)]
  · rw [if_neg h, load_store_other]
    by_cases hgf : g = f
    · subst hgf
      have : j.val ≠ i.val := fun h' => h ⟨rfl, Fin.ext h'⟩
      omega
    · omega

theorem st64_slot_kept (hal : f % 0x1000 = 0) (v : Nat) :
    MemKept {f} k (k.st64 (k.virt f + 8 * i.val) v) := by
  intro x hx
  have hi := i.isLt
  rw [st64_slot_mem hk hf]
  simp only [store]
  rw [if_neg]
  rintro ⟨h₁, h₂⟩
  exact hx (pageOf_of_page hal (by omega) (by omega))

end Store

end Kernel

/-! ## What an operation may touch -/

/-- The page an event writes or frees is in `S`. -/
def Event.In (S : Set Nat) : Event → Prop
  | .store a n => pageOf a ∈ S ∧ a % 0x1000 + n ≤ 0x1000
  | .alloc _ => True
  | .free f => f ∈ S

theorem Event.In.mono {S S' : Set Nat} {e : Event} (h : e.In S) (hs : S ⊆ S') : e.In S' := by
  cases e with
  | store a n => exact ⟨hs h.1, h.2⟩
  | alloc f => trivial
  | free f => exact hs h

theorem MemKept.rd {S : Set Nat} {k k' : Kernel} (h : MemKept S k k') {f : Nat} (hal : f % 0x1000 = 0) (hf : f ∉ S)
    (i : Fin 512) : k'.rd f i = k.rd f i := by
  apply load_congr
  intro x h₁ h₂
  have hi := i.isLt
  apply h
  rwa [pageOf_of_page hal (by omega) (by omega)]

namespace Kernel

/-- `k'` comes later in a run than `k`. -/
def Later (k k' : Kernel) : Prop := k'.toGlobals = k.toGlobals ∧ k.trace <:+ k'.trace

theorem Later.refl (k : Kernel) : Later k k := ⟨rfl, List.suffix_refl _⟩

theorem Later.trans {k k' k'' : Kernel} (h : Later k k') (h' : Later k' k'') : Later k k'' :=
  ⟨h'.1.trans h.1, h.2.trans h'.2⟩

theorem Later.supplied {k k' : Kernel} (h : Later k k') (hs : k'.Supplied) : k.Supplied :=
  hs.of_suffix h.2

theorem st64_later (k : Kernel) (p v : Nat) : Later k (k.st64 p v) :=
  ⟨st64_toGlobals k p v, List.suffix_cons _ _⟩

theorem orEntry_later (k : Kernel) (p flag : Nat) : Later k (k.orEntry p flag) := st64_later k p _

theorem pmmAllocz_later (k : Kernel) : Later k k.pmmAllocz.2 := by
  refine ⟨pmmAllocz_toGlobals k, ?_⟩
  have hset : ∀ i, k.trace <:+ (k.pmmSetUsablePageAllocatedByIndex i true).trace := by
    intro i
    simp only [pmmSetUsablePageAllocatedByIndex]
    split
    · exact List.suffix_refl _
    · exact List.suffix_cons _ _
  rw [pmmAllocz_eq]
  refine List.IsSuffix.trans ?_ (List.suffix_cons _ _)
  simp only [pmmAllocPhys]
  split
  · exact List.suffix_cons _ _
  · split
    · exact (hset _).trans (List.suffix_cons _ _)
    · exact (hset _).trans (List.suffix_cons _ _)

theorem vmmInitPtEntry_later (k : Kernel) (p : Nat) : Later k (k.vmmInitPtEntry p) :=
  (pmmAllocz_later k).trans (st64_later _ _ _)

theorem ensureEntry_later (k : Kernel) (p : Nat) : Later k (k.ensureEntry p) := by
  rw [ensureEntry]
  split
  · exact ((vmmInitPtEntry_later k p).trans (orEntry_later _ _ _)).trans (orEntry_later _ _ _)
  · exact Later.refl k

theorem splitBody_later (newTable basePhysAddr size i : Nat) (k : Kernel) :
    Later k (k.splitBody newTable basePhysAddr size i) :=
  ((st64_later _ _ _).trans (orEntry_later _ _ _)).trans (orEntry_later _ _ _)

theorem splitLoop_later (newTable basePhysAddr size n : Nat) (k : Kernel) :
    Later k (Loop.upto (splitBody newTable basePhysAddr size) n k) :=
  Loop.upto_inv (P := fun _ t => Later k t) (Later.refl k)
    fun _ _ _ h => h.trans (splitBody_later _ _ _ _ _)

theorem splitEntry_later (k : Kernel) (p size : Nat) : Later k (k.splitEntry p size) := by
  rw [splitEntry]
  split
  · exact ((pmmAllocz_later k).trans (splitLoop_later _ _ _ _ _)).trans (st64_later _ _ _)
  · exact Later.refl k

/-- From `k` to `k'` memory changed only in the frames of `S`, and only they were freed. -/
structure Within (S : Set Nat) (k k' : Kernel) : Prop where
  globals : k'.toGlobals = k.toGlobals
  kept : MemKept S k k'
  trace : ∃ es, k'.trace = es ++ k.trace ∧ ∀ e ∈ es, e.In S

section Within

variable {S S' : Set Nat} {k k' k'' : Kernel}

theorem Within.refl (S : Set Nat) (k : Kernel) : Within S k k :=
  ⟨rfl, MemKept.refl S k, [], rfl, by simp⟩

theorem Within.trans (h : Within S k k') (h' : Within S k' k'') : Within S k k'' := by
  obtain ⟨es, he, hin⟩ := h.trace
  obtain ⟨es', he', hin'⟩ := h'.trace
  refine ⟨h'.globals.trans h.globals, h.kept.trans h'.kept, es' ++ es, ?_, ?_⟩
  · rw [he', he, List.append_assoc]
  · intro e hm
    rcases List.mem_append.mp hm with hm | hm
    · exact hin' e hm
    · exact hin e hm

theorem Within.mono (h : Within S k k') (hs : S ⊆ S') : Within S' k k' := by
  obtain ⟨es, he, hin⟩ := h.trace
  exact ⟨h.globals, h.kept.mono hs, es, he, fun e hm => (hin e hm).mono hs⟩

theorem Within.tableOf (h : Within S k k') (hk : k.VmmOk) {f : Nat} (hf : f < 2 ^ 52)
    (i : Fin 512) :
    k'.tableOf (k.virt f + 8 * i.val) = k.virt (vmmPtEntryGetAddress (k'.rd f i)) := by
  have hvirt : k'.virt = k.virt := congrArg Globals.virt h.globals
  rw [← hvirt]
  exact tableOf_eq (by rw [h.globals]; exact hk) hf i

theorem Within.later (h : Within S k k') : Later k k' := by
  obtain ⟨es, he, _⟩ := h.trace
  exact ⟨h.globals, he ▸ List.suffix_append es k.trace⟩

end Within

theorem Taken.within {k k' : Kernel} {f : Nat} (hk : k.PmmOk) (h : k.Taken f k') :
    Within (insert f k.Bitmap) k k' := by
  obtain ⟨i, hi, ht⟩ := h.trace
  have hal := free_aligned hk h.mem_free
  refine ⟨h.globals, h.kept, [.store f 0x1000, .alloc f, .store (k.bitAddr i) 1], ht, ?_⟩
  intro e he
  simp only [List.mem_cons, List.not_mem_nil, or_false] at he
  rcases he with rfl | rfl | rfl
  · exact ⟨.inl (pageOf_self hal), by omega⟩
  · trivial
  · exact ⟨.inr (hk.pageOf_bitAddr_mem hi), by omega⟩

theorem st64_slot_within {k : Kernel} (hk : k.hhdm < 2 ^ 64) {f : Nat} (hf : f < 2 ^ 52)
    (hal : f % 0x1000 = 0) (i : Fin 512) (v : Nat) :
    Within {f} k (k.st64 (k.virt f + 8 * i.val) v) := by
  have hi := i.isLt
  refine ⟨st64_toGlobals _ _ _, st64_slot_kept hk hf i hal v, [.store (f + 8 * i.val) 8],
    st64_slot_trace hk hf i v, ?_⟩
  intro e he
  simp only [List.mem_singleton] at he
  subst he
  exact ⟨pageOf_of_page hal (by omega) (by omega), by omega⟩

/-! ## Allocations that succeed -/

theorem Supplied.st64 {k : Kernel} (h : k.Supplied) (p v : Nat) : (k.st64 p v).Supplied := by
  simpa [Supplied, Kernel.st64] using h

theorem Supplied.orEntry {k : Kernel} (h : k.Supplied) (p flag : Nat) :
    (k.orEntry p flag).Supplied := h.st64 _ _

theorem Stocked.ensureEntry {k : Kernel} {n : Nat} (hk : k.PmmOk) (h : k.Stocked (n + 1)) (p : Nat) :
    (k.ensureEntry p).Supplied := by
  rw [Kernel.ensureEntry]
  split
  · exact (((h.supplied_alloc hk).st64 _ _).orEntry _ _).orEntry _ _
  · exact h.supplied

theorem Stocked.splitEntry {k : Kernel} {n : Nat} (hk : k.PmmOk) (h : k.Stocked (n + 1))
    (p size : Nat) : (k.splitEntry p size).Supplied := by
  rw [Kernel.splitEntry]
  split
  · exact Supplied.st64 (Loop.upto_inv (P := fun _ (t : Kernel) => t.Supplied) (h.supplied_alloc hk)
      fun _ _ _ ht => ((ht.st64 _ _).orEntry _ _).orEntry _ _) _ _
  · exact h.supplied

/-! ## Writing one slot -/

/-- `k'` is `k` with the slot `(f, i)` holding `v`. -/
structure Wrote (k : Kernel) (f : Nat) (i : Fin 512) (v : Nat) (k' : Kernel) : Prop where
  within : Within {f} k k'
  slot : k'.rd f i = v
  other : ∀ j, j ≠ i → k'.rd f j = k.rd f j

section Wrote

variable {k k' k'' : Kernel} {f v w : Nat} {i : Fin 512}

theorem Wrote.trans (h : Wrote k f i v k') (h' : Wrote k' f i w k'') : Wrote k f i w k'' :=
  ⟨h.within.trans h'.within, h'.slot, fun j hj => (h'.other j hj).trans (h.other j hj)⟩

theorem st64_wrote (hk : k.hhdm < 2 ^ 64) (hf : f < 2 ^ 52) (hal : f % 0x1000 = 0)
    (hv : v < 2 ^ 64) : Wrote k f i v (k.st64 (k.virt f + 8 * i.val) v) where
  within := st64_slot_within hk hf hal i v
  slot := by rw [st64_slot_rd hk hf i hal hv hal, if_pos ⟨rfl, rfl⟩]
  other j hj := by rw [st64_slot_rd hk hf i hal hv hal, if_neg fun h => hj h.2]

theorem orEntry_wrote (hk : k.hhdm < 2 ^ 64) (hf : f < 2 ^ 52) (hal : f % 0x1000 = 0)
    {flag : Nat} (hv : flag < 2 ^ 64) :
    Wrote k f i (k.rd f i ||| flag) (k.orEntry (k.virt f + 8 * i.val) flag) := by
  rw [orEntry, ld64_slot hk hf]
  exact st64_wrote hk hf hal (Nat.or_lt_two_pow (rd_lt k f i) hv)

theorem Wrote.rd (h : Wrote k f i v k') {g : Nat} (hg : g % 0x1000 = 0) {j : Fin 512}
    (hne : (g, j) ≠ (f, i)) : k'.rd g j = k.rd g j := by
  by_cases hgf : g = f
  · subst hgf
    exact h.other j fun hj => hne (hj ▸ rfl)
  · exact h.within.kept.rd hg hgf j

theorem free_of_kept {S : Set Nat} (hk : k.PmmOk) (h : Within S k k')
    (hS : ∀ f ∈ S, f ∉ k.Bitmap) : k'.Free = k.Free :=
  free_congr hk h.globals fun x hx => h.kept x fun hS' => hS _ hS' hx

theorem held_of_kept {S : Set Nat} (hk : k.PmmOk) (h : Within S k k')
    (hS : ∀ f ∈ S, f ∉ k.Bitmap) (hh : k.BitmapHeld) : k'.BitmapHeld :=
  bitmapHeld_congr hk h.globals (fun x hx => h.kept x fun hS' => hS _ hS' hx) hh

theorem Wrote.free (hk : k.PmmOk) (h : Wrote k f i v k') (hb : f ∉ k.Bitmap) :
    k'.Free = k.Free := free_of_kept hk h.within fun _ hg => by cases hg; exact hb

theorem Wrote.held (hk : k.PmmOk) (h : Wrote k f i v k') (hb : f ∉ k.Bitmap)
    (hh : k.BitmapHeld) : k'.BitmapHeld :=
  held_of_kept hk h.within (fun _ hg => by cases hg; exact hb) hh

end Wrote

/-! ## Taking a frame for a slot -/

/-- The value of a slot that points to the new table in `g`. -/
def freshEntry (g : Nat) : Nat := vmmPtEntrySetAddress 0 g ||| ptEntryReadWrite ||| ptEntryPresent

theorem freshEntry_lt (g : Nat) : freshEntry g < 2 ^ 64 :=
  Nat.or_lt_two_pow (Nat.or_lt_two_pow (setAddress_lt 0 g) (by decide)) (by decide)

theorem present_fresh (g : Nat) : Present (freshEntry g) := present_or.mpr (.inr present_flag)

theorem not_larger_fresh (g : Nat) : ¬ Larger (freshEntry g) := by
  simp only [freshEntry, larger_or, larger_setAddress, not_or]
  exact ⟨⟨by decide, not_larger_rw⟩, not_larger_present⟩

@[simp] theorem getAddress_fresh (g : Nat) :
    vmmPtEntryGetAddress (freshEntry g) = vmmPtEntryGetAddress g := by
  rw [freshEntry, getAddress_or (by decide), getAddress_or (by decide), getAddress_setAddress]

/-- From `k` to `k'` the frame `g` was taken and the slot `(f, i)` set to `v`. What `g` holds is
stated apart. -/
structure Grown (k : Kernel) (f : Nat) (i : Fin 512) (v g : Nat) (k' : Kernel) : Prop where
  within : Within ({f, g} ∪ k.Bitmap) k k'
  mem_free : g ∈ k.Free
  first : ∀ a ∈ k.Free, k.pmmGetIndexByAddress g ≤ k.pmmGetIndexByAddress a
  free : k'.Free = k.Free \ {g}
  held : k'.BitmapHeld
  slot : k'.rd f i = v
  other : ∀ j, j ≠ i → k'.rd f j = k.rd f j

section Grow

variable {k : Kernel} (hk : k.VmmOk) (hh : k.BitmapHeld) {f : Nat} (hf : f < 2 ^ 52)
  (hal : f % 0x1000 = 0) (hfree : f ∉ k.Free) (hbit : f ∉ k.Bitmap) (i : Fin 512)

include hk hh

theorem Taken.grown {k₁ k₂ k₃ : Kernel} {g v : Nat} (ht : k.Taken g k₁) (hal : f % 0x1000 = 0)
    (hfree : f ∉ k.Free) (hbit : f ∉ k.Bitmap) {i : Fin 512} (hfill : Within {g} k₁ k₂)
    (hw : Wrote k₂ f i v k₃) : Grown k f i v g k₃ := by
  have hgf : g ≠ f := fun h => hfree (h ▸ ht.mem_free)
  have hgb : g ∉ k.Bitmap := free_not_bitmap hk.toPmmOk hh ht.mem_free
  have hk₁ : k₁.PmmOk := by rw [ht.globals]; exact hk.toPmmOk
  have hk₂ : k₂.PmmOk := by rw [hfill.globals]; exact hk₁
  have hout : ∀ x ∈ ({g} : Set Nat), x ∉ k₁.Bitmap := by
    rintro x rfl
    rwa [ht.globals]
  have hb₂ : f ∉ k₂.Bitmap := by rwa [hfill.globals, ht.globals]
  refine ⟨?_, ht.mem_free, ht.first, ?_, ?_, hw.slot, ?_⟩
  · refine ((ht.within hk.toPmmOk).mono ?_).trans ((hfill.mono ?_).trans (hw.within.mono ?_))
    · rintro x (rfl | hx)
      · exact .inl (.inr rfl)
      · exact .inr hx
    · rintro x rfl
      exact .inl (.inr rfl)
    · rintro x rfl
      exact .inl (.inl rfl)
  · rw [hw.free hk₂ hb₂, free_of_kept hk₁ hfill hout, ht.free]
  · exact hw.held hk₂ hb₂ (held_of_kept hk₁ hfill hout (ht.held hh))
  · intro j hj
    rw [hw.other j hj, hfill.kept.rd hal (fun h => hgf h.symm) j, ht.kept.rd hal _ j]
    rintro (h | h)
    · exact hgf h.symm
    · exact hbit h

omit hh in
theorem Taken.newAddress {k₁ : Kernel} {g : Nat} (ht : k.Taken g k₁) :
    (k.virt g + (2 ^ 64 - k₁.vmmPageTablesOffset)) % 2 ^ 64 = g := by
  have hlt := free_lt hk.toPmmOk ht.mem_free
  have h := Globals.phys_virt hk.hhdm_lt (a := g) (by omega)
  rw [Globals.phys] at h
  rw [ht.globals, hk.tables]
  exact h

omit hk hh in
theorem ensureEntry_present (hk : k.VmmOk) (hf : f < 2 ^ 52) {i : Fin 512}
    (hp : Present (k.rd f i)) : k.ensureEntry (k.virt f + 8 * i.val) = k := by
  rw [ensureEntry, if_neg]
  rw [ld64_slot hk.hhdm_lt hf, and_present]
  exact not_not.mpr hp

include hf hal hfree hbit

/-- An absent slot gets a cleared frame. -/
theorem ensureEntry_grown (hz : k.rd f i = 0)
    (hs : (k.ensureEntry (k.virt f + 8 * i.val)).Supplied) :
    ∃ g, Grown k f i (freshEntry g) g (k.ensureEntry (k.virt f + 8 * i.val)) ∧
      ∀ j, (k.ensureEntry (k.virt f + 8 * i.val)).rd g j = 0 := by
  let p := k.virt f + 8 * i.val
  have habs : k.ld64 p &&& ptEntryPresent = 0 := by
    rw [ld64_slot hk.hhdm_lt hf, hz]; decide
  have he : k.ensureEntry p =
      ((k.vmmInitPtEntry p).orEntry p ptEntryReadWrite).orEntry p ptEntryPresent := by
    rw [ensureEntry, if_pos habs]
  have hs' : k.pmmAllocz.2.Supplied := by
    rw [he] at hs
    refine hs.of_suffix ?_
    simp only [orEntry, vmmInitPtEntry, st64]
    exact List.suffix_cons_iff.mpr (.inr (List.suffix_cons_iff.mpr (.inr (List.suffix_cons _ _))))
  obtain ⟨g, hpage, ht⟩ := pmmAllocz_spec hk.toPmmOk hh hs'
  have hgf : g ≠ f := fun h => hfree (h ▸ ht.mem_free)
  have hgal := free_aligned hk.toPmmOk ht.mem_free
  have hout : f ∉ insert g k.Bitmap := by
    rintro (h | h)
    · exact hgf h.symm
    · exact hbit h
  let k₁ := k.pmmAllocz.2
  have hk₁ : k₁.VmmOk := by rw [ht.globals]; exact hk
  have hp₁ : p = k₁.virt f + 8 * i.val := by rw [ht.globals]
  have hrd : k₁.rd f i = 0 := by rw [ht.kept.rd hal hout, hz]
  have hw₁ : Wrote k₁ f i (vmmPtEntrySetAddress 0 g) (k.vmmInitPtEntry p) := by
    have hv : k.vmmInitPtEntry p = k₁.st64 p (vmmPtEntrySetAddress 0 g) := by
      simp only [vmmInitPtEntry, hpage]
      rw [Taken.newAddress hk ht, show k.pmmAllocz.2.ld64 p = 0 by
        rw [hp₁, ld64_slot hk₁.hhdm_lt hf]; exact hrd]
    rw [hv, hp₁]
    exact st64_wrote hk₁.hhdm_lt hf hal (setAddress_lt 0 g)
  have step : ∀ {t : Kernel} {v : Nat} (flag : Nat), Wrote k₁ f i v t → flag < 2 ^ 64 →
      Wrote k₁ f i (v ||| flag) (t.orEntry p flag) := by
    intro t v flag hw hlt
    have hpt : p = t.virt f + 8 * i.val := by rw [hw.within.globals]; exact hp₁
    rw [hpt, ← hw.slot]
    exact hw.trans (orEntry_wrote (by rw [hw.within.globals]; exact hk₁.hhdm_lt) hf hal hlt)
  have hw := step ptEntryPresent (step ptEntryReadWrite hw₁ (by decide)) (by decide)
  rw [← he] at hw
  refine ⟨g, ht.grown hk hh hal hfree hbit (Within.refl _ _) hw, fun j => ?_⟩
  rw [hw.within.kept.rd hgal (fun h => hgf h) j, rd]
  have hj := j.isLt
  exact load_of_zero fun x h₁ h₂ => ht.zero x (by omega) (by omega)

omit hh hf hal hfree hbit in
theorem splitLoop_spec {g : Nat} (base size : Nat) (hgf : g < 2 ^ 52) (hgal : g % 0x1000 = 0)
    (hz : ∀ j, k.rd g j = 0) :
    let k' := Loop.upto (splitBody (k.virt g) base size) 512 k
    Within {g} k k' ∧ ∀ j : Fin 512, k'.rd g j = freshEntry (base + j.val * size) := by
  intro k'
  have hinv := Loop.upto_inv (f := splitBody (k.virt g) base size) (n := 512) (s := k)
    (P := fun n t => Within {g} k t ∧ ∀ j : Fin 512,
      t.rd g j = if j.val < n then freshEntry (base + j.val * size) else 0)
    ⟨Within.refl _ _, by simpa using hz⟩ ?_
  · refine ⟨hinv.1, fun j => ?_⟩
    rw [hinv.2 j, if_pos j.isLt]
  · rintro n t hn ⟨hw, ht⟩
    let i : Fin 512 := ⟨n, hn⟩
    have hkt : t.hhdm < 2 ^ 64 := by rw [hw.globals]; exact hk.hhdm_lt
    have hz : t.rd g i = 0 := by rw [ht i, if_neg (lt_irrefl n)]
    have hw₁ : Wrote t g i (vmmPtEntrySetAddress 0 (base + n * size))
        (t.st64 (t.virt g + 8 * i.val) (vmmPtEntrySetAddress 0 (base + n * size))) :=
      st64_wrote hkt hgf hgal (setAddress_lt _ _)
    have step : ∀ {u : Kernel} {v : Nat} (flag : Nat), Wrote t g i v u → flag < 2 ^ 64 →
        Wrote t g i (v ||| flag) (u.orEntry (t.virt g + 8 * i.val) flag) := by
      intro u v flag h hlt
      have hgu : t.virt g = u.virt g := by rw [h.within.globals]
      rw [hgu, ← h.slot]
      exact h.trans (orEntry_wrote (by rw [h.within.globals]; exact hkt) hgf hgal hlt)
    have hbody : splitBody (k.virt g) base size n t =
        ((t.st64 (t.virt g + 8 * i.val) (vmmPtEntrySetAddress 0 (base + n * size))).orEntry
          (t.virt g + 8 * i.val) ptEntryReadWrite).orEntry (t.virt g + 8 * i.val)
          ptEntryPresent := by
      have hgt : k.virt g = t.virt g := by rw [hw.globals]
      have hld : t.ld64 (t.virt g + 8 * n) = 0 := (ld64_slot hkt hgf i).trans hz
      simp only [splitBody, hgt, hld, i]
    have hw₂ := step ptEntryPresent (step ptEntryReadWrite hw₁ (by decide)) (by decide)
    rw [← hbody] at hw₂
    refine ⟨hw.trans hw₂.within, fun j => ?_⟩
    by_cases hj : j = i
    · subst hj
      rw [hw₂.slot, if_pos (Nat.lt_succ_self n), freshEntry]
    · have hne : j.val ≠ n := fun h => hj (Fin.ext h)
      have hiff : j.val < n + 1 ↔ j.val < n := by omega
      rw [hw₂.other j hj, ht j]
      simp only [hiff]

omit hh hal hfree hbit in
theorem splitEntry_small {i : Fin 512} (size : Nat) (hl : ¬ Larger (k.rd f i)) :
    k.splitEntry (k.virt f + 8 * i.val) size = k := by
  rw [splitEntry, if_neg]
  rw [ld64_slot hk.hhdm_lt hf, and_larger]
  exact hl

/-- A large leaf is replaced by a table of 512 present entries. They carry no larger-pages bit,
whatever the level. -/
theorem splitEntry_grown {size : Nat} (hl : Larger (k.rd f i))
    (hs : (k.splitEntry (k.virt f + 8 * i.val) size).Supplied) :
    ∃ g, Grown k f i (freshEntry g) g (k.splitEntry (k.virt f + 8 * i.val) size) ∧
      ∀ j : Fin 512, (k.splitEntry (k.virt f + 8 * i.val) size).rd g j =
        freshEntry (vmmPtEntryGetAddress (k.rd f i) + j.val * size) := by
  let p := k.virt f + 8 * i.val
  have hcond : k.ld64 p &&& ptEntryLargerPages ≠ 0 := by
    rw [ld64_slot hk.hhdm_lt hf, and_larger]; exact hl
  let base := vmmPtEntryGetAddress (k.rd f i)
  let k₁ := k.pmmAllocz.2
  have hbase : vmmPtEntryGetAddress (k.ld64 p) = base := by rw [ld64_slot hk.hhdm_lt hf]
  have heq : k.splitEntry p size =
      (Loop.upto (splitBody ((((k.pmmAllocz.1 + (2 ^ 64 - k₁.vmmPageTablesOffset)) % 2 ^ 64) +
        k₁.vmmPageTablesOffset) % 2 ^ 64) base size) 512 k₁).st64 p
        (freshEntry ((k.pmmAllocz.1 + (2 ^ 64 - k₁.vmmPageTablesOffset)) % 2 ^ 64)) := by
    rw [splitEntry, if_pos hcond, hbase]
    rfl
  have hs' : k₁.Supplied := by
    rw [heq] at hs
    exact ((splitLoop_later _ _ _ _ _).trans (st64_later _ _ _)).supplied hs
  obtain ⟨g, hpage, ht⟩ := pmmAllocz_spec hk.toPmmOk hh hs'
  have hgal := free_aligned hk.toPmmOk ht.mem_free
  have hglt := free_lt hk.toPmmOk ht.mem_free
  have hgf : g ≠ f := fun h => hfree (h ▸ ht.mem_free)
  have hk₁ : k₁.VmmOk := by rw [ht.globals]; exact hk
  rw [hpage, Taken.newAddress hk ht] at heq
  have hvirt : (g + k₁.vmmPageTablesOffset) % 2 ^ 64 = k₁.virt g := by
    rw [hk₁.tables, Globals.virt]
  rw [hvirt] at heq
  obtain ⟨hwl, hfill⟩ := splitLoop_spec (k := k₁) hk₁ base size (by omega) hgal fun j => by
      have hj := j.isLt
      exact load_of_zero fun x h₁ h₂ => ht.zero x (by omega) (by omega)
  have hw := st64_wrote (k := Loop.upto (splitBody (k₁.virt g) base size) 512 k₁)
    (by rw [hwl.globals]; exact hk₁.hhdm_lt) hf hal (i := i) (freshEntry_lt g)
  have hp : (Loop.upto (splitBody (k₁.virt g) base size) 512 k₁).virt f + 8 * i.val = p := by
    rw [hwl.globals, ht.globals]
  rw [hp, ← heq] at hw
  refine ⟨g, ht.grown hk hh hal hfree hbit hwl hw, fun j => ?_⟩
  rw [hw.within.kept.rd hgal hgf j, hfill j]

end Grow

end Kernel

end BambooOS
