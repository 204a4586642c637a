import BambooOS.Memory.Model
import BambooOS.Vmm.Bulk
import BambooOS.Vmm.Calls
import BambooOS.Vmm.Demand
import BambooOS.Vmm.Tally

/-!
# Memory.Map

The page map `memory_init` builds.

* `allocz_root`: a cleared frame is an empty tree beside the current one.
* `Laid`: the translations of the new tree when some of the memory map is done.
* `Laid.entry`, `mapEntries_spec`: one entry, then the loop over an ascending memory map.
* `mapEntries_stocked`: the frames it takes from the allocator.
-/

namespace BambooOS

open ByteMem Radix Kernel

/-! ## The window -/

/-- The page number of the window page of a physical address. -/
def Globals.windowPage (g : Globals) (a : Nat) : Nat := vpn (g.virt a)

theorem windowPage_eq {g : Globals} (hu : 2 ^ 64 - 2 ^ 47 ≤ g.hhdm) (hal : g.hhdm % 0x1000 = 0)
    {a : Nat} (ha : g.hhdm + a < 2 ^ 64) :
    g.windowPage a = g.hhdm / 0x1000 - (2 ^ 52 - 2 ^ 36) + a / 0x1000 := by
  rw [Globals.windowPage, vpn, Globals.virt]
  omega

/-- A page of `e` that `memory_init` maps, by its number in the window. -/
def MemmapEntry.PageAt (g : Globals) (e : MemmapEntry) (r : Nat) : Prop :=
  ∃ j, j < e.length / 0x1000 ∧ r = g.windowPage e.base + j

/-! ## An empty tree -/

section Root

variable {k : Kernel} {croot : Nat} {C : PageTree}

theorem empty_stored {root : Nat} (hal : root % 0x1000 = 0) (hlt : root < 2 ^ 52)
    (hz : ∀ j, k.rd root j = 0) : Stored k root (.table root fun _ => .none) where
  table := ⟨_, rfl⟩
  rep := by
    refine ⟨rfl, .inl rfl, fun j => ?_⟩
    have hbase : fmt.base root = root := getAddress_of_aligned hal hlt
    rw [hbase]
    exact hz j
  sep := ⟨by simp [Tree.frames], by simp [Tree.frames], fun _ => trivial⟩
  aligned := hal
  lt := hlt

theorem empty_find (root q l : Nat) :
    (Tree.table root fun _ => Tree.none : PageTree).find (path q) l = none := rfl

theorem Kernel.Taken.owned {f : Nat} {k' : Kernel} (ht : k.Taken f k') (hC : Owned k croot C) :
    Owned k' croot C := by
  have hCf : Disjoint (C.frames fmt.base) (insert f k.Bitmap) := by
    rw [Set.disjoint_left]
    rintro x hx (rfl | hb)
    · exact Set.disjoint_left.mp hC.free hx ht.mem_free
    · exact Set.disjoint_left.mp hC.bitmap hx hb
  refine ⟨by rw [ht.globals]; exact hC.ok, ht.held hC.held, hC.stored.congr ht.kept hCf, ?_, ?_⟩
  · rw [ht.free]
    exact hC.free.mono_right Set.sdiff_subset
  · rw [ht.globals]
    exact hC.bitmap

/-- The frame `pmm_allocz` supplies, as an empty tree beside the current one. -/
theorem allocz_root (hC : Owned k croot C) (hs : k.pmmAllocz.2.Supplied) :
    ∃ root, k.pmmAllocz.1 = k.virt root ∧ root ∈ k.Free ∧
      k.pmmAllocz.2.toGlobals = k.toGlobals ∧ k.pmmAllocz.2.Free = k.Free \ {root} ∧
      Owned k.pmmAllocz.2 root (.table root fun _ => .none) ∧ Owned k.pmmAllocz.2 croot C := by
  have hk := hC.ok.toPmmOk
  obtain ⟨root, hroot, ht⟩ := pmmAllocz_spec hk hC.held hs
  have hal := free_aligned hk ht.mem_free
  have hlt := free_lt hk ht.mem_free
  have hbit := free_not_bitmap hk hC.held ht.mem_free
  have hbase : fmt.base root = root := getAddress_of_aligned hal (by omega)
  have hframes : (Tree.table root fun _ => Tree.none : PageTree).frames fmt.base = {root} := by
    simp [Tree.frames, hbase]
  have hC' := ht.owned hC
  refine ⟨root, hroot, ht.mem_free, ht.globals, ht.free, ⟨hC'.ok, hC'.held, ?_, ?_, ?_⟩, hC'⟩
  · refine empty_stored hal (by omega) fun j => load_of_zero fun x h₁ h₂ => ?_
    have hj := j.isLt
    exact ht.zero x (by omega) (by omega)
  · rw [hframes, ht.free, Set.disjoint_singleton_left]
    exact fun h => h.2 rfl
  · rw [hframes, ht.globals, Set.disjoint_singleton_left]
    exact hbit

/-- An address whose page is mapped to itself, or to nothing, keeps its page. -/
theorem convertPhys_page {pa : Nat} (hC : Owned k croot C) (hr : k.pml4 = k.virt croot)
    (hlow : ∀ a, PageTree.xlate C (pa / 0x1000) = some a → a = pa / 0x1000 * 0x1000) :
    pageOf (k.convertPhys pa) = pageOf pa := by
  rw [convertPhys]
  split
  · rename_i hne
    rw [vmmVirtToPhys_eq hC.ok hC.stored hr] at hne ⊢
    rw [PageTree.xlate, PageTree.xlateFrom] at hlow
    cases hf : C.find (path (pa / 0x1000)) 4 with
    | none =>
      rw [hf] at hne
      exact absurd rfl hne
    | some m =>
      obtain ⟨l, e⟩ := m
      have ha : vmmPtEntryGetAddress e + pa / 0x1000 % 512 ^ l * 0x1000 = pa / 0x1000 * 0x1000 :=
        hlow _ (by rw [hf]; rfl)
      cases l with
      | zero =>
        rw [Nat.pow_zero, Nat.mod_one, Nat.zero_mul, Nat.add_zero] at ha
        rw [walkValue, ha, pageOf, pageOf]
        omega
      | succ l =>
        rw [walkValue, Nat.mod_mul, pageOf, pageOf]
        omega
  · rfl

end Root

/-! ## The memory map, entry by entry -/

/-- The new tree `T` beside the current one `C` when the entries `es` are mapped: their whole pages
translate to themselves, and the first page of an entry below one page to a frame of `F`. -/
structure Laid (root croot : Nat) (F : Set Nat) (g : Globals) (C₀ : PageTree)
    (es : List MemmapEntry) (k : Kernel) (T C : PageTree) : Prop where
  ready : Ready root croot F F True k T C
  globals : k.toGlobals = g
  same : ∀ r, PageTree.xlate C r = PageTree.xlate C₀ r
  done : ∀ e ∈ es, e.Mapped → ∀ j, j < e.length / 0x1000 →
    PageTree.xlate T (g.windowPage e.base + j) = some (pageOf e.base + j * 0x1000)
  rest : ∀ r, r < 2 ^ 36 → ∀ a, PageTree.xlate T r = some a →
    (∃ e ∈ es, e.Mapped ∧ e.PageAt g r) ∨
    ∃ e ∈ es, e.Mapped ∧ e.length < 0x1000 ∧ r = g.windowPage e.base ∧ a ∈ F
  large : ∀ r, r < 2 ^ 36 → PageTree.Large T r → ∃ e ∈ es, e.Mapped ∧ e.PageAt g r
  huge : ∀ r, r < 2 ^ 36 → PageTree.Huge T r →
    ∃ e ∈ es, e.Mapped ∧ Whole (g.windowPage e.base) (e.length / 0x1000) r
  fits : PageTree.Fits T
  tallied : k.Tallied

section Laid

variable {root croot : Nat} {F : Set Nat} {g : Globals} {C₀ T C : PageTree}
  {es : List MemmapEntry} {e : MemmapEntry} {k : Kernel}

theorem Laid.window (h : Laid root croot F g C₀ es k T C) : Window g C F := by
  rw [← h.globals]
  exact h.ready.window trivial

theorem Laid.before (h : Laid root croot F g C₀ es k T C)
    (htop : g.hhdm + (e.base + e.length) < 2 ^ 64)
    (hle : ∀ e' ∈ es, e'.base + e'.length ≤ e.base) {e' : MemmapEntry} (he' : e' ∈ es) {r : Nat}
    (hr : e'.PageAt g r) : r < g.windowPage e.base := by
  obtain ⟨j, hj, rfl⟩ := hr
  have hw := h.window
  have hend := hle e' he'
  rw [windowPage_eq hw.upper hw.aligned (a := e'.base) (by omega),
    windowPage_eq hw.upper hw.aligned (a := e.base) (by omega)]
  omega

/-- No page from `e` on is under a large leaf yet. -/
theorem Laid.ahead (h : Laid root croot F g C₀ es k T C)
    (htop : g.hhdm + (e.base + e.length) < 2 ^ 64)
    (hle : ∀ e' ∈ es, e'.base + e'.length ≤ e.base) {r : Nat} (hr : g.windowPage e.base ≤ r)
    (hlt : r < 2 ^ 36) : ¬ PageTree.Large T r := by
  intro hl
  obtain ⟨e', he', _, hat⟩ := h.large r hlt hl
  have := h.before htop hle he' hat
  omega

/-- The pages of `e` fit in the window, and its frames in physical memory, wherever they are
counted from. -/
theorem Laid.room (h : Laid root croot F g C₀ es k T C) (hlow : ∀ q, q < 2 ^ 35 → ∀ a,
      PageTree.xlate C₀ q = some a → a = q * 0x1000)
    (htop : g.hhdm + (e.base + e.length) < 2 ^ 64) :
    g.windowPage e.base + e.length / 0x1000 ≤ 2 ^ 36 ∧
      pageOf (k.convertPhys e.base) = pageOf e.base ∧
      k.convertPhys e.base + e.length / 0x1000 * 0x1000 ≤ 2 ^ 52 := by
  have hw := h.window
  have hu := hw.upper
  have hpage := windowPage_eq hw.upper hw.aligned (a := e.base) (by omega)
  have hconv : pageOf (k.convertPhys e.base) = pageOf e.base :=
    convertPhys_page h.ready.current h.ready.pml4 fun a ha =>
      hlow _ (by omega) a ((h.same _).symm.trans ha)
  refine ⟨by omega, hconv, ?_⟩
  simp only [pageOf] at hconv
  omega

theorem Laid.range (h : Laid root croot F g C₀ es k T C) (hlow : ∀ q, q < 2 ^ 35 → ∀ a,
      PageTree.xlate C₀ q = some a → a = q * 0x1000)
    (htop : g.hhdm + (e.base + e.length) < 2 ^ 64)
    (hle : ∀ e' ∈ es, e'.base + e'.length ≤ e.base) (hm : e.Mapped) (hn : 0 < e.length / 0x1000)
    (hs : (k.vmmMapPagesPml4 (k.virt root) e.base (g.virt e.base) (e.length / 0x1000)).Supplied) :
    ∃ T' C', Laid root croot F g C₀ (es ++ [e])
      (k.vmmMapPagesPml4 (k.virt root) e.base (g.virt e.base) (e.length / 0x1000)) T' C' := by
  obtain ⟨hrange, hconv, hfit⟩ := h.room hlow htop
  have hnl : ∀ j, j < e.length / 0x1000 → Visits (vpn (g.virt e.base)) (e.length / 0x1000)
      (vpn (g.virt e.base) + j) → ¬ PageTree.Large T (vpn (g.virt e.base) + j) :=
    fun j hj _ => h.ahead htop hle (Nat.le_add_right _ j)
      (lt_of_lt_of_le (Nat.add_lt_add_left hj _) hrange)
  obtain ⟨T', C', hr⟩ := vmmMapPagesPml4_ranged (fun _ => trivial) h.ready h.ready.returnable hn
    hrange hfit hnl rfl hs
  have htal := vmmMapPagesPml4_tallied (fun _ => trivial) h.ready h.ready.returnable hrange hfit hnl
    (h.ahead htop hle (Nat.le_refl _) (vpn_lt _)) rfl hs h.tallied
  have hp := hr.progress
  have hat : ∀ r, g.windowPage e.base ≤ r → r < g.windowPage e.base + e.length / 0x1000 →
      e.PageAt g r := fun r h₁ h₂ => ⟨r - g.windowPage e.base, by omega, by omega⟩
  refine ⟨T', C', hr.ready, hr.move.within.globals.trans h.globals,
    fun r => (hr.move.same r).trans (h.same r), ?_, ?_, ?_, ?_, hp.fits h.fits, htal⟩
  · intro e' he' hm' j hj
    rcases List.mem_append.mp he' with he' | he'
    · have hlt := h.before htop hle he' ⟨j, hj, rfl⟩
      rw [hp.outside _ (by omega) (.inl hlt)]
      exact h.done e' he' hm' j hj
    · rw [List.mem_singleton.mp he'] at hj ⊢
      rw [← hconv]
      exact hp.done j hj
  · intro r hr a ha
    by_cases hin : g.windowPage e.base ≤ r ∧ r < g.windowPage e.base + e.length / 0x1000
    · exact .inl ⟨e, by simp, hm, hat r hin.1 hin.2⟩
    · have hout : r < vpn (g.virt e.base) ∨ vpn (g.virt e.base) + e.length / 0x1000 ≤ r := by
        change r < g.windowPage e.base ∨ g.windowPage e.base + e.length / 0x1000 ≤ r
        omega
      rw [hp.outside r hr hout] at ha
      rcases h.rest r hr a ha with ⟨e', he', h'⟩ | ⟨e', he', h'⟩
      · exact .inl ⟨e', List.mem_append_left _ he', h'⟩
      · exact .inr ⟨e', List.mem_append_left _ he', h'⟩
  · intro r hr hl
    by_cases hin : g.windowPage e.base ≤ r ∧ r < g.windowPage e.base + e.length / 0x1000
    · exact ⟨e, by simp, hm, hat r hin.1 hin.2⟩
    · have hout : r < vpn (g.virt e.base) ∨ vpn (g.virt e.base) + e.length / 0x1000 ≤ r := by
        change r < g.windowPage e.base ∨ g.windowPage e.base + e.length / 0x1000 ≤ r
        omega
      obtain ⟨e', he', h'⟩ := h.large r hr (hp.large r hr hout hl)
      exact ⟨e', List.mem_append_left _ he', h'⟩
  · intro r hr hl
    rcases hp.huge r hr hl with hl | hw
    · obtain ⟨e', he', h'⟩ := h.huge r hr hl
      exact ⟨e', List.mem_append_left _ he', h'⟩
    · exact ⟨e, by simp, hm, hw⟩

/-- An entry below one page: its first page gets tables and a frame of its own. -/
theorem Laid.short (h : Laid root croot F g C₀ es k T C) (hlow : ∀ q, q < 2 ^ 35 → ∀ a,
      PageTree.xlate C₀ q = some a → a = q * 0x1000)
    (htop : g.hhdm + (e.base + e.length) < 2 ^ 64)
    (hle : ∀ e' ∈ es, e'.base + e'.length ≤ e.base) (hm : e.Mapped) (hn : e.length / 0x1000 = 0)
    (hs : (k.vmmMapPagesPml4 (k.virt root) e.base (g.virt e.base) 0).Supplied) :
    ∃ T', Laid root croot F g C₀ (es ++ [e])
      (k.vmmMapPagesPml4 (k.virt root) e.base (g.virt e.base) 0) T' C := by
  have hlt : vpn (g.virt e.base) < 2 ^ 36 := vpn_lt _
  have hnl : ¬ PageTree.Large T (vpn (g.virt e.base)) := h.ahead htop hle (Nat.le_refl _) hlt
  obtain ⟨T', hr, hmv, hent, hfresh⟩ := vmmMapPagesPml4_zero h.ready hnl hs
  obtain ⟨hrange, _, hfit⟩ := h.room hlow htop
  rw [hn] at hrange hfit
  have htal := vmmMapPagesPml4_tallied (fun _ => trivial) h.ready h.ready.returnable hrange hfit
    (fun j hj => absurd hj (Nat.not_lt_zero j)) hnl rfl hs h.tallied
  refine ⟨T', hr, hmv.within.globals.trans h.globals, h.same, ?_, ?_, ?_, ?_,
    fits_of_large hent.large h.fits, htal⟩
  · intro e' he' hm' j hj
    rcases List.mem_append.mp he' with he' | he'
    · exact hent.same _ _ (h.done e' he' hm' j hj)
    · rw [List.mem_singleton.mp he', hn] at hj
      omega
  · intro r hr' a ha
    have hold : PageTree.xlate T r = some a →
        (∃ e' ∈ es ++ [e], e'.Mapped ∧ e'.PageAt g r) ∨
        ∃ e' ∈ es ++ [e], e'.Mapped ∧ e'.length < 0x1000 ∧ r = g.windowPage e'.base ∧ a ∈ F := by
      intro ha
      rcases h.rest r hr' a ha with ⟨e', he', h'⟩ | ⟨e', he', h'⟩
      · exact .inl ⟨e', List.mem_append_left _ he', h'⟩
      · exact .inr ⟨e', List.mem_append_left _ he', h'⟩
    by_cases hb : r = vpn (g.virt e.base)
    · subst hb
      rcases hfresh a ha with ha | ha
      · exact hold ha
      · exact .inr ⟨e, by simp, hm, by omega, rfl, h.ready.frames (.inr ha)⟩
    · rw [hent.other r ?_] at ha
      · exact hold ha
      · rw [sameBlock_zero, Nat.mod_eq_of_lt hr', Nat.mod_eq_of_lt hlt]
        exact hb
  · rintro r hr' ⟨l, v, hl, hf⟩
    obtain ⟨e', he', h'⟩ := h.large r hr' ⟨l, v, hl, hent.large r l v hl hf⟩
    exact ⟨e', List.mem_append_left _ he', h'⟩
  · rintro r hr' ⟨v, hf⟩
    obtain ⟨e', he', h'⟩ := h.huge r hr' ⟨v, hent.large r 2 v (by omega) hf⟩
    exact ⟨e', List.mem_append_left _ he', h'⟩

theorem Laid.skip (h : Laid root croot F g C₀ es k T C) (hm : ¬ e.Mapped) :
    Laid root croot F g C₀ (es ++ [e]) k T C := by
  refine ⟨h.ready, h.globals, h.same, ?_, ?_, ?_, ?_, h.fits, h.tallied⟩
  · intro e' he' hm' j hj
    rcases List.mem_append.mp he' with he' | he'
    · exact h.done e' he' hm' j hj
    · exact absurd (List.mem_singleton.mp he' ▸ hm') hm
  · intro r hr a ha
    rcases h.rest r hr a ha with ⟨e', he', h'⟩ | ⟨e', he', h'⟩
    · exact .inl ⟨e', List.mem_append_left _ he', h'⟩
    · exact .inr ⟨e', List.mem_append_left _ he', h'⟩
  · intro r hr hl
    obtain ⟨e', he', h'⟩ := h.large r hr hl
    exact ⟨e', List.mem_append_left _ he', h'⟩
  · intro r hr hl
    obtain ⟨e', he', h'⟩ := h.huge r hr hl
    exact ⟨e', List.mem_append_left _ he', h'⟩

/-- The body of the loop over the memory map, but for the counter. -/
def Kernel.mapEntry (k : Kernel) (pml4 offset : Nat) (entry : MemmapEntry) : Kernel :=
  if entry.Mapped then
    k.vmmMapPagesPml4 pml4 entry.base ((entry.base + offset) % 2 ^ 64) (entry.length / 0x1000)
  else k

theorem mapMemmap_state (p offset : Nat) (entries : List MemmapEntry) (n : Nat) (k : Kernel) :
    (mapMemmap p offset entries n k).2 = entries.foldl (fun k e => k.mapEntry p offset e) k := by
  induction entries generalizing n k with
  | nil => rfl
  | cons e entries ih =>
    rw [mapMemmap, List.foldl_cons, Kernel.mapEntry]
    split
    · exact ih _ _
    · exact ih _ _

theorem mapEntry_later (k : Kernel) (p offset : Nat) (e : MemmapEntry) :
    Later k (k.mapEntry p offset e) := by
  rw [Kernel.mapEntry]
  split
  · exact vmmMapPagesPml4_later _ _ _ _ _
  · exact Later.refl k

theorem mapEntries_later (p offset : Nat) (entries : List MemmapEntry) (k : Kernel) :
    Later k (entries.foldl (fun k e => k.mapEntry p offset e) k) := by
  induction entries generalizing k with
  | nil => exact Later.refl k
  | cons e entries ih => exact (mapEntry_later k p offset e).trans (ih _)

/-- One entry. -/
theorem Laid.entry (h : Laid root croot F g C₀ es k T C) (hlow : ∀ q, q < 2 ^ 35 → ∀ a,
      PageTree.xlate C₀ q = some a → a = q * 0x1000)
    (htop : g.hhdm + (e.base + e.length) < 2 ^ 64)
    (hle : ∀ e' ∈ es, e'.base + e'.length ≤ e.base)
    (hs : (k.mapEntry (g.virt root) g.hhdm e).Supplied) :
    ∃ T' C', Laid root croot F g C₀ (es ++ [e]) (k.mapEntry (g.virt root) g.hhdm e) T' C' := by
  have hvirt : (e.base + g.hhdm) % 2 ^ 64 = g.virt e.base := by rw [Globals.virt]
  have hroot : g.virt root = k.virt root := by rw [h.globals]
  rw [Kernel.mapEntry, hvirt, hroot] at hs ⊢
  split
  · rename_i hm
    rw [if_pos hm] at hs
    by_cases hn : e.length / 0x1000 = 0
    · rw [hn] at hs ⊢
      obtain ⟨T', h'⟩ := h.short hlow htop hle hm hn hs
      exact ⟨T', C, h'⟩
    · exact h.range hlow htop hle hm (by omega) hs
  · rename_i hm
    exact ⟨T, C, h.skip hm⟩

/-- The loop over a memory map in ascending order. -/
theorem mapEntries_spec {entries : List MemmapEntry} (hlow : ∀ q, q < 2 ^ 35 → ∀ a,
      PageTree.xlate C₀ q = some a → a = q * 0x1000)
    (htop : ∀ e ∈ entries, g.hhdm + (e.base + e.length) < 2 ^ 64)
    (hsorted : (es ++ entries).Pairwise fun e e' => e.base + e.length ≤ e'.base)
    (h : Laid root croot F g C₀ es k T C)
    (hs : (entries.foldl (fun k e => k.mapEntry (g.virt root) g.hhdm e) k).Supplied) :
    ∃ T' C', Laid root croot F g C₀ (es ++ entries)
      (entries.foldl (fun k e => k.mapEntry (g.virt root) g.hhdm e) k) T' C' := by
  induction entries generalizing es k T C with
  | nil =>
    rw [List.append_nil]
    exact ⟨T, C, h⟩
  | cons e entries ih =>
    have hle : ∀ e' ∈ es, e'.base + e'.length ≤ e.base := fun e' he' =>
      (List.pairwise_append.mp hsorted).2.2 e' he' e List.mem_cons_self
    rw [List.append_cons] at hsorted ⊢
    rw [List.foldl_cons] at hs ⊢
    obtain ⟨T', C', h'⟩ := h.entry hlow (htop e List.mem_cons_self) hle
      ((mapEntries_later _ _ _ _).supplied hs)
    exact ih (fun e' he' => htop e' (List.mem_cons_of_mem _ he')) hsorted h' hs

/-! ## What it takes -/

/-- The frames an entry takes, at most. -/
def MemmapEntry.frames (offset : Nat) (e : MemmapEntry) : Nat :=
  if e.Mapped then
    4 + mapFrames (vpn ((e.base + offset) % 2 ^ 64)) (e.length / 0x1000) (e.length / 0x1000) 0
  else 0

theorem Laid.entry_stocked {m : Nat} (h : Laid root croot F g C₀ es k T C) (h0 : 0 ∉ F)
    (hlow : ∀ q, q < 2 ^ 35 → ∀ a, PageTree.xlate C₀ q = some a → a = q * 0x1000)
    (htop : g.hhdm + (e.base + e.length) < 2 ^ 64)
    (hle : ∀ e' ∈ es, e'.base + e'.length ≤ e.base) (hst : k.Stocked (m + e.frames g.hhdm)) :
    (k.mapEntry (g.virt root) g.hhdm e).Stocked m := by
  have hvirt : (e.base + g.hhdm) % 2 ^ 64 = g.virt e.base := by rw [Globals.virt]
  have hroot : g.virt root = k.virt root := by rw [h.globals]
  obtain ⟨hrange, _, hfit⟩ := h.room hlow htop
  rw [MemmapEntry.frames, hvirt] at hst
  rw [Kernel.mapEntry, hvirt, hroot]
  split
  · rename_i hm
    rw [if_pos hm] at hst
    exact vmmMapPagesPml4_stocked (fun _ => trivial) h.ready h.ready.returnable h0 hrange hfit
      (fun j hj _ => h.ahead htop hle (Nat.le_add_right _ j)
        (lt_of_lt_of_le (Nat.add_lt_add_left hj _) hrange))
      (h.ahead htop hle (Nat.le_refl _) (vpn_lt _)) rfl hst
  · rename_i hm
    rw [if_neg hm] at hst
    exact hst

theorem mapEntries_stocked {entries : List MemmapEntry} {m : Nat} (h0 : 0 ∉ F)
    (hlow : ∀ q, q < 2 ^ 35 → ∀ a, PageTree.xlate C₀ q = some a → a = q * 0x1000)
    (htop : ∀ e ∈ entries, g.hhdm + (e.base + e.length) < 2 ^ 64)
    (hsorted : (es ++ entries).Pairwise fun e e' => e.base + e.length ≤ e'.base)
    (h : Laid root croot F g C₀ es k T C)
    (hst : k.Stocked (m + (entries.map (·.frames g.hhdm)).sum)) :
    (entries.foldl (fun k e => k.mapEntry (g.virt root) g.hhdm e) k).Stocked m := by
  induction entries generalizing es k T C with
  | nil => exact hst
  | cons e entries ih =>
    have hle : ∀ e' ∈ es, e'.base + e'.length ≤ e.base := fun e' he' =>
      (List.pairwise_append.mp hsorted).2.2 e' he' e List.mem_cons_self
    have htope := htop e List.mem_cons_self
    rw [List.map_cons, List.sum_cons] at hst
    have hst' : (k.mapEntry (g.virt root) g.hhdm e).Stocked (m + (entries.map (·.frames g.hhdm)).sum) :=
      h.entry_stocked h0 hlow htope hle (hst.mono (by omega))
    obtain ⟨T', C', h'⟩ := h.entry hlow htope hle hst'.supplied
    rw [List.append_cons] at hsorted
    exact ih (fun e' he' => htop e' (List.mem_cons_of_mem _ he')) hsorted h' hst'

end Laid

end BambooOS
