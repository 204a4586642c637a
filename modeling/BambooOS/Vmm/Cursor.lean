import BambooOS.Vmm.Draw

/-!
# Vmm.Cursor

The four pointers `vmm_map_pages_pml4` keeps into the tree while it walks a range.

* `Down`: the pointers of a cursor are those of a page's tables, down to a depth.
* `pml4Step_spec` to `ptStep_spec`: what one level of preparation adds.
* `prepare_spec`: from any depth, the preparation of a page ends at its PT entry, which is then
  present; no other page changes its translation.
* `advance_spec`: the carries of the four indices lead to the next page, and to the depth from
  which its pointers are prepared anew.
-/

namespace BambooOS

open ByteMem Radix Kernel

/-! ## Pointers into the tree -/

/-- `p` points to the table `n` steps down the path of the page `q`. -/
def TableAt (g : Globals) (T : PageTree) (q n p : Nat) : Prop :=
  ∃ f, T.loc fmt.base (path q) n 4 = some (f, path q (3 - n)) ∧ p = g.virt f

/-- `p` points to the slot in that table. -/
def SlotAt (g : Globals) (T : PageTree) (q n p : Nat) : Prop :=
  ∃ f, T.loc fmt.base (path q) n 4 = some (f, path q (3 - n)) ∧
    p = g.virt f + 8 * (path q (3 - n)).val

structure Indices (c : MapCursor) (q : Nat) : Prop where
  pml4I : c.pml4I = (path q 3).val
  pdptI : c.pdptI = (path q 2).val
  pdI : c.pdI = (path q 1).val
  ptI : c.ptI = (path q 0).val

/-- The first `d` tables below the root, and the slots between them, are those of `q`. -/
def Down (g : Globals) (T : PageTree) (c : MapCursor) (q : Nat) : Nat → Prop
  | 0 => True
  | 1 => TableAt g T q 1 c.pdpt
  | 2 => TableAt g T q 1 c.pdpt ∧ SlotAt g T q 1 c.pdptEntry ∧ TableAt g T q 2 c.pd
  | _ => TableAt g T q 1 c.pdpt ∧ SlotAt g T q 1 c.pdptEntry ∧ TableAt g T q 2 c.pd ∧
      SlotAt g T q 2 c.pdEntry ∧ TableAt g T q 3 c.pt

section Pointers

variable {g : Globals} {T T' : PageTree} {c : MapCursor} {q r n d p : Nat}

theorem TableAt.slot (h : TableAt g T q n p) : SlotAt g T q n (p + 8 * (path q (3 - n)).val) := by
  obtain ⟨f, hl, rfl⟩ := h
  exact ⟨f, hl, rfl⟩

theorem TableAt.block (hn : n < 4) (h : TableAt g T q n p) (hb : SameBlock (4 - n) q r) :
    TableAt g T r n p := by
  obtain ⟨f, hl, rfl⟩ := h
  exact ⟨f, loc_congr hn hl hb, rfl⟩

theorem SlotAt.block (hn : n < 4) (h : SlotAt g T q n p) (hb : SameBlock (3 - n) q r) :
    SlotAt g T r n p := by
  obtain ⟨f, hl, rfl⟩ := h
  refine ⟨f, loc_congr hn hl fun j h₁ h₂ => hb j (by omega) h₂, ?_⟩
  rw [hb (3 - n) (Nat.le_refl _) (by omega)]

theorem TableAt.tree (h : TableAt g T q n p)
    (hl : T'.loc fmt.base (path q) n 4 = T.loc fmt.base (path q) n 4) : TableAt g T' q n p := by
  obtain ⟨f, hf, rfl⟩ := h
  exact ⟨f, hl.trans hf, rfl⟩

theorem SlotAt.tree (h : SlotAt g T q n p)
    (hl : T'.loc fmt.base (path q) n 4 = T.loc fmt.base (path q) n 4) : SlotAt g T' q n p := by
  obtain ⟨f, hf, rfl⟩ := h
  exact ⟨f, hl.trans hf, rfl⟩

theorem Down.block (hd : d ≤ 3) (h : Down g T c q d) (hb : SameBlock (4 - d) q r) :
    Down g T c r d := by
  have up : ∀ {l}, 4 - d ≤ l → SameBlock l q r := fun hl j h₁ h₂ => hb j (by omega) h₂
  rcases (by omega : d = 0 ∨ d = 1 ∨ d = 2 ∨ d = 3) with rfl | rfl | rfl | rfl
  · trivial
  · exact TableAt.block (by omega) h hb
  · obtain ⟨h₁, h₂, h₃⟩ := h
    exact ⟨h₁.block (by omega) (up (by omega)), h₂.block (by omega) (up (by omega)),
      h₃.block (by omega) hb⟩
  · obtain ⟨h₁, h₂, h₃, h₄, h₅⟩ := h
    exact ⟨h₁.block (by omega) (up (by omega)), h₂.block (by omega) (up (by omega)),
      h₃.block (by omega) (up (by omega)), h₄.block (by omega) (up (by omega)),
      h₅.block (by omega) hb⟩

theorem Down.tree (hd : d ≤ 3) (h : Down g T c q d)
    (hl : ∀ m, m ≤ d → T'.loc fmt.base (path q) m 4 = T.loc fmt.base (path q) m 4) :
    Down g T' c q d := by
  rcases (by omega : d = 0 ∨ d = 1 ∨ d = 2 ∨ d = 3) with rfl | rfl | rfl | rfl
  · trivial
  · exact TableAt.tree h (hl 1 (by omega))
  · obtain ⟨h₁, h₂, h₃⟩ := h
    exact ⟨h₁.tree (hl 1 (by omega)), h₂.tree (hl 1 (by omega)), h₃.tree (hl 2 (by omega))⟩
  · obtain ⟨h₁, h₂, h₃, h₄, h₅⟩ := h
    exact ⟨h₁.tree (hl 1 (by omega)), h₂.tree (hl 1 (by omega)), h₃.tree (hl 2 (by omega)),
      h₄.tree (hl 2 (by omega)), h₅.tree (hl 3 (by omega))⟩

end Pointers

/-! ## One level of preparation -/

/-- `T'` is `T` with the tables of `q` in place and its PT entry present: nothing else changed. -/
structure Entered (T : PageTree) (q : Nat) (T' : PageTree) : Prop where
  other : ∀ r, ¬ SameBlock 0 q r → PageTree.xlate T' r = PageTree.xlate T r
  same : ∀ r a, PageTree.xlate T r = some a → PageTree.xlate T' r = some a
  large : ∀ r l e, 1 ≤ l → T'.find (path r) 4 = some (l, e) → T.find (path r) 4 = some (l, e)
  entry : ∃ e, T'.get (path q) 4 4 = some (.leaf e)
  under : ∀ r m, m ≤ 4 → ¬ SameBlock (4 - m) q r → T'.under (path r) m 4 = T.under (path r) m 4

theorem Entered.of_deepened {T T' T'' : PageTree} {n q : Nat} (hs : Deepened n q T T')
    (h : Entered T' q T'') : Entered T q T'' where
  other r hr := (h.other r hr).trans (hs.xlate r)
  same r a ha := h.same r a ((hs.xlate r).trans ha)
  large r l e hl hf := hs.large r l e hl (h.large r l e hl hf)
  entry := h.entry
  under r m hm hb := (h.under r m hm hb).trans (hs.under r m hm fun h => hb h.2)

section Steps

variable {k : Kernel} {root q : Nat} {T : PageTree} {c : MapCursor}

theorem not_large_get {n : Nat} (hn : n < 4) (h : ¬ PageTree.Large T q) (e : Nat) :
    T.get (path q) n 4 ≠ some (.leaf e) := by
  intro hg
  apply h
  refine ⟨4 - n, e, by omega, ?_⟩
  rw [Tree.find_of_get (by omega) hg fun _ _ _ => rfl]
  rfl

theorem not_large_split {T' : PageTree} (h : ¬ PageTree.Large T q) (hs : Split T T') :
    ¬ PageTree.Large T' q := fun ⟨l, e, hl, hf⟩ => h ⟨l, e, hl, hs.large q l e hl hf⟩

/-- Every table over `q` in `T'` is one in `T`, or among the frames `G` if `T` had no PT. -/
def Inherits (G : Set Nat) (q : Nat) (T T' : PageTree) : Prop :=
  ∀ m f i, m ≤ 3 → T'.loc fmt.base (path q) m 4 = some (f, i) →
    T.loc fmt.base (path q) m 4 = some (f, i) ∨ f ∈ G ∧ (T.under (path q) 3 4).isNone

theorem enter_table {n p : Nat} (h : Owned k root T) (hn : n < 3) (hp : SlotAt k.toGlobals T q n p)
    (hlarge : ¬ PageTree.Large T q) (hs : (k.ensureEntry p).Supplied) :
    ∃ T', Step root k T (k.ensureEntry p) T' ∧ Deepened n q T T' ∧ Inherits k.Free q T T' ∧
      Drew (T.under (path q) (n + 1) 4).isNone.toNat k (k.ensureEntry p) ∧
      (∀ m, m ≤ n → T'.loc fmt.base (path q) m 4 = T.loc fmt.base (path q) m 4) ∧
      TableAt k.toGlobals T' q (n + 1) ((k.ensureEntry p).tableOf p) := by
  obtain ⟨f, hl, rfl⟩ := hp
  obtain ⟨T', f', hst, hsp, hlocs, hl', hto, _, hold⟩ :=
    enter_spec h hn hl (not_large_get (by omega) hlarge) hs
  refine ⟨T', hst, hsp, fun m x j hm hx => ?_, ensureEntry_drew h (by omega) hl hs, hlocs, f',
    by rw [hl']; congr 3; omega, hto⟩
  rcases (by omega : m ≤ n ∨ m = n + 1 ∨ n + 1 < m) with hle | rfl | hlt
  · exact .inl (hlocs m hle ▸ hx)
  · rw [hl'] at hx
    cases hx
    exact hold
  · rw [Tree.loc_under, hsp.under q m (by omega) fun h => by omega, ← Tree.loc_under] at hx
    exact .inl hx

theorem pml4Step_spec (h : Owned k root T) (hi : Indices c q) (hlarge : ¬ PageTree.Large T q)
    (hs : (pml4Step (k.virt root) c k).2.Supplied) :
    ∃ T', Step root k T (pml4Step (k.virt root) c k).2 T' ∧ Deepened 0 q T T' ∧
      Inherits k.Free q T T' ∧ Drew (T.under (path q) 1 4).isNone.toNat k (pml4Step (k.virt root) c k).2 ∧
      Down (pml4Step (k.virt root) c k).2.toGlobals T' (pml4Step (k.virt root) c k).1 q 1 := by
  simp only [pml4Step, hi.pml4I] at hs ⊢
  have hp : SlotAt k.toGlobals T q 0 (k.virt root + 8 * (path q 3).val) :=
    ⟨root, h.stored.loc_zero q, rfl⟩
  obtain ⟨T', hst, hsp, hin, hdr, _, ht⟩ := enter_table h (by omega) hp hlarge hs
  rw [hst.within.globals]
  exact ⟨T', hst, hsp, hin, hdr, ht⟩

theorem pdptStep_spec (h : Owned k root T) (hi : Indices c q) (hlarge : ¬ PageTree.Large T q)
    (hd : Down k.toGlobals T c q 1) (hs : (pdptStep c k).2.Supplied) :
    ∃ T', Step root k T (pdptStep c k).2 T' ∧ Deepened 1 q T T' ∧
      Inherits k.Free q T T' ∧ Drew (T.under (path q) 2 4).isNone.toNat k (pdptStep c k).2 ∧
      Down (pdptStep c k).2.toGlobals T' (pdptStep c k).1 q 2 := by
  simp only [pdptStep, hi.pdptI] at hs ⊢
  have hp := TableAt.slot hd
  obtain ⟨T', hst, hsp, hin, hdr, hlocs, ht⟩ := enter_table h (by omega) hp hlarge hs
  rw [hst.within.globals]
  exact ⟨T', hst, hsp, hin, hdr, hd.tree (by omega) hlocs, hp.tree (hlocs 1 (by omega)), ht⟩

theorem pdStep_spec (h : Owned k root T) (hi : Indices c q) (hlarge : ¬ PageTree.Large T q)
    (hd : Down k.toGlobals T c q 2) (hs : (pdStep c k).2.Supplied) :
    ∃ T', Step root k T (pdStep c k).2 T' ∧ Deepened 2 q T T' ∧
      Inherits k.Free q T T' ∧ Drew (T.under (path q) 3 4).isNone.toNat k (pdStep c k).2 ∧
      Down (pdStep c k).2.toGlobals T' (pdStep c k).1 q 3 := by
  simp only [pdStep, hi.pdI] at hs ⊢
  obtain ⟨h₁, h₂, h₃⟩ := hd
  have hp := h₃.slot
  obtain ⟨T', hst, hsp, hin, hdr, hlocs, ht⟩ := enter_table h (by omega) hp hlarge hs
  rw [hst.within.globals]
  exact ⟨T', hst, hsp, hin, hdr, h₁.tree (hlocs 1 (by omega)), h₂.tree (hlocs 1 (by omega)),
    h₃.tree (hlocs 2 (by omega)), hp.tree (hlocs 2 (by omega)), ht⟩

/-- The PT entry of the page: a missing one gets a frame, which stays outside the tree. -/
theorem ptStep_spec (h : Owned k root T) (hi : Indices c q) (hd : Down k.toGlobals T c q 3)
    (hs : (ptStep c k).2.Supplied) :
    ∃ T', Step root k T (ptStep c k).2 T' ∧ Entered T q T' ∧ Inherits k.Free q T T' ∧
      Drew (T.under (path q) 4 4).isNone.toNat k (ptStep c k).2 ∧
      (∀ a, PageTree.xlate T' q = some a → PageTree.xlate T q = some a ∨ a ∈ k.Free) ∧
      Down (ptStep c k).2.toGlobals T' (ptStep c k).1 q 3 ∧
      SlotAt (ptStep c k).2.toGlobals T' q 3 (ptStep c k).1.ptEntry := by
  simp only [ptStep, hi.ptI] at hs ⊢
  have hp : SlotAt k.toGlobals T q 3 (c.pt + 8 * (path q 0).val) := TableAt.slot hd.2.2.2.2
  obtain ⟨f, hl, hpf⟩ := hp
  rw [hpf] at hs ⊢
  obtain ⟨hal, hlt, hfree, hbit⟩ := h.frame hl
  have hdr := ensureEntry_drew h (by omega) hl hs
  rcases h.stored.slot_cases (by omega) hl with ⟨hg, hv⟩ | ⟨e, hg, hv, hpr, _⟩ |
    ⟨e, sub, _, _, _, hn, _⟩
  · obtain ⟨g, hgr, _⟩ := ensureEntry_grown h.ok h.held hlt hal hfree hbit _ hv hs
    have hgf := free_lt h.ok.toPmmOk hgr.mem_free
    have hst := h.grow (u := .leaf (freshEntry g)) hl hg hgr
      ⟨rfl, present_fresh g, .inl (by omega)⟩ trivial (Set.empty_subset _)
    have hup := updated_leaf (v := freshEntry g) (Split.refl T) hg
    have hlocs : ∀ m, m ≤ 3 → (T.put (path q) 4 4 (.leaf (freshEntry g))).loc fmt.base (path q) m 4 =
        T.loc fmt.base (path q) m 4 := fun m hm => Tree.loc_put (by omega) hg
    rw [hgr.within.globals]
    refine ⟨_, hst, ⟨?_, ?_, hup.large, ⟨_, Tree.get_put hg⟩, fun r m hm hb => ?_⟩,
      fun m x j hm hx => .inl (hlocs m hm ▸ hx), hdr, ?_, hd.tree (by omega) hlocs, f, (hlocs 3 (by omega)).trans hl, rfl⟩
    · intro r hr
      rw [hup.xlate, if_neg hr]
    · intro r a ha
      rw [hup.xlate]
      split
      · rename_i hb
        rw [xlate_of_get (by omega) hg hb] at ha
        cases ha
      · exact ha
    · exact under_put_other (by omega) hm (fun h => hb fun j _ => h j (by omega)) hb
    · intro a ha
      rw [hup.xlate, if_pos (SameBlock.refl 0 q), getAddress_fresh,
        getAddress_of_aligned (free_aligned h.ok.toPmmOk hgr.mem_free) (by omega)] at ha
      cases ha
      exact .inr hgr.mem_free
  · rw [ensureEntry_present h.ok hlt (hv ▸ hpr)] at hdr ⊢
    exact ⟨T, Step.refl h, ⟨fun _ _ => rfl, fun _ _ ha => ha, fun _ _ _ _ hf => hf, ⟨e, hg⟩,
      fun _ _ _ _ => rfl⟩, fun _ _ _ _ hx => .inl hx, hdr, fun _ ha => .inl ha, hd, f, hl, rfl⟩
  · omega

end Steps

/-! ## The whole preparation -/

/-- From depth `d` on, the entries of the cursor's page and their tables. -/
def prepare (pPml4 : Nat) : Nat → MapCursor → Kernel → MapCursor × Kernel
  | 0, c, k =>
    let (c, k) := pml4Step pPml4 c k
    let (c, k) := pdptStep c k
    let (c, k) := pdStep c k
    ptStep c k
  | 1, c, k =>
    let (c, k) := pdptStep c k
    let (c, k) := pdStep c k
    ptStep c k
  | 2, c, k =>
    let (c, k) := pdStep c k
    ptStep c k
  | _, c, k => ptStep c k

/-- The state `k'` and cursor `c'` are ready to set the leaf of the page `q`, whose tables were in
place down to depth `d`. -/
structure Prepared (d root : Nat) (k : Kernel) (T : PageTree) (c : MapCursor) (q : Nat)
    (c' : MapCursor) (k' : Kernel) (T' : PageTree) : Prop where
  step : Step root k T k' T'
  entered : Entered T q T'
  inherits : Inherits k.Free q T T'
  drew : Drew (T.missing q d) k k'
  fresh : ∀ a, PageTree.xlate T' q = some a → PageTree.xlate T q = some a ∨ a ∈ k.Free
  down : Down k'.toGlobals T' c' q 3
  slot : SlotAt k'.toGlobals T' q 3 c'.ptEntry
  indices : Indices c' q
  i : c'.i = c.i
  phys : c'.currentPhys = c.currentPhys

section Prepare

variable {k : Kernel} {root q : Nat} {T : PageTree} {c : MapCursor}

theorem Prepared.of_step {d : Nat} {k₁ k' : Kernel} {T₁ T' : PageTree} {c₁ c' : MapCursor}
    (h : Prepared (d + 1) root k₁ T₁ c₁ q c' k' T') (hd : d < 3) (hst : Step root k T k₁ T₁)
    (hsp : Deepened d q T T₁) (hin : Inherits k.Free q T T₁) (hdr : Drew (T.under (path q) (d + 1) 4).isNone.toNat k k₁)
    (hi : c₁.i = c.i) (hp : c₁.currentPhys = c.currentPhys) : Prepared d root k T c q c' k' T' where
  step := hst.trans h.step
  entered := Entered.of_deepened hsp h.entered
  inherits m f i hm hf := by
    cases h.inherits m f i hm hf with
    | inl hf => exact hin m f i hm hf
    | inr hf => exact .inr ⟨hst.free hf.1, hsp.lacks hf.2⟩
  drew := by
    have hrest := h.drew
    rw [missing_deepened hsp] at hrest
    rw [missing_step T q (by omega)]
    exact hdr.trans hrest
  fresh a ha := (h.fresh a ha).imp (fun ha => (hsp.xlate q).symm.trans ha) fun ha => hst.free ha
  down := h.down
  slot := h.slot
  indices := h.indices
  i := h.i.trans hi
  phys := h.phys.trans hp

theorem ptStep_prepared (h : Owned k root T) (hi : Indices c q) (hd : Down k.toGlobals T c q 3)
    (hs : (ptStep c k).2.Supplied) :
    ∃ T', Prepared 3 root k T c q (ptStep c k).1 (ptStep c k).2 T' := by
  obtain ⟨T', hst, hen, hin, hdr, hfresh, hdown, hslot⟩ := ptStep_spec h hi hd hs
  refine ⟨T', hst, hen, hin, ?_, hfresh, hdown, hslot, ⟨hi.pml4I, hi.pdptI, hi.pdI, hi.ptI⟩, rfl, rfl⟩
  rwa [missing_step T q (by omega), PageTree.missing, List.countP_eq_zero.mpr (by simp)]

theorem pdStep_prepared (h : Owned k root T) (hi : Indices c q) (hlarge : ¬ PageTree.Large T q)
    (hd : Down k.toGlobals T c q 2) (p : Nat) (hs : (prepare p 2 c k).2.Supplied) :
    ∃ T', Prepared 2 root k T c q (prepare p 2 c k).1 (prepare p 2 c k).2 T' := by
  change (ptStep (pdStep c k).1 (pdStep c k).2).2.Supplied at hs
  obtain ⟨T₁, hst, hsp, hin, hdr, hd₁⟩ := pdStep_spec h hi hlarge hd ((ensureEntry_later _ _).supplied hs)
  have hi₁ : Indices (pdStep c k).1 q := ⟨hi.pml4I, hi.pdptI, hi.pdI, hi.ptI⟩
  obtain ⟨T', hT'⟩ := ptStep_prepared hst.owned hi₁ hd₁ hs
  exact ⟨T', hT'.of_step (by omega) hst hsp hin hdr rfl rfl⟩

theorem prepare_later (p d : Nat) (c : MapCursor) (k : Kernel) : Later k (prepare p d c k).2 := by
  have hlast : ∀ c k, Later k (ptStep c k).2 := fun c k => ensureEntry_later _ _
  have hpd : ∀ c k, Later k (prepare p 2 c k).2 := fun c k => (ensureEntry_later _ _).trans (hlast _ _)
  have hpdpt : ∀ c k, Later k (prepare p 1 c k).2 :=
    fun c k => (ensureEntry_later _ _).trans (hpd _ _)
  rcases d with _ | _ | _ | d
  · exact (ensureEntry_later _ _).trans (hpdpt _ _)
  · exact hpdpt _ _
  · exact hpd _ _
  · exact hlast _ _

theorem pdptStep_prepared (h : Owned k root T) (hi : Indices c q) (hlarge : ¬ PageTree.Large T q)
    (hd : Down k.toGlobals T c q 1) (p : Nat) (hs : (prepare p 1 c k).2.Supplied) :
    ∃ T', Prepared 1 root k T c q (prepare p 1 c k).1 (prepare p 1 c k).2 T' := by
  change (prepare p 2 (pdptStep c k).1 (pdptStep c k).2).2.Supplied at hs
  obtain ⟨T₁, hst, hsp, hin, hdr, hd₁⟩ := pdptStep_spec h hi hlarge hd ((prepare_later p 2 _ _).supplied hs)
  have hi₁ : Indices (pdptStep c k).1 q := ⟨hi.pml4I, hi.pdptI, hi.pdI, hi.ptI⟩
  obtain ⟨T', hT'⟩ := pdStep_prepared hst.owned hi₁ (not_large_split hlarge hsp.toSplit) hd₁ p hs
  exact ⟨T', hT'.of_step (by omega) hst hsp hin hdr rfl rfl⟩

theorem pml4Step_prepared (h : Owned k root T) (hi : Indices c q) (hlarge : ¬ PageTree.Large T q)
    (hs : (prepare (k.virt root) 0 c k).2.Supplied) :
    ∃ T', Prepared 0 root k T c q (prepare (k.virt root) 0 c k).1 (prepare (k.virt root) 0 c k).2
      T' := by
  change (prepare (k.virt root) 1 (pml4Step (k.virt root) c k).1
    (pml4Step (k.virt root) c k).2).2.Supplied at hs
  obtain ⟨T₁, hst, hsp, hin, hdr, hd₁⟩ := pml4Step_spec h hi hlarge ((prepare_later _ 1 _ _).supplied hs)
  have hi₁ : Indices (pml4Step (k.virt root) c k).1 q := ⟨hi.pml4I, hi.pdptI, hi.pdI, hi.ptI⟩
  obtain ⟨T', hT'⟩ := pdptStep_prepared hst.owned hi₁ (not_large_split hlarge hsp.toSplit) hd₁ _ hs
  exact ⟨T', hT'.of_step (by omega) hst hsp hin hdr rfl rfl⟩

/-- From the pointers of depth `d` to a present PT entry. -/
theorem prepare_spec {d : Nat} (hd3 : d ≤ 3) (h : Owned k root T) (hi : Indices c q)
    (hlarge : ¬ PageTree.Large T q) (hd : Down k.toGlobals T c q d)
    (hs : (prepare (k.virt root) d c k).2.Supplied) :
    ∃ T', Prepared d root k T c q (prepare (k.virt root) d c k).1 (prepare (k.virt root) d c k).2
      T' := by
  rcases (by omega : d = 0 ∨ d = 1 ∨ d = 2 ∨ d = 3) with rfl | rfl | rfl | rfl
  · exact pml4Step_prepared h hi hlarge hs
  · exact pdptStep_prepared h hi hlarge hd _ hs
  · exact pdStep_prepared h hi hlarge hd _ hs
  · exact ptStep_prepared h hi hd hs

end Prepare

/-! ## The next page -/

/-- The cursor after a leaf of `512 ^ m` pages. -/
def leap (m : Nat) (c : MapCursor) : MapCursor :=
  match m with
  | 0 => { c with ptI := c.ptI + 1, currentPhys := (c.currentPhys + 0x1000) % 2 ^ 64 }
  | 1 => { c with ptI := c.ptI + 512, i := c.i + (512 - 1)
                  currentPhys := (c.currentPhys + 0x1000 * 512) % 2 ^ 64 }
  | _ => { c with ptI := c.ptI + 512, pdI := c.pdI + 512, i := c.i + (512 * 512 - 1)
                  currentPhys := (c.currentPhys + 0x1000 * 512 * 512) % 2 ^ 64 }

section Next

variable {g : Globals} {T : PageTree} {c : MapCursor} {q r d : Nat} (p : Nat) (k : Kernel)

theorem nextEntry_pt (h : c.ptI ≤ 511) : nextEntry p c k = some (prepare p 3 c k) := by
  rw [nextEntry, if_neg (by omega)]
  rfl

theorem nextEntry_pd (h : c.ptI > 511) (h₁ : c.pdI + 1 ≤ 511) :
    nextEntry p c k = some (prepare p 2 { c with ptI := 0, pdI := c.pdI + 1 } k) := by
  rw [nextEntry, if_pos h]
  simp only []
  rw [if_neg (by omega)]
  rfl

theorem nextEntry_pdpt (h : c.ptI > 511) (h₁ : c.pdI + 1 > 511) (h₂ : c.pdptI + 1 ≤ 511) :
    nextEntry p c k = some (prepare p 1 { c with ptI := 0, pdI := 0, pdptI := c.pdptI + 1 } k) := by
  rw [nextEntry, if_pos h]
  simp only []
  rw [if_pos h₁, if_neg (by omega)]
  rfl

theorem nextEntry_pml4 (h : c.ptI > 511) (h₁ : c.pdI + 1 > 511) (h₂ : c.pdptI + 1 > 511)
    (h₃ : c.pml4I + 1 ≤ 511) : nextEntry p c k =
      some (prepare p 0 { c with ptI := 0, pdI := 0, pdptI := 0, pml4I := c.pml4I + 1 } k) := by
  rw [nextEntry, if_pos h]
  simp only []
  rw [if_pos h₁, if_pos h₂, if_neg (by omega)]
  rfl

theorem sameBlock_of_div {l : Nat} (hl : l ≤ 4) (h : r / 512 ^ l = q / 512 ^ l) :
    SameBlock l q r := (sameBlock_iff hl).mpr (by rw [h])

theorem Down.mono {d' : Nat} (hd : d ≤ d') (hd' : d' ≤ 3) (h : Down g T c q d') : Down g T c q d := by
  rcases (by omega : d' = d ∨ d < d') with rfl | hlt
  · exact h
  rcases (by omega : d = 0 ∨ d = 1 ∨ d = 2) with rfl | rfl | rfl
  · trivial
  · rcases (by omega : d' = 2 ∨ d' = 3) with rfl | rfl
    · exact h.1
    · exact h.1
  · obtain rfl : d' = 3 := by omega
    exact ⟨h.1, h.2.1, h.2.2.1⟩

/-- The cursor `c'` is at the page `r`, with pointers down to depth `d`, and has made no other step
since `c`. Below that depth, and not above, `r` is the first page of its tables. -/
structure Moved (g : Globals) (T : PageTree) (c c' : MapCursor) (r d : Nat) : Prop where
  depth : d ≤ 3
  opens : r % 512 ^ (3 - d) = 0
  shared : 0 < d → r % 512 ^ (4 - d) ≠ 0
  indices : Indices c' r
  down : Down g T c' r d
  i : c'.i = c.i
  phys : c'.currentPhys = c.currentPhys

theorem indices_of {c' : MapCursor} (e₃ : c'.pml4I = r / 134217728 % 512)
    (e₂ : c'.pdptI = r / 262144 % 512) (e₁ : c'.pdI = r / 512 % 512) (e₀ : c'.ptI = r % 512) :
    Indices c' r := by
  constructor <;> simp only [path_val] <;> norm_num <;> assumption

/-- Where a leaf of `s` pages from `q` on leaves the indices, and the depth `d` of the pointers it
has not replaced. -/
structure Leapt (e : MapCursor) (q s d : Nat) : Prop where
  low : (s = 1 ∧ d = 3 ∧ e.ptI = q % 512 + 1 ∧ e.pdI = q / 512 % 512) ∨
    (s = 512 ∧ d = 2 ∧ q % 512 = 0 ∧ e.ptI = 512 ∧ e.pdI = q / 512 % 512) ∨
    (s = 262144 ∧ d = 1 ∧ q % 262144 = 0 ∧ e.ptI = 512 ∧ e.pdI = 512)
  pdptI : e.pdptI = q / 262144 % 512
  pml4I : e.pml4I = q / 134217728 % 512

theorem leap_leapt {m : Nat} (hm : m ≤ 2) (hi : Indices c q) (hq : q % 512 ^ m = 0) :
    Leapt (leap m c) q (512 ^ m) (3 - m) := by
  obtain ⟨h₃, h₂, h₁, h₀⟩ := hi
  simp only [path_val] at h₃ h₂ h₁ h₀
  norm_num at h₃ h₂ h₁ h₀
  rcases (by omega : m = 0 ∨ m = 1 ∨ m = 2) with rfl | rfl | rfl
  · exact ⟨.inl ⟨rfl, rfl, congrArg (· + 1) h₀, h₁⟩, h₂, h₃⟩
  · norm_num at hq
    exact ⟨.inr (.inl ⟨rfl, rfl, hq, by simp only [leap]; omega, h₁⟩), h₂, h₃⟩
  · norm_num at hq
    exact ⟨.inr (.inr ⟨by norm_num, rfl, hq, by simp only [leap]; omega,
      by simp only [leap]; omega⟩), h₂, h₃⟩

/-- The cursor `c'` names the page `s` behind `q`; otherwise it is `e`. The two pages share their
tables down to depth `d`. -/
structure Carried (e c' : MapCursor) (q s d : Nat) : Prop where
  indices : Indices c' (q + s)
  i : c'.i = e.i
  phys : c'.currentPhys = e.currentPhys
  opens : (q + s) % 512 ^ (3 - d) = 0
  shared : 0 < d → (q + s) % 512 ^ (4 - d) ≠ 0
  block : (q + s) / 512 ^ (4 - d) = q / 512 ^ (4 - d)
  pointers : ∀ g T, Down g T e q d → Down g T c' q d

/-- The carries of the indices. They stop at the depth whose table still holds the next page. -/
theorem Leapt.next {e : MapCursor} {s : Nat} (h : Leapt e q s d) (hr : q + s < 2 ^ 36) :
    ∃ d' c', d' ≤ d ∧ Carried e c' q s d' ∧ ∀ k, nextEntry p e k = some (prepare p d' c' k) := by
  obtain ⟨hlow, h₂, h₃⟩ := h
  by_cases hc₀ : e.ptI ≤ 511
  · refine ⟨3, e, by omega, ⟨indices_of ?_ ?_ ?_ ?_, rfl, rfl, by norm_num [Nat.mod_one],
      fun _ => by norm_num; omega, by norm_num; omega, fun _ _ h => h⟩, fun k => nextEntry_pt p k hc₀⟩ <;> omega
  by_cases hc₁ : e.pdI + 1 ≤ 511
  · let c' : MapCursor := { e with ptI := 0, pdI := e.pdI + 1 }
    refine ⟨2, c', by omega, ⟨indices_of ?_ ?_ ?_ ?_, rfl, rfl, by norm_num; omega,
      fun _ => by norm_num; omega, by norm_num; omega, fun _ _ h => h⟩, fun k => nextEntry_pd p k (by omega) hc₁⟩ <;> simp only [c'] <;> omega
  by_cases hc₂ : e.pdptI + 1 ≤ 511
  · let c' : MapCursor := { e with ptI := 0, pdI := 0, pdptI := e.pdptI + 1 }
    refine ⟨1, c', by omega, ⟨indices_of ?_ ?_ ?_ ?_, rfl, rfl, by norm_num; omega,
      fun _ => by norm_num; omega, by norm_num; omega, fun _ _ h => h⟩, fun k => nextEntry_pdpt p k (by omega) (by omega) hc₂⟩ <;>
      simp only [c'] <;> omega
  · let c' : MapCursor := { e with ptI := 0, pdI := 0, pdptI := 0, pml4I := e.pml4I + 1 }
    refine ⟨0, c', by omega, ⟨indices_of ?_ ?_ ?_ ?_, rfl, rfl, by norm_num; omega,
      fun _ => by norm_num; omega, by norm_num; omega, fun _ _ h => h⟩, fun k => nextEntry_pml4 p k (by omega) (by omega) (by omega) (by omega)⟩ <;>
      simp only [c'] <;> omega

/-- Past the last page the source gives up. -/
theorem Leapt.stop {e : MapCursor} {s : Nat} (h : Leapt e q s d) (hq : q < 2 ^ 36)
    (hr : 2 ^ 36 ≤ q + s) : nextEntry p e k = none := by
  obtain ⟨hlow, h₂, h₃⟩ := h
  rw [nextEntry, if_pos (by omega)]
  simp only []
  rw [if_pos (by omega), if_pos (by omega), if_pos (by omega)]

/-- The page after a leaf of `512 ^ m` pages. -/
theorem advance_spec {m : Nat} (hm : m ≤ 2) (hi : Indices c q) (hq : q % 512 ^ m = 0)
    (hr : q + 512 ^ m < 2 ^ 36) (hd : Down g T c q (3 - m)) :
    ∃ d c', Moved g T (leap m c) c' (q + 512 ^ m) d ∧
      ∀ k, nextEntry p (leap m c) k = some (prepare p d c' k) := by
  obtain ⟨d, c', hle, hcar, hnext⟩ := (leap_leapt hm hi hq).next p hr
  have hdl : Down g T (leap m c) q (3 - m) := by
    rcases (by omega : m = 0 ∨ m = 1 ∨ m = 2) with rfl | rfl | rfl <;> exact hd
  have hdown := hcar.pointers g T (hdl.mono hle (by omega))
  exact ⟨d, c', ⟨by omega, hcar.opens, hcar.shared, hcar.indices, hdown.block (by omega) (sameBlock_of_div (by omega) hcar.block),
    hcar.i, hcar.phys⟩, hnext⟩

end Next

end BambooOS
