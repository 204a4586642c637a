import BambooOS.Vmm.Cursor
import BambooOS.Vmm.Free

/-!
# Vmm.Leaf

One leaf of `vmm_map_pages_pml4`: a PT entry written, or a table freed and its entry made a large
leaf. The tree at `p_pml4` and the current tree change together.

* `Ready`, `Move`: the two trees beside each other, and what any part of a run does to memory.
* `Ready.large`: tables given back below an entry, and the entry overwritten.
* `mapLeaf_spec`: the leaf the loop chooses, its size `512 ^ m`, and the cursor after it.
-/

namespace BambooOS

open ByteMem Radix Kernel

/-- The tree `T` at `root` beside the current tree `C`. If tables are given back (`P`), the current
tree is a window of the frames `W`; the tree's own and the free ones are in `F`. -/
structure Ready (root croot : Nat) (W F : Set Nat) (P : Prop) (k : Kernel) (T C : PageTree) :
    Prop where
  tree : Owned k root T
  current : Owned k croot C
  apart : Disjoint (T.frames fmt.base) (C.frames fmt.base)
  pml4 : k.pml4 = k.virt croot
  window : P → Window k.toGlobals C W
  window_sub : W ⊆ F
  frames : T.frames fmt.base ∪ k.Free ⊆ F
  aligned : ∀ x ∈ F, x % 0x1000 = 0

/-- The frames a run on the two trees may write. -/
def Pool (k : Kernel) (T C : PageTree) : Set Nat :=
  T.frames fmt.base ∪ PageTree.Territory C k

/-- A run turned the trees `T` and `C` of `k` into `T'` and `C'` of `k'`. -/
structure Move (k : Kernel) (T C : PageTree) (k' : Kernel) (T' C' : PageTree) : Prop where
  within : Within (Pool k T C) k k'
  pool : Pool k' T' C' ⊆ Pool k T C
  same : ∀ r, PageTree.xlate C' r = PageTree.xlate C r

section Ready

variable {root croot : Nat} {W F : Set Nat} {P : Prop} {k k' k'' : Kernel} {T T' T'' C C' C'' : PageTree}

theorem Move.refl (k : Kernel) (T C : PageTree) : Move k T C k T C :=
  ⟨Within.refl _ _, Set.Subset.rfl, fun _ => rfl⟩

theorem Move.trans (h : Move k T C k' T' C') (h' : Move k' T' C' k'' T'' C'') :
    Move k T C k'' T'' C'' :=
  ⟨h.within.trans (h'.within.mono h.pool), h'.pool.trans h.pool,
    fun r => (h'.same r).trans (h.same r)⟩

theorem Ready.step (h : Ready root croot W F P k T C) (hst : Step root k T k' T') :
    Ready root croot W F P k' T' C ∧ Move k T C k' T' C := by
  obtain ⟨hcur, hap⟩ := h.current.other h.apart.symm hst
  refine ⟨⟨hst.owned, hcur, hap.symm, ?_, ?_, h.window_sub, hst.sub.trans h.frames, h.aligned⟩,
    hst.within.mono ?_, ?_, fun _ => rfl⟩
  · rw [hst.within.globals]; exact h.pml4
  · rw [hst.within.globals]; exact h.window
  · rintro x ((hx | hx) | hx)
    · exact .inl hx
    · exact .inr (.inl (.inr hx))
    · exact .inr (.inr hx)
  · rintro x (hx | (hx | hx) | hx)
    · rcases hst.frames hx with hx | hx
      · exact .inl hx
      · exact .inr (.inl (.inr hx))
    · exact .inr (.inl (.inl hx))
    · exact .inr (.inl (.inr (hst.free hx)))
    · rw [hst.within.globals] at hx
      exact .inr (.inr hx)

end Ready

/-! ## A large leaf -/

section Large

variable {root croot f n q : Nat} {i : Fin 512} {W F G : Set Nat} {P : Prop} {k k₂ : Kernel}
  {T C C₂ t : PageTree}

theorem setLarge_wrote (hk : k.hhdm < 2 ^ 64) (hf : f < 2 ^ 52) (hal : f % 0x1000 = 0)
    (phys : Nat) : Wrote k f i (vmmPtEntrySetAddress (k.rd f i ||| ptEntryLargerPages) phys)
      (k.setLarge (k.virt f + 8 * i.val) phys) := by
  rw [setLarge]
  have hw : Wrote k f i (k.rd f i ||| ptEntryLargerPages)
      (k.orEntry (k.virt f + 8 * i.val) ptEntryLargerPages) := orEntry_wrote hk hf hal (by decide)
  generalize k.orEntry (k.virt f + 8 * i.val) ptEntryLargerPages = k₁ at hw ⊢
  have hk₁ : k₁.hhdm < 2 ^ 64 := by rw [hw.within.globals]; exact hk
  have hvirt : k.virt = k₁.virt := (congrArg Globals.virt hw.within.globals).symm
  rw [hvirt, ld64_slot hk₁ hf, hw.slot]
  exact hw.trans (st64_wrote hk₁ hf hal (setAddress_lt _ _))

/-- The tables `G` below an entry were given back; the entry becomes a large leaf. In between, the
current tree may have taken them. -/
theorem Ready.large (h : Ready root croot W F P k T C) (hn : n = 1 ∨ n = 2)
    (hl : T.loc fmt.base (path q) n 4 = some (f, i)) (hg : T.get (path q) (n + 1) 4 = some t)
    (hG : G ⊆ t.frames fmt.base) (hfr : Freed croot G W k C k₂ C₂)
    (hp : Present (k.rd f i)) {v : Nat} {k₃ : Kernel}
    (hw : Wrote k₂ f i (vmmPtEntrySetAddress (k₂.rd f i ||| ptEntryLargerPages) v) k₃) :
    ∃ e, vmmPtEntryGetAddress e = vmmPtEntryGetAddress v ∧
      Ready root croot W F P k₃ (T.put (path q) (n + 1) 4 (.leaf e)) C₂ ∧
      Move k T C k₃ (T.put (path q) (n + 1) 4 (.leaf e)) C₂ := by
  obtain ⟨hal, hlt, hnf, hnb⟩ := h.tree.frame hl
  let R := (T.put (path q) (n + 1) 4 .none).frames fmt.base
  have hfR : f ∈ R := Tree.loc_frame_mem hl
  have hRT : R ⊆ T.frames fmt.base := rest_subset hg
  have htT : t.frames fmt.base ⊆ T.frames fmt.base := by
    rw [Tree.frames_get (b := fmt.base) hg]
    exact Set.subset_union_right
  have hRt : Disjoint (t.frames fmt.base) R := (h.tree.stored.sep.disjoint_get hg).2
  -- the rest of the tree is out of reach of the freeing
  have hRG : ∀ x ∈ R, x ∉ G ∪ PageTree.Territory C k := by
    rintro x hx (hx' | (hx' | hx') | hx')
    · exact Set.disjoint_left.mp hRt (hG hx') hx
    · exact Set.disjoint_left.mp h.apart (hRT hx) hx'
    · exact Set.disjoint_left.mp h.tree.free (hRT hx) hx'
    · exact Set.disjoint_left.mp h.tree.bitmap (hRT hx) hx'
  have hRC : ∀ x ∈ R, x ∉ C₂.frames fmt.base := by
    intro x hx hx'
    rcases hfr.frames hx' with h' | h' | h'
    · exact hRG x hx (.inl h')
    · exact hRG x hx (.inr (.inl (.inl h')))
    · exact hRG x hx (.inr (.inl (.inr h')))
  have hRF : ∀ x ∈ R, x ∉ k₂.Free := by
    intro x hx hx'
    rcases hfr.free hx' with h' | h'
    · exact hRG x hx (.inl h')
    · exact hRG x hx (.inr (.inl (.inr h')))
  have hg₂ := hfr.within.globals
  have hg₃ : k₃.toGlobals = k.toGlobals := hw.within.globals.trans hg₂
  have hk₂ : k₂.PmmOk := hfr.owned.ok.toPmmOk
  have hnb₂ : f ∉ k₂.Bitmap := by rw [hg₂]; exact hnb
  have hfree₃ : k₃.Free = k₂.Free := hw.free hk₂ hnb₂
  have hslot : k₂.rd f i = k.rd f i := hfr.within.kept.rd hal (hRG f hfR) i
  rw [hslot] at hw
  have hpe : Present (vmmPtEntrySetAddress (k.rd f i ||| ptEntryLargerPages) v) :=
    present_setAddress.mpr (present_or.mpr (.inl hp))
  have hle : Larger (vmmPtEntrySetAddress (k.rd f i ||| ptEntryLargerPages) v) :=
    larger_setAddress.mpr (larger_or.mpr (.inr larger_flag))
  generalize hE : vmmPtEntrySetAddress (k.rd f i ||| ptEntryLargerPages) v = e at hw hpe hle
  have hT' : (T.put (path q) (n + 1) 4 (.leaf e)).frames fmt.base = R := by
    rw [Tree.frames_put hg]
    exact Set.union_empty _
  have hstored : Stored k₃ root (T.put (path q) (n + 1) 4 (.leaf e)) := by
    refine h.tree.stored.replace hl hg ?_ ?_ trivial (Set.empty_disjoint _)
    · intro x hx j hne
      have hxal := (frames_spec (hRT hx)).1
      rw [hw.rd hxal hne, hfr.within.kept.rd hxal (hRG x hx)]
    · rw [hw.slot]
      exact ⟨rfl, hpe, .inr ⟨by omega, hle⟩⟩
  have hcur : Owned k₃ croot C₂ := by
    refine ⟨by rw [hw.within.globals]; exact hfr.owned.ok, hw.held hk₂ hnb₂ hfr.owned.held,
      hfr.owned.stored.congr hw.within.kept ?_, by rw [hfree₃]; exact hfr.owned.free,
      by rw [hw.within.globals]; exact hfr.owned.bitmap⟩
    rw [Set.disjoint_right]
    rintro x rfl
    exact hRC _ hfR
  have hpool : ∀ x, x ∈ G ∪ PageTree.Territory C k → x ∈ Pool k T C := by
    rintro x (hx | hx)
    · exact .inl (htT (hG hx))
    · exact .inr hx
  refine ⟨e, by rw [← hE, getAddress_setAddress], ⟨⟨by rw [hg₃]; exact h.tree.ok, hcur.held,
    hstored, ?_, ?_⟩, hcur, ?_, ?_, ?_, h.window_sub, ?_, h.aligned⟩, ?_, ?_, hfr.same⟩
  · rw [hT', hfree₃]
    exact Set.disjoint_left.mpr hRF
  · rw [hT', hg₃]
    exact h.tree.bitmap.mono_left hRT
  · rw [hT']
    exact Set.disjoint_left.mpr hRC
  · rw [hg₃]; exact h.pml4
  · rw [hw.within.globals]; exact fun _ => hfr.window
  · rw [hT', hfree₃]
    rintro x (hx | hx)
    · exact h.frames (.inl (hRT hx))
    · rcases hfr.free hx with hx | hx
      · exact h.frames (.inl (htT (hG hx)))
      · exact h.frames (.inr hx)
  · refine (hfr.within.mono hpool).trans (hw.within.mono ?_)
    rintro x rfl
    exact .inl (hRT hfR)
  · rintro x (hx | (hx | hx) | hx)
    · rw [hT'] at hx
      exact .inl (hRT hx)
    · apply hpool
      rcases hfr.frames hx with hx | hx
      · exact .inl hx
      · exact .inr (.inl hx)
    · apply hpool
      rw [hfree₃] at hx
      rcases hfr.free hx with hx | hx
      · exact .inl hx
      · exact .inr (.inl (.inr hx))
    · rw [hg₃] at hx
      exact .inr (.inr hx)

end Large

/-! ## The leaf of one iteration -/

section MapLeaf

variable {root croot q numPages : Nat} {W F : Set Nat} {P : Prop} {k : Kernel} {T C : PageTree} {c : MapCursor}

/-- The tables over `q` that a leaf of `512 ^ m` pages replaces. -/
def PageTree.replacedAt (T : PageTree) (q m : Nat) : Set Nat :=
  {f | ∃ n i, 3 < n + m ∧ n ≤ 3 ∧ T.loc fmt.base (path q) n 4 = some (f, i)}

/-- What one iteration did: a leaf of `512 ^ m` pages at `q`, for the physical address `phys`. -/
structure Mapped (root croot : Nat) (W F : Set Nat) (P : Prop) (k : Kernel) (T C : PageTree)
    (c : MapCursor) (q m : Nat) (k' : Kernel) (T' C' : PageTree) : Prop where
  put : ∃ e t, T.get (path q) (4 - m) 4 = some t ∧ T' = T.put (path q) (4 - m) 4 (.leaf e) ∧
    vmmPtEntryGetAddress e = vmmPtEntryGetAddress c.currentPhys
  ready : Ready root croot W F P k' T' C'
  move : Move k T C k' T' C'
  down : Down k'.toGlobals T' c q (3 - m)
  drew : Drew m k k'
  back : k'.Free ⊆ W ∪ k.Free

theorem Ready.window_aligned (h : Ready root croot W F P k T C) : ∀ x ∈ W, x % 0x1000 = 0 :=
  fun x hx => h.aligned x (h.window_sub hx)

/-- A table of the path is one that `pmm_free` may take, if the current tree is its window. -/
theorem Ready.free_table (h : Ready root croot W F P k T C) (hP : P) {f n : Nat} {i : Fin 512}
    (hl : T.loc fmt.base (path q) n 4 = some (f, i)) (hf : f ∈ W)
    (hs : (k.pmmFree (k.virt f)).Supplied) :
    Drew 1 k (k.pmmFree (k.virt f)) ∧ ∃ C', Freed croot {f} W k C (k.pmmFree (k.virt f)) C' := by
  obtain ⟨_, hlt, _, hbit⟩ := h.tree.frame hl
  have hC := Set.disjoint_left.mp h.apart (Tree.loc_mem hl)
  exact ⟨pmmFree_drew h.current h.pml4 (h.window hP) h.window_aligned hf hlt hC hbit hs,
    pmmFree_spec h.current h.pml4 (h.window hP) h.window_aligned hf hlt hC hbit hs⟩

theorem setLarge_later (k : Kernel) (p phys : Nat) : Later k (k.setLarge p phys) :=
  (orEntry_later _ _ _).trans (st64_later _ _ _)

/-- A 4 KiB leaf: the PT entry keeps its flags. -/
theorem small_spec (h : Ready root croot W F P k T C) (hd : Down k.toGlobals T c q 3)
    (hsl : SlotAt k.toGlobals T q 3 c.ptEntry)
    (hent : ∃ e, T.get (path q) 4 4 = some (.leaf e)) :
    ∃ T', Mapped root croot W F P k T C c q 0
      (k.st64 c.ptEntry (vmmPtEntrySetAddress (k.ld64 c.ptEntry) c.currentPhys)) T' C := by
  obtain ⟨e, hg⟩ := hent
  obtain ⟨f, hl, hp⟩ := hsl
  obtain ⟨hal, hlt, _, hbit⟩ := h.tree.frame hl
  have hpres : Present (k.rd f (path q (3 - 3))) := by
    rcases h.tree.stored.slot_cases (by omega) hl with ⟨hg', _⟩ | ⟨e', _, hv, hp, _⟩ |
      ⟨_, _, _, _, _, hn, _⟩
    · rw [hg] at hg'; cases hg'
    · exact hv ▸ hp
    · omega
  rw [hp, ld64_slot h.tree.ok.hhdm_lt hlt]
  have hw := st64_wrote (k := k) (i := path q (3 - 3)) h.tree.ok.hhdm_lt hlt hal
    (setAddress_lt (k.rd f (path q (3 - 3))) c.currentPhys)
  have hst := h.tree.write (u := .leaf _) hl hg hw
    ⟨rfl, present_setAddress.mpr hpres, .inl (by omega)⟩ trivial rfl
  obtain ⟨hr, hm⟩ := h.step hst
  have hok := h.tree.ok.toPmmOk
  refine ⟨_, ⟨⟨_, _, hg, rfl, getAddress_setAddress _ _⟩, hr, hm, ?_, hw.drew hok hbit,
    hst.free.trans Set.subset_union_right⟩⟩
  rw [hst.within.globals]
  exact hd.tree (by omega) fun m hm => Tree.loc_put (by omega) hg

/-- A 2 MiB leaf: the PT is given back. -/
theorem large_spec (h : Ready root croot W F P k T C) (hP : P) (hd : Down k.toGlobals T c q 3)
    (hW : T.replacedAt q 1 ⊆ W)
    (hs : ((k.pmmFree c.pt).setLarge c.pdEntry c.currentPhys).Supplied) :
    ∃ T' C', Mapped root croot W F P k T C c q 1
      ((k.pmmFree c.pt).setLarge c.pdEntry c.currentPhys) T' C' := by
  have hd₂ : Down k.toGlobals T c q 2 := hd.mono (by omega) (by omega)
  obtain ⟨_, _, _, ⟨f₂, hl₂, hp₂⟩, ⟨f₃, hl₃, hp₃⟩⟩ := hd
  rw [hp₃] at hs ⊢
  have hW₃ := hW ⟨3, _, by omega, Nat.le_refl 3, hl₃⟩
  obtain ⟨hdr, C', hfr⟩ := h.free_table hP hl₃ hW₃ ((setLarge_later _ _ _).supplied hs)
  obtain ⟨hal, hlt, _, hbit⟩ := h.tree.frame hl₂
  obtain ⟨e₃, sub₃, hg₃, rfl, _, _⟩ := Tree.exists_get_of_loc hl₃
  have hpres : Present (k.rd f₂ (path q (3 - 2))) := by
    rcases h.tree.stored.slot_cases (by omega) hl₂ with ⟨hg', _⟩ | ⟨e', hg', _⟩ |
      ⟨e', _, _, hv, hp, _⟩
    · rw [hg₃] at hg'; cases hg'
    · rw [hg₃] at hg'; cases hg'
    · exact hv ▸ hp
  have hw := setLarge_wrote (i := path q (3 - 2)) hfr.owned.ok.hhdm_lt hlt hal c.currentPhys
  rw [congrArg Globals.virt hfr.within.globals, ← hp₂] at hw
  obtain ⟨e, he, hr, hm⟩ := h.large (.inr rfl) hl₂ hg₃
    (Set.singleton_subset_iff.mpr (by simp [Tree.frames])) hfr hpres hw
  have hok := hfr.owned.ok.toPmmOk
  rw [← hfr.within.globals] at hbit
  refine ⟨_, C', ⟨⟨e, _, hg₃, rfl, he⟩, hr, hm, ?_, hdr.trans (hw.drew hok hbit), ?_⟩⟩
  swap
  · rw [hw.free hok hbit]
    exact hfr.free.trans (Set.union_subset_union_left _ (Set.singleton_subset_iff.mpr hW₃))
  rw [hw.within.globals, hfr.within.globals]
  exact hd₂.tree (by omega) fun m hm => Tree.loc_put (by omega) hg₃

/-- A 1 GiB leaf: the PT and the PD are given back, the PT first. -/
theorem huge_spec (h : Ready root croot W F P k T C) (hP : P) (hd : Down k.toGlobals T c q 3)
    (hW : T.replacedAt q 2 ⊆ W)
    (hs : (((k.pmmFree c.pt).pmmFree c.pd).setLarge c.pdptEntry c.currentPhys).Supplied) :
    ∃ T' C', Mapped root croot W F P k T C c q 2
      (((k.pmmFree c.pt).pmmFree c.pd).setLarge c.pdptEntry c.currentPhys) T' C' := by
  have hd₁ : Down k.toGlobals T c q 1 := hd.mono (by omega) (by omega)
  obtain ⟨_, ⟨f₁, hl₁, hp₁⟩, ⟨f₂, hl₂, hp₂⟩, _, ⟨f₃, hl₃, hp₃⟩⟩ := hd
  rw [hp₃, hp₂] at hs ⊢
  have hs₂ : ((k.pmmFree (k.virt f₃)).pmmFree (k.virt f₂)).Supplied :=
    (setLarge_later _ _ _).supplied hs
  have hW₃ := hW ⟨3, _, by omega, Nat.le_refl 3, hl₃⟩
  have hW₂ := hW ⟨2, _, by omega, by omega, hl₂⟩
  obtain ⟨hdr₁, C₁, hfr₁⟩ := h.free_table hP hl₃ hW₃ ((pmmFree_later _ _).supplied hs₂)
  have hg₁ := hfr₁.within.globals
  obtain ⟨hal₂, hlt₂, hnf₂, hnb₂⟩ := h.tree.frame hl₂
  have hm₂ := Tree.loc_mem hl₂
  obtain ⟨e₂, sub₂, hgt₂, rfl, _, hsub⟩ := Tree.exists_get_of_loc hl₂
  obtain ⟨e₃, sub₃, hgt₃, rfl, _, _⟩ := Tree.exists_get_of_loc hl₃
  rw [hgt₃, Option.some.injEq] at hsub
  have hsep := (h.tree.stored.sep.disjoint_get hgt₂).1
  have hne : fmt.base e₂ ≠ fmt.base e₃ := by
    intro heq
    apply hsep.1 (path q (3 - 2))
    rw [← hsub, heq]
    simp [Tree.frames]
  -- the first freeing may hand the PT, but not the PD, to the current tree
  have hout : fmt.base e₂ ∉ C₁.frames fmt.base := by
    intro hx
    rcases hfr₁.frames hx with hx | hx | hx
    · exact hne hx
    · exact Set.disjoint_left.mp h.apart hm₂ hx
    · exact hnf₂ hx
  have hvirt : k.virt = (k.pmmFree (k.virt (fmt.base e₃))).virt := (congrArg Globals.virt hg₁).symm
  rw [show k.virt (fmt.base e₂) = (k.pmmFree (k.virt (fmt.base e₃))).virt (fmt.base e₂) by
    rw [← hvirt]] at hs hs₂ ⊢
  have hpml4 : (k.pmmFree (k.virt (fmt.base e₃))).pml4 =
      (k.pmmFree (k.virt (fmt.base e₃))).virt croot := by
    rw [hg₁]
    exact h.pml4
  obtain ⟨C₂, hfr₂⟩ := pmmFree_spec hfr₁.owned hpml4 hfr₁.window h.window_aligned hW₂ hlt₂ hout
    (by rw [hg₁]; exact hnb₂) hs₂
  have hdr₂ := pmmFree_drew hfr₁.owned hpml4 hfr₁.window h.window_aligned hW₂ hlt₂ hout
    (by rw [hg₁]; exact hnb₂) hs₂
  have hfr := hfr₁.trans hfr₂
  obtain ⟨hal, hlt, _, hbit⟩ := h.tree.frame hl₁
  have hpres : Present (k.rd f₁ (path q (3 - 1))) := by
    rcases h.tree.stored.slot_cases (by omega) hl₁ with ⟨hg', _⟩ | ⟨e', hg', _⟩ |
      ⟨e', _, _, hv, hp, _⟩
    · rw [hgt₂] at hg'; cases hg'
    · rw [hgt₂] at hg'; cases hg'
    · exact hv ▸ hp
  have hw := setLarge_wrote (i := path q (3 - 1)) hfr.owned.ok.hhdm_lt hlt hal c.currentPhys
  rw [congrArg Globals.virt hfr.within.globals, ← hp₁] at hw
  have hG : {fmt.base e₃} ∪ {fmt.base e₂} ⊆ (Tree.table e₂ sub₂ : PageTree).frames fmt.base := by
    rintro x (rfl | rfl)
    · simp only [Tree.frames, Set.mem_insert_iff, Set.mem_iUnion]
      exact .inr ⟨path q (3 - 2), by rw [← hsub]; simp [Tree.frames]⟩
    · simp [Tree.frames]
  obtain ⟨e, he, hr, hm⟩ := h.large (.inl rfl) hl₁ hgt₂ hG hfr hpres hw
  have hok := hfr.owned.ok.toPmmOk
  rw [← hfr.within.globals] at hbit
  refine ⟨_, C₂, ⟨⟨e, _, hgt₂, rfl, he⟩, hr, hm, ?_, (hdr₁.trans hdr₂).trans (hw.drew hok hbit), ?_⟩⟩
  swap
  · rw [hw.free hok hbit]
    refine hfr.free.trans (Set.union_subset_union_left _ ?_)
    rintro x (rfl | rfl)
    · exact hW₃
    · exact hW₂
  rw [hw.within.globals, hfr.within.globals]
  exact hd₁.tree (by omega) fun m hm => Tree.loc_put (by omega) hgt₂

/-- The level of the leaf an iteration sets. -/
def leafLevel (numPages : Nat) (c : MapCursor) : Nat :=
  if numPages - 1 - c.i > 512 * 512 ∧ c.pdI = 0 ∧ c.ptI = 0 then 2
  else if numPages - 1 - c.i > 512 ∧ c.ptI = 0 then 1
  else 0

theorem mapLeaf_cursor (n : Nat) (c : MapCursor) (k : Kernel) :
    (mapLeaf n c k).1 = leap (leafLevel n c) c := by
  rw [mapLeaf, leafLevel]
  split
  · rfl
  split
  · rfl
  · rfl

/-- It is the largest whose block starts at the page and ends more than a page before the range
does. -/
theorem leafLevel_spec (numPages : Nat) (hi : Indices c q) :
    leafLevel numPages c ≤ 2 ∧ q % 512 ^ leafLevel numPages c = 0 ∧
      (leafLevel numPages c = 0 ∨ c.i + 512 ^ leafLevel numPages c + 1 < numPages) ∧
      ∀ m ≤ 2, leafLevel numPages c < m → q % 512 ^ m = 0 → ¬ c.i + 512 ^ m + 1 < numPages := by
  have h₁ : c.pdI = q / 512 % 512 := by rw [hi.pdI, path_val]; norm_num
  have h₀ : c.ptI = q % 512 := by rw [hi.ptI, path_val]; norm_num
  rw [leafLevel]
  split
  · refine ⟨by omega, by norm_num; omega, .inr (by norm_num; omega), ?_⟩
    intro m hm hlt
    omega
  split
  · refine ⟨by omega, by norm_num; omega, .inr (by norm_num; omega), ?_⟩
    intro m hm hlt hq hn
    obtain rfl : m = 2 := by omega
    norm_num at hq hn
    omega
  · refine ⟨by omega, by norm_num; omega, .inl rfl, ?_⟩
    intro m hm hlt hq hn
    rcases (by omega : m = 1 ∨ m = 2) with rfl | rfl
    · norm_num at hq hn
      omega
    · norm_num at hq hn
      omega

/-- One iteration of the loop. -/
theorem mapLeaf_spec (h : Ready root croot W F P k T C) (hd : Down k.toGlobals T c q 3) (hsl : SlotAt k.toGlobals T q 3 c.ptEntry)
    (hent : ∃ e, T.get (path q) 4 4 = some (.leaf e))
    (hP : leafLevel numPages c ≠ 0 → P) (hW : T.replacedAt q (leafLevel numPages c) ⊆ W)
    (hs : (mapLeaf numPages c k).2.Supplied) :
    ∃ T' C', Mapped root croot W F P k T C c q (leafLevel numPages c) (mapLeaf numPages c k).2
      T' C' := by
  rw [leafLevel, mapLeaf] at *
  split at hs
  · rename_i hc₂
    simp only [if_pos hc₂] at hP hW ⊢
    exact huge_spec h (hP (by omega)) hd hW hs
  · rename_i hc₂
    split at hs
    · rename_i hc₁
      simp only [if_neg hc₂, if_pos hc₁] at hP hW ⊢
      exact large_spec h (hP (by omega)) hd hW hs
    · rename_i hc₁
      simp only [if_neg hc₂, if_neg hc₁]
      obtain ⟨T', hm⟩ := small_spec h hd hsl hent
      exact ⟨T', C, hm⟩

end MapLeaf

end BambooOS
