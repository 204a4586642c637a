import BambooOS.Vmm.Walk

/-!
# Vmm.Tree

The page tables as a stored radix tree, and the translation it stands for.

* `Stored`, `Owned`: a tree in memory, in frames that neither the allocator nor the bitmap uses.
* `xlate`: the translation of a page. `vmmVirtToPhys_eq`: the source's walk computes it.
* `Stored.replace`: rewriting one slot replaces one subtree.
* `Step`: what every operation on a tree does to the rest of memory; `Owned.other` carries a
  second tree along.
-/

namespace BambooOS

open ByteMem Radix Kernel

/-! ## Translation -/

/-- The physical page a tree gives a page, counted from an entry at level `l`. -/
def PageTree.xlateFrom (T : PageTree) (l q : Nat) : Option Nat :=
  (T.find (path q) l).map fun (m, e) => vmmPtEntryGetAddress e + q % 512 ^ m * 0x1000

def PageTree.xlate (T : PageTree) (q : Nat) : Option Nat := PageTree.xlateFrom T 4 q

/-- A leaf above the PTs. -/
def PageTree.Large (T : PageTree) (q : Nat) : Prop :=
  ∃ l e, 1 ≤ l ∧ T.find (path q) 4 = some (l, e)

/-- A leaf in a PDPT. -/
def PageTree.Huge (T : PageTree) (q : Nat) : Prop := ∃ e, T.find (path q) 4 = some (2, e)

/-- The pages of a leaf are physical memory. -/
def PageTree.Fits (T : PageTree) : Prop :=
  ∀ q l e, T.find (path q) 4 = some (l, e) → vmmPtEntryGetAddress e + 512 ^ l * 0x1000 ≤ 2 ^ 52

/-- `T'` translates as `T` does and has no large leaf that `T` has not. -/
structure Split (T T' : PageTree) : Prop where
  xlate : ∀ q, PageTree.xlate T' q = PageTree.xlate T q
  large : ∀ q l e, 1 ≤ l → T'.find (path q) 4 = some (l, e) → T.find (path q) 4 = some (l, e)

theorem Split.refl (T : PageTree) : Split T T := ⟨fun _ => rfl, fun _ _ _ _ h => h⟩

theorem Split.trans {T T' T'' : PageTree} (h : Split T T') (h' : Split T' T'') : Split T T'' :=
  ⟨fun q => (h'.xlate q).trans (h.xlate q),
    fun q l e hl hf => h.large q l e hl (h'.large q l e hl hf)⟩

theorem fits_of_large {T T' : PageTree} (h : ∀ q l e, 1 ≤ l → T'.find (path q) 4 = some (l, e) →
    T.find (path q) 4 = some (l, e)) (hT : PageTree.Fits T) : PageTree.Fits T' := by
  intro q l e hf
  by_cases hl : 1 ≤ l
  · exact hT q l e (h q l e hl hf)
  · have := getAddress_lt e
    rw [show l = 0 by omega]
    simpa using this

theorem Split.fits {T T' : PageTree} (h : Split T T') (hT : PageTree.Fits T) :
    PageTree.Fits T' := fits_of_large h.large hT

/-- Pages that share their indices from level `l` up. -/
def SameBlock (l q r : Nat) : Prop := ∀ j, l ≤ j → j < 4 → path r j = path q j

theorem SameBlock.refl (l q : Nat) : SameBlock l q q := fun _ _ _ => rfl

instance (l q r : Nat) : Decidable (SameBlock l q r) := decidable_of_iff
  (∀ j ∈ List.range 4, l ≤ j → path r j = path q j)
  ⟨fun h j hl hj => h j (List.mem_range.mpr hj) hl, fun h j hj hl => h j hl (List.mem_range.mp hj)⟩

theorem sameBlock_iff {l q r : Nat} (hl : l ≤ 4) :
    SameBlock l q r ↔ r / 512 ^ l % 512 ^ (4 - l) = q / 512 ^ l % 512 ^ (4 - l) :=
  path_eq_iff hl

theorem xlate_of_get {T t : PageTree} {n q r : Nat} (hn : n ≤ 4)
    (hg : T.get (path q) n 4 = some t) (h : SameBlock (4 - n) q r) :
    PageTree.xlate T r = PageTree.xlateFrom t (4 - n) r := by
  rw [PageTree.xlate, PageTree.xlateFrom, PageTree.xlateFrom, Tree.find_of_get hn hg h]

theorem xlate_put {T t t' : PageTree} {n q r : Nat} (hn : n ≤ 4)
    (hg : T.get (path q) n 4 = some t) :
    PageTree.xlate (T.put (path q) n 4 t') r =
      if SameBlock (4 - n) q r then PageTree.xlateFrom t' (4 - n) r else PageTree.xlate T r := by
  split
  · rename_i h
    exact xlate_of_get hn (Tree.get_put hg) h
  · rename_i h
    rw [PageTree.xlate, PageTree.xlateFrom, Tree.find_put_other hn h]
    rfl

theorem Split.put {T t t' : PageTree} {n q : Nat} (hn : n ≤ 4)
    (hg : T.get (path q) n 4 = some t)
    (hx : ∀ r, PageTree.xlateFrom t' (4 - n) r = PageTree.xlateFrom t (4 - n) r)
    (hl : ∀ r l e, 1 ≤ l → t'.find (path r) (4 - n) = some (l, e) →
      t.find (path r) (4 - n) = some (l, e)) : Split T (T.put (path q) n 4 t') := by
  constructor
  · intro r
    rw [xlate_put hn hg]
    split
    · rename_i h
      rw [hx, xlate_of_get hn hg h]
    · rfl
  · intro r l e h₁ hf
    by_cases h : SameBlock (4 - n) q r
    · rw [Tree.find_of_get hn hg h]
      rw [Tree.find_put_same hn hg h] at hf
      exact hl r l e h₁ hf
    · rwa [Tree.find_put_other hn h] at hf

/-! ## Stored trees -/

/-- `T` is the tree at `root`. -/
structure Stored (k : Kernel) (root : Nat) (T : PageTree) : Prop where
  table : ∃ sub, T = .table root sub
  rep : T.Rep fmt k.rd 4 root
  sep : T.Sep fmt.base
  aligned : root % 0x1000 = 0
  lt : root < 2 ^ 52

theorem frames_spec {T : PageTree} {f : Nat} (hf : f ∈ T.frames fmt.base) :
    f % 0x1000 = 0 ∧ f + 0x1000 ≤ 2 ^ 52 := by
  induction T with
  | none => simp [Tree.frames] at hf
  | leaf e => simp [Tree.frames] at hf
  | table e sub ih =>
    simp only [Tree.frames, Set.mem_insert_iff, Set.mem_iUnion] at hf
    rcases hf with rfl | ⟨i, hi⟩
    · exact ⟨getAddress_aligned e, getAddress_lt e⟩
    · exact ih i hi

section Stored

variable {k k' : Kernel} {root f n q : Nat} {i : Fin 512} {T : PageTree}

theorem Stored.base (h : Stored k root T) : vmmPtEntryGetAddress root = root :=
  getAddress_of_aligned h.aligned h.lt

theorem Stored.loc_zero (h : Stored k root T) (q : Nat) :
    T.loc fmt.base (path q) 0 4 = some (root, path q 3) := by
  obtain ⟨sub, rfl⟩ := h.table
  simp only [Tree.loc, fmt]
  rw [h.base]

theorem loc_index (hl : T.loc fmt.base (path q) n 4 = some (f, i)) : path q (3 - n) = i := by
  obtain ⟨_, _, _, _, h, _⟩ := Tree.exists_get_of_loc hl
  rw [← h]; congr 1; omega

theorem loc_congr {r : Nat} (hn : n < 4) (hl : T.loc fmt.base (path q) n 4 = some (f, i))
    (h : SameBlock (4 - n) q r) : T.loc fmt.base (path r) n 4 = some (f, path r (3 - n)) := by
  obtain ⟨e, sub, hg, rfl, _, _⟩ := Tree.exists_get_of_loc hl
  rw [← Tree.get_congr (by omega) h] at hg
  have := (Tree.get_loc_succ (b := fmt.base) hg).1
  rw [this]
  congr 3; omega

theorem Stored.slot_cases (h : Stored k root T) (hn : n < 4)
    (hl : T.loc fmt.base (path q) n 4 = some (f, i)) :
    (T.get (path q) (n + 1) 4 = some .none ∧ k.rd f i = 0) ∨
    (∃ e, T.get (path q) (n + 1) 4 = some (.leaf e) ∧ k.rd f i = e ∧ Present e ∧
      (n = 3 ∨ (n = 1 ∨ n = 2) ∧ Larger e)) ∨
    ∃ e sub, T.get (path q) (n + 1) 4 = some (.table e sub) ∧ k.rd f i = e ∧ Present e ∧ n < 3 ∧
      (n = 0 ∨ ¬ Larger e) ∧
      T.loc fmt.base (path q) (n + 1) 4 = some (vmmPtEntryGetAddress e, path q (2 - n)) := by
  obtain ⟨t, hg, ht⟩ := h.rep.of_loc hl
  cases t with
  | none => exact .inl ⟨hg, ht⟩
  | leaf e =>
    obtain ⟨hv, hp, hlev⟩ := ht
    exact .inr (.inl ⟨e, hg, hv, hp, hlev.imp (by omega) (And.imp_left (by omega))⟩)
  | table e sub =>
    obtain ⟨hv, hlev, _⟩ := ht
    have hlev : Present e ∧ (4 - (n + 1) = 3 ∨ (4 - (n + 1) = 1 ∨ 4 - (n + 1) = 2) ∧ ¬ Larger e) := by
      rcases hlev with h4 | h4
      · omega
      · exact h4
    refine .inr (.inr ⟨e, sub, hg, hv, hlev.1, by omega, ?_, ?_⟩)
    · by_cases h0 : n = 0
      · exact .inl h0
      · exact .inr (hlev.2.resolve_left (by omega)).2
    · rw [(Tree.get_loc_succ (b := fmt.base) hg).1, show 4 - (n + 1) - 1 = 2 - n by omega]
      rfl

theorem Stored.slot_of_leaf {l e : Nat} (h : Stored k root T) (hlt : l < 4)
    (hf : T.find (path q) 4 = some (l, e)) :
    ∃ f, T.loc fmt.base (path q) (3 - l) 4 = some (f, path q l) ∧ k.rd f (path q l) = e ∧
      Present e ∧ (l = 0 ∨ Larger e) := by
  rcases Tree.get_cases (p := path q) (4 - l) 4 T (by omega) with
    ⟨t, hg⟩ | ⟨hn, _⟩ | ⟨m, e', hm, _, hf'⟩
  · have hg : T.get (path q) (3 - l + 1) 4 = some t := by rwa [show 3 - l + 1 = 4 - l by omega]
    have hfind : ∀ {t}, T.get (path q) (3 - l + 1) 4 = some t → t.find (path q) l = some (l, e) := by
      intro t hg
      rw [← hf, Tree.find_of_get (by omega) hg fun _ _ _ => rfl, show 4 - (3 - l + 1) = l by omega]
    obtain ⟨f, hl⟩ := Tree.exists_loc_of_get (b := fmt.base) hg
    have hl : T.loc fmt.base (path q) (3 - l) 4 = some (f, path q l) := by
      rwa [show 4 - (3 - l) - 1 = l by omega] at hl
    refine ⟨f, hl, ?_⟩
    rcases h.slot_cases (by omega) hl with ⟨hg', _⟩ | ⟨e', hg', hv, hp, hlev⟩ |
      ⟨e', sub, hg', _, _, hn, _⟩
    · cases hfind hg'
    · cases hfind hg'
      exact ⟨hv, hp, hlev.imp (by omega) And.right⟩
    · obtain ⟨m, rfl⟩ : ∃ m, l = m + 1 := ⟨l - 1, by omega⟩
      have := Tree.find_level_le (show (sub (path q m)).find (path q) m = some (m + 1, e) from
        hfind hg')
      omega
  · rw [hf] at hn
    cases hn
  · rw [hf, Option.some.injEq, Prod.mk.injEq] at hf'
    omega

/-- A rewritten slot replaces the subtree behind it. -/
theorem Stored.replace (h : Stored k root T) (hl : T.loc fmt.base (path q) n 4 = some (f, i))
    {t t' : PageTree} (hg : T.get (path q) (n + 1) 4 = some t)
    (hrd : ∀ g ∈ (T.put (path q) (n + 1) 4 .none).frames fmt.base, ∀ j, (g, j) ≠ (f, i) →
      k'.rd g j = k.rd g j)
    (ht' : t'.Rep fmt k'.rd (4 - (n + 1)) (k'.rd f i)) (hs : t'.Sep fmt.base)
    (hd : Disjoint (t'.frames fmt.base) ((T.put (path q) (n + 1) 4 .none).frames fmt.base)) :
    Stored k' root (T.put (path q) (n + 1) 4 t') where
  table := by
    obtain ⟨sub, rfl⟩ := h.table
    exact ⟨_, rfl⟩
  rep := Tree.Rep.put h.rep h.sep hl hrd ht'
  sep := h.sep.put hg hs hd
  aligned := h.aligned
  lt := h.lt

theorem Stored.congr (h : Stored k root T) {S : Set Nat} (hw : MemKept S k k')
    (hd : Disjoint (T.frames fmt.base) S) : Stored k' root T where
  table := h.table
  rep := h.rep.congr fun _ hg i => hw.rd (frames_spec hg).1 (Set.disjoint_left.mp hd hg) i
  sep := h.sep
  aligned := h.aligned
  lt := h.lt

end Stored

/-! ## The walk -/

section Walk

variable {k : Kernel} {root : Nat} {T : PageTree}

theorem hardwareWalk_find {rd : Nat → Fin 512 → Nat} {q l e : Nat} {sub : Fin 512 → PageTree}
    (hl : l ≤ 4) (h : (Tree.table e sub).Rep fmt rd l e) :
    hardwareWalk rd q l (vmmPtEntryGetAddress e) = (Tree.table e sub).find (path q) l := by
  induction l generalizing e sub with
  | zero =>
    obtain ⟨_, ht, _⟩ := h
    simp [fmt] at ht
  | succ l ih =>
    obtain ⟨_, _, hsub⟩ := h
    have hrep := hsub (path q l)
    simp only [Tree.find, Nat.add_sub_cancel]
    rcases hs : sub (path q l) with _ | e' | ⟨e', sub'⟩
    · rw [hs] at hrep
      exact hardwareWalk_absent fun hp => not_present_zero (hrep ▸ hp)
    · rw [hs] at hrep
      obtain ⟨hv, hp, hleaf⟩ := hrep
      have hv : rd (vmmPtEntryGetAddress e) (path q l) = e' := hv
      rw [hardwareWalk_leaf (by rw [hv]; exact hp) (by rw [hv]; exact hleaf), hv]
      rfl
    · rw [hs] at hrep
      obtain ⟨hv, ht, hrest⟩ := hrep
      have hv : rd (vmmPtEntryGetAddress e) (path q l) = e' := hv
      obtain ⟨hp, hlev⟩ := ht.resolve_left (by omega)
      rw [hardwareWalk_table (by rw [hv]; exact hp) ?_, hv]
      · exact ih (by omega) ⟨rfl, ht, hrest⟩
      · rw [hv]
        rintro (h0 | ⟨hl, hlar⟩)
        · omega
        · rcases hlev with h3 | ⟨_, hnot⟩
          · omega
          · exact hnot hlar

theorem Stored.hardwareWalk (h : Stored k root T) (q : Nat) :
    hardwareWalk k.rd q 4 root = T.find (path q) 4 := by
  obtain ⟨sub, rfl⟩ := h.table
  have := hardwareWalk_find (q := q) (Nat.le_refl 4) h.rep
  rwa [h.base] at this

/-- The source's walk finds the leaf of the tree. -/
theorem vmmVirtToPhys_eq (hk : k.VmmOk) (h : Stored k root T) (hr : k.pml4 = k.virt root)
    (v : Nat) : k.vmmVirtToPhys v = walkValue v (T.find (path (v / 0x1000)) 4) := by
  rw [vmmVirtToPhys_walk (hk.walks hr h.lt), h.hardwareWalk]

/-- On a page-aligned address the walk is the translation of its page. -/
theorem vmmVirtToPhys_aligned (hk : k.VmmOk) (h : Stored k root T) (hr : k.pml4 = k.virt root)
    {v : Nat} (hv : v % 0x1000 = 0) :
    k.vmmVirtToPhys v = (PageTree.xlate T (v / 0x1000)).getD uint64Max := by
  rw [vmmVirtToPhys_eq hk h hr, PageTree.xlate, PageTree.xlateFrom]
  rcases hf : T.find (path (v / 0x1000)) 4 with _ | ⟨l, e⟩
  · rfl
  · cases l with
    | zero => simp [walkValue, Nat.mod_one]
    | succ l =>
      have hq : v = 0x1000 * (v / 0x1000) := by omega
      simp only [walkValue, Option.map_some, Option.getD_some]
      congr 1
      conv_lhs => rw [hq]
      rw [Nat.mul_mod_mul_left, Nat.mul_comm]

theorem vmmVirtToPhys_eq_max (hk : k.VmmOk) (h : Stored k root T) (hr : k.pml4 = k.virt root)
    (v : Nat) : k.vmmVirtToPhys v = uint64Max ↔ PageTree.xlate T (v / 0x1000) = none := by
  rw [vmmVirtToPhys_eq hk h hr, PageTree.xlate, PageTree.xlateFrom]
  rcases hf : T.find (path (v / 0x1000)) 4 with _ | ⟨l, e⟩
  · simp [walkValue]
  · have hl := Tree.find_level_le hf
    have := getAddress_lt e
    simp only [Option.map_some, reduceCtorEq, iff_false]
    cases l with
    | zero => simp only [walkValue, uint64Max]; omega
    | succ l =>
      have hm := Nat.mod_lt v (Nat.mul_pos (by omega : 0 < 0x1000) (Nat.pow_pos (n := l + 1) (by omega : 0 < 512)))
      have hp : 512 ^ (l + 1) ≤ 512 ^ 4 := Nat.pow_le_pow_right (by omega) hl
      norm_num at hp
      simp only [walkValue, uint64Max]
      omega

end Walk

/-! ## Operations on a stored tree -/

/-- `T` is stored at `root`, in frames that are neither free nor part of the bitmap. -/
structure Owned (k : Kernel) (root : Nat) (T : PageTree) : Prop where
  ok : k.VmmOk
  held : k.BitmapHeld
  stored : Stored k root T
  free : Disjoint (T.frames fmt.base) k.Free
  bitmap : Disjoint (T.frames fmt.base) k.Bitmap

/-- The frames an operation on the tree may write. -/
def PageTree.Territory (T : PageTree) (k : Kernel) : Set Nat :=
  T.frames fmt.base ∪ k.Free ∪ k.Bitmap

/-- An operation turned the tree `T` of `k` into the tree `T'` of `k'`. -/
structure Step (root : Nat) (k : Kernel) (T : PageTree) (k' : Kernel) (T' : PageTree) : Prop where
  owned : Owned k' root T'
  within : Within (PageTree.Territory T k) k k'
  frames : T'.frames fmt.base ⊆ T.frames fmt.base ∪ k.Free
  free : k'.Free ⊆ k.Free

section Step

variable {k k' k'' : Kernel} {root : Nat} {T T' T'' : PageTree}

theorem Step.refl (h : Owned k root T) : Step root k T k T :=
  ⟨h, Within.refl _ _, Set.subset_union_left, Set.Subset.rfl⟩

theorem Step.sub (h : Step root k T k' T') :
    T'.frames fmt.base ∪ k'.Free ⊆ T.frames fmt.base ∪ k.Free :=
  Set.union_subset h.frames (h.free.trans Set.subset_union_right)

theorem Step.territory (h : Step root k T k' T') :
    PageTree.Territory T' k' ⊆ PageTree.Territory T k := by
  rw [PageTree.Territory, h.within.globals]
  exact Set.union_subset_union_left _ h.sub

theorem Step.trans (h : Step root k T k' T') (h' : Step root k' T' k'' T'') :
    Step root k T k'' T'' :=
  ⟨h'.owned, h.within.trans (h'.within.mono h.territory),
    (Set.subset_union_left.trans h'.sub).trans h.sub, h'.free.trans h.free⟩

/-- A second tree is carried along by the operations on the first. -/
theorem Owned.other {root' : Nat} {C : PageTree} (hC : Owned k root' C)
    (hd : Disjoint (C.frames fmt.base) (T.frames fmt.base)) (h : Step root k T k' T') :
    Owned k' root' C ∧ Disjoint (C.frames fmt.base) (T'.frames fmt.base) := by
  have hout : Disjoint (C.frames fmt.base) (T'.frames fmt.base ∪ k'.Free) :=
    (hd.union_right hC.free).mono_right h.sub
  refine ⟨⟨h.owned.ok, h.owned.held, ?_, ?_, ?_⟩, ?_⟩
  · exact hC.stored.congr h.within.kept ((hd.union_right hC.free).union_right hC.bitmap)
  · exact hout.mono_right Set.subset_union_right
  · rw [h.within.globals]
    exact hC.bitmap
  · exact hout.mono_right Set.subset_union_left

end Step

end BambooOS
