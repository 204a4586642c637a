import BambooOS.Vmm.Tree

/-!
# Vmm.Page

Mapping and unmapping one page, on trees without a 1 GiB leaf over it.

* `Owned.grow` / `Owned.write`: the two ways a slot of the tree changes.
* `enter_spec`, `enterPd_spec`: one level of the descent.
* `Opened`: what the descent makes of a tree. `descend_spec`: it ends at a PT slot and changes no
  translation.
* `vmmMapPagePml4_spec`, `vmmUnmapPage_spec`: afterwards the page, and no other, translates
  differently.
-/

namespace BambooOS

open ByteMem Radix Kernel

section Slots

variable {k k' : Kernel} {root f g v n q : Nat} {i : Fin 512} {T t u : PageTree}

theorem Owned.frame (h : Owned k root T) (hl : T.loc fmt.base (path q) n 4 = some (f, i)) :
    f % 0x1000 = 0 ∧ f < 2 ^ 52 ∧ f ∉ k.Free ∧ f ∉ k.Bitmap := by
  have hm := Tree.loc_mem hl
  have ⟨hal, hlt⟩ := frames_spec hm
  exact ⟨hal, by omega, Set.disjoint_left.mp h.free hm, Set.disjoint_left.mp h.bitmap hm⟩

theorem rest_subset (hg : T.get (path q) n 4 = some t) :
    (T.put (path q) n 4 .none).frames fmt.base ⊆ T.frames fmt.base := by
  rw [Tree.frames_get (b := fmt.base) hg]
  exact Set.subset_union_left

/-- A taken frame becomes the new subtree's only table. -/
theorem Owned.grow (h : Owned k root T) (hl : T.loc fmt.base (path q) n 4 = some (f, i))
    (hg : T.get (path q) (n + 1) 4 = some t) (hgr : Grown k f i v g k')
    (hu : u.Rep fmt k'.rd (4 - (n + 1)) v) (hsep : u.Sep fmt.base)
    (hfr : u.frames fmt.base ⊆ {g}) : Step root k T k' (T.put (path q) (n + 1) 4 u) := by
  have hrest := rest_subset hg
  obtain ⟨hal, _, _, _⟩ := h.frame hl
  have hout : ∀ x ∈ T.frames fmt.base, x ≠ g := by
    rintro x hx rfl
    exact Set.disjoint_left.mp h.free hx hgr.mem_free
  have hgb : g ∉ k.Bitmap := free_not_bitmap h.ok.toPmmOk h.held hgr.mem_free
  have hframes : (T.put (path q) (n + 1) 4 u).frames fmt.base ⊆ insert g (T.frames fmt.base) := by
    rw [Tree.frames_put hg]
    rintro x (hx | hx)
    · exact .inr (hrest hx)
    · exact .inl (hfr hx)
  refine ⟨⟨?_, hgr.held, ?_, ?_, ?_⟩, hgr.within.mono ?_, ?_, ?_⟩
  · rw [hgr.within.globals]
    exact h.ok
  · apply h.stored.replace hl hg
    · intro x hx j hne
      by_cases hxf : x = f
      · subst hxf
        exact hgr.other j fun hj => hne (hj ▸ rfl)
      · apply hgr.within.kept.rd (frames_spec (hrest hx)).1
        rintro ((hx' | hx') | hx')
        · exact hxf hx'
        · exact hout x (hrest hx) hx'
        · exact Set.disjoint_left.mp h.bitmap (hrest hx) hx'
    · rw [hgr.slot]
      exact hu
    · exact hsep
    · rw [Set.disjoint_left]
      intro x hx hx'
      exact hout x (hrest hx') (hfr hx)
  · rw [hgr.free, Set.disjoint_left]
    rintro x hx ⟨hxf, hxg⟩
    rcases hframes hx with hx | hx
    · exact hxg hx
    · exact Set.disjoint_left.mp h.free hx hxf
  · rw [hgr.within.globals, Set.disjoint_left]
    intro x hx hxb
    rcases hframes hx with hx | hx
    · exact hgb (hx ▸ hxb)
    · exact Set.disjoint_left.mp h.bitmap hx hxb
  · rintro x ((hx | hx) | hx)
    · cases hx
      exact .inl (.inl (Tree.loc_mem hl))
    · cases hx
      exact .inl (.inr hgr.mem_free)
    · exact .inr hx
  · intro x hx
    rcases hframes hx with hx | hx
    · exact .inr (hx ▸ hgr.mem_free)
    · exact .inl hx
  · rw [hgr.free]
    exact Set.sdiff_subset

/-- A written slot becomes a leaf or empty. -/
theorem Owned.write (h : Owned k root T) (hl : T.loc fmt.base (path q) n 4 = some (f, i))
    (hg : T.get (path q) (n + 1) 4 = some t) (hw : Wrote k f i v k')
    (hu : u.Rep fmt k'.rd (4 - (n + 1)) v) (hsep : u.Sep fmt.base)
    (hfr : u.frames fmt.base = ∅) : Step root k T k' (T.put (path q) (n + 1) 4 u) := by
  have hrest := rest_subset hg
  obtain ⟨hal, _, _, hbit⟩ := h.frame hl
  have hframes : (T.put (path q) (n + 1) 4 u).frames fmt.base ⊆ T.frames fmt.base := by
    rw [Tree.frames_put hg, hfr, Set.union_empty]
    exact hrest
  have hfree : k'.Free = k.Free := hw.free h.ok.toPmmOk hbit
  refine ⟨⟨?_, hw.held h.ok.toPmmOk hbit h.held, ?_, ?_, ?_⟩, hw.within.mono ?_, ?_, ?_⟩
  · rw [hw.within.globals]
    exact h.ok
  · apply h.stored.replace hl hg
    · intro x hx j hne
      exact hw.rd (frames_spec (hrest hx)).1 hne
    · rw [hw.slot]
      exact hu
    · exact hsep
    · rw [hfr]
      exact Set.empty_disjoint _
  · rw [hfree]
    exact h.free.mono_left hframes
  · rw [hw.within.globals]
    exact h.bitmap.mono_left hframes
  · rintro x hx
    cases hx
    exact .inl (.inl (Tree.loc_mem hl))
  · exact hframes.trans Set.subset_union_left
  · rw [hfree]

end Slots

/-! ## The descent -/

section Descent

variable {k : Kernel} {root f n q : Nat} {i : Fin 512} {T : PageTree}

/-- What the descent to the page `q` makes of a tree. Leaves stay, but for a 2 MiB leaf over `q`,
whose pages get entries of their own; and tables are only added. -/
structure Opened (q : Nat) (T T' : PageTree) : Prop extends Split T T' where
  leaves : ∀ r l e, T.find (path r) 4 = some (l, e) → T'.find (path r) 4 = some (l, e) ∨
    l = 1 ∧ SameBlock 1 q r ∧ ∃ a, T'.find (path r) 4 = some (0, freshEntry a)
  tables : ∃ gs : List Nat, T'.tables (path q) 4 = T.tables (path q) 4 ++ gs.map freshEntry

theorem Opened.refl (q : Nat) (T : PageTree) : Opened q T T :=
  ⟨Split.refl T, fun _ _ _ h => .inl h, [], (List.append_nil _).symm⟩

theorem Opened.trans {T' T'' : PageTree} (h : Opened q T T') (h' : Opened q T' T'') :
    Opened q T T'' := by
  refine ⟨h.toSplit.trans h'.toSplit, fun r l e hf => ?_, ?_⟩
  · cases h.leaves r l e hf with
    | inl hf' => exact h'.leaves r l e hf'
    | inr hf' =>
      obtain ⟨hl, hb, a, hf'⟩ := hf'
      cases h'.leaves r 0 _ hf' with
      | inl hf'' => exact .inr ⟨hl, hb, a, hf''⟩
      | inr hf'' => omega
  · obtain ⟨gs, hgs⟩ := h.tables
    obtain ⟨gs', hgs'⟩ := h'.tables
    exact ⟨gs ++ gs', by rw [hgs', hgs, List.map_append, List.append_assoc]⟩

theorem Opened.put {t u : PageTree} {g : Nat} (hn : n < 4)
    (hg : T.get (path q) (n + 1) 4 = some t) (hsp : Split T (T.put (path q) (n + 1) 4 u))
    (ht : t.tables (path q) (4 - (n + 1)) = [])
    (hu : u.tables (path q) (4 - (n + 1)) = [freshEntry g])
    (hl : ∀ r l e, SameBlock (4 - (n + 1)) q r → t.find (path r) (4 - (n + 1)) = some (l, e) →
      l = 1 ∧ SameBlock 1 q r ∧ ∃ a, u.find (path r) (4 - (n + 1)) = some (0, freshEntry a)) :
    Opened q T (T.put (path q) (n + 1) 4 u) := by
  refine ⟨hsp, fun r l e hf => ?_, [g], ?_⟩
  · by_cases hb : SameBlock (4 - (n + 1)) q r
    · rw [Tree.find_of_get (by omega) hg hb] at hf
      rw [Tree.find_put_same (by omega) hg hb]
      exact .inr (hl r l e hb hf)
    · rw [Tree.find_put_other (by omega) hb]
      exact .inl hf
  · obtain ⟨above, _, hT, hput⟩ := Tree.tables_put hg
    rw [hput, hT, ht, hu, List.append_nil]
    rfl

/-- An empty table below an absent entry changes no translation. -/
theorem opened_fresh (hn : n < 3) (hg : T.get (path q) (n + 1) 4 = some .none) (g : Nat) :
    Opened q T (T.put (path q) (n + 1) 4 (.table (freshEntry g) fun _ => .none)) := by
  have hsp : Split T (T.put (path q) (n + 1) 4 (.table (freshEntry g) fun _ => .none)) := by
    apply Split.put (by omega) hg
    · intro r
      rfl
    · intro r l e' _ hf
      simp [Tree.find] at hf
  exact .put (by omega) hg hsp rfl rfl fun r l e _ hf => by simp [Tree.find] at hf

theorem under_put_other {m r : Nat} {u : PageTree} (hn : n ≤ 4) (hm : m ≤ 4)
    (h : ¬ SameBlock (4 - n) q r) (h' : ¬ SameBlock (4 - m) q r) :
    (T.put (path q) n 4 u).under (path r) m 4 = T.under (path r) m 4 := by
  rw [Tree.under, Tree.under, Tree.get_put_other hn hm h h']

/-- One level of the descent, from depth `n` on: the table over `q` there may be new, and then it is
empty. Other subtrees stay. -/
structure Deepened (n q : Nat) (T T' : PageTree) : Prop extends Opened q T T' where
  under : ∀ r m, m ≤ 4 → ¬ (m ≤ n + 1 ∧ SameBlock (4 - m) q r) →
    T'.under (path r) m 4 = T.under (path r) m 4
  lacks : (T'.under (path q) 3 4).isNone → (T.under (path q) 3 4).isNone

theorem Deepened.refl (n q : Nat) (T : PageTree) : Deepened n q T T :=
  ⟨Opened.refl q T, fun _ _ _ _ => rfl, id⟩

theorem lacks_pt (hn : n < 3) (hg : T.get (path q) (n + 1) 4 = some .none) :
    (T.under (path q) 3 4).isNone := by
  rw [show 3 = n + 1 + (2 - n) by omega, Tree.under_add (by omega) hg fun _ _ _ => rfl,
    Tree.under_none]
  rfl

theorem deepened_fresh (hn : n < 3) (hg : T.get (path q) (n + 1) 4 = some .none) (g : Nat) :
    Deepened n q T (T.put (path q) (n + 1) 4 (.table (freshEntry g) fun _ => .none)) := by
  refine ⟨opened_fresh hn hg g, fun r m hm hno => ?_, fun _ => lacks_pt hn hg⟩
  by_cases hb : SameBlock (4 - (n + 1)) q r
  · obtain ⟨j, rfl⟩ : ∃ j, m = n + 1 + (j + 1) := by
      refine ⟨m - (n + 2), ?_⟩
      by_contra hne
      exact hno ⟨by omega, fun j h₁ h₂ => hb j (by omega) h₂⟩
    rw [Tree.under_add (by omega) (Tree.get_put hg) hb, Tree.under_add (by omega) hg hb,
      Tree.under_table, Tree.under_none, Tree.under_none]
  · refine under_put_other (by omega) hm hb fun hb' => ?_
    by_cases hmn : m ≤ n + 1
    · exact hno ⟨hmn, hb'⟩
    · exact hb fun j h₁ h₂ => hb' j (by omega) h₂

/-- One level down: the missing table is created, a present one is followed. -/
theorem enter_spec (h : Owned k root T) (hn : n < 3)
    (hl : T.loc fmt.base (path q) n 4 = some (f, i))
    (hleaf : ∀ e, T.get (path q) (n + 1) 4 ≠ some (.leaf e))
    (hs : (k.ensureEntry (k.virt f + 8 * i.val)).Supplied) :
    ∃ T' f', Step root k T (k.ensureEntry (k.virt f + 8 * i.val)) T' ∧ Deepened n q T T' ∧
      (∀ m, m ≤ n → T'.loc fmt.base (path q) m 4 = T.loc fmt.base (path q) m 4) ∧
      T'.loc fmt.base (path q) (n + 1) 4 = some (f', path q (2 - n)) ∧
      (k.ensureEntry (k.virt f + 8 * i.val)).tableOf (k.virt f + 8 * i.val) = k.virt f' ∧
      (n = 0 ∨ ¬ Larger ((k.ensureEntry (k.virt f + 8 * i.val)).rd f i)) ∧
      (T.loc fmt.base (path q) (n + 1) 4 = some (f', path q (2 - n)) ∨
        f' ∈ k.Free ∧ (T.under (path q) 3 4).isNone) := by
  obtain ⟨hal, hlt, hfree, hbit⟩ := h.frame hl
  rcases h.stored.slot_cases (by omega) hl with ⟨hg, hv⟩ | ⟨e, hg, _⟩ |
    ⟨e, sub, hg, hv, hp, _, hlar, hl'⟩
  · obtain ⟨g, hgr, hz⟩ := ensureEntry_grown h.ok h.held hlt hal hfree hbit i hv hs
    have hgf := free_lt h.ok.toPmmOk hgr.mem_free
    have hgal := free_aligned h.ok.toPmmOk hgr.mem_free
    have hbase : fmt.base (freshEntry g) = g := by
      simp only [fmt]
      rw [getAddress_fresh, getAddress_of_aligned hgal (by omega)]
    refine ⟨_, g, h.grow (u := .table (freshEntry g) fun _ => .none) hl hg hgr ?_ ?_ ?_,
      deepened_fresh hn hg g, fun m hm => Tree.loc_put (by omega) hg, ?_, ?_, ?_,
      .inr ⟨hgr.mem_free, lacks_pt hn hg⟩⟩
    · refine ⟨rfl, .inr ⟨present_fresh g, ?_⟩, fun j => ?_⟩
      · by_cases h0 : n = 0
        · exact .inl (by omega)
        · exact .inr ⟨by omega, not_larger_fresh g⟩
      · rw [hbase]
        exact hz j
    · exact ⟨by simp [Tree.frames], by simp [Tree.frames], fun _ => trivial⟩
    · intro x hx
      simp only [Tree.frames, Set.mem_insert_iff, Set.mem_iUnion, Set.mem_empty_iff_false,
        exists_false, or_false] at hx
      rw [hx, hbase]
      rfl
    · rw [(Tree.get_loc_succ (b := fmt.base) (Tree.get_put hg)).1, hbase,
        show 4 - (n + 1) - 1 = 2 - n by omega]
    · rw [hgr.within.tableOf h.ok hlt, hgr.slot, getAddress_fresh,
        getAddress_of_aligned hgal (by omega)]
    · rw [hgr.slot]
      exact .inr (not_larger_fresh g)
  · exact absurd hg (hleaf e)
  · rw [ensureEntry_present h.ok hlt (hv ▸ hp)]
    refine ⟨T, _, Step.refl h, Deepened.refl n q T, fun _ _ => rfl, hl', ?_, ?_, .inl hl'⟩
    · rw [tableOf_eq h.ok hlt, hv]
    · rw [hv]
      exact hlar

/-- After `enter_spec` below the PML4 the entry points to a table: nothing is left to split. -/
theorem enterSplit_spec (size : Nat) (h : Owned k root T) (h0 : 0 < n) (hn : n < 3)
    (hl : T.loc fmt.base (path q) n 4 = some (f, i))
    (hleaf : ∀ e, T.get (path q) (n + 1) 4 ≠ some (.leaf e))
    (hs : ((k.ensureEntry (k.virt f + 8 * i.val)).splitEntry (k.virt f + 8 * i.val) size).Supplied) :
    ∃ T' f', Step root k T
        ((k.ensureEntry (k.virt f + 8 * i.val)).splitEntry (k.virt f + 8 * i.val) size) T' ∧
      Opened q T T' ∧ T'.loc fmt.base (path q) (n + 1) 4 = some (f', path q (2 - n)) ∧
      ((k.ensureEntry (k.virt f + 8 * i.val)).splitEntry (k.virt f + 8 * i.val) size).tableOf
        (k.virt f + 8 * i.val) = k.virt f' := by
  obtain ⟨T', f', hst, hsp, _, hl', hto, hlar, _⟩ :=
    enter_spec h hn hl hleaf ((splitEntry_later _ _ _).supplied hs)
  have hvirt : (k.ensureEntry (k.virt f + 8 * i.val)).virt = k.virt :=
    congrArg Globals.virt hst.within.globals
  have hsmall := splitEntry_small (k := k.ensureEntry (k.virt f + 8 * i.val)) hst.owned.ok
    (h.frame hl).2.1 size (hlar.resolve_left (by omega))
  rw [hvirt] at hsmall
  rw [hsmall]
  exact ⟨T', f', hst, hsp.toOpened, hl', hto⟩

/-- The entries of a split 2 MiB leaf. -/
def PageTree.pieces (base : Nat) (j : Fin 512) : PageTree :=
  .leaf (freshEntry (base + j.val * 0x1000))

/-- The pieces of a 2 MiB leaf translate as the leaf did. -/
theorem split_pieces {e : Nat} (hg : T.get (path q) 3 4 = some (.leaf e))
    (hfit : vmmPtEntryGetAddress e + 512 * 0x1000 ≤ 2 ^ 52) (v : Nat) :
    Split T (T.put (path q) 3 4 (.table v (PageTree.pieces (vmmPtEntryGetAddress e)))) := by
  have hal := getAddress_aligned e
  apply Split.put (by omega) hg
  · intro r
    have hj := Nat.mod_lt r (show 0 < 512 by omega)
    have hx : (path r 0).val = r % 512 := by simp [path_val]
    simp only [PageTree.xlateFrom, PageTree.pieces, Tree.find, Option.map_some, getAddress_fresh, hx]
    rw [getAddress_of_aligned (by omega) (by omega)]
    norm_num [Nat.mod_one]
  · intro r l e' hl hf
    simp only [PageTree.pieces, Tree.find, Option.some.injEq, Prod.mk.injEq] at hf
    omega

theorem opened_pieces {e : Nat} (hg : T.get (path q) 3 4 = some (.leaf e))
    (hfit : vmmPtEntryGetAddress e + 512 * 0x1000 ≤ 2 ^ 52) (g : Nat) :
    Opened q T (T.put (path q) 3 4
      (.table (freshEntry g) (PageTree.pieces (vmmPtEntryGetAddress e)))) := by
  refine .put (by omega) hg (split_pieces hg hfit _) rfl rfl fun r l e' hb hf => ?_
  simp only [Tree.find, Option.some.injEq, Prod.mk.injEq] at hf
  exact ⟨hf.1.symm, hb, _, rfl⟩

/-- The step from a PD to a PT. A 2 MiB leaf is split on the way. -/
theorem enterPd_spec (h : Owned k root T) (hfit : PageTree.Fits T)
    (hl : T.loc fmt.base (path q) 2 4 = some (f, i))
    (hs : ((k.ensureEntry (k.virt f + 8 * i.val)).splitPdEntry (k.virt f + 8 * i.val)).Supplied) :
    ∃ T' f',
      Step root k T ((k.ensureEntry (k.virt f + 8 * i.val)).splitPdEntry (k.virt f + 8 * i.val)) T' ∧
      Opened q T T' ∧ T'.loc fmt.base (path q) 3 4 = some (f', path q 0) ∧
      ((k.ensureEntry (k.virt f + 8 * i.val)).splitPdEntry (k.virt f + 8 * i.val)).tableOf
        (k.virt f + 8 * i.val) = k.virt f' := by
  obtain ⟨hal, hlt, hfree, hbit⟩ := h.frame hl
  by_cases hleaf : ∃ e, T.get (path q) 3 4 = some (.leaf e)
  · obtain ⟨e, hg⟩ := hleaf
    obtain ⟨hv, hp, hlar⟩ : k.rd f i = e ∧ Present e ∧ Larger e := by
      rcases h.stored.slot_cases (by omega) hl with ⟨hg', _⟩ | ⟨e', hg', hv, hp, hlev⟩ |
        ⟨e', sub, hg', _⟩
      · rw [hg] at hg'; cases hg'
      · rw [hg] at hg'
        cases hg'
        exact ⟨hv, hp, (hlev.resolve_left (by omega)).2⟩
      · rw [hg] at hg'; cases hg'
    have hfind : T.find (path q) 4 = some (1, e) := by
      rw [Tree.find_of_get (by omega) hg fun _ _ _ => rfl]
      rfl
    have hfit := hfit q 1 e hfind
    rw [ensureEntry_present h.ok hlt (hv ▸ hp)] at hs ⊢
    obtain ⟨g, hgr, hfill⟩ := splitEntry_grown h.ok h.held hlt hal hfree hbit i (hv ▸ hlar) hs
    have hgf := free_lt h.ok.toPmmOk hgr.mem_free
    have hgal := free_aligned h.ok.toPmmOk hgr.mem_free
    have hgg : vmmPtEntryGetAddress g = g := getAddress_of_aligned hgal (by omega)
    have hbase : fmt.base (freshEntry g) = g := by
      simp only [fmt]
      rw [getAddress_fresh, hgg]
    refine ⟨_, g, h.grow (u := .table (freshEntry g) (PageTree.pieces (vmmPtEntryGetAddress e)))
      hl hg hgr ?_ ?_ ?_, opened_pieces hg (by simpa using hfit) g, ?_, ?_⟩
    · refine ⟨rfl, .inr ⟨present_fresh g, .inr ⟨by omega, not_larger_fresh g⟩⟩, fun j => ?_⟩
      rw [hbase]
      exact ⟨hv ▸ hfill j, present_fresh _, .inl (by omega)⟩
    · exact ⟨by simp [PageTree.pieces, Tree.frames], by simp [PageTree.pieces, Tree.frames],
        fun _ => trivial⟩
    · intro x hx
      simp only [PageTree.pieces, Tree.frames, Set.mem_insert_iff, Set.mem_iUnion,
        Set.mem_empty_iff_false, exists_false, or_false] at hx
      rw [hx, hbase]
      rfl
    · rw [(Tree.get_loc_succ (b := fmt.base) (Tree.get_put hg)).1, hbase]
    · rw [splitPdEntry, hgr.within.tableOf h.ok hlt, hgr.slot, getAddress_fresh, hgg]
  · exact enterSplit_spec _ h (by omega) (by omega) hl (fun e hg => hleaf ⟨e, hg⟩) hs

/-! ### The descent, level by level -/

/-- The descent from a PD on. -/
def Kernel.fromPd (k : Kernel) (pd v : Nat) : Nat × Kernel :=
  let pdEntry := pd + 8 * pdIndex v
  let k := (k.ensureEntry pdEntry).splitPdEntry pdEntry
  (k.tableOf pdEntry + 8 * ptIndex v, k)

/-- The descent from a PDPT on. -/
def Kernel.fromPdpt (k : Kernel) (pdpt v : Nat) : Nat × Kernel :=
  let pdptEntry := pdpt + 8 * pdptIndex v
  let k := (k.ensureEntry pdptEntry).splitPdptEntry pdptEntry
  k.fromPd (k.tableOf pdptEntry) v

theorem descend_eq (k : Kernel) (p v : Nat) : k.descend p v =
    (k.ensureEntry (p + 8 * pml4Index v)).fromPdpt
      ((k.ensureEntry (p + 8 * pml4Index v)).tableOf (p + 8 * pml4Index v)) v := rfl

theorem fromPd_later (k : Kernel) (p v : Nat) : Later k (k.fromPd p v).2 :=
  (ensureEntry_later _ _).trans (splitEntry_later _ _ _)

theorem fromPdpt_later (k : Kernel) (p v : Nat) : Later k (k.fromPdpt p v).2 :=
  ((ensureEntry_later _ _).trans (splitEntry_later _ _ _)).trans (fromPd_later _ _ _)

theorem descend_later (k : Kernel) (p v : Nat) : Later k (k.descend p v).2 :=
  (ensureEntry_later _ _).trans (fromPdpt_later _ _ _)

theorem fromPd_spec {v : Nat} (h : Owned k root T) (hfit : PageTree.Fits T)
    (hl : T.loc fmt.base (path (v / 0x1000)) 2 4 = some (f, path (v / 0x1000) 1))
    (hs : (k.fromPd (k.virt f) v).2.Supplied) :
    ∃ T' g, Step root k T (k.fromPd (k.virt f) v).2 T' ∧ Opened (v / 0x1000) T T' ∧
      T'.loc fmt.base (path (v / 0x1000)) 3 4 = some (g, path (v / 0x1000) 0) ∧
      (k.fromPd (k.virt f) v).1 = k.virt g + 8 * (path (v / 0x1000) 0).val := by
  simp only [fromPd, pdIndex_eq, ptIndex_eq] at hs ⊢
  obtain ⟨T', g, hst, hsp, hl', hto⟩ := enterPd_spec h hfit hl hs
  exact ⟨T', g, hst, hsp, hl', by rw [hto]⟩

theorem fromPdpt_spec {v : Nat} (h : Owned k root T) (hfit : PageTree.Fits T)
    (hhuge : ¬ PageTree.Huge T (v / 0x1000))
    (hl : T.loc fmt.base (path (v / 0x1000)) 1 4 = some (f, path (v / 0x1000) 2))
    (hs : (k.fromPdpt (k.virt f) v).2.Supplied) :
    ∃ T' g, Step root k T (k.fromPdpt (k.virt f) v).2 T' ∧ Opened (v / 0x1000) T T' ∧
      T'.loc fmt.base (path (v / 0x1000)) 3 4 = some (g, path (v / 0x1000) 0) ∧
      (k.fromPdpt (k.virt f) v).1 = k.virt g + 8 * (path (v / 0x1000) 0).val := by
  simp only [fromPdpt, pdptIndex_eq] at hs ⊢
  have hno : ∀ e, T.get (path (v / 0x1000)) 2 4 ≠ some (.leaf e) := by
    intro e hg
    apply hhuge
    rw [PageTree.Huge, Tree.find_of_get (by omega) hg fun _ _ _ => rfl]
    exact ⟨e, rfl⟩
  obtain ⟨T₁, f₁, hst₁, hsp₁, hl₁, hto⟩ :=
    enterSplit_spec (0x1000 * 512) h (by omega) (by omega) hl hno ((fromPd_later _ _ _).supplied hs)
  rw [← splitPdptEntry] at hst₁ hto
  rw [hto] at hs ⊢
  generalize (k.ensureEntry (k.virt f + 8 * (path (v / 0x1000) 2).val)).splitPdptEntry
    (k.virt f + 8 * (path (v / 0x1000) 2).val) = k₁ at hst₁ hs ⊢
  have hvirt : k.virt = k₁.virt := (congrArg Globals.virt hst₁.within.globals).symm
  rw [hvirt] at hs ⊢
  obtain ⟨T', g, hst, hsp, hl', hto'⟩ := fromPd_spec hst₁.owned (hsp₁.fits hfit) hl₁ hs
  exact ⟨T', g, hst₁.trans hst, hsp₁.trans hsp, hl', hto'⟩

/-- No leaf stands in the PML4. -/
theorem Stored.root_table (h : Stored k root T) (e : Nat) :
    T.get (path q) 1 4 ≠ some (.leaf e) := by
  intro hg
  rcases h.slot_cases (by omega) (h.loc_zero q) with ⟨hg', _⟩ | ⟨e', _, _, _, hlev⟩ | ⟨e', _, hg', _⟩
  · rw [hg] at hg'; cases hg'
  · omega
  · rw [hg] at hg'; cases hg'

/-- The descent ends at the PT slot of the page and changes no translation. -/
theorem descend_spec {v : Nat} (h : Owned k root T) (hfit : PageTree.Fits T)
    (hhuge : ¬ PageTree.Huge T (v / 0x1000)) (hs : (k.descend (k.virt root) v).2.Supplied) :
    ∃ T' f, Step root k T (k.descend (k.virt root) v).2 T' ∧ Opened (v / 0x1000) T T' ∧
      T'.loc fmt.base (path (v / 0x1000)) 3 4 = some (f, path (v / 0x1000) 0) ∧
      (k.descend (k.virt root) v).1 = k.virt f + 8 * (path (v / 0x1000) 0).val := by
  rw [descend_eq, pml4Index_eq] at hs ⊢
  obtain ⟨T₁, f₁, hst₁, hsp₁, _, hl₁, hto, _⟩ := enter_spec h (by omega)
    (h.stored.loc_zero (v / 0x1000)) h.stored.root_table ((fromPdpt_later _ _ _).supplied hs)
  rw [hto] at hs ⊢
  generalize k.ensureEntry (k.virt root + 8 * (path (v / 0x1000) 3).val) = k₁ at hst₁ hs ⊢
  have hvirt : k.virt = k₁.virt := (congrArg Globals.virt hst₁.within.globals).symm
  rw [hvirt] at hs ⊢
  have hno : ¬ PageTree.Huge T₁ (v / 0x1000) := fun ⟨e, he⟩ => hhuge ⟨e, hsp₁.large _ 2 e (by omega) he⟩
  obtain ⟨T', g, hst, hsp, hl, hto'⟩ := fromPdpt_spec hst₁.owned (hsp₁.fits hfit) hno hl₁ hs
  exact ⟨T', g, hst₁.trans hst, hsp₁.trans hsp, hl, hto'⟩

theorem Stored.tables_length (h : Stored k root T) (hl : T.loc fmt.base (path q) 3 4 = some (f, i)) :
    (T.tables (path q) 4).length = 4 := by
  obtain ⟨_, sub, _, _, _, hg⟩ := Tree.exists_get_of_loc hl
  obtain ⟨above, hlen, htables, _⟩ := Tree.tables_put hg
  have hbelow : (sub i).tables (path q) (4 - 4) = [] := by
    rcases h.slot_cases (by omega) hl with ⟨hg', _⟩ | ⟨e', hg', _⟩ | ⟨_, _, _, _, _, hn, _⟩
    · rw [Option.some_inj.mp (hg.symm.trans hg')]
      rfl
    · rw [Option.some_inj.mp (hg.symm.trans hg')]
      rfl
    · omega
  rw [htables, hbelow, List.append_nil, hlen]

theorem Stored.entry_of_loc {n f' : Nat} {i' : Fin 512} (h : Stored k root T) (hn : n < 3)
    (hl : T.loc fmt.base (path q) n 4 = some (f, i))
    (hl' : T.loc fmt.base (path q) (n + 1) 4 = some (f', i')) :
    Present (k.rd f i) ∧ (n = 0 ∨ ¬ Larger (k.rd f i)) ∧ vmmPtEntryGetAddress (k.rd f i) = f' := by
  obtain ⟨e, sub, hg, rfl, _, _⟩ := Tree.exists_get_of_loc hl'
  rcases h.slot_cases (by omega) hl with ⟨hg', _⟩ | ⟨e', hg', _⟩ | ⟨e', sub', hg', hv, hp, _, hlar, _⟩
  · rw [hg'] at hg; cases hg
  · rw [hg'] at hg; cases hg
  · rw [hg'] at hg
    cases hg
    exact ⟨hv ▸ hp, hlar.imp_right (hv ▸ ·), congrArg _ hv⟩

theorem fromPd_walked {v g : Nat} {j : Fin 512} (h : Owned k root T)
    (hl : T.loc fmt.base (path (v / 0x1000)) 2 4 = some (f, i))
    (hl' : T.loc fmt.base (path (v / 0x1000)) 3 4 = some (g, j)) :
    k.fromPd (k.virt f) v = (k.virt g + 8 * j.val, k) := by
  obtain rfl := loc_index hl
  obtain rfl := loc_index hl'
  obtain ⟨hp, hlar, ha⟩ := h.stored.entry_of_loc (by omega) hl hl'
  have hlt := (h.frame hl).2.1
  simp only [fromPd, pdIndex_eq, ptIndex_eq]
  rw [ensureEntry_present h.ok hlt hp, splitPdEntry,
    splitEntry_small h.ok hlt _ (hlar.resolve_left (by omega)), tableOf_eq h.ok hlt, ha]

theorem fromPdpt_walked {v g : Nat} {j : Fin 512} (h : Owned k root T)
    (hl : T.loc fmt.base (path (v / 0x1000)) 1 4 = some (f, i))
    (hl' : T.loc fmt.base (path (v / 0x1000)) 2 4 = some (g, j)) :
    k.fromPdpt (k.virt f) v = k.fromPd (k.virt g) v := by
  obtain rfl := loc_index hl
  obtain ⟨hp, hlar, ha⟩ := h.stored.entry_of_loc (by omega) hl hl'
  have hlt := (h.frame hl).2.1
  simp only [fromPdpt, pdptIndex_eq]
  rw [ensureEntry_present h.ok hlt hp, splitPdptEntry,
    splitEntry_small h.ok hlt _ (hlar.resolve_left (by omega)), tableOf_eq h.ok hlt, ha]

theorem descend_pdpt {v : Nat} (h : Owned k root T)
    (hl : T.loc fmt.base (path (v / 0x1000)) 1 4 = some (f, i)) :
    k.descend (k.virt root) v = k.fromPdpt (k.virt f) v := by
  obtain ⟨hp, _, ha⟩ := h.stored.entry_of_loc (by omega) (h.stored.loc_zero (v / 0x1000)) hl
  rw [descend_eq, pml4Index_eq, ensureEntry_present h.ok h.stored.lt hp, tableOf_eq h.ok h.stored.lt,
    ha]

theorem descend_pd {v : Nat} (h : Owned k root T)
    (hl : T.loc fmt.base (path (v / 0x1000)) 2 4 = some (f, i)) :
    k.descend (k.virt root) v = k.fromPd (k.virt f) v := by
  obtain ⟨f₁, i₁, hl₁⟩ := Tree.exists_loc_of_succ hl
  rw [descend_pdpt h hl₁, fromPdpt_walked h hl₁ hl]

theorem descend_walked {v : Nat} (h : Owned k root T)
    (hl : T.loc fmt.base (path (v / 0x1000)) 3 4 = some (f, i)) :
    k.descend (k.virt root) v = (k.virt f + 8 * i.val, k) := by
  obtain ⟨f₂, i₂, hl₂⟩ := Tree.exists_loc_of_succ hl
  rw [descend_pd h hl₂, fromPd_walked h hl₂ hl]

end Descent

/-! ## Mapping and unmapping -/

/-- `T'` gives the page `q` the translation `o`, every other page that of `T`, and has no large
leaf that `T` has not. -/
structure Updated (T : PageTree) (q : Nat) (o : Option Nat) (T' : PageTree) : Prop where
  xlate : ∀ r, PageTree.xlate T' r = if SameBlock 0 q r then o else PageTree.xlate T r
  large : ∀ r l e, 1 ≤ l → T'.find (path r) 4 = some (l, e) → T.find (path r) 4 = some (l, e)

section Update

variable {k : Kernel} {root : Nat} {T : PageTree}

theorem Updated.fits {T' : PageTree} {q : Nat} {o : Option Nat} (h : Updated T q o T')
    (hT : PageTree.Fits T) : PageTree.Fits T' := fits_of_large h.large hT

theorem updated_put {T' t t' : PageTree} {q : Nat} {o : Option Nat} (hsp : Split T T')
    (hg : T'.get (path q) 4 4 = some t) (hx : ∀ r, PageTree.xlateFrom t' 0 r = o)
    (hlev : ∀ r l e, t'.find (path r) 0 = some (l, e) → l = 0) :
    Updated T q o (T'.put (path q) 4 4 t') := by
  constructor
  · intro r
    rw [xlate_put (by omega) hg, hsp.xlate, hx]
  · intro r l e hl hf
    by_cases h : SameBlock (4 - 4) q r
    · rw [Tree.find_put_same (by omega) hg h] at hf
      have := hlev r l e hf
      omega
    · rw [Tree.find_put_other (by omega) h] at hf
      exact hsp.large r l e hl hf

theorem updated_leaf {T' t : PageTree} {q v : Nat} (hsp : Split T T')
    (hg : T'.get (path q) 4 4 = some t) :
    Updated T q (some (vmmPtEntryGetAddress v)) (T'.put (path q) 4 4 (.leaf v)) := by
  refine updated_put hsp hg (fun r => ?_) fun r l e hf => ?_
  · simp [PageTree.xlateFrom, Tree.find, Nat.mod_one]
  · simp only [Tree.find, Option.some.injEq, Prod.mk.injEq] at hf
    exact hf.1.symm

theorem updated_none {T' t : PageTree} {q : Nat} (hsp : Split T T')
    (hg : T'.get (path q) 4 4 = some t) : Updated T q none (T'.put (path q) 4 4 .none) :=
  updated_put hsp hg (fun _ => rfl) fun _ _ _ hf => by simp [Tree.find] at hf

theorem vmmMapPagePml4_eq (k : Kernel) (p pa va flags : Nat) : k.vmmMapPagePml4 p pa va flags =
    (k.descend p va).2.st64 (k.descend p va).1
      (vmmPtEntrySetAddress 0 (k.convertPhys pa) ||| flags ||| ptEntryPresent) := rfl

theorem vmmUnmapPage_eq (k : Kernel) (va : Nat) :
    k.vmmUnmapPage va = (k.descend k.pml4 va).2.st64 (k.descend k.pml4 va).1 0 := rfl

/-- The PT entry `vmm_map_page_pml4` writes. -/
def Kernel.pageEntry (k : Kernel) (pa flags : Nat) : Nat :=
  vmmPtEntrySetAddress 0 (k.convertPhys pa) ||| flags ||| ptEntryPresent

theorem pageEntry_address (k : Kernel) (pa : Nat) {flags : Nat} (hflags : flags < 2 ^ 12) :
    vmmPtEntryGetAddress (k.pageEntry pa flags) = vmmPtEntryGetAddress (k.convertPhys pa) := by
  rw [Kernel.pageEntry, getAddress_or (by decide), getAddress_or hflags, getAddress_setAddress]

theorem pageEntry_lt (k : Kernel) (pa : Nat) {flags : Nat} (hflags : flags < 2 ^ 12) :
    k.pageEntry pa flags < 2 ^ 64 :=
  Nat.or_lt_two_pow (Nat.or_lt_two_pow (setAddress_lt 0 _) (by omega)) (by decide)

theorem vmmMapPagePml4_put {pa va flags : Nat} (h : Owned k root T) (hfit : PageTree.Fits T)
    (hhuge : ¬ PageTree.Huge T (va / 0x1000)) (hflags : flags < 2 ^ 12)
    (hs : (k.vmmMapPagePml4 (k.virt root) pa va flags).Supplied) :
    ∃ T' t, Opened (va / 0x1000) T T' ∧ T'.get (path (va / 0x1000)) 4 4 = some t ∧
      (T'.tables (path (va / 0x1000)) 4).length = 4 ∧
      Step root k T (k.vmmMapPagePml4 (k.virt root) pa va flags)
        (T'.put (path (va / 0x1000)) 4 4 (.leaf (k.pageEntry pa flags))) := by
  have hlt := pageEntry_lt k pa hflags
  have hpres : Present (k.pageEntry pa flags) := present_or.mpr (.inr present_flag)
  rw [vmmMapPagePml4_eq, ← Kernel.pageEntry] at hs ⊢
  obtain ⟨T', f, hst, hsp, hl, hptr⟩ :=
    descend_spec h hfit hhuge ((st64_later _ _ _).supplied hs)
  generalize k.pageEntry pa flags = v at *
  rw [hptr] at hs ⊢
  generalize (k.descend (k.virt root) va).2 = k' at hst hs ⊢
  obtain ⟨e, sub, _, _, _, hg⟩ := Tree.exists_get_of_loc hl
  obtain ⟨hal, hflt, _, _⟩ := hst.owned.frame hl
  have hvirt : k.virt = k'.virt := (congrArg Globals.virt hst.within.globals).symm
  have hw := st64_wrote (k := k') (i := path (va / 0x1000) 0) hst.owned.ok.hhdm_lt hflt hal hlt
  refine ⟨T', _, hsp, hg, hst.owned.stored.tables_length hl, hst.trans ?_⟩
  rw [hvirt]
  exact hst.owned.write hl hg hw ⟨rfl, hpres, .inl (by omega)⟩ trivial rfl

/-- Mapping a page gives it its translation and changes no other. -/
theorem vmmMapPagePml4_spec {pa va flags : Nat} (h : Owned k root T) (hfit : PageTree.Fits T)
    (hhuge : ¬ PageTree.Huge T (va / 0x1000)) (hflags : flags < 2 ^ 12)
    (hs : (k.vmmMapPagePml4 (k.virt root) pa va flags).Supplied) :
    ∃ T', Step root k T (k.vmmMapPagePml4 (k.virt root) pa va flags) T' ∧
      Updated T (va / 0x1000) (some (vmmPtEntryGetAddress (k.convertPhys pa))) T' := by
  obtain ⟨T', t, hsp, hg, _, hst⟩ := vmmMapPagePml4_put h hfit hhuge hflags hs
  exact ⟨_, hst, pageEntry_address k pa hflags ▸ updated_leaf hsp.toSplit hg⟩

theorem vmmUnmapPage_put {va : Nat} (h : Owned k root T) (hr : k.pml4 = k.virt root)
    (hfit : PageTree.Fits T) (hhuge : ¬ PageTree.Huge T (va / 0x1000))
    (hs : (k.vmmUnmapPage va).Supplied) :
    ∃ T' t, Opened (va / 0x1000) T T' ∧ T'.get (path (va / 0x1000)) 4 4 = some t ∧
      (T'.tables (path (va / 0x1000)) 4).length = 4 ∧
      Step root k T (k.vmmUnmapPage va) (T'.put (path (va / 0x1000)) 4 4 .none) := by
  rw [vmmUnmapPage_eq, hr] at hs ⊢
  obtain ⟨T', f, hst, hsp, hl, hptr⟩ :=
    descend_spec h hfit hhuge ((st64_later _ _ _).supplied hs)
  rw [hptr] at hs ⊢
  generalize (k.descend (k.virt root) va).2 = k' at hst hs ⊢
  obtain ⟨e, sub, _, _, _, hg⟩ := Tree.exists_get_of_loc hl
  obtain ⟨hal, hlt, _, _⟩ := hst.owned.frame hl
  have hvirt : k.virt = k'.virt := (congrArg Globals.virt hst.within.globals).symm
  have hw := st64_wrote (k := k') (i := path (va / 0x1000) 0) (v := 0) hst.owned.ok.hhdm_lt hlt
    hal (by decide)
  refine ⟨T', _, hsp, hg, hst.owned.stored.tables_length hl, hst.trans ?_⟩
  rw [hvirt]
  exact hst.owned.write hl hg hw rfl trivial rfl

/-- Unmapping a page leaves it without translation and changes no other. -/
theorem vmmUnmapPage_spec {va : Nat} (h : Owned k root T) (hr : k.pml4 = k.virt root)
    (hfit : PageTree.Fits T) (hhuge : ¬ PageTree.Huge T (va / 0x1000))
    (hs : (k.vmmUnmapPage va).Supplied) :
    ∃ T', Step root k T (k.vmmUnmapPage va) T' ∧ Updated T (va / 0x1000) none T' := by
  obtain ⟨T', t, hsp, hg, _, hst⟩ := vmmUnmapPage_put h hr hfit hhuge hs
  exact ⟨_, hst, updated_none hsp.toSplit hg⟩

end Update

end BambooOS
