import BambooOS.Vmm.Offset
import BambooOS.Vmm.Stock

/-!
# Vmm.Rights

The access rights of pages when one of them is mapped or unmapped. The tables above the page are
used as they are found, and a split 2 MiB leaf is replaced by pages that may be read and written
and nothing else.

* `walkTables`: the entries the processor meets above the leaf, whose flags count with it.
* `leafFlagsKept_iff`: the flags of the other pages are lost exactly in a split of a leaf with others.
* `rights_iff`: together with the rights of the mapped page, which the tables on its way must allow.
-/

namespace BambooOS

open Radix Kernel

/-! ## Flags and rights -/

/-- Read-write, user, write-through and cache-disabled, and the bits from 52 on. -/
def leafFlags (e : Nat) : Nat :=
  e &&& (ptEntryReadWrite ||| ptEntryUserAccess ||| ptEntryWriteThrough ||| ptEntryCacheDisabled |||
    0xFFF0000000000000)

/-- The table entries the walk for the page `q` goes through, from the table `table` on. -/
def walkTables (rd : Nat → Fin 512 → Nat) (q : Nat) : Nat → Nat → List Nat
  | 0, _ => []
  | l + 1, table =>
    let e := rd table (path q l)
    if Present e ∧ ¬ (l = 0 ∨ (l = 1 ∨ l = 2) ∧ Larger e) then
      e :: walkTables rd q l (vmmPtEntryGetAddress e)
    else []

/-- The page has the right: all entries of its walk have the flag. -/
def Allowed (rd : Nat → Fin 512 → Nat) (root q flag : Nat) : Prop :=
  (∀ e ∈ walkTables rd q 4 root, e &&& flag ≠ 0) ∧
    ∃ l e, hardwareWalk rd q 4 root = some (l, e) ∧ e &&& flag ≠ 0

/-- Every mapped page but `q` has in `k'` the flags of its leaf in `k`. -/
def LeafFlagsKept (k k' : Kernel) (root q : Nat) : Prop :=
  ∀ r, ¬ SameBlock 0 q r → ∀ l e, hardwareWalk k.rd r 4 root = some (l, e) →
    ∃ l' e', hardwareWalk k'.rd r 4 root = some (l', e') ∧ leafFlags e' = leafFlags e

/-- The page `q` was mapped with `flags`, and no other page lost its own. -/
structure MappedAs (k k' : Kernel) (root q flags : Nat) : Prop where
  others : LeafFlagsKept k k' root q
  readWrite : Allowed k'.rd root q ptEntryReadWrite ↔ flags &&& ptEntryReadWrite ≠ 0
  user : Allowed k'.rd root q ptEntryUserAccess ↔ flags &&& ptEntryUserAccess ≠ 0

/-- If the page is in a 2 MiB leaf, this may be read and written and has no other flag. -/
def PlainLeaf (rd : Nat → Fin 512 → Nat) (root q : Nat) : Prop :=
  ∀ e, hardwareWalk rd q 4 root = some (1, e) → leafFlags e = ptEntryReadWrite

/-- The tables on the way to the page allow what `flags` ask for: none of them forbids writing, and
for a user page all three are there and marked so. -/
structure TablesAllow (rd : Nat → Fin 512 → Nat) (root q flags : Nat) : Prop where
  readWrite : flags &&& ptEntryReadWrite ≠ 0 →
    ∀ e ∈ walkTables rd q 4 root, e &&& ptEntryReadWrite ≠ 0
  user : flags &&& ptEntryUserAccess ≠ 0 → (walkTables rd q 4 root).length = 3 ∧
    ∀ e ∈ walkTables rd q 4 root, e &&& ptEntryUserAccess ≠ 0

theorem leafFlags_fresh (a : Nat) : leafFlags (freshEntry a) = ptEntryReadWrite := by
  have hmask : (0x000FFFFFFFFFF000 &&& (ptEntryReadWrite ||| ptEntryUserAccess |||
      ptEntryWriteThrough ||| ptEntryCacheDisabled ||| 0xFFF0000000000000) : Nat) = 0 := by decide
  rw [leafFlags, freshEntry, vmmPtEntrySetAddress, setAddress_field, vmmPtEntryGetAddress,
    Nat.zero_and, Nat.zero_or, Nat.and_or_distrib_right, Nat.and_or_distrib_right, Nat.and_assoc,
    hmask, Nat.and_zero, Nat.zero_or]
  decide

theorem fresh_readWrite (g : Nat) : freshEntry g &&& ptEntryReadWrite ≠ 0 := by
  have hbit : ptEntryReadWrite.testBit 1 = true := by decide
  refine (Bits.and_bit_ne_zero _ 1).mpr ?_
  rw [freshEntry, Nat.testBit_or, Nat.testBit_or]
  simp [hbit]

theorem fresh_not_user (g : Nat) : ¬ freshEntry g &&& ptEntryUserAccess ≠ 0 := by
  have hrw : ptEntryReadWrite.testBit 2 = false := by decide
  have hp : ptEntryPresent.testBit 2 = false := by decide
  intro h
  have h := (Bits.and_bit_ne_zero _ 2).mp h
  rw [freshEntry, Nat.testBit_or, Nat.testBit_or, testBit_setAddress] at h
  simp [hrw, hp] at h

theorem testBit_pageEntry {k : Kernel} {pa flags i : Nat} (hi : 0 < i) (hi' : i < 12) :
    (k.pageEntry pa flags).testBit i = flags.testBit i := by
  have hp : ptEntryPresent.testBit i = false :=
    Nat.testBit_lt_two_pow (Nat.one_lt_two_pow (by omega))
  rw [pageEntry, Nat.testBit_or, Nat.testBit_or, testBit_setAddress, hp]
  simp [show ¬ (12 ≤ i ∧ i < 52) by omega]

theorem pageEntry_readWrite {k : Kernel} {pa flags : Nat} :
    k.pageEntry pa flags &&& ptEntryReadWrite ≠ 0 ↔ flags &&& ptEntryReadWrite ≠ 0 := by
  have h := Bits.and_bit_ne_zero (k.pageEntry pa flags) 1
  rw [testBit_pageEntry (by decide) (by decide)] at h
  exact h.trans (Bits.and_bit_ne_zero flags 1).symm

theorem pageEntry_user {k : Kernel} {pa flags : Nat} :
    k.pageEntry pa flags &&& ptEntryUserAccess ≠ 0 ↔ flags &&& ptEntryUserAccess ≠ 0 := by
  have h := Bits.and_bit_ne_zero (k.pageEntry pa flags) 2
  rw [testBit_pageEntry (by decide) (by decide)] at h
  exact h.trans (Bits.and_bit_ne_zero flags 2).symm

section Rights

variable {k k' : Kernel} {root q : Nat} {T T' : PageTree}

/-! ## Walks through a stored tree -/

theorem walkTables_tables {rd : Nat → Fin 512 → Nat} {l e : Nat} {sub : Fin 512 → PageTree}
    (hl : l ≤ 4) (h : (Tree.table e sub).Rep fmt rd l e) :
    e :: walkTables rd q l (vmmPtEntryGetAddress e) = (Tree.table e sub).tables (path q) l := by
  induction l generalizing e sub with
  | zero =>
    obtain ⟨_, ht, _⟩ := h
    simp [fmt] at ht
  | succ l ih =>
    obtain ⟨_, _, hsub⟩ := h
    have hrep := hsub (path q l)
    simp only [Tree.tables, Nat.add_sub_cancel, walkTables]
    cases hs : sub (path q l) with
    | none =>
      rw [hs] at hrep
      have hv : rd (vmmPtEntryGetAddress e) (path q l) = 0 := hrep
      rw [hv, if_neg fun hp => not_present_zero hp.1]
      rfl
    | leaf e' =>
      rw [hs] at hrep
      obtain ⟨hv, _, hleaf⟩ := hrep
      have hv : rd (vmmPtEntryGetAddress e) (path q l) = e' := hv
      rw [hv, if_neg fun ht => ht.2 hleaf]
      rfl
    | table e' sub' =>
      rw [hs] at hrep
      obtain ⟨hv, ht, hrest⟩ := hrep
      have hv : rd (vmmPtEntryGetAddress e) (path q l) = e' := hv
      obtain ⟨hp, hlev⟩ := ht.resolve_left (by omega)
      have hnot : ¬ (l = 0 ∨ (l = 1 ∨ l = 2) ∧ Larger e') := by
        intro hleaf
        cases hleaf with
        | inl h0 => omega
        | inr hlar =>
          cases hlev with
          | inl h3 => omega
          | inr hsmall => exact hsmall.2 hlar.2
      rw [hv, if_pos ⟨hp, hnot⟩]
      congr 1
      exact ih (by omega) ⟨rfl, ht, hrest⟩

/-- On a stored tree the processor goes through the tables of the path. -/
theorem Stored.walkTables (h : Stored k root T) (q : Nat) :
    root :: walkTables k.rd q 4 root = T.tables (path q) 4 := by
  obtain ⟨sub, rfl⟩ := h.table
  have := walkTables_tables (q := q) (Nat.le_refl 4) h.rep
  rwa [h.base] at this

/-! ## The other pages -/

theorem exists_neighbour (q : Nat) : ∃ r, SameBlock 1 q r ∧ ¬ SameBlock 0 q r := by
  refine ⟨q / 512 * 512 + (q % 512 + 1) % 512, ?_, ?_⟩
  · rw [sameBlock_iff (by omega)]
    norm_num
    omega
  · rw [sameBlock_iff (by omega)]
    norm_num
    omega

/-- A descent followed by a write of the page's own entry keeps the flags of the others exactly if
it splits no leaf but a plain one. -/
theorem leafFlagsKept_iff {t u : PageTree} (h : Stored k root T) (ho : Opened q T T')
    (hg : T'.get (path q) 4 4 = some t) (h' : Stored k' root (T'.put (path q) 4 4 u)) :
    LeafFlagsKept k k' root q ↔ PlainLeaf k.rd root q := by
  have hother : ∀ r, ¬ SameBlock 0 q r →
      hardwareWalk k'.rd r 4 root = T'.find (path r) 4 := by
    intro r hr
    rw [h'.hardwareWalk]
    exact Tree.find_put_other (Nat.le_refl 4) hr
  constructor
  · intro hk e he
    rw [h.hardwareWalk] at he
    obtain ⟨r, hblock, hr⟩ := exists_neighbour q
    have hfind := leaf_block he hblock
    obtain ⟨l', e', hf', hflags⟩ := hk r hr 1 e (by rw [h.hardwareWalk, hfind])
    rw [hother r hr] at hf'
    cases ho.leaves r 1 e hfind with
    | inl hsame =>
      obtain ⟨f, hl⟩ := Tree.exists_loc_of_get (b := fmt.base) hg
      have := find_of_pt hl hblock hsame
      omega
    | inr hpiece =>
      obtain ⟨_, _, a, ha⟩ := hpiece
      rw [ha] at hf'
      cases hf'
      rw [← hflags, leafFlags_fresh]
  · intro hplain r hr l e he
    rw [h.hardwareWalk] at he
    rw [hother r hr]
    cases ho.leaves r l e he with
    | inl hsame => exact ⟨l, e, hsame, rfl⟩
    | inr hpiece =>
      obtain ⟨rfl, hblock, a, ha⟩ := hpiece
      have hq := leaf_block he fun j hj hj' => (hblock j hj hj').symm
      refine ⟨0, _, ha, ?_⟩
      rw [leafFlags_fresh, hplain e (by rw [h.hardwareWalk, hq])]

/-! ## The page itself -/

/-- The tables of the page are those of before and new ones below them, four with the root. -/
theorem walkTables_mapped {t : PageTree} {v : Nat} (h : Stored k root T) (ho : Opened q T T')
    (hg : T'.get (path q) 4 4 = some t) (hlen : (T'.tables (path q) 4).length = 4)
    (h' : Stored k' root (T'.put (path q) 4 4 (.leaf v))) :
    ∃ gs : List Nat, walkTables k'.rd q 4 root = walkTables k.rd q 4 root ++ gs.map freshEntry ∧
      (walkTables k.rd q 4 root).length + gs.length = 3 := by
  obtain ⟨gs, hgs⟩ := ho.tables
  obtain ⟨above, habove, htables, hput⟩ := Tree.tables_put hg
  have hbelow : t.tables (path q) (4 - 4) = [] := by
    rw [htables, List.length_append, habove] at hlen
    exact List.length_eq_zero_iff.mp (by omega)
  have hafter := h'.walkTables q
  rw [hput, show (Tree.leaf v : PageTree).tables (path q) (4 - 4) = [] from rfl, ← hbelow,
    ← htables, hgs, ← h.walkTables q, List.cons_append] at hafter
  refine ⟨gs, List.tail_eq_of_cons_eq hafter, ?_⟩
  rw [hgs, ← h.walkTables q, List.length_append, List.length_cons, List.length_map] at hlen
  omega

theorem allowed_mapped {t : PageTree} {v flag : Nat} (hg : T'.get (path q) 4 4 = some t)
    (h' : Stored k' root (T'.put (path q) 4 4 (.leaf v))) :
    Allowed k'.rd root q flag ↔
      (∀ e ∈ walkTables k'.rd q 4 root, e &&& flag ≠ 0) ∧ v &&& flag ≠ 0 := by
  have hleaf : hardwareWalk k'.rd q 4 root = some (0, v) := by
    rw [h'.hardwareWalk]
    exact Tree.find_put_same (Nat.le_refl 4) hg fun _ _ _ => rfl
  unfold Allowed
  rw [hleaf]
  refine and_congr_right fun _ => ⟨fun hv => ?_, fun hv => ⟨0, v, rfl, hv⟩⟩
  obtain ⟨l, e, he, hflag⟩ := hv
  cases he
  exact hflag

/-- The page gets the rights asked for exactly if the tables on its way allow them. -/
theorem mapped_rights_iff {t : PageTree} {pa flags : Nat} (h : Stored k root T)
    (ho : Opened q T T') (hg : T'.get (path q) 4 4 = some t)
    (hlen : (T'.tables (path q) 4).length = 4)
    (h' : Stored k' root (T'.put (path q) 4 4 (.leaf (k.pageEntry pa flags)))) :
    ((Allowed k'.rd root q ptEntryReadWrite ↔ flags &&& ptEntryReadWrite ≠ 0) ∧
      (Allowed k'.rd root q ptEntryUserAccess ↔ flags &&& ptEntryUserAccess ≠ 0)) ↔
      TablesAllow k.rd root q flags := by
  obtain ⟨gs, hgs, hcount⟩ := walkTables_mapped h ho hg hlen h'
  rw [allowed_mapped hg h', allowed_mapped hg h', pageEntry_readWrite, pageEntry_user, hgs]
  -- the new tables are read-write, and none of them is for users
  have hrw : (∀ e ∈ walkTables k.rd q 4 root ++ gs.map freshEntry, e &&& ptEntryReadWrite ≠ 0) ↔
      ∀ e ∈ walkTables k.rd q 4 root, e &&& ptEntryReadWrite ≠ 0 := by
    constructor
    · intro hall e he
      exact hall e (List.mem_append_left _ he)
    · intro hall e he
      cases List.mem_append.mp he with
      | inl he => exact hall e he
      | inr he =>
        obtain ⟨g, _, rfl⟩ := List.mem_map.mp he
        exact fresh_readWrite g
  have huser : (∀ e ∈ walkTables k.rd q 4 root ++ gs.map freshEntry, e &&& ptEntryUserAccess ≠ 0) ↔
      (walkTables k.rd q 4 root).length = 3 ∧
        ∀ e ∈ walkTables k.rd q 4 root, e &&& ptEntryUserAccess ≠ 0 := by
    constructor
    · intro hall
      refine ⟨?_, fun e he => hall e (List.mem_append_left _ he)⟩
      cases gs with
      | nil => simpa using hcount
      | cons g gs => exact absurd (hall (freshEntry g) (by simp)) (fresh_not_user g)
    · intro hall e he
      have hnil : gs = [] := List.length_eq_zero_iff.mp (by omega)
      rw [hnil, List.map_nil, List.append_nil] at he
      exact hall.2 e he
  rw [hrw, huser]
  constructor
  · intro hrights
    exact ⟨fun hf => (hrights.1.mpr hf).1, fun hf => (hrights.2.mpr hf).1⟩
  · intro hallow
    exact ⟨⟨fun hb => hb.2, fun hf => ⟨hallow.readWrite hf, hf⟩⟩,
      ⟨fun hb => hb.2, fun hf => ⟨hallow.user hf, hf⟩⟩⟩

/-! ## Both operations -/

theorem vmmMapPageFlags_rights {pa va flags : Nat} (h : Owned k root T) (hr : k.pml4 = k.virt root)
    (hfit : PageTree.Fits T) (hhuge : ¬ PageTree.Huge T (va / 0x1000)) (hflags : flags < 2 ^ 8)
    (hs : (k.vmmMapPageFlags pa va flags).Supplied) :
    MappedAs k (k.vmmMapPageFlags pa va flags) root (va / 0x1000) flags ↔
      PlainLeaf k.rd root (va / 0x1000) ∧ TablesAllow k.rd root (va / 0x1000) flags := by
  rw [vmmMapPageFlags, hr] at hs ⊢
  obtain ⟨T', t, ho, hg, hlen, hst⟩ := vmmMapPagePml4_put h hfit hhuge (by omega) hs
  have hothers := leafFlagsKept_iff h.stored ho hg hst.owned.stored
  have hrights := mapped_rights_iff h.stored ho hg hlen hst.owned.stored
  constructor
  · intro hm
    exact ⟨hothers.mp hm.others, hrights.mp ⟨hm.readWrite, hm.user⟩⟩
  · intro hc
    obtain ⟨hrw, huser⟩ := hrights.mpr hc.2
    exact ⟨hothers.mpr hc.1, hrw, huser⟩

theorem vmmUnmapPage_rights {va : Nat} (h : Owned k root T) (hr : k.pml4 = k.virt root)
    (hfit : PageTree.Fits T) (hhuge : ¬ PageTree.Huge T (va / 0x1000))
    (hs : (k.vmmUnmapPage va).Supplied) :
    LeafFlagsKept k (k.vmmUnmapPage va) root (va / 0x1000) ↔ PlainLeaf k.rd root (va / 0x1000) := by
  obtain ⟨T', t, ho, hg, _, hst⟩ := vmmUnmapPage_put h hr hfit hhuge hs
  exact leafFlagsKept_iff h.stored ho hg hst.owned.stored

/-- Mapping a page gives it the rights asked for, and mapping and unmapping leave the flags of the
others, exactly if no leaf with other flags than read-write is split and the tables on the way allow
the rights. -/
theorem rights_iff (h : Owned k root T) (hr : k.pml4 = k.virt root) (hfit : PageTree.Fits T)
    {va : Nat} (hhuge : ¬ PageTree.Huge T (va / 0x1000)) :
    (∀ pa flags, flags < 2 ^ 8 → (k.vmmMapPageFlags pa va flags).Supplied →
      (MappedAs k (k.vmmMapPageFlags pa va flags) root (va / 0x1000) flags ↔
        PlainLeaf k.rd root (va / 0x1000) ∧ TablesAllow k.rd root (va / 0x1000) flags)) ∧
    ((k.vmmUnmapPage va).Supplied →
      (LeafFlagsKept k (k.vmmUnmapPage va) root (va / 0x1000) ↔
        PlainLeaf k.rd root (va / 0x1000))) :=
  ⟨fun _ _ hflags hs => vmmMapPageFlags_rights h hr hfit hhuge hflags hs, fun hs =>
    vmmUnmapPage_rights h hr hfit hhuge hs⟩

end Rights

/-! ## A machine with a 2 MiB leaf -/

/-- The first 2 MiB are a single leaf, below tables that users may write through. -/
def leafSlots (e : Nat) : List (Nat × Nat) :=
  [(0x400000, 0x401007), (0x401000, 0x402007), (0x402000, e)]

def leafTree (e : Nat) : PageTree :=
  .single 0x400000 0 (.single 0x401007 0 (.single 0x402007 0 (.leaf e)))

theorem leaf_bases : vmmPtEntryGetAddress 0x400000 = 0x400000 ∧
    vmmPtEntryGetAddress 0x401007 = 0x401000 ∧ vmmPtEntryGetAddress 0x402007 = 0x402000 := by decide

theorem leafTree_stored {e : Nat} (he : e = 0x83 ∨ e = 0x87) :
    Stored (bareMachine (leafSlots e)) 0x400000 (leafTree e) := by
  obtain ⟨e₀, e₁, e₂⟩ := leaf_bases
  have hrep : (leafTree e).Rep fmt (bareMachine (leafSlots e)).rd 4 0x400000 := by
    rcases he with rfl | rfl
    all_goals
      refine machine_single (v := 0x401007) (.inl rfl) (by decide) (by decide) ?_
      refine machine_single (v := 0x402007) (.inr ⟨by decide, .inl rfl⟩) (by decide) (by decide) ?_
      exact machine_single (.inr ⟨by decide, .inr ⟨.inr rfl, by decide⟩⟩) (by decide) rfl
        ⟨rfl, by decide, .inr ⟨.inl rfl, by decide⟩⟩
  refine ⟨⟨_, rfl⟩, hrep, single_sep (single_sep (single_sep trivial ?_) ?_) ?_, by decide, by decide⟩
  all_goals simp [single_frames, Tree.frames, e₀, e₁, e₂]

theorem leafMachine_owned {e : Nat} (he : e = 0x83 ∨ e = 0x87) :
    Owned (machine (leafSlots e)) 0x400000 (leafTree e) ∧
      (machine (leafSlots e)).pml4 = (machine (leafSlots e)).virt 0x400000 := by
  obtain ⟨e₀, e₁, e₂⟩ := leaf_bases
  refine machine_owned (leafTree_stored he) ?_
  intro f hf
  simp only [leafTree, single_frames, Tree.frames, e₀, e₁, e₂, Set.mem_insert_iff,
    Set.mem_empty_iff_false, or_false] at hf
  omega

theorem leafTree_small {e : Nat} (he : e = 0x83 ∨ e = 0x87) :
    PageTree.Fits (leafTree e) ∧ ∀ q, ¬ PageTree.Huge (leafTree e) q := by
  have hfind : ∀ q l e', (leafTree e).find (path q) 4 = some (l, e') → l = 1 ∧ e' = e := by
    intro q l e' hf
    simp only [leafTree, single_find, Tree.find] at hf
    split_ifs at hf
    cases hf
    exact ⟨rfl, rfl⟩
  constructor
  · intro q l e' hf
    obtain ⟨rfl, rfl⟩ := hfind q l e' hf
    rcases he with rfl | rfl
    all_goals decide
  · rintro q ⟨e', hf⟩
    exact absurd (hfind q 2 e' hf).1 (by decide)

/-- A read-write leaf keeps the flags of its other pages when one of them is mapped or unmapped. -/
theorem leaf_mappedAs :
    MappedAs (machine (leafSlots 0x83))
      ((machine (leafSlots 0x83)).vmmMapPageFlags 0x7000 0x5000 ptEntryReadWrite) 0x400000
      (0x5000 / 0x1000) ptEntryReadWrite ∧
    LeafFlagsKept (machine (leafSlots 0x83)) ((machine (leafSlots 0x83)).vmmUnmapPage 0x5000)
      0x400000 (0x5000 / 0x1000) := by
  obtain ⟨hO, hr⟩ := leafMachine_owned (e := 0x83) (.inl rfl)
  obtain ⟨hfit, hno⟩ := leafTree_small (e := 0x83) (.inl rfl)
  have hs := descend_stocked hO hr (hno (0x5000 / 0x1000)) (machine_stocked (leafSlots 0x83))
  rw [← hr] at hs
  have hplain : PlainLeaf (machine (leafSlots 0x83)).rd 0x400000 (0x5000 / 0x1000) := by
    intro e he
    rw [hO.stored.hardwareWalk,
      show (leafTree 0x83).find (path (0x5000 / 0x1000)) 4 = some (1, 0x83) by decide] at he
    cases he
    decide
  obtain ⟨hmap, hunmap⟩ := rights_iff hO hr hfit (hno (0x5000 / 0x1000))
  refine ⟨(hmap 0x7000 ptEntryReadWrite (by decide) (hs.st64 _ _)).mpr ⟨hplain, ?_, ?_⟩,
    (hunmap (hs.st64 _ _)).mpr hplain⟩
  · intro _
    have htables := hO.stored.walkTables (0x5000 / 0x1000)
    have hpath : (leafTree 0x83).tables (path (0x5000 / 0x1000)) 4 =
        [0x400000, 0x401007, 0x402007] := by decide
    rw [hpath] at htables
    rw [List.tail_eq_of_cons_eq htables]
    decide
  · intro huser
    exact absurd huser (by decide)

/-- Users lose the other pages of a leaf when one of them is mapped or unmapped. -/
theorem userMachine_lost :
    ¬ MappedAs (machine (leafSlots 0x87))
      ((machine (leafSlots 0x87)).vmmMapPageFlags 0x7000 0x5000
        (ptEntryReadWrite ||| ptEntryUserAccess))
      0x400000 (0x5000 / 0x1000) (ptEntryReadWrite ||| ptEntryUserAccess) ∧
    ¬ LeafFlagsKept (machine (leafSlots 0x87)) ((machine (leafSlots 0x87)).vmmUnmapPage 0x5000)
      0x400000 (0x5000 / 0x1000) := by
  obtain ⟨hO, hr⟩ := leafMachine_owned (e := 0x87) (.inr rfl)
  obtain ⟨hfit, hno⟩ := leafTree_small (e := 0x87) (.inr rfl)
  have hhuge := hno (0x5000 / 0x1000)
  have hs := descend_stocked hO hr hhuge (machine_stocked (leafSlots 0x87))
  rw [← hr] at hs
  have hplain : ¬ PlainLeaf (machine (leafSlots 0x87)).rd 0x400000 (0x5000 / 0x1000) := by
    intro hp
    refine absurd (hp 0x87 ?_) (by decide)
    rw [hO.stored.hardwareWalk]
    decide
  constructor
  · intro hm
    exact hplain ((vmmMapPageFlags_rights hO hr hfit hhuge (by decide) (hs.st64 _ _)).mp hm).1
  · intro hk
    refine hplain ((vmmUnmapPage_rights hO hr hfit hhuge ?_).mp hk)
    exact hs.st64 _ _

end BambooOS
