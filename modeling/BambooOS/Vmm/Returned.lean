import BambooOS.Vmm.Calls

/-!
# Vmm.Returned

What becomes of a page that is given back. `pmm_free` clears its bit and then maps its higher-half
page once more, and that map looks its arguments up in the current tree like any other.

* `freedDenotes_iff`: when the higher-half address of the frame denotes the frame afterwards.
* `freesOnly_iff`: when the bit of the frame is the only one that changes.
-/

namespace BambooOS

open ByteMem Radix Kernel

/-- The bit of the frame `f` is clear, the bitmap is otherwise the same, and one page more is
reported free. -/
structure FreesOnly (f : Nat) (k k' : Kernel) : Prop where
  bits : ∀ x, pageOf x ∈ k.Bitmap → k'.mem x =
    if x = k.bitAddr (k.pmmGetIndexByAddress f)
      then k.mem x &&& ~~~ (1#8 <<< bitOfByte (k.pmmGetIndexByAddress f)) else k.mem x
  memory : k'.pmmGetCurrentFreeMemory = k.pmmGetCurrentFreeMemory + 0x1000

theorem missingTables_le (k : Kernel) (v : Nat) : k.missingTables v ≤ 3 := by
  simp only [missingTables]
  split_ifs <;> omega

section Descent

variable {k : Kernel} {root e v : Nat} {T : PageTree}

theorem descend_split_free (h : Owned k root T) (he : T.find (path (v / 0x1000)) 4 = some (1, e))
    (hs : (k.descend (k.virt root) v).2.Supplied) :
    ∃ g ∈ k.Free, (k.descend (k.virt root) v).2.Free = k.Free \ {g} := by
  obtain ⟨f, hl, hv, hp, hlar⟩ := h.stored.slot_of_leaf (by omega) he
  obtain ⟨hal, hlt, hfree, hbit⟩ := h.frame hl
  rw [descend_pd h hl] at hs ⊢
  simp only [fromPd, pdIndex_eq] at hs ⊢
  rw [ensureEntry_present h.ok hlt (hv ▸ hp)] at hs ⊢
  obtain ⟨g, hgr, _⟩ := splitEntry_grown h.ok h.held hlt hal hfree hbit (path (v / 0x1000) 1)
    (hv ▸ hlar.resolve_left (by omega)) hs
  exact ⟨g, hgr.mem_free, hgr.free⟩

theorem vmmMapPagePml4_free {pa flags : Nat} (h : Owned k root T) (hfit : PageTree.Fits T)
    (hhuge : ¬ PageTree.Huge T (v / 0x1000)) (hs : (k.descend (k.virt root) v).2.Supplied) :
    (k.vmmMapPagePml4 (k.virt root) pa v flags).Free = (k.descend (k.virt root) v).2.Free := by
  obtain ⟨T', f, hst, _, hl, hptr⟩ := descend_spec h hfit hhuge hs
  rw [vmmMapPagePml4_eq, hptr]
  generalize (k.descend (k.virt root) v).2 = k' at hst ⊢
  obtain ⟨hal, hlt, _, hbit⟩ := hst.owned.frame hl
  rw [← congrArg Globals.virt hst.within.globals]
  refine free_congr hst.owned.ok.toPmmOk (st64_toGlobals _ _ _) fun x hx => ?_
  refine st64_slot_kept hst.owned.ok.hhdm_lt hlt _ hal _ x ?_
  rintro rfl
  exact hbit hx

end Descent

section Returned

variable {root f : Nat} {C : PageTree} {s : PmmState}

theorem FreesOnly.congr {k k' k'' : Kernel} (h : FreesOnly f k k')
    (hm : ∀ x, pageOf x ∈ k.Bitmap → k''.mem x = k'.mem x)
    (hg : k''.toGlobals = k'.toGlobals)
    (hn : k''.pmmNumAllocatedPages = k'.pmmNumAllocatedPages) : FreesOnly f k k'' where
  bits := fun x hx => (hm x hx).trans (h.bits x hx)
  memory := by
    rw [← h.memory, pmmGetCurrentFreeMemory, pmmGetCurrentFreeMemory, hg, hn]

theorem released_toGlobals (k : Kernel) (f : Nat) : (k.released f).toGlobals = k.toGlobals := by
  rw [Kernel.released, log_toGlobals, set_toGlobals]

theorem Paging.held_ne (h : Paging root C s) (hf : f ∈ s.held) : f ≠ uint64Max := by
  have hlt := (h.held_frame hf).2.1.lt h.pmmOk.map
  simp only [uint64Max]
  omega

theorem Paging.virt_aligned (h : Paging root C s) (hf : f ∈ s.held) :
    s.kernel.virt f % 0x1000 = 0 := by
  have hal := (h.held_frame hf).1
  have hwin := h.window
  rw [Globals.virt]
  omega

theorem Paging.released_freesOnly (h : Paging root C s) (hf : f ∈ s.held) :
    FreesOnly f s.kernel (s.kernel.released f) := by
  have hk := h.pmmOk
  obtain ⟨hal, hu, hbit, hfree, _⟩ := h.held_frame hf
  obtain ⟨hi, haddr⟩ := hk.index hu
  rw [pageOf_self hal] at haddr
  have hset : s.kernel.pmmIsUsablePageAllocatedByIndex (s.kernel.pmmGetIndexByAddress f) = true := by
    by_contra hclear
    exact hfree ⟨_, hi, haddr, by simpa using hclear⟩
  have hpos : 0 < s.kernel.pmmNumAllocatedPages := by
    rw [h.counted]
    exact Finset.card_pos.mpr ⟨_, mem_allocated.mpr ⟨hi, hset⟩⟩
  have hle : s.kernel.pmmNumAllocatedPages ≤ s.kernel.pmmUsablePages := by
    rw [h.counted]
    exact allocated_card_le
  have hu := hk.usable_le
  constructor
  · intro x _
    rw [Kernel.released, show ∀ k : Kernel, (k.log (.free f)).mem = k.mem from fun _ => rfl,
      (set_spec hk hi false).1, Function.update_apply]
    split
    · rename_i hx
      rw [hx]
      rfl
    · rfl
  · have hnum : (s.kernel.released f).pmmNumAllocatedPages = s.kernel.pmmNumAllocatedPages - 1 := by
      rw [Kernel.released, show ∀ k : Kernel, (k.log (.free f)).pmmNumAllocatedPages =
        k.pmmNumAllocatedPages from fun _ => rfl, set_num hk hi, hset]
      simp only [Bool.true_eq_false, if_false, Bool.false_eq_true]
      rw [if_neg (by omega)]
    rw [pmmGetCurrentFreeMemory, pmmGetCurrentFreeMemory, hnum, released_toGlobals]
    omega

theorem Paging.found (h : Paging root C s) {v : Nat} (hv : s.kernel.vmmVirtToPhys v ≠ uint64Max) :
    ∃ l e, l ≤ 1 ∧ C.find (path (v / 0x1000)) 4 = some (l, e) := by
  rw [vmmVirtToPhys_eq h.owned.ok h.owned.stored h.pml4] at hv
  cases hc : C.find (path (v / 0x1000)) 4 with
  | none =>
    rw [hc] at hv
    exact absurd rfl hv
  | some le =>
    obtain ⟨l, e⟩ := le
    have hlevel : l ≤ 2 := hardwareWalk_level
      ((h.owned.stored.hardwareWalk (v / 0x1000)).trans hc)
    have hne : l ≠ 2 := by
      rintro rfl
      exact h.small.no_huge _ ⟨e, hc⟩
    exact ⟨l, e, by omega, rfl⟩

/-- The frame given back serves the split of its own window page. -/
theorem Paging.returned_room (h : Paging root C s) (hf : f ∈ s.held) {l e : Nat} (hl : l ≤ 1)
    (he : C.find (path (s.kernel.virt f / 0x1000)) 4 = some (l, e)) :
    ((s.kernel.released f).missingTables (s.kernel.virt f) : ℕ∞) ≤
      (s.kernel.released f).Free.encard := by
  obtain ⟨hal, hu, hbit, _, hC⟩ := h.held_frame hf
  have hrel := h.released hal hbit fun _ => .inl hf
  have hmiss : (s.kernel.released f).missingTables (s.kernel.virt f) ≤ 1 := by
    obtain ⟨g, hloc, _⟩ := h.owned.stored.slot_of_leaf (by omega) he
    obtain ⟨t₂, h₂⟩ : ∃ t, C.loc fmt.base (path (s.kernel.virt f / 0x1000)) 2 4 = some t := by
      rcases (by omega : l = 0 ∨ l = 1) with rfl | rfl
      · obtain ⟨g₂, i₂, h₂⟩ := Tree.exists_loc_of_succ (n := 2) hloc
        exact ⟨_, h₂⟩
      · exact ⟨_, hloc⟩
    obtain ⟨g₁, i₁, h₁⟩ := Tree.exists_loc_of_succ (n := 1) h₂
    rw [missingTables_eq hrel.owned hrel.pml4 (h.small.no_huge _), h₁, h₂]
    split_ifs <;> simp at *
  have hfree : f ∈ (s.kernel.released f).Free := by
    have hpage := pageOf_self hal
    exact ((released_spec h.owned (by rwa [hpage]) (by rwa [hpage])).2.2 f).mpr
      (.inr ⟨hpage.symm, hu⟩)
  calc ((s.kernel.released f).missingTables (s.kernel.virt f) : ℕ∞)
      ≤ 1 := by exact_mod_cast hmiss
    _ ≤ (s.kernel.released f).Free.encard := Set.one_le_encard_iff_nonempty.mpr ⟨f, hfree⟩

/-- Below a PT the map that follows writes its entry only, in a 2 MiB leaf it takes a frame. -/
theorem Paging.frees_iff (h : Paging root C s) (hf : f ∈ s.held)
    (hp : s.kernel.vmmVirtToPhys (s.kernel.virt f) = f) :
    FreesOnly f s.kernel (s.kernel.pmmFree (s.kernel.virt f)) ↔
      ∃ e, C.find (path (s.kernel.virt f / 0x1000)) 4 = some (0, e) := by
  obtain ⟨hal, _, hbit, _, _⟩ := h.held_frame hf
  have hne := h.held_ne hf
  obtain ⟨l, e, hl, he⟩ := h.found (hp.symm ▸ hne)
  have hrel := h.released hal hbit fun _ => .inl hf
  have hg := released_toGlobals s.kernel f
  have hvirt : s.kernel.virt f = (s.kernel.released f).virt f := by rw [hg]
  have hroom := h.returned_room hf hl he
  have honly := h.released_freesOnly hf
  rw [h.free_eq hal hp hne hbit, vmmMapPage, hrel.pml4]
  generalize s.kernel.released f = k at *
  have hs := descend_supplied hrel.owned hrel.pml4 (h.small.no_huge _) (hrel.stocked hroom)
  cases l with
  | zero =>
    refine iff_of_true ?_ ⟨e, he⟩
    obtain ⟨g, hloc, _⟩ := hrel.owned.stored.slot_of_leaf (by omega) he
    obtain ⟨hgal, hglt, _, hgbit⟩ := hrel.owned.frame hloc
    rw [vmmMapPagePml4_eq, descend_walked hrel.owned hloc]
    refine honly.congr (fun x hx => ?_) (st64_toGlobals _ _ _) (by simp only [st64])
    refine st64_slot_kept hrel.pmmOk.hhdm_lt hglt _ hgal _ x ?_
    rintro rfl
    exact hgbit (hg ▸ hx)
  | succ l =>
    obtain rfl : l = 0 := by omega
    refine iff_of_false (fun hc => ?_) fun hpage => ?_
    swap
    · obtain ⟨e', he'⟩ := hpage
      rw [he] at he'
      cases he'
    obtain ⟨g, hmem, hfree⟩ := descend_split_free hrel.owned he hs
    have hsame : (k.vmmMapPagePml4 (k.virt root) f (s.kernel.virt f) ptEntryReadWrite).Free =
        k.Free := by
      refine free_congr hrel.pmmOk ((vmmMapPagePml4_later _ _ _ _ _).1) fun x hx => ?_
      rw [hc.bits x (hg ▸ hx), honly.bits x (hg ▸ hx)]
    rw [vmmMapPagePml4_free hrel.owned h.small.fits (h.small.no_huge _) hs, hfree] at hsame
    rw [← hsame] at hmem
    exact hmem.2 rfl

/-- Afterwards the higher-half page translates to whatever the frame's own address is taken for. -/
theorem Paging.returned_phys (h : Paging root C s) {page : Nat} (hpage : page % 0x1000 = 0)
    (hf : f ∈ s.held) (hp : s.kernel.vmmVirtToPhys page = f)
    (hroom : ((s.kernel.released f).missingTables (s.kernel.virt f) : ℕ∞) ≤
      (s.kernel.released f).Free.encard) :
    (s.kernel.pmmFree page).vmmVirtToPhys (s.kernel.virt f) = s.kernel.convertPhys f := by
  obtain ⟨hal, hu, hbit, _, _⟩ := h.held_frame hf
  have hne := h.held_ne hf
  obtain ⟨C', h', hup⟩ := h.free hpage hp hne hbit (fun _ => .inl hf) hroom
  have hrel := h.released hal hbit fun _ => .inl hf
  have hflt := hu.lt h.pmmOk.map
  have hwalk : (s.kernel.released f).vmmVirtToPhys f = s.kernel.vmmVirtToPhys f := by
    rw [vmmVirtToPhys_eq hrel.owned.ok hrel.owned.stored hrel.pml4,
      vmmVirtToPhys_eq h.owned.ok h.owned.stored h.pml4]
  have hconv : (s.kernel.released f).convertPhys f = s.kernel.convertPhys f := by
    rw [convertPhys, convertPhys, hwalk]
  rw [vmmVirtToPhys_aligned h'.owned.ok h'.owned.stored h'.pml4 (h.virt_aligned hf), hup.xlate,
    if_pos (SameBlock.refl 0 _), Option.getD_some, hconv, convertPhys]
  split
  · rename_i htr
    obtain ⟨hal', hlt'⟩ := h.phys_page hal htr
    exact getAddress_of_aligned hal' hlt'
  · exact getAddress_of_aligned hal hflt

theorem Paging.free_phys {s' : PmmState} {page : Nat} (h : Paging root C s) (hf : f ∈ s.held)
    (hp : s.kernel.vmmVirtToPhys page = f) (hstep : callStep s (.pmmFree page) s') :
    s'.kernel.vmmVirtToPhys (s'.kernel.virt f) = s.kernel.convertPhys f := by
  cases hstep with
  | @pmmFree _ f' hpage hf' _ hroom =>
    obtain rfl : f' = f := hf'.symm.trans hp
    have hphys := h.returned_phys hpage hf hp
      (hroom (h.held_ne hf) (h.held_frame hf).2.2.1)
    have hg : (s.kernel.pmmFree page).toGlobals = s.kernel.toGlobals := (pmmFree_later _ _).1
    rw [← hg] at hphys
    exact hphys

theorem Paging.free_step (h : Paging root C s) (hf : f ∈ s.held)
    (hp : s.kernel.vmmVirtToPhys (s.kernel.virt f) = f) :
    ∃ s', callStep s (.pmmFree (s.kernel.virt f)) s' := by
  obtain ⟨l, e, hl, he⟩ := h.found (hp.symm ▸ h.held_ne hf)
  have hvirt : s.kernel.virt f % 0x1000 = 0 := h.virt_aligned hf
  exact ⟨_, .pmmFree hvirt hp (fun _ => .inr (.inl hf)) fun _ _ => h.returned_room hf hl he⟩

end Returned

/-! ## Over runs -/

section Runs

variable {k : Kernel} {bd : BootData} {cr3 f : Nat} {T : PageTree} {s s' : PmmState}

/-- In every state after `vmm_init`, giving back the page of a held frame at its higher-half address
frees exactly that frame if and only if the page is mapped by a PT entry. -/
theorem freesOnly_iff {ops : List CallOp} (h : Booted k bd cr3 T)
    (hrun : Run.Exec callStep (vmmStart k bd cr3) ops s) (hf : f ∈ s.held)
    (hp : s.kernel.vmmVirtToPhys (s.kernel.virt f) = f) :
    FreesOnly f s.kernel (s.kernel.pmmFree (s.kernel.virt f)) ↔
      ∃ e, hardwareWalk s.kernel.rd (s.kernel.virt f / 0x1000) 4 cr3 = some (0, e) := by
  obtain ⟨C, hC⟩ := paging_run h hrun
  rw [hC.frees_iff hf hp, hC.owned.stored.hardwareWalk]

/-- After every run, giving back a page of the held frame `f` leaves its higher-half address
denoting `f` if and only if `f`, taken for a virtual address, has no translation but itself. -/
theorem freedDenotes_iff {ops : List CallOp} {page : Nat} (h : Booted k bd cr3 T)
    (hrun : Run.Exec callStep (vmmStart k bd cr3) ops s) (hf : f ∈ s.held)
    (hp : s.kernel.vmmVirtToPhys page = f) (hstep : callStep s (.pmmFree page) s') :
    s'.kernel.vmmVirtToPhys (s'.kernel.virt f) = f ↔
      s.kernel.vmmVirtToPhys f = uint64Max ∨ s.kernel.vmmVirtToPhys f = f := by
  obtain ⟨C, hC⟩ := paging_run h hrun
  rw [hC.free_phys hf hp hstep, convertPhys]
  by_cases hmax : s.kernel.vmmVirtToPhys f = uint64Max
  · simp [hmax]
  · simp [hmax]

end Runs

/-! ## The first page of a machine -/

section First

variable {slots : List (Nat × Nat)} {T : PageTree}

theorem machine_booted (hT : Stored (bareMachine slots) 0x400000 T)
    (hres : ∀ f ∈ T.frames fmt.base, 0x300000 ≤ f) (hsmall : SmallLeaves T) :
    Booted (bareMachine slots) machineBoot 0x400000 T where
  boot := machine_boot slots
  early := rfl
  fresh := rfl
  map := machine_memmapOk
  pos := by decide
  zero := fun h => by
    have := machine_usable.mp h
    omega
  window := by simp only [bareMachine]
  stored := hT
  reserved := fun f hf hu => by
    have := hres f hf
    have := machine_usable.mp hu
    omega
  small := hsmall

theorem machine_alloc (h : Owned (machine slots) 0x400000 T) : (machine slots).pmmAllocPhys =
    (0x101000, ((machine slots).pmmSetUsablePageAllocatedByIndex 1 true).log (.alloc 0x101000)) := by
  have hg := machine_toGlobals slots
  have hk := h.ok.toPmmOk
  have haddr : (machine slots).pmmGetAddressByIndex 1 = 0x101000 := by
    rw [hg]
    decide
  have husable : 1 < (machine slots).pmmUsablePages := by
    rw [hg]
    decide
  have hb : (machine slots).pmmIsUsablePageAllocatedByIndex 1 = false := by
    obtain ⟨i, hi, ha, hb⟩ : 0x101000 ∈ (machine slots).Free := machine_free.mpr (by omega)
    rwa [hk.address_inj hi husable (ha.trans haddr.symm)] at hb
  have hfirst := pmmAllocPhys_first hk husable hb fun m hm => h.held m (by rw [hg]; exact hm)
  rwa [haddr] at hfirst

/-- The machine after its first allocation. -/
def machineHolding (slots : List (Nat × Nat)) : PmmState :=
  ⟨(machine slots).pmmAllocPhys.2.restart, {0x101000}⟩

theorem machineHolding_run (h : Booted (bareMachine slots) machineBoot 0x400000 T) :
    Run.Exec callStep (vmmStart (bareMachine slots) machineBoot 0x400000) [.pmmAlloc]
      (machineHolding slots) := by
  have hstart : Owned (machine slots) 0x400000 T := (paging_start h).owned
  have hstep := callStep.pmmAlloc (s := vmmStart (bareMachine slots) machineBoot 0x400000)
  rw [show (vmmStart (bareMachine slots) machineBoot 0x400000).kernel = machine slots from rfl,
    show (vmmStart (bareMachine slots) machineBoot 0x400000).held = ∅ from rfl] at hstep
  have hone : (machine slots).pmmAllocPhys.1 = 0x101000 := by rw [machine_alloc hstart]
  rw [hone, if_neg (by decide), insert_empty_eq] at hstep
  exact .cons hstep .nil

theorem machineHolding_paging (h : Booted (bareMachine slots) machineBoot 0x400000 T) :
    Paging 0x400000 T (machineHolding slots) := by
  have hstart : Paging 0x400000 T ⟨machine slots, ∅⟩ := paging_start h
  have halloc := hstart.alloc
  have hone : (machine slots).pmmAllocPhys.1 = 0x101000 := by rw [machine_alloc hstart.owned]
  rwa [hone, if_neg (by decide), insert_empty_eq] at halloc

theorem machineHolding_globals (slots : List (Nat × Nat)) :
    (machineHolding slots).kernel.toGlobals = machineGlobals := by
  rw [machineHolding, restart_toGlobals, pmmAllocPhys_toGlobals, machine_toGlobals]

theorem machineHolding_virt (slots : List (Nat × Nat)) :
    (machineHolding slots).kernel.virt 0x101000 = 0xFFFF800000101000 := by
  rw [machineHolding_globals, Globals.virt]
  simp only [machineGlobals]
  omega

theorem machineHolding_free (h : Owned (machine slots) 0x400000 T) {a : Nat} :
    a ∈ (machineHolding slots).kernel.Free ↔ a % 0x1000 = 0 ∧ 0x102000 ≤ a ∧ a < 0x300000 := by
  have hk := h.ok.toPmmOk
  have hg := machine_toGlobals slots
  have hk₁ : ((machine slots).pmmSetUsablePageAllocatedByIndex 1 true).PmmOk := by
    rw [set_toGlobals]
    exact hk
  have haddr : (machine slots).pmmGetAddressByIndex 1 = 0x101000 := by
    rw [hg]
    decide
  have hfree : (machineHolding slots).kernel.Free = (machine slots).Free \ {0x101000} := by
    rw [machineHolding, machine_alloc h, ← haddr, ← free_set_true hk (by rw [hg]; decide)]
    exact free_congr hk₁ rfl fun _ _ => rfl
  rw [hfree, Set.mem_sdiff, machine_free, Set.mem_singleton_iff]
  omega

theorem machineHolding_room (h : Owned (machine slots) 0x400000 T) (v : Nat) :
    ((machineHolding slots).kernel.missingTables v : ℕ∞) ≤
      (machineHolding slots).kernel.Free.encard := by
  have hsub : {0x102000, 0x103000, 0x104000} ⊆ (machineHolding slots).kernel.Free := by
    intro a ha
    simp only [Set.mem_insert_iff, Set.mem_singleton_iff] at ha
    exact (machineHolding_free h).mpr (by omega)
  have hthree : Set.encard ({0x102000, 0x103000, 0x104000} : Set Nat) = 3 :=
    Set.encard_eq_three.mpr ⟨_, _, _, by decide, by decide, by decide, rfl⟩
  calc ((machineHolding slots).kernel.missingTables v : ℕ∞)
      ≤ 3 := by exact_mod_cast missingTables_le _ v
    _ ≤ (machineHolding slots).kernel.Free.encard := hthree ▸ Set.encard_le_encard hsub

end First

/-! ## A window of 2 MiB leaves -/

def windowSlots : List (Nat × Nat) :=
  [(0x400800, 0x401003), (0x401000, 0x402003), (0x402000, 0x83)]

/-- The bottom 2 MiB of physical memory at the higher half, as one leaf. -/
def windowTree : PageTree :=
  .single 0x400000 256 (.single 0x401003 0 (.single 0x402003 0 (.leaf 0x83)))

theorem windowTree_frames : windowTree.frames fmt.base = {0x400000, 0x401000, 0x402000} := by
  obtain ⟨e₀, e₁, e₂, _⟩ := chain_bases
  simp only [windowTree, single_frames, Tree.frames, e₀, e₁, e₂, insert_empty_eq]

theorem windowTree_stored : Stored (bareMachine windowSlots) 0x400000 windowTree := by
  obtain ⟨e₀, e₁, e₂, _⟩ := chain_bases
  have hrep : windowTree.Rep fmt (bareMachine windowSlots).rd 4 0x400000 := by
    refine machine_single (v := 0x401003) (.inl rfl) (by decide) (by decide) ?_
    refine machine_single (v := 0x402003) (.inr ⟨by decide, .inl rfl⟩) (by decide) (by decide) ?_
    exact machine_single (v := 0x83) (.inr ⟨by decide, .inr ⟨.inr rfl, by decide⟩⟩) (by decide)
      (by decide) ⟨rfl, by decide, .inr ⟨.inl rfl, by decide⟩⟩
  refine ⟨⟨_, rfl⟩, hrep, single_sep (single_sep (single_sep trivial ?_) ?_) ?_, by decide, by decide⟩
  all_goals simp [single_frames, Tree.frames, e₀, e₁, e₂]

theorem windowTree_small : SmallLeaves windowTree := by
  have hfind : ∀ q l e, windowTree.find (path q) 4 = some (l, e) → l = 1 ∧ e = 0x83 := by
    intro q l e he
    simp only [windowTree, single_find, Tree.find] at he
    split_ifs at he
    cases he
    exact ⟨rfl, rfl⟩
  constructor
  · intro q l e he
    obtain ⟨rfl, rfl⟩ := hfind q l e he
    decide
  · rintro q ⟨e, he⟩
    cases (hfind q 2 e he).1

theorem windowMachine_booted :
    Booted (bareMachine windowSlots) machineBoot 0x400000 windowTree := by
  refine machine_booted windowTree_stored ?_ windowTree_small
  intro f hf
  rw [windowTree_frames] at hf
  simp only [Set.mem_insert_iff, Set.mem_singleton_iff] at hf
  omega

theorem windowTree_find :
    windowTree.find (path (0xFFFF800000101000 / 0x1000)) 4 = some (1, 0x83) := by decide

theorem windowMachine_phys : (machineHolding windowSlots).kernel.vmmVirtToPhys
    ((machineHolding windowSlots).kernel.virt 0x101000) = 0x101000 := by
  have h := machineHolding_paging windowMachine_booted
  rw [machineHolding_virt, vmmVirtToPhys_eq h.owned.ok h.owned.stored h.pml4,
    windowTree_find]
  decide

/-- The first page handed out lies in the leaf. Giving it back takes another frame. -/
theorem windowMachine_not_freesOnly :
    Run.Exec callStep (vmmStart (bareMachine windowSlots) machineBoot 0x400000) [.pmmAlloc]
      (machineHolding windowSlots) ∧
    (machineHolding windowSlots).kernel.vmmVirtToPhys
      ((machineHolding windowSlots).kernel.virt 0x101000) = 0x101000 ∧
    ¬ FreesOnly 0x101000 (machineHolding windowSlots).kernel
      ((machineHolding windowSlots).kernel.pmmFree
        ((machineHolding windowSlots).kernel.virt 0x101000)) := by
  have h := machineHolding_paging windowMachine_booted
  refine ⟨machineHolding_run windowMachine_booted, windowMachine_phys, fun honly => ?_⟩
  obtain ⟨e, he⟩ := (h.frees_iff rfl windowMachine_phys).mp honly
  rw [machineHolding_virt, windowTree_find] at he
  cases he

/-- The same machine with the low page `0x101000` mapped. -/
def windowRemapped : PmmState :=
  ⟨((machineHolding windowSlots).kernel.vmmMapPage 0x180000 0x101000).restart, {0x101000}⟩

theorem windowRemapped_virt : windowRemapped.kernel.virt 0x101000 = 0xFFFF800000101000 := by
  have hg : (machineHolding windowSlots).kernel.toGlobals =
      ((machineHolding windowSlots).kernel.vmmMapPage 0x180000 0x101000).toGlobals :=
    (vmmMapPagePml4_later _ _ _ _ _).1.symm
  rw [windowRemapped, restart_toGlobals, ← hg, machineHolding_virt]

theorem windowRemapped_step : callStep (machineHolding windowSlots) (.vmmMapPage 0x180000 0x101000)
    windowRemapped := by
  have hO : Owned (machine windowSlots) 0x400000 windowTree :=
    (paging_start windowMachine_booted).owned
  exact .vmmMapPage (machineHolding_room hO 0x101000)

/-- The low page now translates, and the window page as before. -/
theorem windowRemapped_spec : ∃ C, Paging 0x400000 C windowRemapped ∧
    windowRemapped.kernel.vmmVirtToPhys 0x101000 = 0x180000 ∧
    windowRemapped.kernel.vmmVirtToPhys (windowRemapped.kernel.virt 0x101000) = 0x101000 := by
  have hO : Owned (machine windowSlots) 0x400000 windowTree :=
    (paging_start windowMachine_booted).owned
  have h₁ := machineHolding_paging windowMachine_booted
  have hlow : (machineHolding windowSlots).kernel.convertPhys 0x180000 = 0x180000 := by
    rw [convertPhys, vmmVirtToPhys_eq h₁.owned.ok h₁.owned.stored h₁.pml4,
      show windowTree.find (path (0x180000 / 0x1000)) 4 = none by decide]
    rfl
  obtain ⟨C, h₂, hup⟩ :=
    @Paging.mapPage _ _ _ h₁ 0x180000 0x101000 (machineHolding_room hO 0x101000)
  have h₂ : Paging 0x400000 C windowRemapped := h₂.restart
  rw [hlow] at hup
  refine ⟨C, h₂, ?_, ?_⟩
  · rw [vmmVirtToPhys_aligned h₂.owned.ok h₂.owned.stored h₂.pml4 (by decide), hup.xlate,
      if_pos (SameBlock.refl 0 _)]
    decide
  · rw [windowRemapped_virt, vmmVirtToPhys_aligned h₂.owned.ok h₂.owned.stored h₂.pml4 (by decide),
      hup.xlate, if_neg (by rw [sameBlock_zero]; decide), PageTree.xlate, PageTree.xlateFrom, windowTree_find]
    decide

/-- Whoever maps a low page at the address of a held frame moves the window page of that frame once
it is given back: it maps the frame `0x180000` from then on. -/
theorem windowMachine_aliased : ∃ s',
    Run.Exec callStep (vmmStart (bareMachine windowSlots) machineBoot 0x400000)
      ([.pmmAlloc] ++ [.vmmMapPage 0x180000 0x101000]) windowRemapped ∧
    0x101000 ∈ windowRemapped.held ∧
    windowRemapped.kernel.vmmVirtToPhys (windowRemapped.kernel.virt 0x101000) = 0x101000 ∧
    callStep windowRemapped (.pmmFree (windowRemapped.kernel.virt 0x101000)) s' ∧
    s'.kernel.vmmVirtToPhys (s'.kernel.virt 0x101000) = 0x180000 := by
  obtain ⟨C, h, hlow, hhigh⟩ := windowRemapped_spec
  have hheld : 0x101000 ∈ windowRemapped.held := rfl
  obtain ⟨s', hstep⟩ := h.free_step hheld hhigh
  have hphys := h.free_phys hheld hhigh hstep
  rw [convertPhys, hlow] at hphys
  exact ⟨s', (machineHolding_run windowMachine_booted).append (.cons windowRemapped_step .nil), hheld,
    hhigh, hstep, hphys⟩

/-- Without that mapping the page given back is where it belongs. -/
theorem windowMachine_denotes : ∃ s',
    callStep (machineHolding windowSlots)
      (.pmmFree ((machineHolding windowSlots).kernel.virt 0x101000)) s' ∧
    s'.kernel.vmmVirtToPhys (s'.kernel.virt 0x101000) = 0x101000 := by
  have h := machineHolding_paging windowMachine_booted
  have hheld : 0x101000 ∈ (machineHolding windowSlots).held := rfl
  have hlow : (machineHolding windowSlots).kernel.vmmVirtToPhys 0x101000 = uint64Max := by
    rw [vmmVirtToPhys_eq h.owned.ok h.owned.stored h.pml4,
      show windowTree.find (path (0x101000 / 0x1000)) 4 = none by decide]
    rfl
  obtain ⟨s', hstep⟩ := h.free_step hheld windowMachine_phys
  exact ⟨s', hstep, (freedDenotes_iff windowMachine_booted (machineHolding_run windowMachine_booted)
    hheld windowMachine_phys hstep).mpr (.inl hlow)⟩

/-! ## A window page below a PT -/

def windowPageSlots : List (Nat × Nat) :=
  [(0x400800, 0x401003), (0x401000, 0x402003), (0x402000, 0x403003), (0x403808, 0x101003)]

/-- The window page of the first frame handed out, with a PT entry of its own. -/
def windowPageTree : PageTree :=
  .single 0x400000 256 (.single 0x401003 0 (.single 0x402003 0 (.single 0x403003 257
    (.leaf 0x101003))))

theorem windowPageTree_stored : Stored (bareMachine windowPageSlots) 0x400000 windowPageTree := by
  obtain ⟨e₀, e₁, e₂, e₃⟩ := chain_bases
  have hrep : windowPageTree.Rep fmt (bareMachine windowPageSlots).rd 4 0x400000 := by
    refine machine_single (v := 0x401003) (.inl rfl) (by decide) (by decide) ?_
    refine machine_single (v := 0x402003) (.inr ⟨by decide, .inl rfl⟩) (by decide) (by decide) ?_
    refine machine_single (v := 0x403003) (.inr ⟨by decide, .inr ⟨.inr rfl, by decide⟩⟩) (by decide)
      (by decide) ?_
    exact machine_single (v := 0x101003) (.inr ⟨by decide, .inr ⟨.inl rfl, by decide⟩⟩) (by decide)
      (by decide) ⟨rfl, by decide, .inl rfl⟩
  refine ⟨⟨_, rfl⟩, hrep, single_sep (single_sep (single_sep (single_sep trivial ?_) ?_) ?_) ?_,
    by decide, by decide⟩
  all_goals simp [single_frames, Tree.frames, e₀, e₁, e₂, e₃]

theorem windowPageTree_find :
    windowPageTree.find (path (0xFFFF800000101000 / 0x1000)) 4 = some (0, 0x101003) := by decide

theorem windowPageMachine_booted :
    Booted (bareMachine windowPageSlots) machineBoot 0x400000 windowPageTree := by
  obtain ⟨e₀, e₁, e₂, e₃⟩ := chain_bases
  have hfind : ∀ q l e, windowPageTree.find (path q) 4 = some (l, e) → l = 0 ∧ e = 0x101003 := by
    intro q l e he
    simp only [windowPageTree, single_find, Tree.find] at he
    split_ifs at he
    cases he
    exact ⟨rfl, rfl⟩
  refine machine_booted windowPageTree_stored ?_ ⟨?_, ?_⟩
  · intro f hf
    simp only [windowPageTree, single_frames, Tree.frames, e₀, e₁, e₂, e₃, Set.mem_insert_iff,
      Set.mem_empty_iff_false, or_false] at hf
    omega
  · intro q l e he
    obtain ⟨rfl, rfl⟩ := hfind q l e he
    decide
  · rintro q ⟨e, he⟩
    cases (hfind q 2 e he).1

/-- That page is given back without a trace. -/
theorem windowPageMachine_freesOnly :
    FreesOnly 0x101000 (machineHolding windowPageSlots).kernel
      ((machineHolding windowPageSlots).kernel.pmmFree
        ((machineHolding windowPageSlots).kernel.virt 0x101000)) := by
  have h := machineHolding_paging windowPageMachine_booted
  have hphys : (machineHolding windowPageSlots).kernel.vmmVirtToPhys
      ((machineHolding windowPageSlots).kernel.virt 0x101000) = 0x101000 := by
    rw [machineHolding_virt, vmmVirtToPhys_eq h.owned.ok h.owned.stored h.pml4, windowPageTree_find]
    decide
  refine (freesOnly_iff windowPageMachine_booted (machineHolding_run windowPageMachine_booted) rfl
    hphys).mpr ⟨0x101003, ?_⟩
  rw [machineHolding_virt, h.owned.stored.hardwareWalk, windowPageTree_find]

end BambooOS
