import BambooOS.Vmm.Boot

/-!
# Int.Idt

The interrupt descriptor table of `int/idt.c`, on a page of the frame allocator that nobody clears.

* `IdtEntry`: the fields of a packed 16-byte descriptor, `entryAt` reads them.
* `entryAt_setEntry`: a call replaces every field but the three reserved ones.
* `idt_wellFormed_iff`: so the table is well formed exactly where the page's reserved bits were zero.
-/

namespace BambooOS

open ByteMem Bits

/-! ## The source's functions -/

/-- `idt_entry_t`, with the bit-fields of `bits` in order. -/
structure IdtEntry where
  offset0 : Nat
  segmentSelector : Nat
  ist : BitVec 3
  reserved0 : BitVec 5
  gateType : BitVec 4
  reserved1 : BitVec 1
  dpl : BitVec 2
  present : BitVec 1
  offset1 : Nat
  offset2 : Nat
  reserved : Nat
  deriving DecidableEq, Repr

/-- `idt` and `idtr`. -/
structure Idt where
  idt : Nat
  idtr : Nat

namespace Kernel

def st16 (k : Kernel) (p v : Nat) : Kernel :=
  { k with mem := store k.mem (k.phys p) 2 v, trace := .store (k.phys p) 2 :: k.trace }

def st32 (k : Kernel) (p v : Nat) : Kernel :=
  { k with mem := store k.mem (k.phys p) 4 v, trace := .store (k.phys p) 4 :: k.trace }

/-- The bits of a byte-wide bit-field from `lo` on. -/
def stField {n : Nat} (k : Kernel) (p lo : Nat) (v : BitVec n) : Kernel :=
  k.st8 p (setField (k.ld8 p) lo v)

/-- `idt_init`: two pages of `pmm_alloc`, and the limit and base of the table in the second. -/
def idtInit (k : Kernel) : Idt × Kernel :=
  let (idt, k) := k.pmmAlloc
  let (idtr, k) := k.pmmAlloc
  let k := k.st16 idtr (256 * 16 - 1)
  let k := k.st64 (idtr + 2) idt
  ({ idt := idt, idtr := idtr }, k)

/-- `idt_set_handler(vector, handler, gate_type)` on the table at `idt`. -/
def idtSetHandler (k : Kernel) (idt : Nat) (vector : BitVec 8) (handler : BitVec 64)
    (gateType : BitVec 8) : Kernel :=
  let entry := idt + 16 * vector.toNat
  let isrAddr := handler.toNat
  let k := k.st16 entry (isrAddr &&& 0xFFFF)
  let k := k.st16 (entry + 6) (isrAddr >>> 16 &&& 0xFFFF)
  let k := k.st32 (entry + 8) (isrAddr >>> 32 &&& 0xFFFFFFFF)
  let k := k.st16 (entry + 2) (5 <<< 3)
  let k := k.stField (entry + 4) 0 0#3
  let k := k.stField (entry + 5) 5 0#2
  let k := k.stField (entry + 5) 0 (gateType.setWidth 4)
  k.stField (entry + 5) 7 1#1

end Kernel

/-- The arguments of a call of `idt_set_handler`. -/
structure IdtCall where
  vector : BitVec 8
  handler : BitVec 64
  gateType : BitVec 8

/-- Calls of `idt_set_handler`, one after the other. -/
def idtRun (idt : Nat) (calls : List IdtCall) (k : Kernel) : Kernel :=
  calls.foldl (fun k c => k.idtSetHandler idt c.vector c.handler c.gateType) k

/-- The last call for a vector. -/
def lastCall (calls : List IdtCall) (v : BitVec 8) : Option IdtCall :=
  calls.reverse.find? fun c => decide (c.vector = v)

/-! ## Descriptors -/

/-- The descriptor in the 16 bytes from `e` on. -/
def entryAt (m : Mem) (e : Nat) : IdtEntry where
  offset0 := load m e 2
  segmentSelector := load m (e + 2) 2
  ist := (m (e + 4)).extractLsb' 0 3
  reserved0 := (m (e + 4)).extractLsb' 3 5
  gateType := (m (e + 5)).extractLsb' 0 4
  reserved1 := (m (e + 5)).extractLsb' 4 1
  dpl := (m (e + 5)).extractLsb' 5 2
  present := (m (e + 5)).extractLsb' 7 1
  offset1 := load m (e + 6) 2
  offset2 := load m (e + 8) 4
  reserved := load m (e + 12) 4

namespace IdtEntry

/-- The address the three offset fields make. -/
def offset (d : IdtEntry) : Nat := d.offset0 + d.offset1 <<< 16 + d.offset2 <<< 32

/-- All reserved bits are zero. -/
def Clean (d : IdtEntry) : Prop := d.reserved0 = 0 ∧ d.reserved1 = 0 ∧ d.reserved = 0

/-- The reserved bits of two descriptors are the same. -/
def SameReserved (d d' : IdtEntry) : Prop :=
  d.reserved0 = d'.reserved0 ∧ d.reserved1 = d'.reserved1 ∧ d.reserved = d'.reserved

/-- A descriptor with every field set but the reserved ones. -/
def set (d : IdtEntry) (handler : BitVec 64) (gateType : BitVec 8) : IdtEntry :=
  { d with
    offset0 := handler.toNat % 2 ^ 16
    segmentSelector := 40
    ist := 0
    gateType := gateType.setWidth 4
    dpl := 0
    present := 1
    offset1 := handler.toNat / 2 ^ 16 % 2 ^ 16
    offset2 := handler.toNat / 2 ^ 32 % 2 ^ 32 }

theorem set_clean (d : IdtEntry) (h : BitVec 64) (g : BitVec 8) :
    (d.set h g).Clean ↔ d.Clean := Iff.rfl

@[simp] theorem set_offset (d : IdtEntry) (h : BitVec 64) (g : BitVec 8) :
    (d.set h g).offset = h.toNat := by
  unfold offset set
  rw [Nat.shiftLeft_eq, Nat.shiftLeft_eq]
  exact halves h.isLt

theorem set_gateType (d : IdtEntry) (h : BitVec 64) (g : BitVec 8) :
    (d.set h g).gateType.toNat = g.toNat ↔ g.toNat < 16 := by
  have hlt := (g.setWidth 4).isLt
  simp only [set, BitVec.toNat_setWidth]
  omega

theorem set_eq_iff {d d' : IdtEntry} (h : BitVec 64) (g : BitVec 8) :
    d.set h g = d'.set h g ↔ d.SameReserved d' := by
  simp [set, SameReserved]

end IdtEntry

theorem entryAt_inj {m m' : Mem} {e e' : Nat} :
    entryAt m e = entryAt m' e' ↔ ∀ i < 16, m (e + i) = m' (e' + i) := by
  constructor
  · intro h i hi
    simp only [entryAt, IdtEntry.mk.injEq] at h
    obtain ⟨h0, h2, hist, hres0, hgate, hres1, hdpl, hpres, h6, h8, h12⟩ := h
    have field : ∀ o n, load m (e + o) n = load m' (e' + o) n → o ≤ i → i < o + n →
        m (e + i) = m' (e' + i) := by
      intro o n hload hlo hhi
      have hb := load_inj.mp hload (i - o) (by omega)
      rwa [Nat.add_assoc, Nat.add_assoc, Nat.add_sub_cancel' hlo] at hb
    have hcases : i < 2 ∨ (2 ≤ i ∧ i < 4) ∨ i = 4 ∨ i = 5 ∨ (6 ≤ i ∧ i < 8) ∨ (8 ≤ i ∧ i < 12) ∨
        12 ≤ i := by omega
    rcases hcases with hi | hi | hi | hi | hi | hi | hi
    · exact field 0 2 h0 (by omega) (by omega)
    · exact field 2 2 h2 (by omega) (by omega)
    · rw [hi]
      apply BitVec.eq_of_getLsbD_eq
      intro j hj
      by_cases hlow : j < 3
      · exact getLsbD_of_extractLsb' hist (by omega) (by omega)
      · exact getLsbD_of_extractLsb' hres0 (by omega) (by omega)
    · rw [hi]
      apply BitVec.eq_of_getLsbD_eq
      intro j hj
      have hbit : j < 4 ∨ j = 4 ∨ (5 ≤ j ∧ j < 7) ∨ j = 7 := by omega
      rcases hbit with hj | hj | hj | hj
      · exact getLsbD_of_extractLsb' hgate (by omega) (by omega)
      · exact getLsbD_of_extractLsb' hres1 (by omega) (by omega)
      · exact getLsbD_of_extractLsb' hdpl (by omega) (by omega)
      · exact getLsbD_of_extractLsb' hpres (by omega) (by omega)
    · exact field 6 2 h6 (by omega) (by omega)
    · exact field 8 4 h8 (by omega) (by omega)
    · exact field 12 4 h12 (by omega) (by omega)
  · intro h
    have field : ∀ o n, o + n ≤ 16 → load m (e + o) n = load m' (e' + o) n := by
      intro o n ho
      refine load_inj.mpr fun i hi => ?_
      rw [Nat.add_assoc, Nat.add_assoc]
      exact h (o + i) (by omega)
    simp only [entryAt, IdtEntry.mk.injEq, h 4 (by omega), h 5 (by omega), true_and]
    exact ⟨field 0 2 (by omega), field 2 2 (by omega), field 6 2 (by omega), field 8 4 (by omega),
      field 12 4 (by omega)⟩

section SetHandler

variable {k : Kernel} {f : Nat}

/-- What `idt_set_handler` makes of the bytes, for the descriptor at `e`. -/
def setEntry (m : Mem) (e : Nat) (handler : BitVec 64) (gateType : BitVec 8) : Mem :=
  let m := store m e 2 (handler.toNat &&& 0xFFFF)
  let m := store m (e + 6) 2 (handler.toNat >>> 16 &&& 0xFFFF)
  let m := store m (e + 8) 4 (handler.toNat >>> 32 &&& 0xFFFFFFFF)
  let m := store m (e + 2) 2 (5 <<< 3)
  let m := Function.update m (e + 4) (setField (m (e + 4)) 0 0#3)
  let m := Function.update m (e + 5) (setField (m (e + 5)) 5 0#2)
  let m := Function.update m (e + 5) (setField (m (e + 5)) 0 (gateType.setWidth 4))
  Function.update m (e + 5) (setField (m (e + 5)) 7 1#1)

theorem idtSetHandler_mem (hh : k.hhdm < 2 ^ 64) (hf : f + 0x1000 ≤ 2 ^ 64) (v : BitVec 8)
    (h : BitVec 64) (g : BitVec 8) :
    (k.idtSetHandler (k.virt f) v h g).toGlobals = k.toGlobals ∧
    (k.idtSetHandler (k.virt f) v h g).mem = setEntry k.mem (f + 16 * v.toNat) h g := by
  have hv := v.isLt
  have haddr : ∀ o < 16, k.phys (k.virt f + 16 * v.toNat + o) = f + 16 * v.toNat + o := by
    intro o ho
    rw [Nat.add_assoc, Globals.phys_virt_add hh (by omega), Nat.add_assoc]
  have h0 := haddr 0 (by omega)
  rw [Nat.add_zero, Nat.add_zero] at h0
  constructor
  · simp only [Kernel.idtSetHandler, Kernel.st16, Kernel.st32, Kernel.stField, Kernel.st8]
  · simp only [Kernel.idtSetHandler, Kernel.st16, Kernel.st32, Kernel.stField, Kernel.st8,
      Kernel.ld8, setEntry, h0, haddr 2 (by omega), haddr 4 (by omega), haddr 5 (by omega),
      haddr 6 (by omega), haddr 8 (by omega)]

/-- Every field is written but the reserved ones. -/
theorem entryAt_setEntry (m : Mem) (e : Nat) (h : BitVec 64) (g : BitVec 8) :
    entryAt (setEntry m e h g) e = (entryAt m e).set h g := by
  obtain ⟨m', hm'⟩ : ∃ m', m' = store (store (store (store m e 2 (h.toNat &&& 0xFFFF)) (e + 6) 2
      (h.toNat >>> 16 &&& 0xFFFF)) (e + 8) 4 (h.toNat >>> 32 &&& 0xFFFFFFFF)) (e + 2) 2 (5 <<< 3) :=
    ⟨_, rfl⟩
  have hbytes : ∀ x, x ≠ e + 4 → x ≠ e + 5 → setEntry m e h g x = m' x := by
    intro x h4 h5
    simp only [setEntry, ← hm', Function.update_of_ne h4, Function.update_of_ne h5]
  have hload : ∀ o n, o + n ≤ 4 ∨ 6 ≤ o → load (setEntry m e h g) (e + o) n = load m' (e + o) n :=
    fun o n ho => load_congr fun x hx hx' => hbytes x (by omega) (by omega)
  have hold : ∀ x, x = e + 4 ∨ x = e + 5 → m' x = m x := by
    intro x hx
    simp only [hm', store]
    rw [if_neg (by omega), if_neg (by omega), if_neg (by omega), if_neg (by omega)]
  have h4 : setEntry m e h g (e + 4) = setField (m (e + 4)) 0 0#3 := by
    simp only [setEntry, ← hm', Function.update_self, hold (e + 4) (.inl rfl),
      Function.update_of_ne (show e + 4 ≠ e + 5 by omega)]
  have h5 : setEntry m e h g (e + 5) =
      setField (setField (setField (m (e + 5)) 5 0#2) 0 (g.setWidth 4)) 7 1#1 := by
    simp only [setEntry, ← hm', Function.update_self, hold (e + 5) (.inr rfl),
      Function.update_of_ne (show e + 5 ≠ e + 4 by omega)]
  have hl0 := hload 0 2 (by omega)
  rw [Nat.add_zero] at hl0
  simp only [entryAt, IdtEntry.set, IdtEntry.mk.injEq, h4, h5, hl0, hload 2 2 (by omega),
    hload 6 2 (by omega), hload 8 4 (by omega), hload 12 4 (by omega), hm']
  refine ⟨?_, ?_, ?_, ?_, ?_, ?_, ?_, ?_, ?_, ?_, ?_⟩
  · rw [load_store_other (by omega), load_store_other (by omega), load_store_other (by omega),
      show h.toNat &&& 0xFFFF = h.toNat % 2 ^ 16 from and_low h.toNat 16]
    exact load_store_same (Nat.mod_lt _ (by decide))
  · exact load_store_same (by decide)
  · exact extractLsb'_setField _ _ (by decide)
  · exact extractLsb'_setField_other _ _ (by decide) (by decide)
  · rw [extractLsb'_setField_other _ _ (by decide) (by decide),
      extractLsb'_setField _ _ (by decide)]
  · rw [extractLsb'_setField_other _ _ (by decide) (by decide),
      extractLsb'_setField_other _ _ (by decide) (by decide),
      extractLsb'_setField_other _ _ (by decide) (by decide)]
  · rw [extractLsb'_setField_other _ _ (by decide) (by decide),
      extractLsb'_setField_other _ _ (by decide) (by decide),
      extractLsb'_setField _ _ (by decide)]
    rfl
  · exact extractLsb'_setField _ _ (by decide)
  · rw [load_store_other (by omega), load_store_other (by omega),
      show h.toNat >>> 16 &&& 0xFFFF = h.toNat / 2 ^ 16 % 2 ^ 16 from shiftRight_and_low h.toNat 16 16]
    exact load_store_same (Nat.mod_lt _ (by decide))
  · rw [load_store_other (by omega), show h.toNat >>> 32 &&& 0xFFFFFFFF = h.toNat / 2 ^ 32 % 2 ^ 32 from
      shiftRight_and_low h.toNat 32 32]
    exact load_store_same (Nat.mod_lt _ (by decide))
  · rw [load_store_other (by omega), load_store_other (by omega), load_store_other (by omega),
      load_store_other (by omega)]

/-- No byte outside the descriptor's first twelve is written. -/
theorem setEntry_other (m : Mem) (e : Nat) (h : BitVec 64) (g : BitVec 8) {x : Nat}
    (hx : x < e ∨ e + 12 ≤ x) : setEntry m e h g x = m x := by
  simp only [setEntry]
  rw [Function.update_of_ne (by omega), Function.update_of_ne (by omega),
    Function.update_of_ne (by omega), Function.update_of_ne (by omega)]
  simp only [store]
  rw [if_neg (by omega), if_neg (by omega), if_neg (by omega), if_neg (by omega)]

theorem lastCall_append (calls : List IdtCall) (c : IdtCall) (v : BitVec 8) :
    lastCall (calls ++ [c]) v = if c.vector = v then some c else lastCall calls v := by
  simp only [lastCall, List.reverse_append, List.reverse_singleton, List.singleton_append,
    List.find?_cons]
  by_cases h : c.vector = v <;> simp [h]

/-- The descriptor of `v` after the calls, from the one before. -/
def IdtEntry.after (d : IdtEntry) : Option IdtCall → IdtEntry
  | none => d
  | some c => d.set c.handler c.gateType

theorem idtRun_append (idt : Nat) (calls : List IdtCall) (c : IdtCall) :
    idtRun idt (calls ++ [c]) k =
      (idtRun idt calls k).idtSetHandler idt c.vector c.handler c.gateType := by
  simp [idtRun]

/-- Each descriptor is what the last call for its vector makes of the stale one. -/
theorem idtRun_entry (hh : k.hhdm < 2 ^ 64) (hf : f + 0x1000 ≤ 2 ^ 64) (calls : List IdtCall) :
    (idtRun (k.virt f) calls k).toGlobals = k.toGlobals ∧
    ∀ v : BitVec 8, entryAt (idtRun (k.virt f) calls k).mem (f + 16 * v.toNat) =
      (entryAt k.mem (f + 16 * v.toNat)).after (lastCall calls v) := by
  induction calls using List.reverseRecOn with
  | nil => exact ⟨rfl, fun v => rfl⟩
  | append_singleton calls c ih =>
    obtain ⟨hg, hd⟩ := ih
    have hvirt : (idtRun (k.virt f) calls k).virt f = k.virt f := by rw [hg]
    obtain ⟨hg', hm'⟩ := idtSetHandler_mem (k := idtRun (k.virt f) calls k) (by rw [hg]; exact hh) hf
      c.vector c.handler c.gateType
    rw [hvirt] at hg' hm'
    rw [idtRun_append]
    refine ⟨hg'.trans hg, fun v => ?_⟩
    rw [hm', lastCall_append]
    by_cases hv : c.vector = v
    · subst hv
      rw [if_pos rfl, entryAt_setEntry, hd]
      cases lastCall calls c.vector with
      | none => rfl
      | some c' => rfl
    · have hne : c.vector.toNat ≠ v.toNat := fun h => hv (BitVec.eq_of_toNat_eq h)
      rw [if_neg hv, ← hd]
      exact entryAt_inj.mpr fun i hi => setEntry_other _ _ _ _ (by omega)

end SetHandler

/-! ## The table -/

namespace Kernel

/-- The byte `i` of the table after `idt_init` and the calls. -/
def idtByte (k : Kernel) (calls : List IdtCall) (i : Nat) : Byte :=
  let k' := idtRun k.idtInit.1.idt calls k.idtInit.2
  k'.mem (k'.phys k.idtInit.1.idt + i)

/-- The descriptor of `v` after `idt_init` and the calls. -/
def idtEntry (k : Kernel) (calls : List IdtCall) (v : BitVec 8) : IdtEntry :=
  let k' := idtRun k.idtInit.1.idt calls k.idtInit.2
  entryAt k'.mem (k'.phys k.idtInit.1.idt + 16 * v.toNat)

/-- What the page of the table holds in the place of `v` before `idt_init`. -/
def staleEntry (k : Kernel) (v : BitVec 8) : IdtEntry :=
  entryAt k.mem (k.phys k.idtInit.1.idt + 16 * v.toNat)

section Table

variable {k : Kernel}

/-- With two free frames `idt_init` leaves the page of the table as it was. -/
theorem idtInit_page (hk : k.PmmOk) (hh : k.BitmapHeld) (hfree : k.Free.Nontrivial) :
    ∃ f ∈ k.Free, k.idtInit.1.idt = k.virt f ∧ k.idtInit.2.toGlobals = k.toGlobals ∧
      ∀ x, f ≤ x → x < f + 0x1000 → k.idtInit.2.mem x = k.mem x := by
  obtain ⟨f, hf, ef, hg₁, hfree₁, hh₁, hkept₁⟩ := pmmAlloc_spec hk hh hfree.nonempty
  have hk₁ : k.pmmAlloc.2.PmmOk := by rw [hg₁]; exact hk
  have hne₁ : k.pmmAlloc.2.Free.Nonempty := by
    obtain ⟨f', hf', hne⟩ := hfree.exists_ne f
    rw [hfree₁]
    exact ⟨f', hf', hne⟩
  obtain ⟨f₂, hf₂, ef₂, hg₂, _, _, hkept₂⟩ := pmmAlloc_spec hk₁ hh₁ hne₁
  have hal := free_aligned hk hf
  have hlt := free_lt hk hf
  have hal₂ := free_aligned hk₁ hf₂
  have hlt₂ := free_lt hk₁ hf₂
  have hnb := free_not_bitmap hk hh hf
  have hne : f₂ ≠ f := by
    rw [hfree₁] at hf₂
    exact hf₂.2
  -- the second page is another one, and so are the bitmap's
  have hphys : k.pmmAlloc.2.pmmAlloc.2.phys k.pmmAlloc.2.pmmAlloc.1 = f₂ := by
    rw [ef₂, hg₂]
    exact Globals.phys_virt hk₁.hhdm_lt (by omega)
  have hphys' : k.pmmAlloc.2.pmmAlloc.2.phys (k.pmmAlloc.2.pmmAlloc.1 + 2) = f₂ + 2 := by
    rw [ef₂, hg₂]
    exact Globals.phys_virt_add hk₁.hhdm_lt (by omega)
  refine ⟨f, hf, ef, ?_, fun x hlo hhi => ?_⟩
  · simp only [idtInit, st16, st64]
    exact hg₂.trans hg₁
  · have hpage : pageOf x ∉ k.Bitmap := by rwa [pageOf_of_page hal hlo hhi]
    have hpage₁ : pageOf x ∉ k.pmmAlloc.2.Bitmap := by rwa [hg₁]
    simp only [idtInit, st16, st64, hphys, hphys']
    simp only [store]
    rw [if_neg (by omega), if_neg (by omega), hkept₂ x hpage₁, hkept₁ x hpage]

theorem idtEntry_eq (hk : k.PmmOk) (hh : k.BitmapHeld) (hfree : k.Free.Nontrivial)
    (calls : List IdtCall) (v : BitVec 8) :
    k.idtEntry calls v = (k.staleEntry v).after (lastCall calls v) := by
  have hv := v.isLt
  obtain ⟨f, hf, ef, hg, hsame⟩ := idtInit_page hk hh hfree
  have hlt := free_lt hk hf
  have hvirt : k.virt f = k.idtInit.2.virt f := by rw [hg]
  obtain ⟨hg', hd⟩ := idtRun_entry (k := k.idtInit.2) (f := f) (hg ▸ hk.hhdm_lt) (by omega) calls
  have hphys : k.phys (k.virt f) = f := Globals.phys_virt hk.hhdm_lt (by omega)
  rw [← hvirt] at hg' hd
  unfold idtEntry staleEntry
  dsimp only
  rw [ef, hg', hg, hphys, hd]
  congr 1
  exact entryAt_inj.mpr fun i hi => hsame _ (by omega) (by omega)

theorem idtByte_eq (calls : List IdtCall) {k' : Kernel} :
    (∀ i < 0x1000, k.idtByte calls i = k'.idtByte calls i) ↔
      ∀ v, k.idtEntry calls v = k'.idtEntry calls v := by
  constructor
  · intro h v
    have hv := v.isLt
    refine entryAt_inj.mpr fun i hi => ?_
    rw [Nat.add_assoc, Nat.add_assoc]
    exact h (16 * v.toNat + i) (by omega)
  · intro h i hi
    have hbyte := entryAt_inj.mp (h (BitVec.ofNat 8 (i / 16))) (i % 16) (by omega)
    rw [BitVec.toNat_ofNat, Nat.mod_eq_of_lt (by omega), Nat.add_assoc, Nat.add_assoc,
      Nat.div_add_mod] at hbyte
    exact hbyte

end Table

end Kernel

/-- The descriptor as a call asks for it. -/
def IdtEntry.Serves (d : IdtEntry) (c : IdtCall) : Prop :=
  d.offset = c.handler.toNat ∧ d.gateType.toNat = c.gateType.toNat ∧ d.Clean

theorem IdtEntry.serves_iff (d : IdtEntry) (c : IdtCall) :
    (d.after (some c)).Serves c ↔ d.Clean ∧ c.gateType.toNat < 16 := by
  unfold Serves after
  rw [set_offset, set_gateType, set_clean]
  tauto

/-- The descriptors serve the last calls for their vectors exactly where the page had zeros in their
reserved bits and the gate types fit their field; a call changes no other descriptor; and a table
with all vectors set tells two pages apart exactly by their reserved bits. -/
theorem idt_wellFormed_iff {k : Kernel} (hk : k.PmmOk) (hh : k.BitmapHeld)
    (hfree : k.Free.Nontrivial) (calls : List IdtCall) :
    ((∀ v c, lastCall calls v = some c → (k.idtEntry calls v).Serves c) ↔
      ∀ v c, lastCall calls v = some c → (k.staleEntry v).Clean ∧ c.gateType.toNat < 16) ∧
    (∀ c v, v ≠ c.vector → k.idtEntry (calls ++ [c]) v = k.idtEntry calls v) ∧
    ∀ k' : Kernel, k'.PmmOk → k'.BitmapHeld → k'.Free.Nontrivial →
      (∀ v, lastCall calls v ≠ none) →
      ((∀ i < 0x1000, k.idtByte calls i = k'.idtByte calls i) ↔
        ∀ v, (k.staleEntry v).SameReserved (k'.staleEntry v)) := by
  refine ⟨?_, fun c v hv => ?_, fun k' hk' hh' hfree' hall => ?_⟩
  · refine forall_congr' fun v => forall_congr' fun c => ?_
    refine imp_congr_right fun hlast => ?_
    rw [Kernel.idtEntry_eq hk hh hfree, hlast, IdtEntry.serves_iff]
  · rw [Kernel.idtEntry_eq hk hh hfree, Kernel.idtEntry_eq hk hh hfree, lastCall_append,
      if_neg hv.symm]
  · rw [Kernel.idtByte_eq]
    refine forall_congr' fun v => ?_
    obtain ⟨c, hc⟩ := Option.ne_none_iff_exists'.mp (hall v)
    rw [Kernel.idtEntry_eq hk hh hfree, Kernel.idtEntry_eq hk' hh' hfree', hc]
    exact IdtEntry.set_eq_iff c.handler c.gateType

/-! ## Small machines -/

/-- The machine of `Vmm.Boot` after `pmm_init`, all its memory set to `b` before. -/
def filledMachine (b : Byte) : Kernel :=
  ({ bareMachine [] with mem := fun _ => b } : Kernel).pmmInit machineBoot

theorem filledMachine_ok (b : Byte) : (filledMachine b).PmmOk ∧ (filledMachine b).BitmapHeld ∧
    (filledMachine b).Free.Nontrivial := by
  have hboot : BootOk { bareMachine [] with mem := fun _ => b } machineBoot :=
    ⟨rfl, rfl, rfl, (machine_boot []).hhdm_lt⟩
  obtain ⟨hg, hheld, _, hfree⟩ := pmmInit_spec hboot machine_memmapOk (by decide)
  have hb : (filledMachine b).Bitmap = {0x100000} := by
    rw [← machine_bitmap, filledMachine, hg]
    rfl
  refine ⟨?_, hheld, 0x101000, ?_, 0x102000, ?_, by decide⟩
  · rw [filledMachine, hg]
    exact initGlobals_ok hboot machine_memmapOk (by decide)
  · exact (hfree _).mpr ⟨by decide, machine_usable.mpr (by decide), by
      rw [← filledMachine, hb]
      simp⟩
  · exact (hfree _).mpr ⟨by decide, machine_usable.mpr (by decide), by
      rw [← filledMachine, hb]
      simp⟩

theorem filledMachine_stale (b : Byte) (v : BitVec 8) :
    (filledMachine b).staleEntry v = entryAt (fun _ => b) 0 := by
  have hv := v.isLt
  obtain ⟨hk, hh, hfree⟩ := filledMachine_ok b
  obtain ⟨f, hf, ef, _, _⟩ := Kernel.idtInit_page hk hh hfree
  have hboot : BootOk { bareMachine [] with mem := fun _ => b } machineBoot :=
    ⟨rfl, rfl, rfl, (machine_boot []).hhdm_lt⟩
  obtain ⟨_, _, hkept, _⟩ := pmmInit_spec hboot machine_memmapOk (by decide)
  have hlt := Kernel.free_lt hk hf
  have hphys : (filledMachine b).phys ((filledMachine b).virt f) = f :=
    Globals.phys_virt hk.hhdm_lt (by omega)
  rw [Kernel.staleEntry, ef, hphys]
  refine entryAt_inj.mpr fun i hi => hkept _ ?_
  rw [pageOf_of_page (Kernel.free_aligned hk hf) (by omega) (by omega)]
  exact Kernel.free_not_bitmap hk hh hf

/-- An interrupt gate for vector 0. -/
def oneGate : IdtCall := ⟨0, 0xFFFFFFFF80001000, 0b1110⟩

/-- On a page of ones the reserved bits stay ones. -/
theorem oneGate_dirty : (filledMachine 0xFF).PmmOk ∧ (filledMachine 0xFF).BitmapHeld ∧
    (filledMachine 0xFF).Free.Nontrivial ∧
    ¬ ((filledMachine 0xFF).idtEntry [oneGate] 0).Clean := by
  obtain ⟨hk, hh, hfree⟩ := filledMachine_ok 0xFF
  refine ⟨hk, hh, hfree, ?_⟩
  rw [Kernel.idtEntry_eq hk hh hfree, filledMachine_stale]
  show ¬ (entryAt (fun _ => 0xFF) 0).Clean
  intro h
  have hbits : (entryAt (fun _ => 0xFF) 0).reserved0 ≠ 0 := by decide
  exact hbits h.1

/-- On a page of zeros the gate is as it should be. -/
theorem oneGate_serves : ((filledMachine 0).idtEntry [oneGate] 0).Serves oneGate := by
  obtain ⟨hk, hh, hfree⟩ := filledMachine_ok 0
  refine (idt_wellFormed_iff hk hh hfree [oneGate]).1.mpr (fun v c hc => ?_) 0 oneGate rfl
  have hmem := List.mem_of_find?_eq_some hc
  rw [List.reverse_singleton, List.mem_singleton] at hmem
  rw [hmem, filledMachine_stale]
  have hgate : oneGate.gateType.toNat < 16 := by decide
  have hres : load (fun _ => 0) 12 4 = 0 := load_of_zero fun _ _ _ => rfl
  exact ⟨⟨by decide, by decide, hres⟩, hgate⟩

end BambooOS
