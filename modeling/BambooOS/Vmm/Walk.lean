import BambooOS.Vmm.Slot

/-!
# Vmm.Walk

The walk an x86-64 processor makes through four levels of tables, read off memory alone, and the
source's own walk beside it.

* `hardwareWalk`: the leaf the processor ends at, with its level.
* `leafFrame`: the physical memory of a leaf, by the bits of the entry the processor reads.
* `vmmVirtToPhys_walk`: the source ends at the same leaf, on any memory.
-/

namespace BambooOS

open Kernel

/-- The leaf for the page `q`, from the table `table` whose entries are at level `l - 1`. -/
def hardwareWalk (rd : Nat → Fin 512 → Nat) (q : Nat) : Nat → Nat → Option (Nat × Nat)
  | 0, _ => none
  | l + 1, table =>
    let e := rd table (path q l)
    if Present e then
      if l = 0 ∨ (l = 1 ∨ l = 2) ∧ Larger e then some (l, e)
      else hardwareWalk rd q l (vmmPtEntryGetAddress e)
    else none

/-- The bytes a leaf at level `l` maps. -/
def leafSize (l : Nat) : Nat := 0x1000 * 512 ^ l

/-- The frame of a leaf at level `l`: the bits of the entry below 52 that lie above its size. -/
def leafFrame (l e : Nat) : Nat := e % 2 ^ 52 / leafSize l * leafSize l

theorem leafFrame_zero (e : Nat) : leafFrame 0 e = vmmPtEntryGetAddress e := by
  rw [getAddress_eq]
  simp only [leafFrame, leafSize]
  omega

/-- The address field of a leaf aligned to its size is its frame. -/
theorem leafFrame_of_aligned {l e : Nat} (hl : l ≤ 2)
    (ha : vmmPtEntryGetAddress e % leafSize l = 0) : leafFrame l e = vmmPtEntryGetAddress e := by
  rw [getAddress_eq] at ha ⊢
  rcases (by omega : l = 0 ∨ l = 1 ∨ l = 2) with rfl | rfl | rfl <;>
    simp only [leafFrame, leafSize] at ha ⊢ <;> norm_num at ha ⊢ <;> omega

/-- What the walk of `vmm_virt_to_phys` makes of the leaf it ends at. A PT entry gives its
address alone, without the offset in the page. -/
def walkValue (v : Nat) : Option (Nat × Nat) → Nat
  | none => uint64Max
  | some (0, e) => vmmPtEntryGetAddress e
  | some (l + 1, e) => vmmPtEntryGetAddress e + v % (0x1000 * 512 ^ (l + 1))

/-- The globals of `vmm_init`: the current tables are those at `root`, all tables are reached
through the window. -/
structure Walks (g : Globals) (root : Nat) : Prop where
  initialised : g.vmmInitialised = true
  tables : g.vmmPageTablesOffset = g.hhdm
  hhdm_lt : g.hhdm < 2 ^ 64
  pml4 : g.pml4 = g.virt root
  lt : root < 2 ^ 52

theorem Globals.VmmOk.walks {g : Globals} {root : Nat} (hg : g.VmmOk) (hr : g.pml4 = g.virt root)
    (hlt : root < 2 ^ 52) : Walks g root :=
  ⟨hg.initialised, hg.tables, hg.hhdm_lt, hr, hlt⟩

section Walk

variable {k : Kernel} {root : Nat} {rd : Nat → Fin 512 → Nat} {q l table : Nat}

theorem hardwareWalk_absent (hp : ¬ Present (rd table (path q l))) :
    hardwareWalk rd q (l + 1) table = none := by
  rw [hardwareWalk, if_neg hp]

theorem hardwareWalk_leaf (hp : Present (rd table (path q l)))
    (hl : l = 0 ∨ (l = 1 ∨ l = 2) ∧ Larger (rd table (path q l))) :
    hardwareWalk rd q (l + 1) table = some (l, rd table (path q l)) := by
  rw [hardwareWalk, if_pos hp, if_pos hl]

theorem hardwareWalk_table (hp : Present (rd table (path q l)))
    (hl : ¬ (l = 0 ∨ (l = 1 ∨ l = 2) ∧ Larger (rd table (path q l)))) :
    hardwareWalk rd q (l + 1) table =
      hardwareWalk rd q l (vmmPtEntryGetAddress (rd table (path q l))) := by
  rw [hardwareWalk, if_pos hp, if_neg hl]

/-- A walk ends below the root, at a PT entry or at one marked as larger pages. -/
theorem hardwareWalk_level {n e : Nat} (h : hardwareWalk rd q n table = some (l, e)) : l ≤ 2 := by
  induction n generalizing table with
  | zero => cases h
  | succ n ih =>
    by_cases hp : Present (rd table (path q n))
    · by_cases hl : n = 0 ∨ (n = 1 ∨ n = 2) ∧ Larger (rd table (path q n))
      · rw [hardwareWalk_leaf hp hl] at h
        cases h
        omega
      · rw [hardwareWalk_table hp hl] at h
        exact ih h
    · rw [hardwareWalk_absent hp] at h
      cases h

/-- On any memory the source's walk ends at the leaf the processor's does. -/
theorem vmmVirtToPhys_walk (h : Walks k.toGlobals root) (v : Nat) :
    k.vmmVirtToPhys v = walkValue v (hardwareWalk k.rd (v / 0x1000) 4 root) := by
  have hini : ¬ k.vmmInitialised = false := by simp [h.initialised]
  have hlt : ∀ e, vmmPtEntryGetAddress e < 2 ^ 52 := fun e => by
    have := getAddress_lt e
    omega
  have hmod : ∀ e m, 0 < m → m ≤ 2 ^ 30 →
      (vmmPtEntryGetAddress e + v % m) % 2 ^ 64 = vmmPtEntryGetAddress e + v % m := by
    intro e m h0 hm
    have := getAddress_lt e
    have := Nat.mod_lt v h0
    exact Nat.mod_eq_of_lt (by omega)
  have htable : ∀ {f : Nat} (i : Fin 512), f < 2 ^ 52 →
      k.tableOf (k.virt f + 8 * i.val) = k.virt (vmmPtEntryGetAddress (k.rd f i)) :=
    fun i hf => tableOf_slot h.hhdm_lt h.tables hf i
  simp only [vmmVirtToPhys, if_neg hini, h.pml4, pml4Index_eq, pdptIndex_eq, pdIndex_eq, ptIndex_eq,
    and_present, and_larger, ite_not]
  generalize v / 0x1000 = q
  -- the PML4 entry
  rw [ld64_slot h.hhdm_lt h.lt, htable _ h.lt]
  by_cases hp₃ : Present (k.rd root (path q 3))
  swap
  · rw [hardwareWalk_absent hp₃, if_neg hp₃]
    rfl
  rw [hardwareWalk_table hp₃ (by omega), if_pos hp₃]
  generalize k.rd root (path q 3) = e₃
  -- the PDPT entry
  rw [ld64_slot h.hhdm_lt (hlt e₃), htable _ (hlt e₃)]
  by_cases hp₂ : Present (k.rd (vmmPtEntryGetAddress e₃) (path q 2))
  swap
  · rw [hardwareWalk_absent hp₂, if_neg hp₂]
    rfl
  rw [if_pos hp₂]
  by_cases hl₂ : Larger (k.rd (vmmPtEntryGetAddress e₃) (path q 2))
  · rw [hardwareWalk_leaf hp₂ (.inr ⟨.inr rfl, hl₂⟩), if_pos hl₂, hmod _ _ (by decide) (by decide)]
    rfl
  rw [hardwareWalk_table hp₂ (by simp [hl₂]), if_neg hl₂]
  generalize k.rd (vmmPtEntryGetAddress e₃) (path q 2) = e₂
  -- the PD entry
  rw [ld64_slot h.hhdm_lt (hlt e₂), htable _ (hlt e₂)]
  by_cases hp₁ : Present (k.rd (vmmPtEntryGetAddress e₂) (path q 1))
  swap
  · rw [hardwareWalk_absent hp₁, if_neg hp₁]
    rfl
  rw [if_pos hp₁]
  by_cases hl₁ : Larger (k.rd (vmmPtEntryGetAddress e₂) (path q 1))
  · rw [hardwareWalk_leaf hp₁ (.inr ⟨.inl rfl, hl₁⟩), if_pos hl₁, hmod _ _ (by decide) (by decide)]
    rfl
  rw [hardwareWalk_table hp₁ (by simp [hl₁]), if_neg hl₁]
  generalize k.rd (vmmPtEntryGetAddress e₂) (path q 1) = e₁
  -- the PT entry
  rw [ld64_slot h.hhdm_lt (hlt e₁)]
  by_cases hp₀ : Present (k.rd (vmmPtEntryGetAddress e₁) (path q 0))
  · rw [hardwareWalk_leaf hp₀ (.inl rfl), if_pos hp₀]
    rfl
  · rw [hardwareWalk_absent hp₀, if_neg hp₀]
    rfl

end Walk

end BambooOS
