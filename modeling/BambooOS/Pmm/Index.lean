import BambooOS.Pmm.Model
import Mathlib.Data.Finset.Card
import Mathlib.Data.Finset.Max
import Mathlib.Order.Interval.Finset.Nat

/-!
# Pmm.Index

The numbering of usable pages. `pmm_get_address_by_index` and `pmm_get_index_by_address` are two
separate scans of the memory map; on a map whose usable entries are page-aligned, disjoint and
below `2^52` they number the pages alike.

* `getAddressFrom_spec`: an index in range has a page-aligned address in a usable entry, whose
  index is the one started from; any other index has none.
* `getIndexFrom_spec`: an address in a usable entry has an index in range, whose address is the
  page of the one started from.
* `usablePages_le`: the page count fits 40 bits, so no accumulator of `pmm.c` wraps.
-/

namespace BambooOS

/-- The byte `a` lies in the entry. -/
def MemmapEntry.Covers (e : MemmapEntry) (a : Nat) : Prop := e.base ≤ a ∧ a < e.base + e.length

/-- What `pmm.c` relies on in a memory map. -/
structure MemmapOk (es : List MemmapEntry) : Prop where
  aligned : ∀ e ∈ es, e.type = memmapUsable → e.base % 0x1000 = 0 ∧ e.length % 0x1000 = 0
  below : ∀ e ∈ es, e.type = memmapUsable → e.base + e.length ≤ 2 ^ 52
  disjoint : es.Pairwise fun e f =>
    e.type = memmapUsable → f.type = memmapUsable → ∀ a, e.Covers a → ¬ f.Covers a

/-- The byte `a` is usable memory. -/
def Usable (es : List MemmapEntry) (a : Nat) : Prop :=
  ∃ e ∈ es, e.type = memmapUsable ∧ e.Covers a

/-- The number of usable pages. -/
def usablePages : List MemmapEntry → Nat
  | [] => 0
  | e :: es => (if e.type = memmapUsable then e.length / 0x1000 else 0) + usablePages es

section Scan

variable {e : MemmapEntry} {es : List MemmapEntry}

theorem MemmapOk.tail (h : MemmapOk (e :: es)) : MemmapOk es where
  aligned f hf := h.aligned f (List.mem_cons_of_mem _ hf)
  below f hf := h.below f (List.mem_cons_of_mem _ hf)
  disjoint := (List.pairwise_cons.mp h.disjoint).2

theorem usable_cons {a : Nat} :
    Usable (e :: es) a ↔ (e.type = memmapUsable ∧ e.Covers a) ∨ Usable es a := by
  simp [Usable]

theorem Usable.lt (h : MemmapOk es) {a : Nat} (ha : Usable es a) : a < 2 ^ 52 := by
  obtain ⟨e, he, ht, _, hlt⟩ := ha
  have := h.below e he ht
  omega

theorem Usable.page (h : MemmapOk es) {a : Nat} (ha : Usable es a) : Usable es (a - a % 0x1000) := by
  obtain ⟨e, he, ht, hle, hlt⟩ := ha
  have hal := h.aligned e he ht
  exact ⟨e, he, ht, by omega, by omega⟩

theorem Usable.of_page (h : MemmapOk es) {a x : Nat} (ha : Usable es a) (hal : a % 0x1000 = 0)
    (h₁ : a ≤ x) (h₂ : x < a + 0x1000) : Usable es x := by
  obtain ⟨e, he, ht, hle, hlt⟩ := ha
  have hal := h.aligned e he ht
  exact ⟨e, he, ht, by omega, by omega⟩

theorem MemmapOk.not_usable_tail (h : MemmapOk (e :: es)) (ht : e.type = memmapUsable) {a : Nat}
    (ha : e.Covers a) : ¬ Usable es a := by
  rintro ⟨f, hf, hft, hfa⟩
  exact (List.pairwise_cons.mp h.disjoint).1 f hf ht hft a ha hfa

/-- The usable pages as a set of page numbers, one for each page counted. -/
theorem exists_pages (h : MemmapOk es) :
    ∃ S : Finset Nat, S.card = usablePages es ∧ ∀ p ∈ S, Usable es (p * 0x1000) := by
  induction es with
  | nil => exact ⟨∅, by simp [usablePages], by simp⟩
  | cons e es ih =>
    obtain ⟨S, hcard, hS⟩ := ih h.tail
    by_cases ht : e.type = memmapUsable
    · have hal := h.aligned e List.mem_cons_self ht
      let I := Finset.Ico (e.base / 0x1000) (e.base / 0x1000 + e.length / 0x1000)
      have hI : ∀ p ∈ I, e.Covers (p * 0x1000) := by
        intro p hp
        have hp := Finset.mem_Ico.mp hp
        constructor <;> omega
      have hdisj : Disjoint I S := by
        rw [Finset.disjoint_left]
        intro p hp hpS
        exact h.not_usable_tail ht (hI p hp) (hS p hpS)
      refine ⟨I ∪ S, ?_, ?_⟩
      · rw [Finset.card_union_of_disjoint hdisj, hcard]
        simp [I, usablePages, ht]
      · intro p hp
        rcases Finset.mem_union.mp hp with hp | hp
        · exact usable_cons.mpr (.inl ⟨ht, hI p hp⟩)
        · exact usable_cons.mpr (.inr (hS p hp))
    · refine ⟨S, by simp [usablePages, ht, hcard], ?_⟩
      intro p hp
      exact usable_cons.mpr (.inr (hS p hp))

theorem usablePages_le (h : MemmapOk es) : usablePages es ≤ 2 ^ 40 := by
  obtain ⟨S, hcard, hS⟩ := exists_pages h
  have hsub : S ⊆ Finset.range (2 ^ 40) := by
    intro p hp
    have := (hS p hp).lt h
    simp only [Finset.mem_range]
    omega
  have := Finset.card_le_card hsub
  rw [Finset.card_range] at this
  omega

theorem countUsablePages_eq {pages : Nat} (hlt : pages + usablePages es < 2 ^ 64) :
    Kernel.countUsablePages es pages = pages + usablePages es := by
  induction es generalizing pages with
  | nil => rfl
  | cons e es ih =>
    simp only [Kernel.countUsablePages, usablePages] at hlt ⊢
    split at hlt
    · rename_i ht
      rw [if_pos ht, if_pos ht, Nat.mod_eq_of_lt (by omega), ih (by omega)]
      omega
    · rename_i ht
      rw [if_neg ht, if_neg ht, ih (by omega)]
      omega

theorem getAddressFrom_spec (h : MemmapOk es) {cur index : Nat} (hcur : cur ≤ index)
    (hlt : index < cur + usablePages es) (hw : cur + usablePages es < 2 ^ 64) :
    Usable es (getAddressFrom es cur index) ∧ getAddressFrom es cur index % 0x1000 = 0 ∧
      getIndexFrom es cur (getAddressFrom es cur index) = index := by
  induction es generalizing cur with
  | nil => simp [usablePages] at hlt; omega
  | cons e es ih =>
    simp only [usablePages] at hlt hw
    simp only [getAddressFrom, getIndexFrom]
    by_cases ht : e.type = memmapUsable
    · have hal := h.aligned e List.mem_cons_self ht
      have hbelow := h.below e List.mem_cons_self ht
      simp only [ht, if_true] at hlt hw ⊢
      rw [Nat.mod_eq_of_lt (show cur + e.length / 0x1000 < 2 ^ 64 by omega)]
      by_cases hskip : cur + e.length / 0x1000 ≤ index
      · -- a later entry holds the page, and this one does not
        simp only [hskip, if_true]
        obtain ⟨hu, ha, hi⟩ := ih h.tail hskip (by omega) (by omega)
        have hnot := fun hc => h.not_usable_tail ht hc hu
        have hmod : (e.base + e.length) % 2 ^ 64 = e.base + e.length := Nat.mod_eq_of_lt (by omega)
        simp only [MemmapEntry.Covers] at hnot
        rw [hmod, if_neg hnot]
        exact ⟨usable_cons.mpr (.inr hu), ha, hi⟩
      · simp only [hskip, if_false]
        have haddr : (e.base + 0x1000 * (index - cur)) % 2 ^ 64 = e.base + 0x1000 * (index - cur) :=
          Nat.mod_eq_of_lt (by omega)
        have hc : e.Covers (e.base + 0x1000 * (index - cur)) := ⟨by omega, by omega⟩
        have hmod : (e.base + e.length) % 2 ^ 64 = e.base + e.length := Nat.mod_eq_of_lt (by omega)
        rw [haddr, hmod, if_pos ⟨hc.1, hc.2⟩]
        refine ⟨usable_cons.mpr (.inl ⟨ht, hc⟩), by omega, ?_⟩
        rw [Nat.mod_eq_of_lt (by omega)]
        omega
    · simp only [ht, if_false, Nat.zero_add] at hlt hw ⊢
      obtain ⟨hu, ha, hi⟩ := ih h.tail hcur hlt hw
      exact ⟨usable_cons.mpr (.inr hu), ha, hi⟩

theorem getAddressFrom_none {cur index : Nat} (hle : cur + usablePages es ≤ index)
    (hw : cur + usablePages es < 2 ^ 64) : getAddressFrom es cur index = uint64Max := by
  induction es generalizing cur with
  | nil => rfl
  | cons e es ih =>
    simp only [usablePages] at hle hw
    simp only [getAddressFrom]
    by_cases ht : e.type = memmapUsable
    · simp only [ht, if_true] at hle hw ⊢
      rw [Nat.mod_eq_of_lt (by omega), if_pos (by omega)]
      exact ih (by omega) (by omega)
    · simp only [ht, if_false, Nat.zero_add] at hle hw ⊢
      exact ih hle hw

theorem getIndexFrom_spec (h : MemmapOk es) (cur : Nat) {a : Nat} (ha : Usable es a)
    (hw : cur + usablePages es < 2 ^ 64) :
    cur ≤ getIndexFrom es cur a ∧ getIndexFrom es cur a < cur + usablePages es ∧
      getAddressFrom es cur (getIndexFrom es cur a) = a - a % 0x1000 := by
  induction es generalizing cur with
  | nil => obtain ⟨_, he, _⟩ := ha; cases he
  | cons e es ih =>
    simp only [usablePages] at hw ⊢
    simp only [getAddressFrom, getIndexFrom]
    by_cases ht : e.type = memmapUsable
    · have hal := h.aligned e List.mem_cons_self ht
      have hbelow := h.below e List.mem_cons_self ht
      simp only [ht, if_true] at hw ⊢
      have hmod : (e.base + e.length) % 2 ^ 64 = e.base + e.length := Nat.mod_eq_of_lt (by omega)
      rw [hmod, Nat.mod_eq_of_lt (show cur + e.length / 0x1000 < 2 ^ 64 by omega)]
      by_cases hc : e.Covers a
      · obtain ⟨hle, hlt⟩ := hc
        rw [if_pos ⟨hle, hlt⟩, Nat.mod_eq_of_lt (by omega), if_neg (by omega)]
        refine ⟨by omega, by omega, ?_⟩
        rw [Nat.mod_eq_of_lt (by omega)]
        omega
      · have hu : Usable es a := by
          rcases usable_cons.mp ha with ⟨_, hc'⟩ | hu
          · exact absurd hc' hc
          · exact hu
        simp only [MemmapEntry.Covers] at hc
        rw [if_neg hc]
        obtain ⟨h₁, h₂, h₃⟩ := ih h.tail (cur + e.length / 0x1000) hu (by omega)
        refine ⟨by omega, by omega, ?_⟩
        rw [if_pos h₁, h₃]
    · have hu : Usable es a := by
        rcases usable_cons.mp ha with ⟨ht', _⟩ | hu
        · exact absurd ht' ht
        · exact hu
      simp only [ht, if_false, Nat.zero_add] at hw ⊢
      exact ih h.tail _ hu hw

theorem getIndexFrom_none (h : MemmapOk es) {cur a : Nat} (ha : ¬ Usable es a) :
    getIndexFrom es cur a = uint64Max := by
  induction es generalizing cur with
  | nil => rfl
  | cons e es ih =>
    rw [usable_cons, not_or] at ha
    simp only [getIndexFrom]
    by_cases ht : e.type = memmapUsable
    · have hbelow := h.below e List.mem_cons_self ht
      have hmod : (e.base + e.length) % 2 ^ 64 = e.base + e.length := Nat.mod_eq_of_lt (by omega)
      have hnc : ¬ (a ≥ e.base ∧ a < e.base + e.length) := fun hc => ha.1 ⟨ht, hc⟩
      rw [if_pos ht, hmod, if_neg hnc]
      exact ih h.tail ha.2
    · rw [if_neg ht]
      exact ih h.tail ha.2

end Scan

end BambooOS
