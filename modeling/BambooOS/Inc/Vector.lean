import BambooOS.Lib.Loop
import Mathlib.Data.List.Induction
import Mathlib.Tactic.Ring

/-!
# Inc.Vector

The growing arrays of `vector.c`. `malloc` and `realloc` are parameters of each call: they succeed,
and the block they return is apart from the one in use.

* `Backed.grow`, `shiftDown_spec`, `shiftUp_spec`: one more item, and the two loops over the items.
* `VectorCall.step`: a call keeps a vector and its list together.
* `vector_isList_iff`: a vector stays a list exactly as long as nothing behind its end is deleted.
-/

namespace BambooOS

/-- A block from `malloc` or `realloc`, and the words it holds before anything is copied into it. -/
structure HeapBlock where
  address : Nat
  fill : Nat → Nat

/-- An access to `items`: where in the block, and the size of the block it was made to. -/
structure ItemAccess where
  offset : Nat
  size : Nat
  deriving DecidableEq, Repr

/-- `vector_t`, with the size of the block behind `items`, the words in it and the accesses to it. -/
structure VectorT where
  length : Nat
  items : Nat
  size : Nat
  words : Nat → Nat
  accesses : List ItemAccess

namespace VectorT

/-! ## The functions -/

/-- The word `items[i]`: the address is 64 bits wide. -/
def item (v : VectorT) (i : Nat) : Nat := v.words (i % 2 ^ 61)

def touch (v : VectorT) (i : Nat) : VectorT :=
  { v with accesses := v.accesses ++ [⟨8 * (i % 2 ^ 61), v.size⟩] }

/-- `items[i] = x`. -/
def store (v : VectorT) (i x : Nat) : VectorT :=
  { v.touch i with words := fun k => if k = i % 2 ^ 61 then x else v.words k }

/-- `items[i] = items[j]`. -/
def copyItem (v : VectorT) (i j : Nat) : VectorT := (v.touch j).store i (v.item j)

/-- `items = realloc(items, n)`. -/
def realloc (v : VectorT) (b : HeapBlock) (n : Nat) : VectorT :=
  { v with
    items := b.address
    size := n
    words := fun k => if 8 * k + 8 ≤ v.size ∧ 8 * k + 8 ≤ n then v.words k else b.fill k }

def vectorInit (b : HeapBlock) : VectorT :=
  { length := 0, items := b.address, size := 8, words := b.fill, accesses := [] }

/-- `length++; items = realloc(items, length * sizeof(void*))`. -/
def grow (v : VectorT) (b : HeapBlock) : VectorT :=
  { v with length := (v.length + 1) % 2 ^ 64 }.realloc b ((v.length + 1) % 2 ^ 64 * 8 % 2 ^ 64)

/-- `length - 1` at 64 bits. -/
def last (v : VectorT) : Nat := (v.length + (2 ^ 64 - 1)) % 2 ^ 64

def vectorAdd (v : VectorT) (b : HeapBlock) (x : Nat) : VectorT :=
  let v := v.grow b
  v.store v.last x

/-- The loop of `vector_insert`: from the last item down, each one takes the place of the next. -/
def shiftUp (v : VectorT) (last index : Nat) : VectorT :=
  Loop.upto (fun k v => v.copyItem (last - k) (last - k - 1)) (last - index) v

def vectorInsert (v : VectorT) (b : HeapBlock) (index x : Nat) : VectorT :=
  if v.length < index then v
  else
    let v := v.grow b
    (v.shiftUp v.last index).store index x

/-- The loop of `vector_delete_at`: from `first` up, each item takes the place of the one before. -/
def shiftDown (v : VectorT) (first : Nat) : VectorT :=
  Loop.upto (fun k v => v.copyItem ((first + k + (2 ^ 64 - 1)) % 2 ^ 64) (first + k))
    (v.length - first) v

def vectorDeleteAt (v : VectorT) (index : Nat) : VectorT :=
  let v := if (index + 1) % 2 ^ 64 < v.length then v.shiftDown ((index + 1) % 2 ^ 64) else v
  { v with length := v.last }

def vectorDeleteAll (v : VectorT) (b : HeapBlock) : VectorT :=
  { v with length := 0, items := b.address, size := 8, words := b.fill }

/-- NULL is 0. -/
def vectorGet (v : VectorT) (index : Nat) : Nat × VectorT :=
  if v.length ≤ index then (0, v) else (v.item index, v.touch index)

end VectorT

open VectorT

/-! ## Runs -/

/-- A call, with the block that `malloc` or `realloc` returns to it. -/
inductive VectorCall where
  | add (b : HeapBlock) (x : Nat)
  | insert (b : HeapBlock) (index x : Nat)
  | deleteAt (index : Nat)
  | deleteAll (b : HeapBlock)
  | get (index : Nat)

namespace VectorCall

def run (v : VectorT) : VectorCall → VectorT
  | add b x => v.vectorAdd b x
  | insert b index x => v.vectorInsert b index x
  | deleteAt index => v.vectorDeleteAt index
  | deleteAll b => v.vectorDeleteAll b
  | get index => (v.vectorGet index).2

/-- The call on a list. -/
def reference (l : List Nat) : VectorCall → List Nat
  | add _ x => l ++ [x]
  | insert _ index x => if index ≤ l.length then l.insertIdx index x else l
  | deleteAt index => if index < l.length then l.eraseIdx index else l
  | deleteAll _ => []
  | get _ => l

end VectorCall

def vectorRun (b : HeapBlock) (calls : List VectorCall) : VectorT :=
  calls.foldl VectorCall.run (vectorInit b)

def listRun (calls : List VectorCall) : List Nat := calls.foldl VectorCall.reference []

/-- The `n` bytes from the block's address on are there. -/
def HeapBlock.Holds (b : HeapBlock) (n : Nat) : Prop := 0 < b.address ∧ b.address + n ≤ 2 ^ 64

instance (b : HeapBlock) (n : Nat) : Decidable (b.Holds n) := by
  unfold HeapBlock.Holds
  infer_instance

/-- `realloc` returned a block of `n` bytes apart from the one it copies from. -/
def HeapBlock.Apart (b : HeapBlock) (n : Nat) (v : VectorT) : Prop :=
  b.Holds n ∧ (b.address + n ≤ v.items ∨ v.items + v.size ≤ b.address)

instance (b : HeapBlock) (n : Nat) (v : VectorT) : Decidable (b.Apart n v) := by
  unfold HeapBlock.Apart
  infer_instance

/-- The call gets a fresh block if it asks for one. -/
def VectorCall.Fresh (v : VectorT) : VectorCall → Prop
  | add b _ => b.Apart ((v.length + 1) % 2 ^ 64 * 8 % 2 ^ 64) v
  | insert b index _ => index ≤ v.length → b.Apart ((v.length + 1) % 2 ^ 64 * 8 % 2 ^ 64) v
  | deleteAt _ => True
  | deleteAll b => b.Holds 8
  | get _ => True

instance (v : VectorT) (call : VectorCall) : Decidable (call.Fresh v) := by
  cases call <;> unfold VectorCall.Fresh <;> infer_instance

/-- Every call of the run gets a fresh block. -/
def FreshBlocks (b : HeapBlock) (calls : List VectorCall) : Prop :=
  b.Holds 8 ∧ ∀ before call after, calls = before ++ call :: after → call.Fresh (vectorRun b before)

/-- The vector holds the list, and every access so far was inside its block. -/
structure HoldsList (v : VectorT) (l : List Nat) : Prop where
  length : v.length = l.length
  items : ∀ i (h : i < l.length), v.item i = l[i]
  inside : ∀ a ∈ v.accesses, a.offset + 8 ≤ a.size

/-- After each call the vector holds the reference list, and `vector_get` reads it. -/
def VectorIsList (b : HeapBlock) (calls : List VectorCall) : Prop :=
  ∀ before after, calls = before ++ after → HoldsList (vectorRun b before) (listRun before) ∧
    ∀ index, ((vectorRun b before).vectorGet index).1 = ((listRun before)[index]?).getD 0

/-- Nothing behind the end is deleted. -/
def DeletesInside (calls : List VectorCall) : Prop :=
  ∀ before index after, calls = before ++ .deleteAt index :: after → index < (listRun before).length

/-! ## Accesses -/

namespace VectorT

variable {v : VectorT}

/-- Every access so far was inside its block. -/
def Inside (v : VectorT) : Prop := ∀ a ∈ v.accesses, a.offset + 8 ≤ a.size

/-- The same block and length, and no access outside the block. -/
structure Keeps (v v' : VectorT) : Prop where
  length : v'.length = v.length
  items : v'.items = v.items
  size : v'.size = v.size
  inside : v.Inside → v'.Inside

theorem Keeps.refl (v : VectorT) : Keeps v v := ⟨rfl, rfl, rfl, id⟩

theorem Keeps.trans {v v' v'' : VectorT} (h : Keeps v v') (h' : Keeps v' v'') : Keeps v v'' where
  length := h'.length.trans h.length
  items := h'.items.trans h.items
  size := h'.size.trans h.size
  inside := fun hv => h'.inside (h.inside hv)

theorem touch_keeps {i : Nat} (hi : i < 2 ^ 61) (h : 8 * i + 8 ≤ v.size) : Keeps v (v.touch i) where
  length := rfl
  items := rfl
  size := rfl
  inside hv a ha := by
    rcases List.mem_append.mp ha with ha | ha
    · exact hv a ha
    · rw [List.mem_singleton.mp ha, Nat.mod_eq_of_lt hi]
      exact h

theorem store_keeps {i : Nat} (hi : i < 2 ^ 61) (h : 8 * i + 8 ≤ v.size) (x : Nat) :
    Keeps v (v.store i x) :=
  (touch_keeps hi h).trans ⟨rfl, rfl, rfl, id⟩

theorem item_store {i k : Nat} (hi : i < 2 ^ 61) (hk : k < 2 ^ 61) (x : Nat) :
    (v.store i x).item k = if k = i then x else v.item k := by
  unfold VectorT.item VectorT.store VectorT.touch
  rw [Nat.mod_eq_of_lt hi, Nat.mod_eq_of_lt hk]

theorem copyItem_keeps {i j : Nat} (hi : i < 2 ^ 61) (hj : j < 2 ^ 61) (h : 8 * i + 8 ≤ v.size)
    (h' : 8 * j + 8 ≤ v.size) : Keeps v (v.copyItem i j) :=
  (touch_keeps hj h').trans (store_keeps (v := v.touch j) hi h _)

theorem item_copyItem {i j k : Nat} (hi : i < 2 ^ 61) (hk : k < 2 ^ 61) :
    (v.copyItem i j).item k = if k = i then v.item j else v.item k :=
  item_store hi hk _

/-! ## The loops -/

/-- The loop of `vector_insert` moves the items from `index` to `last - 1` up by one. -/
theorem shiftUp_spec {last index : Nat} (hl : last < 2 ^ 61) (hroom : 8 * last + 8 ≤ v.size) :
    Keeps v (v.shiftUp last index) ∧ ∀ k < 2 ^ 61, (v.shiftUp last index).item k =
      if index < k ∧ k ≤ last then v.item (k - 1) else v.item k := by
  have key : Keeps v (v.shiftUp last index) ∧ ∀ k < 2 ^ 61, (v.shiftUp last index).item k =
      if last - (last - index) < k ∧ k ≤ last then v.item (k - 1) else v.item k := by
    refine Loop.upto_inv (P := fun n t => Keeps v t ∧ ∀ k < 2 ^ 61, t.item k =
      if last - n < k ∧ k ≤ last then v.item (k - 1) else v.item k) ⟨.refl v, ?_⟩ ?_
    · intro k _
      rw [if_neg (by omega)]
    · rintro n t hn ⟨hkeep, hitem⟩
      have hsize := hkeep.size
      refine ⟨hkeep.trans (copyItem_keeps (by omega) (by omega) (by omega) (by omega)), ?_⟩
      intro k hk
      rw [item_copyItem (by omega) hk, hitem k hk, hitem (last - n - 1) (by omega)]
      by_cases hkn : k = last - n
      · rw [if_pos hkn, if_neg (by omega), if_pos (by omega), hkn]
      · rw [if_neg hkn]
        by_cases hin : last - n < k ∧ k ≤ last
        · rw [if_pos hin, if_pos (by omega)]
        · rw [if_neg hin, if_neg (by omega)]
  refine ⟨key.1, fun k hk => ?_⟩
  rw [key.2 k hk]
  by_cases hle : index ≤ last
  · rw [Nat.sub_sub_self hle]
  · rw [if_neg (by omega), if_neg (by omega)]

/-- The loop of `vector_delete_at` moves the items from `index + 1` on down by one. -/
theorem shiftDown_spec {index : Nat} (hl : v.length < 2 ^ 61) (hi : index + 1 < v.length)
    (hroom : 8 * v.length ≤ v.size) :
    Keeps v (v.shiftDown (index + 1)) ∧ ∀ k < 2 ^ 61, (v.shiftDown (index + 1)).item k =
      if index ≤ k ∧ k + 1 < v.length then v.item (k + 1) else v.item k := by
  have key : Keeps v (v.shiftDown (index + 1)) ∧ ∀ k < 2 ^ 61, (v.shiftDown (index + 1)).item k =
      if index ≤ k ∧ k < index + (v.length - (index + 1)) then v.item (k + 1) else v.item k := by
    refine Loop.upto_inv (P := fun n t => Keeps v t ∧ ∀ k < 2 ^ 61, t.item k =
      if index ≤ k ∧ k < index + n then v.item (k + 1) else v.item k) ⟨.refl v, ?_⟩ ?_
    · intro k _
      rw [if_neg (by omega)]
    · rintro n t hn ⟨hkeep, hitem⟩
      have hsize := hkeep.size
      have hprev : (index + 1 + n + (2 ^ 64 - 1)) % 2 ^ 64 = index + n := by omega
      rw [hprev]
      refine ⟨hkeep.trans (copyItem_keeps (by omega) (by omega) (by omega) (by omega)), ?_⟩
      intro k hk
      rw [item_copyItem (by omega) hk, hitem k hk, hitem (index + 1 + n) (by omega)]
      by_cases hkn : k = index + n
      · have hnext : index + 1 + n = index + n + 1 := by omega
        rw [if_pos hkn, if_neg (by omega), if_pos (by omega), hkn, hnext]
      · rw [if_neg hkn]
        by_cases hin : index ≤ k ∧ k < index + n
        · rw [if_pos hin, if_pos (by omega)]
        · rw [if_neg hin, if_neg (by omega)]
  refine ⟨key.1, fun k hk => ?_⟩
  rw [key.2 k hk]
  have hend : (index ≤ k ∧ k < index + (v.length - (index + 1))) ↔ index ≤ k ∧ k + 1 < v.length := by
    omega
  simp only [hend]

theorem shiftDown_length (v : VectorT) (first : Nat) : (v.shiftDown first).length = v.length := by
  refine Loop.upto_keeps VectorT.length ?_ _ _
  intro k t
  rfl

end VectorT

/-! ## The calls -/

/-- The vector holds the list in a block that has room for it, in the lower half of the space. -/
structure Backed (v : VectorT) (l : List Nat) : Prop extends HoldsList v l where
  room : 8 * v.length ≤ v.size
  block : 0 < v.items ∧ v.items + v.size ≤ 2 ^ 64
  half : v.length ≤ 2 ^ 60

section Calls

variable {v : VectorT} {l : List Nat} {b : HeapBlock}

/-- One more item in a fresh block. Two blocks of this size have to fit into the address space, so
neither the length nor its product with the size of a pointer wraps. -/
theorem Backed.grow (h : Backed v l) (hb : b.Apart ((v.length + 1) % 2 ^ 64 * 8 % 2 ^ 64) v) :
    (v.grow b).length = v.length + 1 ∧ (v.grow b).last = v.length ∧
      (v.grow b).size = 8 * (v.length + 1) ∧ (v.grow b).items = b.address ∧
      (v.grow b).accesses = v.accesses ∧ v.length + 1 ≤ 2 ^ 60 ∧
      b.Holds (8 * (v.length + 1)) ∧ ∀ i < v.length, (v.grow b).item i = v.item i := by
  obtain ⟨hroom, hblock, hhalf⟩ := And.intro h.room (And.intro h.block h.half)
  have hlen : (v.length + 1) % 2 ^ 64 = v.length + 1 := by omega
  have hsize : (v.length + 1) % 2 ^ 64 * 8 % 2 ^ 64 = 8 * (v.length + 1) := by omega
  rw [hsize] at hb
  obtain ⟨⟨hpos, hfit⟩, hapart⟩ := hb
  have hgrow : v.length + 1 ≤ 2 ^ 60 := by omega
  refine ⟨hlen, ?_, hsize, rfl, rfl, hgrow, ⟨hpos, hfit⟩, fun i hi => ?_⟩
  · change ((v.length + 1) % 2 ^ 64 + (2 ^ 64 - 1)) % 2 ^ 64 = v.length
    omega
  · unfold VectorT.grow VectorT.realloc VectorT.item
    rw [Nat.mod_eq_of_lt (show i < 2 ^ 61 by omega)]
    dsimp only
    rw [hsize, if_pos ⟨by omega, by omega⟩]

theorem Backed.grown (h : Backed v l) (hb : b.Apart ((v.length + 1) % 2 ^ 64 * 8 % 2 ^ 64) v)
    {v' : VectorT} {l' : List Nat} (hkeep : Keeps (v.grow b) v') (hl : l'.length = l.length + 1)
    (hitems : ∀ i (hi : i < l'.length), v'.item i = l'[i]) : Backed v' l' := by
  obtain ⟨hlen, _, hsize, haddr, hacc, hhalf, hheld, _⟩ := h.grow hb
  refine ⟨⟨?_, hitems, hkeep.inside fun a ha => h.inside a (hacc ▸ ha)⟩, ?_, ?_, ?_⟩
  · rw [hkeep.length, hlen, hl, h.length]
  · exact Nat.le_of_eq (by rw [hkeep.length, hkeep.size, hlen, hsize])
  · rw [hkeep.items, hkeep.size, haddr, hsize]
    exact hheld
  · rw [hkeep.length, hlen]
    exact hhalf

theorem Backed.add (h : Backed v l) (x : Nat)
    (hb : b.Apart ((v.length + 1) % 2 ^ 64 * 8 % 2 ^ 64) v) : Backed (v.vectorAdd b x) (l ++ [x]) := by
  obtain ⟨hlen, hlast, hsize, _, _, hhalf, _, hold⟩ := h.grow hb
  have hll := h.length
  have hadd : v.vectorAdd b x = (v.grow b).store v.length x := by
    unfold VectorT.vectorAdd
    dsimp only
    rw [hlast]
  rw [hadd]
  refine h.grown hb (store_keeps (by omega) (by omega) x) (by simp) fun i hi => ?_
  rw [List.length_append, List.length_singleton] at hi
  rw [item_store (by omega) (by omega), List.getElem_append]
  by_cases hil : i < l.length
  · rw [if_neg (by omega), dif_pos hil, hold i (by omega), h.items i hil]
  · rw [if_pos (by omega), dif_neg hil, List.getElem_singleton]

theorem Backed.insert (h : Backed v l) {index : Nat} (hi : index ≤ v.length) (x : Nat)
    (hb : b.Apart ((v.length + 1) % 2 ^ 64 * 8 % 2 ^ 64) v) :
    Backed (v.vectorInsert b index x) (l.insertIdx index x) := by
  obtain ⟨hlen, hlast, hsize, _, _, hhalf, _, hold⟩ := h.grow hb
  have hll := h.length
  have hins : v.vectorInsert b index x = ((v.grow b).shiftUp v.length index).store index x := by
    unfold VectorT.vectorInsert
    rw [if_neg (by omega)]
    dsimp only
    rw [hlast]
  obtain ⟨hshift, hmoved⟩ : Keeps (v.grow b) ((v.grow b).shiftUp v.length index) ∧ _ :=
    shiftUp_spec (by omega) (by omega)
  have hsize' := hshift.size
  rw [hins]
  refine h.grown hb (hshift.trans (store_keeps (by omega) (by omega) x))
    (List.length_insertIdx_of_le_length (hll ▸ hi) x) fun i hlt => ?_
  rw [List.length_insertIdx, if_pos (by omega)] at hlt
  rw [item_store (by omega) (by omega), hmoved i (by omega), List.getElem_insertIdx]
  rcases Nat.lt_trichotomy i index with hlt' | heq | hgt
  · rw [if_neg (by omega), if_neg (by omega), dif_pos hlt', hold i (by omega), h.items i (by omega)]
  · rw [if_pos heq, dif_neg (by omega), dif_pos heq]
  · rw [if_neg (by omega), if_pos ⟨hgt, by omega⟩, dif_neg (by omega), dif_neg (by omega),
      hold (i - 1) (by omega), h.items (i - 1) (by omega)]

theorem Backed.deleteAt (h : Backed v l) {index : Nat} (hi : index < v.length) :
    Backed (v.vectorDeleteAt index) (l.eraseIdx index) := by
  have hll := h.length
  have hhalf := h.half
  have hroom := h.room
  have hfirst : (index + 1) % 2 ^ 64 = index + 1 := by omega
  have hlast : ∀ t : VectorT, t.length = v.length → t.last = v.length - 1 := by
    intro t ht
    unfold last
    omega
  -- the last item has nothing behind it to move
  have hshift : ∃ t : VectorT, v.vectorDeleteAt index = { t with length := v.length - 1 } ∧ Keeps v t ∧
      ∀ k < v.length - 1, t.item k = if index ≤ k then v.item (k + 1) else v.item k := by
    unfold VectorT.vectorDeleteAt
    rw [hfirst]
    by_cases hmore : index + 1 < v.length
    · obtain ⟨hkeep, hmoved⟩ := shiftDown_spec (by omega) hmore hroom
      rw [if_pos hmore]
      refine ⟨v.shiftDown (index + 1), ?_, hkeep, fun k hk => ?_⟩
      · dsimp only
        rw [hlast _ hkeep.length]
      rw [hmoved k (by omega)]
      have hin : (index ≤ k ∧ k + 1 < v.length) ↔ index ≤ k := by omega
      simp only [hin]
    · rw [if_neg hmore]
      refine ⟨v, ?_, .refl v, fun k hk => by rw [if_neg (by omega)]⟩
      dsimp only
      rw [hlast v rfl]
  obtain ⟨t, hdel, hkeep, hmoved⟩ := hshift
  rw [hdel]
  have hsize := hkeep.size
  refine ⟨⟨?_, ?_, ?_⟩, ?_, ?_, ?_⟩
  · rw [List.length_eraseIdx_of_lt (by omega), ← hll]
  · intro i hlt
    rw [List.length_eraseIdx_of_lt (by omega)] at hlt
    rw [List.getElem_eraseIdx]
    refine (hmoved i (by omega)).trans ?_
    by_cases hle : index ≤ i
    · rw [if_pos hle, dif_neg (by omega), h.items (i + 1) (by omega)]
    · rw [if_neg hle, dif_pos (by omega), h.items i (by omega)]
  · exact hkeep.inside h.inside
  · dsimp only
    omega
  · dsimp only
    rw [hkeep.items, hsize]
    exact h.block
  · dsimp only
    omega

theorem Backed.empty (hb : b.Holds 8) (hv : v.Inside) : Backed (v.vectorDeleteAll b) [] where
  length := rfl
  items i hi := by cases hi
  inside := hv
  room := by simp [VectorT.vectorDeleteAll]
  block := hb
  half := Nat.zero_le _

theorem Backed.get (h : Backed v l) (index : Nat) :
    (v.vectorGet index).1 = (l[index]?).getD 0 ∧ Backed (v.vectorGet index).2 l := by
  have hll := h.length
  have hhalf := h.half
  have hroom := h.room
  unfold VectorT.vectorGet
  by_cases hle : v.length ≤ index
  · rw [if_pos hle, List.getElem?_eq_none (by omega)]
    exact ⟨rfl, h⟩
  · rw [if_neg hle, List.getElem?_eq_getElem (by omega)]
    have hkeep : Keeps v (v.touch index) := touch_keeps (by omega) (by omega)
    exact ⟨h.items index (by omega), ⟨h.length, h.items, hkeep.inside h.inside⟩, hroom, h.block, hhalf⟩

/-- A call keeps the vector and the list together unless it deletes behind the end. -/
theorem VectorCall.step (h : Backed v l) {call : VectorCall} (hf : call.Fresh v)
    (hd : ∀ index, call = .deleteAt index → index < l.length) :
    Backed (call.run v) (call.reference l) := by
  have hll := h.length
  cases call with
  | add b x => exact h.add x hf
  | insert b index x =>
    dsimp only [run, reference]
    by_cases hi : index ≤ l.length
    · rw [if_pos hi]
      exact h.insert (by omega) x (hf (by omega))
    · rw [if_neg hi, VectorT.vectorInsert, if_pos (by omega)]
      exact h
  | deleteAt index =>
    have hi := hd index rfl
    dsimp only [run, reference]
    rw [if_pos hi]
    exact h.deleteAt (by omega)
  | deleteAll b => exact Backed.empty hf h.inside
  | get index => exact (h.get index).2

/-- The length after a deletion, which nothing checks. -/
theorem vectorDeleteAt_length (v : VectorT) (index : Nat) :
    (v.vectorDeleteAt index).length = (v.length + (2 ^ 64 - 1)) % 2 ^ 64 := by
  unfold VectorT.vectorDeleteAt
  split
  · change ((v.shiftDown _).length + (2 ^ 64 - 1)) % 2 ^ 64 = _
    rw [shiftDown_length]
  · rfl

end Calls

section Runs

variable {b : HeapBlock} {calls : List VectorCall}

theorem vectorRun_append (b : HeapBlock) (calls : List VectorCall) (call : VectorCall) :
    vectorRun b (calls ++ [call]) = call.run (vectorRun b calls) := by
  simp [vectorRun]

theorem listRun_append (calls : List VectorCall) (call : VectorCall) :
    listRun (calls ++ [call]) = call.reference (listRun calls) := by
  simp [listRun]

/-- Deletions inside the list keep every state of the run together with its list. -/
theorem vectorRun_backed (hfresh : FreshBlocks b calls) (hd : DeletesInside calls) :
    Backed (vectorRun b calls) (listRun calls) := by
  induction calls using List.reverseRecOn with
  | nil => exact Backed.empty (v := vectorInit b) hfresh.1 fun a ha => by cases ha
  | append_singleton calls call ih =>
    have hbefore : Backed (vectorRun b calls) (listRun calls) := by
      refine ih ⟨hfresh.1, fun before c after he => ?_⟩ fun before index after he => ?_
      · exact hfresh.2 before c (after ++ [call]) (by simp [he])
      · exact hd before index (after ++ [call]) (by simp [he])
    rw [vectorRun_append, listRun_append]
    refine VectorCall.step hbefore (hfresh.2 calls call [] rfl) fun index he => ?_
    exact hd calls index [] (by rw [he])

/-- A vector stays the list it stands for exactly as long as nothing behind its end is deleted. -/
theorem vector_isList_iff (hfresh : FreshBlocks b calls) :
    VectorIsList b calls ↔ DeletesInside calls := by
  constructor
  · intro h before index after he
    by_contra hi
    have hlen := (h before (.deleteAt index :: after) he).1.length
    have hnext := (h (before ++ [.deleteAt index]) after (by rw [he, List.append_assoc]; rfl)).1.length
    rw [vectorRun_append, listRun_append] at hnext
    dsimp only [VectorCall.run, VectorCall.reference] at hnext
    rw [vectorDeleteAt_length, if_neg hi] at hnext
    omega
  · intro h before after he
    have hbefore : Backed (vectorRun b before) (listRun before) := by
      refine vectorRun_backed ⟨hfresh.1, fun pre call post he' => ?_⟩ fun pre index post he' => ?_
      · exact hfresh.2 pre call (post ++ after) (by rw [he, he']; simp)
      · exact h pre index (post ++ after) (by rw [he, he']; simp)
    exact ⟨hbefore.toHoldsList, fun index => (hbefore.get index).1⟩

end Runs

/-! ## Short runs -/

theorem freshBlocks_of_get {b : HeapBlock} {calls : List VectorCall} (hb : b.Holds 8)
    (h : ∀ n (hn : n < calls.length), (calls[n]).Fresh (vectorRun b (calls.take n))) :
    FreshBlocks b calls := by
  refine ⟨hb, fun before call after he => ?_⟩
  subst he
  simpa using h before.length (by simp)

/-- A block at an address, filled with zeroes. -/
def zeroBlock (address : Nat) : HeapBlock := { address := address, fill := fun _ => 0 }

/-- Two items, and a deletion at the first place behind them. -/
def deleteBehind : List VectorCall :=
  [.add (zeroBlock 0x2000) 7, .add (zeroBlock 0x3000) 8, .deleteAt 2]

/-- Three items, and a deletion of the first one. -/
def deleteFirst : List VectorCall :=
  [.add (zeroBlock 0x2000) 7, .add (zeroBlock 0x3000) 8, .insert (zeroBlock 0x2000) 1 9, .deleteAt 0,
    .get 1]

theorem deleteBehind_fresh : FreshBlocks (zeroBlock 0x1000) deleteBehind :=
  freshBlocks_of_get (by decide) (by decide +kernel)

theorem deleteFirst_fresh : FreshBlocks (zeroBlock 0x1000) deleteFirst :=
  freshBlocks_of_get (by decide) (by decide +kernel)

/-- The deletion behind the end takes the last item. -/
theorem deleteBehind_not_list : FreshBlocks (zeroBlock 0x1000) deleteBehind ∧
    (vectorRun (zeroBlock 0x1000) deleteBehind).length = 1 ∧ listRun deleteBehind = [7, 8] ∧
      ¬ VectorIsList (zeroBlock 0x1000) deleteBehind := by
  have hlen : (vectorRun (zeroBlock 0x1000) deleteBehind).length = 1 := by decide +kernel
  have hlist : listRun deleteBehind = [7, 8] := by decide
  refine ⟨deleteBehind_fresh, hlen, hlist, fun h => ?_⟩
  have heq := (h deleteBehind [] (List.append_nil _).symm).1.length
  rw [hlen, hlist] at heq
  cases heq

theorem deleteFirst_list : VectorIsList (zeroBlock 0x1000) deleteFirst := by
  refine (vector_isList_iff deleteFirst_fresh).mpr fun before index after he => ?_
  have hget : deleteFirst[before.length]? = some (.deleteAt index) := by
    rw [he]
    simp
  have htake : before = deleteFirst.take before.length := by
    rw [he]
    simp
  have hn : before.length < 5 := by
    have hlen := congrArg List.length he
    simp only [deleteFirst, List.length_cons, List.length_nil, List.length_append] at hlen
    omega
  generalize before.length = n at hget htake hn
  subst htake
  match n, hn with
  | 0, _ => cases hget
  | 1, _ => cases hget
  | 2, _ => cases hget
  | 3, _ =>
    cases hget
    decide
  | 4, _ => cases hget

end BambooOS
