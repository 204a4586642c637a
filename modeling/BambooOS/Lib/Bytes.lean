import Mathlib.Tactic.Ring

/-!
# Lib.Bytes

Byte-addressed memory as a function from addresses to bytes, with little-endian loads and
stores of any width and range fills.

* `load_store_same` / `load_store_other`: a load of what was stored, and of a disjoint range.
* `load_congr`: a load depends only on the bytes it covers; every frame argument goes through it.
* `bytes`: a range read as a list; `load_eq_leVal` and `bytes_add` take fields out of it.
-/

namespace ByteMem

abbrev Byte := BitVec 8

abbrev Mem := Nat → Byte

/-- The `n` bytes from `a` on, read as a little-endian number. -/
def load (m : Mem) : Nat → Nat → Nat
  | _, 0 => 0
  | a, n + 1 => (m a).toNat + 256 * load m (a + 1) n

/-- The `n` bytes from `a` on set to the little-endian digits of `v`. -/
def store (m : Mem) (a n v : Nat) : Mem := fun x =>
  if a ≤ x ∧ x < a + n then BitVec.ofNat 8 (v / 256 ^ (x - a)) else m x

/-- The `n` bytes from `a` on set to `c`. -/
def fill (m : Mem) (a n : Nat) (c : Byte) : Mem := fun x =>
  if a ≤ x ∧ x < a + n then c else m x

/-- Two memories agree on the bytes of `[a, a + n)`. -/
def Agree (m m' : Mem) (a n : Nat) : Prop := ∀ x, a ≤ x → x < a + n → m' x = m x

theorem Agree.refl (m : Mem) (a n : Nat) : Agree m m a n := fun _ _ _ => rfl

theorem Agree.trans {m m' m'' : Mem} {a n : Nat} (h : Agree m m' a n) (h' : Agree m' m'' a n) :
    Agree m m'' a n := fun x h₁ h₂ => (h' x h₁ h₂).trans (h x h₁ h₂)

theorem Agree.mono {m m' : Mem} {a n b k : Nat} (h : Agree m m' a n) (h₁ : a ≤ b)
    (h₂ : b + k ≤ a + n) : Agree m m' b k :=
  fun x hx hx' => h x (by omega) (by omega)

/-- The `n` bytes from `a` on. -/
def bytes (m : Mem) : Nat → Nat → List Byte
  | _, 0 => []
  | a, n + 1 => m a :: bytes m (a + 1) n

/-- The little-endian value of a list of bytes. -/
def leVal : List Byte → Nat
  | [] => 0
  | b :: l => b.toNat + 256 * leVal l

/-- A memory that holds `l` from `a` on, and zeros elsewhere. -/
def ofList (a : Nat) (l : List Byte) : Mem := fun x => if a ≤ x then l.getD (x - a) 0 else 0

theorem length_bytes (m : Mem) (a n : Nat) : (bytes m a n).length = n := by
  induction n generalizing a with
  | zero => rfl
  | succ n ih => simp [bytes, ih]

theorem load_eq_leVal (m : Mem) (a n : Nat) : load m a n = leVal (bytes m a n) := by
  induction n generalizing a with
  | zero => rfl
  | succ n ih => simp only [load, bytes, leVal, ih]

theorem bytes_add (m : Mem) (a n k : Nat) :
    bytes m a (n + k) = bytes m a n ++ bytes m (a + n) k := by
  induction n generalizing a with
  | zero => simp [bytes]
  | succ n ih =>
    rw [Nat.succ_add, bytes, bytes, ih]
    simp only [List.cons_append, Nat.succ_add_eq_add_succ]

theorem bytes_slice {m : Mem} {a : Nat} {l : List Byte} (h : bytes m a l.length = l) {i n : Nat}
    (hin : i + n ≤ l.length) : bytes m (a + i) n = (l.drop i).take n := by
  have hsplit : bytes m a (i + (n + (l.length - (i + n)))) = l := by
    rw [show i + (n + (l.length - (i + n))) = l.length by omega]
    exact h
  rw [bytes_add, bytes_add] at hsplit
  rw [← hsplit, List.drop_left' (length_bytes m a i), List.take_left' (length_bytes m _ n)]

theorem bytes_append {m : Mem} {a : Nat} {l l' : List Byte}
    (h : bytes m a (l ++ l').length = l ++ l') :
    bytes m a l.length = l ∧ bytes m (a + l.length) l'.length = l' := by
  rw [List.length_append, bytes_add] at h
  exact List.append_inj h (length_bytes m a _)

theorem load_lt (m : Mem) (a n : Nat) : load m a n < 256 ^ n := by
  induction n generalizing a with
  | zero => simp [load]
  | succ n ih =>
    have hb := (m a).isLt
    have hr := ih (a + 1)
    simp only [load, Nat.pow_succ]
    omega

theorem load_congr {m m' : Mem} {a n : Nat} (h : Agree m m' a n) : load m' a n = load m a n := by
  induction n generalizing a with
  | zero => rfl
  | succ n ih =>
    have hrest : Agree m m' (a + 1) n := h.mono (by omega) (by omega)
    simp only [load]
    rw [h a (by omega) (by omega), ih hrest]

theorem load_inj {m m' : Mem} {a b n : Nat} :
    load m a n = load m' b n ↔ ∀ i < n, m (a + i) = m' (b + i) := by
  induction n generalizing a b with
  | zero => simp [load]
  | succ n ih =>
    have hb := (m a).isLt
    have hb' := (m' b).isLt
    simp only [load]
    constructor
    · intro h i hi
      cases i with
      | zero =>
        apply BitVec.eq_of_toNat_eq
        simp only [Nat.add_zero]
        omega
      | succ i =>
        have hrest := (ih (a := a + 1) (b := b + 1)).mp (by omega) i (by omega)
        rw [Nat.add_right_comm a 1 i, Nat.add_right_comm b 1 i] at hrest
        exact hrest
    · intro h
      have h0 : m a = m' b := h 0 (by omega)
      have hrest : load m (a + 1) n = load m' (b + 1) n := by
        refine ih.mpr fun i hi => ?_
        have hi' := h (i + 1) (by omega)
        rw [Nat.add_right_comm a 1 i, Nat.add_right_comm b 1 i]
        exact hi'
      rw [h0, hrest]

/-- A range that holds the digits of `v` reads as `v` modulo its size. -/
theorem load_digits {m : Mem} {a n v : Nat}
    (h : ∀ i, i < n → m (a + i) = BitVec.ofNat 8 (v / 256 ^ i)) : load m a n = v % 256 ^ n := by
  induction n generalizing a v with
  | zero => simp [load, Nat.mod_one]
  | succ n ih =>
    have h0 : m a = BitVec.ofNat 8 v := by simpa using h 0 (by omega)
    have hrest : ∀ i, i < n → m (a + 1 + i) = BitVec.ofNat 8 (v / 256 / 256 ^ i) := by
      intro i hi
      have := h (i + 1) (by omega)
      rw [Nat.div_div_eq_div_mul, ← Nat.pow_succ', ← this]
      congr 1; omega
    have hsplit : v % 256 ^ (n + 1) = v % 256 + 256 * (v / 256 % 256 ^ n) := by
      rw [Nat.pow_succ', Nat.mod_mul]
    simp only [load]
    rw [h0, ih hrest, BitVec.toNat_ofNat, hsplit]

theorem load_store_same {m : Mem} {a n v : Nat} (hv : v < 256 ^ n) :
    load (store m a n v) a n = v := by
  rw [load_digits (v := v), Nat.mod_eq_of_lt hv]
  intro i hi
  simp only [store]
  rw [if_pos (by omega), Nat.add_sub_cancel_left]

theorem store_agree {m : Mem} {a n v b k : Nat} (h : a + n ≤ b ∨ b + k ≤ a) :
    Agree m (store m a n v) b k := by
  intro x hx hx'
  simp only [store]
  rw [if_neg (by omega)]

theorem load_store_other {m : Mem} {a n v b k : Nat} (h : a + n ≤ b ∨ b + k ≤ a) :
    load (store m a n v) b k = load m b k := load_congr (store_agree h)

theorem load_of_zero {m : Mem} {a n : Nat} (h : ∀ x, a ≤ x → x < a + n → m x = 0#8) :
    load m a n = 0 := by
  rw [load_digits (v := 0), Nat.zero_mod]
  intro i hi
  rw [h (a + i) (by omega) (by omega)]
  simp

end ByteMem
