import Mathlib.Data.Fintype.Card
import Mathlib.Data.List.Nodup
import Mathlib.Logic.Relation
import Mathlib.Order.WellFounded
import Mathlib.Order.WellFoundedSet

/-!
# Lib.Descent

Recursive traversals of a graph that keep no record of the nodes they have visited. A node has a
list of items, which the traversal goes through in order: it emits some and descends into others.

* `visit_isSome_iff`: the traversal comes back exactly where no infinite descent starts, and
  `acc_iff_no_cycle`: on a finite graph, exactly where no cycle can be reached.
* `mem_visit`: it emits what the reachable nodes emit.
* `Forest.nodup_roots`: over a forest it emits nothing twice, from any list of roots none of which
  is met again from another one.
-/

namespace Descent

open Relation

variable {α β γ : Type*}

inductive Item (α β : Type*) where
  | down (a : α)
  | emit (b : β)

/-- The items in order, with `rec` for the descents. -/
def walk (rec : α → Option (List β)) : List (Item α β) → Option (List β)
  | [] => some []
  | .emit b :: l => (walk rec l).map (b :: ·)
  | .down a :: l => (rec a).bind fun x => (walk rec l).map (x ++ ·)

/-- The traversal from a node; `none` when it goes deeper than `fuel`. -/
def visit (body : α → List (Item α β)) : Nat → α → Option (List β)
  | 0, _ => none
  | fuel + 1, a => walk (visit body fuel) (body a)

/-- One descent. -/
def Edge (body : α → List (Item α β)) (a c : α) : Prop := .down c ∈ body a

/-! ## Running out of fuel -/

theorem walk_append (rec : α → Option (List β)) (l l' : List (Item α β)) :
    walk rec (l ++ l') = (walk rec l).bind fun x => (walk rec l').map (x ++ ·) := by
  induction l with
  | nil =>
    simp [walk]
  | cons i l ih =>
    cases i with
    | emit b =>
      simp only [List.cons_append, walk, ih]
      cases walk rec l <;> cases walk rec l' <;> simp
    | down a =>
      simp only [List.cons_append, walk, ih]
      cases rec a <;> cases walk rec l <;> cases walk rec l' <;> simp

theorem walk_mono {rec rec' : α → Option (List β)}
    (h : ∀ a x, rec a = some x → rec' a = some x) {l : List (Item α β)} {x : List β}
    (hx : walk rec l = some x) : walk rec' l = some x := by
  induction l generalizing x with
  | nil => exact hx
  | cons i l ih =>
    cases i with
    | emit b =>
      simp only [walk, Option.map_eq_some_iff] at hx ⊢
      obtain ⟨y, hy, rfl⟩ := hx
      exact ⟨y, ih hy, rfl⟩
    | down a =>
      simp only [walk, Option.bind_eq_some_iff, Option.map_eq_some_iff] at hx ⊢
      obtain ⟨z, hz, y, hy, rfl⟩ := hx
      exact ⟨z, h a z hz, y, ih hy, rfl⟩

theorem visit_succ {body : α → List (Item α β)} {fuel : Nat} {a : α} {x : List β}
    (h : visit body fuel a = some x) : visit body (fuel + 1) a = some x := by
  induction fuel generalizing a x with
  | zero => cases h
  | succ fuel ih => exact walk_mono (fun a x => ih) h

theorem visit_mono {body : α → List (Item α β)} {fuel fuel' : Nat} (hle : fuel ≤ fuel') {a : α}
    {x : List β} (h : visit body fuel a = some x) : visit body fuel' a = some x := by
  induction hle with
  | refl => exact h
  | step _ ih => exact visit_succ ih

theorem walk_isSome {rec : α → Option (List β)} {l : List (Item α β)} :
    (walk rec l).isSome ↔ ∀ a, .down a ∈ l → (rec a).isSome := by
  induction l with
  | nil => simp [walk]
  | cons i l ih =>
    cases i with
    | emit b => simp [walk, ih]
    | down a =>
      simp only [walk, List.mem_cons, Item.down.injEq, forall_eq_or_imp, ← ih]
      cases rec a <;> simp

theorem exists_fuel {body : α → List (Item α β)} {l : List (Item α β)}
    (h : ∀ a, .down a ∈ l → ∃ fuel, (visit body fuel a).isSome) :
    ∃ fuel, ∀ a, .down a ∈ l → (visit body fuel a).isSome := by
  induction l with
  | nil => exact ⟨0, fun a ha => by cases ha⟩
  | cons i l ih =>
    obtain ⟨n, hn⟩ := ih fun a ha => h a (List.mem_cons_of_mem _ ha)
    cases i with
    | emit b =>
      refine ⟨n, fun a ha => hn a ?_⟩
      simpa using ha
    | down c =>
      obtain ⟨k, hk⟩ := h c List.mem_cons_self
      refine ⟨n + k, fun a ha => ?_⟩
      have grow : ∀ {f : Nat} {a : α}, (visit body f a).isSome → f ≤ n + k →
          (visit body (n + k) a).isSome := by
        intro f a hf hle
        obtain ⟨x, hx⟩ := Option.isSome_iff_exists.mp hf
        exact Option.isSome_iff_exists.mpr ⟨x, visit_mono hle hx⟩
      rcases List.mem_cons.mp ha with ha | ha
      · cases ha
        exact grow hk (by omega)
      · exact grow (hn a ha) (by omega)

/-- The traversal comes back exactly from the nodes no infinite descent starts at. -/
theorem visit_isSome_iff {body : α → List (Item α β)} {a : α} :
    (∃ fuel, (visit body fuel a).isSome) ↔ Acc (fun c a => Edge body a c) a := by
  constructor
  · rintro ⟨fuel, h⟩
    induction fuel generalizing a with
    | zero => cases h
    | succ fuel ih => exact ⟨a, fun c hc => ih (walk_isSome.mp h c hc)⟩
  · intro h
    induction h with
    | intro a _ ih =>
      obtain ⟨fuel, hf⟩ := exists_fuel fun c hc => ih c hc
      exact ⟨fuel + 1, walk_isSome.mpr hf⟩

/-! ## Cycles -/

theorem not_rel_of_acc {r : α → α → Prop} {a : α} (h : Acc r a) : ¬ r a a := by
  induction h with
  | intro a _ ih =>
    intro hr
    exact ih a hr hr

/-- Past an accessible node there is no cycle. -/
theorem no_cycle_of_acc {r : α → α → Prop} {a : α} (h : Acc (fun c a => r a c) a) {c : α}
    (hac : ReflTransGen r a c) : ¬ TransGen r c c := by
  have hc : Acc (fun c a => r a c) c := by
    induction hac with
    | refl => exact h
    | tail _ hr ih => exact ih.inv hr
  intro hcyc
  have hcyc' : TransGen (Function.swap r) c c := transGen_swap.mpr hcyc
  exact not_rel_of_acc hc.transGen hcyc'

/-- With finitely many nodes in reach, an infinite descent needs a cycle. -/
theorem acc_iff_no_cycle {r : α → α → Prop} {a : α} (hfin : {c | ReflTransGen r a c}.Finite) :
    Acc (fun c a => r a c) a ↔ ¬ ∃ c, ReflTransGen r a c ∧ TransGen r c c := by
  constructor
  · rintro h ⟨c, hac, hcyc⟩
    exact no_cycle_of_acc h hac hcyc
  · intro h
    have : Finite {c // ReflTransGen r a c} := hfin.to_subtype
    let below : {c // ReflTransGen r a c} → {c // ReflTransGen r a c} → Prop :=
      fun c d => TransGen r d.1 c.1
    have : IsTrans _ below := ⟨fun _ _ _ h₁ h₂ => h₂.trans h₁⟩
    have : Std.Irrefl below := ⟨fun c hc => h ⟨c.1, c.2, hc⟩⟩
    have hwf : WellFounded below := Finite.wellFounded_of_trans_of_irrefl below
    have key : ∀ x : {c // ReflTransGen r a c}, Acc (fun c a => r a c) x.1 := by
      intro x
      induction x using hwf.induction with
      | _ x ih => exact ⟨x.1, fun c hc => ih ⟨c, x.2.tail hc⟩ (.single hc)⟩
    exact key ⟨a, .refl⟩

/-! ## What a traversal emits -/

theorem mem_walk {rec : α → Option (List β)} {l : List (Item α β)} {x : List β}
    (h : walk rec l = some x) {b : β} :
    b ∈ x ↔ .emit b ∈ l ∨ ∃ a y, .down a ∈ l ∧ rec a = some y ∧ b ∈ y := by
  induction l generalizing x with
  | nil =>
    cases h
    simp
  | cons i l ih =>
    cases i with
    | emit c =>
      simp only [walk, Option.map_eq_some_iff] at h
      obtain ⟨y, hy, rfl⟩ := h
      simp [ih hy, or_assoc]
    | down a =>
      simp only [walk, Option.bind_eq_some_iff, Option.map_eq_some_iff] at h
      obtain ⟨z, hz, y, hy, rfl⟩ := h
      simp only [List.mem_append, ih hy, List.mem_cons, reduceCtorEq, false_or, Item.down.injEq]
      constructor
      · rintro (hb | hb | ⟨c, w, hc, hw, hb⟩)
        · exact .inr ⟨a, z, .inl rfl, hz, hb⟩
        · exact .inl hb
        · exact .inr ⟨c, w, .inr hc, hw, hb⟩
      · rintro (hb | ⟨c, w, rfl | hc, hw, hb⟩)
        · exact .inr (.inl hb)
        · rw [hz] at hw
          cases hw
          exact .inl hb
        · exact .inr (.inr ⟨c, w, hc, hw, hb⟩)

/-- A traversal emits what the nodes in reach emit. -/
theorem mem_visit {body : α → List (Item α β)} {fuel : Nat} {a : α} {x : List β}
    (h : visit body fuel a = some x) {b : β} :
    b ∈ x ↔ ∃ c, ReflTransGen (Edge body) a c ∧ .emit b ∈ body c := by
  induction fuel generalizing a x with
  | zero => cases h
  | succ fuel ih =>
    rw [mem_walk h]
    constructor
    · rintro (hb | ⟨c, y, hc, hy, hb⟩)
      · exact ⟨a, .refl, hb⟩
      · obtain ⟨d, hcd, hd⟩ := (ih hy).mp hb
        exact ⟨d, hcd.head hc, hd⟩
    · rintro ⟨c, hac, hb⟩
      rcases hac.cases_head with rfl | ⟨d, had, hdc⟩
      · exact .inl hb
      · have hsome := walk_isSome.mp (Option.isSome_iff_exists.mpr ⟨x, h⟩) d had
        obtain ⟨y, hy⟩ := Option.isSome_iff_exists.mp hsome
        exact .inr ⟨d, y, had, hy, (ih hy).mpr ⟨c, hdc, hb⟩⟩

/-- An item with its emission mapped, or dropped. -/
def Item.filterMap (f : β → Option γ) : Item α β → Option (Item α γ)
  | .down a => some (.down a)
  | .emit b => (f b).map .emit

theorem down_mem_filterMap {f : β → Option γ} {l : List (Item α β)} {a : α} :
    .down a ∈ l.filterMap (Item.filterMap f) ↔ .down a ∈ l := by
  rw [List.mem_filterMap]
  constructor
  · rintro ⟨i, hi, he⟩
    cases i with
    | down c =>
      cases he
      exact hi
    | emit b =>
      cases hb : f b <;> simp [Item.filterMap, hb] at he
  · exact fun h => ⟨_, h, rfl⟩

theorem emit_mem_filterMap {f : β → Option γ} {l : List (Item α β)} {c : γ} :
    .emit c ∈ l.filterMap (Item.filterMap f) ↔ ∃ b, .emit b ∈ l ∧ f b = some c := by
  rw [List.mem_filterMap]
  constructor
  · rintro ⟨i, hi, he⟩
    cases i with
    | down a => cases he
    | emit b =>
      refine ⟨b, hi, ?_⟩
      cases hb : f b with
      | none => simp [Item.filterMap, hb] at he
      | some d => simpa [Item.filterMap, hb] using he
  · rintro ⟨b, hb, hf⟩
    exact ⟨_, hb, by simp [Item.filterMap, hf]⟩

theorem walk_filterMap {f : β → Option γ} {rec : α → Option (List β)} {rec' : α → Option (List γ)}
    (h : ∀ a, rec' a = (rec a).map (List.filterMap f)) (l : List (Item α β)) :
    walk rec' (l.filterMap (Item.filterMap f)) = (walk rec l).map (List.filterMap f) := by
  induction l with
  | nil => rfl
  | cons i l ih =>
    cases i with
    | emit b =>
      cases hb : f b with
      | none =>
        simp only [List.filterMap_cons, Item.filterMap, hb, Option.map_none, walk, ih]
        cases walk rec l <;> simp [hb]
      | some c =>
        simp only [List.filterMap_cons, Item.filterMap, hb, Option.map_some, walk, ih]
        cases walk rec l <;> simp [hb]
    | down a =>
      simp only [List.filterMap_cons, Item.filterMap, walk, ih, h]
      cases rec a <;> cases walk rec l <;> simp

/-- Traversing with some of the emissions is traversing and keeping those. -/
theorem visit_filterMap (f : β → Option γ) (body : α → List (Item α β)) (fuel : Nat) (a : α) :
    visit (fun a => (body a).filterMap (Item.filterMap f)) fuel a =
      (visit body fuel a).map (List.filterMap f) := by
  induction fuel generalizing a with
  | zero => rfl
  | succ fuel ih => exact walk_filterMap ih (body a)

theorem walk_nodup {rec : α → Option (List β)} {l : List (Item α β)} {x : List β}
    (h : walk rec l = some x) (hl : l.Nodup)
    (hdown : ∀ c y, .down c ∈ l → rec c = some y → y.Nodup)
    (hemit : ∀ b c y, .emit b ∈ l → .down c ∈ l → rec c = some y → b ∉ y)
    (hdisj : ∀ c c' y y', .down c ∈ l → .down c' ∈ l → c ≠ c' → rec c = some y → rec c' = some y' →
      List.Disjoint y y') : x.Nodup := by
  induction l generalizing x with
  | nil =>
    cases h
    exact List.nodup_nil
  | cons i l ih =>
    obtain ⟨hi, hl⟩ := List.nodup_cons.mp hl
    have hrest : ∀ {y}, walk rec l = some y → y.Nodup := fun hy =>
      ih hy hl (fun c y hc => hdown c y (List.mem_cons_of_mem _ hc))
        (fun b c y hb hc => hemit b c y (List.mem_cons_of_mem _ hb) (List.mem_cons_of_mem _ hc))
        (fun c c' y y' hc hc' => hdisj c c' y y' (List.mem_cons_of_mem _ hc)
          (List.mem_cons_of_mem _ hc'))
    cases i with
    | emit b =>
      simp only [walk, Option.map_eq_some_iff] at h
      obtain ⟨y, hy, rfl⟩ := h
      refine List.nodup_cons.mpr ⟨fun hb => ?_, hrest hy⟩
      rcases (mem_walk hy).mp hb with hb | ⟨c, z, hc, hz, hb⟩
      · exact hi hb
      · exact hemit b c z List.mem_cons_self (List.mem_cons_of_mem _ hc) hz hb
    | down a =>
      simp only [walk, Option.bind_eq_some_iff, Option.map_eq_some_iff] at h
      obtain ⟨z, hz, y, hy, rfl⟩ := h
      refine List.Nodup.append (hdown a z List.mem_cons_self hz) (hrest hy) fun b hbz hby => ?_
      rcases (mem_walk hy).mp hby with hb | ⟨c, w, hc, hw, hb⟩
      · exact hemit b a z (List.mem_cons_of_mem _ hb) List.mem_cons_self hz hbz
      · have hne : a ≠ c := fun he => hi (he ▸ hc)
        exact hdisj a c z w List.mem_cons_self (List.mem_cons_of_mem _ hc) hne hz hw hbz hb

/-- Where nothing is emitted twice, different descents of one list emit different things. -/
theorem disjoint_of_nodup {rec : α → Option (List β)} {l : List (Item α β)} {x : List β}
    (h : walk rec l = some x) (hx : x.Nodup) {c c' : α} (hc : .down c ∈ l) (hc' : .down c' ∈ l)
    (hne : c ≠ c') {y y' : List β} (hy : rec c = some y) (hy' : rec c' = some y') :
    List.Disjoint y y' := by
  induction l generalizing x with
  | nil => cases hc
  | cons i l ih =>
    cases i with
    | emit b =>
      simp only [walk, Option.map_eq_some_iff] at h
      obtain ⟨z, hz, rfl⟩ := h
      exact ih hz (List.nodup_cons.mp hx).2 (by simpa using hc) (by simpa using hc')
    | down a =>
      simp only [walk, Option.bind_eq_some_iff, Option.map_eq_some_iff] at h
      obtain ⟨w, hw, z, hz, rfl⟩ := h
      obtain ⟨_, hnz, hdisj⟩ := List.nodup_append'.mp hx
      have later : ∀ {e v}, .down e ∈ l → rec e = some v → ∀ b ∈ v, b ∈ z := fun he hv b hb =>
        (mem_walk hz).mpr (.inr ⟨_, _, he, hv, hb⟩)
      rcases List.mem_cons.mp hc with he | hcl
      · cases he
        rw [hw] at hy
        cases hy
        have hcl' : Item.down c' ∈ l := by simpa [Ne.symm hne] using hc'
        exact fun b hb hb' => hdisj hb (later hcl' hy' b hb')
      · rcases List.mem_cons.mp hc' with he | hcl'
        · cases he
          rw [hw] at hy'
          cases hy'
          exact fun b hb hb' => hdisj hb' (later hcl hy b hb)
        · exact ih hz hnz hcl hcl'

/-! ## Forests -/

/-- Below the nodes of `P`, each node has one parent, each emission one node, and no item stands
twice in a node. -/
structure Forest (body : α → List (Item α β)) (P : α → Prop) : Prop where
  closed : ∀ a c, P a → Edge body a c → P c
  nodup : ∀ a, P a → (body a).Nodup
  parent : ∀ a a' c, P a → P a' → Edge body a c → Edge body a' c → a = a'
  emits : ∀ a a' b, P a → P a' → .emit b ∈ body a → .emit b ∈ body a' → a = a'

namespace Forest

variable {body : α → List (Item α β)} {P : α → Prop}

theorem reach (h : Forest body P) {a c : α} (ha : P a) (hac : ReflTransGen (Edge body) a c) :
    P c := by
  induction hac with
  | refl => exact ha
  | tail _ hr ih => exact h.closed _ _ ih hr

/-- Two nodes above a common one lie on one path. -/
theorem linear (h : Forest body P) {a a' c : α} (ha : P a) (ha' : P a')
    (hac : ReflTransGen (Edge body) a c) (hac' : ReflTransGen (Edge body) a' c) :
    ReflTransGen (Edge body) a a' ∨ ReflTransGen (Edge body) a' a := by
  induction hac with
  | refl => exact .inr hac'
  | tail hab hbc ih =>
    rcases hac'.cases_tail with rfl | ⟨b', hab', hbc'⟩
    · exact .inl (hab.tail hbc)
    · have hb := h.reach ha hab
      have hb' := h.reach ha' hab'
      have he := h.parent _ _ _ hb hb' hbc hbc'
      rw [← he] at hab'
      exact ih hab'

theorem nodup_visit (h : Forest body P) {fuel : Nat} {a : α} (ha : P a) {x : List β}
    (hx : visit body fuel a = some x) : x.Nodup := by
  induction fuel generalizing a x with
  | zero => cases hx
  | succ fuel ih =>
    have hacc : Acc (fun c a => Edge body a c) a :=
      visit_isSome_iff.mp ⟨fuel + 1, Option.isSome_iff_exists.mpr ⟨x, hx⟩⟩
    -- a child that leads back to `a` would close a cycle
    have hback : ∀ c, Edge body a c → ¬ ReflTransGen (Edge body) c a := fun c hc hca =>
      no_cycle_of_acc hacc .refl (TransGen.head' hc hca)
    refine walk_nodup hx (h.nodup a ha) (fun c y hc hy => ih (h.closed a c ha hc) hy) ?_ ?_
    · intro b c y hb hc hy hmem
      obtain ⟨d, hcd, hd⟩ := (mem_visit hy).mp hmem
      have he := h.emits a d b ha (h.reach (h.closed a c ha hc) hcd) hb hd
      exact hback c hc (he ▸ hcd)
    · intro c c' y y' hc hc' hne hy hy' b hb hb'
      have hPc := h.closed a c ha hc
      have hPc' := h.closed a c' ha hc'
      obtain ⟨d, hcd, hd⟩ := (mem_visit hy).mp hb
      obtain ⟨d', hcd', hd'⟩ := (mem_visit hy').mp hb'
      have he := h.emits d d' b (h.reach hPc hcd) (h.reach hPc' hcd') hd hd'
      subst he
      -- of two children above one node one leads to the other, through their parent
      have hchild : ∀ {e e'}, Edge body a e → Edge body a e' → e ≠ e' →
          ¬ ReflTransGen (Edge body) e e' := by
        intro e e' hae hae' hne hee'
        rcases hee'.cases_tail with rfl | ⟨p, hep, hpe'⟩
        · exact hne rfl
        · have hp := h.reach (h.closed a e ha hae) hep
          have := h.parent p a e' hp ha hpe' hae'
          exact hback e hae (this ▸ hep)
      rcases h.linear hPc hPc' hcd hcd' with hcc' | hcc'
      · exact hchild hc hc' hne hcc'
      · exact hchild hc' hc (Ne.symm hne) hcc'

/-- From several roots: nothing is emitted twice when a root that another root leads to is empty. -/
theorem nodup_roots (h : Forest body P) {fuel : Nat} {roots : List α} (hP : ∀ r ∈ roots, P r)
    (hroots : roots.Nodup)
    (hapart : ∀ r ∈ roots, ∀ r' ∈ roots, TransGen (Edge body) r' r → body r = []) {x : List β}
    (hx : walk (visit body fuel) (roots.map .down) = some x) : x.Nodup := by
  have hmem : ∀ {r}, (.down r : Item α β) ∈ roots.map .down → r ∈ roots := by
    intro r hr
    obtain ⟨r', hr', he⟩ := List.mem_map.mp hr
    cases he
    exact hr'
  -- nothing is emitted below an empty root
  have hempty : ∀ {r d b}, body r = [] → ReflTransGen (Edge body) r d → ¬ .emit b ∈ body d := by
    intro r d b hr hrd hb
    rcases hrd.cases_head with rfl | ⟨c, hrc, _⟩
    · rw [hr] at hb
      cases hb
    · rw [Edge, hr] at hrc
      cases hrc
  refine walk_nodup hx (hroots.map fun r r' he => by cases he; rfl)
    (fun c y hc hy => h.nodup_visit (hP c (hmem hc)) hy) ?_ ?_
  · intro b c y hb
    obtain ⟨r, _, he⟩ := List.mem_map.mp hb
    cases he
  · intro c c' y y' hc hc' hne hy hy' b hb hb'
    have hPc := hP c (hmem hc)
    have hPc' := hP c' (hmem hc')
    obtain ⟨d, hcd, hd⟩ := (mem_visit hy).mp hb
    obtain ⟨d', hcd', hd'⟩ := (mem_visit hy').mp hb'
    have he := h.emits d d' b (h.reach hPc hcd) (h.reach hPc' hcd') hd hd'
    subst he
    rcases h.linear hPc hPc' hcd hcd' with hcc' | hcc'
    · rcases reflTransGen_iff_eq_or_transGen.mp hcc' with he | htrans
      · exact hne he.symm
      · exact hempty (hapart c' (hmem hc') c (hmem hc) htrans) hcd' hd
    · rcases reflTransGen_iff_eq_or_transGen.mp hcc' with he | htrans
      · exact hne he
      · exact hempty (hapart c (hmem hc) c' (hmem hc') htrans) hcd hd

end Forest

end Descent
