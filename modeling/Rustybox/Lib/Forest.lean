import Mathlib.Logic.Relation
import Mathlib.Logic.Function.Basic
import Mathlib.Data.Finset.Card
import Mathlib.Data.Setoid.Basic
import Mathlib.Order.ConditionallyCompleteLattice.Basic

/-!
# Forests of parent pointers

A partial map `parent : α → Option α` is read as a forest: `x` hangs below
`parent x`, and a node without a pointer, or with a pointer to itself, is a
root.  Nothing keeps an arbitrary map from running in circles, so `Acyclic` is
the condition that climbing ends.

`climb` is the find loop.  It runs on fuel and gives `none` when the fuel is
short; `climb_isSome` says that as many steps as there are nodes with a pointer
are enough, so on an acyclic map the loop always comes back.

Two updates are studied, and both are `redirect`: write the pointer of one node.
Pointing a node at its own root is path compression and changes no root
(`rootOf_redirect_root`).  Pointing one root at another joins two trees
(`rootOf_redirect_link`), which on the partition `classes` is the supremum with
one more pair (`classes_redirect_link`).
-/

namespace Forest

variable {α : Type*}

/-- The partition that puts `x` and `y` together and nothing else. -/
def pair (x y : α) : Setoid α := Relation.EqvGen.setoid fun a b => a = x ∧ b = y

theorem pair_rel (x y : α) : pair x y x y := Relation.EqvGen.rel x y ⟨rfl, rfl⟩

theorem pair_le {x y : α} {s : Setoid α} (h : s x y) : pair x y ≤ s :=
  Setoid.eqvGen_le (by rintro a b ⟨rfl, rfl⟩; exact h)

variable [DecidableEq α]

/-- The proper parent of `x`: a pointer from `x` to itself counts as none. -/
def up (parent : α → Option α) (x : α) : Option α :=
  match parent x with
  | some p => if p ≠ x then some p else none
  | none => none

/-- One step towards the root. -/
def Edge (parent : α → Option α) (x y : α) : Prop := up parent x = some y

/-- Climbing always ends. -/
def Acyclic (parent : α → Option α) : Prop := WellFounded fun y x => Edge parent x y

/-- `r` is where the climb from `x` ends. -/
def RootOf (parent : α → Option α) (x r : α) : Prop :=
  Relation.ReflTransGen (Edge parent) x r ∧ up parent r = none

/-- Write the pointer of one node. -/
def redirect (parent : α → Option α) (c r : α) : α → Option α :=
  Function.update parent c (some r)

variable {parent : α → Option α}

/-! ### Roots -/

theorem rootOf_self {x : α} (h : up parent x = none) : RootOf parent x x := ⟨.refl, h⟩

theorem rootOf_of_edge {x y r : α} (h : Edge parent x y) (hr : RootOf parent y r) :
    RootOf parent x r := ⟨.head h hr.1, hr.2⟩

theorem eq_of_rootOf_of_up_eq_none {x r : α} (hx : up parent x = none) (h : RootOf parent x r) :
    r = x := by
  rcases h.1.cases_head with he | ⟨y, hy, _⟩
  · exact he.symm
  · rw [Edge, hx] at hy
    exact absurd hy (by simp)

theorem rootOf_of_rootOf_edge {x y r : α} (h : Edge parent x y) (hr : RootOf parent x r) :
    RootOf parent y r := by
  rcases hr.1.cases_head with he | ⟨z, hz, hzr⟩
  · subst he
    rw [Edge, hr.2] at h
    exact absurd h (by simp)
  · have hyz : y = z := Option.some.inj (h.symm.trans hz)
    exact ⟨hyz ▸ hzr, hr.2⟩

/-- **A node has at most one root.** -/
theorem rootOf_unique {x r s : α} (hr : RootOf parent x r) (hs : RootOf parent x s) : r = s := by
  obtain ⟨hxr, hrn⟩ := hr
  induction hxr using Relation.ReflTransGen.head_induction_on with
  | refl => exact (eq_of_rootOf_of_up_eq_none hrn hs).symm
  | head hxy _ ih => exact ih (rootOf_of_rootOf_edge hxy hs)

/-- **In an acyclic forest a node has a root.** -/
theorem exists_rootOf (h : Acyclic parent) (x : α) : ∃ r, RootOf parent x r := by
  induction x using h.induction with
  | _ x ih =>
    cases hx : up parent x with
    | none => exact ⟨x, rootOf_self hx⟩
    | some y =>
      obtain ⟨r, hr⟩ := ih y hx
      exact ⟨r, rootOf_of_edge hx hr⟩

theorem rootOf_rootOf {x r : α} (h : RootOf parent x r) : RootOf parent r r := rootOf_self h.2

/-! ### The find loop -/

/-- Climb from `cur`, remembering the nodes left behind.  `none` is a loop that
is still running when the fuel is spent. -/
def climb (parent : α → Option α) : ℕ → α → List α → Option (α × List α)
  | 0, cur, path =>
    match up parent cur with
    | some _ => none
    | none => some (cur, path)
  | fuel + 1, cur, path =>
    match up parent cur with
    | some p => climb parent fuel p (path ++ [cur])
    | none => some (cur, path)

/-- The loop returns the root, and every node it left behind has that root. -/
theorem climb_spec : ∀ (fuel : ℕ) (cur : α) (path : List α) {r : α} {out : List α},
    climb parent fuel cur path = some (r, out) →
      RootOf parent cur r ∧ ∀ x ∈ out, x ∈ path ∨ RootOf parent x r := by
  intro fuel
  induction fuel with
  | zero =>
    intro cur path r out h
    rw [climb] at h
    cases hc : up parent cur with
    | some p => rw [hc] at h; exact absurd h (by simp)
    | none =>
      rw [hc] at h
      simp only [Option.some.injEq, Prod.mk.injEq] at h
      obtain ⟨rfl, rfl⟩ := h
      exact ⟨rootOf_self hc, fun x hx => Or.inl hx⟩
  | succ fuel ih =>
    intro cur path r out h
    rw [climb] at h
    cases hc : up parent cur with
    | none =>
      rw [hc] at h
      simp only [Option.some.injEq, Prod.mk.injEq] at h
      obtain ⟨rfl, rfl⟩ := h
      exact ⟨rootOf_self hc, fun x hx => Or.inl hx⟩
    | some p =>
      rw [hc] at h
      obtain ⟨hp, hout⟩ := ih p _ h
      have hcur : RootOf parent cur r := rootOf_of_edge hc hp
      refine ⟨hcur, fun x hx => ?_⟩
      rcases hout x hx with hm | hr
      · rcases List.mem_append.mp hm with hm | hm
        · exact Or.inl hm
        · exact Or.inr (List.mem_singleton.mp hm ▸ hcur)
      · exact Or.inr hr

/-- **As much fuel as there are nodes on the way is enough.**  The induction is
on the fuel; each step takes the node it leaves out of `T`, which it may because
an acyclic climb never comes back to it. -/
theorem climb_isSome (h : Acyclic parent) : ∀ (fuel : ℕ) (cur : α) (path : List α) (T : Finset α),
    (∀ y, Relation.ReflTransGen (Edge parent) cur y → up parent y ≠ none → y ∈ T) →
      T.card ≤ fuel → (climb parent fuel cur path).isSome := by
  intro fuel
  induction fuel with
  | zero =>
    intro cur path T hT hcard
    have hcur : up parent cur = none := by
      by_contra hne
      have := hT cur .refl hne
      rw [Finset.card_eq_zero.mp (Nat.le_zero.mp hcard)] at this
      exact absurd this (by simp)
    rw [climb, hcur]
    rfl
  | succ fuel ih =>
    intro cur path T hT hcard
    cases hc : up parent cur with
    | none => rw [climb, hc]; rfl
    | some p =>
      rw [climb, hc]
      have hcT : cur ∈ T := hT cur .refl (by rw [hc]; simp)
      refine ih p _ (T.erase cur) (fun y hy hyn => ?_) ?_
      · refine Finset.mem_erase.mpr ⟨?_, hT y (.head hc hy) hyn⟩
        rintro rfl
        -- a climb from `p` back to `cur` would be a cycle through `cur`
        have hcyc : Relation.TransGen (fun y x => Edge parent x y) y y := by
          rw [Relation.transGen_swap]
          exact Relation.TransGen.head' hc hy
        exact (WellFounded.transGen h).irrefl.irrefl y hcyc
      · rw [Finset.card_erase_of_mem hcT]
        omega

/-- **More fuel changes nothing** once the loop comes back. -/
theorem climb_add {cur : α} {path : List α} {res : α × List α} :
    ∀ {fuel : ℕ}, climb parent fuel cur path = some res →
      ∀ n, climb parent (fuel + n) cur path = some res := by
  intro fuel
  induction fuel generalizing cur path with
  | zero =>
    intro h n
    rw [climb] at h
    cases hc : up parent cur with
    | some p => rw [hc] at h; exact absurd h (by simp)
    | none =>
      rw [hc] at h
      cases n with
      | zero => rw [climb, hc]; exact h
      | succ n => rw [Nat.zero_add, climb, hc]; exact h
  | succ fuel ih =>
    intro h n
    rw [climb] at h
    rw [Nat.succ_add, climb]
    cases hc : up parent cur with
    | some p => rw [hc] at h; exact ih h n
    | none => rw [hc] at h; exact h

/-! ### Writing one pointer -/

theorem up_redirect_self (parent : α → Option α) (c r : α) :
    up (redirect parent c r) c = if r ≠ c then some r else none := by
  simp [up, redirect]

theorem up_redirect_of_ne {c x : α} (r : α) (h : x ≠ c) :
    up (redirect parent c r) x = up parent x := by
  simp [up, redirect, h]

/-- Roots stay roots, except for the node that is written. -/
theorem up_redirect_eq_none {c r x : α} (h : up parent x = none) (hx : x ≠ c ∨ r = c) :
    up (redirect parent c r) x = none := by
  by_cases hxc : x = c
  · subst hxc
    rw [up_redirect_self, if_neg (by simpa using hx.resolve_left (by simp))]
  · rw [up_redirect_of_ne r hxc, h]

/-- **Pointing a node at a root, or at itself, keeps the forest acyclic.** -/
theorem acyclic_redirect (h : Acyclic parent) {c r : α} (hr : up parent r = none ∨ r = c) :
    Acyclic (redirect parent c r) := by
  have hroot : up (redirect parent c r) r = none := by
    rcases hr with hr | rfl
    · exact up_redirect_eq_none hr (or_iff_not_imp_right.mpr (fun hne => hne))
    · rw [up_redirect_self, if_neg (by simp)]
  have haccr : Acc (fun y x => Edge (redirect parent c r) x y) r :=
    ⟨r, fun y hy => by rw [Edge, hroot] at hy; exact absurd hy (by simp)⟩
  refine ⟨fun x => ?_⟩
  induction x using h.induction with
  | _ x ih =>
    refine ⟨x, fun y hy => ?_⟩
    by_cases hxc : x = c
    · subst hxc
      rw [Edge, up_redirect_self] at hy
      split at hy
      · exact Option.some.inj hy ▸ haccr
      · exact absurd hy (by simp)
    · rw [Edge, up_redirect_of_ne r hxc] at hy
      exact ih y hy

/-- **Path compression keeps every root.** -/
theorem rootOf_redirect_root {c r : α} (hc : RootOf parent c r) {x q : α}
    (hx : RootOf parent x q) : RootOf (redirect parent c r) x q := by
  have hroot : ∀ z, up parent z = none → up (redirect parent c r) z = none := by
    intro z hz
    refine up_redirect_eq_none hz (or_iff_not_imp_left.mpr (fun hzc => ?_))
    rw [not_not] at hzc
    subst hzc
    exact eq_of_rootOf_of_up_eq_none hz hc
  obtain ⟨hxq, hq⟩ := hx
  induction hxq using Relation.ReflTransGen.head_induction_on with
  | refl => exact rootOf_self (hroot _ hq)
  | @head x y hxy hyq ih =>
    by_cases hxc : x = c
    · subst hxc
      have hqr : q = r := rootOf_unique (rootOf_of_edge hxy ⟨hyq, hq⟩) hc
      subst hqr
      have hne : q ≠ x := by
        rintro rfl
        rw [Edge, hq] at hxy
        exact absurd hxy (by simp)
      exact rootOf_of_edge (by rw [Edge, up_redirect_self, if_pos hne]) (rootOf_self (hroot _ hq))
    · exact rootOf_of_edge (by rw [Edge, up_redirect_of_ne r hxc]; exact hxy) ih

/-- **Pointing the root `c` at the root `r`** moves the tree of `c` below `r` and
leaves the other trees alone. -/
theorem rootOf_redirect_link {c r : α} (hc : up parent c = none) (hr : up parent r = none)
    (hne : c ≠ r) {x q : α} (hx : RootOf parent x q) :
    RootOf (redirect parent c r) x (if q = c then r else q) := by
  have hrr : RootOf (redirect parent c r) r r :=
    rootOf_self (up_redirect_eq_none hr (Or.inl hne.symm))
  obtain ⟨hxq, hq⟩ := hx
  induction hxq using Relation.ReflTransGen.head_induction_on with
  | refl =>
    split
    · next he =>
      subst he
      exact rootOf_of_edge (by rw [Edge, up_redirect_self, if_pos hne.symm]) hrr
    · next he => exact rootOf_self (up_redirect_eq_none hq (Or.inl he))
  | @head x y hxy _ ih =>
    have hxc : x ≠ c := by
      rintro rfl
      rw [Edge, hc] at hxy
      exact absurd hxy (by simp)
    exact rootOf_of_edge (by rw [Edge, up_redirect_of_ne r hxc]; exact hxy) ih

/-! ### The partition -/

/-- Two nodes are in one class when they climb to one root. -/
def classes (parent : α → Option α) (h : Acyclic parent) : Setoid α where
  r x y := ∃ r, RootOf parent x r ∧ RootOf parent y r
  iseqv :=
    { refl := fun x => (exists_rootOf h x).imp fun _ hr => ⟨hr, hr⟩
      symm := fun ⟨r, hx, hy⟩ => ⟨r, hy, hx⟩
      trans := fun ⟨r, hx, hy⟩ ⟨_, hy', hz⟩ => ⟨r, hx, rootOf_unique hy' hy ▸ hz⟩ }

/-- Maps with the same roots have the same partition. -/
theorem classes_congr {p q : α → Option α} (hp : Acyclic p) (hq : Acyclic q)
    (h : ∀ x r, RootOf p x r → RootOf q x r) : classes q hq = classes p hp := by
  ext x y
  constructor
  · rintro ⟨r, hx, hy⟩
    obtain ⟨a, ha⟩ := exists_rootOf hp x
    obtain ⟨b, hb⟩ := exists_rootOf hp y
    obtain rfl := rootOf_unique hx (h x a ha)
    obtain rfl := rootOf_unique hy (h y b hb)
    exact ⟨_, ha, hb⟩
  · rintro ⟨r, hx, hy⟩
    exact ⟨r, h x r hx, h y r hy⟩

/-- **Linking the roots of `x` and `y` adds the pair `(x, y)` to the partition.** -/
theorem classes_redirect_link (h : Acyclic parent) {x y r s : α} (hx : RootOf parent x r)
    (hy : RootOf parent y s) (hne : s ≠ r) (h' : Acyclic (redirect parent s r)) :
    classes (redirect parent s r) h' = classes parent h ⊔ pair x y := by
  have hlink : ∀ {z q : α}, RootOf parent z q →
      RootOf (redirect parent s r) z (if q = s then r else q) :=
    fun hz => rootOf_redirect_link hy.2 hx.2 hne hz
  apply le_antisymm
  · rintro a b ⟨t, ha, hb⟩
    set joined := classes parent h ⊔ pair x y
    have hold : ∀ {u v : α}, classes parent h u v → joined u v :=
      fun huv => (le_sup_left : classes parent h ≤ joined) huv
    have hxy : joined x y := (le_sup_right : pair x y ≤ joined) (pair_rel x y)
    have hrs : joined r s := joined.trans' (hold ⟨r, rootOf_rootOf hx, hx⟩)
      (joined.trans' hxy (hold ⟨s, hy, rootOf_rootOf hy⟩))
    -- every node is joined to the root it has after the link
    have hto : ∀ z, RootOf (redirect parent s r) z t → joined z t := by
      intro z hz
      obtain ⟨q, hq⟩ := exists_rootOf h z
      have hzq : joined z q := hold ⟨q, hq, rootOf_rootOf hq⟩
      obtain rfl := rootOf_unique (hlink hq) hz
      split
      · next he => exact joined.trans' hzq (he ▸ joined.symm' hrs)
      · exact hzq
    exact joined.trans' (hto a ha) (joined.symm' (hto b hb))
  · refine sup_le ?_ (pair_le ?_)
    · rintro a b ⟨t, ha, hb⟩
      exact ⟨_, hlink ha, hlink hb⟩
    · refine ⟨r, ?_, ?_⟩
      · have := hlink hx
        rwa [if_neg hne.symm] at this
      · have := hlink hy
        rwa [if_pos rfl] at this

end Forest
