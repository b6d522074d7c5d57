import Rustybox.Spherepop.Kernel

/-!
# What one event does

The six branches of `apply`, each with its effect on the roots and on the
relation set.  Later files argue from these and do not look into `apply` again.

* `rootOf_setParent_link`: pointing one root at another.
* `pop_isRoot`: a pop keeps every root, and if the popped object was a root it
  changes nothing (`pop_rootOf_iff`).
* `merge_relations`: a merge renames the absorbed root in every tuple.
* `link_relations`, `unlink_relations`: one tuple more, one tuple less.
* `collapse_relations`: a collapse leaves the relation set as it is, whatever it
  does to the roots (`collapse_isRoot_iff`).
* `mem_canonicalRelations`: what the applet prints is the relation set read
  through `rep`.
-/

namespace Rustybox.Spherepop

namespace SpherepopKernel

variable {self : SpherepopKernel}

/-! ### Writing a pointer -/

@[simp] theorem setParent_objects (c r : ObjectId) (h) :
    (self.setParent c r h).objects = self.objects := rfl
@[simp] theorem setParent_relations (c r : ObjectId) (h) :
    (self.setParent c r h).relations = self.relations := rfl

theorem setParent_parent (c r : ObjectId) (h : self.IsRoot r ∨ r = c) :
    pointers (self.setParent c r h).parent = Forest.redirect (pointers self.parent) c r :=
  pointers_insert _ c r

/-- **The root `c` goes below the root `r`.** -/
theorem rootOf_setParent_link {c r : ObjectId} {h : self.IsRoot r ∨ r = c} (hc : self.IsRoot c)
    (hr : self.IsRoot r) (hne : c ≠ r) {x q : ObjectId} (hx : self.RootOf x q) :
    (self.setParent c r h).RootOf x (if q = c then r else q) := by
  rw [RootOf, setParent_parent]
  exact Forest.rootOf_redirect_link hc hr hne hx

theorem isRoot_setParent_iff {c r : ObjectId} {h : self.IsRoot r ∨ r = c} (hne : c ≠ r)
    {x : ObjectId} : (self.setParent c r h).IsRoot x ↔ self.IsRoot x ∧ x ≠ c := by
  rw [IsRoot, setParent_parent]
  by_cases hx : x = c
  · subst hx
    rw [Forest.up_redirect_self, if_pos hne.symm]
    simp
  · rw [Forest.up_redirect_of_ne r hx]
    exact ⟨fun h => ⟨h, hx⟩, fun h => h.1⟩

/-! ### Pop -/

@[simp] theorem pop_relations (self : SpherepopKernel) (o : ObjectId) :
    (self.pop o).1.relations = self.relations := by
  rw [pop]
  split <;> rfl

theorem pop_isRoot {o x : ObjectId} (h : self.IsRoot x) : (self.pop o).1.IsRoot x := by
  rw [pop]
  split
  · show Forest.up (pointers (self.setParent o o (Or.inr rfl)).parent) x = none
    rw [setParent_parent]
    exact Forest.up_redirect_eq_none h (Or.inr rfl)
  · exact h

theorem pop_isRoot_self {o : ObjectId} (h : o ∉ self.objects) : (self.pop o).1.IsRoot o := by
  rw [pop, if_pos h]
  show Forest.up (pointers (self.setParent o o (Or.inr rfl)).parent) o = none
  rw [setParent_parent, Forest.up_redirect_self, if_neg (by simp)]

/-- **Popping a root, or an object that is there, changes no root.** -/
theorem pop_rootOf_iff {o : ObjectId} (h : o ∈ self.objects ∨ self.IsRoot o) {x q : ObjectId} :
    (self.pop o).1.RootOf x q ↔ self.RootOf x q := by
  rw [pop]
  split
  · next ho =>
    have hroot : Forest.RootOf (pointers self.parent) o o :=
      Forest.rootOf_self (h.resolve_left ho)
    have hkeep : ∀ {y p : ObjectId}, self.RootOf y p →
        Forest.RootOf (pointers (self.setParent o o (Or.inr rfl)).parent) y p := by
      intro y p hy
      rw [setParent_parent]
      exact Forest.rootOf_redirect_root hroot hy
    refine ⟨fun hx => ?_, hkeep⟩
    obtain ⟨p, hp⟩ := Forest.exists_rootOf self.acyclic x
    exact Forest.rootOf_unique (hkeep hp) hx ▸ hp
  · exact Iff.rfl

/-! ### Merge -/

section Merge

variable {r1 r2 : ObjectId}

/-- A tuple that mentions `r2`. -/
def Incident (r2 : ObjectId) (rel : Relation) : Prop := rel.1 = r2 ∨ rel.2.1 = r2

instance (r2 : ObjectId) (rel : Relation) : Decidable (Incident r2 rel) :=
  inferInstanceAs (Decidable (_ ∨ _))

theorem mem_toRewrite {relations : BTreeSet Relation} {rel : Relation} :
    rel ∈ toRewrite r2 relations ↔ rel ∈ relations ∧ Incident r2 rel := by
  rw [toRewrite, List.mem_filter, Std.ExtTreeSet.mem_toList]
  simp [Incident]

theorem renamed_of_not_incident {rel : Relation} (h : ¬ Incident r2 rel) :
    renamed r1 r2 rel = rel := by
  rw [Incident, not_or] at h
  simp [renamed, h.1, h.2]

theorem not_incident_renamed (hne : r1 ≠ r2) (rel : Relation) :
    ¬ Incident r2 (renamed r1 r2 rel) := by
  rw [Incident, renamed, not_or]
  constructor
  · dsimp only
    split
    · exact hne
    · assumption
  · dsimp only
    split
    · exact hne
    · assumption

theorem mem_rewriteOne {acc : BTreeSet Relation × List Relation} {old rel : Relation} :
    rel ∈ (rewriteOne r1 r2 acc old).1 ↔
      (rel ∈ acc.1 ∧ rel ≠ old) ∨ rel = renamed r1 r2 old := by
  rw [rewriteOne]
  split
  · next hin =>
    rw [mem_erase_iff]
    refine ⟨Or.inl, fun h => h.elim id ?_⟩
    rintro rfl
    exact mem_erase_iff.mp hin
  · rw [mem_insert_iff, mem_erase_iff]

/-- The rewriting loop, from any point of it: what is still to be rewritten is
gone at the end, and its renamed form is there. -/
theorem mem_foldl_rewriteOne (hne : r1 ≠ r2) : ∀ (todo : List Relation)
    (acc : BTreeSet Relation × List Relation), (∀ rel ∈ todo, Incident r2 rel) →
      ∀ rel, rel ∈ (todo.foldl (rewriteOne r1 r2) acc).1 ↔
        (rel ∈ acc.1 ∧ rel ∉ todo) ∨ ∃ old ∈ todo, rel = renamed r1 r2 old := by
  intro todo
  induction todo with
  | nil => intro acc _ rel; simp
  | cons old todo ih =>
    intro acc hinc rel
    have hnew : renamed r1 r2 old ∉ todo := fun hm =>
      not_incident_renamed hne old (hinc _ (List.mem_cons_of_mem _ hm))
    rw [List.foldl_cons, ih _ (fun rel hm => hinc rel (List.mem_cons_of_mem _ hm)), mem_rewriteOne]
    constructor
    · rintro (⟨⟨hin, hold⟩ | rfl, htodo⟩ | ⟨y, hy, rfl⟩)
      · exact Or.inl ⟨hin, by simp [hold, htodo]⟩
      · exact Or.inr ⟨old, List.mem_cons_self, rfl⟩
      · exact Or.inr ⟨y, List.mem_cons_of_mem _ hy, rfl⟩
    · rintro (⟨hin, hout⟩ | ⟨y, hy, rfl⟩)
      · rw [List.mem_cons, not_or] at hout
        exact Or.inl ⟨Or.inl ⟨hin, hout.1⟩, hout.2⟩
      · rcases List.mem_cons.mp hy with rfl | hy
        · exact Or.inl ⟨Or.inr rfl, hnew⟩
        · exact Or.inr ⟨y, hy, rfl⟩

/-- **The rewriting loop renames `r2` to `r1` in every tuple.** -/
theorem mem_rewritten (hne : r1 ≠ r2) {relations : BTreeSet Relation} {added : List Relation}
    {rel : Relation} :
    rel ∈ ((toRewrite r2 relations).foldl (rewriteOne r1 r2) (relations, added)).1 ↔
      ∃ old ∈ relations, rel = renamed r1 r2 old := by
  rw [mem_foldl_rewriteOne hne _ _ (fun rel hm => (mem_toRewrite.mp hm).2)]
  constructor
  · rintro (⟨hin, hout⟩ | ⟨old, hold, rfl⟩)
    · rw [mem_toRewrite, not_and] at hout
      exact ⟨rel, hin, (renamed_of_not_incident (hout hin)).symm⟩
    · exact ⟨old, (mem_toRewrite.mp hold).1, rfl⟩
  · rintro ⟨old, hold, rfl⟩
    by_cases hinc : Incident r2 old
    · exact Or.inr ⟨old, mem_toRewrite.mpr ⟨hold, hinc⟩, rfl⟩
    · rw [renamed_of_not_incident hinc]
      exact Or.inl ⟨hold, fun hm => hinc (mem_toRewrite.mp hm).2⟩

end Merge

/-- A merge of two objects of one class does nothing but compress. -/
theorem merge_of_eq {o1 o2 : ObjectId} (h : (self.rep o1).1 = (self.rep o2).1) :
    self.merge o1 o2 = (((self.rep o1).2.rep o2).2, {}) := by
  rw [merge]
  dsimp only
  rw [if_neg (by rw [rep_rep]; exact not_not.mpr h)]

theorem merge_of_ne {o1 o2 : ObjectId} (h : (self.rep o1).1 ≠ (self.rep o2).1) :
    (self.merge o1 o2).1.relations = ((toRewrite (self.rep o2).1 self.relations).foldl
      (rewriteOne (self.rep o1).1 (self.rep o2).1) (self.relations, [])).1 ∧
    (self.merge o1 o2).2.relationsAdded = ((toRewrite (self.rep o2).1 self.relations).foldl
      (rewriteOne (self.rep o1).1 (self.rep o2).1) (self.relations, [])).2 ∧
    (self.merge o1 o2).2.relationsRemoved = [] ∧
    (self.merge o1 o2).1.parent =
      ((self.rep o1).2.rep o2).2.parent.insert (self.rep o2).1 (self.rep o1).1 := by
  rw [merge]
  dsimp only
  rw [if_pos (by rw [rep_rep]; exact h)]
  simp only [rep_rep, rep_relations, setParent, and_self]

theorem merge_relations {o1 o2 : ObjectId} (h : (self.rep o1).1 ≠ (self.rep o2).1)
    {rel : Relation} : rel ∈ (self.merge o1 o2).1.relations ↔
      ∃ old ∈ self.relations, rel = renamed (self.rep o1).1 (self.rep o2).1 old := by
  rw [(merge_of_ne h).1, mem_rewritten h]

theorem merge_rootOf {o1 o2 : ObjectId} (h : (self.rep o1).1 ≠ (self.rep o2).1) {x q : ObjectId}
    (hx : self.RootOf x q) : (self.merge o1 o2).1.RootOf x
      (if q = (self.rep o2).1 then (self.rep o1).1 else q) := by
  rw [RootOf, (merge_of_ne h).2.2.2, pointers_insert]
  exact Forest.rootOf_redirect_link (isRoot_rep_iff.mpr (isRoot_rep_iff.mpr (self.rep_isRoot o2)))
    (isRoot_rep_iff.mpr (isRoot_rep_iff.mpr (self.rep_isRoot o1))) h.symm
    ((rootOf_rep_iff _ _).mpr ((rootOf_rep_iff _ _).mpr hx))

theorem merge_isRoot {o1 o2 : ObjectId} {x : ObjectId} (hx : self.IsRoot x)
    (hne : (self.rep o1).1 ≠ (self.rep o2).1 → x ≠ (self.rep o2).1) :
    (self.merge o1 o2).1.IsRoot x := by
  by_cases h : (self.rep o1).1 = (self.rep o2).1
  · rw [merge_of_eq h]
    exact isRoot_rep_iff.mpr (isRoot_rep_iff.mpr hx)
  · have hroot := merge_rootOf h (isRoot_iff_rootOf.mp hx)
    rw [if_neg (hne h)] at hroot
    exact isRoot_iff_rootOf.mpr hroot

/-! ### Link and unlink -/

theorem link_relations {o1 o2 : ObjectId} {t : String} {rel : Relation} :
    rel ∈ (self.link o1 o2 t).1.relations ↔
      rel ∈ self.relations ∨ rel = ((self.rep o1).1, (self.rep o2).1, t) := by
  rw [link]
  dsimp only
  simp only [rep_rep, rep_relations]
  split
  · exact mem_insert_iff
  · next hin => exact ⟨Or.inl, fun h => h.elim id (fun he => he ▸ not_not.mp hin)⟩

theorem link_rootOf_iff {o1 o2 : ObjectId} {t : String} {x q : ObjectId} :
    (self.link o1 o2 t).1.RootOf x q ↔ self.RootOf x q := by
  have h : (self.link o1 o2 t).1.parent = ((self.rep o1).2.rep o2).2.parent := by
    rw [link]
    dsimp only
    split <;> rfl
  rw [RootOf, h]
  exact (rootOf_rep_iff _ _).trans (rootOf_rep_iff _ _)

theorem unlink_relations {o1 o2 : ObjectId} {t : String} {rel : Relation} :
    rel ∈ (self.unlink o1 o2 t).1.relations ↔
      rel ∈ self.relations ∧ rel ≠ ((self.rep o1).1, (self.rep o2).1, t) := by
  rw [unlink]
  dsimp only
  simp only [rep_rep, rep_relations]
  split
  · exact mem_erase_iff
  · next hout => exact ⟨fun h => ⟨h, fun he => hout (he ▸ h)⟩, fun h => h.1⟩

theorem unlink_rootOf_iff {o1 o2 : ObjectId} {t : String} {x q : ObjectId} :
    (self.unlink o1 o2 t).1.RootOf x q ↔ self.RootOf x q := by
  have h : (self.unlink o1 o2 t).1.parent = ((self.rep o1).2.rep o2).2.parent := by
    rw [unlink]
    dsimp only
    split <;> rfl
  rw [RootOf, h]
  exact (rootOf_rep_iff _ _).trans (rootOf_rep_iff _ _)

/-! ### Collapse -/

theorem collapseLoop_relations (target : ObjectId) : ∀ (members : List ObjectId)
    (self : SpherepopKernel) (h : self.IsRoot target),
      (collapseLoop target self h members).1.relations = self.relations := by
  intro members
  induction members with
  | nil => intro _ _; rfl
  | cons m members ih =>
    intro self h
    rw [collapseLoop]
    split
    · exact ih _ _
    · exact ih _ _

theorem collapse_relations (self : SpherepopKernel) (members : List ObjectId) (or : ObjectId) :
    (self.collapse members or).1.relations = self.relations :=
  collapseLoop_relations _ members _ _

/-- One root goes, the others stay, and what hangs below the root that goes is
below `target` afterwards.  The roots that go are those of the members. -/
theorem collapseLoop_isRoot_iff (target : ObjectId) : ∀ (members : List ObjectId)
    (self : SpherepopKernel) (h : self.IsRoot target) (x : ObjectId),
      (collapseLoop target self h members).1.IsRoot x ↔
        self.IsRoot x ∧ (x = target ∨ ∀ m ∈ members, (self.rep m).1 ≠ x) := by
  intro members
  induction members with
  | nil => intro self h x; simp [collapseLoop]
  | cons m members ih =>
    intro self h x
    rw [collapseLoop]
    dsimp only
    by_cases hm : (self.rep m).1 = target
    · rw [dif_neg (not_not.mpr hm), ih]
      simp only [isRoot_rep_iff, rep_rep, List.forall_mem_cons, hm]
      constructor
      · rintro ⟨hx, rfl | hall⟩
        · exact ⟨hx, Or.inl rfl⟩
        · by_cases hxt : x = target
          · exact ⟨hx, Or.inl hxt⟩
          · exact ⟨hx, Or.inr ⟨fun he => hxt he.symm, hall⟩⟩
      · rintro ⟨hx, rfl | ⟨_, hall⟩⟩
        · exact ⟨hx, Or.inl rfl⟩
        · exact ⟨hx, Or.inr hall⟩
    · rw [dif_pos hm]
      dsimp only
      rw [ih, isRoot_setParent_iff hm, isRoot_rep_iff]
      -- after the pointer is written, a member's root is its old one or `target`
      have hrep : ∀ y, (((self.rep m).2.setParent (self.rep m).1 target
          (Or.inl (isRoot_rep_iff.mpr h))).rep y).1 =
            if (self.rep y).1 = (self.rep m).1 then target else (self.rep y).1 := by
        intro y
        rw [rep_eq_iff]
        exact rootOf_setParent_link (isRoot_rep_iff.mpr (self.rep_isRoot m)) (isRoot_rep_iff.mpr h)
          hm ((rootOf_rep_iff _ _).mpr (self.rep_rootOf y))
      simp only [hrep, List.forall_mem_cons]
      constructor
      · rintro ⟨⟨hx, hxm⟩, rfl | hall⟩
        · exact ⟨hx, Or.inl rfl⟩
        · refine ⟨hx, or_iff_not_imp_left.mpr (fun hxt => ⟨fun he => hxm he.symm, ?_⟩)⟩
          intro y hy he
          refine hall y hy ?_
          rw [if_neg (fun hyx => hxm (he.symm.trans hyx)), he]
      · rintro ⟨hx, rfl | ⟨hxm, hall⟩⟩
        · exact ⟨⟨hx, fun he => hm he.symm⟩, Or.inl rfl⟩
        · refine ⟨⟨hx, fun he => hxm he.symm⟩, or_iff_not_imp_left.mpr (fun hxt y hy => ?_)⟩
          split
          · exact fun he => hxt he.symm
          · exact hall y hy

/-- **A collapse takes away exactly the roots of its members**, other than the
root they are moved to. -/
theorem collapse_isRoot_iff {members : List ObjectId} {or x : ObjectId} :
    (self.collapse members or).1.IsRoot x ↔
      self.IsRoot x ∧ (x = (self.rep or).1 ∨ ∀ m ∈ members, (self.rep m).1 ≠ x) := by
  have h := collapseLoop_isRoot_iff (self.rep or).1 members (self.rep or).2
    (isRoot_rep_iff.mpr (self.rep_isRoot or)) x
  simp only [isRoot_rep_iff, rep_rep] at h
  exact h

/-! ### The canonical views -/

/-- The tuple of the classes. -/
def canonical (self : SpherepopKernel) (rel : Relation) : Relation :=
  ((self.rep rel.1).1, (self.rep rel.2.1).1, rel.2.2)

theorem canonicalOne_fst {acc : BTreeSet Relation × SpherepopKernel} (rel : Relation)
    (hacc : ∀ {x q}, acc.2.RootOf x q ↔ self.RootOf x q) :
    (canonicalOne acc rel).1 = acc.1.insert (self.canonical rel) := by
  have hrep := rep_congr (k := self) hacc
  rw [canonicalOne, canonical]
  dsimp only
  rw [rep_rep, hrep, hrep]

theorem canonicalOne_rootOf_iff {acc : BTreeSet Relation × SpherepopKernel} (rel : Relation)
    (hacc : ∀ {x q}, acc.2.RootOf x q ↔ self.RootOf x q) {x q : ObjectId} :
    (canonicalOne acc rel).2.RootOf x q ↔ self.RootOf x q :=
  ((rootOf_rep_iff _ _).trans (rootOf_rep_iff _ _)).trans hacc

theorem mem_foldl_canonicalOne : ∀ (todo : List Relation)
    (acc : BTreeSet Relation × SpherepopKernel), (∀ {x q}, acc.2.RootOf x q ↔ self.RootOf x q) →
      ∀ rel, rel ∈ (todo.foldl canonicalOne acc).1 ↔
        rel ∈ acc.1 ∨ ∃ old ∈ todo, rel = self.canonical old := by
  intro todo
  induction todo with
  | nil => intro acc _ rel; simp
  | cons old todo ih =>
    intro acc hacc rel
    rw [List.foldl_cons, ih _ (canonicalOne_rootOf_iff old hacc), canonicalOne_fst old hacc,
      mem_insert_iff]
    constructor
    · rintro ((hin | rfl) | ⟨y, hy, rfl⟩)
      · exact Or.inl hin
      · exact Or.inr ⟨old, List.mem_cons_self, rfl⟩
      · exact Or.inr ⟨y, List.mem_cons_of_mem _ hy, rfl⟩
    · rintro (hin | ⟨y, hy, rfl⟩)
      · exact Or.inl (Or.inl hin)
      · rcases List.mem_cons.mp hy with rfl | hy
        · exact Or.inl (Or.inr rfl)
        · exact Or.inr ⟨y, hy, rfl⟩

/-- **What the applet prints**: the stored tuples, read through `rep`. -/
theorem mem_canonicalRelations {rel : Relation} :
    rel ∈ self.canonicalRelations.1 ↔ ∃ old ∈ self.relations, rel = self.canonical old := by
  rw [canonicalRelations, mem_foldl_canonicalOne _ _ Iff.rfl]
  simp only [Std.ExtTreeSet.not_mem_empty, false_or, Std.ExtTreeSet.mem_toList]

end SpherepopKernel

end Rustybox.Spherepop
