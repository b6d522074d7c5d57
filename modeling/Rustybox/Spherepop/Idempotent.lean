import Rustybox.Spherepop.Partition

/-!
# An event applied twice

An event that has just been applied finds nothing left to do: the object is there, the classes
are joined, the tuple is in the set or out of it.  Such an event is idle.  It still compresses
paths, so the parent pointers may change, but no representative does, and neither does anything
else that can be seen.
-/

namespace Rustybox.Spherepop

namespace SpherepopKernel

variable {self : SpherepopKernel}

/-- Nothing that can be seen of `k` changed, and the diff reports no change. -/
structure Idle (k : SpherepopKernel) (res : SpherepopKernel × Diff) : Prop where
  objects : res.1.objects = k.objects
  rootOf : ∀ {x q}, res.1.RootOf x q ↔ k.RootOf x q
  relations : res.1.relations = k.relations
  metadata : res.1.metadata = k.metadata
  objectsAdded : res.2.objectsAdded = []
  relationsAdded : res.2.relationsAdded = []
  relationsRemoved : res.2.relationsRemoved = []
  equivalencesChanged : res.2.equivalencesChanged = []

theorem idle_rep_rep (self : SpherepopKernel) (o1 o2 : ObjectId) :
    self.Idle (((self.rep o1).2.rep o2).2, {}) where
  objects := rfl
  rootOf := (rootOf_rep_iff _ _).trans (rootOf_rep_iff _ _)
  relations := rfl
  metadata := rfl
  objectsAdded := rfl
  relationsAdded := rfl
  relationsRemoved := rfl
  equivalencesChanged := rfl

/-! ### When an event is idle -/

theorem idle_pop {o : ObjectId} (h : o ∈ self.objects) : self.Idle (self.pop o) := by
  rw [pop, if_neg (not_not.mpr h)]
  exact ⟨rfl, Iff.rfl, rfl, rfl, rfl, rfl, rfl, rfl⟩

theorem idle_merge {o1 o2 : ObjectId} (h : (self.rep o1).1 = (self.rep o2).1) :
    self.Idle (self.merge o1 o2) := by
  rw [merge_of_eq h]
  exact self.idle_rep_rep o1 o2

theorem idle_link {o1 o2 : ObjectId} {t : String}
    (h : ((self.rep o1).1, (self.rep o2).1, t) ∈ self.relations) :
    self.Idle (self.link o1 o2 t) := by
  rw [link]
  dsimp only
  rw [if_neg (by simpa using h)]
  exact self.idle_rep_rep o1 o2

theorem idle_unlink {o1 o2 : ObjectId} {t : String}
    (h : ((self.rep o1).1, (self.rep o2).1, t) ∉ self.relations) :
    self.Idle (self.unlink o1 o2 t) := by
  rw [unlink]
  dsimp only
  rw [if_neg (by simpa using h)]
  exact self.idle_rep_rep o1 o2

/-- Members that hang below the target already are left there. -/
theorem idle_collapseLoop (target : ObjectId) (members : List ObjectId) :
    ∀ (self : SpherepopKernel) (h : self.IsRoot target),
      (∀ m ∈ members, (self.rep m).1 = target) →
      self.Idle ((collapseLoop target self h members).1,
        { equivalencesChanged := (collapseLoop target self h members).2 }) := by
  induction members with
  | nil =>
    intro self h _
    exact ⟨rfl, Iff.rfl, rfl, rfl, rfl, rfl, rfl, rfl⟩
  | cons m members ih =>
    intro self h hmem
    have hm : (self.rep m).1 = target := hmem m List.mem_cons_self
    have hrest : ∀ m' ∈ members, ((self.rep m).2.rep m').1 = target := fun m' hm' => by
      rw [rep_rep]
      exact hmem m' (List.mem_cons_of_mem _ hm')
    have hidle := ih (self.rep m).2 (isRoot_rep_iff.mpr h) hrest
    rw [collapseLoop]
    dsimp only
    rw [dif_neg (not_not.mpr hm)]
    exact ⟨hidle.objects, hidle.rootOf.trans (rootOf_rep_iff _ _), hidle.relations, hidle.metadata,
      rfl, rfl, rfl, hidle.equivalencesChanged⟩

theorem idle_collapse {members : List ObjectId} {or : ObjectId}
    (h : ∀ m ∈ members, (self.rep m).1 = (self.rep or).1) :
    self.Idle (self.collapse members or) := by
  have hidle := idle_collapseLoop (self.rep or).1 members (self.rep or).2
    (isRoot_rep_iff.mpr (self.rep_isRoot or)) (fun m hm => by rw [rep_rep]; exact h m hm)
  exact ⟨hidle.objects, hidle.rootOf.trans (rootOf_rep_iff _ _), hidle.relations, hidle.metadata,
    rfl, rfl, rfl, hidle.equivalencesChanged⟩

theorem idle_setMeta {o : ObjectId} {k v : String}
    (h : self.metadata.insert o (((self.metadata[o]?).getD ∅).insert k v) = self.metadata) :
    self.Idle (self.setMeta o k v) :=
  ⟨rfl, Iff.rfl, rfl, h, rfl, rfl, rfl, rfl⟩

/-! ### An event that was applied is idle -/

theorem mem_objects_pop (self : SpherepopKernel) (o : ObjectId) : o ∈ (self.pop o).1.objects := by
  rw [pop]
  by_cases h : o ∉ self.objects
  · rw [if_pos h]
    exact Std.ExtTreeSet.mem_insert_self
  · rw [if_neg h]
    exact not_not.mp h

theorem rep_merge (self : SpherepopKernel) (o1 o2 : ObjectId) :
    ((self.merge o1 o2).1.rep o1).1 = ((self.merge o1 o2).1.rep o2).1 :=
  partition_iff_rep.mp (by
    rw [partition_merge]
    exact (le_sup_right : Forest.pair o1 o2 ≤ self.partition ⊔ Forest.pair o1 o2)
      (Forest.pair_rel o1 o2))

theorem rep_collapse (self : SpherepopKernel) {members : List ObjectId} {or m : ObjectId}
    (hm : m ∈ members) :
    ((self.collapse members or).1.rep m).1 = ((self.collapse members or).1.rep or).1 := by
  rw [← partition_iff_rep, partition_collapse]
  exact (le_sup_right : memberPairs members or ≤ self.partition ⊔ memberPairs members or)
    (memberPairs_rel hm)

theorem insert_insert_metadata (metadata : BTreeMap ObjectId (BTreeMap String String))
    (o : ObjectId) (k v : String) :
    (metadata.insert o (((metadata[o]?).getD ∅).insert k v)).insert o
        ((((metadata.insert o (((metadata[o]?).getD ∅).insert k v))[o]?).getD ∅).insert k v) =
      metadata.insert o (((metadata[o]?).getD ∅).insert k v) := by
  have hinner : ∀ m : BTreeMap String String, (m.insert k v).insert k v = m.insert k v := by
    intro m
    refine Std.ExtTreeMap.ext_getElem? fun x => ?_
    rw [Std.ExtTreeMap.getElem?_insert]
    split
    · next h => rw [Std.ExtTreeMap.getElem?_insert, if_pos h]
    · rfl
  rw [Std.ExtTreeMap.getElem?_insert_self, Option.getD_some, hinner]
  refine Std.ExtTreeMap.ext_getElem? fun x => ?_
  rw [Std.ExtTreeMap.getElem?_insert]
  split
  · next h => rw [Std.ExtTreeMap.getElem?_insert, if_pos h]
  · rfl

theorem idle_apply_apply (self : SpherepopKernel) (e : Event) :
    (self.apply e).1.Idle ((self.apply e).1.apply e) := by
  cases e with
  | pop o => exact idle_pop (self.mem_objects_pop o)
  | merge o1 o2 =>
    change (self.merge o1 o2).1.Idle ((self.merge o1 o2).1.merge o1 o2)
    exact idle_merge (self.rep_merge o1 o2)
  | link o1 o2 t =>
    refine idle_link (link_relations.mpr (Or.inr ?_))
    show (((self.link o1 o2 t).1.rep o1).1, ((self.link o1 o2 t).1.rep o2).1, t) = _
    rw [rep_congr link_rootOf_iff, rep_congr link_rootOf_iff]
  | unlink o1 o2 t =>
    refine idle_unlink fun h => (unlink_relations.mp h).2 ?_
    show (((self.unlink o1 o2 t).1.rep o1).1, ((self.unlink o1 o2 t).1.rep o2).1, t) = _
    rw [rep_congr unlink_rootOf_iff, rep_congr unlink_rootOf_iff]
  | collapse members or => exact idle_collapse fun m hm => self.rep_collapse hm
  | setMeta o k v => exact idle_setMeta (insert_insert_metadata self.metadata o k v)

theorem canonicalRelations_congr {k k' : SpherepopKernel}
    (hroot : ∀ {x q}, k'.RootOf x q ↔ k.RootOf x q) (hrel : k'.relations = k.relations) :
    k'.canonicalRelations.1 = k.canonicalRelations.1 := by
  have hcan : ∀ rel, k'.canonical rel = k.canonical rel := fun rel => by
    rw [canonical, canonical, rep_congr hroot, rep_congr hroot]
  refine Std.ExtTreeSet.ext_mem fun rel => ?_
  simp only [mem_canonicalRelations, hrel, hcan]

/-- **Every event is idempotent.**  Applied a second time it leaves all that can be seen as it
was, and the second diff reports nothing. -/
theorem apply_apply (self : SpherepopKernel) (e : Event) :
    let once := self.apply e
    let twice := once.1.apply e
    (twice.1.objects = once.1.objects ∧ (∀ x, (twice.1.rep x).1 = (once.1.rep x).1) ∧
      twice.1.canonicalRelations.1 = once.1.canonicalRelations.1 ∧
      twice.1.metadata = once.1.metadata) ∧
    twice.2.objectsAdded = [] ∧ twice.2.relationsAdded = [] ∧ twice.2.relationsRemoved = [] ∧
    twice.2.equivalencesChanged = [] := by
  intro once twice
  have h : once.1.Idle twice := self.idle_apply_apply e
  exact ⟨⟨h.objects, rep_congr h.rootOf, canonicalRelations_congr h.rootOf h.relations,
    h.metadata⟩, h.objectsAdded, h.relationsAdded, h.relationsRemoved, h.equivalencesChanged⟩

end SpherepopKernel

end Rustybox.Spherepop
