import Mathlib
import Rustybox.Lib.Forest

/-!
# The spherepop kernel

`modern/spherepop.rs` replays a log of events into a state of four parts: the
objects that were popped, the parent pointers of a union-find, a set of typed
relations, and metadata.  This file is that state machine as the source has it:
`rep` with its path compression, `apply` with the diff it returns, `replay`, and
the two canonical views the applet prints.

`BTreeSet` and `BTreeMap` are the ordered sets and maps of the standard library,
which iterate in the order of their keys as Rust's do, so the loops of `apply`
run in the source's order.

The source's `rep` is a `loop` that ends only if the pointers do not run in a
circle.  Its fields are private, so a kernel is only ever made by `new`, `apply`
and `rep`; that none of these makes a circle is the field `acyclic` here, and it
is what gives the loop its end (`find_isSome`).
-/

namespace Rustybox.Spherepop

abbrev ObjectId := String

abbrev Relation := ObjectId × ObjectId × String

/-- The tuples of the relation set are ordered as Rust orders them, entry by entry. -/
instance instOrdRelation : Ord Relation := @lexOrd _ _ _ lexOrd

instance instTransOrdRelation : Std.TransOrd Relation :=
  inferInstanceAs (@Std.TransOrd (ObjectId × ObjectId × String) (@lexOrd _ _ _ lexOrd))

instance instLawfulEqOrdRelation : Std.LawfulEqOrd Relation :=
  inferInstanceAs (@Std.LawfulEqOrd (ObjectId × ObjectId × String) (@lexOrd _ _ _ lexOrd))

abbrev BTreeSet (α : Type) [Ord α] := Std.ExtTreeSet α compare

abbrev BTreeMap (α β : Type) [Ord α] := Std.ExtTreeMap α β compare

inductive Event
  | pop (o : ObjectId)
  | merge (o1 o2 : ObjectId)
  | link (o1 o2 : ObjectId) (t : String)
  | unlink (o1 o2 : ObjectId) (t : String)
  | collapse (members : List ObjectId) (or : ObjectId)
  | setMeta (o : ObjectId) (k v : String)
  deriving DecidableEq

/-- What one event changed, as `apply` reports it. -/
structure Diff where
  objectsAdded : List ObjectId := []
  relationsAdded : List Relation := []
  relationsRemoved : List Relation := []
  equivalencesChanged : List (ObjectId × ObjectId) := []
  metadataSet : List (ObjectId × String × String) := []
  deriving DecidableEq

section Sets

variable {s : BTreeSet Relation} {x y : Relation}

theorem mem_insert_iff : y ∈ s.insert x ↔ y ∈ s ∨ y = x := by
  rw [Std.ExtTreeSet.mem_insert, Std.LawfulEqCmp.compare_eq_iff_eq, or_comm, @eq_comm _ x y]

theorem mem_erase_iff : y ∈ s.erase x ↔ y ∈ s ∧ y ≠ x := by
  rw [Std.ExtTreeSet.mem_erase, Ne, Std.LawfulEqCmp.compare_eq_iff_eq, and_comm, @eq_comm _ x y]

end Sets

/-- The pointers as a function, for the library. -/
def pointers (m : BTreeMap ObjectId ObjectId) : ObjectId → Option ObjectId := fun o => m[o]?

theorem pointers_insert (m : BTreeMap ObjectId ObjectId) (c r : ObjectId) :
    pointers (m.insert c r) = Forest.redirect (pointers m) c r := by
  funext x
  rw [pointers, Std.ExtTreeMap.getElem?_insert, Forest.redirect, Function.update_apply]
  simp only [Std.LawfulEqCmp.compare_eq_iff_eq, @eq_comm _ c x, pointers]

theorem up_pointers_mem {m : BTreeMap ObjectId ObjectId} {o : ObjectId}
    (h : Forest.up (pointers m) o ≠ none) : o ∈ m.keys.toFinset := by
  rw [List.mem_toFinset, Std.ExtTreeMap.mem_keys]
  by_contra hn
  apply h
  rw [Forest.up, pointers, Std.ExtTreeMap.getElem?_eq_none hn]

/-- **The loop of `rep` comes back** on pointers without a circle, within as many
steps as there are pointers. -/
theorem find_isSome {m : BTreeMap ObjectId ObjectId} (h : Forest.Acyclic (pointers m))
    (o : ObjectId) : (Forest.climb (pointers m) m.size o []).isSome := by
  refine Forest.climb_isSome h m.size o [] m.keys.toFinset (fun y _ hy => up_pointers_mem hy) ?_
  rw [← Std.ExtTreeMap.length_keys]
  exact m.keys.toFinset_card_le

structure SpherepopKernel where
  objects : BTreeSet ObjectId
  parent : BTreeMap ObjectId ObjectId
  relations : BTreeSet Relation
  metadata : BTreeMap ObjectId (BTreeMap String String)
  acyclic : Forest.Acyclic (pointers parent)

namespace SpherepopKernel

/-! ### Representatives -/

/-- `r` is the root above `o`. -/
def RootOf (self : SpherepopKernel) (o r : ObjectId) : Prop :=
  Forest.RootOf (pointers self.parent) o r

def IsRoot (self : SpherepopKernel) (o : ObjectId) : Prop :=
  Forest.up (pointers self.parent) o = none

/-- The first half of `rep`: the root, and the nodes on the way to it. -/
def find (self : SpherepopKernel) (o : ObjectId) : ObjectId × List ObjectId :=
  (Forest.climb (pointers self.parent) self.parent.size o []).get (find_isSome self.acyclic o)

theorem find_spec (self : SpherepopKernel) (o : ObjectId) :
    self.RootOf o (self.find o).1 ∧ ∀ x ∈ (self.find o).2, self.RootOf x (self.find o).1 := by
  have hclimb : Forest.climb (pointers self.parent) self.parent.size o [] =
      some ((self.find o).1, (self.find o).2) := by simp [find]
  have h := Forest.climb_spec self.parent.size o [] hclimb
  exact ⟨h.1, fun x hx => (h.2 x hx).resolve_left (by simp)⟩

/-- Point every node of a path at `r`. -/
def compress (r : ObjectId) (m : BTreeMap ObjectId ObjectId) (path : List ObjectId) :
    BTreeMap ObjectId ObjectId :=
  path.foldl (fun m node => m.insert node r) m

/-- **Path compression** keeps the pointers free of circles, and keeps every root. -/
theorem compress_spec (r : ObjectId) : ∀ (path : List ObjectId) (m : BTreeMap ObjectId ObjectId),
    Forest.Acyclic (pointers m) → (∀ x ∈ path, Forest.RootOf (pointers m) x r) →
      Forest.Acyclic (pointers (compress r m path)) ∧
        ∀ x q, Forest.RootOf (pointers m) x q → Forest.RootOf (pointers (compress r m path)) x q := by
  intro path
  induction path with
  | nil => intro m h _; exact ⟨h, fun _ _ hx => hx⟩
  | cons c path ih =>
    intro m h hpath
    have hc : Forest.RootOf (pointers m) c r := hpath c List.mem_cons_self
    have hkeep : ∀ x q, Forest.RootOf (pointers m) x q →
        Forest.RootOf (pointers (m.insert c r)) x q := by
      intro x q hx
      rw [pointers_insert]
      exact Forest.rootOf_redirect_root hc hx
    have hac : Forest.Acyclic (pointers (m.insert c r)) := by
      rw [pointers_insert]
      exact Forest.acyclic_redirect h (Or.inl hc.2)
    obtain ⟨h1, h2⟩ := ih (m.insert c r) hac
      (fun x hx => hkeep x r (hpath x (List.mem_cons_of_mem _ hx)))
    exact ⟨h1, fun x q hx => h2 x q (hkeep x q hx)⟩

/-- The representative of `o`, with path compression. -/
def rep (self : SpherepopKernel) (o : ObjectId) : ObjectId × SpherepopKernel :=
  ((self.find o).1,
    { self with
      parent := compress (self.find o).1 self.parent (self.find o).2
      acyclic := (compress_spec _ _ _ self.acyclic (self.find_spec o).2).1 })

section Rep

variable (self : SpherepopKernel) (o : ObjectId)

@[simp] theorem rep_objects : (self.rep o).2.objects = self.objects := rfl
@[simp] theorem rep_relations : (self.rep o).2.relations = self.relations := rfl
@[simp] theorem rep_metadata : (self.rep o).2.metadata = self.metadata := rfl

theorem rep_rootOf : self.RootOf o (self.rep o).1 := (self.find_spec o).1

/-- **Asking for a representative changes none of them.** -/
theorem rootOf_rep_iff {x q : ObjectId} : (self.rep o).2.RootOf x q ↔ self.RootOf x q := by
  have hkeep := (compress_spec _ _ _ self.acyclic (self.find_spec o).2).2
  constructor
  · intro h
    obtain ⟨q', hq'⟩ := Forest.exists_rootOf self.acyclic x
    exact Forest.rootOf_unique (hkeep x q' hq') h ▸ hq'
  · exact hkeep x q

end Rep

theorem isRoot_iff_rootOf {self : SpherepopKernel} {o : ObjectId} :
    self.IsRoot o ↔ self.RootOf o o := ⟨Forest.rootOf_self, fun h => h.2⟩

theorem isRoot_rep_iff {self : SpherepopKernel} {o x : ObjectId} :
    (self.rep o).2.IsRoot x ↔ self.IsRoot x := by
  rw [isRoot_iff_rootOf, isRoot_iff_rootOf, rootOf_rep_iff]

theorem rep_isRoot (self : SpherepopKernel) (o : ObjectId) : self.IsRoot (self.rep o).1 :=
  (self.rep_rootOf o).2

theorem rep_eq_iff {self : SpherepopKernel} {o r : ObjectId} :
    (self.rep o).1 = r ↔ self.RootOf o r :=
  ⟨fun h => h ▸ self.rep_rootOf o, fun h => Forest.rootOf_unique (self.rep_rootOf o) h⟩

theorem rep_eq_self_iff {self : SpherepopKernel} {o : ObjectId} :
    (self.rep o).1 = o ↔ self.IsRoot o := by rw [rep_eq_iff, isRoot_iff_rootOf]

theorem rep_congr {k k' : SpherepopKernel} (h : ∀ {x q}, k'.RootOf x q ↔ k.RootOf x q)
    (x : ObjectId) : (k'.rep x).1 = (k.rep x).1 := rep_eq_iff.mpr (h.mpr (k.rep_rootOf x))

@[simp] theorem rep_rep (self : SpherepopKernel) (o x : ObjectId) :
    ((self.rep o).2.rep x).1 = (self.rep x).1 :=
  rep_congr (fun {_ _} => self.rootOf_rep_iff o) x

/-- Write one pointer, at a root or at the node itself. -/
def setParent (self : SpherepopKernel) (c r : ObjectId) (h : self.IsRoot r ∨ r = c) :
    SpherepopKernel :=
  { self with
    parent := self.parent.insert c r
    acyclic := by rw [pointers_insert]; exact Forest.acyclic_redirect self.acyclic h }

/-! ### The transition function -/

def new : SpherepopKernel where
  objects := ∅
  parent := ∅
  relations := ∅
  metadata := ∅
  acyclic := ⟨fun x => ⟨x, fun y hy => by simp [Forest.Edge, Forest.up, pointers] at hy⟩⟩

def pop (self : SpherepopKernel) (o : ObjectId) : SpherepopKernel × Diff :=
  if o ∉ self.objects then
    ({ self.setParent o o (Or.inr rfl) with objects := self.objects.insert o },
      { objectsAdded := [o] })
  else (self, {})

/-- The tuple with `r2` replaced by `r1`. -/
def renamed (r1 r2 : ObjectId) (old : Relation) : Relation :=
  (if old.1 = r2 then r1 else old.1, if old.2.1 = r2 then r1 else old.2.1, old.2.2)

/-- One round of the rewriting loop of `Event::Merge`: the relation set, and what
has been reported as added. -/
def rewriteOne (r1 r2 : ObjectId) (acc : BTreeSet Relation × List Relation) (old : Relation) :
    BTreeSet Relation × List Relation :=
  if renamed r1 r2 old ∈ acc.1.erase old then (acc.1.erase old, acc.2)
  else ((acc.1.erase old).insert (renamed r1 r2 old), acc.2 ++ [renamed r1 r2 old])

/-- The tuples that `Event::Merge` rewrites. -/
def toRewrite (r2 : ObjectId) (relations : BTreeSet Relation) : List Relation :=
  relations.toList.filter fun (a, b, _) => a = r2 ∨ b = r2

def merge (self : SpherepopKernel) (o1 o2 : ObjectId) : SpherepopKernel × Diff :=
  let s1 := self.rep o1
  let s2 := s1.2.rep o2
  if s1.1 ≠ s2.1 then
    let rewritten := (toRewrite s2.1 s2.2.relations).foldl (rewriteOne s1.1 s2.1)
      (s2.2.relations, [])
    ({ s2.2.setParent s2.1 s1.1 (Or.inl (isRoot_rep_iff.mpr (isRoot_rep_iff.mpr
        (self.rep_isRoot o1)))) with relations := rewritten.1 },
      { relationsAdded := rewritten.2, equivalencesChanged := [(s2.1, s1.1)] })
  else (s2.2, {})

def link (self : SpherepopKernel) (o1 o2 : ObjectId) (t : String) : SpherepopKernel × Diff :=
  let s1 := self.rep o1
  let s2 := s1.2.rep o2
  let rel : Relation := (s1.1, s2.1, t)
  if rel ∉ s2.2.relations then
    ({ s2.2 with relations := s2.2.relations.insert rel }, { relationsAdded := [rel] })
  else (s2.2, {})

def unlink (self : SpherepopKernel) (o1 o2 : ObjectId) (t : String) : SpherepopKernel × Diff :=
  let s1 := self.rep o1
  let s2 := s1.2.rep o2
  let rel : Relation := (s1.1, s2.1, t)
  if rel ∈ s2.2.relations then
    ({ s2.2 with relations := s2.2.relations.erase rel }, { relationsRemoved := [rel] })
  else (s2.2, {})

/-- The loop of `Event::Collapse` over the members; `target` is a root all along. -/
def collapseLoop (target : ObjectId) : (self : SpherepopKernel) → self.IsRoot target →
    List ObjectId → SpherepopKernel × List (ObjectId × ObjectId)
  | self, _, [] => (self, [])
  | self, h, m :: members =>
    let rm := self.rep m
    if hne : rm.1 ≠ target then
      let rest := collapseLoop target (rm.2.setParent rm.1 target (Or.inl (isRoot_rep_iff.mpr h)))
        (by
          rw [IsRoot, setParent, pointers_insert]
          exact Forest.up_redirect_eq_none (isRoot_rep_iff.mpr h) (Or.inl hne.symm))
        members
      (rest.1, (rm.1, target) :: rest.2)
    else collapseLoop target rm.2 (isRoot_rep_iff.mpr h) members

def collapse (self : SpherepopKernel) (members : List ObjectId) (or : ObjectId) :
    SpherepopKernel × Diff :=
  let target := self.rep or
  let res := collapseLoop target.1 target.2 (isRoot_rep_iff.mpr (self.rep_isRoot or)) members
  (res.1, { equivalencesChanged := res.2 })

def setMeta (self : SpherepopKernel) (o : ObjectId) (k v : String) : SpherepopKernel × Diff :=
  ({ self with metadata := self.metadata.insert o (((self.metadata[o]?).getD ∅).insert k v) },
    { metadataSet := [(o, k, v)] })

/-- The kernel transition function, with the diff of the one event. -/
def apply (self : SpherepopKernel) : Event → SpherepopKernel × Diff
  | .pop o => self.pop o
  | .merge o1 o2 => self.merge o1 o2
  | .link o1 o2 t => self.link o1 o2 t
  | .unlink o1 o2 t => self.unlink o1 o2 t
  | .collapse members or => self.collapse members or
  | .setMeta o k v => self.setMeta o k v

/-- Apply a list of events, one after the other. -/
def applyAll (self : SpherepopKernel) (events : List Event) : SpherepopKernel :=
  events.foldl (fun k e => (k.apply e).1) self

/-- Replay a log from the empty kernel. -/
def replay (events : List Event) : SpherepopKernel := new.applyAll events

@[simp] theorem replay_nil : replay [] = new := rfl

theorem replay_concat (events : List Event) (e : Event) :
    replay (events ++ [e]) = ((replay events).apply e).1 := by
  rw [replay, applyAll, List.foldl_append]
  rfl

/-! ### The canonical views -/

/-- One tuple with both ends replaced by their representatives.  The source asks
`rep` for one end after the other, and each answer compresses. -/
def canonicalOne (acc : BTreeSet Relation × SpherepopKernel) (rel : Relation) :
    BTreeSet Relation × SpherepopKernel :=
  let ra := acc.2.rep rel.1
  let rb := ra.2.rep rel.2.1
  (acc.1.insert (ra.1, rb.1, rel.2.2), rb.2)

/-- The relations, class by class. -/
def canonicalRelations (self : SpherepopKernel) : BTreeSet Relation × SpherepopKernel :=
  self.relations.toList.foldl canonicalOne (∅, self)

end SpherepopKernel

end Rustybox.Spherepop
