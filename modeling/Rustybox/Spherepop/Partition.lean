import Rustybox.Spherepop.Events
import Rustybox.Lib.Machine

/-!
# The partition along a log

`rep` cuts the ids into classes, and a log says which classes there should be: the
finest ones that put together `o1` and `o2` for every merge and each member with
the target for every collapse.  On the lattice of partitions an event that joins
is a supremum (`partition_merge`, `partition_collapse`), so a log without a split
has the partition that its pairs generate.

The one event that splits is a pop.  It writes `parent[o] = o` for every object it
sees for the first time, and `o` may by then hang below another root, because
merges and collapses take ids that were never popped.  `Splits` is that case, and
`partition_stated_iff` says it is the only one.

Merges, collapses and links never split, so the classes they end with do not
depend on their order, and neither do the relations between the classes, although
the representatives and the stored tuples do (`confluence`).
-/

namespace Rustybox.Spherepop

/-- The pairs of ids that an event puts together. -/
def Event.pairs : Event → List (ObjectId × ObjectId)
  | .merge o1 o2 => [(o1, o2)]
  | .collapse members or => members.map fun m => (m, or)
  | _ => []

/-- The pairs of a log. -/
def Stated (events : List Event) (x y : ObjectId) : Prop := ∃ e ∈ events, (x, y) ∈ e.pairs

def stated (events : List Event) : Setoid ObjectId := Relation.EqvGen.setoid (Stated events)

namespace SpherepopKernel

variable {self : SpherepopKernel}

/-- The classes of `rep`. -/
def partition (self : SpherepopKernel) : Setoid ObjectId :=
  Forest.classes (pointers self.parent) self.acyclic

theorem partition_iff_rep {x y : ObjectId} :
    self.partition x y ↔ (self.rep x).1 = (self.rep y).1 := by
  constructor
  · rintro ⟨r, hx, hy⟩
    rw [rep_eq_iff.mpr hx, rep_eq_iff.mpr hy]
  · intro h
    exact ⟨_, self.rep_rootOf x, h ▸ self.rep_rootOf y⟩

theorem partition_congr {k k' : SpherepopKernel} (h : ∀ {x q}, k'.RootOf x q ↔ k.RootOf x q) :
    k'.partition = k.partition :=
  Forest.classes_congr k.acyclic k'.acyclic (fun _ _ hx => h.mpr hx)

theorem partition_rep (self : SpherepopKernel) (o : ObjectId) :
    (self.rep o).2.partition = self.partition := partition_congr (self.rootOf_rep_iff o)

theorem partition_rep_fst (self : SpherepopKernel) (o : ObjectId) :
    self.partition (self.rep o).1 o :=
  partition_iff_rep.mpr (rep_eq_self_iff.mpr (self.rep_isRoot o))

/-! ### Events on the partition -/

theorem partition_of_insert {k : SpherepopKernel} {x y r s : ObjectId} (hx : self.RootOf x r)
    (hy : self.RootOf y s) (hne : s ≠ r) (hk : k.parent = self.parent.insert s r) :
    k.partition = self.partition ⊔ Forest.pair x y := by
  have hp : pointers k.parent = Forest.redirect (pointers self.parent) s r := by
    rw [hk, pointers_insert]
  have hac : Forest.Acyclic (Forest.redirect (pointers self.parent) s r) := hp ▸ k.acyclic
  rw [partition, partition, ← Forest.classes_redirect_link self.acyclic hx hy hne hac]
  congr 1

/-- **A merge is the supremum with its pair.** -/
theorem partition_merge (self : SpherepopKernel) (o1 o2 : ObjectId) :
    (self.merge o1 o2).1.partition = self.partition ⊔ Forest.pair o1 o2 := by
  have hrep : ((self.rep o1).2.rep o2).2.partition = self.partition := by
    rw [partition_rep, partition_rep]
  have hroot : ∀ x, ((self.rep o1).2.rep o2).2.RootOf x (self.rep x).1 := fun x =>
    (rootOf_rep_iff _ _).mpr ((rootOf_rep_iff _ _).mpr (self.rep_rootOf x))
  by_cases h : (self.rep o1).1 = (self.rep o2).1
  · rw [merge_of_eq h, hrep, sup_eq_left.mpr (Forest.pair_le (partition_iff_rep.mpr h))]
  · rw [partition_of_insert (hroot o1) (hroot o2) (Ne.symm h) (merge_of_ne h).2.2.2, hrep]

/-- The pairs of the members that the loop of a collapse has still to visit. -/
def memberPairs (members : List ObjectId) (or : ObjectId) : Setoid ObjectId :=
  Relation.EqvGen.setoid fun x y => x ∈ members ∧ y = or

theorem memberPairs_le {members : List ObjectId} {or : ObjectId} {s : Setoid ObjectId}
    (h : ∀ m ∈ members, s m or) : memberPairs members or ≤ s :=
  Setoid.eqvGen_le (by rintro x y ⟨hx, rfl⟩; exact h x hx)

theorem memberPairs_rel {members : List ObjectId} {or m : ObjectId} (h : m ∈ members) :
    memberPairs members or m or := Relation.EqvGen.rel m or ⟨h, rfl⟩

theorem memberPairs_cons (m : ObjectId) (members : List ObjectId) (or : ObjectId) :
    memberPairs (m :: members) or = Forest.pair or m ⊔ memberPairs members or := by
  apply le_antisymm
  · refine memberPairs_le (fun x hx => ?_)
    rcases List.mem_cons.mp hx with rfl | hx
    · exact (le_sup_left : Forest.pair or x ≤ _) (Setoid.symm' _ (Forest.pair_rel or x))
    · exact (le_sup_right : memberPairs members or ≤ _) (memberPairs_rel hx)
  · refine sup_le (Forest.pair_le (Setoid.symm' _ (memberPairs_rel List.mem_cons_self))) ?_
    exact memberPairs_le (fun x hx => memberPairs_rel (List.mem_cons_of_mem _ hx))

theorem partition_collapseLoop (or : ObjectId) : ∀ (members : List ObjectId)
    (self : SpherepopKernel) (target : ObjectId) (h : self.IsRoot target), self.RootOf or target →
      (collapseLoop target self h members).1.partition =
        self.partition ⊔ memberPairs members or := by
  intro members
  induction members with
  | nil =>
    intro self target h _
    rw [collapseLoop, sup_eq_left.mpr (memberPairs_le (by simp))]
  | cons m members ih =>
    intro self target h hor
    have hm : (self.rep m).2.RootOf m (self.rep m).1 :=
      (rootOf_rep_iff _ _).mpr (self.rep_rootOf m)
    have hor' : (self.rep m).2.RootOf or target := (rootOf_rep_iff _ _).mpr hor
    rw [collapseLoop, memberPairs_cons, ← sup_assoc]
    dsimp only
    by_cases hne : (self.rep m).1 = target
    · have hpair : self.partition or m :=
        partition_iff_rep.mpr ((rep_eq_iff.mpr hor).trans hne.symm)
      rw [dif_neg (not_not.mpr hne), ih _ _ _ hor', partition_rep,
        sup_eq_left.mpr (Forest.pair_le hpair)]
    · have hlink := rootOf_setParent_link (h := Or.inl (isRoot_rep_iff.mpr h))
        (isRoot_rep_iff.mpr (self.rep_isRoot m)) (isRoot_rep_iff.mpr h) hne hor'
      rw [if_neg (Ne.symm hne)] at hlink
      rw [dif_pos hne, ih _ _ _ hlink, partition_of_insert hor' hm hne rfl, partition_rep]

/-- **A collapse is the supremum with the pairs of its members.** -/
theorem partition_collapse (self : SpherepopKernel) (members : List ObjectId) (or : ObjectId) :
    (self.collapse members or).1.partition = self.partition ⊔ memberPairs members or := by
  rw [collapse]
  dsimp only
  rw [partition_collapseLoop or members (self.rep or).2 (self.rep or).1 _
    ((rootOf_rep_iff _ _).mpr (self.rep_rootOf or)), partition_rep]

/-- A pop of an object that hangs below another one and was never popped. -/
def Splits (self : SpherepopKernel) : Event → Prop
  | .pop o => o ∉ self.objects ∧ (self.rep o).1 ≠ o
  | _ => False

/-- **An event that does not split** adds its pairs to the partition and nothing else. -/
theorem partition_apply {e : Event} (h : ¬ self.Splits e) :
    (self.apply e).1.partition = self.partition ⊔ stated [e] := by
  have hnone : e.pairs = [] → stated [e] = ⊥ := by
    intro hp
    refine eq_bot_iff.mpr (Setoid.eqvGen_le ?_)
    rintro x y ⟨d, hd, hxy⟩
    rw [List.mem_singleton.mp hd, hp] at hxy
    exact absurd hxy (by simp)
  cases e with
  | merge o1 o2 =>
    rw [apply, partition_merge, stated, Forest.pair]
    congr 2
    funext x y
    simp [Stated, Event.pairs]
  | collapse members or =>
    rw [apply, partition_collapse, stated, memberPairs]
    congr 2
    funext x y
    simp [Stated, Event.pairs, eq_comm]
  | pop o =>
    rw [Splits, not_and_or, not_not, not_not, rep_eq_self_iff] at h
    rw [hnone rfl, sup_bot_eq, apply, partition_congr (pop_rootOf_iff h)]
  | link o1 o2 t => rw [hnone rfl, sup_bot_eq, apply, partition_congr link_rootOf_iff]
  | unlink o1 o2 t => rw [hnone rfl, sup_bot_eq, apply, partition_congr unlink_rootOf_iff]
  | setMeta o k v =>
    rw [hnone rfl, sup_bot_eq]
    rfl

/-! ### The partition of a log -/

theorem stated_append (log log' : List Event) :
    stated (log ++ log') = stated log ⊔ stated log' := by
  apply le_antisymm
  · refine Setoid.eqvGen_le ?_
    rintro x y ⟨e, he, hxy⟩
    rcases List.mem_append.mp he with h | h
    · exact (le_sup_left : stated log ≤ _) (Relation.EqvGen.rel x y ⟨e, h, hxy⟩)
    · exact (le_sup_right : stated log' ≤ _) (Relation.EqvGen.rel x y ⟨e, h, hxy⟩)
  · refine sup_le (Setoid.eqvGen_mono ?_) (Setoid.eqvGen_mono ?_)
    · rintro x y ⟨e, he, hxy⟩
      exact ⟨e, List.mem_append_left _ he, hxy⟩
    · rintro x y ⟨e, he, hxy⟩
      exact ⟨e, List.mem_append_right _ he, hxy⟩

theorem partition_new : new.partition = ⊥ := by
  refine eq_bot_iff.mpr ?_
  intro x y h
  have hroot : ∀ z, new.IsRoot z := fun z => by simp [IsRoot, Forest.up, pointers, new]
  rw [partition_iff_rep, rep_eq_self_iff.mpr (hroot x), rep_eq_self_iff.mpr (hroot y)] at h
  exact h

/-- The classes of the replay are those the log states. -/
def PartitionStated (events : List Event) : Prop :=
  ∀ x y, ((replay events).rep x).1 = ((replay events).rep y).1 ↔
    Relation.EqvGen (Stated events) x y

theorem partitionStated_iff {events : List Event} :
    PartitionStated events ↔ (replay events).partition = stated events := by
  rw [PartitionStated, Setoid.ext_iff]
  exact forall₂_congr (fun x y => iff_congr partition_iff_rep.symm Iff.rfl)

/-- After a split the popped object and its former root are apart. -/
theorem not_partition_of_splits {o : ObjectId} (h : self.Splits (.pop o)) :
    ¬ (self.apply (.pop o)).1.partition o (self.rep o).1 := by
  have h1 : ((self.apply (.pop o)).1.rep o).1 = o := rep_eq_self_iff.mpr (pop_isRoot_self h.1)
  have h2 : ((self.apply (.pop o)).1.rep (self.rep o).1).1 = (self.rep o).1 :=
    rep_eq_self_iff.mpr (pop_isRoot (self.rep_isRoot o))
  rw [partition_iff_rep, h1, h2]
  exact fun he => h.2 he.symm

/-- **The partition is the one the log states**, all along a log, if and only if no
pop of the log splits a class. -/
theorem partition_stated_iff (events : List Event) :
    (∀ pre, pre <+: events → PartitionStated pre) ↔
      ∀ pre e, pre ++ [e] <+: events → ¬ (replay pre).Splits e := by
  refine Machine.forall_prefix_iff (Q := PartitionStated)
    (G := fun pre e => ¬ (replay pre).Splits e) ?_ ?_ ?_ events
  · rw [partitionStated_iff, replay_nil, partition_new]
    exact (eq_bot_iff.mpr (Setoid.eqvGen_le (by rintro x y ⟨e, he, -⟩; simp at he))).symm
  · intro log e hlog hok
    rw [partitionStated_iff] at hlog ⊢
    rw [replay_concat, partition_apply hok, hlog, stated_append]
  · intro log e hlog hnext hsplit
    rw [partitionStated_iff] at hlog hnext
    cases e with
    | pop o =>
      -- the log still states the pair that the pop has taken apart
      have hpair : stated (log ++ [.pop o]) o ((replay log).rep o).1 := by
        rw [stated_append, ← hlog]
        exact (le_sup_left : (replay log).partition ≤ _)
          (Setoid.symm' _ (partition_rep_fst (replay log) o))
      rw [← hnext, replay_concat] at hpair
      exact not_partition_of_splits hsplit hpair
    | _ => exact hsplit

/-- A pop after the merge of the same object splits it off again. -/
theorem pop_splits_class : ¬ ∀ events, PartitionStated events := by
  intro h
  have := (h [.pop "a", .merge "a" "b", .pop "b"] "a" "b").mpr
    (Relation.EqvGen.rel "a" "b" ⟨.merge "a" "b", by simp, by simp [Event.pairs]⟩)
  exact absurd this (by decide)

/-! ### Confluence -/

/-- Merges, collapses and links. -/
def Joining : Event → Prop
  | .merge _ _ | .collapse _ _ | .link _ _ _ => True
  | _ => False

theorem not_splits_of_joining {e : Event} (h : Joining e) : ¬ self.Splits e := by
  cases e <;> simp_all [Joining, Splits]

theorem partition_applyAll : ∀ (events : List Event) (self : SpherepopKernel),
    (∀ e ∈ events, Joining e) →
      (self.applyAll events).partition = self.partition ⊔ stated events := by
  intro events
  induction events with
  | nil =>
    intro self _
    have hbot : stated [] = ⊥ :=
      eq_bot_iff.mpr (Setoid.eqvGen_le (by rintro x y ⟨e, he, -⟩; simp at he))
    rw [hbot, sup_bot_eq]
    rfl
  | cons e events ih =>
    intro self h
    rw [show self.applyAll (e :: events) = (self.apply e).1.applyAll events from rfl,
      ih _ (fun d hd => h d (List.mem_cons_of_mem _ hd)),
      partition_apply (not_splits_of_joining (h e List.mem_cons_self)), sup_assoc,
      ← stated_append, List.singleton_append]

theorem stated_perm {log log' : List Event} (h : log.Perm log') : stated log = stated log' := by
  have hmem : Stated log = Stated log' := by
    funext x y
    simp only [Stated, h.mem_iff]
  rw [stated, stated, hmem]

/-- A stored tuple of type `t` between the classes of `x` and `y` under `p`. -/
def Related (p : Setoid ObjectId) (self : SpherepopKernel) (x y : ObjectId) (t : String) : Prop :=
  ∃ a b, (a, b, t) ∈ self.relations ∧ p a x ∧ p b y

/-- A link of the log between the classes of `x` and `y` under `p`. -/
def Linked (p : Setoid ObjectId) (events : List Event) (x y : ObjectId) (t : String) : Prop :=
  ∃ a b, .link a b t ∈ events ∧ p a x ∧ p b y

theorem related_of_renamed {p : Setoid ObjectId} {r1 r2 x z : ObjectId} (h : p r1 r2) :
    p (if x = r2 then r1 else x) z ↔ p x z := by
  split
  · next he =>
    subst he
    exact ⟨fun hz => p.trans' (p.symm' h) hz, fun hz => p.trans' h hz⟩
  · exact Iff.rfl

theorem merge_pair_rel (self : SpherepopKernel) (o1 o2 : ObjectId) :
    (self.merge o1 o2).1.partition (self.rep o1).1 (self.rep o2).1 := by
  rw [partition_merge]
  have hl : self.partition ≤ self.partition ⊔ Forest.pair o1 o2 := le_sup_left
  have hr : Forest.pair o1 o2 ≤ self.partition ⊔ Forest.pair o1 o2 := le_sup_right
  exact Setoid.trans' _ (hl (partition_rep_fst self o1))
    (Setoid.trans' _ (hr (Forest.pair_rel o1 o2))
      (hl (Setoid.symm' _ (partition_rep_fst self o2))))

/-- **One joining event, read through any coarser partition**: a merge and a collapse
leave the relations between the classes as they are, and a link adds its own. -/
theorem related_apply {p : Setoid ObjectId} {e : Event} (h : Joining e)
    (hp : (self.apply e).1.partition ≤ p) (x y : ObjectId) (t : String) :
    Related p (self.apply e).1 x y t ↔ Related p self x y t ∨ Linked p [e] x y t := by
  cases e with
  | pop o => exact absurd h (by simp [Joining])
  | unlink o1 o2 s => exact absurd h (by simp [Joining])
  | setMeta o k v => exact absurd h (by simp [Joining])
  | collapse members or =>
    simp [Related, Linked, apply, collapse_relations]
  | link o1 o2 s =>
    have hle : self.partition ≤ p := by
      rw [apply, partition_congr link_rootOf_iff] at hp
      exact hp
    have hrep : ∀ {o z}, p (self.rep o).1 z ↔ p o z := fun {o z} =>
      ⟨fun hz => p.trans' (p.symm' (hle (partition_rep_fst self o))) hz,
        fun hz => p.trans' (hle (partition_rep_fst self o)) hz⟩
    simp only [Related, Linked, apply, link_relations, List.mem_singleton, Event.link.injEq,
      Prod.mk.injEq]
    constructor
    · rintro ⟨a, b, hin | ⟨rfl, rfl, rfl⟩, ha, hb⟩
      · exact Or.inl ⟨a, b, hin, ha, hb⟩
      · exact Or.inr ⟨o1, o2, ⟨rfl, rfl, rfl⟩, hrep.mp ha, hrep.mp hb⟩
    · rintro (⟨a, b, hin, ha, hb⟩ | ⟨a, b, ⟨rfl, rfl, rfl⟩, ha, hb⟩)
      · exact ⟨a, b, Or.inl hin, ha, hb⟩
      · exact ⟨_, _, Or.inr ⟨rfl, rfl, rfl⟩, hrep.mpr ha, hrep.mpr hb⟩
  | merge o1 o2 =>
    have hnolink : ¬ Linked p [.merge o1 o2] x y t := by simp [Linked]
    rw [or_iff_left hnolink, apply]
    by_cases he : (self.rep o1).1 = (self.rep o2).1
    · rw [merge_of_eq he]
      exact Iff.rfl
    · have hp12 : p (self.rep o1).1 (self.rep o2).1 := hp (merge_pair_rel self o1 o2)
      simp only [Related, merge_relations he]
      constructor
      · rintro ⟨a, b, ⟨⟨a', b', t'⟩, hin, hren⟩, ha, hb⟩
        simp only [renamed, Prod.mk.injEq] at hren
        obtain ⟨rfl, rfl, rfl⟩ := hren
        exact ⟨a', b', hin, (related_of_renamed hp12).mp ha, (related_of_renamed hp12).mp hb⟩
      · rintro ⟨a, b, hin, ha, hb⟩
        exact ⟨_, _, ⟨(a, b, t), hin, rfl⟩, (related_of_renamed hp12).mpr ha,
          (related_of_renamed hp12).mpr hb⟩

theorem related_applyAll {p : Setoid ObjectId} : ∀ (events : List Event) (self : SpherepopKernel),
    (∀ e ∈ events, Joining e) → (self.applyAll events).partition ≤ p → ∀ x y t,
      Related p (self.applyAll events) x y t ↔ Related p self x y t ∨ Linked p events x y t := by
  intro events
  induction events with
  | nil => intro self _ _ x y t; simp [applyAll, Linked]
  | cons e events ih =>
    intro self h hp x y t
    have htail : ∀ d ∈ events, Joining d := fun d hd => h d (List.mem_cons_of_mem _ hd)
    -- the partition only gets coarser, so `p` is coarser than the one after `e` too
    have hstep : (self.apply e).1.partition ≤ p := by
      refine le_trans ?_ hp
      rw [show self.applyAll (e :: events) = (self.apply e).1.applyAll events from rfl,
        partition_applyAll events _ htail]
      exact le_sup_left
    rw [show self.applyAll (e :: events) = (self.apply e).1.applyAll events from rfl,
      ih _ htail hp, related_apply (h e List.mem_cons_self) hstep, or_assoc]
    refine or_congr Iff.rfl ?_
    simp only [Linked, List.mem_cons, List.not_mem_nil, or_false, ← exists_or, ← or_and_right]

def classOf (self : SpherepopKernel) (x : ObjectId) : Set ObjectId :=
  {y | (self.rep y).1 = (self.rep x).1}

/-- The relations between classes. -/
def classRelations (self : SpherepopKernel) : Set (Set ObjectId × Set ObjectId × String) :=
  {c | ∃ a b t, (a, b, t) ∈ self.relations ∧ c = (self.classOf a, self.classOf b, t)}

theorem classOf_eq_iff {x y : ObjectId} : self.classOf x = self.classOf y ↔ self.partition x y := by
  rw [partition_iff_rep]
  constructor
  · intro h
    have hx : x ∈ self.classOf x := rfl
    rw [h] at hx
    exact hx
  · intro h
    rw [classOf, classOf, h]

theorem mem_classRelations_iff {x y : ObjectId} {t : String} :
    (self.classOf x, self.classOf y, t) ∈ self.classRelations ↔
      Related self.partition self x y t := by
  constructor
  · rintro ⟨a, b, s, hin, he⟩
    simp only [Prod.mk.injEq] at he
    obtain ⟨hx, hy, rfl⟩ := he
    exact ⟨a, b, hin, classOf_eq_iff.mp hx.symm, classOf_eq_iff.mp hy.symm⟩
  · rintro ⟨a, b, hin, ha, hb⟩
    exact ⟨a, b, t, hin, by rw [classOf_eq_iff.mpr ha, classOf_eq_iff.mpr hb]⟩

/-- Kernels with one partition and one set of related classes agree on the classes. -/
theorem classRelations_subset {k k' : SpherepopKernel} (hp : k.partition = k'.partition)
    (hr : ∀ x y t, Related k.partition k x y t → Related k.partition k' x y t) :
    k.classRelations ⊆ k'.classRelations := by
  have hclass : ∀ x, k.classOf x = k'.classOf x := by
    intro x
    refine Set.ext (fun y => ?_)
    show (k.rep y).1 = (k.rep x).1 ↔ (k'.rep y).1 = (k'.rep x).1
    rw [← partition_iff_rep, ← partition_iff_rep, hp]
  rintro _ ⟨a, b, t, hin, rfl⟩
  rw [hclass, hclass]
  refine mem_classRelations_iff.mpr ?_
  rw [← hp]
  exact hr a b t ⟨a, b, hin, Setoid.refl' _ a, Setoid.refl' _ b⟩

/-- **Confluence.**  From the state of any log, merges, collapses and links in any
order give the same classes and the same relations between them. -/
theorem confluence (log events events' : List Event) (h : ∀ e ∈ events, Joining e)
    (hperm : events.Perm events') :
    (∀ x y, (((replay log).applyAll events).rep x).1 = (((replay log).applyAll events).rep y).1 ↔
      (((replay log).applyAll events').rep x).1 = (((replay log).applyAll events').rep y).1) ∧
    ((replay log).applyAll events).classRelations =
      ((replay log).applyAll events').classRelations := by
  have h' : ∀ e ∈ events', Joining e := fun e he => h e (hperm.mem_iff.mpr he)
  have hp : ((replay log).applyAll events).partition =
      ((replay log).applyAll events').partition := by
    rw [partition_applyAll events _ h, partition_applyAll events' _ h', stated_perm hperm]
  have hrel : ∀ x y t, Related ((replay log).applyAll events).partition
      ((replay log).applyAll events) x y t ↔
        Related ((replay log).applyAll events).partition ((replay log).applyAll events') x y t := by
    intro x y t
    rw [related_applyAll events _ h le_rfl, related_applyAll events' _ h' (le_of_eq hp.symm)]
    simp only [Linked, hperm.mem_iff]
  refine ⟨fun x y => ?_, Set.Subset.antisymm ?_ ?_⟩
  · rw [← partition_iff_rep, ← partition_iff_rep, hp]
  · exact classRelations_subset hp (fun x y t => (hrel x y t).mp)
  · refine classRelations_subset hp.symm (fun x y t => ?_)
    rw [← hp]
    exact (hrel x y t).mpr

/-- Two merges in both orders, after a link at the object in the middle. -/
theorem confluence_two_merges :
    (∀ e ∈ [Event.merge "a" "b", .merge "b" "c"], Joining e) ∧
    [Event.merge "a" "b", .merge "b" "c"].Perm [.merge "b" "c", .merge "a" "b"] ∧
    ((replay [.pop "a", .pop "b", .pop "c", .link "b" "d" "knows"]).applyAll
        [.merge "a" "b", .merge "b" "c"]).classRelations =
      ((replay [.pop "a", .pop "b", .pop "c", .link "b" "d" "knows"]).applyAll
        [.merge "b" "c", .merge "a" "b"]).classRelations :=
  ⟨by simp [Joining], List.Perm.swap _ _ _,
    (confluence _ _ _ (by simp [Joining]) (List.Perm.swap _ _ _)).2⟩

end SpherepopKernel

end Rustybox.Spherepop
