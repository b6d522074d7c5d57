import Rustybox.Spherepop.Events
import Rustybox.Lib.Machine

/-!
# Relations along a log

Three things the kernel says about its relation set, and where each of them ends.

*Diffs.*  `apply` returns what it changed, and the returned diffs are meant to
rebuild the relations.  They do, except that a merge takes the tuples of the
absorbed root out of the set and reports only their renamed forms: a merge that
rewrites a tuple (`DropsTuple`) is exactly a merge whose diff is wrong
(`diffs_exact_iff`).

*Normal form.*  Tuples are stored between representatives.  A link writes them so
and a merge keeps them so; a pop only makes roots.  A collapse moves roots and
leaves the tuples alone, so a collapse that absorbs an end of a tuple (`Strands`)
is exactly what breaks the normal form (`normalised_iff`).

*Unlink.*  An unlink takes one stored tuple out.  The class-level relation is gone
exactly when that tuple was the only one to stand for it (`unlink_exact`), and in
a log without a stranding collapse it always is.
-/

namespace Rustybox.Spherepop

namespace SpherepopKernel

variable {self : SpherepopKernel}

/-! ### Diffs -/

/-- The relation set with a diff laid over it. -/
def patch (relations : BTreeSet Relation) (diff : Diff) : BTreeSet Relation :=
  (relations \ Std.ExtTreeSet.ofList diff.relationsRemoved) ∪
    Std.ExtTreeSet.ofList diff.relationsAdded

theorem mem_patch {relations : BTreeSet Relation} {diff : Diff} {rel : Relation} :
    rel ∈ patch relations diff ↔
      (rel ∈ relations ∧ rel ∉ diff.relationsRemoved) ∨ rel ∈ diff.relationsAdded := by
  simp [patch]

/-- The diff of `e` says what `e` did to the relations. -/
def DiffExact (self : SpherepopKernel) (e : Event) : Prop :=
  (self.apply e).1.relations = patch self.relations (self.apply e).2

/-- The diffs of a log, in order, from a given kernel on. -/
def diffs (self : SpherepopKernel) : List Event → List Diff
  | [] => []
  | e :: events => (self.apply e).2 :: diffs (self.apply e).1 events

/-- The relation set that the diffs of a log build up from nothing. -/
def rebuilt (events : List Event) : BTreeSet Relation :=
  (new.diffs events).foldl patch ∅

/-- A merge of two classes with a stored tuple at the absorbed root. -/
def DropsTuple (self : SpherepopKernel) : Event → Prop
  | .merge o1 o2 => (self.rep o1).1 ≠ (self.rep o2).1 ∧
      ∃ rel ∈ self.relations, Incident (self.rep o2).1 rel
  | _ => False

theorem patch_empty (relations : BTreeSet Relation) : patch relations {} = relations := by
  apply Std.ExtTreeSet.ext_mem
  intro rel
  simp [mem_patch]

/-- **A merge is reported exactly** when there is nothing to rewrite. -/
theorem diffExact_merge_iff {o1 o2 : ObjectId} :
    self.DiffExact (.merge o1 o2) ↔ ¬ self.DropsTuple (.merge o1 o2) := by
  rw [DiffExact, DropsTuple, apply]
  by_cases h : (self.rep o1).1 = (self.rep o2).1
  · rw [merge_of_eq h]
    simp [h, patch_empty]
  · obtain ⟨hrel, hadd, hrem, -⟩ := merge_of_ne h
    constructor
    · rintro hex ⟨-, rel, hin, hinc⟩
      -- the tuple is gone from the set, but no diff says so
      have hpatch : rel ∈ patch self.relations (self.merge o1 o2).2 :=
        mem_patch.mpr (Or.inl ⟨hin, by rw [hrem]; simp⟩)
      rw [← hex, merge_relations h] at hpatch
      obtain ⟨old, -, rfl⟩ := hpatch
      exact not_incident_renamed h old hinc
    · intro hno
      have hnone : toRewrite (self.rep o2).1 self.relations = [] := by
        refine List.eq_nil_iff_forall_not_mem.mpr (fun rel hm => hno ⟨h, rel, ?_⟩)
        exact mem_toRewrite.mp hm
      apply Std.ExtTreeSet.ext_mem
      intro rel
      rw [mem_patch, hrel, hadd, hrem, hnone]
      simp

/-- **An event is reported exactly** unless it is a merge that rewrites a tuple. -/
theorem diffExact_iff (self : SpherepopKernel) (e : Event) :
    self.DiffExact e ↔ ¬ self.DropsTuple e := by
  cases e with
  | merge o1 o2 => exact diffExact_merge_iff
  | pop o =>
    refine iff_of_true ?_ (by simp [DropsTuple])
    apply Std.ExtTreeSet.ext_mem
    intro rel
    rw [mem_patch, apply, pop_relations, pop]
    split <;> simp
  | link o1 o2 t =>
    refine iff_of_true ?_ (by simp [DropsTuple])
    apply Std.ExtTreeSet.ext_mem
    intro rel
    rw [mem_patch, apply, link_relations, link]
    dsimp only
    simp only [rep_rep, rep_relations]
    split
    · simp
    · next hin =>
      rw [not_not] at hin
      simp only [List.not_mem_nil, not_false_eq_true, and_true, or_false]
      exact ⟨fun h => h.elim id (fun he => he ▸ hin), Or.inl⟩
  | unlink o1 o2 t =>
    refine iff_of_true ?_ (by simp [DropsTuple])
    apply Std.ExtTreeSet.ext_mem
    intro rel
    rw [mem_patch, apply, unlink_relations, unlink]
    dsimp only
    simp only [rep_rep, rep_relations]
    split
    · simp
    · next hout =>
      simp only [List.not_mem_nil, not_false_eq_true, and_true, or_false, and_iff_left_iff_imp]
      exact fun h he => hout (he ▸ h)
  | collapse members or =>
    refine iff_of_true ?_ (by simp [DropsTuple])
    apply Std.ExtTreeSet.ext_mem
    intro rel
    rw [mem_patch, apply, collapse_relations, collapse]
    simp
  | setMeta o k v =>
    refine iff_of_true ?_ (by simp [DropsTuple])
    apply Std.ExtTreeSet.ext_mem
    intro rel
    rw [mem_patch, apply, setMeta]
    simp

theorem foldl_diffs (self : SpherepopKernel) : ∀ (events : List Event) (e : Event),
    self.diffs (events ++ [e]) = self.diffs events ++ [((self.applyAll events).apply e).2] := by
  intro events
  induction events generalizing self with
  | nil => intro e; rfl
  | cons d events ih =>
    intro e
    rw [List.cons_append, diffs, ih, diffs, List.cons_append]
    rfl

theorem rebuilt_concat (events : List Event) (e : Event) :
    rebuilt (events ++ [e]) = patch (rebuilt events) ((replay events).apply e).2 := by
  rw [rebuilt, foldl_diffs, List.foldl_append]
  rfl

/-- **Diffs rebuild the relations.**  Along any log the diffs are exact at every
event if and only if no merge of the log rewrites a tuple, and then laying them
over each other gives the relation set of the replay. -/
theorem diffs_exact_iff (events : List Event) :
    ((∀ pre e, pre ++ [e] <+: events → (replay pre).DiffExact e) ↔
      ∀ pre e, pre ++ [e] <+: events → ¬ (replay pre).DropsTuple e) ∧
    ((∀ pre e, pre ++ [e] <+: events → ¬ (replay pre).DropsTuple e) →
      rebuilt events = (replay events).relations) := by
  refine ⟨forall₃_congr (fun pre e _ => diffExact_iff (replay pre) e), ?_⟩
  refine Machine.prefix_induction (Q := fun events => rebuilt events = (replay events).relations)
    (G := fun pre e => ¬ (replay pre).DropsTuple e) rfl ?_ events
  intro log e hlog hok
  have hexact : (replay log).DiffExact e := (diffExact_iff _ e).mpr hok
  rw [rebuilt_concat, replay_concat, hlog]
  exact hexact.symm

/-- A merge below an existing link: the old tuple is gone and the diff keeps it. -/
theorem merge_diff_keeps_old_tuple :
    ¬ (replay [.pop "a", .pop "b", .pop "c", .link "b" "c" "knows"]).DiffExact
        (.merge "a" "b") ∧
      rebuilt [.pop "a", .pop "b", .pop "c", .link "b" "c" "knows", .merge "a" "b"] ≠
        (replay [.pop "a", .pop "b", .pop "c", .link "b" "c" "knows", .merge "a" "b"]).relations
          := by
  constructor
  · rw [DiffExact]
    decide
  · decide

/-! ### Normal form -/

/-- Both ends of every stored tuple are their own representatives. -/
def Normalised (self : SpherepopKernel) : Prop :=
  ∀ a b t, (a, b, t) ∈ self.relations → (self.rep a).1 = a ∧ (self.rep b).1 = b

/-- A collapse that absorbs a root at which a tuple is stored. -/
def Strands (self : SpherepopKernel) : Event → Prop
  | .collapse members or => ∃ m ∈ members, (self.rep m).1 ≠ (self.rep or).1 ∧
      ∃ rel ∈ self.relations, Incident (self.rep m).1 rel
  | _ => False

theorem normalised_iff_isRoot : self.Normalised ↔
    ∀ rel ∈ self.relations, self.IsRoot rel.1 ∧ self.IsRoot rel.2.1 := by
  simp only [Normalised, rep_eq_self_iff, Prod.forall]

theorem isRoot_renamed {r1 r2 x : ObjectId} {k : SpherepopKernel} (h1 : k.IsRoot r1)
    (hx : x ≠ r2 → k.IsRoot x) : k.IsRoot (if x = r2 then r1 else x) := by
  split
  · exact h1
  · next hne => exact hx hne

theorem normalised_merge {o1 o2 : ObjectId} (h : self.Normalised) :
    (self.merge o1 o2).1.Normalised := by
  rw [normalised_iff_isRoot] at h ⊢
  by_cases he : (self.rep o1).1 = (self.rep o2).1
  · rw [merge_of_eq he]
    intro rel hrel
    have := h rel hrel
    exact ⟨isRoot_rep_iff.mpr (isRoot_rep_iff.mpr this.1),
      isRoot_rep_iff.mpr (isRoot_rep_iff.mpr this.2)⟩
  · intro rel hrel
    obtain ⟨old, hold, rfl⟩ := (merge_relations he).mp hrel
    have h1 : (self.merge o1 o2).1.IsRoot (self.rep o1).1 :=
      merge_isRoot (self.rep_isRoot o1) (fun hne => hne)
    obtain ⟨ha, hb⟩ := h old hold
    exact ⟨isRoot_renamed h1 (fun hne => merge_isRoot ha (fun _ => hne)),
      isRoot_renamed h1 (fun hne => merge_isRoot hb (fun _ => hne))⟩

theorem normalised_link {o1 o2 : ObjectId} {t : String} (h : self.Normalised) :
    (self.link o1 o2 t).1.Normalised := by
  have hroot : ∀ {x}, self.IsRoot x → (self.link o1 o2 t).1.IsRoot x := by
    intro x hx
    rw [isRoot_iff_rootOf, link_rootOf_iff]
    exact isRoot_iff_rootOf.mp hx
  rw [normalised_iff_isRoot] at h ⊢
  intro rel hrel
  rcases link_relations.mp hrel with hin | rfl
  · exact ⟨hroot (h rel hin).1, hroot (h rel hin).2⟩
  · exact ⟨hroot (self.rep_isRoot o1), hroot (self.rep_isRoot o2)⟩

theorem normalised_unlink {o1 o2 : ObjectId} {t : String} (h : self.Normalised) :
    (self.unlink o1 o2 t).1.Normalised := by
  have hroot : ∀ {x}, self.IsRoot x → (self.unlink o1 o2 t).1.IsRoot x := by
    intro x hx
    rw [isRoot_iff_rootOf, unlink_rootOf_iff]
    exact isRoot_iff_rootOf.mp hx
  rw [normalised_iff_isRoot] at h ⊢
  intro rel hrel
  have hin := (unlink_relations.mp hrel).1
  exact ⟨hroot (h rel hin).1, hroot (h rel hin).2⟩

/-- **A collapse keeps the normal form** exactly when it strands no tuple. -/
theorem normalised_collapse_iff {members : List ObjectId} {or : ObjectId} (h : self.Normalised) :
    (self.collapse members or).1.Normalised ↔ ¬ self.Strands (.collapse members or) := by
  rw [normalised_iff_isRoot] at h ⊢
  rw [collapse_relations, Strands]
  constructor
  · rintro hno ⟨m, hm, hne, rel, hrel, hinc⟩
    have hgone : ¬ (self.collapse members or).1.IsRoot (self.rep m).1 := by
      rw [collapse_isRoot_iff]
      rintro ⟨-, he | hall⟩
      · exact hne he
      · exact hall m hm rfl
    rcases hinc with ha | hb
    · exact hgone (ha ▸ (hno rel hrel).1)
    · exact hgone (hb ▸ (hno rel hrel).2)
  · intro hno rel hrel
    have hstay : ∀ x, self.IsRoot x → Incident x rel → (self.collapse members or).1.IsRoot x := by
      intro x hx hinc
      rw [collapse_isRoot_iff]
      refine ⟨hx, or_iff_not_imp_left.mpr (fun hxo m hm he => ?_)⟩
      exact hno ⟨m, hm, he ▸ hxo, rel, hrel, he ▸ hinc⟩
    exact ⟨hstay _ (h rel hrel).1 (Or.inl rfl), hstay _ (h rel hrel).2 (Or.inr rfl)⟩

/-- **One event** keeps the normal form exactly when it strands no tuple. -/
theorem normalised_apply_iff {e : Event} (h : self.Normalised) :
    (self.apply e).1.Normalised ↔ ¬ self.Strands e := by
  cases e with
  | collapse members or => exact normalised_collapse_iff h
  | merge o1 o2 => exact iff_of_true (normalised_merge h) (by simp [Strands])
  | link o1 o2 t => exact iff_of_true (normalised_link h) (by simp [Strands])
  | unlink o1 o2 t => exact iff_of_true (normalised_unlink h) (by simp [Strands])
  | setMeta o k v => exact iff_of_true h (by simp [Strands])
  | pop o =>
    refine iff_of_true ?_ (by simp [Strands])
    rw [normalised_iff_isRoot] at h ⊢
    intro rel hrel
    rw [apply, pop_relations] at hrel
    exact ⟨pop_isRoot (h rel hrel).1, pop_isRoot (h rel hrel).2⟩

theorem normalised_new : new.Normalised := by
  intro a b t h
  exact absurd h Std.ExtTreeSet.not_mem_empty

theorem normalised_of_not_strands (events : List Event)
    (h : ∀ pre e, pre ++ [e] <+: events → ¬ (replay pre).Strands e) :
    (replay events).Normalised := by
  refine Machine.prefix_induction (Q := fun pre => (replay pre).Normalised)
    (G := fun pre e => ¬ (replay pre).Strands e) normalised_new ?_ events h
  intro log e hlog hok
  rw [replay_concat]
  exact (normalised_apply_iff hlog).mpr hok

/-- **Tuples are stored between representatives** all along a log if and only if no
collapse of the log strands one. -/
theorem normalised_iff (events : List Event) :
    (∀ pre, pre <+: events → (replay pre).Normalised) ↔
      ∀ pre e, pre ++ [e] <+: events → ¬ (replay pre).Strands e := by
  refine Machine.forall_prefix_iff (Q := fun pre => (replay pre).Normalised)
    (G := fun pre e => ¬ (replay pre).Strands e) normalised_new ?_ ?_ events
  · intro log e hlog hok
    rw [replay_concat]
    exact (normalised_apply_iff hlog).mpr hok
  · intro log e hlog hnext
    rw [replay_concat] at hnext
    exact (normalised_apply_iff hlog).mp hnext

/-- A collapse above an existing link leaves the tuple at an absorbed object. -/
theorem collapse_leaves_stale_tuple : ¬ ∀ events, (replay events).Normalised := by
  intro h
  have := (h [.pop "a", .pop "b", .pop "c", .link "b" "c" "knows", .collapse ["b"] "a"]
    "b" "c" "knows" (by decide)).1
  exact absurd this (by decide)

/-! ### Unlink -/

/-- An unlink takes exactly its class-level relation out of the canonical view. -/
def UnlinkExact (self : SpherepopKernel) (o1 o2 : ObjectId) (t : String) : Prop :=
  (self.apply (.unlink o1 o2 t)).1.canonicalRelations.1 =
    self.canonicalRelations.1.erase ((self.rep o1).1, (self.rep o2).1, t)

/-- No tuple but the one between the representatives stands for the relation. -/
def OnlyTuple (self : SpherepopKernel) (o1 o2 : ObjectId) (t : String) : Prop :=
  ∀ a b, (a, b, t) ∈ self.relations → (self.rep a).1 = (self.rep o1).1 →
    (self.rep b).1 = (self.rep o2).1 → a = (self.rep o1).1 ∧ b = (self.rep o2).1

theorem unlink_canonical (o1 o2 : ObjectId) (t : String) (rel : Relation) :
    (self.unlink o1 o2 t).1.canonical rel = self.canonical rel := by
  have h : ∀ x, ((self.unlink o1 o2 t).1.rep x).1 = (self.rep x).1 := rep_congr unlink_rootOf_iff
  rw [canonical, canonical, h, h]

theorem unlinkExact_iff {o1 o2 : ObjectId} {t : String} :
    self.UnlinkExact o1 o2 t ↔ self.OnlyTuple o1 o2 t := by
  have hgoal : self.canonical ((self.rep o1).1, (self.rep o2).1, t) =
      ((self.rep o1).1, (self.rep o2).1, t) := by
    simp only [canonical, rep_eq_self_iff.mpr (self.rep_isRoot _)]
  constructor
  · intro hex a b hin ha hb
    by_contra hne
    have hmem : ((self.rep o1).1, (self.rep o2).1, t) ∈
        (self.apply (.unlink o1 o2 t)).1.canonicalRelations.1 := by
      refine mem_canonicalRelations.mpr ⟨(a, b, t), ?_, ?_⟩
      · refine unlink_relations.mpr ⟨hin, fun he => hne ?_⟩
        simp only [Prod.mk.injEq] at he
        exact ⟨he.1, he.2.1⟩
      · rw [apply, unlink_canonical, canonical, ha, hb]
    rw [hex] at hmem
    exact (mem_erase_iff.mp hmem).2 rfl
  · intro honly
    apply Std.ExtTreeSet.ext_mem
    intro rel
    rw [mem_erase_iff, mem_canonicalRelations, mem_canonicalRelations]
    simp only [apply, unlink_canonical, unlink_relations]
    constructor
    · rintro ⟨old, ⟨hin, hne⟩, rfl⟩
      refine ⟨⟨old, hin, rfl⟩, fun he => hne ?_⟩
      obtain ⟨a, b, s⟩ := old
      simp only [canonical, Prod.mk.injEq] at he
      obtain ⟨ha, hb, rfl⟩ := he
      obtain ⟨rfl, rfl⟩ := honly a b hin ha hb
      rfl
    · rintro ⟨⟨old, hin, rfl⟩, hne⟩
      exact ⟨old, ⟨hin, fun he => hne (he ▸ hgoal)⟩, rfl⟩

theorem onlyTuple_of_normalised (h : self.Normalised) (o1 o2 : ObjectId) (t : String) :
    self.OnlyTuple o1 o2 t := by
  intro a b hin ha hb
  obtain ⟨ha', hb'⟩ := h a b t hin
  exact ⟨ha'.symm.trans ha, hb'.symm.trans hb⟩

/-- **An unlink unlinks** exactly when no stale tuple stands for the same relation;
in a log whose collapses strand no tuple it always does. -/
theorem unlink_exact (events : List Event) :
    (∀ o1 o2 t, (replay events).UnlinkExact o1 o2 t ↔ (replay events).OnlyTuple o1 o2 t) ∧
    ((∀ pre e, pre ++ [e] <+: events → ¬ (replay pre).Strands e) →
      ∀ pre, pre <+: events → ∀ o1 o2 t, (replay pre).UnlinkExact o1 o2 t) := by
  refine ⟨fun o1 o2 t => unlinkExact_iff, ?_⟩
  intro hclean pre hpre o1 o2 t
  have hpre' := normalised_of_not_strands pre (fun init e he => hclean init e (he.trans hpre))
  exact unlinkExact_iff.mpr (onlyTuple_of_normalised hpre' o1 o2 t)

/-- After a collapse the relation of the class outlives its unlink. -/
theorem unlink_misses_stale_tuple :
    ¬ (replay [.pop "a", .pop "b", .pop "c", .link "b" "c" "knows",
      .collapse ["b"] "a"]).UnlinkExact "a" "c" "knows" := by
  rw [UnlinkExact]
  decide

end SpherepopKernel

end Rustybox.Spherepop
