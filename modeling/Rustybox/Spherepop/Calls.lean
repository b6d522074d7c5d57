import Rustybox.Spherepop.Partition
import Mathlib.Order.Filter.AtTopBot.Basic

/-!
# Calls of the kernel

The kernel of `Kernel.lean` carries the acyclicity of its pointers along, so that its `rep` is a
function.  Here `rep` and `apply` stand once more without it: four fields of which nothing is
known, and a loop that may run for ever.  The loop is given so many rounds, and `none` is a loop
that has not come to its end by then.

The two levels agree (`eventually_apply`): with enough rounds every call comes back, with what the
kernel says.  So whatever calls of `apply` and `rep` have been made, the pointers run in no circle,
every further call of `rep` comes back, with a root, and no representative has changed
(`run_spec`).
-/

namespace Rustybox.Spherepop

open Filter

/-- The fields of `SpherepopKernel`, whatever they hold. -/
structure Fields where
  objects : BTreeSet ObjectId
  parent : BTreeMap ObjectId ObjectId
  relations : BTreeSet Relation
  metadata : BTreeMap ObjectId (BTreeMap String String)

/-- A call from outside. -/
inductive Call
  | apply (event : Event)
  | rep (o : ObjectId)

namespace Fields

def new : Fields where
  objects := ∅
  parent := ∅
  relations := ∅
  metadata := ∅

/-- The `loop` of `rep`. -/
def repLoop (parent : BTreeMap ObjectId ObjectId) :
    ℕ → ObjectId → List ObjectId → Option (ObjectId × List ObjectId)
  | 0, _, _ => none
  | fuel + 1, cur, path =>
    match parent[cur]? with
    | some p => if p ≠ cur then repLoop parent fuel p (path ++ [cur]) else some (cur, path)
    | none => some (cur, path)

variable (fuel : ℕ) (self : Fields)

def rep (o : ObjectId) : Option (ObjectId × Fields) := do
  let (cur, path) ← repLoop self.parent fuel o []
  return (cur, { self with parent := path.foldl (fun m node => m.insert node cur) self.parent })

/-- The loop of `Event::Collapse`. -/
def collapseLoop (target : ObjectId) :
    Fields → List ObjectId → Option (Fields × List (ObjectId × ObjectId))
  | self, [] => some (self, [])
  | self, m :: members => do
    let (rm, self) ← self.rep fuel m
    if rm ≠ target then
      let (self, changed) ←
        collapseLoop target { self with parent := self.parent.insert rm target } members
      return (self, (rm, target) :: changed)
    else collapseLoop target self members

def apply : Event → Option (Fields × Diff)
  | .pop o =>
    if o ∉ self.objects then
      some ({ self with
        objects := self.objects.insert o
        parent := self.parent.insert o o }, { objectsAdded := [o] })
    else some (self, {})
  | .merge o1 o2 => do
    let (r1, self) ← self.rep fuel o1
    let (r2, self) ← self.rep fuel o2
    if r1 ≠ r2 then
      let (relations, added) :=
        (SpherepopKernel.toRewrite r2 self.relations).foldl (SpherepopKernel.rewriteOne r1 r2)
          (self.relations, [])
      return ({ self with relations, parent := self.parent.insert r2 r1 },
        { relationsAdded := added, equivalencesChanged := [(r2, r1)] })
    else return (self, {})
  | .link o1 o2 t => do
    let (r1, self) ← self.rep fuel o1
    let (r2, self) ← self.rep fuel o2
    if (r1, r2, t) ∉ self.relations then
      return ({ self with relations := self.relations.insert (r1, r2, t) },
        { relationsAdded := [(r1, r2, t)] })
    else return (self, {})
  | .unlink o1 o2 t => do
    let (r1, self) ← self.rep fuel o1
    let (r2, self) ← self.rep fuel o2
    if (r1, r2, t) ∈ self.relations then
      return ({ self with relations := self.relations.erase (r1, r2, t) },
        { relationsRemoved := [(r1, r2, t)] })
    else return (self, {})
  | .collapse members or => do
    let (target, self) ← self.rep fuel or
    let (self, changed) ← collapseLoop fuel target self members
    return (self, { equivalencesChanged := changed })
  | .setMeta o k v =>
    some ({ self with metadata := self.metadata.insert o (((self.metadata[o]?).getD ∅).insert k v) },
      { metadataSet := [(o, k, v)] })

/-- One call; what it returns is dropped. -/
def call : Call → Option Fields
  | .apply e => (self.apply fuel e).map Prod.fst
  | .rep o => (self.rep fuel o).map Prod.snd

/-- Calls one after the other, from the empty kernel. -/
def run (calls : List Call) : Option Fields := calls.foldlM (call fuel) new

/-- From `x` a pointer leads to another id. -/
def Points (x y : ObjectId) : Prop := self.parent[x]? = some y ∧ y ≠ x

end Fields

namespace SpherepopKernel

variable (k : SpherepopKernel)

/-- What is left of the kernel without its invariant. -/
def fields : Fields where
  objects := k.objects
  parent := k.parent
  relations := k.relations
  metadata := k.metadata

@[simp] theorem fields_parent : k.fields.parent = k.parent := rfl

def call (k : SpherepopKernel) : Call → SpherepopKernel
  | .apply e => (k.apply e).1
  | .rep o => (k.rep o).2

/-! ### One level and the other -/

theorem points_iff {x y : ObjectId} : k.fields.Points x y ↔ Forest.Edge (pointers k.parent) x y := by
  rw [Fields.Points, Forest.Edge, Forest.up, pointers]
  rw [fields_parent]
  cases h : k.parent[x]? with
  | none => simp
  | some p =>
    by_cases hp : p = x
    · subst hp
      simp only [Option.some.injEq, ne_eq, not_true_eq_false, if_false, reduceCtorEq, iff_false,
        not_and, not_not]
      exact Eq.symm
    · simp only [Option.some.injEq, ne_eq, hp, not_false_eq_true, if_true]
      exact ⟨And.left, fun he => ⟨he, he ▸ hp⟩⟩

/-- The loop is the climb of the library, with one round more for the last look. -/
theorem repLoop_eq_climb (parent : BTreeMap ObjectId ObjectId) (fuel : ℕ) (cur : ObjectId)
    (path : List ObjectId) :
    Fields.repLoop parent (fuel + 1) cur path = Forest.climb (pointers parent) fuel cur path := by
  induction fuel generalizing cur path with
  | zero =>
    rw [Fields.repLoop, Forest.climb, Forest.up, pointers]
    cases parent[cur]? with
    | none => rfl
    | some p => by_cases hp : p = cur <;> simp [hp, Fields.repLoop]
  | succ fuel ih =>
    rw [Fields.repLoop, Forest.climb, Forest.up, pointers]
    cases parent[cur]? with
    | none => rfl
    | some p =>
      by_cases hp : p = cur
      · simp [hp]
      · simp [hp, ih]

/-- **With more rounds than there are pointers `rep` comes back.** -/
theorem fields_rep {fuel : ℕ} (h : k.parent.size < fuel) (o : ObjectId) :
    k.fields.rep fuel o = some ((k.rep o).1, (k.rep o).2.fields) := by
  obtain ⟨n, rfl⟩ : ∃ n, fuel = k.parent.size + n + 1 := ⟨fuel - k.parent.size - 1, by omega⟩
  have hclimb : Forest.climb (pointers k.parent) k.parent.size o [] = some (k.find o) := by
    simp [find]
  rw [Fields.rep]
  change (Fields.repLoop k.parent (k.parent.size + n + 1) o []).bind _ = _
  rw [repLoop_eq_climb, Forest.climb_add hclimb n]
  rfl

theorem eventually_rep (o : ObjectId) :
    ∀ᶠ fuel in atTop, k.fields.rep fuel o = some ((k.rep o).1, (k.rep o).2.fields) :=
  (eventually_gt_atTop k.parent.size).mono fun _ h => k.fields_rep h o

theorem eventually_rep_rep (o1 o2 : ObjectId) :
    ∀ᶠ fuel in atTop, k.fields.rep fuel o1 = some ((k.rep o1).1, (k.rep o1).2.fields) ∧
      (k.rep o1).2.fields.rep fuel o2 =
        some (((k.rep o1).2.rep o2).1, ((k.rep o1).2.rep o2).2.fields) :=
  (k.eventually_rep o1).and ((k.rep o1).2.eventually_rep o2)

theorem eventually_collapseLoop (target : ObjectId) (members : List ObjectId) :
    ∀ (k : SpherepopKernel) (h : k.IsRoot target),
      ∀ᶠ fuel in atTop, Fields.collapseLoop fuel target k.fields members =
        some ((collapseLoop target k h members).1.fields, (collapseLoop target k h members).2) := by
  induction members with
  | nil => exact fun k h => Eventually.of_forall fun _ => rfl
  | cons m members ih =>
    intro k h
    by_cases hm : (k.rep m).1 = target
    · filter_upwards [k.eventually_rep m, ih (k.rep m).2 (isRoot_rep_iff.mpr h)] with fuel hrep hrest
      rw [Fields.collapseLoop, hrep, collapseLoop]
      simp only [Option.bind_eq_bind, Option.bind_some, hm, ne_eq, not_true_eq_false, if_false,
        dite_false, hrest]
    · have hroot : (k.rep m).2.IsRoot target := isRoot_rep_iff.mpr h
      have hroot' : ((k.rep m).2.setParent (k.rep m).1 target (Or.inl hroot)).IsRoot target := by
        rw [IsRoot, setParent, pointers_insert]
        exact Forest.up_redirect_eq_none hroot (Or.inl (Ne.symm hm))
      filter_upwards [k.eventually_rep m, ih _ hroot'] with fuel hrep hrest
      have hfields : Fields.collapseLoop fuel target { (k.rep m).2.fields with
          parent := (k.rep m).2.fields.parent.insert (k.rep m).1 target } members = _ := hrest
      rw [Fields.collapseLoop, hrep, collapseLoop]
      simp only [Option.bind_eq_bind, Option.bind_some, hm, ne_eq, not_false_eq_true, if_true,
        dite_true, hfields]
      rfl

/-- **With enough rounds `apply` comes back**, with what the kernel says. -/
theorem eventually_apply (e : Event) :
    ∀ᶠ fuel in atTop, k.fields.apply fuel e = some ((k.apply e).1.fields, (k.apply e).2) := by
  cases e with
  | pop o =>
    refine Eventually.of_forall fun fuel => ?_
    change (if o ∉ k.objects then _ else _) = some ((k.pop o).1.fields, (k.pop o).2)
    rw [pop]
    split <;> rfl
  | merge o1 o2 =>
    filter_upwards [k.eventually_rep_rep o1 o2] with fuel h
    change _ = some ((k.merge o1 o2).1.fields, (k.merge o1 o2).2)
    simp only [Fields.apply, h.1, h.2, Option.bind_eq_bind, Option.bind_some, merge]
    split <;> rfl
  | link o1 o2 t =>
    filter_upwards [k.eventually_rep_rep o1 o2] with fuel h
    change _ = some ((k.link o1 o2 t).1.fields, (k.link o1 o2 t).2)
    simp only [Fields.apply, h.1, h.2, Option.bind_eq_bind, Option.bind_some]
    by_cases hrel : ((k.rep o1).1, ((k.rep o1).2.rep o2).1, t) ∈ ((k.rep o1).2.rep o2).2.relations
    · have hlink : k.link o1 o2 t = _ := if_neg (not_not.mpr hrel)
      rw [hlink]
      exact if_neg (not_not.mpr hrel)
    · have hlink : k.link o1 o2 t = _ := if_pos hrel
      rw [hlink]
      exact if_pos hrel
  | unlink o1 o2 t =>
    filter_upwards [k.eventually_rep_rep o1 o2] with fuel h
    change _ = some ((k.unlink o1 o2 t).1.fields, (k.unlink o1 o2 t).2)
    simp only [Fields.apply, h.1, h.2, Option.bind_eq_bind, Option.bind_some]
    by_cases hrel : ((k.rep o1).1, ((k.rep o1).2.rep o2).1, t) ∈ ((k.rep o1).2.rep o2).2.relations
    · have hunlink : k.unlink o1 o2 t = _ := if_pos hrel
      rw [hunlink]
      exact if_pos hrel
    · have hunlink : k.unlink o1 o2 t = _ := if_neg hrel
      rw [hunlink]
      exact if_neg hrel
  | collapse members or =>
    filter_upwards [k.eventually_rep or, eventually_collapseLoop (k.rep or).1 members (k.rep or).2
      (isRoot_rep_iff.mpr (k.rep_isRoot or))] with fuel hrep hloop
    change _ = some ((k.collapse members or).1.fields, (k.collapse members or).2)
    simp only [Fields.apply, hrep, hloop, Option.bind_eq_bind, Option.bind_some]
    rfl
  | setMeta o key v => exact Eventually.of_forall fun fuel => rfl

theorem eventually_call (c : Call) :
    ∀ᶠ fuel in atTop, k.fields.call fuel c = some (k.call c).fields := by
  cases c with
  | apply e =>
    filter_upwards [k.eventually_apply e] with fuel h
    rw [Fields.call, h]
    rfl
  | rep o =>
    filter_upwards [k.eventually_rep o] with fuel h
    rw [Fields.call, h]
    rfl

theorem eventually_calls (calls : List Call) : ∀ k : SpherepopKernel,
    ∀ᶠ fuel in atTop, calls.foldlM (Fields.call fuel) k.fields =
      some (calls.foldl call k).fields := by
  induction calls with
  | nil => exact fun k => Eventually.of_forall fun _ => rfl
  | cons c calls ih =>
    intro k
    filter_upwards [k.eventually_call c, ih (k.call c)] with fuel hcall hrest
    rw [List.foldlM_cons, hcall]
    exact hrest

theorem not_transGen_points (x : ObjectId) : ¬ Relation.TransGen k.fields.Points x x := by
  intro h
  have hedge : Relation.TransGen (Forest.Edge (pointers k.parent)) x x :=
    Relation.TransGen.mono (fun _ _ => k.points_iff.mp) x x h
  rw [← Relation.transGen_swap] at hedge
  exact (WellFounded.transGen k.acyclic).irrefl.irrefl x hedge

end SpherepopKernel

/-- **The pointers never run in a circle.**  Whatever calls of `apply` and `rep` are made, they all
come back, and so does a call of `rep` for any id then, popped or not: with a root, and without
changing the representative of any id. -/
theorem run_spec (calls : List Call) :
    ∃ k : Fields, (∃ n, ∀ fuel ≥ n, Fields.run fuel calls = some k) ∧
      (∀ x, ¬ Relation.TransGen k.Points x x) ∧
      ∀ o, ∃ r k', (∀ fuel > k.parent.size, k.rep fuel o = some (r, k')) ∧
        (∃ n, ∀ fuel ≥ n, (k'.rep fuel r).map Prod.fst = some r) ∧
        ∀ x, ∃ n, ∀ fuel ≥ n, (k'.rep fuel x).map Prod.fst = (k.rep fuel x).map Prod.fst := by
  set k := calls.foldl SpherepopKernel.call SpherepopKernel.new
  refine ⟨k.fields, eventually_atTop.mp (SpherepopKernel.new.eventually_calls calls),
    k.not_transGen_points, fun o => ?_⟩
  refine ⟨(k.rep o).1, (k.rep o).2.fields, fun fuel h => k.fields_rep h o, ?_, fun x => ?_⟩
  · refine eventually_atTop.mp ?_
    filter_upwards [(k.rep o).2.eventually_rep (k.rep o).1] with fuel h
    rw [h, Option.map_some, SpherepopKernel.rep_rep,
      SpherepopKernel.rep_eq_self_iff.mpr (k.rep_isRoot o)]
  · refine eventually_atTop.mp ?_
    filter_upwards [(k.rep o).2.eventually_rep x, k.eventually_rep x] with fuel h' h
    rw [h', h, Option.map_some, Option.map_some, SpherepopKernel.rep_rep]

end Rustybox.Spherepop
