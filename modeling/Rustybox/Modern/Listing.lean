import Rustybox.Modern.Find
import Mathlib.Data.List.Infix

/-!
# The walk of find

`run` of `modern/find.rs` with the iterator it walks with, which `-prune` changes while a predicate
is evaluated.  The iterator is `walkdir`'s and comes from outside, and so do the other predicates,
the removals and the processes.

`visited`, `matched` and `runs` are not part of the source: they record the entries that the loop
has seen, the paths of those for which every predicate holds, and the words of each process.

* `run_eq_runCommand`: `Find.run`, which has a list of entries for its walk, is this loop.
* `out_runCommand`: what the loop writes is what `Modern.find` writes for the matched paths.

The last part says what is known of the iterator of `walkdir` on a tree that stays as it is: it keeps
a stack of open directory listings, takes the first entry of the top one, opens the listing of a
directory before it yields the directory, passes over what is not as deep as `min_depth` and drops a
listing deeper than `max_depth`.  `skip_current_dir` drops the top listing, whatever the entry was.
-/

namespace Rustybox.Modern.Find

open Rustybox.Rust

/-- `Pred`: `-prune`, which changes the walk, and the others. -/
inductive Pred (P : Type) where
  | prune
  | other (p : P)

/-- `walkdir::IntoIter` on a file system.  An entry that cannot be read is `none`; `left` bounds
what is still to come. -/
structure Walker (Fs : Type) where
  State : Type
  start : WalkOptions → List Char → State
  next : State → Fs → Option (Option Entry × State)
  skipCurrentDir : State → State
  left : State → ℕ
  left_next : ∀ {s fs e s'}, next s fs = some (e, s') → left s' < left s
  left_skip : ∀ s, left (skipCurrentDir s) ≤ left s

/-- What the predicates and the actions ask of the system: `remove` is `remove_dir` or
`remove_file`, and `spawn` says whether a process succeeded. -/
structure System (Fs P : Type) where
  eval : P → Fs → Entry → Bool
  remove : Entry → Fs → Option Fs
  spawn : List (List Char) → Fs → Bool × Fs

/-- The state of `run`. -/
structure Session (Fs : Type) where
  fs : Fs
  out : List UInt8 := []
  batch : List (List Char) := []
  rc : ℕ := 0
  visited : List Entry := []
  matched : List (List Char) := []
  runs : List (List (List Char)) := []

variable {Fs P : Type} (w : Walker Fs) (sys : System Fs P)

/-! ### One entry -/

/-- `eval`, which may change the walker. -/
def evalPred (fs : Fs) (e : Entry) : Pred P → w.State → Bool × w.State
  | .prune, s => (true, w.skipCurrentDir s)
  | .other p, s => (sys.eval p fs e, s)

/-- The predicates from the first on, up to one that fails. -/
def evalAll (fs : Fs) (e : Entry) : List (Bool × Pred P) → w.State → Bool × w.State
  | [], s => (true, s)
  | (negate, p) :: preds, s =>
    let (value, s) := evalPred w sys fs e p s
    if value != negate then evalAll fs e preds s else (false, s)

/-- The words of a process: all the paths for each `{}`, or behind the others. -/
def builtWords (template paths : List (List Char)) : List (List Char) :=
  if template.contains "{}".toList then
    template.flatMap fun tok => if tok = "{}".toList then paths else [tok]
  else template ++ paths

def runExec (template paths : List (List Char)) (r : Session Fs) : Bool × Session Fs :=
  if template = [] then (false, r)
  else
    let words := builtWords template paths
    let (ok, fs) := sys.spawn words r.fs
    (ok, { r with fs := fs, runs := r.runs ++ [words] })

/-- A failure is kept in `rc`. -/
def keepRc (r : Bool × Session Fs) : Session Fs := if r.1 then r.2 else { r.2 with rc := 1 }

/-- One action on one entry; `-quit` is up to the caller. -/
def act (e : Entry) (r : Session Fs) : Action → Session Fs
  | .quit => r
  | .print => { r with out := r.out ++ asBytes (pathString e.path) ++ [0x0A] }
  | .print0 => { r with out := r.out ++ asBytes (pathString e.path) ++ [0] }
  | .delete =>
    match sys.remove e r.fs with
    | some fs => { r with fs := fs }
    | none => { r with rc := 1 }
  | .exec argv batch =>
    if batch then { r with batch := r.batch ++ [pathString e.path] }
    else keepRc (runExec sys argv [pathString e.path] r)

/-- The actions on one entry, and whether the walk goes on. -/
def actOnEntry (e : Entry) : List Action → Session Fs → Session Fs × Bool
  | [], r => (r, true)
  | .quit :: _, r => (r, false)
  | a :: actions, r => actOnEntry e actions (act sys e r a)

/-- Every action but `quit` goes on to the next. -/
theorem actOnEntry_cons (e : Entry) {a : Action} (h : a ≠ .quit) (actions : List Action)
    (r : Session Fs) : actOnEntry sys e (a :: actions) r = actOnEntry sys e actions (act sys e r a) := by
  cases a <;> first | rfl | exact absurd rfl h

/-! ### The loops -/

/-- What the loop does with an entry: the state, the walker, and whether the walk goes on. -/
def visit (cmd : Command (Pred P)) (e : Entry) (r : Session Fs) (s : w.State) :
    Session Fs × w.State × Bool :=
  let r := { r with visited := r.visited ++ [e] }
  match evalAll w sys r.fs e cmd.preds s with
  | (false, s) => (r, s, true)
  | (true, s) =>
    let (r, more) := actOnEntry sys e cmd.actions { r with matched := r.matched ++ [pathString e.path] }
    (r, s, more)

/-- `while let Some(entry) = walker.next()`. -/
def walkFrom (cmd : Command (Pred P)) : ℕ → w.State → Session Fs → Session Fs × Bool
  | 0, _, r => (r, true)
  | n + 1, s, r =>
    match w.next s r.fs with
    | none => (r, true)
    | some (none, s) => walkFrom cmd n s { r with rc := 1 }
    | some (some e, s) =>
      match visit w sys cmd e r s with
      | (r, s, true) => walkFrom cmd n s r
      | (r, _, false) => (r, false)

theorem walkFrom_some (cmd : Command (Pred P)) {n : ℕ} {s s' : w.State} {r : Session Fs} {e : Entry}
    (h : w.next s r.fs = some (some e, s')) :
    walkFrom w sys cmd (n + 1) s r =
      if (visit w sys cmd e r s').2.2 then
        walkFrom w sys cmd n (visit w sys cmd e r s').2.1 (visit w sys cmd e r s').1
      else ((visit w sys cmd e r s').1, false) := by
  rw [walkFrom, h]
  dsimp only
  cases visit w sys cmd e r s' with
  | mk r' rest =>
    obtain ⟨s'', more⟩ := rest
    cases more <;> rfl

def walkStart (cmd : Command (Pred P)) (start : List Char) (r : Session Fs) : Session Fs × Bool :=
  let s := w.start { minDepth := cmd.minDepth, maxDepth := cmd.maxDepth } start
  walkFrom w sys cmd (w.left s + 1) s r

/-- `'outer: for start in &paths`. -/
def walkPaths (cmd : Command (Pred P)) : List (List Char) → Session Fs → Session Fs
  | [], r => r
  | start :: paths, r =>
    match walkStart w sys cmd start r with
    | (r, true) => walkPaths cmd paths r
    | (r, false) => r

/-- The templates of `-exec ... +`. -/
def templates (actions : List Action) : List (List (List Char)) :=
  actions.filterMap fun
    | .exec argv true => some argv
    | _ => none

/-- The deferred `-exec ... +`. -/
def drain (actions : List Action) (r : Session Fs) : Session Fs :=
  if r.batch = [] then r
  else (templates actions).foldl (fun r template => keepRc (runExec sys template r.batch r)) r

/-- `run`, once the command line is read. -/
def runCommand (cmd : Command (Pred P)) (fs : Fs) : Session Fs :=
  drain sys cmd.actions (walkPaths w sys cmd cmd.paths { fs := fs })

/-! ### Enough fuel -/

theorem left_evalAll (fs : Fs) (e : Entry) (preds : List (Bool × Pred P)) (s : w.State) :
    w.left (evalAll w sys fs e preds s).2 ≤ w.left s := by
  induction preds generalizing s with
  | nil => exact Nat.le_refl _
  | cons np preds ih =>
    obtain ⟨negate, p⟩ := np
    have hp : w.left (evalPred w sys fs e p s).2 ≤ w.left s := by
      cases p with
      | prune => exact w.left_skip s
      | other p => exact Nat.le_refl _
    rw [evalAll]
    dsimp only
    split
    · exact (ih _).trans hp
    · exact hp

theorem left_visit (cmd : Command (Pred P)) (e : Entry) (r : Session Fs) (s : w.State) :
    w.left (visit w sys cmd e r s).2.1 ≤ w.left s := by
  have h := left_evalAll w sys r.fs e cmd.preds s
  rw [visit]
  dsimp only
  cases he : evalAll w sys r.fs e cmd.preds s with
  | mk value s' =>
  rw [he] at h
  cases value with
  | false => exact h
  | true => exact h

/-! ### Find.run and the output of find -/

section Same

/-- The iterator on the entries of a walk; nothing is pruned. -/
abbrev WalkDir.walker (wd : WalkDir) (t : DirTree) : Walker (List Entry) where
  State := List Entry
  start o _ := wd.walk o t
  next
    | [], _ => none
    | e :: rest, _ => some (some e, rest)
  skipCurrentDir s := s
  left := List.length
  left_next := by
    intro s fs e s' h
    cases s with
    | nil => cases h
    | cons e rest =>
      cases h
      exact Nat.lt_succ_self _
  left_skip _ := Nat.le_refl _

/-- The system on the entries of a tree, with processes that do not touch it. -/
def Predicates.system (preds : Predicates P) (spawns : List (List Char) → Bool) :
    System (List Entry) P where
  eval := preds.eval
  remove e fs := deleteEntry fs e
  spawn words fs := (spawns words, fs)

/-- `run_exec`, where processes do not touch the tree. -/
def execBy (spawns : List (List Char) → Bool) (template paths : List (List Char)) : Bool :=
  template ≠ [] && spawns (builtWords template paths)

/-- The command without `-prune`. -/
def Command.lift (cmd : Command P) : Command (Pred P) where
  paths := cmd.paths
  preds := cmd.preds.map fun (negate, p) => (negate, .other p)
  actions := cmd.actions
  minDepth := cmd.minDepth
  maxDepth := cmd.maxDepth

/-- An entry for which every predicate holds is recorded. -/
def Session.seen (r : Session Fs) (e : Entry) : Session Fs :=
  { r with visited := r.visited ++ [e], matched := r.matched ++ [pathString e.path] }

def Session.world (r : Session (List Entry)) : World := ⟨r.fs, r.out, r.batch, r.rc⟩

variable (preds : Predicates P) (spawns : List (List Char) → Bool)

theorem world_keepRc (template paths : List (List Char)) (r : Session (List Entry)) :
    (keepRc (runExec (preds.system spawns) template paths r)).world =
      if execBy spawns template paths then r.world else { r.world with rc := 1 } := by
  rw [execBy]
  by_cases ht : template = []
  · have hrun : runExec (preds.system spawns) template paths r = (false, r) := by
      rw [runExec, if_pos ht]
    rw [hrun, decide_eq_false (not_not_intro ht)]
    rfl
  · have hrun : runExec (preds.system spawns) template paths r =
        (spawns (builtWords template paths),
          { r with runs := r.runs ++ [builtWords template paths] }) := by
      rw [runExec, if_neg ht]
      rfl
    rw [hrun, decide_eq_true ht, Bool.true_and, keepRc]
    cases spawns (builtWords template paths) <;> rfl

theorem world_act (e : Entry) (r : Session (List Entry)) (a : Action) :
    (act (preds.system spawns) e r a).world = actOn (execBy spawns) e r.world a := by
  cases a with
  | quit | print | print0 => rfl
  | delete =>
    have hremove : (preds.system spawns).remove e r.fs = deleteEntry r.world.fs e := rfl
    rw [act, actOn, hremove]
    cases deleteEntry r.world.fs e <;> rfl
  | exec argv batch =>
    cases batch with
    | true => rfl
    | false => exact world_keepRc preds spawns argv _ r

theorem world_actOnEntry (e : Entry) (actions : List Action) (r : Session (List Entry)) :
    ((actOnEntry (preds.system spawns) e actions r).1.world,
      (actOnEntry (preds.system spawns) e actions r).2) = actAll (execBy spawns) e actions r.world := by
  induction actions generalizing r with
  | nil => rfl
  | cons a actions ih =>
    by_cases ha : a = .quit
    · subst ha
      rfl
    · have hall : actAll (execBy spawns) e (a :: actions) r.world =
          actAll (execBy spawns) e actions (actOn (execBy spawns) e r.world a) := by
        cases a <;> first | rfl | exact absurd rfl ha
      rw [actOnEntry_cons _ e ha, hall, ← world_act]
      exact ih _

theorem evalAll_lift (wd : WalkDir) (t : DirTree) (fs : List Entry) (e : Entry)
    (ps : List (Bool × P)) (s : List Entry) :
    evalAll (wd.walker t) (preds.system spawns) fs e
        (ps.map fun (negate, p) => (negate, .other p)) s =
      (ps.all fun (negate, p) => preds.eval p fs e != negate, s) := by
  induction ps with
  | nil => rfl
  | cons np ps ih =>
    obtain ⟨negate, p⟩ := np
    have hfirst : evalAll (wd.walker t) (preds.system spawns) fs e
        ((negate, .other p) :: ps.map fun (negate, p) => (negate, .other p)) s =
        if preds.eval p fs e != negate then
          evalAll (wd.walker t) (preds.system spawns) fs e
            (ps.map fun (negate, p) => (negate, .other p)) s
        else (false, s) := rfl
    rw [List.map_cons, List.all_cons, hfirst, ih]
    dsimp only
    cases preds.eval p fs e != negate <;> rfl

theorem visit_lift (wd : WalkDir) (t : DirTree) (cmd : Command P) (e : Entry)
    (r : Session (List Entry)) (s : (wd.walker t).State) :
    visit (wd.walker t) (preds.system spawns) cmd.lift e r s =
      if cmd.preds.all fun (negate, p) => preds.eval p r.fs e != negate then
        ((actOnEntry (preds.system spawns) e cmd.actions (r.seen e)).1, s,
          (actOnEntry (preds.system spawns) e cmd.actions (r.seen e)).2)
      else ({ r with visited := r.visited ++ [e] }, s, true) := by
  have heval := evalAll_lift preds spawns wd t r.fs e cmd.preds s
  rw [visit]
  dsimp only [Command.lift]
  rw [heval]
  cases cmd.preds.all fun (negate, p) => preds.eval p r.fs e != negate <;> rfl

theorem world_walkFrom (wd : WalkDir) (t : DirTree) (cmd : Command P) {n : ℕ} {es : List Entry}
    (hn : es.length < n) (r : Session (List Entry)) :
    (walkFrom (wd.walker t) (preds.system spawns) cmd.lift n es r).1.world =
      walkLoop preds (execBy spawns) cmd es r.world := by
  induction es generalizing n r with
  | nil =>
    obtain ⟨n, rfl⟩ : ∃ m, n = m + 1 := ⟨n - 1, by omega⟩
    rfl
  | cons e es ih =>
    obtain ⟨n, rfl⟩ : ∃ m, n = m + 1 := ⟨n - 1, by omega⟩
    have hlt : es.length < n := Nat.lt_of_succ_lt_succ hn
    have hnext : (wd.walker t).next (e :: es) r.fs = some (some e, es) := rfl
    have hworld : r.world.fs = r.fs := rfl
    rw [walkFrom_some _ _ _ hnext, visit_lift, walkLoop, hworld]
    cases cmd.preds.all fun (negate, p) => preds.eval p r.fs e != negate with
    | false => exact ih hlt _
    | true =>
      have hact := world_actOnEntry preds spawns e cmd.actions (r.seen e)
      have hseen : (r.seen e).world = r.world := rfl
      rw [if_pos rfl, if_pos rfl, ← hseen, ← hact]
      cases actOnEntry (preds.system spawns) e cmd.actions (r.seen e) with
      | mk r' more =>
        cases more with
        | true => exact ih hlt r'
        | false => rfl

theorem world_drain (actions : List Action) (r : Session (List Entry)) :
    (drain (preds.system spawns) actions r).world = runBatch (execBy spawns) actions r.world := by
  have hbatch : r.world.batch = r.batch := rfl
  rw [drain, runBatch, hbatch]
  by_cases h : r.batch = []
  · rw [if_pos h, if_pos h]
  rw [if_neg h, if_neg h]
  clear h hbatch
  induction actions generalizing r with
  | nil => rfl
  | cons a actions ih =>
    cases a with
    | quit | print | print0 | delete => exact ih r
    | exec argv each =>
      cases each with
      | false => exact ih r
      | true =>
        refine (ih (keepRc (runExec (preds.system spawns) argv r.batch r))).trans ?_
        rw [world_keepRc]
        rfl

/-- **On one starting path, and where processes do not touch the tree, `Find.run` is this loop** with
the iterator on the entries of the walk. -/
theorem run_eq_runCommand (wd : WalkDir) (t : DirTree) {argv : List (List Char)} {cmd : Command P}
    (h : parseCommand preds argv = .ok cmd) {start : List Char} (hpaths : cmd.paths = [start]) :
    run preds (execBy spawns) wd argv t =
      ((runCommand (wd.walker t) (preds.system spawns) cmd.lift t.entries).rc,
        (runCommand (wd.walker t) (preds.system spawns) cmd.lift t.entries).fs) := by
  have hwalk := world_walkFrom preds spawns wd t cmd
    (Nat.lt_succ_self (wd.walk { minDepth := cmd.minDepth, maxDepth := cmd.maxDepth } t).length)
    { fs := t.entries }
  have hpath : walkPaths (wd.walker t) (preds.system spawns) cmd.lift cmd.lift.paths
      { fs := t.entries } = (walkStart (wd.walker t) (preds.system spawns) cmd.lift start
        { fs := t.entries }).1 := by
    have hlift : cmd.lift.paths = [start] := hpaths
    rw [hlift, walkPaths]
    split
    · next r hr => rw [hr, walkPaths]
    · next r hr => rw [hr]
  have hworld : (runCommand (wd.walker t) (preds.system spawns) cmd.lift t.entries).world =
      runBatch (execBy spawns) cmd.actions (walkLoop preds (execBy spawns) cmd
        (wd.walk { minDepth := cmd.minDepth, maxDepth := cmd.maxDepth } t) { fs := t.entries }) := by
    rw [runCommand, world_drain, hpath]
    exact congrArg _ hwalk
  rw [run, h]
  dsimp only
  rw [← hworld]
  rfl

end Same

def Entry.bytes (e : Entry) : List UInt8 := [0x2F].intercalate e.path

/-- From `r` on, the loop has matched these entries and written for them what `find` writes. -/
structure Wrote (actions : List Action) (r r' : Session Fs) (es : List Entry) : Prop where
  matched : r'.matched = r.matched ++ es.map fun e => pathString e.path
  out : r'.out = r.out ++ find actions (es.map Entry.bytes)

/-- No entry has stopped the loop over the actions. -/
def GoesOn (actions : List Action) (es : List Entry) : Prop :=
  ∀ more, find actions (es.map Entry.bytes ++ more) =
    find actions (es.map Entry.bytes) ++ find actions more

theorem Wrote.append {actions : List Action} {r r' r'' : Session Fs} {es es' : List Entry}
    (h : Wrote actions r r' es) (hgoes : GoesOn actions es) (h' : Wrote actions r' r'' es') :
    Wrote actions r r'' (es ++ es') where
  matched := by rw [h'.matched, h.matched, List.append_assoc, List.map_append]
  out := by rw [h'.out, h.out, List.append_assoc, List.map_append, hgoes]

theorem GoesOn.append {actions : List Action} {es es' : List Entry} (h : GoesOn actions es)
    (h' : GoesOn actions es') : GoesOn actions (es ++ es') := by
  intro more
  rw [List.map_append, List.append_assoc, h, h', h, List.append_assoc]

theorem goesOn_nil (actions : List Action) : GoesOn actions [] := fun _ => rfl

theorem wrote_nil {actions : List Action} {r r' : Session Fs} (hmatched : r'.matched = r.matched)
    (hout : r'.out = r.out) : Wrote actions r r' [] where
  matched := by rw [hmatched, List.map_nil, List.append_nil]
  out := by rw [hout, List.map_nil, find, List.append_nil]

theorem keepRc_fields (template paths : List (List Char)) (r : Session Fs) :
    (keepRc (runExec sys template paths r)).out = r.out ∧
      (keepRc (runExec sys template paths r)).matched = r.matched := by
  rw [runExec, keepRc]
  by_cases ht : template = []
  · rw [if_pos ht]
    exact ⟨rfl, rfl⟩
  · rw [if_neg ht]
    dsimp only
    split
    · exact ⟨rfl, rfl⟩
    · exact ⟨rfl, rfl⟩

theorem act_fields (e : Entry) (r : Session Fs) {a : Action} {out : List UInt8}
    (h : a.write (pathString e.path) = some out) :
    (act sys e r a).out = r.out ++ out ∧ (act sys e r a).matched = r.matched := by
  cases a with
  | quit => cases h
  | print | print0 =>
    cases h
    exact ⟨List.append_assoc _ _ _, rfl⟩
  | delete =>
    cases h
    rw [act, List.append_nil]
    split
    · exact ⟨rfl, rfl⟩
    · exact ⟨rfl, rfl⟩
  | exec argv batch =>
    cases h
    rw [List.append_nil]
    cases batch with
    | true => exact ⟨rfl, rfl⟩
    | false => exact keepRc_fields sys argv _ r

theorem actOnEntry_fields (e : Entry) (actions : List Action) (r : Session Fs) :
    (actOnEntry sys e actions r).1.out = r.out ++ (Modern.act (pathString e.path) actions).1 ∧
      (actOnEntry sys e actions r).2 = (Modern.act (pathString e.path) actions).2 ∧
      (actOnEntry sys e actions r).1.matched = r.matched := by
  induction actions generalizing r with
  | nil => exact ⟨(List.append_nil _).symm, rfl, rfl⟩
  | cons a actions ih =>
    rw [Modern.act]
    cases hwrite : a.write (pathString e.path) with
    | none =>
      have ha : a = .quit := by cases a <;> first | rfl | cases hwrite
      subst ha
      exact ⟨(List.append_nil _).symm, rfl, rfl⟩
    | some out =>
      have ha : a ≠ .quit := by
        rintro rfl
        cases hwrite
      obtain ⟨hout, hmatched⟩ := act_fields sys e r hwrite
      obtain ⟨ihout, ihmore, ihmatched⟩ := ih (act sys e r a)
      rw [actOnEntry_cons sys e ha]
      exact ⟨by rw [ihout, hout, List.append_assoc], ihmore, ihmatched.trans hmatched⟩

theorem wrote_visit (cmd : Command (Pred P)) (e : Entry) (r : Session Fs) (s : w.State) :
    ∃ es, Wrote cmd.actions r (visit w sys cmd e r s).1 es ∧
      ((visit w sys cmd e r s).2.2 = true → GoesOn cmd.actions es) := by
  rw [visit]
  dsimp only
  cases evalAll w sys r.fs e cmd.preds s with
  | mk value s' =>
    cases value with
    | false => exact ⟨[], wrote_nil rfl rfl, fun _ => goesOn_nil _⟩
    | true =>
      obtain ⟨hout, hmore, hmatched⟩ := actOnEntry_fields sys e cmd.actions
        { r with visited := r.visited ++ [e], matched := r.matched ++ [pathString e.path] }
      have hfind : ∀ more, find cmd.actions (e.bytes :: more) =
          (Modern.act (pathString e.path) cmd.actions).1 ++
            if (Modern.act (pathString e.path) cmd.actions).2 then find cmd.actions more else [] :=
        fun more => rfl
      refine ⟨[e], ⟨hmatched, ?_⟩, fun hgoes more => ?_⟩
      · have hnil : (if (Modern.act (pathString e.path) cmd.actions).2 then find cmd.actions []
            else []) = [] := by
          split
          · rfl
          · rfl
        rw [List.map_singleton, hfind, hnil, List.append_nil]
        exact hout
      · have hact : (Modern.act (pathString e.path) cmd.actions).2 = true := hmore.symm.trans hgoes
        rw [List.map_singleton, List.singleton_append, hfind, hfind, if_pos hact, if_pos hact, find,
          List.append_nil]

theorem wrote_walkFrom (cmd : Command (Pred P)) (n : ℕ) (s : w.State) (r : Session Fs) :
    ∃ es, Wrote cmd.actions r (walkFrom w sys cmd n s r).1 es ∧
      ((walkFrom w sys cmd n s r).2 = true → GoesOn cmd.actions es) := by
  induction n generalizing s r with
  | zero => exact ⟨[], wrote_nil rfl rfl, fun _ => goesOn_nil _⟩
  | succ n ih =>
    cases hnext : w.next s r.fs with
    | none =>
      rw [walkFrom, hnext]
      exact ⟨[], wrote_nil rfl rfl, fun _ => goesOn_nil _⟩
    | some found =>
      obtain ⟨entry, s'⟩ := found
      cases entry with
      | none =>
        rw [walkFrom, hnext]
        obtain ⟨es, hwrote, hgoes⟩ := ih s' { r with rc := 1 }
        exact ⟨es, ⟨hwrote.matched, hwrote.out⟩, hgoes⟩
      | some e =>
        rw [walkFrom_some w sys cmd hnext]
        obtain ⟨es, hwrote, hgoes⟩ := wrote_visit w sys cmd e r s'
        split
        · next hmore =>
          obtain ⟨es', hwrote', hgoes'⟩ := ih (visit w sys cmd e r s').2.1 (visit w sys cmd e r s').1
          exact ⟨es ++ es', hwrote.append (hgoes hmore) hwrote', fun h =>
            (hgoes hmore).append (hgoes' h)⟩
        · exact ⟨es, hwrote, nofun⟩

theorem wrote_walkPaths (cmd : Command (Pred P)) (paths : List (List Char)) (r : Session Fs) :
    ∃ es, Wrote cmd.actions r (walkPaths w sys cmd paths r) es := by
  induction paths generalizing r with
  | nil => exact ⟨[], wrote_nil rfl rfl⟩
  | cons start paths ih =>
    obtain ⟨es, hwrote, hgoes⟩ := wrote_walkFrom w sys cmd _
      (w.start { minDepth := cmd.minDepth, maxDepth := cmd.maxDepth } start) r
    rw [walkPaths]
    split
    · next r' hr =>
      rw [walkStart] at hr
      rw [hr] at hwrote hgoes
      obtain ⟨es', hwrote'⟩ := ih r'
      exact ⟨es ++ es', hwrote.append (hgoes rfl) hwrote'⟩
    · next r' hr =>
      rw [walkStart] at hr
      rw [hr] at hwrote
      exact ⟨es, hwrote⟩

theorem drain_fields (actions : List Action) (r : Session Fs) :
    (drain sys actions r).out = r.out ∧ (drain sys actions r).matched = r.matched := by
  rw [drain]
  split
  · exact ⟨rfl, rfl⟩
  · next hbatch =>
    clear hbatch
    generalize templates actions = ts
    induction ts generalizing r with
    | nil => exact ⟨rfl, rfl⟩
    | cons template ts ih =>
      obtain ⟨hout, hmatched⟩ := ih (keepRc (runExec sys template r.batch r))
      obtain ⟨hout', hmatched'⟩ := keepRc_fields sys template r.batch r
      exact ⟨hout.trans hout', hmatched.trans hmatched'⟩

/-- **What the loop writes is the output of `find`** on the paths of the entries it has matched. -/
theorem out_runCommand (cmd : Command (Pred P)) (fs : Fs) :
    ∃ es : List Entry,
      (runCommand w sys cmd fs).matched = es.map (fun e => pathString e.path) ∧
        (runCommand w sys cmd fs).out = find cmd.actions (es.map Entry.bytes) := by
  obtain ⟨es, hmatched, hout⟩ := wrote_walkPaths w sys cmd cmd.paths { fs := fs }
  obtain ⟨hdrain, hdrain'⟩ := drain_fields sys cmd.actions (walkPaths w sys cmd cmd.paths { fs := fs })
  exact ⟨es, hdrain'.trans hmatched, hdrain.trans hout⟩

/-! ### Directory trees and walkdir -/

/-- A directory listing, in the order in which it is read. -/
inductive Listing where
  | nil
  | file (name : List UInt8) (rest : Listing)
  | dir (name : List UInt8) (entries rest : Listing)

def Listing.names : Listing → List (List UInt8)
  | .nil => []
  | .file name rest => name :: rest.names
  | .dir name _ rest => name :: rest.names

/-- The names in a directory are distinct, at any depth. -/
def Listing.Distinct : Listing → Prop
  | .nil => True
  | .file name rest => name ∉ rest.names ∧ rest.Distinct
  | .dir name entries rest => name ∉ rest.names ∧ entries.Distinct ∧ rest.Distinct

def Listing.size : Listing → ℕ
  | .nil => 1
  | .file _ rest => rest.size + 1
  | .dir _ entries rest => entries.size + rest.size + 1

/-- What there is at a starting path. -/
structure FileTree where
  listing : Listing
  distinct : listing.Distinct

/-- An entry with the directories it is in, the innermost first. -/
structure Found where
  entry : Entry
  up : List Entry
  deriving DecidableEq

def Found.chain (f : Found) : List Entry := f.entry :: f.up

/-- The entry of a name in the innermost of some directories. -/
def entryIn (up : List Entry) (name : List UInt8) (isDir : Bool) : Entry :=
  ⟨((up.head?.map Entry.path).getD []) ++ [name], isDir⟩

/-- All entries, a directory before its contents. -/
def Listing.found : Listing → List Entry → List Found
  | .nil, _ => []
  | .file name rest, up => ⟨entryIn up name false, up⟩ :: rest.found up
  | .dir name entries rest, up =>
    ⟨entryIn up name true, up⟩ :: entries.found (entryIn up name true :: up) ++ rest.found up

/-! ### The iterator -/

/-- An open listing, and the directory that it is of. -/
structure Frame where
  listing : Listing
  up : List Entry

/-- The first entry of a listing, and what is open behind it. -/
def Frame.first (f : Frame) : Option (Found × List Frame) :=
  match f.listing with
  | .nil => none
  | .file name rest => some (⟨entryIn f.up name false, f.up⟩, [⟨rest, f.up⟩])
  | .dir name entries rest =>
    some (⟨entryIn f.up name true, f.up⟩, [⟨entries, entryIn f.up name true :: f.up⟩, ⟨rest, f.up⟩])

/-- `IntoIter::next` on the open listings. -/
inductive Next (o : WalkOptions) : List Frame → Option (Found × List Frame) → Prop
  | done : Next o [] none
  | close {f st r} : f.first = none ∨ o.maxDepth < f.up.length → Next o st r → Next o (f :: st) r
  | pass {f st r e opened} : f.first = some (e, opened) → f.up.length ≤ o.maxDepth →
      f.up.length < o.minDepth → Next o (opened ++ st) r → Next o (f :: st) r
  | yields {f st e opened} : f.first = some (e, opened) → f.up.length ≤ o.maxDepth →
      o.minDepth ≤ f.up.length → Next o (f :: st) (some (e, opened ++ st))

/-- A walker that walks through the trees at its starting paths.  What it makes of a `min_depth`
beyond `max_depth` is left open. -/
structure TreeWalker (trees : List Char → FileTree) extends Walker Unit where
  options : State → WalkOptions
  stack : State → List Frame
  options_start : ∀ o path, o.minDepth ≤ o.maxDepth → options (start o path) = o
  stack_start : ∀ o path, stack (start o path) = [⟨(trees path).listing, []⟩]
  next_none : ∀ {s}, next s () = none → Next (options s) (stack s) none
  next_some : ∀ {s entry s'}, next s () = some (entry, s') → options s' = options s ∧
    ∃ f, entry = some f.entry ∧ Next (options s) (stack s) (some (f, stack s'))
  options_skip : ∀ s, options (skipCurrentDir s) = options s
  stack_skip : ∀ s, stack (skipCurrentDir s) = (stack s).tail

/-! ### Such a walker -/

def work (st : List Frame) : ℕ := st.foldr (fun f n => f.listing.size + n) 0

/-- `next`, with fuel. -/
def nextEntry (o : WalkOptions) : ℕ → List Frame → Option (Found × List Frame)
  | 0, _ => none
  | _, [] => none
  | n + 1, f :: st =>
    if o.maxDepth < f.up.length then nextEntry o n st
    else
      match f.first with
      | none => nextEntry o n st
      | some (e, opened) =>
        if f.up.length < o.minDepth then nextEntry o n (opened ++ st) else some (e, opened ++ st)

theorem size_pos (l : Listing) : 0 < l.size := by
  cases l <;> exact Nat.succ_pos _

theorem work_cons (f : Frame) (st : List Frame) : work (f :: st) = f.listing.size + work st := rfl

theorem work_append (st st' : List Frame) : work (st ++ st') = work st + work st' := by
  induction st with
  | nil => exact (Nat.zero_add _).symm
  | cons f st ih => rw [List.cons_append, work_cons, work_cons, ih, Nat.add_assoc]

theorem work_first {f : Frame} {e : Found} {opened : List Frame} (h : f.first = some (e, opened)) :
    work opened + 1 = f.listing.size := by
  rw [Frame.first] at h
  cases hl : f.listing with
  | nil =>
    rw [hl] at h
    cases h
  | file name rest =>
    rw [hl] at h
    cases h
    rfl
  | dir name entries rest =>
    rw [hl] at h
    cases h
    simp [work, Listing.size]

theorem next_nextEntry (o : WalkOptions) {n : ℕ} {st : List Frame} (h : work st < n) :
    Next o st (nextEntry o n st) := by
  induction n generalizing st with
  | zero => omega
  | succ n ih =>
    cases st with
    | nil => exact .done
    | cons f st =>
      rw [work_cons] at h
      have hpos := size_pos f.listing
      rw [nextEntry]
      split
      · next hdeep => exact .close (.inr hdeep) (ih (by omega))
      · next hdeep =>
        cases hf : f.first with
        | none => exact .close (.inl hf) (ih (by omega))
        | some r =>
          obtain ⟨e, opened⟩ := r
          have hwork := work_first hf
          dsimp only
          split
          · next hmin =>
            exact .pass hf (by omega) hmin (ih (by rw [work_append]; omega))
          · next hmin => exact .yields hf (by omega) (by omega)

theorem work_nextEntry {o : WalkOptions} {n : ℕ} {st st' : List Frame} {e : Found}
    (h : nextEntry o n st = some (e, st')) : work st' < work st := by
  induction n generalizing st with
  | zero => cases h
  | succ n ih =>
    cases st with
    | nil => cases h
    | cons f st =>
      have hpos := size_pos f.listing
      rw [work_cons]
      rw [nextEntry] at h
      split at h
      · have := ih h
        omega
      · cases hf : f.first with
        | none =>
          rw [hf] at h
          have := ih h
          omega
        | some r =>
          obtain ⟨e', opened⟩ := r
          have hwork := work_first hf
          rw [hf] at h
          dsimp only at h
          split at h
          · have := ih h
            rw [work_append] at this
            omega
          · cases h
            rw [work_append]
            omega

theorem work_tail_le (st : List Frame) : work st.tail ≤ work st := by
  cases st with
  | nil => exact Nat.le_refl _
  | cons f st => exact Nat.le_add_left _ _

/-- The walker whose state is its stack. -/
def stackWalker (trees : List Char → FileTree) : TreeWalker trees where
  State := WalkOptions × List Frame
  start o path := (o, [⟨(trees path).listing, []⟩])
  next s _ := (nextEntry s.1 (work s.2 + 1) s.2).map fun (f, st) => (some f.entry, s.1, st)
  skipCurrentDir s := (s.1, s.2.tail)
  left s := work s.2
  left_next := by
    intro s fs e s' h
    obtain ⟨⟨f, st⟩, hf, rfl, rfl⟩ := Option.map_eq_some_iff.mp h
    exact work_nextEntry hf
  left_skip s := work_tail_le s.2
  options s := s.1
  stack s := s.2
  options_start _ _ _ := rfl
  stack_start _ _ := rfl
  next_none := by
    intro s h
    have hnext := next_nextEntry s.1 (Nat.lt_succ_self (work s.2))
    rwa [Option.map_eq_none_iff.mp h] at hnext
  next_some := by
    intro s entry s' h
    obtain ⟨⟨f, st⟩, hf, rfl, rfl⟩ := Option.map_eq_some_iff.mp h
    have hnext := next_nextEntry s.1 (Nat.lt_succ_self (work s.2))
    rw [hf] at hnext
    exact ⟨rfl, f, rfl, hnext⟩
  options_skip _ := rfl
  stack_skip _ := rfl

end Rustybox.Modern.Find
