import Mathlib.Data.List.Perm.Basic
import Mathlib.Data.List.Sort
import Mathlib.Data.List.Infix
import Mathlib.Data.List.Nodup
import Rustybox.Modern.Xargs

/-!
# find

`modern/find.rs`: the command line and the walk loop, on a directory tree that the actions change.
The predicates come from outside, with the parser of their arguments, and so does the walk: of
`walkdir` it is known that it yields every entry once, and a directory before its contents unless
`contents_first` is set.

* `delete_iff`: `find ROOT -delete` empties the tree exactly when there is nothing in `ROOT`.
-/

namespace Rustybox.Modern.Find

open Rustybox.Rust

/-! ### Trees -/

/-- A path: the names from the root of the file system on. -/
abbrev Path := List (List UInt8)

/-- An entry of a directory tree. -/
structure Entry where
  path : Path
  isDir : Bool
  deriving DecidableEq

/-- The directory tree at `root`: its entries, each other than the root in a directory of it. -/
structure DirTree where
  root : Path
  entries : List Entry
  nodup : (entries.map Entry.path).Nodup
  mem_root : ∃ e ∈ entries, e.path = root
  parent : ∀ e ∈ entries, e.path ≠ root →
    ∃ d ∈ entries, d.isDir = true ∧ ∃ name, e.path = d.path ++ [name]
  below : ∀ e ∈ entries, root <+: e.path

/-- `walkdir::WalkDir` with the options `find` gives it. -/
structure WalkOptions where
  minDepth : ℕ
  maxDepth : ℕ
  contentsFirst : Bool := false

/-- What a walk is known to yield: the entries within the depths, a directory before its contents
unless `contents_first` is set. -/
structure WalkDir where
  walk : WalkOptions → DirTree → List Entry
  perm : ∀ o t, (walk o t).Perm (t.entries.filter fun e =>
    o.minDepth + t.root.length ≤ e.path.length ∧ e.path.length ≤ o.maxDepth + t.root.length)
  parents_first : ∀ o t, o.contentsFirst = false →
    (walk o t).Pairwise fun a b => b.path <+: a.path → a = b

/-! ### The command line -/

/-- The predicates: how the arguments of one are read, and how it is evaluated.  `-prune`, which
also changes the walk, is not among them. -/
structure Predicates (P : Type) where
  parse : List Char → List (List Char) → Option (Except String (P × List (List Char)))
  eval : P → List Entry → Entry → Bool

structure Command (P : Type) where
  paths : List (List Char) := []
  preds : List (Bool × P) := []
  actions : List Action := []
  minDepth : ℕ := 0
  maxDepth : ℕ := usizeMax

/-- A token that ends the starting paths. -/
def looksLikeExpression (t : List Char) : Bool :=
  "-".toList.isPrefixOf t || t == "!".toList || t == "(".toList || t == ")".toList

/-- The words of `-exec` up to its terminator, whether it is `+`, and the rest. -/
def execWords : List (List Char) → Option (List (List Char) × Bool × List (List Char))
  | [] => none
  | a :: args =>
    if a = ";".toList then some ([], false, args)
    else if a = "+".toList then some ([], true, args)
    else (execWords args).map fun (cmd, batch, rest) => (a :: cmd, batch, rest)

/-- The expression, with `negate` for an odd number of `!` before the next predicate. -/
def parseExpression {P : Type} (preds : Predicates P) :
    ℕ → Bool → Command P → List (List Char) → Except String (Command P)
  | 0, _, cmd, _ => .ok cmd
  | _, _, cmd, [] => .ok cmd
  | fuel + 1, negate, cmd, tok :: args =>
    let next := parseExpression preds fuel
    match String.ofList tok with
    | "!" | "-not" => next (!negate) cmd args
    | "-maxdepth" =>
      match args.head?.bind parseUsize with
      | some n => next negate { cmd with maxDepth := n } args.tail
      | none => .error "-maxdepth needs a number"
    | "-mindepth" =>
      match args.head?.bind parseUsize with
      | some n => next negate { cmd with minDepth := n } args.tail
      | none => .error "-mindepth needs a number"
    | "-quit" => next negate { cmd with actions := cmd.actions ++ [.quit] } args
    | "-print" => next negate { cmd with actions := cmd.actions ++ [.print] } args
    | "-print0" => next negate { cmd with actions := cmd.actions ++ [.print0] } args
    | "-delete" => next negate { cmd with actions := cmd.actions ++ [.delete] } args
    | "-exec" =>
      match execWords args with
      | some (argv, batch, rest) =>
        next negate { cmd with actions := cmd.actions ++ [.exec argv batch] } rest
      | none => .error "-exec not terminated by ; or +"
    | other =>
      match preds.parse tok args with
      | some (.ok (p, rest)) => next false { cmd with preds := cmd.preds ++ [(negate, p)] } rest
      | some (.error msg) => .error msg
      | none => .error ("unsupported predicate: " ++ other)

/-- The command line of `find`, its own name first. -/
def parseCommand {P : Type} (preds : Predicates P) (argv : List (List Char)) :
    Except String (Command P) := do
  let args := argv.drop 1
  let paths := args.takeWhile fun t => !looksLikeExpression t
  let rest := args.dropWhile fun t => !looksLikeExpression t
  let cmd ← parseExpression preds rest.length false
    { paths := if paths = [] then [".".toList] else paths } rest
  .ok { cmd with actions := if cmd.actions = [] then [.print] else cmd.actions }

/-! ### Removals -/

/-- `remove_dir`: only an empty directory goes. -/
def removeDir (fs : List Entry) (path : Path) : Option (List Entry) :=
  if (∃ e ∈ fs, e.path = path ∧ e.isDir = true) ∧ ∀ e ∈ fs, e.path.dropLast = path → e.path = path then
    some (fs.filter fun e => e.path ≠ path)
  else none

def removeFile (fs : List Entry) (path : Path) : Option (List Entry) :=
  if ∃ e ∈ fs, e.path = path ∧ e.isDir = false then some (fs.filter fun e => e.path ≠ path) else none

/-- `Action::Delete`. -/
def deleteEntry (fs : List Entry) (entry : Entry) : Option (List Entry) :=
  if entry.isDir then removeDir fs entry.path else removeFile fs entry.path

/-! ### The walk -/

/-- What the actions change: the tree, the output, the paths kept for `-exec ... +`, and `rc`. -/
structure World where
  fs : List Entry
  out : List UInt8 := []
  batch : List (List Char) := []
  rc : ℕ := 0

def pathString (path : Path) : List Char := fromUtf8Lossy ([0x2F].intercalate path)

/-- One action on one entry.  `runExec` says whether a command succeeded. -/
def actOn (runExec : List (List Char) → List (List Char) → Bool) (entry : Entry) (w : World) :
    Action → World
  | .quit => w
  | .print => { w with out := w.out ++ asBytes (pathString entry.path) ++ [0x0A] }
  | .print0 => { w with out := w.out ++ asBytes (pathString entry.path) ++ [0] }
  | .delete =>
    match deleteEntry w.fs entry with
    | some fs => { w with fs := fs }
    | none => { w with rc := 1 }
  | .exec argv batch =>
    if batch then { w with batch := w.batch ++ [pathString entry.path] }
    else if runExec argv [pathString entry.path] then w
    else { w with rc := 1 }

/-- The actions on one entry, and whether the walk goes on. -/
def actAll (runExec : List (List Char) → List (List Char) → Bool) (entry : Entry) :
    List Action → World → World × Bool
  | [], w => (w, true)
  | .quit :: _, w => (w, false)
  | a :: actions, w => actAll runExec entry actions (actOn runExec entry w a)

/-- The loop over the entries of a walk. -/
def walkLoop {P : Type} (preds : Predicates P) (runExec : List (List Char) → List (List Char) → Bool)
    (cmd : Command P) : List Entry → World → World
  | [], w => w
  | entry :: rest, w =>
    if cmd.preds.all fun (negate, p) => preds.eval p w.fs entry != negate then
      match actAll runExec entry cmd.actions w with
      | (w, true) => walkLoop preds runExec cmd rest w
      | (w, false) => w
    else walkLoop preds runExec cmd rest w

/-- The deferred `-exec ... +`. -/
def runBatch (runExec : List (List Char) → List (List Char) → Bool) (actions : List Action)
    (w : World) : World :=
  if w.batch = [] then w
  else
    actions.foldl
      (fun w a => match a with
        | .exec argv true => if runExec argv w.batch then w else { w with rc := 1 }
        | _ => w) w

/-- `run` on one starting path, whose tree is `t`: the exit code, and what is left of the tree. -/
def run {P : Type} (preds : Predicates P) (runExec : List (List Char) → List (List Char) → Bool)
    (wd : WalkDir) (argv : List (List Char)) (t : DirTree) : ℕ × List Entry :=
  match parseCommand preds argv with
  | .error _ => (2, t.entries)
  | .ok cmd =>
    let entries := wd.walk { minDepth := cmd.minDepth, maxDepth := cmd.maxDepth } t
    let w := runBatch runExec cmd.actions (walkLoop preds runExec cmd entries { fs := t.entries })
    (w.rc, w.fs)

/-! ### find ROOT -delete -/

variable {P : Type} {preds : Predicates P}
  {runExec : List (List Char) → List (List Char) → Bool}

theorem parseCommand_delete {root : List Char} (hroot : looksLikeExpression root = false) :
    parseCommand preds ["find".toList, root, "-delete".toList] =
      .ok { paths := [root], actions := [.delete] } := by
  have hdel : looksLikeExpression "-delete".toList = true := by decide
  simp only [parseCommand, List.drop_succ_cons, List.drop_zero, List.takeWhile_cons, hroot,
    List.dropWhile_cons, hdel]
  rfl

/-- The walk of a command without predicates whose one action is `-delete`. -/
def deleteAll (runExec : List (List Char) → List (List Char) → Bool) :
    List Entry → World → World
  | [], w => w
  | entry :: entries, w => deleteAll runExec entries (actOn runExec entry w .delete)

theorem walkLoop_delete (root : List Char) (entries : List Entry) (w : World) :
    walkLoop preds runExec { paths := [root], actions := [.delete] } entries w =
      deleteAll runExec entries w := by
  induction entries generalizing w with
  | nil => rfl
  | cons entry entries ih => exact ih _

theorem actOn_delete_some {entry : Entry} {w : World} {fs : List Entry}
    (h : deleteEntry w.fs entry = some fs) :
    actOn runExec entry w .delete = { w with fs := fs } := by simp only [actOn, h]

theorem actOn_delete_none {entry : Entry} {w : World} (h : deleteEntry w.fs entry = none) :
    actOn runExec entry w .delete = { w with rc := 1 } := by simp only [actOn, h]

theorem rc_deleteAll {entries : List Entry} {w : World} (h : w.rc = 1) :
    (deleteAll runExec entries w).rc = 1 := by
  induction entries generalizing w with
  | nil => exact h
  | cons entry entries ih =>
    refine ih ?_
    cases hd : deleteEntry w.fs entry with
    | some fs => rw [actOn_delete_some hd]; exact h
    | none => rw [actOn_delete_none hd]

/-- Nothing new appears. -/
theorem batch_deleteAll (entries : List Entry) (w : World) :
    (deleteAll runExec entries w).batch = w.batch := by
  induction entries generalizing w with
  | nil => rfl
  | cons entry entries ih =>
    refine (ih _).trans ?_
    cases hd : deleteEntry w.fs entry with
    | some fs => rw [actOn_delete_some hd]
    | none => rw [actOn_delete_none hd]

theorem run_delete (wd : WalkDir) {root : List Char} (hroot : looksLikeExpression root = false)
    (t : DirTree) :
    run preds runExec wd ["find".toList, root, "-delete".toList] t =
      ((deleteAll runExec (wd.walk ⟨0, usizeMax, false⟩ t) { fs := t.entries }).rc,
        (deleteAll runExec (wd.walk ⟨0, usizeMax, false⟩ t) { fs := t.entries }).fs) := by
  rw [run, parseCommand_delete hroot]
  dsimp only
  rw [walkLoop_delete, runBatch, if_pos (batch_deleteAll _ _)]

theorem exists_child (t : DirTree) {e : Entry} (he : e ∈ t.entries) (hne : e.path ≠ t.root) :
    ∃ d ∈ t.entries, ∃ name, d.path = t.root ++ [name] := by
  obtain ⟨n, hn⟩ : ∃ n, n = e.path.length := ⟨_, rfl⟩
  induction n using Nat.strongRecOn generalizing e with
  | ind n ih =>
    obtain ⟨d, hd, _, name, hname⟩ := t.parent e he hne
    by_cases hroot : d.path = t.root
    · exact ⟨e, he, name, by rw [hname, hroot]⟩
    · exact ih d.path.length (by rw [hn, hname]; simp) hd hroot rfl

theorem walk_starts (wd : WalkDir) (t : DirTree) (o : WalkOptions) (hmin : o.minDepth = 0)
    (hfirst : o.contentsFirst = false) :
    ∃ r rest, wd.walk o t = r :: rest ∧ r ∈ t.entries ∧ r.path = t.root := by
  obtain ⟨r, hr, hroot⟩ := t.mem_root
  have hmem : r ∈ wd.walk o t := by
    refine (wd.perm o t).mem_iff.mpr (List.mem_filter.mpr ⟨hr, ?_⟩)
    simp [hmin, hroot]
  have hpair := wd.parents_first o t hfirst
  cases hw : wd.walk o t with
  | nil => simp [hw] at hmem
  | cons a rest =>
    rw [hw] at hmem hpair
    have ha : a ∈ t.entries :=
      List.mem_of_mem_filter ((wd.perm o t).mem_iff.mp (hw ▸ List.mem_cons_self))
    rcases List.mem_cons.mp hmem with rfl | hmem
    · exact ⟨r, rest, rfl, hr, hroot⟩
    · -- what comes before the root lies below it
      have hra : a = r := (List.pairwise_cons.mp hpair).1 r hmem (hroot ▸ t.below a ha)
      exact ⟨a, rest, rfl, ha, hra ▸ hroot⟩

/-- **`find ROOT -delete` empties the tree and returns 0 exactly when there is nothing in
`ROOT`.** -/
theorem delete_iff (wd : WalkDir) (root : List Char) (hroot : looksLikeExpression root = false)
    (t : DirTree) :
    run preds runExec wd ["find".toList, root, "-delete".toList] t = (0, []) ↔
      ∀ e ∈ t.entries, e.path = t.root := by
  rw [run_delete wd hroot]
  obtain ⟨r, rest, hw, hr, hpath⟩ := walk_starts wd t ⟨0, usizeMax, false⟩ rfl rfl
  constructor
  · intro h
    by_contra hall
    obtain ⟨e, hall⟩ := not_forall.mp hall
    obtain ⟨he, hne⟩ := Classical.not_imp.mp hall
    obtain ⟨d, hd, name, hname⟩ := exists_child t he hne
    -- the root is visited first, and it has a child
    have hdir : r.isDir = true := by
      obtain ⟨p, hp, hpdir, name', hp'⟩ := t.parent d hd (by simp [hname])
      have hpr : p.path = r.path := by
        have := hname.symm.trans hp'
        rw [hpath, (List.append_inj' this rfl).1]
      rwa [← List.inj_on_of_nodup_map t.nodup hp hr hpr]
    have hfail : deleteEntry t.entries r = none := by
      rw [deleteEntry, if_pos hdir, removeDir, if_neg]
      rintro ⟨_, hempty⟩
      have := hempty d hd (by rw [hname, hpath, List.dropLast_concat])
      rw [hname, hpath] at this
      simp at this
    have hrc := congrArg Prod.fst h
    rw [hw] at hrc
    have hone : (deleteAll runExec (r :: rest) { fs := t.entries }).rc = 1 := by
      have hfirst : (actOn runExec r { fs := t.entries } .delete).rc = 1 := by
        rw [actOn_delete_none hfail]
      rw [deleteAll]
      exact rc_deleteAll hfirst
    omega
  · intro hall
    have hentries : t.entries = [r] := by
      have honly : ∀ e ∈ t.entries, e = r := fun e he =>
        List.inj_on_of_nodup_map t.nodup he hr ((hall e he).trans hpath.symm)
      have hrep := List.eq_replicate_of_mem honly
      have hnd : (List.replicate t.entries.length r).Nodup := hrep ▸ t.nodup.of_map
      have hlen : t.entries.length ≤ 1 := List.nodup_replicate.mp hnd
      have hpos : 0 < t.entries.length := List.length_pos_of_mem hr
      rw [hrep, show t.entries.length = 1 by omega]
      rfl
    have hlen := ((wd.perm ⟨0, usizeMax, false⟩ t).length_eq).trans_le (List.length_filter_le _ _)
    rw [hw, hentries, List.length_cons, List.length_singleton] at hlen
    have hrest : rest = [] := List.length_eq_zero_iff.mp (by omega)
    have hgone : deleteEntry t.entries r = some [] := by
      rw [hentries]
      cases hd : r.isDir <;> simp [deleteEntry, removeDir, removeFile, hd]
    rw [hw, hrest, deleteAll, actOn_delete_some hgone, deleteAll]

/-! ### A walk -/

/-- `a` is not deeper than `b`. -/
def Shallower (a b : Entry) : Prop := a.path.length ≤ b.path.length

instance (a b : Entry) : Decidable (Shallower a b) := inferInstanceAs (Decidable (_ ≤ _))

instance : Std.Total Shallower := ⟨fun a b => Nat.le_total a.path.length b.path.length⟩

instance : IsTrans Entry Shallower := ⟨fun _ _ _ => Nat.le_trans⟩

/-- A walk level by level. -/
def byDepth : WalkDir where
  walk o t := (t.entries.filter fun e => o.minDepth + t.root.length ≤ e.path.length ∧
    e.path.length ≤ o.maxDepth + t.root.length).insertionSort Shallower
  perm o t := List.perm_insertionSort _ _
  parents_first o t _ := by
    refine (List.pairwise_insertionSort Shallower _).imp_of_mem ?_
    intro a b ha hb hab hprefix
    have hmem : ∀ {e}, e ∈ List.insertionSort Shallower (t.entries.filter fun e =>
        o.minDepth + t.root.length ≤ e.path.length ∧
          e.path.length ≤ o.maxDepth + t.root.length) → e ∈ t.entries := fun he =>
      List.mem_of_mem_filter ((List.mem_insertionSort _).mp he)
    have hpath : b.path = a.path := hprefix.eq_of_length_le hab
    exact List.inj_on_of_nodup_map t.nodup (hmem ha) (hmem hb) hpath.symm

def noPredicates : Predicates Empty where
  parse _ _ := none
  eval p := p.elim

def emptyDir : DirTree where
  root := [[0x64]]
  entries := [⟨[[0x64]], true⟩]
  nodup := by decide
  mem_root := ⟨⟨[[0x64]], true⟩, by decide, rfl⟩
  parent := by simp
  below := by simp

theorem delete_iff_empty :
    run noPredicates (fun _ _ => true) byDepth ["find".toList, "d".toList, "-delete".toList]
        emptyDir = (0, []) ↔ ∀ e ∈ emptyDir.entries, e.path = emptyDir.root :=
  delete_iff byDepth "d".toList (by decide) emptyDir

def oneFile : DirTree where
  root := [[0x64]]
  entries := [⟨[[0x64]], true⟩, ⟨[[0x64], [0x66]], false⟩]
  nodup := by decide
  mem_root := ⟨⟨[[0x64]], true⟩, by decide, rfl⟩
  parent := by simp
  below := by simp

/-- Its file goes, and the directory stays. -/
theorem delete_leaves_directory :
    run noPredicates (fun _ _ => true) byDepth ["find".toList, "d".toList, "-delete".toList]
      oneFile = (1, [⟨[[0x64]], true⟩]) := by decide

end Rustybox.Modern.Find
