import Mathlib.Data.List.Basic
import Rustybox.Rust.Str
import Rustybox.Rust.Utf8

/-!
# `find -print0 | xargs -0`

`find` writes the names it has matched and `xargs` reads them back and appends them to its
command.  Both ends hold a name as a Rust string while they work on it, so a name of bytes
that are not UTF-8 is not the same at the other end.

* `pipeline_exact_iff`: the command gets the matched names, all of them and byte for byte,
  exactly when every name is UTF-8 and the system starts every invocation.
-/

namespace Rustybox.Modern

open Rustybox.Rust

/-! ### `find` -/

/-- The actions of `find`. -/
inductive Action where
  | print
  | print0
  | delete
  | exec (argv : List (List Char)) (batch : Bool)
  | quit
  deriving DecidableEq

/-- The bytes an action writes to the output of `find` for the string of a matched path, or
`none` when it ends the walk. -/
def Action.write (path : List Char) : Action → Option (List UInt8)
  | .print => some (asBytes path ++ [0x0A])
  | .print0 => some (asBytes path ++ [0])
  | .delete | .exec _ _ => some []
  | .quit => none

/-- The loop over the actions for one path: what is written, and whether the walk goes on. -/
def act (path : List Char) : List Action → List UInt8 × Bool
  | [] => ([], true)
  | a :: actions =>
    match a.write path with
    | none => ([], false)
    | some out => (out ++ (act path actions).1, (act path actions).2)

/-- The loop of `find` over the entries its predicates accept: the bytes on its output. -/
def find (actions : List Action) : List (List UInt8) → List UInt8
  | [] => []
  | path :: paths =>
    let step := act (fromUtf8Lossy path) actions   -- `entry.path().to_string_lossy()`
    step.1 ++ if step.2 then find actions paths else []

/-! ### `xargs` -/

def usizeMax : ℕ := 2 ^ 64 - 1

structure Options where
  nullSep : Bool := false
  verbose : Bool := false
  maxArgs : ℕ := usizeMax
  deriving DecidableEq

/-- The option loop of `run`: the options, and the words from the command on. -/
def parseOptions (o : Options) : List (List Char) → Options × List (List Char)
  | [] => (o, [])
  | arg :: args =>
    if arg = "-0".toList ∨ arg = "--null".toList then parseOptions { o with nullSep := true } args
    else if arg = "-t".toList ∨ arg = "--verbose".toList then
      parseOptions { o with verbose := true } args
    else if arg = "-n".toList ∨ arg = "--max-args".toList then
      match args with
      | [] => (o, [])
      | val :: args => parseOptions { o with maxArgs := (parseUsize val).getD o.maxArgs } args
    else if "-n".toList.isPrefixOf arg then
      parseOptions { o with maxArgs := (parseUsize (arg.drop 2)).getD o.maxArgs } args
    else if arg = "--".toList then (o, args)
    else if "-".toList.isPrefixOf arg then parseOptions o args
    else (o, arg :: args)

/-- What `run` works with once its command line is read. -/
structure Config where
  nullSep : Bool
  verbose : Bool
  maxArgs : ℕ
  cmdArgs : List (List Char)
  deriving DecidableEq

/-- The command line of `xargs`, its own name first. -/
def config (argv : List (List Char)) : Config :=
  let (o, args) := parseOptions {} (argv.drop 1)
  { nullSep := o.nullSep
    verbose := o.verbose
    maxArgs := if o.maxArgs = 0 then usizeMax else o.maxArgs
    cmdArgs := if args = [] then ["echo".toList] else args }

def tokens (nullSep : Bool) (input : List UInt8) : List (List Char) :=
  if nullSep then ((input.splitOn 0).filter (· ≠ [])).map fromUtf8Lossy
  else splitWhitespace (fromUtf8Lossy input)

/-- One command that was started: the words of the command line and the ones appended. -/
structure Invocation where
  cmdArgs : List (List Char)
  appended : List (List Char)
  deriving DecidableEq

section Status

/- `Command::status`: whether the command succeeded, or `none` when it could not be
started. -/
variable (status : List (List Char) → Option Bool)

/-- The loop over the chunks: the commands started and the exit code. -/
def invoke (cmdArgs : List (List Char)) (exitCode : ℕ) :
    List (List (List Char)) → List Invocation × ℕ
  | [] => ([], exitCode)
  | chunk :: chunks =>
    match status (cmdArgs ++ chunk) with
    | some success =>
      let rest := invoke cmdArgs (if success then exitCode else 1) chunks
      (⟨cmdArgs, chunk⟩ :: rest.1, rest.2)
    | none => ([], 127)

/-- `run` of `xargs` on the bytes of its standard input, which may fail to be read: the
commands it starts and its exit code. -/
def xargs (argv : List (List Char)) (stdin : Option (List UInt8)) : List Invocation × ℕ :=
  let c := config argv
  match stdin with
  | none => ([], 1)
  | some input =>
    if tokens c.nullSep input = [] then ([], 0)
    else invoke status c.cmdArgs 0 (chunks c.maxArgs (tokens c.nullSep input))

/-- The bytes of the words appended to the commands, in the order they were started. -/
def appendedBytes (invocations : List Invocation) : List (List UInt8) :=
  invocations.flatMap (fun i => i.appended.map asBytes)

@[simp]
theorem appendedBytes_cons (i : Invocation) (l : List Invocation) :
    appendedBytes (i :: l) = i.appended.map asBytes ++ appendedBytes l := rfl

/-! ### The words of the pipe -/

theorem find_print0_cons (path : List UInt8) (paths : List (List UInt8)) :
    find [.print0] (path :: paths) =
      asBytes (fromUtf8Lossy path) ++ 0 :: find [.print0] paths := by
  simp only [find, act, Action.write, List.append_nil, if_true, List.append_assoc,
    List.cons_append, List.nil_append]

/-- The words `xargs -0` finds in the output of `find -print0` for names that are UTF-8. -/
theorem tokens_find_print0 {paths : List (List UInt8)} (hne : ∀ p ∈ paths, p ≠ [])
    (hnul : ∀ p ∈ paths, (0 : UInt8) ∉ p) (hutf8 : ∀ p ∈ paths, IsUtf8 p) :
    tokens true (find [.print0] paths) = paths.map fromUtf8Lossy := by
  induction paths with
  | nil => rfl
  | cons p paths ih =>
    have hp : asBytes (fromUtf8Lossy p) = p :=
      (asBytes_fromUtf8Lossy_iff p).mpr (hutf8 p List.mem_cons_self)
    have hsplit : (p ++ 0 :: find [.print0] paths).splitOn 0 =
        p :: (find [.print0] paths).splitOn 0 := by
      have hp0 : ∀ b ∈ p, (b == (0 : UInt8)) = false := by
        intro b hb
        by_cases h : b = 0
        · exact absurd (h ▸ hb) (hnul p List.mem_cons_self)
        · simpa using h
      rw [List.splitOn, List.splitOnP_append_cons p _ (by rfl), List.splitOnP_eq_singleton hp0]
      rfl
    have ih := ih (fun q hq => hne q (List.mem_cons_of_mem _ hq))
      (fun q hq => hnul q (List.mem_cons_of_mem _ hq))
      (fun q hq => hutf8 q (List.mem_cons_of_mem _ hq))
    have hpne := hne p List.mem_cons_self
    simp only [tokens, if_true] at ih ⊢
    rw [find_print0_cons, hp, hsplit, List.filter_cons_of_pos (by simpa using hpne),
      List.map_cons, ih, List.map_cons]

/-! ### The commands started -/

/-- Whatever the commands do, what is appended to them is text. -/
theorem isUtf8_of_mem_appendedBytes {l : List Invocation} {w : List UInt8}
    (h : w ∈ appendedBytes l) : IsUtf8 w := by
  obtain ⟨i, -, hw⟩ := List.mem_flatMap.mp h
  obtain ⟨s, -, rfl⟩ := List.mem_map.mp hw
  exact ⟨s, rfl⟩

/-- The commands get all the chunks exactly when all of them are started. -/
theorem appendedBytes_invoke_iff (cmdArgs : List (List Char)) (exitCode : ℕ)
    (cs : List (List (List Char))) (hcs : ∀ c ∈ cs, c ≠ []) :
    appendedBytes (invoke status cmdArgs exitCode cs).1 = cs.flatten.map asBytes ↔
      ∀ c ∈ cs, (status (cmdArgs ++ c)).isSome := by
  induction cs generalizing exitCode with
  | nil => simp [invoke, appendedBytes]
  | cons c cs ih =>
    have ih := fun e => ih e (fun d hd => hcs d (List.mem_cons_of_mem _ hd))
    rw [invoke]
    cases hs : status (cmdArgs ++ c) with
    | some success =>
      simp only [appendedBytes_cons, List.flatten_cons, List.map_append, List.append_cancel_left_eq,
        ih, List.forall_mem_cons, hs, Option.isSome_some, true_and]
    | none =>
      -- the loop returns here, with the words of this chunk not passed on
      have hc : c ≠ [] := hcs c List.mem_cons_self
      have hne : (c ++ cs.flatten).map asBytes ≠ [] := by
        simp [hc]
      simp only [appendedBytes, List.flatMap_nil, List.flatten_cons, List.forall_mem_cons, hs,
        Option.isSome_none, Bool.false_eq_true, false_and, iff_false]
      exact fun h => hne h.symm

/-- **The pipe is exact for text only.**  The words appended to the commands are the matched
names exactly when every name is UTF-8 and every invocation is started. -/
theorem pipeline_exact_iff (paths : List (List UInt8)) (hne : ∀ p ∈ paths, p ≠ [])
    (hnul : ∀ p ∈ paths, (0 : UInt8) ∉ p) (argv : List (List Char))
    (hnull : (config argv).nullSep = true) :
    appendedBytes (xargs status argv (some (find [.print0] paths))).1 = paths ↔
      (∀ p ∈ paths, IsUtf8 p) ∧
      ∀ chunk ∈ chunks (config argv).maxArgs (paths.map fromUtf8Lossy),
        (status ((config argv).cmdArgs ++ chunk)).isSome := by
  by_cases hutf8 : ∀ p ∈ paths, IsUtf8 p
  · have ht := tokens_find_print0 hne hnul hutf8
    have hb : (paths.map fromUtf8Lossy).map asBytes = paths := by
      rw [List.map_map]
      exact (List.map_congr_left fun p hp =>
        (asBytes_fromUtf8Lossy_iff p).mpr (hutf8 p hp)).trans (List.map_id paths)
    have hi := appendedBytes_invoke_iff status (config argv).cmdArgs 0
      (chunks (config argv).maxArgs (paths.map fromUtf8Lossy)) (fun c hc => ne_nil_of_mem_chunks hc)
    rw [flatten_chunks, hb] at hi
    simp only [xargs, hnull, ht]
    split
    · next hnil =>
      have hpaths : paths = [] := List.map_eq_nil_iff.mp hnil
      subst hpaths
      simp [appendedBytes, chunks]
    · rw [hi]
      exact ⟨fun h => ⟨hutf8, h⟩, fun h => h.2⟩
  · refine iff_of_false (fun h => hutf8 fun p hp => ?_) (fun h => hutf8 h.1)
    rw [← h] at hp
    exact isUtf8_of_mem_appendedBytes hp

end Status

theorem pipeline_exact_iff_two_names :
    appendedBytes (xargs (fun _ => some true)
        ["xargs".toList, "-0".toList, "-n1".toList, "rm".toList]
        (some (find [.print0] [[0x61], [0xC3, 0xA9]]))).1 = [[0x61], [0xC3, 0xA9]] := by
  refine (pipeline_exact_iff (fun _ => some true) [[0x61], [0xC3, 0xA9]] (by decide) (by decide)
    ["xargs".toList, "-0".toList, "-n1".toList, "rm".toList] (by decide)).mpr ⟨?_, ?_⟩
  · intro p hp
    rcases List.mem_pair.mp hp with rfl | rfl
    · exact ⟨['a'], by decide⟩
    · exact ⟨['é'], by decide⟩
  · exact fun chunk _ => rfl

/-- Two different names become one on their way through the pipe. -/
theorem pipeline_not_exact :
    appendedBytes (xargs (fun _ => some true) ["xargs".toList, "-0".toList, "rm".toList]
        (some (find [.print0] [[0xFE], [0xFF]]))).1 =
      [[0xEF, 0xBF, 0xBD], [0xEF, 0xBF, 0xBD]] ∧
    ¬ appendedBytes (xargs (fun _ => some true) ["xargs".toList, "-0".toList, "rm".toList]
        (some (find [.print0] [[0xFE], [0xFF]]))).1 = [[0xFE], [0xFF]] := by
  have hFE : fromUtf8Lossy [0xFE] = [replacementCharacter] := by
    simp [fromUtf8Lossy, nextChar]
  have hFF : fromUtf8Lossy [0xFF] = [replacementCharacter] := by
    simp [fromUtf8Lossy, nextChar]
  have hrepl : asBytes [replacementCharacter] = [0xEF, 0xBF, 0xBD] := by decide
  have hfind : find [.print0] [[0xFE], [0xFF]] =
      [0xEF, 0xBF, 0xBD, 0, 0xEF, 0xBF, 0xBD, 0] := by
    rw [find_print0_cons, find_print0_cons, hFE, hFF, hrepl]
    rfl
  have htokens : tokens true [0xEF, 0xBF, 0xBD, 0, 0xEF, 0xBF, 0xBD, 0] =
      [[replacementCharacter], [replacementCharacter]] := by
    have h : fromUtf8Lossy [0xEF, 0xBF, 0xBD] = [replacementCharacter] := by
      rw [← hrepl, fromUtf8Lossy_asBytes]
    show [fromUtf8Lossy [0xEF, 0xBF, 0xBD], fromUtf8Lossy [0xEF, 0xBF, 0xBD]] = _
    rw [h]
  have hrun : appendedBytes
      (xargs (fun _ => some true) ["xargs".toList, "-0".toList, "rm".toList]
        (some (find [.print0] [[0xFE], [0xFF]]))).1 =
      [[0xEF, 0xBF, 0xBD], [0xEF, 0xBF, 0xBD]] := by
    have hc : config ["xargs".toList, "-0".toList, "rm".toList] =
        ⟨true, false, usizeMax, ["rm".toList]⟩ := by decide
    simp only [xargs, hc, hfind, htokens]
    simp [chunks, usizeMax, invoke, appendedBytes, hrepl]
  refine ⟨hrun, ?_⟩
  rw [hrun]
  decide

end Rustybox.Modern
