import Rustybox.Rust.Strtol

/-!
# patch

`apply_one_hunk` on a file that is open, and how `patch_main` gathers the lines of a hunk.  Lines are
without their newlines.
-/

namespace Rustybox.Patch

open Rust

/-- What the first character of a line of a hunk says. -/
inductive Sign
  | context
  | added
  | removed
deriving DecidableEq

structure HunkLine where
  sign : Sign
  text : Str
deriving DecidableEq

/-- A hunk with the lengths of its header.  `context` is how many lines of context it starts with. -/
structure Hunk where
  lines : List HunkLine
  oldlen : ℤ
  newlen : ℤ
  context : ℕ

/-- `-R` and `-N`. -/
structure Options where
  reverse : Bool
  forward : Bool

/-- The input and the output, line by line.  `tempname` says if there is an output, which is to take
the place of the original. -/
structure Globals where
  filein : List Str
  fileout : List Str
  tempname : Bool
  exitval : ℕ
  linenum : ℕ

/-! ### Gathering a hunk -/

/-- The sign of a line of the patch.  An empty line is a damaged line of context. -/
def hunkLine : Str → Option HunkLine
  | [] => some ⟨.context, []⟩
  | c :: text =>
    if c = 32 then some ⟨.context, text⟩
    else if c = 43 then some ⟨.added, text⟩
    else if c = 45 then some ⟨.removed, text⟩
    else none

/-- The lines of the patch after a header, up to the one with which the hunk is complete.  `first` is
`state == 2`: there has been context only. -/
def gather (h : Hunk) : ℤ → ℤ → Bool → ℕ → List HunkLine → List Str → Option Hunk
  | _, _, _, _, _, [] => none
  | oldlen, newlen, first, context, lines, patchline :: rest =>
    match hunkLine patchline with
    | none => none
    | some l =>
      let lines := lines ++ [l]
      let oldlen := if l.sign = .added then oldlen else oldlen - 1
      let newlen := if l.sign = .removed then newlen else newlen - 1
      let first' := first && l.sign = .context
      let context := if first' then context + 1 else context
      if oldlen = 0 ∧ newlen = 0 then some { h with lines, context }
      else gather h oldlen newlen first' context lines rest

/-! ### Applying it -/

/-- Which lines of the hunk are passed over: the ones it would add. -/
def skipped (reverse : Bool) : Sign := if reverse then .removed else .added

/-- The locals of the search that say which way it goes. -/
structure Flags where
  reverse : Bool
  backwarn : ℤ
  dummyRevert : Bool

variable (o : Options) (linenum : ℕ)

/-- A line of the file is one that the hunk would add.  With `-N` the search turns around. -/
def notice (f : Flags) : Flags :=
  if o.forward then ⟨!f.reverse, cInt linenum, true⟩ else { f with backwarn := cInt linenum }

/-- Pass over the lines of the hunk that it would add, when a line is read. -/
def skipRead (data : Option Str) : Flags → List HunkLine → Flags × List HunkLine
  | f, [] => (f, [])
  | f, l :: plist =>
    if l.sign = skipped f.reverse then
      if data = some l.text ∧ f.backwarn = 0 then
        -- After a turn the line is not one to pass over.
        if o.forward then (notice o linenum f, l :: plist)
        else skipRead data (notice o linenum f) plist
      else skipRead data f plist
    else (f, l :: plist)

/-- The same for a line in the buffer. -/
def skipCheck (check : Str) : Flags → List HunkLine → Flags × List HunkLine
  | f, [] => (f, [])
  | f, l :: plist =>
    if l.sign = skipped f.reverse then
      let f := if check = l.text ∧ f.backwarn = 0 then notice o linenum f else f
      skipCheck check f plist
    else (f, l :: plist)

/-- How a comparison of the hunk with the buffer ends. -/
inductive Outcome
  /-- Read more lines, and go on with this part of the hunk. -/
  | more (f : Flags) (plist : List HunkLine)
  | matched (f : Flags)
  | mismatch (f : Flags)

/-- Compare the lines from `check` on. -/
def compare (matcheof : Bool) : Flags → List HunkLine → List Str → Outcome
  | f, plist, [] => .more f plist
  | f, plist, check :: rest =>
    match skipCheck o linenum check f plist with
    | (f, []) => .mismatch f
    | (f, l :: plist) =>
      if check = l.text then
        if plist = [] ∧ matcheof = false then .matched f else compare matcheof f plist rest
      else .mismatch f

/-- `do_line` in state 3: `*line != state` is there for the states above, but it holds here too. -/
def flushed (line : Str) : List Str := if line.head? = some 3 then [] else [line]

/-- After a match failed: flush the first line and compare again with the rest of the buffer, as long
as that fails.  It returns what is written and what is left of the buffer. -/
def recheck (matcheof : Bool) (hunk : List HunkLine) : Flags → List Str → List Str × List Str × Outcome
  | f, [] => ([], [], .more f hunk)
  | f, line :: buf =>
    match compare o linenum matcheof f hunk (line :: buf) with
    | .mismatch f =>
      let (out, left, outcome) := recheck matcheof hunk f buf
      (flushed line ++ out, left, outcome)
    | outcome => ([], line :: buf, outcome)

/-- The end of the search. -/
structure Found where
  flags : Flags
  out : List Str
  filein : List Str
  linenum : ℕ

/-- Search for the hunk in the lines of the file. -/
def search (matcheof : Bool) (hunk : List HunkLine) :
    ℕ → Flags → List HunkLine → List Str → List Str → List Str → Option Found
  | linenum, f, plist, _, out, [] =>
    let (f, plist) := skipRead o (linenum + 1) none f plist
    if plist = [] ∧ matcheof then some ⟨f, out, [], linenum + 1⟩ else none
  | linenum, f, plist, buf, out, data :: filein =>
    let (f, plist) := skipRead o (linenum + 1) (some data) f plist
    match compare o (linenum + 1) matcheof f plist [data] with
    | .matched f => some ⟨f, out, filein, linenum + 1⟩
    | .more f plist => search matcheof hunk (linenum + 1) f plist (buf ++ [data]) out filein
    | .mismatch f =>
      match buf ++ [data] with
      | [] => none
      | line :: buf =>
        match recheck o (linenum + 1) matcheof hunk f buf with
        | (more, _, .matched f) => some ⟨f, out ++ flushed line ++ more, filein, linenum + 1⟩
        | (more, buf, .more f plist) =>
          search matcheof hunk (linenum + 1) f plist buf (out ++ flushed line ++ more) filein
        | (_, _, .mismatch _) => none

/-- Match the end of the file if there are not as many ending context lines as beginning. -/
def matchEof (h : Hunk) : Bool :=
  let ending := h.lines.foldl (fun n l => if l.sign = .context then n + 1 else 0) 0
  ending = 0 ∨ ending < h.context

/-- `finish_oldfile`: what becomes of the original. -/
def finishOldfile (original : List Str) (g : Globals) : List Str :=
  if g.tempname then g.fileout ++ g.filein else original

end Rustybox.Patch
