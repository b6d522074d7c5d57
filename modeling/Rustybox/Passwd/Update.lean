import Rustybox.Rust.CStr
import Mathlib.Algebra.Group.Nat.Defs
import Rustybox.Lib.Machine
import Mathlib.Logic.Function.Basic

/-!
# Runs of update_passwd side by side

What `update_passwd` makes of the file, line by line.  A line is a C string, so it ends at a
newline or at a NUL.  `changed_lines` is an `int`, and is carried as one.

The runs share a directory with `FILE`, `FILE+` and `FILE-`, each a name for an inode, and the
locks on the inodes.  A step is one system call of one run, or the line it reads or writes; the
label says whose step it is and whether the call works.  Output goes to the new inode at once: it
has no other reader before it gets its name.
-/

namespace Rustybox.Passwd

open Rustybox.Rust

/-- The arguments of a call of `update_passwd`, with the first letter of `applet_name` and the
number of days that `time` gives.  `name` and `member` may be NULL. -/
structure Call where
  filename : Str
  name : Option Str
  newPasswd : Str
  member : Option Str
  applet : UInt8
  days : ℕ

/-- "are we modifying /etc/shadow?" -/
def Call.shadow (c : Call) : Bool := c.filename.tails.any (bytes "shadow").isPrefixOf

def Call.nameColon (c : Call) : Str := c.name.getD [] ++ [colon]

/-- Is the applet's first letter `letter`? -/
def Call.isApplet (c : Call) (letter : String) : Bool := bytes letter == [c.applet]

/-! ### Lines -/

/-- The lines that `xmalloc_fgetline` reads, without what ends them. -/
def linesOf : Str → List Str
  | [] => []
  | b :: s =>
    if b = newline ∨ b = 0 then [] :: linesOf s
    else
      match linesOf s with
      | [] => [[b]]
      | line :: lines => (b :: line) :: lines

/-- `xmalloc_fgetline`: the next line, and how many bytes were read for it. -/
def xmallocFgetline : Str → Option (Str × ℕ)
  | [] => none
  | b :: s =>
    if b = newline ∨ b = 0 then some ([], 1)
    else
      match xmallocFgetline s with
      | none => some ([b], 1)
      | some (line, n) => some (b :: line, n + 1)

/-! ### Edits of a line -/

/-- What becomes of the pointer `list` once a member name is found at it. -/
inductive Found where
  /-- It was the last one, and the string ends before it. -/
  | last
  /-- The next name moves up. -/
  | more (list : Str)
  /-- Only the beginning of another name. -/
  | other

/-- Look for `member` at the start of `list`. -/
def findMember (member list : Str) : Found :=
  match isPrefixedWith list member with
  | none => .other
  | some [] => .last
  | some (b :: rest) => if b = comma then .more rest else .other

/-- Delete `member` from the names of `list`; `front` is the line before it, which ends with a
colon or a comma.  Each round uses up a byte of `list`. -/
def dropMember (member : Str) : ℕ → Str → Str → Int32 → Str × Int32
  | 0, front, list, changed => (front ++ list, changed)
  | fuel + 1, front, list, changed =>
    match findMember member list with
    | .last => (if front.getLast? = some comma then front.dropLast else front, changed + 1)
    | .more list => dropMember member fuel front list (changed + 1)
    | .other =>
      match strchrnul list comma with
      | [] => (front ++ list, changed)
      | _ :: next =>
        dropMember member fuel (front ++ list.takeWhile (· ≠ comma) ++ [comma]) next changed

def deleteFromAll (member line : Str) (changed : Int32) : Str × Int32 :=
  match strrchr line colon with
  | none => (line, changed)
  | some (front, list) => dropMember member (list.length + 1) (front ++ [colon]) list changed

def addToGroup (member line : Str) : Str :=
  line ++ (if line.getLast? = some colon then [] else [comma]) ++ member

/-- Delete user from group: what is written, and how often the member was found. -/
def deleteFromGroup (member line : Str) : Str × ℕ :=
  match strrchr line colon with
  | none => (line, 0)
  | some (front, list) =>
    let tokens := strsep list comma
    (front ++ [colon] ++ [comma].intercalate (tokens.filter (· ≠ member)), tokens.count member)

/-- The change date, in days; 0 has special meaning, avoid it. -/
def timeDays (days : ℕ) : ℕ := if days % 2 ^ 32 = 0 then 1 else days % 2 ^ 32

/-- Change passwd; `cp` is what follows the name. -/
def changePasswd (c : Call) (cp : Str) : Str :=
  let cp := strchrnul cp colon
  match c.shadow, cp with
  | true, _ :: rest =>
    c.nameColon ++ c.newPasswd ++ [colon] ++ bytes (toString (timeDays c.days)) ++
      strchrnul rest colon
  | _, _ => c.nameColon ++ c.newPasswd ++ cp

/-- What is written for a line, and the lines changed. -/
def editLine (c : Call) (changed : Int32) (line : Str) : Str × Int32 :=
  match c.name, c.member with
  | none, some member =>
    let (line, changed) := deleteFromAll member line changed
    (line ++ [newline], changed)
  | _, member =>
    match isPrefixedWith line c.nameColon with
    | none => (line ++ [newline], changed)
    | some cp =>
      match member with
      | some member =>
        if c.isApplet "a" then (addToGroup member line ++ [newline], changed + 1)
        else
          let (line, found) := deleteFromGroup member line
          (line ++ [newline], changed + Int32.ofNat found)
      | none =>
        if c.isApplet "p" || c.isApplet "c" then (changePasswd c cp ++ [newline], changed + 1)
        -- else delete user or group: skip the line
        else ([], changed)

/-- Add user or group, where no line was changed. -/
def addEntry (c : Call) (changed : Int32) : Str × Int32 :=
  if changed = 0 ∧ c.isApplet "a" ∧ c.member = none then
    (c.nameColon ++ c.newPasswd ++ [newline], changed + 1)
  else ([], changed)

/-! ### The whole file -/

/-- What the new file is once the lines that are left have been edited and `out` is written. -/
def finish (c : Call) : List Str → Str → Int32 → Str
  | [], out, changed => out ++ (addEntry c changed).1
  | line :: lines, out, changed =>
    finish c lines (out ++ (editLine c changed line).1) (editLine c changed line).2

/-- The file that a call makes of a file with this content. -/
def update (c : Call) (content : Str) : Str := finish c (linesOf content) [] 0

theorem linesOf_eq (s : Str) :
    linesOf s = match xmallocFgetline s with
      | none => []
      | some (line, n) => line :: linesOf (s.drop n) := by
  induction s with
  | nil => rfl
  | cons b s ih =>
    by_cases hb : b = newline ∨ b = 0
    · simp [linesOf, xmallocFgetline, hb]
    · cases h : xmallocFgetline s with
      | none =>
        rw [h] at ih
        have hs : s = [] := by
          cases s with
          | nil => rfl
          | cons a s =>
            rw [xmallocFgetline] at h
            split at h
            · cases h
            · split at h <;> cases h
        subst hs
        simp [linesOf, xmallocFgetline, hb]
      | some r =>
        rw [h] at ih
        simp only [linesOf, xmallocFgetline, hb, if_false, h, ih, List.drop_succ_cons]

/-! ## Runs side by side -/

/-! ### States -/

/-- What a run holds while it owns `FILE+`: the inode that it opened, the new one, how far it has
read, `changed_lines`, and whether reading failed. -/
structure Work where
  old : ℕ
  new : ℕ
  pos : ℕ
  changed : Int32
  readError : Bool
  deriving DecidableEq

/-- What a run does next. -/
inductive Phase where
  /-- It opens `FILE`. -/
  | start
  /-- It creates `FILE+`, with `i` tries left. -/
  | waiting (old i : ℕ)
  /-- It deletes the old backup. -/
  | backup (k : Work)
  /-- It creates the backup, unless the old one could not be deleted. -/
  | linking (k : Work) (failed : Bool)
  | locking (k : Work)
  | reading (k : Work)
  | writing (k : Work) (line : Str)
  /-- All lines are read. -/
  | ending (k : Work)
  | unlocking (k : Work)
  | closing (k : Work)
  | replacing (k : Work)
  /-- It has failed, and deletes `FILE+`. -/
  | removing (k : Work) (ret : Int32)
  | returned (ret : Int32)
  deriving DecidableEq

/-- What a run holds in a phase. -/
def Phase.work : Phase → Option Work
  | .backup k => some k
  | .linking k _ => some k
  | .locking k => some k
  | .reading k => some k
  | .writing k _ => some k
  | .ending k => some k
  | .unlocking k => some k
  | .closing k => some k
  | .replacing k => some k
  | .removing k _ => some k
  | .start => none
  | .waiting _ _ => none
  | .returned _ => none

/-- The inode that a run has opened, while it waits for `FILE+`. -/
def Phase.opened : Phase → Option ℕ
  | .waiting old _ => some old
  | _ => none

/-- The directory and the runs.  `order` and `versions` are history: the runs that renamed
`FILE+`, and the contents that `FILE` and `FILE-` have had. -/
structure State (ι : Type) where
  data : ℕ → Str
  next : ℕ
  file : Option ℕ
  plus : Option ℕ
  backup : Option ℕ
  locks : List (ι × ℕ)
  phase : ι → Phase
  order : List ι
  versions : List Str

/-- A step: whose it is, and whether what it asks of the system works. -/
structure Move (ι : Type) where
  who : ι
  ok : Bool

section
variable {ι : Type} [DecidableEq ι]

def State.content (s : State ι) : Option Str := s.file.map s.data

def State.goto (s : State ι) (p : ι) (phase : Phase) : State ι :=
  { s with phase := Function.update s.phase p phase }

def State.write (s : State ι) (n : ℕ) (text : Str) : State ι :=
  { s with data := Function.update s.data n (s.data n ++ text) }

/-! ### Steps -/

/-- Open the file: "missing shadow is not an error". -/
def openFile (c : Call) (s : State ι) (p : ι) (ok : Bool) : State ι :=
  match ok, s.file with
  | true, some old => s.goto p (.waiting old 30)
  | _, _ => s.goto p (.returned (if c.shadow then 0 else -1))

/-- Try to create `FILE+`.  Wait if it exists. -/
def createPlus (s : State ι) (p : ι) (old i : ℕ) (ok : Bool) : State ι :=
  match ok, s.plus with
  | false, _ => s.goto p (.returned (-1))
  | true, some _ => s.goto p (if i - 1 = 0 then .returned (-1) else .waiting old (i - 1))
  | true, none =>
    { s with
      data := Function.update s.data s.next []
      next := s.next + 1
      plus := some s.next
    }.goto p (.backup ⟨old, s.next, 0, 0, false⟩)

/-- Delete the old backup; that there is none is no failure. -/
def deleteBackup (s : State ι) (p : ι) (k : Work) (ok : Bool) : State ι :=
  if ok ∨ s.backup = none then { s with backup := none }.goto p (.linking k false)
  else s.goto p (.linking k true)

/-- Create the backup as a hard link to the current file, or warn. -/
def linkBackup (s : State ι) (p : ι) (k : Work) (failed ok : Bool) : State ι :=
  if failed = false ∧ ok ∧ s.backup = none then { s with backup := s.file }.goto p (.locking k)
  else s.goto p (.locking k)

/-- Lock the file that is to be read, or warn. -/
def lockFile (s : State ι) (p : ι) (k : Work) (ok : Bool) : State ι :=
  if ok ∧ ∀ l ∈ s.locks, l.2 = k.old → l.1 = p then
    { s with locks := (p, k.old) :: s.locks }.goto p (.reading k)
  else s.goto p (.reading k)

def readLine (s : State ι) (p : ι) (k : Work) (ok : Bool) : State ι :=
  if ok then
    match xmallocFgetline ((s.data k.old).drop k.pos) with
    | some (line, n) => s.goto p (.writing { k with pos := k.pos + n } line)
    | none => s.goto p (.ending k)
  else s.goto p (.ending { k with readError := true })

/-- Write what becomes of a line. -/
def writeLine (c : Call) (s : State ι) (p : ι) (k : Work) (line : Str) : State ι :=
  (s.write k.new (editLine c k.changed line).1).goto p
    (.reading { k with changed := (editLine c k.changed line).2 })

/-- Write the new entry, if there is one. -/
def writeEntry (c : Call) (s : State ι) (p : ι) (k : Work) : State ι :=
  (s.write k.new (addEntry c k.changed).1).goto p
    (.unlocking { k with changed := (addEntry c k.changed).2 })

def unlockFile (s : State ι) (p : ι) (k : Work) : State ι :=
  { s with locks := s.locks.filter fun l => ¬ (l.1 = p ∧ l.2 = k.old) }.goto p (.closing k)

/-- `ferror`, `fflush`, `fsync` and `fclose`. -/
def closePlus (s : State ι) (p : ι) (k : Work) (ok : Bool) : State ι :=
  if ok ∧ k.readError = false then s.goto p (.replacing k) else s.goto p (.removing k (-1))

def renamePlus (s : State ι) (p : ι) (k : Work) (ok : Bool) : State ι :=
  match ok, s.plus with
  | true, some n =>
    { s with
      file := some n
      plus := none
      order := s.order ++ [p]
      versions := s.versions ++ [s.data n]
    }.goto p (if k.changed < 0 then .removing k k.changed else .returned k.changed)
  | _, _ => s.goto p (.removing k (-1))

def removePlus (s : State ι) (p : ι) (ret : Int32) (ok : Bool) : State ι :=
  { s with plus := if ok then none else s.plus }.goto p (.returned ret)

/-- The next step of a run; none once it has returned. -/
def step (calls : ι → Call) (s : State ι) (m : Move ι) : Option (State ι) :=
  match s.phase m.who with
  | .start => some (openFile (calls m.who) s m.who m.ok)
  | .waiting old i => some (createPlus s m.who old i m.ok)
  | .backup k => some (deleteBackup s m.who k m.ok)
  | .linking k failed => some (linkBackup s m.who k failed m.ok)
  | .locking k => some (lockFile s m.who k m.ok)
  | .reading k => some (readLine s m.who k m.ok)
  | .writing k line => some (writeLine (calls m.who) s m.who k line)
  | .ending k => some (writeEntry (calls m.who) s m.who k)
  | .unlocking k => some (unlockFile s m.who k)
  | .closing k => some (closePlus s m.who k m.ok)
  | .replacing k => some (renamePlus s m.who k m.ok)
  | .removing _ ret => some (removePlus s m.who ret m.ok)
  | .returned _ => none

/-- Before the runs: every inode is an old one, and the file and its backup are what there was of
versions. -/
structure Initial (s : State ι) : Prop where
  file : ∀ n, s.file = some n → n < s.next
  backup : ∀ n, s.backup = some n → n < s.next
  phase : ∀ p, s.phase p = .start
  order : s.order = []
  versions : s.versions = s.content.toList ++ (s.backup.map s.data).toList

/-! ### What is meant -/

/-- All runs have returned, and none with an error. -/
def AllSucceeded (s : State ι) : Prop := ∀ p, ∃ ret, s.phase p = .returned ret ∧ 0 ≤ ret

/-- What the calls make of a file, one after the other.  A file that is missing stays so. -/
def serial (calls : ι → Call) (order : List ι) (content : Option Str) : Option Str :=
  order.foldl (fun content p => content.map (update (calls p))) content

end

end Rustybox.Passwd
