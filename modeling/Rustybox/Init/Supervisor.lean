import Rustybox.Rust.Str
import Rustybox.Lib.Machine
import Mathlib.Logic.Function.Basic

/-!
# The supervisor as a machine

`/etc/inittab` as `modern/init.rs` reads it: one `id:runlevels:action:process`
entry a line, the text from `#` on dropped, malformed lines reported with their
line number and skipped, and the built-in table when the file cannot be read or
has no entry left.

An `Action` is one entry together with the child it is running, so what a parse
returns never has a child (`parseInittab_pid`): a table that has just been read
knows of no process.

`init` runs forever between two things it does not control: its children, which
exit when they like, and the signals it is sent.  So it is a machine: a `Ctrl`
says where in the source it stands, and a label is either something that happens
to it (`exit`, `adopt`, `signal`) or its own next step together with the answer
of the system call in it (`fork`, `reap`, `readInittab`, ...).  What the kernel
may answer is in the guards: `fork` gives a pid no child of `init` has, `waitpid`
gives a child that has terminated and takes it out of the process table, so each
is given once.

The control points follow the source.  `runActions` is the head of the `for` of
`run_actions` and remembers who called it; `waitFor` is the loop of `wait_for`;
`check` is `check_delayed_sigs` with the flags it has still to look at; `drain` is
the call of `waitpid` in the main loop and `waiting` the same call when it blocks.
Code between two system calls is one step: in particular the main loop's reaping
and its `mark_terminated`.

Three things are recorded that the source does not have, and no step reads them:
for each child the entry it was started for and how many reloads there had been
by then, and in the state the number of reloads.
-/

namespace Rustybox.Init

open Rustybox.Rust

abbrev Pid := ℕ

def actSysinit : UInt8 := 0x01
def actWait : UInt8 := 0x02
def actOnce : UInt8 := 0x04
def actRespawn : UInt8 := 0x08
def actAskfirst : UInt8 := 0x10
def actCtrlaltdel : UInt8 := 0x20
def actShutdown : UInt8 := 0x40
def actRestart : UInt8 := 0x80

structure Action where
  terminal : String
  action : UInt8
  process : String
  pid : Option Pid
  deriving DecidableEq

def actionKeyword : String → Option UInt8
  | "sysinit" => some actSysinit
  | "wait" => some actWait
  | "once" => some actOnce
  | "respawn" => some actRespawn
  | "askfirst" => some actAskfirst
  | "ctrlaltdel" => some actCtrlaltdel
  | "shutdown" => some actShutdown
  | "restart" => some actRestart
  | _ => none

def defaultInittab : List Action :=
  [⟨"", actSysinit, "/etc/init.d/rcS", none⟩,
    ⟨"", actAskfirst, "/bin/sh", none⟩,
    ⟨"/dev/tty2", actAskfirst, "/bin/sh", none⟩,
    ⟨"/dev/tty3", actAskfirst, "/bin/sh", none⟩,
    ⟨"/dev/tty4", actAskfirst, "/bin/sh", none⟩,
    ⟨"", actCtrlaltdel, "reboot", none⟩,
    ⟨"", actShutdown, "umount -a -r", none⟩,
    ⟨"", actShutdown, "swapoff -a", none⟩,
    ⟨"", actRestart, "init", none⟩]

/-- What `parse_inittab` prints about a line it skips. -/
def badEntry (lineno : ℕ) : String := "init: bad inittab entry at line " ++ toString (lineno + 1)

/-- One line of the file: the entry on it, or the complaint about it, or neither. -/
def parseEntry (lineno : ℕ) (raw : List Char) : List Action × List String :=
  let line := raw.takeWhile (· ≠ '#')
  if line.all isWhitespace then ([], [])
  else
    match splitn 4 ':' line with
    | [id, _runlevels, actionStr, process] =>
      match actionKeyword (String.ofList actionStr) with
      | some action =>
        ([{ terminal := if id = [] then "" else "/dev/" ++ String.ofList id
            action
            process := String.ofList process
            pid := none }], [])
      | none => ([], [badEntry lineno])
    | _ => ([], [badEntry lineno])

/-- The table, and what was printed while it was read.  `none` is a file that
cannot be read. -/
def parseInittab : Option String → List Action × List String
  | none => (defaultInittab, [])
  | some content =>
    let parsed := (lines content.toList).zipIdx.map fun (raw, lineno) => parseEntry lineno raw
    let out := parsed.flatMap (·.1)
    (if out = [] then defaultInittab else out, parsed.flatMap (·.2))

theorem parseEntry_pid (lineno : ℕ) (raw : List Char) :
    ∀ a ∈ (parseEntry lineno raw).1, a.pid = none := by
  intro a ha
  rw [parseEntry] at ha
  split at ha
  · exact absurd ha (by simp)
  · split at ha
    · split at ha
      · rw [List.mem_singleton.mp ha]
      · exact absurd ha (by simp)
    · exact absurd ha (by simp)

/-- **A table that has just been read knows of no child.** -/
theorem parseInittab_pid (content : Option String) :
    ∀ a ∈ (parseInittab content).1, a.pid = none := by
  have hdefault : ∀ a ∈ defaultInittab, a.pid = none := by decide
  cases content with
  | none => exact hdefault
  | some content =>
    intro a ha
    rw [parseInittab] at ha
    dsimp only at ha
    split at ha
    · exact hdefault a ha
    · obtain ⟨entry, hentry, ha⟩ := List.mem_flatMap.mp ha
      obtain ⟨⟨raw, lineno⟩, -, rfl⟩ := List.mem_map.mp hentry
      exact parseEntry_pid lineno raw a ha

/-- The characters that send a command line through the shell. -/
def shellChars : List Char := "~`!$^&*()=|\\\x7b\x7d[];\"'<>?".toList

/-- The program and its arguments.  `none` is the panic of `CString::new` on a
command line with a NUL in it. -/
def buildArgv (process : String) : Option (String × List String) :=
  if '\x00' ∈ process.toList then none
  else if process.toList.any (· ∈ shellChars) then
    some ("/bin/sh", ["/bin/sh", "-c", process])
  else
    match splitWhitespace process.toList with
    | [] => some ("", [""])
    | prog :: words =>
      -- a leading dash marks a login shell and is not part of the path
      let path := if prog.head? = some '-' then prog.tail else prog
      some (String.ofList path, (prog :: words).map String.ofList)

/-! ## The supervisor -/

/-! ### Signals -/

/-- The signals with a flag in `PENDING`, in the order of their flags. -/
inductive Sig
  | hup | int | quit | term | usr1 | usr2
  deriving DecidableEq

/-- The flags in the order in which `check_delayed_sigs` looks at them. -/
def Sig.all : List Sig := [.hup, .int, .quit, .term, .usr1, .usr2]

/-- Whether a system call that a handler interrupts is resumed or fails with `EINTR`. -/
inductive SaFlags
  | restart | none
  deriving DecidableEq

/-- The flags that `install_signal_handlers` gives all six handlers. -/
def saFlags : SaFlags := .restart

/-! ### Control -/

/-- The three calls of `check_delayed_sigs` in a round of the main loop. -/
inductive Check
  | first | second | third
  deriving DecidableEq

/-- What a shutdown is for. -/
inductive Goal
  | restart
  | halt (sig : Sig)
  deriving DecidableEq

/-- Where `run_actions` was called from, with what comes after it. -/
inductive Caller
  | boot (rest : List UInt8)
  | respawn
  | ctrlAltDel (c : Check) (todo : List Sig)
  | shutdown (goal : Goal)
  deriving DecidableEq

/-- The argument of `reboot(2)`. -/
inductive Magic
  | autoboot | powerOff | haltSystem
  deriving DecidableEq

/-- A point of the program. -/
inductive Ctrl
  | runActions (mask : UInt8) (i : ℕ) (caller : Caller)
  | waitFor (pid : Pid) (mask : UInt8) (i : ℕ) (caller : Caller)
  | check (c : Check) (todo : List Sig) (any : Bool)
  | sleep
  | drain (nohang : Bool)
  | waiting
  | execRestart
  | reboot (magic : Magic)
  | awaitReboot (magic : Magic) (pid : Pid)
  | execed (path : String) (argv : List String)
  | exited
  deriving DecidableEq

/-! ### State -/

/-- An entry of the table across reloads: its text, and which of the lines with
that text it is. -/
structure EntryId where
  terminal : String
  action : UInt8
  process : String
  nth : ℕ
  deriving DecidableEq

/-- A child of `init` that has not been reaped. -/
structure Child where
  pid : Pid
  /-- It has not terminated yet. -/
  running : Bool
  /-- The `respawn` or `askfirst` entry it was started for. -/
  origin : Option EntryId
  /-- The number of reloads before it was started. -/
  gen : ℕ
  deriving DecidableEq

structure State where
  actions : List Action
  pending : Sig → Bool
  children : List Child
  ctrl : Ctrl
  stderr : List String
  gen : ℕ

/-- What happens: to `init`, or as its next step. -/
inductive Label
  | exit (pid : Pid)
  | adopt (pid : Pid)
  | signal (sig : Sig)
  | tau
  | fork (r : Except String Pid)
  | reap (pid : Pid)
  | stillAlive
  | echild
  | readInittab (content : Option String)
  | execvp (ok : Bool)

namespace State

def Fresh (s : State) (p : Pid) : Prop := ∀ c ∈ s.children, c.pid ≠ p

/-- `p` has terminated and can be reaped. -/
def Zombie (s : State) (p : Pid) : Prop := ∃ c ∈ s.children, c.pid = p ∧ c.running = false

instance (s : State) (p : Pid) : Decidable (s.Fresh p) :=
  inferInstanceAs (Decidable (∀ c ∈ s.children, c.pid ≠ p))

instance (s : State) (p : Pid) : Decidable (s.Zombie p) :=
  inferInstanceAs (Decidable (∃ c ∈ s.children, c.pid = p ∧ c.running = false))

/-- The process table after `p` was reaped. -/
def reaped (s : State) (p : Pid) : List Child := s.children.filter (·.pid ≠ p)

/-- The process table with a new child. -/
def withChild (s : State) (p : Pid) (origin : Option EntryId) : List Child :=
  ⟨p, true, origin, s.gen⟩ :: s.children

end State

/-! ### The functions of the source -/

namespace Action

/-- The text of an entry. -/
def key (a : Action) : String × UInt8 × String := (a.terminal, a.action, a.process)

/-- An entry whose process is kept running. -/
def Supervised (a : Action) : Prop := a.action &&& (actRespawn ||| actAskfirst) ≠ 0

instance (a : Action) : Decidable a.Supervised :=
  inferInstanceAs (Decidable (_ ≠ (0 : UInt8)))

end Action

/-- The identity of the entry `a` at position `i`. -/
def entryId (actions : List Action) (i : ℕ) (a : Action) : EntryId :=
  ⟨a.terminal, a.action, a.process, (actions.take i).countP fun b => b.key = a.key⟩

/-- Whether `run_actions` with this mask waits for each child it starts. -/
def waitsForCompletion (mask : UInt8) : Bool :=
  mask &&& (actSysinit ||| actWait ||| actCtrlaltdel ||| actShutdown) ≠ 0

/-- The table after the child `pid` was reaped, and what is printed. -/
def markTerminated (actions : List Action) (pid : Pid) : List Action × List String :=
  (actions.map fun a => if a.pid = some pid then { a with pid := none } else a,
    (actions.filter fun a => a.pid = some pid).map fun a =>
      "init: process '" ++ a.process ++ "' (" ++ toString pid ++
        ") exited. Scheduling for restart.")

def magic : Sig → Magic
  | .term => .autoboot
  | .usr2 => .powerOff
  | _ => .haltSystem

/-- Where `run_actions` returns to. -/
def returnTo : Caller → Ctrl
  | .boot [] => .check .first Sig.all false
  | .boot (mask :: rest) => .runActions mask 0 (.boot rest)
  | .respawn => .check .second Sig.all false
  | .ctrlAltDel c todo => .check c todo true
  | .shutdown .restart => .execRestart
  | .shutdown (.halt sig) => .reboot (magic sig)

/-- Where `check_delayed_sigs` returns to, with its result. -/
def afterCheck : Check → Bool → Ctrl
  | .first, _ => .runActions (actRespawn ||| actAskfirst) 0 .respawn
  | .second, true => .drain true
  | .second, false => .sleep
  | .third, any => .drain any

def mainLoop : Ctrl := .check .first Sig.all false

/-- The handlers are in place until a shutdown begins. -/
def handlersInstalled : Ctrl → Bool
  | .runActions _ _ (.shutdown _) | .waitFor _ _ _ (.shutdown _) => false
  | .execRestart | .reboot _ | .awaitReboot _ _ | .execed _ _ | .exited => false
  | _ => true

/-- Where a handler returns to: without `SA_RESTART` the `waitpid` it interrupted
fails, `wait_for` returns and the main loop breaks off its draining. -/
def interrupted : SaFlags → Ctrl → Ctrl
  | .none, .waitFor _ mask i caller => .runActions mask (i + 1) caller
  | .none, .waiting => mainLoop
  | _, ctrl => ctrl

/-! ### Steps -/

/-- The `for` of `run_actions`, at position `i`. -/
def stepRunActions (s : State) (mask : UInt8) (i : ℕ) (caller : Caller) (l : Label) :
    Option State :=
  let next : Ctrl := .runActions mask (i + 1) caller
  match s.actions[i]? with
  | none =>
    match l with
    | .tau => some { s with ctrl := returnTo caller }
    | _ => none
  | some a =>
    if a.action &&& mask = 0 then
      match l with
      | .tau => some { s with ctrl := next }
      | _ => none
    else if a.Supervised then
      match a.pid, l with
      | some _, .tau => some { s with ctrl := next }
      | none, .fork (.ok p) =>
        if s.Fresh p then
          some { s with
            actions := s.actions.set i { a with pid := some p }
            children := s.withChild p (some (entryId s.actions i a))
            ctrl := next }
        else none
      | none, .fork (.error e) =>
        some { s with ctrl := next, stderr := s.stderr ++ ["init: fork failed: " ++ e] }
      | _, _ => none
    else
      match l with
      | .fork (.ok p) =>
        if s.Fresh p then
          some { s with
            children := s.withChild p none
            ctrl := if waitsForCompletion mask then .waitFor p mask i caller else next }
        else none
      | .fork (.error e) =>
        some { s with ctrl := next, stderr := s.stderr ++ ["init: fork failed: " ++ e] }
      | _ => none

/-- The loop of `wait_for`: any child may be reaped, and nobody is told. -/
def stepWaitFor (s : State) (pid : Pid) (mask : UInt8) (i : ℕ) (caller : Caller) :
    Label → Option State
  | .reap p =>
    if s.Zombie p then
      some { s with
        children := s.reaped p
        ctrl := if p = pid then .runActions mask (i + 1) caller else s.ctrl }
    else none
  | .echild =>
    if s.children = [] then some { s with ctrl := .runActions mask (i + 1) caller } else none
  | _ => none

/-- `check_delayed_sigs`, about to look at the first flag of `todo`. -/
def stepCheck (s : State) (c : Check) (todo : List Sig) (any : Bool) (l : Label) : Option State :=
  match todo with
  | [] =>
    match l with
    | .tau => some { s with ctrl := afterCheck c any }
    | _ => none
  | sig :: todo =>
    if s.pending sig then
      let s := { s with pending := Function.update s.pending sig false }
      match sig, l with
      | .hup, .readInittab content =>
        some { s with
          actions := (parseInittab content).1
          stderr := s.stderr ++ (parseInittab content).2
          ctrl := .check c todo true
          gen := s.gen + 1 }
      | .int, .tau => some { s with ctrl := .runActions actCtrlaltdel 0 (.ctrlAltDel c todo) }
      | .quit, .tau => some { s with ctrl := .runActions actShutdown 0 (.shutdown .restart) }
      | .term, .tau => some { s with ctrl := .runActions actShutdown 0 (.shutdown (.halt .term)) }
      | .usr1, .tau => some { s with ctrl := .runActions actShutdown 0 (.shutdown (.halt .usr1)) }
      | .usr2, .tau => some { s with ctrl := .runActions actShutdown 0 (.shutdown (.halt .usr2)) }
      | _, _ => none
    else
      match l with
      | .tau => some { s with ctrl := .check c todo any }
      | _ => none

/-- A child of the main loop was reaped. -/
def reapMarked (s : State) (p : Pid) (ctrl : Ctrl) : Option State :=
  if s.Zombie p then
    some { s with
      actions := (markTerminated s.actions p).1
      stderr := s.stderr ++ (markTerminated s.actions p).2
      children := s.reaped p
      ctrl }
  else none

/-- The draining loop of the main loop, at its `waitpid`.  A call that may block
does so as long as there are children; the flags stay as they are from one call to
the next. -/
def stepDrain (s : State) : Bool → Label → Option State
  | true, .reap p => reapMarked s p (.drain true)
  | true, .stillAlive =>
    if s.children ≠ [] ∧ ∀ c ∈ s.children, c.running then some { s with ctrl := mainLoop } else none
  | false, .tau => if s.children ≠ [] then some { s with ctrl := .waiting } else none
  | _, .echild => if s.children = [] then some { s with ctrl := mainLoop } else none
  | _, _ => none

/-- `exec_restart_action`, after the shutdown. -/
def stepExecRestart (s : State) (l : Label) : Option State :=
  let fallback : Ctrl := .runActions actShutdown 0 (.shutdown (.halt .usr1))
  match s.actions.find? (fun a => a.action &&& actRestart ≠ 0), l with
  | none, .tau => some { s with ctrl := fallback }
  | some a, .execvp ok =>
    match buildArgv a.process with
    | none => some { s with ctrl := .exited }
    | some (path, argv) => some { s with ctrl := if ok then .execed path argv else fallback }
  | _, _ => none

/-- `halt_reboot_pwoff`, after the shutdown: the child that reboots, and the wait for it. -/
def stepReboot (s : State) (magic : Magic) : Label → Option State
  | .fork (.ok p) =>
    if s.Fresh p then
      some { s with children := s.withChild p none, ctrl := .awaitReboot magic p }
    else none
  | .fork (.error _) => some { s with ctrl := .exited }
  | _ => none

def stepAwaitReboot (s : State) (pid : Pid) : Label → Option State
  | .reap p =>
    if p = pid ∧ s.Zombie p then some { s with children := s.reaped p, ctrl := .exited } else none
  | _ => none

def stepInit (s : State) (l : Label) : Option State :=
  match s.ctrl with
  | .runActions mask i caller => stepRunActions s mask i caller l
  | .waitFor pid mask i caller => stepWaitFor s pid mask i caller l
  | .check c todo any => stepCheck s c todo any l
  | .sleep =>
    match l with
    | .tau => some { s with ctrl := .check .third Sig.all false }
    | _ => none
  | .drain nohang => stepDrain s nohang l
  | .waiting =>
    match l with
    | .reap p => reapMarked s p (.drain false)
    | _ => none
  | .execRestart => stepExecRestart s l
  | .reboot magic => stepReboot s magic l
  | .awaitReboot _ pid => stepAwaitReboot s pid l
  | .execed _ _ => none
  | .exited => none

/-- A step of the machine: a child exits, an orphan becomes a child of `init`, a
signal arrives, or `init` goes on. -/
def step (s : State) (l : Label) : Option State :=
  match l with
  | .exit p =>
    if ∃ c ∈ s.children, c.pid = p ∧ c.running = true then
      some { s with
        children := s.children.map fun c => if c.pid = p then { c with running := false } else c }
    else none
  | .adopt p =>
    if s.Fresh p then some { s with children := s.withChild p none } else none
  | .signal sig =>
    if handlersInstalled s.ctrl then
      some { s with
        pending := Function.update s.pending sig true
        ctrl := interrupted saFlags s.ctrl }
    else some s
  | l => stepInit s l

/-! ### Start -/

def isSingleUser (runlevel : String) : Bool :=
  runlevel = "single" ∨ runlevel = "-s" ∨ runlevel = "1"

/-- The state in which the supervisor starts to run actions. -/
def boot (runlevel : String) (content : Option String) : State :=
  let table := if isSingleUser runlevel then ([⟨"", actOnce, "/bin/sh", none⟩], [])
    else parseInittab content
  { actions := table.1
    pending := fun _ => false
    children := []
    ctrl := .runActions actSysinit 0 (.boot [actWait, actOnce])
    stderr := table.2
    gen := 0 }

/-- `run`: `-q` asks the running `init` to reload, and only process 1 supervises.
The exit code, or the state the supervisor starts in. -/
def run (argv : List String) (getpid : Pid) (content : Option String) : Except Int State :=
  if argv[1]? = some "-q" then .error 0
  else if getpid ≠ 1 then .error 1
  else .ok (boot (argv[1]?.getD "") content)

end Rustybox.Init
