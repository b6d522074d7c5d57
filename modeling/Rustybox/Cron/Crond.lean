import Mathlib.Algebra.Ring.Nat
import Mathlib.Data.Int.Basic
import Mathlib.Data.List.Basic

/-!
# The main loop of crond

A wake-up reads the clock, flags the jobs of the minutes that have passed since the last
reading, starts what is flagged, and waits for what has finished.  The crontabs do not change.
How long the loop sleeps is no part of the model: the readings of the clock are its input, and
so are the answers of `fork` and `waitpid`.

`flagged` and `passed` are history: no step reads them.
-/

namespace Rustybox.Cron

/-- The fields of `struct tm` that crond looks at. -/
structure Tm where
  min : Fin 60
  hour : Fin 24
  mday : Fin 32
  mon : Fin 12
  wday : Fin 7

/-- When a line is due: `cl_Dow`, `cl_Mons`, `cl_Hrs`, `cl_Days` and `cl_Mins`. -/
structure Fields where
  dow : Fin 7 → Bool
  mons : Fin 12 → Bool
  hrs : Fin 24 → Bool
  days : Fin 32 → Bool
  mins : Fin 60 → Bool

/-- `CronLine`.  `pid` is positive for a running job, -1 for one that is to be started and -2 for
one to be started once.  `flagged` are the minutes the line was flagged for. -/
structure CronLine extends Fields where
  pid : ℤ
  emptyMailSize : ℤ
  flagged : List ℤ

structure CronFile where
  lines : List CronLine
  deleted : Bool
  wantsStarting : Bool
  hasRunning : Bool

/-- What a wake-up hears about a line: the size of the head of its mail file if there is one, the
process that was forked for it (0 for none), whether `waitpid` reports the job as finished, and
the sendmail that is then forked if there is mail. -/
structure LineAnswers where
  mailSize : Option ℤ
  pid : ℕ
  finished : Bool
  sendmail : Option ℕ

/-! ### Flags -/

def Fields.due (l : Fields) (tm : Tm) : Bool :=
  l.mins tm.min && l.hrs tm.hour && (l.days tm.mday || l.dow tm.wday) && l.mons tm.mon

/-- The body of the loops of `flag_starting_jobs` for the minute `t`. -/
def flagLine (tm : Tm) (t : ℤ) (l : CronLine) : CronLine :=
  if l.due tm then
    if l.pid > 0 then l -- process already running
    else if l.pid = 0 then { l with pid := -1, flagged := t :: l.flagged }
    else l
  else l

/-- A line gets flagged. -/
def flags (tm : Tm) (l : CronLine) : Bool := l.due tm && decide (l.pid = 0)

def flagFile (tm : Tm) (t : ℤ) (f : CronFile) : CronFile :=
  if f.deleted then f
  else
    { f with
      lines := f.lines.map (flagLine tm t)
      wantsStarting := f.wantsStarting || f.lines.any (flags tm) }

/-- The loop of `flag_starting_jobs` over the minutes from `t` on, `n` of which are to come. -/
def flagLoop (localtime : ℤ → Tm) (t1 t2 : ℤ) : ℕ → ℤ → List CronFile → List CronFile
  | 0, _, files => files
  | n + 1, t, files =>
    if t ≤ t2 then
      flagLoop localtime t1 t2 n (t + 60)
        (if t ≤ t1 then files else files.map (flagFile (localtime t) t))
    else files

/-- `flag_starting_jobs`: find jobs > `t1` and <= `t2`. -/
def flagStartingJobs (localtime : ℤ → Tm) (t1 t2 : ℤ) (files : List CronFile) : List CronFile :=
  let t := t1 - t1.tmod 60
  flagLoop localtime t1 t2 ((t2 - t) / 60 + 1).toNat t files

/-! ### Jobs -/

def startOneJob (a : LineAnswers) (l : CronLine) : CronLine :=
  { l with pid := a.pid, emptyMailSize := a.mailSize.getD 0 }

/-- `start_jobs` for one file; the answers are those for its lines. -/
def startFile (wantsStart : ℤ) (answers : ℕ → LineAnswers) (f : CronFile) : CronFile :=
  if f.wantsStarting then
    let lines := f.lines.mapIdx fun j l =>
      if l.pid = wantsStart then startOneJob (answers j) l else l
    { f with
      lines
      wantsStarting := false
      hasRunning := f.hasRunning ||
        (f.lines.mapIdx fun j l => decide (l.pid = wantsStart ∧ 0 < (answers j).pid)).any id }
  else f

def startJobs (wantsStart : ℤ) (answers : ℕ → ℕ → LineAnswers) (files : List CronFile) :
    List CronFile :=
  files.mapIdx fun i f => startFile wantsStart (answers i) f

/-- `process_finished_job`: where the job has written mail, a sendmail takes its place. -/
def processFinishedJob (a : LineAnswers) (l : CronLine) : CronLine :=
  if l.pid ≤ 0 then { l with pid := 0 }
  else if l.emptyMailSize ≤ 0 then { l with pid := 0 }
  else
    match a.sendmail with
    | none => { l with pid := 0 }
    | some pid => { l with pid, emptyMailSize := 0 }

/-- `check_completions` for one line. -/
def checkLine (a : LineAnswers) (l : CronLine) : CronLine :=
  if l.pid ≤ 0 then l else if a.finished then processFinishedJob a l else l

/-- `check_completions` for one file. -/
def checkFile (answers : ℕ → LineAnswers) (f : CronFile) : CronFile :=
  if f.hasRunning then
    let lines := f.lines.mapIdx fun j l => checkLine (answers j) l
    { f with lines, hasRunning := lines.any fun l => decide (0 < l.pid) }
  else f

def checkCompletions (answers : ℕ → ℕ → LineAnswers) (files : List CronFile) : List CronFile :=
  files.mapIdx fun i f => checkFile (answers i) f

/-! ### The main loop -/

/-- `passed` are the intervals of the wake-ups that ran jobs. -/
structure Crond where
  t2 : ℤ
  files : List CronFile
  passed : List (ℤ × ℤ)

/-- A reading of the clock, and the answers of the wake-up that makes it. -/
structure WakeUp where
  time : ℤ
  answers : ℕ → ℕ → LineAnswers

/-- The body of the main loop. -/
def wakeUp (localtime : ℤ → Tm) (s : Crond) (w : WakeUp) : Crond :=
  let t1 := s.t2
  let t2 := w.time
  let dt := t2 - t1
  if dt < -60 * 60 ∨ dt > 60 * 60 then
    -- time disparity detected, and we do not run any jobs in this case
    { s with t2 }
  else if dt > 0 then
    let files := flagStartingJobs localtime t1 t2 s.files
    let files := startJobs (-1) w.answers files
    { t2, files := checkCompletions w.answers files, passed := (t1, t2) :: s.passed }
  else
    -- time jumped back, do not run any jobs
    { s with t2 }

end Rustybox.Cron
