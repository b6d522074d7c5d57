import Rustybox.Rust.CStr
import Rustybox.Rust.Strtol
import Mathlib.Algebra.Ring.Nat

/-!
# Selectors of syslog.conf, and messages of syslogd

`parse_syslogdcfg` makes a map of levels for each facility from a field such as
`kern.info;kern.!err`.  `!` takes the complement of the levels and masks the map with it, but `*`
has a branch of its own that leaves the complement out: `!*` changes nothing.

`split_escape_and_log` takes a datagram apart at its NULs, reads the priority of each piece, escapes
its control characters, and has `timestamp_and_log` log it.  The sizes of the two buffers and of the
map of a rule are checked here: an index outside of them gives `none`.
-/

namespace Rustybox.Syslog

open Rust

def semicolon : UInt8 := 59
def bang : UInt8 := 33
def equals : UInt8 := 61

/-! ### Names -/

structure Code where
  cName : Str
  cVal : ℕ

def INTERNAL_NOPRI : ℕ := 0x10
def INTERNAL_MARK : ℕ := 24 <<< 3

def prioritynames : List Code :=
  [⟨bytes "alert", 1⟩, ⟨bytes "crit", 2⟩, ⟨bytes "debug", 7⟩, ⟨bytes "emerg", 0⟩, ⟨bytes "err", 3⟩,
    ⟨bytes "error", 3⟩, ⟨bytes "info", 6⟩, ⟨bytes "none", INTERNAL_NOPRI⟩, ⟨bytes "notice", 5⟩,
    ⟨bytes "panic", 0⟩, ⟨bytes "warn", 4⟩, ⟨bytes "warning", 4⟩]

def facilitynames : List Code :=
  [⟨bytes "auth", 4 <<< 3⟩, ⟨bytes "authpriv", 10 <<< 3⟩, ⟨bytes "cron", 9 <<< 3⟩,
    ⟨bytes "daemon", 3 <<< 3⟩, ⟨bytes "ftp", 11 <<< 3⟩, ⟨bytes "kern", 0 <<< 3⟩,
    ⟨bytes "lpr", 6 <<< 3⟩, ⟨bytes "mail", 2 <<< 3⟩, ⟨bytes "mark", INTERNAL_MARK⟩,
    ⟨bytes "news", 7 <<< 3⟩, ⟨bytes "security", 4 <<< 3⟩, ⟨bytes "syslog", 5 <<< 3⟩,
    ⟨bytes "user", 1 <<< 3⟩, ⟨bytes "uucp", 8 <<< 3⟩, ⟨bytes "local0", 16 <<< 3⟩,
    ⟨bytes "local1", 17 <<< 3⟩, ⟨bytes "local2", 18 <<< 3⟩, ⟨bytes "local3", 19 <<< 3⟩,
    ⟨bytes "local4", 20 <<< 3⟩, ⟨bytes "local5", 21 <<< 3⟩, ⟨bytes "local6", 22 <<< 3⟩,
    ⟨bytes "local7", 23 <<< 3⟩]

def findByName (name : Str) (cSet : List Code) : Option ℕ :=
  (cSet.find? (·.cName = name)).map (·.cVal)

/-! ### The parser -/

/-- `enabled_facility_priomap`. -/
abbrev Priomap := Fin 24 → BitVec 8

/-- The loop that sets the level and those above it; the bit is shifted out after 8 turns. -/
def priorityLoop (single : Bool) : ℕ → BitVec 8 → BitVec 8 → BitVec 8
  | 0, _, primap => primap
  | turns + 1, priority, primap =>
    let primap := primap ||| priority
    if single then primap
    else
      let priority := priority >>> 1
      if priority ≠ 0 then priorityLoop single turns priority primap else primap

/-- `parse priority`: `negated_prio` and `primap`; none for a name that is not known. -/
def parsePriority (t : Str) : Option (Bool × BitVec 8) :=
  let (negated, t) := if t.head? = some bang then (true, t.tail) else (false, t)
  let (single, t) := if t.head? = some equals then (true, t.tail) else (false, t)
  if t.head? = some star then some (negated, 0xff)
  else
    match findByName t prioritynames with
    | none => none
    | some priority =>
      if priority = INTERNAL_NOPRI then some (true, 0)
      else
        let primap := priorityLoop single 8 (1#8 <<< priority) 0
        some (negated, if negated then ~~~primap else primap)

/-- `parse facility`, for the names between the commas. -/
def facilityLoop : List Str → BitVec 32 → Option (BitVec 32)
  | [], facmap => some facmap
  | t :: ts, facmap =>
    match findByName t facilitynames with
    | none => none
    | some code =>
      -- "mark" is not a real facility, skip it
      facilityLoop ts
        (if code ≠ INTERNAL_MARK then facmap ||| 1#32 <<< ((code &&& 0x3f8) >>> 3) else facmap)

def parseFacility (s : Str) : Option (BitVec 32) :=
  if s.head? = some star then some (1#32 <<< 24 - 1#32) else facilityLoop (strsep s comma) 0

/-- One selector, such as `kern.!err`. -/
def parseSelector (s : Str) (priomap : Priomap) : Option Priomap :=
  if dot ∉ s then none
  else
    match parsePriority (s.dropWhile (· ≠ dot)).tail, parseFacility (s.takeWhile (· ≠ dot)) with
    | some (negated, primap), some facmap =>
      some fun i =>
        if facmap &&& 1#32 <<< i.val = 0 then priomap i
        else if negated then priomap i &&& primap
        else priomap i ||| primap
    | _, _ => none

/-- The loop over the selectors; with none `syslogd` dies. -/
def selectorLoop : List Str → Priomap → Option Priomap
  | [], priomap => some priomap
  | s :: ss, priomap =>
    match parseSelector s priomap with
    | none => none
    | some priomap => selectorLoop ss priomap

/-- `parse_syslogdcfg` for one line: the map of its rule. -/
def parseSelectors (tok : Str) : Option Priomap := selectorLoop (strsep tok semicolon) fun _ => 0

/-! ## Messages -/

def space : UInt8 := 32
def caret : UInt8 := 94

/-- A rule of syslog.conf; `F` are the log files. -/
structure LogRule (F : Type) where
  enabledFacilityPriomap : Priomap
  file : F

/-- What the two functions read of the globals and the options. -/
structure Globals (F : Type) where
  optTimestamp : Bool
  optKmsg : Bool
  optSmall : Bool
  optCircularlog : Bool
  /-- Is there a `shbuf`? -/
  shbuf : Bool
  hostname : Str
  primask : BitVec 32
  logLevel : ℤ
  logFile : F
  logRules : List (LogRule F)

/-- Where a message is logged to. -/
inductive Target (F : Type)
  | kmsg
  | shmem
  | file (f : F)

/-! ### Priorities -/

/-- `bb_strtou` with base 10: the number, and the string behind it. -/
def bbStrtou (arg : Str) : BitVec 32 × Str :=
  if arg.head?.any isAlnum = false then (BitVec.allOnes 32, arg)
  else
    let v := digitsValue (arg.takeWhile isDigit)
    let endp := arg.dropWhile isDigit
    -- out of range, or "1234abcg"
    if 2 ^ 32 - 1 < v ∨ endp.head?.any isAlnum = true then (BitVec.allOnes 32, endp)
    else (BitVec.ofNat 32 v, endp)

/-- The default: a notice of a user. -/
def LOG_USER_NOTICE : BitVec 32 := 1 <<< 3 ||| 5

/-- Parse the magic priority number. -/
def parsePri (p : Str) : BitVec 32 × Str :=
  if p.head? = some 60 then
    let (pri, p) := bbStrtou p.tail
    let p := if p.head? = some 62 then p.tail else p
    (if pri &&& ~~~(0x3f8 ||| 0x7) ≠ 0 then LOG_USER_NOTICE else pri, p)
  else (LOG_USER_NOTICE, p)

/-! ### Escaping -/

def put (parsebuf : List UInt8) (c : UInt8) : Option (List UInt8) :=
  if parsebuf.length < 512 then some (parsebuf ++ [c]) else none

/-- Copy a piece up to its NUL: what is behind the NUL, and `parsebuf`. -/
def escapeLoop : Str → List UInt8 → Option (Str × List UInt8)
  | [], _ => none
  | c :: p, parsebuf =>
    if c = 0 then if parsebuf.length < 512 then some (p, parsebuf) else none
    else
      let c := if c = newline then space else c
      if c &&& ~~~0x1f = 0 ∧ c ≠ 9 then do
        -- ^@, ^A, ^B...
        let parsebuf ← put parsebuf caret
        let parsebuf ← put parsebuf (c + 64)
        escapeLoop p parsebuf
      else do
        let parsebuf ← put parsebuf c
        escapeLoop p parsebuf

/-! ### Logging -/

def decimal (n : ℕ) : Str := (Nat.toDigits 10 n).map fun c => UInt8.ofNat c.toNat

/-- `%d`. -/
def formatD (x : BitVec 32) : Str := if x.msb then 45 :: decimal (-x).toNat else decimal x.toNat

def findByVal (val : ℕ) (cSet : List Code) : Option Str :=
  (cSet.find? (·.cVal = val)).map (·.cName)

def parseFacPrio20 (pri : BitVec 32) : Str :=
  let unnamed := 60 :: formatD pri ++ [62]
  let res :=
    match findByVal ((pri &&& 0x3f8) >>> 3 <<< 3).toNat facilitynames with
    | none => unnamed
    | some fac =>
      match findByVal (pri &&& 0x7).toNat prioritynames with
      | none => unnamed
      | some pri => fac ++ dot :: pri
  res.take 19

/-- `sprintf` to `printbuf`. -/
def sprintf (s : Str) : Option Str := if s.length < 640 then some s else none

/-- `Jan 18 00:11:22 msg...` -/
def stamped (msg : Str) : Bool :=
  16 ≤ msg.length && msg[3]? = some space && msg[6]? = some space && msg[9]? = some colon &&
    msg[12]? = some colon && msg[15]? = some space

section

variable {F : Type} (g : Globals F)

/-- The timestamp, and the message without its own; `ctime` is what the C function returns. -/
def timestamp (ctime msg : Str) : Str × Str :=
  let now := (ctime.drop 4).take 15 -- skip day of week
  if stamped msg then (if g.optTimestamp then now else msg.take 15, msg.drop 16) else (now, msg)

/-- What is printed for a message. -/
def printed (ctime : Str) (pri : BitVec 32) (msg : Str) : Str :=
  let (timestamp, msg) := timestamp g ctime msg
  if g.optKmsg then 60 :: formatD (pri &&& g.primask) ++ 62 :: msg ++ [newline]
  else if g.optSmall then timestamp ++ space :: msg ++ [newline]
  else
    timestamp ++ space :: g.hostname.take 64 ++ space :: parseFacPrio20 pri ++ space :: msg ++
      [newline]

/-- The files of the rules that match; `none` where the facility is no index of a map. -/
def ruleLoop (facility : ℕ) (prioBit : BitVec 8) : List (LogRule F) → Option (List F)
  | [] => some []
  | rule :: rules =>
    if h : facility < 24 then do
      let files ← ruleLoop facility prioBit rules
      if rule.enabledFacilityPriomap ⟨facility, h⟩ &&& prioBit ≠ 0 then some (rule.file :: files)
      else some files
    else none

/-- `timestamp_and_log`: where the message is logged to, and the text. -/
def timestampAndLog (ctime : Str) (pri : BitVec 32) (msg : Str) :
    Option (List (Target F × Str)) := do
  let printbuf ← sprintf (printed g ctime pri msg)
  if g.optKmsg then some [(.kmsg, printbuf)]
  else do
    let facility := ((pri &&& 0x3f8) >>> 3).setWidth 8
    let prioBit := 1#8 <<< (pri &&& 0x7).toNat
    let files ← ruleLoop facility.toNat prioBit g.logRules
    if files ≠ [] then some (files.map fun f => (.file f, printbuf))
    else if (pri &&& 0x7).toInt < g.logLevel then
      if g.optCircularlog && g.shbuf then some [(.shmem, printbuf)]
      else some [(.file g.logFile, printbuf)]
    else some []

/-- The loop over the pieces, with at most so many turns; `left` are the bytes before the end, and
`n` pieces came before. -/
def splitLoop (ctime : ℕ → Str) : ℕ → Str → ℕ → ℕ → Option (List (Target F × Str))
  | 0, _, left, _ => if left = 0 then some [] else none
  | turns + 1, p, left, n =>
    if left = 0 then some []
    else do
      let (pri, q) := parsePri p
      let (rest, parsebuf) ← escapeLoop q []
      let logged ← timestampAndLog g (ctime n) pri parsebuf
      let more ← splitLoop ctime turns rest (left - (p.length - rest.length)) (n + 1)
      some (logged ++ more)

/-- `split_escape_and_log`.  A turn takes a byte at least. -/
def splitEscapeAndLog (ctime : ℕ → Str) (tmpbuf : Str) (len : ℕ) :
    Option (List (Target F × Str)) :=
  splitLoop g ctime len tmpbuf len 0

end

end Rustybox.Syslog
