import Rustybox.Rust.Str

/-!
# mount

`modern/mount.rs`: the options of `-o`, the lines of fstab, the command line, and what `run` asks
the kernel for.  The calls themselves, with the search for a file system type and the second try
of `do_mount`, come after that.
-/

namespace Rustybox.Modern.Mount

open Rustybox.Rust

/-! ### Options -/

/-- `MsFlags`: the flags of mount(2), one bit each. -/
abbrev MsFlags := BitVec 64

namespace MsFlags

def rdonly : MsFlags := .twoPow 64 0
def nosuid : MsFlags := .twoPow 64 1
def nodev : MsFlags := .twoPow 64 2
def noexec : MsFlags := .twoPow 64 3
def synchronous : MsFlags := .twoPow 64 4
def remount : MsFlags := .twoPow 64 5
def mandlock : MsFlags := .twoPow 64 6
def dirsync : MsFlags := .twoPow 64 7
def noatime : MsFlags := .twoPow 64 10
def nodiratime : MsFlags := .twoPow 64 11
def bind : MsFlags := .twoPow 64 12
def move : MsFlags := .twoPow 64 13
def recFlag : MsFlags := .twoPow 64 14
def silent : MsFlags := .twoPow 64 15
def unbindable : MsFlags := .twoPow 64 17
def privateFlag : MsFlags := .twoPow 64 18
def slave : MsFlags := .twoPow 64 19
def shared : MsFlags := .twoPow 64 20
def relatime : MsFlags := .twoPow 64 21
def strictatime : MsFlags := .twoPow 64 24

def intersects (a b : MsFlags) : Bool := decide (a &&& b ≠ 0)

end MsFlags

structure ParsedOpts where
  flags : MsFlags
  data : List (List Char)
  noauto : Bool
  swap : Bool
  nofail : Bool
  deriving DecidableEq

/-- What an option does to the flags: `|=` or `&= !`. -/
inductive FlagOp where
  | set (mask : MsFlags)
  | clear (mask : MsFlags)

def FlagOp.apply (flags : MsFlags) : FlagOp → MsFlags
  | .set mask => flags ||| mask
  | .clear mask => flags &&& ~~~mask

def flagOption : String → Option FlagOp
  | "nosuid" => some (.set .nosuid)
  | "suid" => some (.clear .nosuid)
  | "dev" => some (.clear .nodev)
  | "nodev" => some (.set .nodev)
  | "exec" => some (.clear .noexec)
  | "noexec" => some (.set .noexec)
  | "sync" => some (.set .synchronous)
  | "dirsync" => some (.set .dirsync)
  | "async" => some (.clear .synchronous)
  | "atime" => some (.clear .noatime)
  | "noatime" => some (.set .noatime)
  | "diratime" => some (.clear .nodiratime)
  | "nodiratime" => some (.set .nodiratime)
  | "mand" => some (.set .mandlock)
  | "nomand" => some (.clear .mandlock)
  | "relatime" => some (.set .relatime)
  | "norelatime" => some (.clear .relatime)
  | "strictatime" => some (.set .strictatime)
  | "loud" => some (.clear .silent)
  | "rbind" => some (.set (.bind ||| .recFlag))
  | "bind" => some (.set .bind)
  | "move" => some (.set .move)
  | "make-shared" => some (.set .shared)
  | "make-rshared" => some (.set (.shared ||| .recFlag))
  | "make-slave" => some (.set .slave)
  | "make-rslave" => some (.set (.slave ||| .recFlag))
  | "make-private" => some (.set .privateFlag)
  | "make-rprivate" => some (.set (.privateFlag ||| .recFlag))
  | "make-unbindable" => some (.set .unbindable)
  | "make-runbindable" => some (.set (.unbindable ||| .recFlag))
  | "ro" => some (.set .rdonly)
  | "rw" => some (.clear .rdonly)
  | "remount" => some (.set .remount)
  | _ => none

/-- The name of an option, without its value. -/
def optionName (tok : List Char) : String := String.ofList (tok.takeWhile (· ≠ '='))

/-- The loop body of `parse_o_opts`. -/
def parseOpt (p : ParsedOpts) (tok : List Char) : ParsedOpts :=
  match optionName tok with
  | "loop" | "defaults" | "_netdev" | "comment" | "union" => p
  | "noauto" => { p with noauto := true }
  | "sw" | "swap" => { p with swap := true }
  | "user" | "users" => p
  | "nofail" => { p with nofail := true }
  | name =>
    match flagOption name with
    | some op => { p with flags := op.apply p.flags }
    | none => { p with data := p.data ++ [tok] }

/-- The options of a list. -/
def optTokens (opts : List Char) : List (List Char) :=
  ((opts.splitOn ',').map trim).filter (· ≠ [])

def parseOOpts (opts : List Char) : ParsedOpts :=
  (optTokens opts).foldl parseOpt
    { flags := .silent, data := [], noauto := false, swap := false, nofail := false }

def sharedSubtreeOnly (flags : MsFlags) : Bool :=
  flags.intersects (.shared ||| .privateFlag ||| .slave ||| .unbindable)

/-! ### fstab -/

structure FstabEntry where
  fsname : List Char
  dir : List Char
  vfstype : List Char
  opts : List Char
  deriving DecidableEq

/-- One line of `read_fstab_like`. -/
def fstabLine (line : List Char) : Option FstabEntry :=
  let line := trim line
  if line = [] ∨ line.head? = some '#' then none
  else
    match splitWhitespace line with
    | fsname :: dir :: vfstype :: rest =>
      some ⟨fsname, dir, vfstype, rest.head?.getD "defaults".toList⟩
    | _ => none

/-- `read_fstab_like`, where `content` is what could be read as a string. -/
def readFstabLike (content : Option (List Char)) : List FstabEntry :=
  match content with
  | none => []
  | some content => (lines content).filterMap fstabLine

/-! ### The command line -/

structure Args where
  oOpts : List Char := []
  fstype : Option (List Char) := none
  fstab : List Char := "/etc/fstab".toList
  oFilter : Option (List Char) := none
  all : Bool := false
  positional : List (List Char) := []

def pushOpt (o s : List Char) : List Char := if o = [] then s else o ++ ',' :: s

/-- The loop of `parse_args`. -/
def parseArgsLoop (a : Args) : List (List Char) → Except String Args
  | [] => .ok a
  | arg :: rest =>
    match String.ofList arg, rest with
    | "-o", s :: rest => parseArgsLoop { a with oOpts := pushOpt a.oOpts s } rest
    | "-o", [] => .error "mount: -o requires an argument"
    | "-t", s :: rest => parseArgsLoop { a with fstype := some s } rest
    | "-t", [] => .error "mount: -t requires an argument"
    | "-T", s :: rest => parseArgsLoop { a with fstab := s } rest
    | "-T", [] => .error "mount: -T requires an argument"
    | "-O", s :: rest => parseArgsLoop { a with oFilter := some s } rest
    | "-O", [] => .error "mount: -O requires an argument"
    | "-a", rest => parseArgsLoop { a with all := true } rest
    | "-r", rest => parseArgsLoop { a with oOpts := pushOpt a.oOpts "ro".toList } rest
    | "-w", rest => parseArgsLoop { a with oOpts := pushOpt a.oOpts "rw".toList } rest
    | "-f", rest | "-v", rest | "-n", rest | "-s", rest | "-i", rest => parseArgsLoop a rest
    | _, rest =>
      if "--".toList.isPrefixOf arg then
        parseArgsLoop { a with oOpts := pushOpt a.oOpts (arg.drop 2) } rest
      else parseArgsLoop { a with positional := a.positional ++ [arg] } rest

def parseArgs (argv : List (List Char)) : Except String Args := parseArgsLoop {} (argv.drop 1)

/-! ### run -/

/-- What `run` sees of the system: whether it is root, the fstab file, and `fs::canonicalize`. -/
structure Env where
  isRoot : Bool
  fstab : List Char → Option (List Char)
  canonicalize : List Char → Option (List Char)

/-- What `run` comes to: a message and exit code 1, the listing, `mount -a`, or one mount. -/
inductive Request where
  | fail (msg : List Char)
  | listing (fstype : Option (List Char))
  | mountAll (fstab : List Char) (fstype oFilter : Option (List Char))
  | doMount (target : List Char) (fstype : Option (List Char)) (flags : MsFlags)
      (data : List Char)
  | singlemount (source target : List Char) (fstype : Option (List Char)) (flags : MsFlags)
      (data : List Char)
  deriving DecidableEq

/-- `[..].join(",")`. -/
def joinComma (data : List (List Char)) : List Char := [','].intercalate data

/-- The entry of fstab for a device or a mount point: the last one that fits. -/
def findEntry (entries : List FstabEntry) (target resolved : List Char) : Option FstabEntry :=
  entries.reverse.find? fun e => e.dir = resolved ∨ e.fsname = target ∨ e.dir = target

/-- The end of `run`, for one positional argument that is looked up in fstab. -/
def fstabMount (env : Env) (a : Args) (target : List Char) (cli : ParsedOpts) : Request :=
  let resolved := (env.canonicalize target).getD target
  match findEntry (readFstabLike (env.fstab a.fstab)) target resolved with
  | none => .fail ("mount: can't find ".toList ++ target ++ " in ".toList ++ a.fstab)
  | some entry =>
    let base := parseOOpts entry.opts
    let flags := base.flags ||| cli.flags
    let flags := if cli.data ≠ [] then flags ||| 0 else flags
    let fstype := a.fstype.getD entry.vfstype
    .singlemount entry.fsname entry.dir (if fstype = "auto".toList then none else some fstype)
      flags (joinComma (base.data ++ cli.data))

/-- `run`, once the arguments are parsed. -/
def runArgs (env : Env) (a : Args) : Request :=
  let cli := parseOOpts a.oOpts
  if ¬ env.isRoot ∧ cli.flags ≠ .silent then .fail "mount: you must be root".toList
  else
    match a.positional with
    | [] => if a.all then .mountAll a.fstab a.fstype a.oFilter else .listing a.fstype
    | target :: rest =>
      if sharedSubtreeOnly cli.flags then .doMount target none cli.flags []
      else
        match rest with
        | target' :: _ => .singlemount target target' a.fstype cli.flags (joinComma cli.data)
        | [] =>
          if cli.flags.intersects (.remount ||| .bind ||| .move) then
            .doMount target a.fstype cli.flags (joinComma cli.data)
          else fstabMount env a target cli

/-- `run`, up to the mount it asks for. -/
def run (env : Env) (argv : List (List Char)) : Request :=
  match parseArgs argv with
  | .error msg => .fail msg.toList
  | .ok a => runArgs env a

/-! ### Overriding

The flags are a fold over the options in which each option sets some bits, clears some, or leaves
them alone.  So a bit of the result is what the last option that mentions it says, and where none
does, what it was at first. -/

/-- What an operation says of bit `b`. -/
def FlagOp.mention (b : ℕ) : FlagOp → Option Bool
  | .set mask => if mask.getLsbD b then some true else none
  | .clear mask => if mask.getLsbD b then some false else none

/-- What an option says of bit `b`. -/
def mention (b : ℕ) (tok : List Char) : Option Bool :=
  (flagOption (optionName tok)).bind (FlagOp.mention b)

/-- What the last option that mentions bit `b` says of it. -/
def lastMention (b : ℕ) : List (List Char) → Option Bool
  | [] => none
  | tok :: toks => (lastMention b toks).or (mention b tok)

theorem parseOpt_flags (p : ParsedOpts) (tok : List Char) :
    (parseOpt p tok).flags =
      match flagOption (optionName tok) with
      | some op => op.apply p.flags
      | none => p.flags := by
  rw [parseOpt]
  split
  all_goals first | (next h => rw [h]; rfl) | skip
  split
  · rfl
  · rfl

theorem getLsbD_apply (op : FlagOp) (flags : MsFlags) {b : ℕ} (hb : b < 64) :
    (op.apply flags).getLsbD b = (op.mention b).getD (flags.getLsbD b) := by
  cases op with
  | set mask =>
    rw [FlagOp.apply, FlagOp.mention, BitVec.getLsbD_or]
    cases mask.getLsbD b <;> simp
  | clear mask =>
    rw [FlagOp.apply, FlagOp.mention, BitVec.getLsbD_and, BitVec.getLsbD_not]
    cases mask.getLsbD b <;> simp [hb]

theorem getLsbD_parseOpt (p : ParsedOpts) (tok : List Char) {b : ℕ} (hb : b < 64) :
    (parseOpt p tok).flags.getLsbD b = (mention b tok).getD (p.flags.getLsbD b) := by
  rw [parseOpt_flags, mention]
  cases h : flagOption (optionName tok) with
  | none => rfl
  | some op => exact getLsbD_apply op p.flags hb

/-- **The last mention wins.** -/
theorem getLsbD_foldl_parseOpt (toks : List (List Char)) (p : ParsedOpts) {b : ℕ} (hb : b < 64) :
    (toks.foldl parseOpt p).flags.getLsbD b = (lastMention b toks).getD (p.flags.getLsbD b) := by
  induction toks generalizing p with
  | nil => rfl
  | cons tok toks ih =>
    rw [List.foldl_cons, ih, getLsbD_parseOpt p tok hb, lastMention]
    cases lastMention b toks <;> rfl

theorem optTokens_append (E C : List Char) :
    optTokens (E ++ ',' :: C) = optTokens E ++ optTokens C := by
  rw [optTokens, List.splitOn_append_cons_self, List.map_append, List.filter_append]
  rfl

theorem getLsbD_parseOOpts (opts : List Char) {b : ℕ} (hb : b < 64) :
    (parseOOpts opts).flags.getLsbD b =
      (lastMention b (optTokens opts)).getD (MsFlags.silent.getLsbD b) :=
  getLsbD_foldl_parseOpt _ _ hb

/-- The options of the command line come after those of the entry. -/
theorem getLsbD_parseOOpts_append (E C : List Char) {b : ℕ} (hb : b < 64) :
    (parseOOpts (E ++ ',' :: C)).flags.getLsbD b =
      (lastMention b (optTokens C)).getD ((parseOOpts E).flags.getLsbD b) := by
  rw [parseOOpts, optTokens_append, List.foldl_append, getLsbD_foldl_parseOpt _ _ hb]
  rfl

def silentBit : ℕ := 15

theorem getLsbD_silent {b : ℕ} (hb : b < 64) : MsFlags.silent.getLsbD b = decide (b = silentBit) := by
  rw [MsFlags.silent, BitVec.getLsbD_twoPow]
  rcases eq_or_ne b silentBit with rfl | h
  · decide
  · simp [h, Ne.symm (show b ≠ 15 from h)]

/-- `loud` is the one option that mentions `MS_SILENT`. -/
theorem flagOption_silent (name : String) :
    (flagOption name).bind (FlagOp.mention silentBit) =
      if name = "loud" then some false else none := by
  unfold flagOption
  split
  all_goals first | decide | skip
  next hloud => simp_all

theorem lastMention_silent (toks : List (List Char)) :
    lastMention silentBit toks =
      if ∃ tok ∈ toks, optionName tok = "loud" then some false else none := by
  induction toks with
  | nil => simp [lastMention]
  | cons tok toks ih =>
    rw [lastMention, ih, mention, flagOption_silent]
    by_cases h : ∃ tok ∈ toks, optionName tok = "loud"
    · simp [h]
    · by_cases ht : optionName tok = "loud" <;> simp [h, ht]

/-- No flag that `C` clears is left set by `E`, and `loud` in `E` is matched by `loud` in `C`. -/
structure NothingToClear (E C : List Char) : Prop where
  cleared : ∀ b < 64, lastMention b (optTokens C) = some false →
    (parseOOpts E).flags.getLsbD b = false
  loud : (∃ tok ∈ optTokens E, optionName tok = "loud") →
    ∃ tok ∈ optTokens C, optionName tok = "loud"

/-- **One bit of the two results.** -/
theorem or_getLsbD_iff (E C : List Char) {b : ℕ} (hb : b < 64) :
    ((parseOOpts E).flags ||| (parseOOpts C).flags).getLsbD b =
        (parseOOpts (E ++ ',' :: C)).flags.getLsbD b ↔
      (lastMention b (optTokens C) = some false → (parseOOpts E).flags.getLsbD b = false) ∧
      (b = silentBit → lastMention b (optTokens E) = some false →
        lastMention b (optTokens C) = some false) := by
  rw [BitVec.getLsbD_or, getLsbD_parseOOpts_append E C hb, getLsbD_parseOOpts C hb,
    getLsbD_parseOOpts E hb, getLsbD_silent hb]
  have hno : ∀ toks, b = silentBit → lastMention b toks ≠ some true := by
    rintro toks rfl
    rw [lastMention_silent]
    split <;> simp
  have hE := hno (optTokens E)
  have hC := hno (optTokens C)
  by_cases hs : b = silentBit
  · cases hc : lastMention b (optTokens C) with
    | none =>
      cases he : lastMention b (optTokens E) with
      | none => simp [hs]
      | some v => cases v <;> simp_all
    | some v => cases v <;> simp_all
  · cases hc : lastMention b (optTokens C) with
    | none => simp [hs]
    | some v => cases v <;> simp [hs]

theorem or_flags_iff (E C : List Char) :
    (parseOOpts E).flags ||| (parseOOpts C).flags = (parseOOpts (E ++ ',' :: C)).flags ↔
      NothingToClear E C := by
  constructor
  · intro h
    have hbit := fun b (hb : b < 64) => (or_getLsbD_iff E C hb).mp (by rw [h])
    refine ⟨fun b hb => (hbit b hb).1, fun hloud => ?_⟩
    by_contra hno
    have := (hbit silentBit (by decide)).2 rfl
    rw [lastMention_silent, lastMention_silent, if_pos hloud, if_neg hno] at this
    exact absurd (this rfl) (by simp)
  · intro h
    refine BitVec.eq_of_getLsbD_eq fun b hb => (or_getLsbD_iff E C hb).mpr ⟨h.cleared b hb, ?_⟩
    rintro rfl hE
    rw [lastMention_silent] at hE ⊢
    split at hE
    · next hloud => rw [if_pos (h.loud hloud)]
    · cases hE

theorem fstabMount_flags {env : Env} {a : Args} {target : List Char} {entry : FstabEntry}
    (h : findEntry (readFstabLike (env.fstab a.fstab)) target
      ((env.canonicalize target).getD target) = some entry) (cli : ParsedOpts) :
    ∃ fstype data, fstabMount env a target cli =
      .singlemount entry.fsname entry.dir fstype ((parseOOpts entry.opts).flags ||| cli.flags)
        data := by
  rw [fstabMount]
  dsimp only
  rw [h]
  refine ⟨_, _, congrArg (fun flags => Request.singlemount _ _ _ flags _) ?_⟩
  split <;> simp

/-- **When the options of the command line override those of fstab.**  The mount of an fstab
entry gets the flags of the two lists read one after the other exactly when there is nothing to
clear. -/
theorem options_override_iff (env : Env) (argv : List (List Char)) (a : Args)
    (target : List Char) (entry : FstabEntry) (source dir : List Char)
    (fstype : Option (List Char)) (flags : MsFlags) (data : List Char)
    (hargs : parseArgs argv = .ok a) (hpos : a.positional = [target])
    (hentry : findEntry (readFstabLike (env.fstab a.fstab)) target
      ((env.canonicalize target).getD target) = some entry)
    (hrun : run env argv = .singlemount source dir fstype flags data) :
    flags = (parseOOpts (entry.opts ++ ',' :: a.oOpts)).flags ↔
      NothingToClear entry.opts a.oOpts := by
  obtain ⟨fstype', data', hmount⟩ := fstabMount_flags hentry (parseOOpts a.oOpts)
  rw [run, hargs] at hrun
  dsimp only at hrun
  rw [runArgs, hpos] at hrun
  dsimp only at hrun
  split at hrun
  · cases hrun
  split at hrun
  · cases hrun
  split at hrun
  · cases hrun
  rw [hmount] at hrun
  cases hrun
  exact or_flags_iff entry.opts a.oOpts

/-- A system whose fstab has one line. -/
def oneLine (line : String) : Env :=
  { isRoot := true, fstab := fun _ => some line.toList, canonicalize := fun _ => none }

theorem options_override_iff_noexec :
    .silent ||| .rdonly ||| .noexec = (parseOOpts ("ro".toList ++ ',' :: "noexec".toList)).flags ↔
      NothingToClear "ro".toList "noexec".toList :=
  options_override_iff (oneLine "/dev/sda1 /mnt ext4 ro")
    ["mount".toList, "-o".toList, "noexec".toList, "/mnt".toList]
    { oOpts := "noexec".toList, positional := ["/mnt".toList] } "/mnt".toList
    ⟨"/dev/sda1".toList, "/mnt".toList, "ext4".toList, "ro".toList⟩
    "/dev/sda1".toList "/mnt".toList (some "ext4".toList) _ []
    (by rfl) rfl (by decide) (by decide)

/-- `rw` on the command line leaves an entry with `ro` read-only. -/
theorem rw_keeps_ro :
    run (oneLine "/dev/sda1 /mnt ext4 ro")
        ["mount".toList, "-o".toList, "rw".toList, "/mnt".toList] =
      .singlemount "/dev/sda1".toList "/mnt".toList (some "ext4".toList) (.silent ||| .rdonly) [] ∧
    (parseOOpts ("ro".toList ++ ',' :: "rw".toList)).flags = .silent := by decide

end Rustybox.Modern.Mount
