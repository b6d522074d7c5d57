import Rustybox.Rust.Str
import Mathlib.Logic.Function.Basic

/-!
# gzip, bzip2 and xz

`modern/compress.rs`: the command line, the files, and the three codecs.  The crates that code and
decode come from outside.  A name of the file system is the name of a file, which may have several.
-/

namespace Rustybox.Modern.Compress

open Rustybox.Rust

/-! ### Files -/

abbrev Path := List Char

inductive Node where
  | file (bytes : List UInt8)
  | dir
  deriving DecidableEq

/-- The names and the files that they are names of. -/
structure Fs where
  node : Path → Option ℕ
  data : ℕ → Node
  next : ℕ
  node_lt : ∀ {p i}, node p = some i → i < next

/-- What there is under a name. -/
def Fs.content (fs : Fs) (p : Path) : Option Node := (fs.node p).map fs.data

def Fs.write (fs : Fs) (i : ℕ) (bytes : List UInt8) : Fs :=
  { fs with data := Function.update fs.data i (.file bytes) }

/-- A name goes; the file stays as long as it has another one. -/
def Fs.remove (fs : Fs) (p : Path) : Fs where
  node := Function.update fs.node p none
  data := fs.data
  next := fs.next
  node_lt {q i} h := by
    by_cases hq : q = p
    · rw [hq, Function.update_self] at h
      cases h
    · rw [Function.update_of_ne hq] at h
      exact fs.node_lt h

/-- A new empty file. -/
def Fs.add (fs : Fs) (p : Path) : Fs where
  node := Function.update fs.node p (some fs.next)
  data := Function.update fs.data fs.next (.file [])
  next := fs.next + 1
  node_lt {q i} h := by
    by_cases hq : q = p
    · rw [hq, Function.update_self, Option.some.injEq] at h
      omega
    · rw [Function.update_of_ne hq] at h
      exact Nat.lt_succ_of_lt (fs.node_lt h)

/-- What the system allows, and how many bytes a file may still take. -/
structure Env where
  canOpen : Path → Bool := fun _ => true
  canCreate : Path → Bool := fun _ => true
  canRemove : Path → Bool := fun _ => true
  room : Option ℕ := none

/-- `File::create`: an old file is cut to nothing. -/
def Fs.create (fs : Fs) (env : Env) (p : Path) : Option (ℕ × Fs) :=
  if env.canCreate p then
    match fs.node p with
    | none => some (fs.next, fs.add p)
    | some i =>
      match fs.data i with
      | .dir => none
      | .file _ => some (i, fs.write i [])
  else none

/-! ### Codecs -/

/-- What a reader yields, and whether it fails in the end. -/
structure Source where
  bytes : List UInt8
  fails : Bool := false

/-- The handle of a directory cannot be read from. -/
def Fs.source (fs : Fs) (i : ℕ) : Source :=
  match fs.data i with
  | .file bytes => { bytes := bytes }
  | .dir => { bytes := [], fails := true }

/-- `Codec`; `encode` and `decode` give what they write and whether they succeed. -/
structure Codec where
  comp : List Char
  decomp : List Char
  cat : List Char
  suffix : List Char
  encode : Source → ℕ → List UInt8 × Bool
  decode : Source → List UInt8 × Bool

/-- The encoder and the decoder of a crate. -/
structure Crate where
  encoder : ℕ → Source → List UInt8 × Bool
  decoder : Source → List UInt8 × Bool

/-- `GZIP`, on `GzEncoder` and `GzDecoder`. -/
def gzip (flate2 : Crate) : Codec where
  comp := "gzip".toList
  decomp := "gunzip".toList
  cat := "zcat".toList
  suffix := ".gz".toList
  encode src level := flate2.encoder level src
  decode src := flate2.decoder src

/-- `BZIP2`, on `BzEncoder` and `BzDecoder`. -/
def bzip2 (crate : Crate) : Codec where
  comp := "bzip2".toList
  decomp := "bunzip2".toList
  cat := "bzcat".toList
  suffix := ".bz2".toList
  encode src level := crate.encoder (max 1 (min level 9)) src
  decode src := crate.decoder src

/-- `XZ`, on `XzEncoder` and `XzDecoder::new`. -/
def xz (xz2 : Crate) : Codec where
  comp := "xz".toList
  decomp := "unxz".toList
  cat := "xzcat".toList
  suffix := ".xz".toList
  encode src level := xz2.encoder (min level 9) src
  decode src := xz2.decoder src

/-! ### One file -/

/-- Why a file is not processed. -/
inductive Failure where
  | open (f : Path)
  | unknownSuffix (f : Path)
  | alreadyExists (path : Path)
  | create (path : Path)
  | coding
  | remove (f : Path)
  deriving DecidableEq

/-- The errors that are not the system's or a crate's. -/
def Failure.message : Failure → Option (List Char)
  | .unknownSuffix f => some (f ++ ": unknown suffix -- ignored".toList)
  | .alreadyExists path => some (path ++ " already exists (use -f to overwrite)".toList)
  | _ => none

structure Options where
  decompress : Bool
  toStdout : Bool
  keep : Bool := false
  force : Bool := false
  level : ℕ := 6
  files : List Path := []

structure World where
  fs : Fs
  stdin : Source := ⟨[], false⟩
  stdout : List UInt8 := []

def stripSuffix (suffix s : List Char) : Option (List Char) :=
  if suffix.isSuffixOf s then some (s.take (s.length - suffix.length)) else none

def outName (c : Codec) (o : Options) (f : Path) : Option Path :=
  if o.decompress then stripSuffix c.suffix f else some (f ++ c.suffix)

/-- `decode` or `encode`. -/
def code (c : Codec) (o : Options) (src : Source) : List UInt8 × Bool :=
  if o.decompress then c.decode src else c.encode src o.level

/-- What a writer takes, and whether it takes all. -/
def limit (room : Option ℕ) (bytes : List UInt8) : List UInt8 × Bool :=
  match room with
  | none => (bytes, true)
  | some n => (bytes.take n, decide (bytes.length ≤ n))

/-- `process`.  What the writer has in its buffer is written when it is dropped as well. -/
def process (env : Env) (c : Codec) (o : Options) (f : Path) (w : World) :
    Except Failure Unit × World :=
  match env.canOpen f, w.fs.node f with
  | true, some input =>
    if o.toStdout then
      let (bytes, ok) := code c o (w.fs.source input)
      (if ok then .ok () else .error .coding, { w with stdout := w.stdout ++ bytes })
    else
      match outName c o f with
      | none => (.error (.unknownSuffix f), w)
      | some out =>
        -- `guard`
        if !o.force && (w.fs.node out).isSome then (.error (.alreadyExists out), w)
        else
          match w.fs.create env out with
          | none => (.error (.create out), w)
          | some (i, fs) =>
            let (bytes, ok) := code c o (fs.source input)
            let (written, fits) := limit env.room bytes
            let fs := fs.write i written
            if !(ok && fits) then (.error .coding, { w with fs := fs })
            else if o.keep then (.ok (), { w with fs := fs })
            else if env.canRemove f then (.ok (), { w with fs := fs.remove f })
            else (.error (.remove f), { w with fs := fs })
  | _, _ => (.error (.open f), w)

/-! ### The command line -/

/-- The letters of a short option; the others are accepted and do nothing. -/
def shortOption (o : Options) (ch : Char) : Options :=
  if ch = 'd' then { o with decompress := true }
  else if ch = 'c' then { o with toStdout := true }
  else if ch = 'k' then { o with keep := true }
  else if ch = 'f' then { o with force := true }
  else if '1' ≤ ch ∧ ch ≤ '9' then { o with level := ch.toNat - '0'.toNat }
  else o

/-- Is an argument an option? -/
def isOption (a : List Char) : Bool := decide (1 < a.length) && a.head? == some '-'

/-- The arguments; `none` for `--version`. -/
def parseArgs : Options → List (List Char) → Option Options
  | o, [] => some o
  | o, a :: args =>
    if isOption a then
      if "--".toList.isPrefixOf a then
        match String.ofList (a.drop 2) with
        | "decompress" | "uncompress" => parseArgs { o with decompress := true } args
        | "stdout" | "to-stdout" => parseArgs { o with toStdout := true } args
        | "keep" => parseArgs { o with keep := true } args
        | "force" => parseArgs { o with force := true } args
        | "version" => none
        | _ => parseArgs o args
      else parseArgs ((a.drop 1).foldl shortOption o) args
    else parseArgs { o with files := o.files ++ [a] } args

/-- The last component of a name. -/
def baseName (name : List Char) : List Char := ((name.splitOn '/').getLast?).getD name

/-- The files, one after the other; the exit code is 1 if one of them fails. -/
def processAll (env : Env) (c : Codec) (o : Options) : List Path → World → ℕ × World
  | [], w => (0, w)
  | f :: files, w =>
    let (res, w) := process env c o f w
    let (rc, w) := processAll env c o files w
    (match res with | .ok _ => rc | .error _ => 1, w)

/-- `run`: the exit code, and what is left. -/
def run (env : Env) (c : Codec) (name : List Char) (argv : List (List Char)) (w : World) :
    ℕ × World :=
  let prog := baseName name
  let defaults : Options :=
    { decompress := prog == c.decomp || prog == c.cat, toStdout := prog == c.cat }
  match parseArgs defaults (argv.drop 1) with
  | none => (0, { w with stdout := w.stdout ++ (c.comp ++ " (rustybox)\n".toList).map fun ch => UInt8.ofNat ch.toNat })
  | some o =>
    if o.files = [] then
      let (bytes, ok) := code c o w.stdin
      (if ok then 0 else 1, { w with stdin := ⟨[], false⟩, stdout := w.stdout ++ bytes })
    else processAll env c o o.files w

end Rustybox.Modern.Compress
