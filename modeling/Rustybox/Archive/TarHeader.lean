import Rustybox.Archive.PaxHeader
import Rustybox.Lib.Guarded
import Mathlib.Algebra.Ring.Int.Defs

/-!
# Headers of a tar archive

`getOctal` and `get_header_tar` up to the header of an entry: the numbers of a header, the long
names and the extended headers in front of it.

What the program does with a size is kept in a list of events: every size that it decodes, and every
buffer that it allocates and reads the archive into.
-/

namespace Rustybox.Archive

open Rustybox.Rust
open Guarded (Prog fail)

/-! ### getOctal -/

def isSpace (c : UInt8) : Bool := c = 32 || (9 ≤ c && c ≤ 13)

def isOctal (c : UInt8) : Bool := 48 ≤ c && c ≤ 55

/-- The number that octal digits stand for. -/
def octalValue (digits : Str) : ℕ := digits.foldl (fun v c => v * 8 + (c.toNat - 48)) 0

/-- A number without its sign. -/
def afterSign (t : Str) : Str := if t.head? = some 45 ∨ t.head? = some 43 then t.tail else t

/-- A number in 64 bits: too large a one is the largest, and a minus sign takes it from 0. -/
def wrapSign (minus : Bool) (v : ℕ) : ℕ :=
  if 2 ^ 64 ≤ v then 2 ^ 64 - 1 else if minus then (2 ^ 64 - v) % 2 ^ 64 else v

/-- `strtoull` in base 8: the number, and the string behind it. -/
def strtoull8 (s : Str) : ℕ × Str :=
  let t := s.dropWhile isSpace
  if (afterSign t).takeWhile isOctal = [] then (0, s)
  else
    (wrapSign (t.head? = some 45) (octalValue ((afterSign t).takeWhile isOctal)),
      (afterSign t).dropWhile isOctal)

/-- The lowest 7 bits of a byte, sign-extended to 64. -/
def signExtend7 (first : UInt8) : ℕ :=
  if 64 ≤ first.toNat % 128 then 2 ^ 64 - 128 + first.toNat % 128 else first.toNat % 128

/-- "base-256 encoding" for very large numbers. -/
def base256 (str : Str) : ℕ :=
  str.tail.foldl (fun v c => (v * 256 + c.toNat) % 2 ^ 64) (signExtend7 (str.headD 0))

/-- `getOctal` of a field, in 64 bits.  With `none` the program dies. -/
def getOctal (str : Str) : Option ℕ :=
  -- the byte behind the field is made a NUL
  let (v, e) := strtoull8 (str.takeWhile (· ≠ 0))
  if e = [] ∨ e.head? = some 32 then some v
  else if str.headD 0 &&& 0x80 = 0 then none
  else some (base256 str)

/-! ### The header -/

/-- `tar_header_t`. -/
structure TarHeader where
  block : Str
  length_eq : block.length = 512

/-- The `len` bytes at `off`. -/
def TarHeader.slice (tar : TarHeader) (off len : ℕ) : Str := (tar.block.drop off).take len

def TarHeader.name (tar : TarHeader) : Str := tar.slice 0 100
def TarHeader.mode (tar : TarHeader) : Str := tar.slice 100 8
def TarHeader.uid (tar : TarHeader) : Str := tar.slice 108 8
def TarHeader.gid (tar : TarHeader) : Str := tar.slice 116 8
def TarHeader.size (tar : TarHeader) : Str := tar.slice 124 12
def TarHeader.mtime (tar : TarHeader) : Str := tar.slice 136 12
def TarHeader.chksum (tar : TarHeader) : Str := tar.slice 148 8
def TarHeader.typeflag (tar : TarHeader) : UInt8 := (tar.slice 156 1).headD 0
def TarHeader.linkname (tar : TarHeader) : Str := tar.slice 157 100
def TarHeader.magic (tar : TarHeader) : Str := tar.slice 257 8
def TarHeader.uname (tar : TarHeader) : Str := tar.slice 265 32
def TarHeader.gname (tar : TarHeader) : Str := tar.slice 297 32
def TarHeader.devmajor (tar : TarHeader) : Str := tar.slice 329 8
def TarHeader.devminor (tar : TarHeader) : Str := tar.slice 337 8
def TarHeader.prefixName (tar : TarHeader) : Str := tar.slice 345 155

/-- Is the header's magic "ustar", or five NULs for the old format? -/
def TarHeader.validMagic (tar : TarHeader) : Bool :=
  (bytes "ustar").isPrefixOf tar.magic || [0, 0, 0, 0, 0].isPrefixOf tar.magic

/-- The bytes that the checksum is done on, but for eight blanks. -/
def TarHeader.summed (tar : TarHeader) : Str := tar.slice 0 148 ++ tar.slice 156 356

def TarHeader.sumU (tar : TarHeader) : ℤ := 32 * 8 + (tar.summed.map fun c => (c.toNat : ℤ)).sum

/-- `sum_s`, for Sun and HP-UX. -/
def TarHeader.sumS (tar : TarHeader) : ℤ :=
  32 * 8 + (tar.summed.map fun c => (c.toNat : ℤ).bmod 256).sum

/-- Does the checksum agree? -/
def TarHeader.sumAgrees (tar : TarHeader) (sum : ℕ) : Bool :=
  tar.sumU = (sum : ℤ).bmod (2 ^ 32) || tar.sumS = (sum : ℤ).bmod (2 ^ 32)

/-- A 64-bit number as `off_t` or `time_t`. -/
def toSigned (v : ℕ) : ℤ := if v < 2 ^ 63 then v else v - 2 ^ 64

/-- `file_header_t`, as far as `get_header_tar` fills it in; `device` stays as it was for `none`. -/
structure FileHeader where
  name : Option Str
  linkTarget : Option Str
  uname : Option Str
  gname : Option Str
  size : ℤ
  uid : ℕ
  gid : ℕ
  mode : ℕ
  mtime : ℤ
  device : Option (ℕ × ℕ)

/-! ### Events -/

/-- What is done with sizes: one is decoded, or a buffer of `allocated` bytes is to be filled with
`asked` bytes of the archive. -/
inductive Event where
  | decoded (size : ℤ)
  | filled (allocated asked : ℕ)
  deriving DecidableEq, Repr

/-- A part of `get_header_tar`. -/
abbrev Action (α : Type) := Prog (List Event) Stop α

def note (e : Event) : Action Unit := Guarded.change fun log => ((), log ++ [e])

def die {α : Type} (msg : String) : Action α := fail (.die msg)

/-- What makes no events. -/
def pureAction {α : Type} : Except Stop α → Action α
  | .ok a => pure a
  | .error e => fail e

def number (field : Str) : Action ℕ :=
  match getOctal field with
  | some v => pure v
  | none => die "corrupted octal value in tar header"

/-- `xstrndup` of a field. -/
def stringOf (field : Str) : Str := field.takeWhile (· ≠ 0)

def concatPathFile (path filename : Str) : Str :=
  path ++ (if path.getLast? = some slash then [] else [slash]) ++ filename.dropWhile (· = slash)

/-- `bb_makedev` of the two numbers, or nothing. -/
def deviceOf (tar : TarHeader) : Action (Option (ℕ × ℕ)) :=
  if tar.devmajor.headD 0 ≠ 0 then do
    let minor ← number tar.devminor
    let major ← number tar.devmajor
    pure (some (major % 2 ^ 32, minor % 2 ^ 32))
  else pure none

/-- `tar_typeflag`: 0 is reserved for high perf file, treat as normal file. -/
def TarHeader.tarTypeflag (tar : TarHeader) : UInt8 := if tar.typeflag = 0 then 48 else tar.typeflag

/-- Are the names of the header itself used? -/
def TarHeader.parseNames (tar : TarHeader) : Bool := 48 ≤ tar.tarTypeflag && tar.tarTypeflag ≤ 55

/-- The name that the header itself has. -/
def TarHeader.ownName (tar : TarHeader) : Str :=
  if tar.prefixName.headD 0 ≠ 0 then concatPathFile (stringOf tar.prefixName) (stringOf tar.name)
  else stringOf tar.name

/-- A string if there is one. -/
def nonempty (field : Str) : Option Str :=
  if field.headD 0 ≠ 0 then some (stringOf field) else none

/-- The header from its size on. -/
def decodeRest (tar : TarHeader) (names : LongNames) (device : Option (ℕ × ℕ)) (mtime size : ℕ) :
    Action FileHeader := do
  note (.decoded (toSigned size))
  let gid ← number tar.gid
  let uid ← number tar.uid
  let mode ← number tar.mode
  pure {
    name := if names.longname.isNone && tar.parseNames then some tar.ownName else none
    linkTarget := if names.linkname.isNone && tar.parseNames then nonempty tar.linkname else none
    uname := nonempty tar.uname
    gname := nonempty tar.gname
    size := toSigned size
    uid := uid % 2 ^ 32
    gid := gid % 2 ^ 32
    mode := mode &&& 0o7777
    mtime := toSigned mtime
    device := device }

/-- The header after the checksum. -/
def decodeFields (tar : TarHeader) (names : LongNames) : Action FileHeader := do
  let device ← deviceOf tar
  let mtime ← number tar.mtime
  let size ← number tar.size
  decodeRest tar names device mtime size

/-- The header with its checksum. -/
def decodeHeader (tar : TarHeader) (names : LongNames) : Action FileHeader := do
  let sum ← number tar.chksum
  if tar.sumAgrees sum then decodeFields tar names else die "invalid tar header checksum"

/-! ### One header -/

/-- `archive_handle_t`: the names for the next entry, whether the last header was empty, how much of
the archive was read, and what is left of it. -/
structure Handle where
  names : LongNames
  tarEnd : Bool
  offset : ℕ
  rest : Str

/-- What one header comes to. -/
inductive Next where
  /-- An entry. -/
  | entry (header : FileHeader) (typeflag : UInt8)
  /-- Another header follows, at a multiple of 512 bytes if `align`. -/
  | again (handle : Handle) (align : Bool)

section

-- does `malloc` have this many bytes?
variable (mallocs : ℕ → Bool)

/-- A buffer of `allocated` bytes with `asked` bytes of the archive in it: `xmalloc` and `xread`. -/
def readInto (allocated asked : ℕ) (h : Handle) : Action (Str × Handle) :=
  if mallocs allocated = false ∧ allocated ≠ 0 then die "memory exhausted"
  else do
    note (.filled allocated asked)
    -- `read` refuses this count, and -1 is what `full_read` returns then
    if asked = 2 ^ 64 - 1 then pure ([], { h with offset := h.offset - 1 })
    else if h.rest.length < asked then die "short read"
    else pure (h.rest.take asked, { h with rest := h.rest.drop asked, offset := h.offset + asked })

/-- A name of `size` bytes, the allocated one NUL longer: `size_t` wraps around. -/
def readName (size : ℤ) (h : Handle) : Action (Str × Handle) := do
  let (s, h) ← readInto mallocs ((size + 1) % 2 ^ 64).toNat (size % 2 ^ 64).toNat h
  pure (stringOf s, h)

/-- An extended header: `process_pax_hdr`. -/
def readPax (isGlobal : Bool) (size : ℕ) (h : Handle) : Action Handle := do
  let (block, h) ← readInto mallocs (blkSz size + 1) (blkSz size) h
  let names ← pureAction (processPaxHdr isGlobal size block 0 h.names)
  pure { h with names := names }

/-- Skip a header's data block by block.  Where the number of blocks is negative there are always
more. -/
def skipData (size : ℤ) (h : Handle) : Action Handle :=
  let blocks := (size + 511) / 512
  if blocks < 0 ∨ h.rest.length < blocks.toNat * 512 then die "short read"
  else pure { h with
    rest := h.rest.drop (blocks.toNat * 512), offset := h.offset + blocks.toNat * 512 }

/-- What the type of a header asks for. -/
def afterHeader (tar : TarHeader) (h : Handle) (header : FileHeader) : Action Next :=
  let typeflag := tar.tarTypeflag
  if 48 ≤ typeflag ∧ typeflag ≤ 55 then pure (.entry header typeflag)
  -- 'L'
  else if typeflag = 76 then do
    let (s, h) ← readName mallocs header.size h
    pure (.again { h with names := { h.names with longname := some s } } true)
  -- 'K'
  else if typeflag = 75 then do
    let (s, h) ← readName mallocs header.size h
    pure (.again { h with names := { h.names with linkname := some s } } true)
  -- 'g' and 'x'
  else if (typeflag = 103 ∨ typeflag = 120) ∧ (header.size % 2 ^ 64).toNat ≤ 0xfffff then do
    let h ← readPax mallocs (decide (typeflag = 103)) (header.size % 2 ^ 64).toNat h
    pure (.again h false)
  -- 'V'
  else if typeflag = 103 ∨ typeflag = 120 ∨ typeflag = 86 then do
    let h ← skipData header.size h
    pure (.again h false)
  else die "unknown typeflag: 0x%x"

/-- A header of 512 bytes with a valid magic. -/
def oneHeader (tar : TarHeader) (h : Handle) : Action Next := do
  let header ← decodeHeader tar h.names
  afterHeader mallocs tar h header

/-! ### get_header_tar -/

/-- What `get_header_tar` comes to. -/
inductive Result where
  | endOfArchive
  | emptyHeader (h : Handle)
  | entry (header : FileHeader) (typeflag : UInt8)

/-- `data_align` at 512 bytes. -/
def dataAlign (h : Handle) : Handle :=
  let skip := (512 - h.offset % 512) % 512
  { h with rest := h.rest.drop skip, offset := h.offset + skip }

-- what `lseek` and `setup_unzip_on_fd` make of an archive that may be compressed
variable (unzip : Handle → Option Str)

/-- The loops of `get_header_tar` over headers; `align` in the outer one. -/
def headerLoop : ℕ → Bool → Handle → Action Result
  | 0, _, _ => fail .spin
  | fuel + 1, align, h =>
    let h := if align then dataAlign h else h
    let block := h.rest.take 512
    if block = [] then pure .endOfArchive
    else if hlen : block.length = 512 then
      let tar : TarHeader := ⟨block, hlen⟩
      let next := { h with rest := h.rest.drop 512, offset := h.offset + 512 }
      if tar.name.headD 0 = 0 ∧ tar.prefixName.headD 0 = 0 ∧ h.names.longname = none then
        if h.tarEnd then pure .endOfArchive else pure (.emptyHeader { next with tarEnd := true })
      else if tar.validMagic then do
        match ← oneHeader mallocs tar { next with tarEnd := false } with
        | .entry header typeflag => pure (.entry header typeflag)
        | .again h align => headerLoop fuel align h
      else match unzip next with
        | none => die "invalid tar magic"
        | some rest =>
          headerLoop fuel false { next with rest := rest, offset := 0, tarEnd := false }
    else match unzip h with
      | none => die "invalid tar magic"
      | some rest => headerLoop fuel false { h with rest := rest, offset := 0 }

end

end Rustybox.Archive
