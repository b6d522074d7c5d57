import Rustybox.Archive.UnsafePrefix
import Rustybox.Lib.Disk
import Mathlib.Algebra.Ring.Int.Defs

/-!
# Extracting a cpio archive

`get_header_cpio` with `data_extract_all`, `create_or_remember_link` and `create_links_from_list`:
`cpio -i` with all names accepted, in a directory in which files can be made.

A member with more than one name is stored with its data once, and without data under its other
names.  Those are put on a list and are linked to a file with the same inode at the end.
-/

namespace Rustybox.Cpio

open Rustybox.Rust Disks

/-! ### The disk -/

/-- The nodes that are no regular files. -/
inductive Kind where
  | directory
  | symlink (target : Str)
  | special (device : ℤ × ℤ)
  deriving DecidableEq

abbrev Disk := Disks.Disk Str Kind Str

/-- An element of `link_placeholders`. -/
structure Placeholder where
  hard : Bool
  linkname : Str
  target : Str

/-- `hardlinks_t`. -/
structure Hardlink where
  inode : ℤ
  mode : ℤ
  mtime : ℤ
  name : Str

/-- `archive_handle_t`, with what is left of the archive, and with the disk. -/
structure Handle where
  offset : ℕ
  rest : Str
  hardlinksToCreate : List Hardlink
  createdHardlinks : List Hardlink
  linkPlaceholders : List Placeholder
  disk : Disk

/-- `file_header_t`, as far as `data_extract_all` needs it. -/
structure FileHeader where
  name : Str
  linkTarget : Option Str
  size : ℕ
  mode : ℕ
  mtime : ℤ
  device : ℤ × ℤ

/-- Why the program ends early. -/
inductive Stop where
  | die (msg : String)
  /-- The fuel ran out. -/
  | spin
  deriving DecidableEq

def fileType (mode : ℕ) : ℕ := mode &&& 0o170000

def isReg (mode : ℕ) : Bool := fileType mode = 0o100000
def isDir (mode : ℕ) : Bool := fileType mode = 0o040000
def isLnk (mode : ℕ) : Bool := fileType mode = 0o120000

section

/-! ### data_extract_all -/

-- is the archive a pipe, in which there is no `lseek`?
variable (pipe : Bool)

/-- `data_align` and `data_skip` with `seek_by_jump`. -/
def seek (amount : ℕ) (h : Handle) : Except Stop Handle :=
  if pipe ∧ h.rest.length < amount then .error (.die "short read")
  else .ok { h with rest := h.rest.drop amount }

/-- `data_align` at 4 bytes. -/
def dataAlign (h : Handle) : Except Stop Handle := do
  let skip := (4 - h.offset % 4) % 4
  let h ← seek pipe skip h
  pure { h with offset := h.offset + skip }

def createOrRememberLink (target linkname : Str) (hard : Bool) (h : Handle) : Except Stop Handle :=
  if hard ∨ startsWith slash target ∨ (Archive.strstr target Archive.dotdot).isSome then
    .ok { h with linkPlaceholders := h.linkPlaceholders ++ [⟨hard, linkname, target⟩] }
  else if (h.disk.node linkname).isSome then .error (.die "can't create %slink '%s' to '%s'")
  else .ok { h with disk := h.disk.bind linkname (.other (.symlink target)) }

def createEntry (header : FileHeader) (h : Handle) : Except Stop Handle :=
  let isThere := (h.disk.node header.name).isSome
  if isReg header.mode then
    if isThere then .error (.die "can't open '%s'")
    else if h.rest.length < header.size then .error (.die "short read")
    else .ok { h with
      disk := h.disk.create header.name (h.rest.take header.size)
      rest := h.rest.drop header.size }
  else if isDir header.mode then
    if isThere then .ok h
    else .ok { h with disk := h.disk.bind header.name (.other .directory) }
  else if isLnk header.mode then
    createOrRememberLink (header.linkTarget.getD []) header.name false h
  else if fileType header.mode ∈ [0o140000, 0o060000, 0o020000, 0o010000] then
    if isThere then .ok h
    else .ok { h with disk := h.disk.bind header.name (.other (.special header.device)) }
  else .error (.die "unrecognized file type")

-- `-u`, and `lstat` for the time of what is there
variable (unconditional : Bool) (stMtime : Disk → Str → ℤ)

/-- Regular files of size 0 with a link target are hard links. -/
def FileHeader.hardLink (header : FileHeader) : Option Str :=
  if isReg header.mode ∧ header.size = 0 then header.linkTarget else none

/-- `unlink`, of a directory too if that is left to fail. -/
def unlinkOld (mayFail : Bool) (name : Str) (h : Handle) : Except Stop Handle :=
  match h.disk.node name with
  | none => .ok h
  | some (.other .directory) => if mayFail then .ok h else .error (.die "can't remove old file %s")
  | some _ => .ok { h with disk := h.disk.unlink name }

/-- What is to be done about an existing file: with `none` the entry is left out. -/
def makeRoom (header : FileHeader) (h : Handle) : Except Stop (Option Handle) :=
  if unconditional then
    if isDir header.mode then .ok (some h)
    -- the entry is a link to itself
    else if header.hardLink = some header.name then .ok none
    else some <$> unlinkOld false header.name h
  else if (h.disk.node header.name).isNone then .ok (some h)
  else if header.mtime ≤ stMtime h.disk header.name then .ok none
  else some <$> unlinkOld true header.name h

def dataExtractAll (header : FileHeader) (h : Handle) : Except Stop Handle := do
  match ← makeRoom unconditional stMtime header h with
  | none => if unconditional then pure h else seek pipe header.size h
  | some h =>
    match header.hardLink with
    | some target => createOrRememberLink target header.name true h
    | none => createEntry header h

/-! ### get_header_cpio -/

/-- The numbers of a header, as `sscanf` stores them. -/
structure Numbers where
  inode : ℤ
  mode : ℤ
  nlink : ℤ
  mtime : ℕ
  size : ℕ
  major : ℤ
  minor : ℤ
  namesize : ℤ

/-- The number that hexadecimal digits stand for. -/
def hexNumber (digits : Str) : ℕ :=
  digits.foldl (fun v c => v * 16 +
    if 48 ≤ c ∧ c ≤ 57 then c.toNat - 48
    else if 97 ≤ c ∧ c ≤ 102 then c.toNat - 87
    else if 65 ≤ c ∧ c ≤ 70 then c.toNat - 55
    else 0) 0

/-- The header of a member: its numbers, the name that it gets, and the device that the file was on
with its major and minor number, which the program does not read. -/
structure CpioHeader where
  numbers : Numbers
  dev : ℕ × ℕ
  name : Str

/-- A member of the archive with its data. -/
structure Entry extends CpioHeader where
  data : Str

/-- `mode_t` of the numbers. -/
def Numbers.modeT (num : Numbers) : ℕ := (num.mode % 2 ^ 32).toNat

def Entry.IsReg (e : Entry) : Prop := isReg e.numbers.modeT

instance (e : Entry) : Decidable e.IsReg := inferInstanceAs (Decidable (_ = true))

/-- Has the member more than one name?  `data_extract_all` can't deal with hardlinks to
non-files. -/
def Entry.HasLinks (e : Entry) : Prop := 1 < e.numbers.nlink ∧ e.IsReg

instance (e : Entry) : Decidable e.HasLinks := inferInstanceAs (Decidable (_ ∧ _))

/-- A member that is put off: one with links and without data. -/
def Entry.Postponed (e : Entry) : Prop := e.HasLinks ∧ e.numbers.size = 0

instance (e : Entry) : Decidable e.Postponed := inferInstanceAs (Decidable (_ ∧ _))

/-- An element of the lists of hard links. -/
def Entry.hardlink (e : Entry) : Hardlink where
  inode := e.numbers.inode
  mode := e.numbers.mode
  mtime := (e.numbers.mtime : ℤ).bmod (2 ^ 32)
  name := e.name

/-- An absolute name is made a relative one. -/
def relative (name : Str) : Str := name.dropWhile (· = slash)

def trailer : Str := bytes "TRAILER!!!"

/-- The string at the start of a buffer. -/
def stringOf (buf : Str) : Str := buf.takeWhile (· ≠ 0)

def xread (count : ℕ) (h : Handle) : Except Stop (Str × Handle) :=
  if h.rest.length < count then .error (.die "short read")
  else .ok (h.rest.take count,
    { h with rest := h.rest.drop count, offset := h.offset + count })

-- the numbers of a header, if all ten are read
variable (sscanf : Str → Option Numbers)

/-- The header of the next member with its name, or nothing at the end of the file. -/
def readHeader (h : Handle) : Except Stop (Option CpioHeader × Handle) := do
  let h ← dataAlign pipe h
  let block := h.rest.take 110
  if block = [] then pure (none, h)
  else do
    let (block, h) ← xread 110 h
    if ¬ bytes "07070" <+: block ∨ (block.getD 5 0 ≠ 49 ∧ block.getD 5 0 ≠ 50) then
      .error (.die "unsupported cpio format, use newc or crc")
    else match sscanf (block.drop 6) with
      | none => .error (.die "damaged cpio file")
      | some num => do
        -- paranoia: limit names to 8k chars
        let (name, h) ← xread (num.namesize % 0x2000).toNat h
        let h ← dataAlign pipe h
        let dev := (hexNumber ((block.drop 62).take 8), hexNumber ((block.drop 70).take 8))
        pure (some ⟨num, dev, relative (stringOf name)⟩, h)

/-- The target of a symbolic link is its data. -/
def readTarget (num : Numbers) (h : Handle) : Except Stop (Option Str × ℕ × Handle) :=
  if isLnk num.modeT then do
    let (target, h) ← xread (num.size % 0x2000) h
    pure (some (stringOf target), 0, h)
  else pure (none, num.size, h)

/-- A file with links is put on the list of those that are created. -/
def listLink (e : Entry) (h : Handle) : Handle :=
  if e.HasLinks then { h with createdHardlinks := e.hardlink :: h.createdHardlinks } else h

/-- A member of which all but its data is read. -/
def extractEntry (e : Entry) (target : Option Str) (size : ℕ) (h : Handle) : Except Stop Handle :=
  if e.Postponed then
    -- put file on a linked list for later
    .ok { h with hardlinksToCreate := e.hardlink :: h.hardlinksToCreate }
  else do
    let header : FileHeader :=
      ⟨e.name, target, size, e.numbers.modeT, e.numbers.mtime, (e.numbers.major, e.numbers.minor)⟩
    let h ← dataExtractAll pipe unconditional stMtime header (listLink e h)
    pure { h with offset := h.offset + size }

/-- One member that is not the trailer. -/
def extractMember (header : CpioHeader) (h : Handle) : Except Stop (Entry × Handle) := do
  let (target, size, h) ← readTarget header.numbers h
  let e : Entry := ⟨header, h.rest.take header.numbers.size⟩
  let h ← extractEntry pipe unconditional stMtime e target size h
  pure (e, h)

/-- The links that were put off. -/
def makeLinks : List Hardlink → Handle → Except Stop Handle
  | [], h => .ok { h with hardlinksToCreate := [], createdHardlinks := [] }
  | makeMe :: rest, h => do
    let header (target : Option Str) : FileHeader :=
      ⟨makeMe.name, target, 0, (makeMe.mode % 2 ^ 32).toNat, makeMe.mtime, (0, 0)⟩
    match h.createdHardlinks.find? fun cur => cur.inode = makeMe.inode with
    | some cur => do
      let h ← dataExtractAll pipe unconditional stMtime (header (some cur.name)) h
      makeLinks rest h
    | none => do
      -- no file with such inode was created
      let h ← dataExtractAll pipe unconditional stMtime (header none) h
      makeLinks rest { h with createdHardlinks := makeMe :: h.createdHardlinks }

/-- With no member there is nothing left to do. -/
def getHeaderCpio (h : Handle) : Except Stop (Option Entry × Handle) := do
  match ← readHeader pipe sscanf h with
  | (some header, h) =>
    if header.name = trailer then do
      let h ← makeLinks pipe unconditional stMtime h.hardlinksToCreate h
      pure (none, h)
    else do
      let (e, h) ← extractMember pipe unconditional stMtime header h
      pure (some e, h)
  | (none, h) => do
    let h ← makeLinks pipe unconditional stMtime h.hardlinksToCreate h
    pure (none, h)

/-! ### cpio -/

/-- `link` or `symlink`; a name that is there is not made again. -/
def createLink (l : Placeholder) (disk : Disk) : Option Disk :=
  if (disk.node l.linkname).isSome then none
  else if l.hard then
    match disk.node l.target with
    | none => none
    | some (.other .directory) => none
    | some x => some (disk.bind l.linkname x)
  else some (disk.bind l.linkname (.other (.symlink l.target)))

def createLinksFromList : List Placeholder → Disk → Except Stop Disk
  | [], disk => .ok disk
  | l :: list, disk =>
    match createLink l disk with
    | none => .error (.die "can't create %slink '%s' to '%s'")
    | some disk => createLinksFromList list disk

/-- The loop of `cpio_main`: the members and what the handle is like in the end. -/
def members : ℕ → Handle → Except Stop (List Entry × Handle)
  | 0, _ => .error .spin
  | fuel + 1, h => do
    match ← getHeaderCpio pipe unconditional stMtime sscanf h with
    | (none, h) => pure ([], h)
    | (some e, h) => do
      let (es, h) ← members fuel h
      pure (e :: es, h)

/-- `cpio -i` in an empty directory: the members of the archive, and the disk. -/
def extract (archive : Str) : Except Stop (List Entry × Disk) := do
  let (es, h) ← members pipe unconditional stMtime sscanf (archive.length + 1)
    ⟨0, archive, [], [], [], Disk.empty⟩
  let disk ← createLinksFromList h.linkPlaceholders h.disk
  pure (es, disk)

end

end Rustybox.Cpio
