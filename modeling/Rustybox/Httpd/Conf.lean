import Rustybox.Rust.CStr

/-!
# httpd.conf

The lines of a configuration file that decide who is served: `A:` and `D:` lines with addresses, and
`/file:user:pass` lines.  Lines of other kinds change nothing here.
-/

namespace Rustybox.Httpd

open Rustybox.Rust

/-! ### Addresses -/

/-- The loop over the digits of an octet, which fails above 255. -/
def scanOctet : Str → ℕ → Option (ℕ × Str)
  | [], octet => some (octet, [])
  | b :: p, octet =>
    if isDigit b then
      if octet * 10 + (b.toNat - 48) > 255 then none
      else scanOctet p (octet * 10 + (b.toNat - 48))
    else some (octet, b :: p)

/-- Is the pointer at the end of the address, or at the slash before a mask? -/
def atMask (p : Str) : Bool := p.isEmpty || startsWith slash p

/-- The loop over the octets, `n` of them to go: the address, the presumed mask width, and what is
left. -/
def scanOctets : ℕ → Str → ℕ → UInt32 → Option (UInt32 × ℕ × Str)
  | 0, p, autoMask, ip => some (ip, autoMask, p)
  | n + 1, p, autoMask, ip =>
    if !(p.headD 0 |> isDigit) && !atMask p then none
    else
      match scanOctet p 0 with
      | none => none
      | some (octet, p) =>
        let p := if startsWith dot p then p.tail else p
        scanOctets n p (if atMask p then autoMask else autoMask + 8)
          (ip <<< 8 ||| UInt32.ofNat octet)

/-- `scan_ip`: the address, the presumed mask width in bits, and what follows the byte `endc`. -/
def scanIp (str : Str) (endc : UInt8) : Option (UInt32 × ℕ × Str) :=
  if startsWith slash str then none
  else
    match scanOctets 4 str 8 0 with
    | none => none
    | some (ip, autoMask, p) =>
      match p with
      | [] => some (ip, autoMask, [])
      | b :: p => if b ≠ endc ∨ p = [] then none else some (ip, autoMask, p)

/-- The number that decimal digits stand for. -/
def decimal (digits : Str) : ℕ := digits.foldl (fun v b => v * 10 + (b.toNat - 48)) 0

/-- `bb_strtou` with base 10: the value, and where it stops.  A number that does not fit, or that a
letter follows, is all ones. -/
def bbStrtou (arg : Str) : UInt32 × Str :=
  let p := arg.dropWhile isDigit
  let v := decimal (arg.takeWhile isDigit)
  if !isAlnum (arg.headD 0) || v > 0xffffffff || isAlnum (p.headD 0) then (0xffffffff, p)
  else (UInt32.ofNat v, p)

/-- The mask of width `i`.  A shift by an `int` takes its lowest five bits. -/
def maskOf (i : Int32) : UInt32 :=
  let mask : UInt32 := if i = 32 then 0 else 0xffffffff >>> (i.toUInt32 &&& 31)
  ~~~mask

/-- What `scan_ip_mask` returns and stores: it stores the address before it looks at the mask. -/
structure Scanned where
  ok : Bool
  ip : UInt32
  mask : UInt32

/-- `scan_ip_mask`.  After an error the mask is not used. -/
def scanIpMask (str : Str) : Scanned :=
  match scanIp str slash with
  | none => ⟨false, 0, 0⟩
  | some (ip, autoMask, str) =>
    if str.isEmpty then ⟨true, ip, maskOf (Int32.ofNat autoMask)⟩
    else
      match bbStrtou str with
      | (_, b :: _) =>
        if b = dot then
          -- 'xxx' itself is dotted-IP mask, and must have N.N.N.N form
          match scanIp str 0 with
          | some (mask, 32, _) => ⟨true, ip, mask⟩
          | _ => ⟨false, ip, 0⟩
        else ⟨false, ip, 0⟩
      | (i, []) =>
        if i.toInt32 > 32 then ⟨false, ip, 0⟩ else ⟨true, ip, maskOf i.toInt32⟩

/-! ### Paths -/

def atEnd (s : Str) : Bool := s.isEmpty || startsWith slash s

/-- Omit the previous dir; `out` is what is written, its last byte first. -/
def omitDir (out : Str) : Str := out.tail.dropWhile (· ≠ slash)

/-- The loop that canonicalizes a path.  At the root `..` is an error, or stays there. -/
def canonicalize (protectRoot : Bool) : Str → Str → Option Str
  | out, [] => some out
  | out, b :: s =>
    if startsWith slash out then
      -- skip duplicate (or initial) slash
      if b = slash then canonicalize protectRoot out s
      -- skip extra "/./"
      else if b = dot ∧ atEnd s then canonicalize protectRoot out s
      else if b = dot ∧ startsWith dot s ∧ atEnd s.tail then
        -- what follows is "./" or ".<NUL>", which is skipped
        if out.length = 1 then
          if protectRoot then none else canonicalize protectRoot out s
        else canonicalize protectRoot (omitDir out) s
      else canonicalize protectRoot (b :: out) s
    else canonicalize protectRoot (b :: out) s

/-- `bb_simplify_abs_path_inplace`. -/
def bbSimplifyAbsPath (path : Str) : Str :=
  match canonicalize false [slash] path with
  | some (b :: c :: out) => if b = slash then (c :: out).reverse else (b :: c :: out).reverse
  | _ => [slash]

/-! ### Lines -/

structure HtaccessIP where
  allowDeny : UInt8
  ip : UInt32
  mask : UInt32
  deriving DecidableEq

/-- `Htaccess`, for a path with its user and password. -/
structure Htaccess where
  beforeColon : Str
  afterColon : Str
  deriving DecidableEq

/-- The part of the globals that decides who is served. -/
structure Conf where
  ipAD : List HtaccessIP
  flgDenyAll : Bool
  gAuth : List Htaccess

def letterA : UInt8 := 65
def letterD : UInt8 := 68

/-- Remove all whitespace, and # comments. -/
def clean (line : Str) : Str :=
  (line.takeWhile fun b => b ≠ 0 ∧ b ≠ newline ∧ b ≠ 35).filter fun b => b ≠ 32 ∧ b ≠ 9

/-- What a line says. -/
inductive Directive where
  | address (ch : UInt8) (afterColon : Str)
  | auth (beforeColon afterColon : Str)
  | other

/-- The kind of a line, by its first letter in upper case. -/
def directive (line : Str) : Directive :=
  let buf := clean line
  match (strchrnul buf colon).tail with
  -- strange line?
  | [] => .other
  | b :: rest =>
    let first := buf.headD 0
    let ch := first &&& ~~~0x20
    if ch = letterA ∨ ch = letterD then .address ch (b :: rest)
    else if first = slash then .auth (buf.takeWhile (· ≠ colon)) (b :: rest)
    else .other

/-- Store "allow/deny IP/mask" line; "IP{/mask} syntax error detected, protect all". -/
def entryOf (ch : UInt8) (afterColon : Str) : HtaccessIP :=
  let scanned := scanIpMask afterColon
  if scanned.ok then ⟨ch, scanned.ip, scanned.mask⟩ else ⟨letterD, scanned.ip, 0⟩

/-- An `A:` or `D:` line.  All D's precede A's. -/
def addAddress (conf : Conf) (ch : UInt8) (afterColon : Str) : Conf :=
  if startsWith star afterColon then
    -- memorize deny all; skip assumed "A:*", it is a default anyway
    if ch = letterD then { conf with flgDenyAll := true } else conf
  else
    let pip := entryOf ch afterColon
    if pip.allowDeny = letterD then { conf with ipAD := pip :: conf.ipAD }
    else { conf with ipAD := conf.ipAD ++ [pip] }

/-- `g_auth` is sorted by decreased filename length. -/
def insertAuth (cur : Htaccess) : List Htaccess → List Htaccess
  | [] => [cur]
  | auth :: rest =>
    if cur.beforeColon.length ≥ auth.beforeColon.length then cur :: auth :: rest
    else auth :: insertAuth cur rest

/-- A `/file:user:pass` line; in subdirs, `path` is prepended. -/
def addAuth (path : Str) (conf : Conf) (beforeColon afterColon : Str) : Conf :=
  { conf with
    gAuth := insertAuth ⟨bbSimplifyAbsPath (slash :: path ++ beforeColon), afterColon⟩ conf.gAuth }

def parseLine (path : Str) (conf : Conf) (line : Str) : Conf :=
  match directive line with
  | .address ch afterColon => addAddress conf ch afterColon
  | .auth beforeColon afterColon => addAuth path conf beforeColon afterColon
  | .other => conf

/-- `parse_conf` of the main file; the lines are what `fgets` reads. -/
def parseConf (lines : List Str) : Conf := lines.foldl (parseLine []) ⟨[], false, []⟩

/-- `parse_conf` of a subdirectory: the old address rules are discarded, users are retained. -/
def parseSubdir (path : Str) (conf : Conf) (lines : List Str) : Conf :=
  lines.foldl (parseLine path) ⟨[], false, conf.gAuth⟩

end Rustybox.Httpd
