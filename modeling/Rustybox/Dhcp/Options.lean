import Mathlib.Algebra.Ring.Int.Defs
import Rustybox.Dhcp.Building
import Rustybox.Dhcp.Encoding
import Rustybox.Rust.Tokens

/-!
# Options of a configuration

`udhcp_str2optset` reads an option from a line of `udhcpd.conf` or from an argument of the client
and puts it into a list, where a value of an option that may have several goes behind the values
that are there.

The data of a node are its code, its length and its values, as they go into a packet: one byte for
the code and one for the length for DHCPv4, two of each for DHCPv6.
-/

namespace Rustybox.Dhcp

open Rustybox.Rust

/-! ### The list -/

/-- `data` of `struct option_set`; a byte that is allocated to spare is left out. -/
abbrev Node := List UInt8

def Node.first (n : Node) : UInt8 := n.headD 0

/-- `udhcp_find_option`: the number of the node. -/
def udhcpFindOption (optList : List Node) (code : UInt8) : Option ℕ :=
  match optList with
  | [] => none
  | n :: optList =>
    if n.first < code then (udhcpFindOption optList code).map (· + 1)
    else if n.first = code then some 0
    else none

/-- A node behind those with a first byte below the code. -/
def insertNode (new : Node) (code : UInt8) : List Node → List Node
  | [] => [new]
  | n :: optList =>
    if n.first < code then n :: insertNode new code optList else new :: n :: optList

/-- The node for an option that is not in the list. -/
def newNode (code : UInt8) (buffer : List UInt8) (dhcpv6 : Bool) : Node :=
  if !dhcpv6 then code :: UInt8.ofNat buffer.length :: buffer
  else
    UInt8.ofNat (code.toNat >>> 8) :: UInt8.ofNat (code.toNat &&& 0xff) ::
      UInt8.ofNat (buffer.length >>> 8) :: UInt8.ofNat (buffer.length &&& 0xff) :: buffer

/-- A value behind those of a node. -/
def addValue (buffer : List UInt8) (existing : Node) : Node :=
  let oldLen := (existing.getD 1 0).toNat
  -- actually 255 is ok too, but adding a space can overlow it
  if oldLen + buffer.length < 255 then
    (existing.take (2 + oldLen) ++ buffer).set 1 (UInt8.ofNat (oldLen + buffer.length))
  else existing

/-- `attach_option`, when the value has been brought into its binary form. -/
def attach (optList : List Node) (optflag : DhcpOptflag) (buffer : List UInt8) (dhcpv6 : Bool) :
    List Node :=
  match udhcpFindOption optList optflag.code with
  | none => insertNode (newNode optflag.code buffer dhcpv6) optflag.code optList
  | some i => if optflag.list then optList.modify i (addValue buffer) else optList

/-! ### Values -/

/-- The messages of `bb_error_msg_and_die`. -/
inductive Die
  /-- `malformed hex string '%s'` -/
  | malformedHex (buffer : Str)
  /-- `unknown option '%s', known options: %s` -/
  | unknownOption (name : Str)
deriving DecidableEq

def isSpace (c : UInt8) : Bool := c = 32 || (9 ≤ c && c ≤ 13)

def trim (s : Str) : Str := ((s.reverse.dropWhile isSpace).reverse).dropWhile isSpace

/-- `bb_strtou`: none where `errno` is set. -/
def bbStrtou (base : ℕ) (arg : Str) : Option ℕ :=
  if arg.head?.any isAlnum = false then none
  else
    let v := strtoul base arg
    if 2 ^ 32 - 1 < v.r ∨ v.e ≠ [] ∨ v.errno = true then none else some v.r

/-- `bb_strtoi` on top of `strtol`, which reads the number behind a sign as `strtoul` does. -/
def bbStrtoi (base : ℕ) (arg : Str) : Option ℤ :=
  let minus := arg.head? = some 45
  let s := if minus then arg.tail else arg
  if s.head?.any isAlnum = false then none
  else
    let v := strtoul base s
    let n : ℤ := if minus then -(v.r : ℤ) else v.r
    if 2147483647 < n ∨ n < -2147483647 - 1 ∨ v.e ≠ [] ∨ v.errno = true then none else some n

/-- A hex digit of `hex2bin`. -/
def hexDigit (c : UInt8) : Option ℕ :=
  if isDigit c then some (c - 48).toNat
  else if 97 ≤ c ||| 0x20 ∧ c ||| 0x20 ≤ 102 then some ((c ||| 0x20) - 87).toNat
  else none

/-- `hex2bin`: none where `errno` is set. -/
def hex2bin : Str → ℕ → Option (List UInt8)
  | [], _ => some []
  | _ :: _, 0 => none
  | c :: str, count + 1 =>
    let skip (s : Str) : Str := if s.head? = some colon then s.tail else s
    match hexDigit c, str with
    | none, _ => none
    | some v, [] => some [UInt8.ofNat v]
    | some v, c' :: str =>
      match hexDigit c' with
      | some v' => (hex2bin (skip str) count).map (UInt8.ofNat (v <<< 4 ||| v') :: ·)
      | none =>
        if c' = colon then (hex2bin (skip str) count).map (UInt8.ofNat v :: ·) else none

/-- What `attach_option` gets: a value in its binary form, hex digits, or a domain name. -/
inductive Value
  | raw (buffer : List UInt8)
  | hex (buffer : Str)
  | name (buffer : Str)

/-- The first part of `attach_option`, which brings a value into its binary form. -/
def Value.toBinary : Value → Except Die (List UInt8)
  | .raw buffer => .ok buffer
  | .hex buffer =>
    match hex2bin buffer 255 with
    | some bs => .ok bs
    | none => .error (.malformedHex buffer)
  | .name buffer =>
    -- a name that cannot be encoded is NULL with length zero
    match dnameEnc none buffer with
    | some (some bs) => .ok bs
    | _ => .ok []

def attachOption (optList : List Node) (optflag : DhcpOptflag) (v : Value) (dhcpv6 : Bool) :
    Except Die (List Node) :=
  v.toBinary.map fun buffer => attach optList optflag buffer dhcpv6

/-! ### Reading a line -/

/-- `last_char_is`: the string before its last character, if that is `c`. -/
def lastCharIs (s : Str) (c : UInt8) : Option Str :=
  if s.getLast? = some c then some s.dropLast else none

/-- What is between the name and the values, between values, and inside of one. -/
def nameDelims : Str := bytes " \t=:"
def valueDelims : Str := bytes ", \t"
def partDelims : Str := bytes ", \t/-"

/-- A value that is a string: its length, and the string itself. -/
def stringValue (val : Str) (v : Value) : Option Value :=
  if 0 < min val.length 254 then some v else none

/-- Input: `a.b.c.d/m`.  Output: mask, prefix of up to four bytes, gateway. -/
def staticRoute (str2nip : Str → Option UInt32) (val rest : Str) : Option Value × Str :=
  match val.dropWhile (· ≠ slash) with
  | [] => (none, rest)
  | _ :: mask =>
    let net := str2nip (val.takeWhile (· ≠ slash))
    let mask := bbStrtou 10 mask
    match strtok rest partDelims, mask, net with
    | some (val, rest), some mask, some net =>
      if 32 < mask then (none, rest)
      else
        let length := (mask + 7) >>> 3 + 5
        ((str2nip val).map fun gw => .raw (UInt8.ofNat mask ::
          ((leBytes 4 net.toNat).take (length - 5) ++ leBytes 4 gw.toNat)), rest)
    | some (_, rest), _, _ => (none, rest)
    | none, _, _ => (none, [])

/-- A value of a type, and what is left of the line; `none` is a `retval` of zero.  The
addresses of `udhcp_str2nip` are in the order of memory. -/
def parseValue (str2nip : Str → Option UInt32) (type : OptionType) (val rest : Str) :
    Option Value × Str :=
  match type with
  | .ip => ((str2nip val).map fun ip => .raw (leBytes 4 ip.toNat), rest)
  | .ipPair =>
    match strtok rest partDelims with
    | none => (none, [])
    | some (val', rest) =>
      ((str2nip val).bind fun ip => (str2nip val').map fun ip' =>
        .raw (leBytes 4 ip.toNat ++ leBytes 4 ip'.toNat), rest)
  | .string | .stringHost => (stringValue val (.raw (val.take 254)), rest)
  | .dnsString => (stringValue val (.name val), rest)
  | .u8 => ((bbStrtou 0 val).map fun v => .raw [UInt8.ofNat v], rest)
  | .u16 => ((bbStrtou 0 val).map fun v => .raw (beBytes 2 v), rest)
  | .u32 => ((bbStrtou 0 val).map fun v => .raw (beBytes 4 v), rest)
  | .s32 => ((bbStrtoi 0 val).map fun v => .raw (beBytes 4 (v % 2 ^ 32).toNat), rest)
  | .staticRoutes => staticRoute str2nip val rest
  | .bin =>
    -- Raw (numeric) option code. Is it a string?
    match val with
    | delim :: val' =>
      match if delim = 34 ∨ delim = 39 then lastCharIs val' delim else none with
      | some inner => (stringValue inner (.raw (inner.take 254)), rest)
      | none => (some (.hex val), rest)
    | [] => (some (.hex val), rest)
  | .sixRd | .sipServers => (none, rest)

/-- The next value of the line, and what is left of it. -/
def nextVal (optflag : DhcpOptflag) (rest : Str) : Option (Str × Str) :=
  -- do not split "'q w e'"
  if optflag.type = .bin ∧ optflag.list = false then
    (strtok rest []).map fun r => (trim r.1, r.2)
  else strtok rest valueDelims

theorem nextVal_length {optflag : DhcpOptflag} {rest val rest' : Str}
    (h : nextVal optflag rest = some (val, rest')) : rest'.length < rest.length := by
  rw [nextVal] at h
  split at h
  · obtain ⟨⟨word, left⟩, hword, heq⟩ := Option.map_eq_some_iff.mp h
    cases heq
    exact strtok_length hword
  · exact strtok_length h

theorem staticRoute_length (str2nip : Str → Option UInt32) (val rest : Str) :
    (staticRoute str2nip val rest).2.length ≤ rest.length := by
  rw [staticRoute]
  split
  · exact Nat.le_refl _
  · dsimp only
    split
    · rename_i hword _ _
      have hlt := strtok_length hword
      split <;> exact Nat.le_of_lt hlt
    · rename_i hword _
      exact Nat.le_of_lt (strtok_length hword)
    · exact Nat.zero_le _

theorem parseValue_length (str2nip : Str → Option UInt32) (type : OptionType) (val rest : Str) :
    (parseValue str2nip type val rest).2.length ≤ rest.length := by
  cases type with
  | ipPair =>
    rw [parseValue]
    split
    · exact Nat.zero_le _
    · rename_i hword
      exact Nat.le_of_lt (strtok_length hword)
  | bin =>
    rw [parseValue.eq_def]
    dsimp only
    split
    · split <;> exact Nat.le_refl _
    · exact Nat.le_refl _
  | staticRoutes => exact staticRoute_length str2nip val rest
  | ip | string | stringHost | dnsString | u8 | u16 | u32 | s32 | sixRd | sipServers =>
    exact Nat.le_refl _

/-- The loop of `udhcp_str2optset`: the list and `retval`. -/
def setLoop (str2nip : Str → Option UInt32) (optflag : DhcpOptflag) (dhcpv6 : Bool)
    (optList : List Node) (rest : Str) (retval : Bool) : Except Die (List Node × Bool) :=
  match _h : nextVal optflag rest with
  | none => .ok (optList, retval)
  | some (val, rest₁) =>
    match _hv : parseValue str2nip optflag.type val rest₁ with
    | (none, _) => .ok (optList, false)
    | (some v, rest₂) =>
      match attachOption optList optflag v dhcpv6 with
      | .error e => .error e
      | .ok optList =>
        if optflag.list then setLoop str2nip optflag dhcpv6 optList rest₂ true
        else .ok (optList, true)
termination_by rest.length
decreasing_by
  have h1 := nextVal_length _h
  have h2 := parseValue_length str2nip optflag.type val rest₁
  rw [_hv] at h2
  exact Nat.lt_of_le_of_lt h2 h1

/-- The option that a name stands for: a number is a code, with a value in hex digits; other names
are looked up by `udhcp_option_idx`. -/
def findOptflag (optflags : List (Str × DhcpOptflag)) (opt : Str) : Except Die DhcpOptflag :=
  match (bbStrtou 0 opt).filter (· < 255) with
  | some optcode => .ok { code := UInt8.ofNat optcode, type := .bin, list := false }
  | none =>
    match optflags.find? (·.1 = opt) with
    | some entry => .ok entry.2
    | none => .error (.unknownOption opt)

/-- `udhcp_str2optset`: the list and the return value. -/
def udhcpStr2optset (str2nip : Str → Option UInt32) (optflags : List (Str × DhcpOptflag))
    (dhcpv6 : Bool) (optList : List Node) (str : Str) : Except Die (List Node × Bool) :=
  match strtok str nameDelims with
  | none => .ok (optList, false)
  | some (opt, rest) =>
    match findOptflag optflags opt with
    | .error e => .error e
    | .ok optflag => setLoop str2nip optflag dhcpv6 optList rest false

/-- Calls one after the other on one list. -/
def setAll (str2nip : Str → Option UInt32) (optflags : List (Str × DhcpOptflag)) (dhcpv6 : Bool)
    (optList : List Node) : List Str → Except Die (List Node)
  | [] => .ok optList
  | str :: strs =>
    match udhcpStr2optset str2nip optflags dhcpv6 optList str with
    | .error e => .error e
    | .ok (optList, _) => setAll str2nip optflags dhcpv6 optList strs

/-! ### The tables -/

def dhcpOptionStrings : List Str :=
  ["subnet", "timezone", "router", "dns", "lprsrv", "hostname", "bootsize", "domain", "swapsrv",
    "rootpath", "ipttl", "mtu", "broadcast", "routes", "nisdomain", "nissrv", "ntpsrv", "wins",
    "lease", "serverid", "message", "tftp", "bootfile", "tzstr", "tzdbstr", "search", "sipsrv",
    "staticroutes", "vlanid", "vlanpriority", "pxeconffile", "pxepathprefix", "reboottime",
    "ip6rd", "msstaticroutes", "wpad"].map bytes

def d6OptionStrings : List Str :=
  ["dns", "search", "fqdn", "tz", "timezone", "bootfile_url", "bootfile_param", "pxeconffile",
    "pxepathprefix"].map bytes

def d6Optflags : List DhcpOptflag :=
  [⟨23, .sixRd, true⟩, ⟨24, .dnsString, true⟩, ⟨39, .dnsString, false⟩, ⟨41, .string, false⟩,
    ⟨42, .string, false⟩, ⟨59, .string, false⟩, ⟨60, .string, false⟩, ⟨0xd1, .string, false⟩,
    ⟨0xd2, .string, false⟩]

/-- The options of the two protocols by their names. -/
def v4Table : List (Str × DhcpOptflag) := dhcpOptionStrings.zip dhcpOptflags
def v6Table : List (Str × DhcpOptflag) := d6OptionStrings.zip d6Optflags

end Rustybox.Dhcp
