import Rustybox.Httpd.Access

/-!
# A request

`handle_incoming_and_exit`, from the request line to the reply.  The server has an index page called
`index.html`, and no proxies, interpreters or error pages.  A name in the directory tree is a list of
components from the root; there are no symbolic links.
-/

namespace Rustybox.Httpd

open Rustybox.Rust

/-! ### Files -/

/-- What a name stands for. -/
inductive Node where
  | file (content : Str)
  | dir
  deriving DecidableEq

abbrev Tree := List Str → Option Node

def dotdot : Str := [dot, dot]

/-- Follow the components of a path. -/
def walk (tree : Tree) : List Str → List Str → Option (List Str)
  | cur, [] => some cur
  | cur, c :: cs =>
    if tree cur = some .dir then
      if c = [] ∨ c = [dot] then walk tree cur cs
      else if c = dotdot then walk tree cur.dropLast cs
      else walk tree (cur ++ [c]) cs
    else none

/-- The name that a path leads to, and what is there. -/
def lookup (tree : Tree) (cwd : List Str) (path : Str) : Option (List Str × Node) :=
  if path = [] then none
  else
    match walk tree (if startsWith slash path then [] else cwd) (strsep path slash) with
    | none => none
    | some name => (tree name).map fun node => (name, node)

def isDirectory (tree : Tree) (cwd : List Str) (path : Str) : Bool :=
  (lookup tree cwd path).map Prod.snd == some .dir

/-- The lines that `fgets` reads; `room` is what is left of a buffer of 160 bytes. -/
def fgetsLines : ℕ → Str → Str → List Str
  | _, [], buf => if buf.isEmpty then [] else [buf]
  | room, b :: s, buf =>
    if b = newline ∨ room ≤ 1 then (buf ++ [b]) :: fgetsLines 159 s []
    else fgetsLines (room - 1) s (buf ++ [b])

/-! ### The site -/

/-- The password files, and `pw_encrypt`. -/
structure Accounts where
  /-- `pw_passwd`, or `sp_pwdp` where it is in the shadow file. -/
  passwd : Str → Option Str
  pwEncrypt : Str → Str → Str

/-- What a server works with.  `indexCgi`: can `cgi-bin/index.cgi` be executed?  `freed`: what is
found in a buffer that has been freed, in which a name was written. -/
structure Site where
  tree : Tree
  home : List Str
  conf : List Str
  indexCgi : Bool
  accounts : Accounts
  freed : Str → Str

/-- The replies: a status without the contents of a file, what a program sends, or a file. -/
inductive Reply where
  | status (code : ℕ)
  | cgi
  | file (name : List Str) (content : Str)
  deriving DecidableEq

def indexPage : Str := bytes "index.html"
def httpdConf : Str := bytes "httpd.conf"

/-! ### The URL -/

def hexToBin (b : UInt8) : Option ℕ :=
  if isDigit b then some (b.toNat - 48)
  else if 97 ≤ (b ||| 0x20) ∧ (b ||| 0x20) ≤ 102 then some ((b ||| 0x20).toNat - 87)
  else none

/-- `percent_decode_in_place`, strict: a bad escape is a bad request, and an encoded slash or NUL is
not found. -/
def percentDecode : Str → Str → Except ℕ Str
  | [], dst => .ok dst
  | [b], dst => if b = 37 then .error 400 else .ok (dst ++ [b])
  | [b, b1], dst => if b = 37 then .error 400 else percentDecode [b1] (dst ++ [b])
  | b :: b1 :: b2 :: src, dst =>
    if b = 37 then
      match hexToBin b1, hexToBin b2 with
      | some hi, some lo =>
        if UInt8.ofNat (hi * 16 + lo) = slash ∨ hi * 16 + lo = 0 then .error 404
        else percentDecode src (dst ++ [UInt8.ofNat (hi * 16 + lo)])
      | _, _ => .error 400
    else percentDecode (b1 :: b2 :: src) (dst ++ [b])

/-- The canonical path of a URL: the query is cut off, escapes are decoded, and the path is
canonicalized. -/
def urlPath (url : Str) : Except ℕ Str :=
  match percentDecode (url.takeWhile (· ≠ 63)) [] with
  | .error code => .error code
  | .ok decoded =>
    match canonicalize true [slash] decoded with
    | none => .error 400
    | some out => .ok out.reverse

/-- The directories on the way to a path, which may have a configuration of their own. -/
def subdirs : Str → Str → List Str
  | _, [] => []
  | done, b :: s =>
    if b = slash then done :: subdirs (done ++ [b]) s else subdirs (done ++ [b]) s

/-- The lines of a configuration file.  There are none if it is not found. -/
def confLines (site : Site) (filename : Str) : List Str :=
  match lookup site.tree site.home filename with
  | some (_, .file content) => fgetsLines 159 content []
  | _ => []

/-- The configuration of one directory.  The buffer with the name of the file is freed before the
file is opened; if none is found, the old address rules are gone all the same. -/
def subdirConf (site : Site) (conf : Conf) (dir : Str) : Conf :=
  if isDirectory site.tree site.home dir then
    parseSubdir dir conf (confLines site (site.freed (dir ++ [slash] ++ httpdConf)))
  else conf

/-- The configurations on the way, and the check of the client's address after each. -/
def subdirLoop (site : Site) (remoteIp : UInt32) : List Str → Conf → Except ℕ Conf
  | [], conf => .ok conf
  | dir :: dirs, conf =>
    let conf := subdirConf site conf dir
    if isDirectory site.tree site.home dir ∧
        ifIpDenied conf.flgDenyAll remoteIp conf.ipAD = true then .error 403
    else subdirLoop site remoteIp dirs conf

/-! ### Passwords -/

/-- Is the path that of the rule, or below it? -/
def Htaccess.covers (cur : Htaccess) (path : Str) : Bool :=
  cur.beforeColon.length == 1 ||
    cur.beforeColon.isPrefixOf path && atEnd (path.drop cur.beforeColon.length)

def isEncrypted (passwd : Str) : Bool :=
  match passwd with
  | d :: b :: _ => d == 36 && isDigit b
  | _ => false

/-- Does a rule accept the credentials? -/
def Htaccess.accepts (accounts : Accounts) (cur : Htaccess) (userAndPasswd : Str) : Bool :=
  let user := userAndPasswd.takeWhile (· ≠ colon)
  match strchrnul userAndPasswd colon with
  -- comparing plaintext "user:pass" in one go
  | [] => cur.afterColon == userAndPasswd
  | _ :: given =>
    if !startsWith star cur.afterColon && !(user ++ [colon]).isPrefixOf cur.afterColon then false
    else
      match strchrnul cur.afterColon colon with
      | [] => cur.afterColon == userAndPasswd
      | _ :: passwd =>
        if startsWith star passwd then
          match accounts.passwd user with
          | none => false
          | some passwd => accounts.pwEncrypt given passwd == passwd
        else if isEncrypted passwd then accounts.pwEncrypt given passwd == passwd
        else given == passwd

/-- The loop of `check_user_passwd`; `prev` is the path of the rules that matched. -/
def checkLoop (accounts : Accounts) (path userAndPasswd : Str) : List Htaccess → Option Str → Bool
  | [], prev => prev.isNone
  | cur :: next, prev =>
    -- if already saw a match, don't accept other different matches
    if prev.isSome ∧ prev ≠ some cur.beforeColon then checkLoop accounts path userAndPasswd next prev
    else if cur.covers path then
      if cur.accepts accounts userAndPasswd then true
      else checkLoop accounts path userAndPasswd next (some cur.beforeColon)
    else checkLoop accounts path userAndPasswd next prev

def checkUserPasswd (accounts : Accounts) (gAuth : List Htaccess) (path userAndPasswd : Str) :
    Bool := checkLoop accounts path userAndPasswd gAuth none

/-! ### Headers -/

/-- `tolower`. -/
def lower (b : UInt8) : UInt8 := if 65 ≤ b ∧ b ≤ 90 then b + 32 else b

/-- What follows `key` in a line that starts with it, in upper or lower case. -/
def afterKey (key : String) (line : Str) : Option Str :=
  isPrefixedWith (line.map lower) ((bytes key).map lower) |>.map fun _ =>
    line.drop (bytes key).length

def skipWhitespace (s : Str) : Str := s.dropWhile fun b => b = 32 ∨ 9 ≤ b ∧ b ≤ 13

/-- The six bits of a base64 letter. -/
def base64Value (t : UInt8) : Option ℕ :=
  if isDigit t then some (t.toNat - 48 + 52)
  else if 65 ≤ t ∧ t ≤ 90 then some (t.toNat - 65)
  else if 97 ≤ t ∧ t ≤ 122 then some (t.toNat - 97 + 26)
  else if t = 43 then some 62
  else if t = 47 then some 63
  else if t = 61 then some 0
  else none

/-- The loop of `decodeBase64`, with `i` letters in `ch`. -/
def decodeLoop : Str → ℕ → ℕ → Str
  | [], _, _ => []
  | t :: s, ch, i =>
    match base64Value t with
    | none => decodeLoop s ch i
    | some v =>
      let ch := ch * 64 + v
      if i = 3 then
        UInt8.ofNat (ch / 65536) :: UInt8.ofNat (ch / 256) :: UInt8.ofNat ch :: decodeLoop s 0 0
      else decodeLoop s ch (i + 1)

/-- `decodeBase64`: what is decoded is used as a string. -/
def decodeBase64 (data : Str) : Str := (decodeLoop data 0 0).takeWhile (· ≠ 0)

/-- The credentials of an `Authorization:` line. -/
def credentials (line : Str) : Option Str :=
  match afterKey "Authorization:" line with
  | none => none
  | some rest => (afterKey "Basic" (skipWhitespace rest)).map decodeBase64

/-- A length that `bb_strtou` reads without an error, and that fits an `int`. -/
def lengthOk (text : Str) : Bool :=
  !text.isEmpty && text.all isDigit && decimal text ≤ 2147483647

/-- Does `key` occur in the line? -/
def strstr (line key : Str) : Bool := line.tails.any key.isPrefixOf

inductive Method where
  | get
  | head
  | post
  deriving DecidableEq

/-- What the headers leave: `authorized`, which is -1 at first, and `content_gzip`. -/
structure Seen where
  authorized : Option Bool
  contentGzip : Bool

def header (method : Method) (check : Str → Bool) (seen : Seen) (line : Str) : Except ℕ Seen :=
  match afterKey "Content-Length:" line with
  | some rest =>
    if method = .post ∧ lengthOk (skipWhitespace rest) = false then .error 400 else .ok seen
  | none =>
    match credentials line with
    | some userAndPasswd => .ok { seen with authorized := some (check userAndPasswd) }
    | none =>
      if (afterKey "Range:" line).isSome then .ok seen
      else if (afterKey "Accept-Encoding:" line).isSome ∧ strstr line (bytes "gzip") then
        .ok { seen with contentGzip := true }
      else .ok seen

/-- Read until blank line; `total` is the length of the headers so far. -/
def headers (method : Method) (check : Str → Bool) : List Str → ℕ → Seen → Except ℕ Seen
  | [], _, seen => .ok seen
  | line :: lines, total, seen =>
    if line = [] then .ok seen
    else if total + line.length ≥ 32 * 1024 then .error 413
    else
      match header method check seen line with
      | .error code => .error code
      | .ok seen => headers method check lines (total + line.length) seen

/-! ### The reply -/

/-- `send_file_and_exit`.  A directory can be opened, but not read. -/
def sendFile (site : Site) (url : Str) (contentGzip : Bool) : Reply :=
  let opened := match contentGzip, lookup site.tree site.home (url ++ bytes ".gz") with
    | true, some found => some found
    | _, _ => lookup site.tree site.home url
  match opened with
  | none => .status 404
  | some (_, .dir) => .status 200
  | some (name, .file content) => .file name content

/-- The path with the index page, if it is a directory's. -/
def withIndex (path : Str) : Str := if path.getLast? = some slash then path ++ indexPage else path

def bbBasename (name : Str) : Str := ((strrchr name slash).map Prod.snd).getD name

/-- Is the reply left to a program? -/
def cgiType (site : Site) (path : Str) : Bool :=
  (isPrefixedWith path.tail (bytes "cgi-bin/")).isSome ||
    (path.getLast? == some slash && site.indexCgi &&
      (lookup site.tree site.home (withIndex path).tail).isNone)

/-- What is done once all headers are read. -/
def dispatch (site : Site) (gAuth : List Htaccess) (method : Method) (path : Str) (seen : Seen) :
    Reply :=
  -- protect listing [/path]/httpd.conf or IP deny
  if bbBasename path = httpdConf then .status 403
  else if seen.authorized.getD (checkUserPasswd site.accounts gAuth path []) = false then .status 401
  else if path.getLast? ≠ some slash ∧ isDirectory site.tree site.home path.tail = true then
    .status 302
  else if cgiType site path then .cgi
  -- POST for files does not make sense
  else if method = .post then .status 501
  else sendFile site (withIndex path).tail seen.contentGzip

/-- The method and the URL of a request line. -/
def requestLine (line : Str) : Except ℕ (Method × Str) :=
  match strchrnul line 32 with
  | [] => .error 400
  | _ :: rest =>
    let name := (line.takeWhile (· ≠ 32)).map lower
    match if name = bytes "get" then some Method.get
      else if name = bytes "head" then some .head
      else if name = bytes "post" then some .post
      else none with
    | none => .error 501
    | some method =>
      if startsWith slash rest ∧ (isPrefixedWith (strchrnul rest 32) (bytes " HTTP/")).isSome then
        .ok (method, rest.takeWhile (· ≠ 32))
      else .error 400

/-- The request with its URL canonicalized. -/
def serve (site : Site) (remoteIp : UInt32) (conf : Conf) (method : Method) (path : Str)
    (lines : List Str) : Reply :=
  match subdirLoop site remoteIp (subdirs [] path.tail) conf with
  | .error code => .status code
  | .ok conf =>
    -- protect listing "cgi-bin/"
    if path.tail = bytes "cgi-bin/" then .status 403
    else
      match headers method (checkUserPasswd site.accounts conf.gAuth path) lines 0 ⟨none, false⟩ with
      | .error code => .status code
      | .ok seen => dispatch site conf.gAuth method path seen

end Rustybox.Httpd
