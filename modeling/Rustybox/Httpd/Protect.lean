import Rustybox.Httpd.Canonical

/-!
# Protected files

The password check is made for the canonical path of the URL.  The file that is sent may be another
one: the index page of a directory, or the `.gz` file beside the page.  It is protected by its own
rules as long as the longest of them are also the longest for the path of the URL.  And the password
lines of a directory count only if its configuration is found: its name is in a buffer that is freed
before the file is opened.
-/

namespace Rustybox.Httpd

open Rustybox.Rust

/-! ### Rules and paths -/

/-- The path of the rule is this path, or that of a directory above it. -/
def Htaccess.Governs (r : Htaccess) (path : Str) : Prop :=
  r.beforeColon = [slash] ∨ r.beforeColon = path ∨ r.beforeColon ++ [slash] <+: path

/-- No rule that governs the path has a longer one. -/
def Longest (rules : List Htaccess) (r : Htaccess) (path : Str) : Prop :=
  r ∈ rules ∧ r.Governs path ∧
    ∀ r' ∈ rules, r'.Governs path → r'.beforeColon.length ≤ r.beforeColon.length

/-- **Who may have the file**: no rule governs its path, or one of the headers carries credentials
that a rule with the longest path accepts. -/
def Admits (accounts : Accounts) (rules : List Htaccess) (path : Str) (lines : List Str) : Prop :=
  (∀ r ∈ rules, ¬ r.Governs path) ∨
    ∃ line ∈ lines, ∃ up, credentials line = some up ∧
      ∃ r, Longest rules r path ∧ r.accepts accounts up = true

theorem covers_iff {r : Htaccess} {path : Str} (h : startsWith slash r.beforeColon = true) :
    r.covers path = true ↔ r.Governs path := by
  have hone : r.beforeColon.length = 1 ↔ r.beforeColon = [slash] := by
    constructor
    · intro hlen
      obtain ⟨b, hb⟩ := List.length_eq_one_iff.mp hlen
      rw [hb] at h ⊢
      simpa [startsWith] using h
    · intro heq
      rw [heq]
      rfl
  have hbelow : (r.beforeColon.isPrefixOf path && atEnd (path.drop r.beforeColon.length)) = true ↔
      r.beforeColon = path ∨ r.beforeColon ++ [slash] <+: path := by
    rw [Bool.and_eq_true, List.isPrefixOf_iff_prefix]
    constructor
    · rintro ⟨⟨rest, rfl⟩, hend⟩
      rw [List.drop_left] at hend
      cases rest with
      | nil => exact Or.inl (List.append_nil _).symm
      | cons b rest =>
        have hb : b = slash := by simpa [atEnd, startsWith] using hend
        exact Or.inr ⟨rest, by rw [hb, List.append_assoc]; rfl⟩
    · rintro (heq | ⟨rest, rfl⟩)
      · rw [← heq]
        exact ⟨List.prefix_refl _, by simp [atEnd]⟩
      · refine ⟨⟨slash :: rest, by simp⟩, ?_⟩
        rw [List.append_assoc, List.drop_left]
        rfl
  rw [Htaccess.covers, Bool.or_eq_true, hbelow, beq_iff_eq, hone]
  exact Iff.rfl

theorem Htaccess.Governs.eq_of_length {r r' : Htaccess} {path : Str} (h : r.Governs path)
    (h' : r'.Governs path) (hroot : startsWith slash r.beforeColon = true)
    (hroot' : startsWith slash r'.beforeColon = true)
    (hlen : r.beforeColon.length = r'.beforeColon.length) : r.beforeColon = r'.beforeColon := by
  have hcov := (covers_iff hroot).mpr h
  have hcov' := (covers_iff hroot').mpr h'
  have hprefix : ∀ r : Htaccess, startsWith slash r.beforeColon = true → r.covers path = true →
      r.beforeColon = [slash] ∨ r.beforeColon <+: path := by
    intro r hroot hcov
    rcases (covers_iff hroot).mp hcov with hone | heq | hpre
    · exact Or.inl hone
    · exact Or.inr (heq ▸ List.prefix_refl _)
    · exact Or.inr ((List.prefix_append _ _).trans hpre)
  have hone : ∀ r : Htaccess, startsWith slash r.beforeColon = true → r.beforeColon.length = 1 →
      r.beforeColon = [slash] := by
    intro r hroot hlen
    obtain ⟨b, hb⟩ := List.length_eq_one_iff.mp hlen
    rw [hb] at hroot ⊢
    simpa [startsWith] using hroot
  rcases hprefix r hroot hcov with hr | hr
  · rw [hr, hone r' hroot' (by rw [← hlen, hr]; rfl)]
  rcases hprefix r' hroot' hcov' with hr' | hr'
  · rw [hr', hone r hroot (by rw [hlen, hr']; rfl)]
  · exact (List.prefix_of_prefix_length_le hr hr' (Nat.le_of_eq hlen)).eq_of_length hlen

/-- The canonical path of a file below the home directory. -/
def pathOf (rel : List Str) : Str := slash :: [slash].intercalate rel

/-- The configuration of one directory, as it is meant. -/
def ownConf (site : Site) (conf : Conf) (dir : Str) : Conf :=
  if isDirectory site.tree site.home dir then
    parseSubdir dir conf (confLines site (dir ++ [slash] ++ httpdConf))
  else conf

/-- The rules for a path: those of the site, and those of the directories on the way. -/
def rulesFor (site : Site) (path : Str) : List Htaccess :=
  ((subdirs [] path.tail).foldl (ownConf site) (parseConf site.conf)).gAuth

/-- For each directory on the way the file that is opened has the lines of its configuration. -/
def Opens (site : Site) (path : Str) : Prop :=
  ∀ dir ∈ subdirs [] path.tail, isDirectory site.tree site.home dir = true →
    confLines site (site.freed (dir ++ [slash] ++ httpdConf)) =
      confLines site (dir ++ [slash] ++ httpdConf)

/-- **The way to the file.**  The request passes every check that is made before the file is opened. -/
structure Reaches (site : Site) (peer : Peer) (line : Str) (lines : List Str) (method : Method)
    (path : Str) (conf : Conf) (seen : Seen) : Prop where
  allowed : ifIpDenied (parseConf site.conf).flgDenyAll (remoteIp peer) (parseConf site.conf).ipAD =
    false
  asked : ∃ url, requestLine line = .ok (method, url) ∧ urlPath url = .ok path
  configured : subdirLoop site (remoteIp peer) (subdirs [] path.tail) (parseConf site.conf) = .ok conf
  notCgiBin : path.tail ≠ bytes "cgi-bin/"
  headed : headers method (checkUserPasswd site.accounts conf.gAuth path) lines 0 ⟨none, false⟩ =
    .ok seen
  notConf : bbBasename path ≠ httpdConf
  authorized : seen.authorized.getD (checkUserPasswd site.accounts conf.gAuth path []) = true
  notDirectory : ¬ (path.getLast? ≠ some slash ∧ isDirectory site.tree site.home path.tail = true)
  notCgi : cgiType site path = false
  notPost : method ≠ .post

/-- A rule is for exactly one of two paths. -/
def OwnRule (rules : List Htaccess) (path path' : Str) : Prop :=
  path ≠ path' ∧ ∃ r ∈ rules, r.beforeColon = path ∨ r.beforeColon = path'

/-- The check, made for this path, passes without credentials or on those of a header. -/
def Passes (accounts : Accounts) (rules : List Htaccess) (path : Str) (lines : List Str) : Prop :=
  checkUserPasswd accounts rules path [] = true ∨ ∃ line ∈ lines, ∃ up,
    credentials line = some up ∧ checkUserPasswd accounts rules path up = true

/-- **When the check is made for the right path**, with all rules: the configurations on the way are
found, and the URL names the file itself or no rule is for exactly that file or exactly the path of the
URL; or the check passes for the path of the file too. -/
def Matched (site : Site) (peer : Peer) (line : Str) (lines : List Str) : Prop :=
  ∀ method path conf seen, Reaches site peer line lines method path conf seen →
    ∀ rel content, sendFile site (withIndex path).tail seen.contentGzip =
        .file (site.home ++ rel) content →
      Opens site path ∧ ¬ OwnRule (rulesFor site path) path (pathOf rel) ∨
        Passes site.accounts (rulesFor site path) (pathOf rel) lines

end Rustybox.Httpd
