import Rustybox.Httpd.Conf
import Rustybox.Rust.Bytes
import Mathlib.Data.List.Induction
import Mathlib.Data.List.Perm.Basic
import Mathlib.Data.List.TakeWhile

/-!
# Who may connect

The decision about a client's address, compared with what the `A:` and `D:` lines say.  The list of
entries has its denials first, so the order of the lines does not matter.  An entry matches where
`remote_ip & mask == ip`: one whose address has bits outside its mask matches nobody, and so does the
one that is to "protect all" after a bad mask, unless its address is zero.  A mask number that is
negative as an `int` is taken for a small one.  And an IPv6 peer has no address here.
-/

namespace Rustybox.Httpd

open Rustybox.Rust

/-! ### The client -/

/-- `swap_bytes`. -/
def swapBytes32 (x : UInt32) : UInt32 := UInt32.ofNat (swapBytes 4 x.toNat)

/-- What `accept` reports: the address of an `AF_INET` peer as it lies in memory, or the four words
of an `AF_INET6` one. -/
inductive Peer where
  | inet (sAddr : UInt32)
  | inet6 (word0 word1 word2 word3 : UInt32)
  deriving DecidableEq

/-- `remote_ip`, in host order. -/
def remoteIp : Peer → UInt32
  | .inet sAddr => swapBytes32 sAddr
  | .inet6 _ _ _ _ => 0

/-- `if_ip_denied_send_HTTP_FORBIDDEN_and_exit`: is the answer 403? -/
def ifIpDenied (flgDenyAll : Bool) (remoteIp : UInt32) : List HtaccessIP → Bool
  | [] => flgDenyAll
  | cur :: next =>
    if remoteIp &&& cur.mask = cur.ip then cur.allowDeny ≠ letterA
    else ifIpDenied flgDenyAll remoteIp next

/-- An `A:` or `D:` line: is it a denial, and what follows the colon. -/
structure Rule where
  deny : Bool
  text : Str
  deriving DecidableEq

def Rule.any (r : Rule) : Bool := startsWith star r.text

/-- The mask that a number or a dotted quad after the slash means; a number above 32 means none. -/
def maskText (text : Str) : Option UInt32 :=
  match text.dropWhile isDigit with
  | [] => if decimal text ≤ 32 then some (maskOf (Int32.ofNat (decimal text))) else none
  | b :: _ =>
    if b = dot then
      match scanIp text 0 with
      | some (mask, 32, _) => some mask
      | _ => none
    else none

/-- The network `IP/MASK` that the text of a rule means; none if it is malformed. -/
def network (text : Str) : Option (UInt32 × UInt32) :=
  match scanIp text slash with
  | none => none
  | some (ip, width, rest) =>
    if rest.isEmpty then some (ip, maskOf (Int32.ofNat width))
    else (maskText rest).map fun mask => (ip, mask)

/-- A rule `IP/MASK` applies to `a`. -/
def Rule.Applies (r : Rule) (a : UInt32) : Prop :=
  r.any = false ∧ ∃ n, network r.text = some n ∧ a &&& n.2 = n.1 &&& n.2

/-- A rule whose address or mask is malformed. -/
def Rule.Malformed (r : Rule) : Prop := r.any = false ∧ network r.text = none

def Rule.entry (r : Rule) : HtaccessIP := entryOf (if r.deny then letterD else letterA) r.text

/-- The entries of the rules, denials first. -/
structure Stored (conf : Conf) (rules : List Rule) : Prop where
  split : ∃ denials allowances, conf.ipAD = denials ++ allowances ∧
    (∀ e ∈ denials, e.allowDeny = letterD) ∧ ∀ e ∈ allowances, e.allowDeny = letterA
  mem : ∀ e, e ∈ conf.ipAD ↔ ∃ r ∈ rules, r.any = false ∧ r.entry = e
  denyAll : conf.flgDenyAll = true ↔ ∃ r ∈ rules, r.deny = true ∧ r.any = true

/-- The network that a rule is taken for: a mask number from 2^31 on counts by its lowest five bits. -/
def taken (text : Str) : Option (UInt32 × UInt32) :=
  match scanIp text slash with
  | none => none
  | some (ip, width, rest) =>
    if rest.isEmpty then some (ip, maskOf (Int32.ofNat width))
    else if rest.all isDigit ∧ 2 ^ 31 ≤ decimal rest then
      some (ip, maskOf (UInt32.ofNat (min (decimal rest) 0xffffffff)).toInt32)
    else (maskText rest).map fun mask => (ip, mask)

/-- The address of a rule, zero if there is none. -/
def address (text : Str) : UInt32 := ((scanIp text slash).map Prod.fst).getD 0

/-- The address of the rule is that of `x` under its mask.  So it has no bits outside the mask. -/
def Rule.Meets (r : Rule) (x : UInt32) : Prop :=
  r.any = false ∧ ∃ n, taken r.text = some n ∧ x &&& n.2 = n.1

/-- A malformed rule without an address, or with the address zero. -/
def Rule.Bars (r : Rule) : Prop := r.any = false ∧ taken r.text = none ∧ address r.text = 0

theorem all_isDigit_iff {s : Str} : s.all isDigit = true ↔ s.dropWhile isDigit = [] := by
  rw [List.all_eq_true, List.dropWhile_eq_nil_iff]

/-- A well-formed rule is taken for its network. -/
theorem taken_of_network {text : Str} {n : UInt32 × UInt32} (h : network text = some n) :
    taken text = some n := by
  rw [network] at h
  rw [taken]
  split at h
  · cases h
  split at h
  · next hrest =>
    rw [if_pos hrest]
    exact h
  · next hrest =>
    rw [if_neg hrest, if_neg]
    · exact h
    · rintro ⟨hall, hhuge⟩
      rw [maskText, all_isDigit_iff.mp hall] at h
      dsimp only at h
      rw [if_neg (by omega)] at h
      cases h

/-- The rule is meant to keep `a` out. -/
def Rule.Bans (r : Rule) (a : UInt32) : Prop := r.Malformed ∨ r.deny = true ∧ r.Applies a

/-- The rule keeps `x` out. -/
def Rule.Stops (r : Rule) (x : UInt32) : Prop := r.Bars ∨ r.deny = true ∧ r.Meets x

/-- The rule is meant to let `a` in where all are denied. -/
def Rule.Admits (r : Rule) (a : UInt32) : Prop := r.deny = false ∧ r.Applies a

/-- The rule lets `x` in where all are denied. -/
def Rule.Passes (r : Rule) (x : UInt32) : Prop := r.deny = false ∧ r.Meets x

/-- A `D:*` is there. -/
def DenyAll (rules : List Rule) : Prop := ∃ r ∈ rules, r.deny = true ∧ r.any = true

/-- No rule decides that acts on the address `x`, under which the client `a` is judged, otherwise
than it is meant for `a`. -/
structure Harmless (rules : List Rule) (a x : UInt32) : Prop where
  /-- A rule does not keep out whom it should (the address of a malformed rule is not zero, that of a
  network has bits outside the mask, or `x` is not in it): another does, or `D:*` does. -/
  lost : ∀ r ∈ rules, r.Bans a → ¬ r.Stops x →
    (∃ r' ∈ rules, r'.Stops x) ∨ DenyAll rules ∧ ¬ ∃ r' ∈ rules, r'.Passes x
  /-- A rule keeps out whom it should not (`x` is in the network and `a` is not): another should. -/
  stray : ∀ r ∈ rules, r.Stops x → ¬ r.Bans a →
    (∃ r' ∈ rules, r'.Bans a) ∨ DenyAll rules ∧ ¬ ∃ r' ∈ rules, r'.Admits a
  /-- A rule does not let in whom it should: another does, or one should keep the client out. -/
  missed : DenyAll rules → ∀ r ∈ rules, r.Admits a → ¬ r.Passes x →
    ∃ r' ∈ rules, r'.Bans a ∨ r'.Passes x
  /-- A rule lets in whom it should not: another should, or one keeps the client out. -/
  extra : DenyAll rules → ∀ r ∈ rules, r.Passes x → ¬ r.Admits a →
    ∃ r' ∈ rules, r'.Stops x ∨ r'.Admits a

end Rustybox.Httpd
