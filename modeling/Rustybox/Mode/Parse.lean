import Rustybox.Rust.CStr
import Mathlib.Data.Nat.Digits.Lemmas

/-!
# `bb_parse_mode`

The file mode that a string asks for, from the mode that a file has: an octal number, or
clauses such as `u+x,go-w`.  The loops over the string mirror the pointers of the code: what
`s` points to is the string from there on, so `*s == 0` is the empty list.

`umask` is the mask of the process, which the code reads by setting it and setting it back.
-/

namespace Rustybox.Mode

open Rustybox.Rust

abbrev ModeT := BitVec 32

/-- `who_chars` and `who_mask`: `a`, `u`, `g`, `o`. -/
def whoMask : List (UInt8 × ModeT) := [(97, 0o7777), (117, 0o4700), (103, 0o2070), (111, 0o7)]

/-- `perm_chars` and `perm_mask`: `r`, `w`, `x`, `X`, `s`, `t`. -/
def permMask : List (UInt8 × ModeT) :=
  [(114, 0o444), (119, 0o222), (120, 0o111), (88, 0o111), (115, 0o6000), (116, 0o1000)]

def plusSign : UInt8 := 43
def minusSign : UInt8 := 45
def equalSign : UInt8 := 61
def letterX : UInt8 := 88

/-- The wholist of a clause, added to `wholist`, and what comes after it.  A string does not
end with it. -/
def parseWho : Str → ModeT → Option (ModeT × Str)
  | [], wholist => some (wholist, [])
  | c :: s, wholist =>
    match whoMask.lookup c with
    | none => some (wholist, c :: s)
    | some mask => if s = [] then none else parseWho s (wholist ||| mask)

/-- The loop that copies the bits of one class to the others. -/
def permCopy (mask newMode : ModeT) : ModeT :=
  ((permMask.take 3).map Prod.snd).foldl
    (fun permlist mask => if permlist &&& mask ≠ 0 then permlist ||| mask else permlist)
    (mask &&& 0o777 &&& newMode)

/-- The permlist of an action, added to `permlist`, and what comes after it. -/
def parsePerms (newMode : ModeT) : Str → ModeT → ModeT × Str
  | [], permlist => (permlist, [])
  | c :: s, permlist =>
    match permMask.lookup c with
    | none => (permlist, c :: s)
    | some mask =>
      parsePerms newMode s
        (if c ≠ letterX ∨ newMode &&& 0o40111 ≠ 0 then permlist ||| mask else permlist)

/-- What `=` leaves of the mode: it clears the bits of the wholist, or all file bits if the
wholist is empty. -/
def clear (op : UInt8) (wholist newMode : ModeT) : ModeT :=
  if op = equalSign then newMode &&& (if wholist ≠ 0 then ~~~wholist else ~~~0o7777) else newMode

/-- The bits that an action puts into the mode or takes from it. -/
def apply (op : UInt8) (wholist umask permlist newMode : ModeT) : ModeT :=
  if permlist ≠ 0 then
    let permlist := permlist &&& (if wholist = 0 then ~~~umask else wholist)
    if op = minusSign then newMode &&& ~~~permlist else newMode ||| permlist
  else newMode

/-- A copy of a class, or a permlist. -/
def parseCopy (newMode : ModeT) : Str → ModeT × Str
  | [] => parsePerms newMode [] 0
  | c :: s =>
    match whoMask.tail.lookup c with
    | some mask => (permCopy mask newMode, s)
    | none => parsePerms newMode (c :: s) 0

/-- One action: the new mode and what comes after it. -/
def parseAction (umask wholist newMode : ModeT) : Str → Option (ModeT × Str)
  | [] => none
  | op :: s =>
    if op ≠ plusSign ∧ op ≠ minusSign ∧ op ≠ equalSign then none
    else
      let newMode := clear op wholist newMode
      let r := parseCopy newMode s
      some (apply op wholist umask r.1 newMode, r.2)

theorem length_parsePerms (newMode : ModeT) (s : Str) (permlist : ModeT) :
    (parsePerms newMode s permlist).2.length ≤ s.length := by
  induction s generalizing permlist with
  | nil => exact Nat.le_refl _
  | cons c s ih =>
    rw [parsePerms]
    split
    · exact Nat.le_refl _
    · exact Nat.le_succ_of_le (ih _)

theorem length_parseCopy (newMode : ModeT) (s : Str) :
    (parseCopy newMode s).2.length ≤ s.length := by
  cases s with
  | nil => exact length_parsePerms _ _ _
  | cons c s =>
    rw [parseCopy]
    split
    · exact Nat.le_succ _
    · exact length_parsePerms _ _ _

theorem length_parseAction {umask wholist newMode : ModeT} {s : Str} {r : ModeT × Str}
    (h : parseAction umask wholist newMode s = some r) : r.2.length < s.length := by
  cases s with
  | nil => cases h
  | cons op s =>
    rw [parseAction] at h
    split at h
    · cases h
    · obtain rfl := Option.some.inj h
      exact Nat.lt_succ_of_le (length_parseCopy _ _)

/-- The actions of a clause: the new mode and what comes after them. -/
def parseActions (umask wholist newMode : ModeT) (s : Str) : Option (ModeT × Str) :=
  match _h : parseAction umask wholist newMode s with
  | none => none
  | some r =>
    if r.2 ≠ [] ∧ r.2.head? ≠ some comma then parseActions umask wholist r.1 r.2 else some r
termination_by s.length
decreasing_by exact length_parseAction _h

theorem length_parseActions {umask wholist newMode : ModeT} {s : Str} {r : ModeT × Str}
    (h : parseActions umask wholist newMode s = some r) : r.2.length < s.length := by
  fun_induction parseActions umask wholist newMode s with
  | case1 => cases h
  | case2 newMode s r' hr _ ih => exact Nat.lt_trans (ih h) (length_parseAction hr)
  | case3 newMode s r' hr _ =>
    obtain rfl := Option.some.inj h
    exact length_parseAction hr

theorem length_parseWho {s : Str} {wholist : ModeT} {r : ModeT × Str}
    (h : parseWho s wholist = some r) : r.2.length ≤ s.length := by
  induction s generalizing wholist with
  | nil =>
    obtain rfl := Option.some.inj h
    exact Nat.le_refl _
  | cons c s ih =>
    rw [parseWho] at h
    split at h
    · obtain rfl := Option.some.inj h
      exact Nat.le_refl _
    · split at h
      · cases h
      · exact Nat.le_succ_of_le (ih h)

/-- A clause that is not empty: the new mode and what comes after it. -/
def parseClause (umask newMode : ModeT) (s : Str) : Option (ModeT × Str) :=
  (parseWho s 0).bind fun r => parseActions umask r.1 newMode r.2

theorem length_parseClause {umask newMode : ModeT} {s : Str} {r : ModeT × Str}
    (h : parseClause umask newMode s = some r) : r.2.length < s.length := by
  obtain ⟨q, hq, hr⟩ := Option.bind_eq_some_iff.mp h
  exact Nat.lt_of_lt_of_le (length_parseActions hr) (length_parseWho hq)

/-- The loop over the clauses. -/
def parseClauses (umask newMode : ModeT) : Str → Option ModeT
  | [] => some newMode
  | c :: s =>
    if c = comma then parseClauses umask newMode s
    else
      match _h : parseClause umask newMode (c :: s) with
      | none => none
      | some r => parseClauses umask r.1 r.2
termination_by s => s.length
decreasing_by
  · exact Nat.lt_succ_self _
  · exact length_parseClause _h

def isOctal (c : UInt8) : Bool := c - 48 < 8

/-- `strtoul` with base 8 on a string that starts with a digit: the number, cut off at
`ULONG_MAX`, and what comes after it. -/
def strtoul8 (s : Str) : ℕ × Str :=
  (min (Nat.ofDigits 8 ((s.takeWhile isOctal).map fun c => (c - 48).toNat).reverse) (2 ^ 64 - 1),
    s.dropWhile isOctal)

/-- `bb_parse_mode`: what it returns, as a `c_int`. -/
def bbParseMode (umask : ModeT) (s : Str) (currentMode : ModeT) : ℤ :=
  if (s.head?.getD 0) - 48 < 8 then
    let r := strtoul8 s
    if r.2 ≠ [] ∨ 0o7777 < r.1 then -1 else r.1
  else
    match parseClauses umask currentMode s with
    | none => -1
    | some newMode => newMode.toInt

end Rustybox.Mode
