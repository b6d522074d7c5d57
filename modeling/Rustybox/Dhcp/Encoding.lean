import Rustybox.Dhcp.Decoding

/-!
# Domain names of an option: encoding

`convert_dname` writes a name as labels with their lengths.  `dname_enc` leaves out the labels
that a list of names has already, and puts a pointer to them in their place; `find_offset` looks
for them.

A comparison reads byte by byte, and there is no result where it leaves the list or the name.
-/

namespace Rustybox.Dhcp

open Rustybox.Rust

/-- The lower case of an upper-case letter. -/
def toLower (c : UInt8) : UInt8 := if 65 ≤ c ∧ c ≤ 90 then c + 32 else c

/-- The loop of `convert_dname`: `res` is what has been written up to `lenptr`, and `label` what
comes behind it. -/
def convertLoop (res label : List UInt8) : Str → Option (List UInt8)
  | [] =>
    if 63 < label.length ∨ label.length = 0 then none
    else some (res ++ UInt8.ofNat label.length :: label)
  | c :: src =>
    if c = dot then
      -- label too long, too short, or two '.'s in a row? abort
      if 63 < label.length ∨ label.length = 0 ∨ src.head? = some dot then none
      else if src = [] then some (res ++ UInt8.ofNat label.length :: label)
      else convertLoop (res ++ UInt8.ofNat label.length :: label) [] src
    else convertLoop res (label ++ [toLower c]) src

def convertDname (src : Str) : Option (List UInt8) :=
  match convertLoop [] [] src with
  | none => none
  | some res => if 255 ≤ res.length then none else some (res ++ [0])

/-- `memcmp` of `n` bytes, which stops at the first that differ: whether they are the same. -/
def memcmp : ℕ → List UInt8 → List UInt8 → Option Bool
  | 0, _, _ => some true
  | n + 1, a :: as, b :: bs => if a = b then memcmp n as bs else some false
  | _ + 1, _, _ => none

theorem memcmp_ne_nil {n : ℕ} {as bs : List UInt8} (h : memcmp (n + 1) as bs = some true) :
    bs ≠ [] := by
  intro hbs
  rw [hbs, memcmp.eq_def] at h
  cases as <;> cases h

/-- Where a label is, or what points to it. -/
def jumpTo (cstr : List UInt8) (c : ℕ) : Option ℕ :=
  match cstr[c]? with
  | none => none
  | some b =>
    if b &&& 0xc0 = 0xc0 then
      match cstr[c + 1]? with
      | none => none
      | some b' => some (pointee b b')
    else some c

/-- The inner loop of `find_offset`: whether the name `d` is what is found at `c`. -/
def matchDname (cstr : List UInt8) (c : ℕ) (d : List UInt8) : Option Bool :=
  match cstr[c]? with
  | none => none
  | some b =>
    match _h : memcmp (b.toNat + 1) (cstr.drop c) d with
    | none => none
    | some false => some false
    | some true =>
      -- at terminating NUL - match
      if b = 0 then some true
      else
        match jumpTo cstr (c + (b.toNat + 1)) with
        | none => none
        | some c => matchDname cstr c (d.drop (b.toNat + 1))
termination_by d.length
decreasing_by
  have hne := List.length_pos_of_ne_nil (memcmp_ne_nil _h)
  rw [List.length_drop]
  omega

/-- `find_offset` from `off` on: the offset, or none; there is no result where it leaves the
list. -/
def findOffset (cstr dname : List UInt8) (off : ℕ) : Option (Option ℕ) :=
  if h : off < cstr.length then
    if cstr[off] &&& 0xc0 = 0xc0 then findOffset cstr dname (off + 2)
    else if cstr[off] ≠ 0 then
      -- label, try matching dname
      match matchDname cstr off dname with
      | none => none
      | some true => some (some off)
      | some false => findOffset cstr dname (off + (cstr[off].toNat + 1))
    else findOffset cstr dname (off + 1)
  else some none
termination_by cstr.length - off

/-- The loop of `dname_enc`: `front` is what comes before `d` in `dname`. -/
def encodeLoop (cstr : Option (List UInt8)) (front d : List UInt8) : Option (List UInt8) :=
  match d with
  | [] => none
  | c :: rest =>
    if c = 0 then some (front ++ [0])
    else
      match cstr.elim (some none) (findOffset · (c :: rest) 0) with
      | none => none
      | some (some off) =>
        -- found a match, add pointer and return
        some (front ++ [UInt8.ofNat (0xc0 ||| off >>> 8), UInt8.ofNat off])
      | some none =>
        encodeLoop cstr (front ++ (c :: rest).take (c.toNat + 1)) (rest.drop c.toNat)
termination_by d.length

/-- `dname_enc`: what is appended to `cstr`, or NULL. -/
def dnameEnc (cstr : Option (List UInt8)) (src : Str) : Option (Option (List UInt8)) :=
  match convertDname src with
  | none => some none
  | some dname => (encodeLoop cstr [] dname).map some

end Rustybox.Dhcp
