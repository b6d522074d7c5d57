import Mathlib.Data.List.Basic

/-!
# C strings

A C string is a list of bytes here, its NUL left out.  A pointer into a string is what the string
holds from there on, so the end of the string is the empty list.
-/

namespace Rustybox.Rust

abbrev Str := List UInt8

def bytes (s : String) : Str := s.toList.map fun c => UInt8.ofNat c.toNat

def slash : UInt8 := 47
def dot : UInt8 := 46
def colon : UInt8 := 58
def comma : UInt8 := 44
def newline : UInt8 := 10
def star : UInt8 := 42

def isDigit (b : UInt8) : Bool := 48 ≤ b && b ≤ 57

/-- `bb_ascii_isalnum`. -/
def isAlnum (b : UInt8) : Bool := isDigit b || 97 ≤ (b ||| 0x20) && (b ||| 0x20) ≤ 122

/-- `is_prefixed_with`: what comes after `key`. -/
def isPrefixedWith (string key : Str) : Option Str :=
  if key.isPrefixOf string then some (string.drop key.length) else none

/-- `strchrnul`: the string from the first `b` on. -/
def strchrnul (s : Str) (b : UInt8) : Str := s.dropWhile (· ≠ b)

/-- `strrchr`: the string cut before its last `b`, and what follows that `b`. -/
def strrchr : Str → UInt8 → Option (Str × Str)
  | [], _ => none
  | a :: s, b =>
    match strrchr s b with
    | some (front, back) => some (a :: front, back)
    | none => if a = b then some ([], s) else none

/-- The pieces that `strsep` finds. -/
def strsep : Str → UInt8 → List Str
  | [], _ => [[]]
  | a :: s, b =>
    if a = b then [] :: strsep s b
    else
      match strsep s b with
      | [] => [[a]]
      | piece :: pieces => (a :: piece) :: pieces

def startsWith (b : UInt8) (s : Str) : Bool := s.head? == some b

end Rustybox.Rust
