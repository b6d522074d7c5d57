import Mathlib.Algebra.Ring.Nat
import Mathlib.Data.List.TakeWhile
import Rustybox.Rust.CStr

/-!
# The pieces of a C string

`strtok` and `strtoul` of the C library.

What `strsep` finds between the separators.
-/

namespace Rustybox.Rust

/-- `strtok`: the next word and what is left for the next call, or NULL. -/
def strtok (s delims : Str) : Option (Str × Str) :=
  let s := s.dropWhile fun c => delims.contains c
  if s = [] then none
  else some (s.takeWhile fun c => !delims.contains c,
    (s.dropWhile fun c => !delims.contains c).tail)

/-- A word takes something from the string. -/
theorem strtok_length {s delims word rest : Str} (h : strtok s delims = some (word, rest)) :
    rest.length < s.length := by
  rw [strtok] at h
  split at h
  · cases h
  · rename_i hne
    cases h
    have hpos := List.length_pos_of_ne_nil hne
    have h1 := List.length_dropWhile_le (p := fun c => delims.contains c) s
    have h2 := List.length_dropWhile_le (p := fun c => !delims.contains c)
      (s.dropWhile fun c => delims.contains c)
    rw [List.length_tail]
    omega

/-- The value of a digit of any base up to 36. -/
def digitValue (c : UInt8) : Option ℕ :=
  if isDigit c then some (c - 48).toNat
  else if 97 ≤ c ||| 0x20 ∧ c ||| 0x20 ≤ 122 then some ((c ||| 0x20) - 87).toNat
  else none

/-- Is the character a digit of the base? -/
def isDigitOf (base : ℕ) (c : UInt8) : Bool := (digitValue c).any (· < base)

/-- What `strtoul` gives: the number, whether `errno` is set, and where the reading ended. -/
structure Strtoul where
  r : ℕ
  errno : Bool
  e : Str

/-- The base that a number starts with, and its digits. -/
def findBase : Str → ℕ × Str
  | 48 :: x :: c :: s =>
    if (x = 120 ∨ x = 88) ∧ isDigitOf 16 c = true then (16, c :: s) else (8, 48 :: x :: c :: s)
  | 48 :: s => (8, 48 :: s)
  | s => (10, s)

/-- `strtoul` on a string that starts with no blank and no sign; a `long` has 64 bits. -/
def strtoul (base : ℕ) (s : Str) : Strtoul :=
  let (base, s) := if base = 0 then findBase s else (base, s)
  let digits := s.takeWhile (isDigitOf base)
  let n := digits.foldl (fun n c => base * n + (digitValue c).getD 0) 0
  if n < 2 ^ 64 then ⟨n, false, s.drop digits.length⟩ else ⟨2 ^ 64 - 1, true, s.drop digits.length⟩

example : (strtoul 0 (bytes "0x1fg")).r = 31 := by decide

/-! ## strsep -/

variable {b : UInt8}

theorem strsep_ne_nil (s : Str) (b : UInt8) : strsep s b ≠ [] := by
  cases s with
  | nil => simp [strsep]
  | cons a s =>
    rw [strsep]
    split
    · simp
    · split <;> simp

theorem strsep_of_notMem {c : Str} (hc : b ∉ c) : strsep c b = [c] := by
  induction c with
  | nil => rfl
  | cons a c ih =>
    have ha : a ≠ b := fun he => hc (by simp [he])
    rw [strsep, if_neg ha, ih fun he => hc (List.mem_cons_of_mem _ he)]

theorem strsep_append (u v : Str) (b : UInt8) :
    strsep (u ++ b :: v) b = strsep u b ++ strsep v b := by
  induction u with
  | nil => rw [List.nil_append, strsep.eq_2, if_pos rfl, strsep, List.singleton_append]
  | cons a u ih =>
    rw [List.cons_append, strsep, strsep, ih]
    split
    · rfl
    · cases hu : strsep u b with
      | nil => exact absurd hu (strsep_ne_nil u b)
      | cons piece pieces => rfl

theorem strsep_component {c : Str} (hc : b ∉ c) (s : Str) :
    strsep (c ++ b :: s) b = c :: strsep s b := by
  rw [strsep_append, strsep_of_notMem hc, List.singleton_append]

/-- A piece is at the start of the string or after a separator, and at its end or before one; and
there is no separator in it. -/
theorem exists_of_mem_strsep {s c : Str} (hc : c ∈ strsep s b) : b ∉ c ∧ ∃ u v, s = u ++ (c ++ v) ∧
    (u = [] ∨ ∃ u', u = u' ++ [b]) ∧ (v = [] ∨ ∃ v', v = b :: v') := by
  induction h : s.length using Nat.strongRecOn generalizing s with
  | ind n ih =>
    by_cases hb : b ∈ s
    · obtain ⟨d, rest, rfl, hd⟩ := List.eq_append_cons_of_mem hb
      rw [strsep_component hd] at hc
      rcases List.mem_cons.mp hc with rfl | hc
      · exact ⟨hd, [], b :: rest, rfl, Or.inl rfl, Or.inr ⟨rest, rfl⟩⟩
      · rw [List.length_append, List.length_cons] at h
        obtain ⟨hcb, u, v, rfl, hu, hv⟩ := ih rest.length (by omega) hc rfl
        refine ⟨hcb, d ++ b :: u, v, by simp, Or.inr ?_, hv⟩
        rcases hu with rfl | ⟨u', rfl⟩
        · exact ⟨d, rfl⟩
        · exact ⟨d ++ b :: u', by simp⟩
    · rw [strsep_of_notMem hb] at hc
      obtain rfl := List.mem_singleton.mp hc
      exact ⟨hb, [], [], by simp, Or.inl rfl, Or.inl rfl⟩

theorem getLast?_strsep_append (u v : Str) (b : UInt8) :
    (strsep (u ++ b :: v) b).getLast? = (strsep v b).getLast? := by
  rw [strsep_append, List.getLast?_append_of_ne_nil _ (strsep_ne_nil v b)]

end Rustybox.Rust
