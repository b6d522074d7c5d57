import Rustybox.Rust.CStr
import Mathlib.Algebra.Ring.Int.Defs
import Mathlib.Algebra.Ring.Nat

/-!
# `strtol`

The number at the start of a string, in base 10, as the C library reads it.
-/

namespace Rustybox.Rust

/-- `isspace`. -/
def isBlank (c : UInt8) : Bool := c = 32 || (9 ≤ c && c ≤ 13)

/-- The number that decimal digits stand for. -/
def digitsValue (digits : Str) : ℕ := digits.foldl (fun v c => v * 10 + (c.toNat - 48)) 0

/-- A number without its sign. -/
def unsigned (t : Str) : Str := if t.head? = some 45 ∨ t.head? = some 43 then t.tail else t

/-- The number within the bounds of a `c_long`. -/
def clampLong (n : ℤ) : ℤ := max (-2 ^ 63) (min n (2 ^ 63 - 1))

/-- `strtol` in base 10: the number, and the string behind it. -/
def strtol (s : Str) : ℤ × Str :=
  let t := s.dropWhile isBlank
  let digits := (unsigned t).takeWhile isDigit
  if digits = [] then (0, s)
  else
    (clampLong (if t.head? = some 45 then -digitsValue digits else digitsValue digits),
      (unsigned t).dropWhile isDigit)

def cInt (n : ℤ) : ℤ := n.bmod (2 ^ 32)

theorem cInt_of_mem {n : ℤ} (hlow : -2 ^ 31 ≤ n) (hhigh : n < 2 ^ 31) : cInt n = n :=
  Int.bmod_eq_of_le (by omega) (by omega)

theorem cInt_bounds (n : ℤ) : -2 ^ 31 ≤ cInt n ∧ cInt n < 2 ^ 31 := by
  have hlow := Int.le_bmod (x := n) (m := 2 ^ 32) (by decide)
  have hhigh := Int.bmod_lt (x := n) (m := 2 ^ 32) (by decide)
  rw [cInt]
  omega

theorem isDigit_head {c : UInt8} (h : isDigit c = true) :
    isBlank c = false ∧ c ≠ 45 ∧ c ≠ 43 := by
  revert c
  have hall : ∀ n : Fin 256, isDigit (UInt8.ofFin n) = true →
      isBlank (UInt8.ofFin n) = false ∧ UInt8.ofFin n ≠ 45 ∧ UInt8.ofFin n ≠ 43 := by
    decide +kernel
  exact fun c hc => hall c.toFin hc

/-- A number that starts with a digit, in front of something else. -/
theorem strtol_digits {digits rest : Str} (hne : digits ≠ [])
    (hdigits : ∀ c ∈ digits, isDigit c = true) (hrest : rest.head?.any isDigit = false) :
    strtol (digits ++ rest) = (clampLong (digitsValue digits), rest) := by
  obtain ⟨c, digits, rfl⟩ := List.exists_cons_of_ne_nil hne
  obtain ⟨hblank, hminus, hplus⟩ := isDigit_head (hdigits c List.mem_cons_self)
  have hdrop : (c :: digits ++ rest).dropWhile isBlank = c :: digits ++ rest :=
    List.dropWhile_cons_of_neg (by simp [hblank])
  have hsign : unsigned (c :: digits ++ rest) = c :: digits ++ rest := by
    simp [unsigned, hminus, hplus]
  have htake : rest.takeWhile isDigit = [] ∧ rest.dropWhile isDigit = rest := by
    cases rest with
    | nil => exact ⟨rfl, rfl⟩
    | cons d rest =>
      have hd : isDigit d = false := hrest
      exact ⟨List.takeWhile_cons_of_neg (by simp [hd]), List.dropWhile_cons_of_neg (by simp [hd])⟩
  have hfront : (c :: digits ++ rest).takeWhile isDigit = c :: digits := by
    rw [List.takeWhile_append_of_pos hdigits, htake.1, List.append_nil]
  have hback : (c :: digits ++ rest).dropWhile isDigit = rest := by
    rw [List.dropWhile_append_of_pos hdigits, htake.2]
  have hhead : ¬ (c :: digits ++ rest).head? = some 45 := by simpa using hminus
  rw [strtol, hdrop]
  rw [hsign, hfront, hback, if_neg (by simp), if_neg hhead]

/-- What is behind the number is a part of the string, and a shorter one where there is a digit. -/
theorem strtol_length (s : Str) : (strtol s).2.length ≤ s.length := by
  have hdrop := (List.dropWhile_suffix (l := s) isBlank).length_le
  have hsign : (unsigned (s.dropWhile isBlank)).length ≤ (s.dropWhile isBlank).length := by
    rw [unsigned]
    split
    · rw [List.length_tail]
      omega
    · exact le_rfl
  have hback := (List.dropWhile_suffix (l := unsigned (s.dropWhile isBlank)) isDigit).length_le
  rw [strtol]
  split
  · exact le_rfl
  · exact Nat.le_trans hback (Nat.le_trans hsign hdrop)

theorem strtol_length_lt {s : Str} (h : s.head?.any isDigit = true) :
    (strtol s).2.length < s.length := by
  cases s with
  | nil => cases h
  | cons c s =>
    have hc : isDigit c = true := h
    obtain ⟨hblank, hminus, hplus⟩ := isDigit_head hc
    have hdrop : (c :: s).dropWhile isBlank = c :: s :=
      List.dropWhile_cons_of_neg (by simp [hblank])
    have hsign : unsigned (c :: s) = c :: s := by simp [unsigned, hminus, hplus]
    rw [strtol, hdrop]
    rw [hsign, List.takeWhile_cons_of_pos hc, List.dropWhile_cons_of_pos hc, if_neg (by simp)]
    exact Nat.lt_succ_of_le (List.dropWhile_suffix (l := s) isDigit).length_le

end Rustybox.Rust
