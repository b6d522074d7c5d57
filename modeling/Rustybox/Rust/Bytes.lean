import Mathlib.Algebra.Group.Nat.Defs
import Mathlib.Data.List.Basic

/-!
# Numbers in memory

Memory is a list of bytes here and a number lies in it with its low byte first, as on the
machines the applets are built for; `swap_bytes` is what the applets use to read and write
numbers with the high byte first.
-/

namespace Rustybox.Rust

/-- The lowest `n` bytes of a number, low byte first. -/
def leBytes : ℕ → ℕ → List UInt8
  | 0, _ => []
  | n + 1, x => UInt8.ofNat x :: leBytes n (x / 256)

/-- The number whose bytes these are, low byte first. -/
def ofLeBytes : List UInt8 → ℕ
  | [] => 0
  | b :: bs => b.toNat + 256 * ofLeBytes bs

/-- `swap_bytes` of a number of `n` bytes. -/
def swapBytes (n x : ℕ) : ℕ := ofLeBytes (leBytes n x).reverse

/-- The lowest `n` bytes of a number, high byte first. -/
def beBytes (n x : ℕ) : List UInt8 := (leBytes n x).reverse

theorem length_leBytes (n x : ℕ) : (leBytes n x).length = n := by
  induction n generalizing x with
  | zero => rfl
  | succ n ih => rw [leBytes, List.length_cons, ih]

theorem leBytes_ofLeBytes (l : List UInt8) : leBytes l.length (ofLeBytes l) = l := by
  induction l with
  | nil => rfl
  | cons b l ih =>
    have hb := b.toNat_lt
    have hdiv : (b.toNat + 256 * ofLeBytes l) / 256 = ofLeBytes l := by omega
    have hmod : UInt8.ofNat (b.toNat + 256 * ofLeBytes l) = b := by
      apply UInt8.toNat_inj.mp
      rw [UInt8.toNat_ofNat']
      omega
    rw [List.length_cons, ofLeBytes, leBytes, hdiv, ih, hmod]

/-- A number stored after `swap_bytes` lies in memory with its high byte first. -/
theorem leBytes_swapBytes (n x : ℕ) : leBytes n (swapBytes n x) = beBytes n x := by
  have h := leBytes_ofLeBytes (leBytes n x).reverse
  rwa [List.length_reverse, length_leBytes] at h

theorem ofLeBytes_leBytes (n x : ℕ) : ofLeBytes (leBytes n x) = x % 256 ^ n := by
  induction n generalizing x with
  | zero => rw [leBytes, ofLeBytes, Nat.pow_zero, Nat.mod_one]
  | succ n ih =>
    have hbyte : (UInt8.ofNat x).toNat = x % 256 := UInt8.toNat_ofNat'
    rw [leBytes, ofLeBytes, ih, hbyte, Nat.pow_succ', Nat.mod_mul]

/-- `swap_bytes` twice is the identity on numbers of `n` bytes. -/
theorem swapBytes_swapBytes (n x : ℕ) : swapBytes n (swapBytes n x) = x % 256 ^ n := by
  rw [swapBytes, leBytes_swapBytes, beBytes, List.reverse_reverse, ofLeBytes_leBytes]

theorem leBytes_add (m n x : ℕ) : leBytes (m + n) x = leBytes m x ++ leBytes n (x / 256 ^ m) := by
  induction m generalizing x with
  | zero => rw [Nat.zero_add, Nat.pow_zero, Nat.div_one, leBytes, List.nil_append]
  | succ m ih =>
    rw [Nat.add_right_comm, leBytes, ih, leBytes, List.cons_append, Nat.div_div_eq_div_mul,
      Nat.pow_succ, Nat.mul_comm]

end Rustybox.Rust
