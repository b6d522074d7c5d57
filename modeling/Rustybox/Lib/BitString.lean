import Mathlib.Algebra.Ring.Nat
import Mathlib.Data.Nat.Bitwise

/-!
# Strings of bits

A string of bits is read as a number, the highest bit first.  `value` reads it, `ofNat` writes it.
-/

namespace BitString

/-- The number that a string of bits writes. -/
def value : List Bool → ℕ
  | [] => 0
  | b :: bs => b.toNat * 2 ^ bs.length + value bs

/-- The `n` lowest bits of a number. -/
def ofNat : ℕ → ℕ → List Bool
  | 0, _ => []
  | n + 1, v => v.testBit n :: ofNat n v

@[simp] theorem value_nil : value [] = 0 := rfl

@[simp] theorem value_cons (b : Bool) (bs : List Bool) :
    value (b :: bs) = b.toNat * 2 ^ bs.length + value bs := rfl

@[simp] theorem length_ofNat (n v : ℕ) : (ofNat n v).length = n := by
  induction n with
  | zero => rfl
  | succ n ih => rw [ofNat, List.length_cons, ih]

theorem value_append (as bs : List Bool) :
    value (as ++ bs) = value as * 2 ^ bs.length + value bs := by
  induction as with
  | nil => simp
  | cons a as ih =>
    rw [List.cons_append, value_cons, ih, value_cons, List.length_append, pow_add, Nat.add_mul,
      Nat.mul_assoc, Nat.add_assoc]

theorem value_lt (bs : List Bool) : value bs < 2 ^ bs.length := by
  induction bs with
  | nil => exact Nat.one_pos
  | cons b bs ih =>
    have hb : b.toNat * 2 ^ bs.length ≤ 1 * 2 ^ bs.length :=
      Nat.mul_le_mul_right _ (Bool.toNat_le b)
    rw [value_cons, List.length_cons, pow_succ]
    omega

theorem value_mul_lt {bs : List Bool} {n : ℕ} (h : bs.length ≤ n) :
    value bs * 2 ^ (n - bs.length) < 2 ^ n := by
  have hmul : value bs * 2 ^ (n - bs.length) < 2 ^ bs.length * 2 ^ (n - bs.length) :=
    Nat.mul_lt_mul_of_pos_right (value_lt bs) (Nat.two_pow_pos _)
  rw [← pow_add, Nat.add_sub_cancel' h] at hmul
  exact hmul

theorem value_ofNat (n v : ℕ) : value (ofNat n v) = v % 2 ^ n := by
  induction n with
  | zero => rw [ofNat, value_nil, pow_zero, Nat.mod_one]
  | succ n ih =>
    rw [ofNat, value_cons, length_ofNat, ih, Nat.mod_pow_succ, Nat.toNat_testBit, Nat.mul_comm,
      Nat.add_comm]

/-- A number has one string of each length. -/
theorem eq_of_value_eq {as bs : List Bool} (hlen : as.length = bs.length)
    (h : value as = value bs) : as = bs := by
  induction as generalizing bs with
  | nil => exact (List.length_eq_zero_iff.mp hlen.symm).symm
  | cons a as ih =>
    cases bs with
    | nil => cases hlen
    | cons b bs =>
      have hlen' : as.length = bs.length := Nat.succ.inj hlen
      have ha := value_lt as
      have hb := value_lt bs
      rw [value_cons, value_cons, hlen'] at h
      rw [hlen'] at ha
      have hab : a = b := by
        cases a <;> cases b <;> simp at h ⊢ <;> omega
      subst hab
      rw [ih hlen' (Nat.add_left_cancel h)]

theorem ofNat_value (bs : List Bool) : ofNat bs.length (value bs) = bs := by
  apply eq_of_value_eq (length_ofNat _ _)
  rw [value_ofNat, Nat.mod_eq_of_lt (value_lt bs)]

theorem getElem_ofNat {n v k : ℕ} (hk : k < (ofNat n v).length) :
    (ofNat n v)[k] = v.testBit (n - 1 - k) := by
  induction n generalizing k with
  | zero => cases hk
  | succ n ih =>
    cases k with
    | zero => rfl
    | succ k =>
      have hsub : n + 1 - 1 - (k + 1) = n - 1 - k := by omega
      rw [hsub]
      exact ih (Nat.lt_of_succ_lt_succ hk)

theorem testBit_value (bs : List Bool) {k : ℕ} (hk : k < bs.length) :
    (value bs).testBit (bs.length - 1 - k) = bs[k] := by
  have hk' : k < (ofNat bs.length (value bs)).length := by rwa [length_ofNat]
  rw [← getElem_ofNat hk']
  simp only [ofNat_value]

theorem value_take (bs : List Bool) (n : ℕ) :
    value (bs.take n) = value bs / 2 ^ (bs.length - n) := by
  have h := value_append (bs.take n) (bs.drop n)
  have hlt := value_lt (bs.drop n)
  rw [List.take_append_drop] at h
  rw [List.length_drop] at h hlt
  rw [h, Nat.mul_comm, Nat.mul_add_div (Nat.two_pow_pos _), Nat.div_eq_of_lt hlt, Nat.add_zero]

end BitString
