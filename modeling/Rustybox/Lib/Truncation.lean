import Mathlib.Algebra.Order.Floor.Ring
import Mathlib.Algebra.Order.Field.Basic
import Mathlib.Tactic.FieldSimp
import Mathlib.Tactic.Linarith
import Mathlib.Tactic.Positivity
import Mathlib.Tactic.Ring

/-!
# Truncation toward zero

`cut B k q` keeps `k` digits behind the point of a number, in base `B`, and drops the rest.
-/

namespace Truncation

variable {K : Type*} [Field K] [LinearOrder K] [IsStrictOrderedRing K] [FloorRing K]

/-- The integer next to a number on the side of zero. -/
def towardZero (q : K) : ℤ := if 0 ≤ q then ⌊q⌋ else ⌈q⌉

/-- The number up to its `k`-th digit behind the point. -/
def cut (B : K) (k : ℕ) (q : K) : K := towardZero (q * B ^ k) / B ^ k

section

variable {q : K}

omit [IsStrictOrderedRing K] in
theorem towardZero_of_nonneg (h : 0 ≤ q) : towardZero q = ⌊q⌋ := if_pos h

theorem towardZero_neg (q : K) : towardZero (-q) = -towardZero q := by
  rcases lt_trichotomy q 0 with hlt | rfl | hgt
  · rw [towardZero, towardZero, if_pos (by linarith), if_neg (by linarith), Int.floor_neg]
  · rw [neg_zero, towardZero, if_pos le_rfl, Int.floor_zero, neg_zero]
  · rw [towardZero, towardZero, if_neg (by linarith), if_pos (le_of_lt hgt), Int.ceil_neg]

theorem towardZero_intCast (n : ℤ) : towardZero (n : K) = n := by
  rw [towardZero, Int.floor_intCast, Int.ceil_intCast, ite_self]

end

section

variable {B : K} (hB : 0 < B) {k : ℕ} {q : K}

theorem cut_neg (k : ℕ) (q : K) : cut B k (-q) = -cut B k q := by
  rw [cut, cut, neg_mul, towardZero_neg, Int.cast_neg, neg_div]

theorem cut_zero (k : ℕ) : cut B k 0 = 0 := by
  rw [cut, zero_mul, towardZero_of_nonneg le_rfl, Int.floor_zero, Int.cast_zero, zero_div]

include hB

theorem cut_of_nonneg (h : 0 ≤ q) : cut B k q = (⌊q * B ^ k⌋ : K) / B ^ k := by
  rw [cut, towardZero_of_nonneg (by positivity)]

theorem cut_of_int {n : ℤ} (h : q * B ^ k = n) : cut B k q = q := by
  rw [cut, h, towardZero_intCast, ← h, mul_div_cancel_right₀ _ (ne_of_gt (pow_pos hB k))]

/-- What is dropped of a number that is not negative. -/
theorem cut_bounds (h : 0 ≤ q) :
    0 ≤ cut B k q ∧ cut B k q ≤ q ∧ q < cut B k q + 1 / B ^ k := by
  have hpow : 0 < B ^ k := pow_pos hB k
  have hle := Int.floor_le (q * B ^ k)
  have hlt := Int.lt_floor_add_one (q * B ^ k)
  have hnonneg : (0 : K) ≤ ⌊q * B ^ k⌋ := Int.cast_nonneg (Int.floor_nonneg.mpr (by positivity))
  rw [cut_of_nonneg hB h, ← add_div, div_le_iff₀ hpow, lt_div_iff₀ hpow]
  exact ⟨div_nonneg hnonneg (le_of_lt hpow), hle, hlt⟩

theorem abs_cut_le (q : K) (k : ℕ) : |cut B k q| ≤ |q| := by
  rcases le_total 0 q with h | h
  · obtain ⟨h1, h2, -⟩ := cut_bounds hB (k := k) h
    rwa [abs_of_nonneg h1, abs_of_nonneg h]
  · obtain ⟨h1, h2, -⟩ := cut_bounds hB (k := k) (neg_nonneg.mpr h)
    rwa [← abs_neg, ← cut_neg, abs_of_nonneg h1, abs_of_nonpos h]

/-- **What is dropped** has the sign of the number, and is less than the last digit that is kept. -/
theorem sub_cut (q : K) (k : ℕ) :
    |q - cut B k q| < 1 / B ^ k ∧ (0 ≤ q → 0 ≤ q - cut B k q) ∧ (q ≤ 0 → q - cut B k q ≤ 0) := by
  have hpos : ∀ {q : K}, 0 ≤ q → |q - cut B k q| < 1 / B ^ k ∧ 0 ≤ q - cut B k q := by
    intro q h
    obtain ⟨-, hle, hlt⟩ := cut_bounds hB (k := k) h
    rw [abs_of_nonneg (by linarith)]
    exact ⟨by linarith, by linarith⟩
  have hneg : ∀ {q : K}, q ≤ 0 → |q - cut B k q| < 1 / B ^ k ∧ q - cut B k q ≤ 0 := by
    intro q h
    obtain ⟨h1, h2⟩ := hpos (q := -q) (by linarith)
    rw [cut_neg, sub_neg_eq_add, neg_add_eq_sub, abs_sub_comm] at h1
    rw [cut_neg] at h2
    exact ⟨h1, by linarith⟩
  rcases le_total 0 q with h | h
  · exact ⟨(hpos h).1, fun _ => (hpos h).2, fun h' => (hneg h').2⟩
  · exact ⟨(hneg h).1, fun h' => (hpos h').2, fun _ => (hneg h).2⟩

end

section

variable {B : ℕ} (hB : 0 < B)

include hB

/-- **Cutting off twice** is cutting off at the smaller scale. -/
theorem cut_cut {j k : ℕ} (h : j ≤ k) (q : K) : cut (B : K) j (cut (B : K) k q) = cut (B : K) j q := by
  have hB' : (0 : K) < B := Nat.cast_pos.mpr hB
  have hnonneg : ∀ {q : K}, 0 ≤ q → cut (B : K) j (cut (B : K) k q) = cut (B : K) j q := by
    intro q hq
    have hpow : (B : K) ^ k = B ^ j * ((B ^ (k - j) : ℕ) : K) := by
      rw [Nat.cast_pow, ← pow_add, Nat.add_sub_cancel' h]
    have hpos : (0 : K) < ((B ^ (k - j) : ℕ) : K) := Nat.cast_pos.mpr (pow_pos hB _)
    have hpos' : (0 : K) < B ^ j := pow_pos hB' j
    have hfloor : ⌊cut (B : K) k q * B ^ j⌋ = ⌊q * B ^ j⌋ := by
      have hleft : cut (B : K) k q * B ^ j = ⌊q * B ^ k⌋ / ((B ^ (k - j) : ℕ) : K) := by
        rw [cut_of_nonneg hB' hq, hpow]
        field_simp
      have hright : q * B ^ j = q * B ^ k / ((B ^ (k - j) : ℕ) : K) := by
        rw [hpow]
        field_simp
      rw [hleft, hright, Int.floor_div_natCast, Int.floor_div_natCast, Int.floor_intCast]
    rw [cut_of_nonneg hB' (cut_bounds hB' hq).1, hfloor, cut_of_nonneg hB' hq]
  rcases le_total 0 q with hq | hq
  · exact hnonneg hq
  · have hneg := hnonneg (neg_nonneg.mpr hq)
    rw [cut_neg, cut_neg, cut_neg] at hneg
    exact neg_injective hneg

end

end Truncation
