import Mathlib.Data.Nat.Notation
import Mathlib.Logic.Function.Basic

/-!
# Shifts and exclusive or

A word and itself shifted, and the shifts of a Galois register, can be undone: bit by bit, from the
end that nothing is shifted into.
-/

namespace Shifts

variable {w : ℕ}

theorem xor_shiftLeft_injective {k : ℕ} (hk : 0 < k) :
    Function.Injective fun x : BitVec w => x ^^^ x <<< k := by
  intro x y h
  have hbit : ∀ i, i < w → x.getLsbD i = y.getLsbD i := by
    intro i
    -- the bit that is shifted to this one is a lower one
    induction i using Nat.strongRecOn with
    | ind i ih =>
      intro hi
      have hxor := congrArg (fun z : BitVec w => z.getLsbD i) h
      simp only [BitVec.getLsbD_xor, BitVec.getLsbD_shiftLeft, hi, decide_true,
        Bool.true_and] at hxor
      by_cases hlow : i < k
      · simpa [hlow] using hxor
      · have hlower := ih (i - k) (by omega) (by omega)
        rw [hlower] at hxor
        exact Bool.xor_left_inj.mp hxor
  exact BitVec.eq_of_getLsbD_eq fun i hi => hbit i hi

theorem xor_shiftRight_injective {k : ℕ} (hk : 0 < k) :
    Function.Injective fun x : BitVec w => x ^^^ x >>> k := by
  intro x y h
  have hbit : ∀ n i, w ≤ i + n → x.getLsbD i = y.getLsbD i := by
    intro n
    -- the bit that is shifted to this one is a higher one
    induction n with
    | zero =>
      intro i hi
      rw [BitVec.getLsbD_of_ge x i hi, BitVec.getLsbD_of_ge y i hi]
    | succ n ih =>
      intro i hi
      have hxor := congrArg (fun z : BitVec w => z.getLsbD i) h
      simp only [BitVec.getLsbD_xor, BitVec.getLsbD_ushiftRight] at hxor
      rw [ih (k + i) (by omega)] at hxor
      exact Bool.xor_left_inj.mp hxor
  exact BitVec.eq_of_getLsbD_eq fun i _ => hbit w i (Nat.le_add_left w i)

/-- One turn of a Galois register: the highest bit is shifted out, and the taps are changed if it was
set. -/
def galois (taps x : BitVec w) : BitVec w := if x.msb then x <<< 1 ^^^ taps else x <<< 1

variable {taps : BitVec w}

theorem galois_getLsbD_zero (htaps : taps.getLsbD 0 = true) (x : BitVec w) :
    (galois taps x).getLsbD 0 = x.msb := by
  rw [galois]
  cases hmsb : x.msb <;> simp [htaps]

/-- With a tap at the lowest bit this tells what was shifted out. -/
theorem galois_injective (htaps : taps.getLsbD 0 = true) : Function.Injective (galois taps) := by
  intro x y h
  have hmsb : x.msb = y.msb := by
    rw [← galois_getLsbD_zero htaps x, h, galois_getLsbD_zero htaps y]
  have hshift : x <<< 1 = y <<< 1 := by
    rw [galois, galois, ← hmsb] at h
    cases hx : x.msb with
    | false => simpa [hx] using h
    | true => simpa [hx] using h
  refine BitVec.eq_of_getLsbD_eq fun i hi => ?_
  by_cases hlast : i + 1 < w
  · have hbit := congrArg (fun z : BitVec w => z.getLsbD (i + 1)) hshift
    rw [BitVec.getLsbD_eq_getElem hi, BitVec.getLsbD_eq_getElem hi]
    simpa [hlast] using hbit
  · have hi' : i = w - 1 := by omega
    rw [hi', ← BitVec.msb_eq_getLsbD_last, ← BitVec.msb_eq_getLsbD_last, hmsb]

/-! ### Single bits -/

theorem getLsbD_bit (n : ℕ) {i : ℕ} (hi : i < w) : (1#w <<< n).getLsbD i = decide (n = i) := by
  rw [BitVec.getLsbD_shiftLeft, BitVec.getLsbD_one]
  by_cases h : n = i
  · have hw : 0 < w := by omega
    simp [h, hi, hw]
  · simp [h]
    omega

theorem and_bit_eq_zero (x : BitVec w) {i : ℕ} (hi : i < w) :
    x &&& 1#w <<< i = 0 ↔ x.getLsbD i = false := by
  constructor
  · intro h
    have hbit := congrArg (BitVec.getLsbD · i) h
    simpa [getLsbD_bit i hi] using hbit
  · intro h
    refine BitVec.eq_of_getLsbD_eq fun j hj => ?_
    rw [BitVec.getLsbD_and, getLsbD_bit i hj]
    by_cases hij : i = j
    · rw [← hij, h]
      simp
    · simp [hij]

end Shifts
