import Mathlib.Data.List.Basic
import Mathlib.Data.BitVec

/-!
# Cyclic redundancy checks

A register of `w` bits divides a string of bits by a polynomial, one bit at a time, the highest
coefficient first; `p` holds the coefficients below `w`.

The division is linear (`bits_xor`).  It can be run backwards, so that from one register different
strings of up to `w` bits lead to different registers (`eq_of_bits_eq`): an error burst of that
length is found, whatever comes before and after (`bits_ne_of_burst`).  Several steps at once can be
read from a table (`shifts_split`).
-/

namespace Crc

variable {w : ℕ} (p : BitVec w)

/-- Divide one bit more. -/
def bitStep (c : BitVec w) (b : Bool) : BitVec w :=
  if c.msb != b then (c <<< 1) ^^^ p else c <<< 1

/-- Divide a string of bits. -/
def bits (c : BitVec w) (bs : List Bool) : BitVec w := bs.foldl (bitStep p) c

/-- Divide `n` zeros. -/
def shifts (n : ℕ) (c : BitVec w) : BitVec w := bits p c (List.replicate n false)

@[simp] theorem bits_nil (c : BitVec w) : bits p c [] = c := rfl

@[simp] theorem bits_cons (c : BitVec w) (b : Bool) (bs : List Bool) :
    bits p c (b :: bs) = bits p (bitStep p c b) bs := rfl

theorem bits_append (c : BitVec w) (bs bs' : List Bool) :
    bits p c (bs ++ bs') = bits p (bits p c bs) bs' := List.foldl_append

@[simp] theorem shifts_zero (c : BitVec w) : shifts p 0 c = c := rfl

theorem shifts_succ (n : ℕ) (c : BitVec w) :
    shifts p (n + 1) c = shifts p n (bitStep p c false) := rfl

/-! ### Linearity -/

theorem bitStep_xor (c d : BitVec w) (a b : Bool) :
    bitStep p (c ^^^ d) (a ^^ b) = bitStep p c a ^^^ bitStep p d b := by
  have hcancel (x y : BitVec w) : x ^^^ p ^^^ (y ^^^ p) = x ^^^ y := by
    rw [BitVec.xor_assoc, BitVec.xor_comm y p, ← BitVec.xor_assoc p p y, BitVec.xor_self,
      BitVec.zero_xor]
  have hright (x y : BitVec w) : x ^^^ (y ^^^ p) = x ^^^ y ^^^ p := (BitVec.xor_assoc x y p).symm
  have hleft (x y : BitVec w) : x ^^^ p ^^^ y = x ^^^ y ^^^ p := by
    rw [BitVec.xor_assoc, BitVec.xor_comm p y, ← BitVec.xor_assoc]
  unfold bitStep
  rw [BitVec.msb_xor, BitVec.shiftLeft_xor_distrib]
  cases c.msb <;> cases d.msb <;> cases a <;> cases b <;> simp [hcancel, hright, hleft]

theorem bits_xor (c d : BitVec w) {as bs : List Bool} (h : as.length = bs.length) :
    bits p (c ^^^ d) (List.zipWith xor as bs) = bits p c as ^^^ bits p d bs := by
  induction as generalizing c d bs with
  | nil =>
    obtain rfl := List.length_eq_zero_iff.mp h.symm
    rfl
  | cons a as ih =>
    cases bs with
    | nil => cases h
    | cons b bs =>
      rw [List.zipWith_cons_cons, bits_cons, bitStep_xor]
      exact ih _ _ (Nat.succ.inj h)

theorem zipWith_xor_self (bs : List Bool) :
    List.zipWith xor bs bs = List.replicate bs.length false := by
  induction bs with
  | nil => rfl
  | cons b bs ih => rw [List.zipWith_cons_cons, Bool.xor_self, ih]; rfl

theorem shifts_xor (n : ℕ) (c d : BitVec w) :
    shifts p n (c ^^^ d) = shifts p n c ^^^ shifts p n d := by
  have h := bits_xor p c d (rfl : (List.replicate n false).length = (List.replicate n false).length)
  rwa [zipWith_xor_self, List.length_replicate] at h

/-! ### Backwards -/

section Backwards

variable {p} (hp : p.getLsbD 0 = true)
include hp

/-- A step that leaves the lowest bit clear has not added `p`. -/
theorem bitStep_of_even {c : BitVec w} {b : Bool} (h : (bitStep p c b).getLsbD 0 = false) :
    c.msb = b ∧ bitStep p c b = c <<< 1 := by
  by_cases hb : (c.msb != b) = true
  · rw [bitStep, if_pos hb, BitVec.getLsbD_xor, hp] at h
    simp at h
  · rw [bitStep, if_neg hb]
    exact ⟨by simpa using hb, rfl⟩

/-- What a division that comes out even, by at most `w` bits, started from: these bits, at the top
of the register. -/
theorem getMsbD_of_bits_eq_zero {bs : List Bool} {c : BitVec w} (hlen : bs.length ≤ w)
    (h : bits p c bs = 0) (i : ℕ) : c.getMsbD i = bs.getD i false := by
  induction bs generalizing c i with
  | nil =>
    rw [bits_nil] at h
    simp [h]
  | cons b bs ih =>
    rw [List.length_cons] at hlen
    have hrest := ih (by omega) h
    have heven : (bitStep p c b).getLsbD 0 = false := by
      have hlow := hrest (w - 1)
      rw [BitVec.getMsbD_eq_getLsbD, Nat.sub_self, List.getD_eq_getElem?_getD,
        List.getElem?_eq_none (by omega)] at hlow
      simpa [show w - 1 < w by omega] using hlow
    obtain ⟨hmsb, hstep⟩ := bitStep_of_even hp heven
    cases i with
    | zero => rw [List.getD_cons_zero, ← hmsb, BitVec.msb]
    | succ i =>
      rw [List.getD_cons_succ, ← hrest i, hstep, BitVec.getMsbD_shiftLeft, Nat.add_comm]

theorem eq_zero_of_shifts_eq_zero (n : ℕ) {c : BitVec w} (h : shifts p n c = 0) : c = 0 := by
  induction n generalizing c with
  | zero => exact h
  | succ n ih =>
    rw [shifts_succ] at h
    have hstep := ih h
    have hw : 0 < w := by
      by_contra hw
      obtain rfl : w = 0 := by omega
      simp at hp
    have hstep' : bits p c [false] = 0 := hstep
    have hbits := getMsbD_of_bits_eq_zero hp (show [false].length ≤ w from hw) hstep'
    apply BitVec.eq_of_getMsbD_eq
    intro i hi
    rw [hbits i]
    cases i <;> simp

/-- Registers that differ stay different. -/
theorem bits_injective (bs : List Bool) : Function.Injective fun c => bits p c bs := by
  intro c d h
  have hxor := bits_xor p c d (rfl : bs.length = bs.length)
  have hsame : bits p c bs = bits p d bs := h
  rw [zipWith_xor_self, hsame, BitVec.xor_self] at hxor
  exact BitVec.xor_eq_zero_iff.mp (eq_zero_of_shifts_eq_zero hp _ hxor)

/-- Strings of up to `w` bits are told apart. -/
theorem eq_of_bits_eq {c : BitVec w} {as bs : List Bool} (hlen : as.length = bs.length)
    (hw : as.length ≤ w) (h : bits p c as = bits p c bs) : as = bs := by
  have hxor := bits_xor p c c hlen
  rw [h, BitVec.xor_self, BitVec.xor_self] at hxor
  have hzero := getMsbD_of_bits_eq_zero hp (by simp; omega) hxor
  apply List.ext_getElem hlen
  intro i hi hi'
  have hbit := hzero i
  rw [List.getD_eq_getElem?_getD, List.getElem?_zipWith, List.getElem?_eq_getElem hi,
    List.getElem?_eq_getElem hi'] at hbit
  simpa using hbit

/-- **A burst of up to `w` bits is found**, wherever it is. -/
theorem bits_ne_of_burst {c : BitVec w} {as bs : List Bool} (hlen : as.length = bs.length)
    (hw : as.length ≤ w) (hne : as ≠ bs) (pre post : List Bool) :
    bits p c (pre ++ as ++ post) ≠ bits p c (pre ++ bs ++ post) := by
  intro h
  rw [bits_append, bits_append, bits_append, bits_append] at h
  exact hne (eq_of_bits_eq hp hlen hw (bits_injective hp post h))

end Backwards

/-! ### Several bits at once -/

/-- Bits that are already at the top of the register cancel it out. -/
theorem bits_eq_zero {t : BitVec w} {bs : List Bool} (h : ∀ i, t.getMsbD i = bs.getD i false) :
    bits p t bs = 0 := by
  induction bs generalizing t with
  | nil =>
    apply BitVec.eq_of_getMsbD_eq
    intro i hi
    rw [bits_nil, h i]
    simp
  | cons b bs ih =>
    have hmsb : t.msb = b := h 0
    have hstep : bitStep p t b = t <<< 1 := by
      rw [bitStep, hmsb]
      simp
    rw [bits_cons, hstep]
    apply ih
    intro i
    have hi := h (i + 1)
    rw [List.getD_cons_succ] at hi
    rw [BitVec.getMsbD_shiftLeft, ← hi]

/-- Bits may be added at the top of the register before they are divided. -/
theorem bits_eq_shifts {t : BitVec w} {bs : List Bool} (h : ∀ i, t.getMsbD i = bs.getD i false)
    (c : BitVec w) : bits p c bs = shifts p bs.length (c ^^^ t) := by
  have hxor := bits_xor p (c ^^^ t) t
    (List.length_replicate : (List.replicate bs.length false).length = bs.length)
  have hzip : List.zipWith xor (List.replicate bs.length false) bs = bs := by
    apply List.ext_getElem <;> simp
  rw [hzip, BitVec.xor_assoc, BitVec.xor_self, BitVec.xor_zero, bits_eq_zero p h] at hxor
  exact hxor.trans BitVec.xor_zero

/-- Zeros at the top of the register are moved out. -/
theorem shifts_of_low (n : ℕ) {c : BitVec w} (h : ∀ i < n, c.getMsbD i = false) :
    shifts p n c = c <<< n := by
  induction n generalizing c with
  | zero => rw [shifts_zero, BitVec.shiftLeft_zero]
  | succ n ih =>
    have hmsb : c.msb = false := h 0 (Nat.succ_pos n)
    have hstep : bitStep p c false = c <<< 1 := by
      rw [bitStep, hmsb]
      rfl
    rw [shifts_succ, hstep, ih, ← BitVec.shiftLeft_add, Nat.add_comm]
    intro i hi
    rw [BitVec.getMsbD_shiftLeft]
    exact h (i + 1) (by omega)

/-- **The table**: of `n` steps at once only what becomes of the top bits has to be known. -/
theorem shifts_split (n : ℕ) (high low : BitVec w) (h : ∀ i < n, low.getMsbD i = false) :
    shifts p n (high ^^^ low) = low <<< n ^^^ shifts p n high := by
  rw [shifts_xor, shifts_of_low p n h, BitVec.xor_comm]

end Crc
