import Mathlib.Algebra.Ring.Nat
import Mathlib.Tactic.IntervalCases
import Mathlib.Tactic.Ring

/-!
# Multibyte forms

A number below 2^32 in one to six bytes.  The first byte says how many there are and has the upper
bits of the number, each of the others has six more bits.  A number may have several forms; the
shortest of them is `shortest`.
-/

namespace Multibyte

/-- The numbers that have a form of `k` bytes are those below. -/
def capacity : ℕ → ℕ
  | 1 => 2 ^ 7
  | 2 => 2 ^ 11
  | 3 => 2 ^ 16
  | 4 => 2 ^ 21
  | 5 => 2 ^ 26
  | 6 => 2 ^ 32
  | _ => 0

/-- The bits of the first byte that say how many bytes there are. -/
def mark : ℕ → ℕ
  | 2 => 0xc0
  | 3 => 0xe0
  | 4 => 0xf0
  | 5 => 0xf8
  | 6 => 0xfc
  | _ => 0

/-- The last `k` bytes of a form. -/
def conts : ℕ → ℕ → List UInt8
  | 0, _ => []
  | k + 1, v => UInt8.ofNat (128 + v / 64 ^ k % 64) :: conts k v

/-- The form of `k` bytes. -/
def form (k v : ℕ) : List UInt8 := UInt8.ofNat (mark k + v / 64 ^ (k - 1)) :: conts (k - 1) v

/-- The number of bytes of the shortest form. -/
def width (v : ℕ) : ℕ :=
  if v < capacity 1 then 1
  else if v < capacity 2 then 2
  else if v < capacity 3 then 3
  else if v < capacity 4 then 4
  else if v < capacity 5 then 5
  else 6

def shortest (v : ℕ) : List UInt8 := form (width v) v

variable {k v : ℕ}

/-! ### The bytes after the first -/

@[simp]
theorem length_conts (k v : ℕ) : (conts k v).length = k := by
  induction k with
  | zero => rfl
  | succ k ih => rw [conts, List.length_cons, ih]

/-- The lowest bits are in the last byte. -/
theorem conts_succ (k v : ℕ) :
    conts (k + 1) v = conts k (v / 64) ++ [UInt8.ofNat (128 + v % 64)] := by
  induction k with
  | zero => simp [conts]
  | succ k ih =>
    rw [conts, ih, conts, List.cons_append, Nat.div_div_eq_div_mul, pow_succ' 64 k]

theorem conts_add_mul (k v c : ℕ) : conts k (c * 64 ^ k + v) = conts k v := by
  induction k generalizing c with
  | zero => rfl
  | succ k ih =>
    have hpow : c * 64 ^ (k + 1) = c * 64 * 64 ^ k := by ring
    have hdiv : (c * 64 * 64 ^ k + v) / 64 ^ k = v / 64 ^ k + c * 64 := by
      rw [Nat.add_comm, Nat.add_mul_div_right _ _ (Nat.pow_pos (by decide))]
    rw [conts, conts, hpow, ih, hdiv, Nat.add_mul_mod_self_right]

theorem conts_range {b : UInt8} (hb : b ∈ conts k v) : 128 ≤ b.toNat ∧ b.toNat < 192 := by
  induction k with
  | zero => cases hb
  | succ k ih =>
    rcases List.mem_cons.mp hb with rfl | hb
    · rw [UInt8.toNat_ofNat']
      omega
    · exact ih hb

/-! ### The first byte -/

theorem length_form (hk : k ≠ 0) : (form k v).length = k := by
  rw [form, List.length_cons, length_conts]
  omega

theorem le_six (hv : v < capacity k) : 0 < k ∧ k ≤ 6 := by
  unfold capacity at hv
  split at hv <;> omega

theorem capacity_le_all (k : ℕ) : capacity k ≤ 2 ^ 32 := by
  unfold capacity
  split <;> decide

theorem capacity_le (h : k < 6) : capacity k ≤ 2 ^ 26 := by
  interval_cases k <;> decide

theorem first_lt (hv : v < capacity k) : mark k + v / 64 ^ (k - 1) < 256 ∧ (k = 1 → v < 128) := by
  unfold capacity at hv
  split at hv <;> simp [mark] <;> omega

theorem upper_lt (h2 : 2 ≤ k) (hv : v < capacity k) :
    v / 64 ^ (k - 1) < 2 ^ (8 - k) ∧ (k < 6 → v / 64 ^ (k - 1) < 2 ^ (7 - k)) := by
  unfold capacity at hv
  split at hv <;> omega

/-- The first byte says how many there are. -/
theorem eq_of_first {n w : ℕ} (h2 : 2 ≤ k) (hv : v < capacity k) (h2' : 2 ≤ n) (hw : w < capacity n)
    (heq : mark k + v / 64 ^ (k - 1) = mark n + w / 64 ^ (n - 1)) : k = n := by
  obtain ⟨-, h6⟩ := le_six hv
  obtain ⟨-, h6'⟩ := le_six hw
  have hupper := upper_lt h2 hv
  have hupper' := upper_lt h2' hw
  generalize v / 64 ^ (k - 1) = q at heq hupper
  generalize w / 64 ^ (n - 1) = q' at heq hupper'
  interval_cases k <;> interval_cases n <;> simp only [mark] at heq <;> omega

theorem le_mark (h2 : 2 ≤ k) (h6 : k ≤ 6) : 192 ≤ mark k := by
  interval_cases k <;> decide

/-- One form is not the beginning of another. -/
theorem eq_of_form_append {n w : ℕ} {x y : List UInt8} (hv : v < capacity k) (hw : w < capacity n)
    (heq : form k v ++ x = form n w ++ y) : k = n := by
  have hfirst := (List.cons.inj heq).1
  have hlt := first_lt hv
  have hlt' := first_lt hw
  have hnat := congrArg UInt8.toNat hfirst
  rw [UInt8.toNat_ofNat', UInt8.toNat_ofNat', Nat.mod_eq_of_lt hlt.1, Nat.mod_eq_of_lt hlt'.1] at hnat
  obtain ⟨h0, h6⟩ := le_six hv
  obtain ⟨h0', h6'⟩ := le_six hw
  have hone {v : ℕ} : mark 1 + v / 64 ^ (1 - 1) = v := by simp [mark]
  by_cases h1 : k = 1
  · by_cases h1' : n = 1
    · rw [h1, h1']
    · have hle := le_mark (by omega) h6'
      have hv' := hlt.2 h1
      rw [h1, hone] at hnat
      generalize w / 64 ^ (n - 1) = q at hnat
      omega
  · by_cases h1' : n = 1
    · have hle := le_mark (by omega) h6
      have hw' := hlt'.2 h1'
      rw [h1', hone] at hnat
      generalize v / 64 ^ (k - 1) = q at hnat
      omega
    · exact eq_of_first (by omega) hv (by omega) hw hnat

theorem zero_notMem_form (hv : v < capacity k) (h : v ≠ 0) : 0 ∉ form k v := by
  obtain ⟨h0, h6⟩ := le_six hv
  obtain ⟨hlt, -⟩ := first_lt hv
  intro hmem
  rcases List.mem_cons.mp hmem with hzero | hmem
  · have hnat := congrArg UInt8.toNat hzero
    rw [UInt8.toNat_ofNat', Nat.mod_eq_of_lt hlt, UInt8.toNat_zero] at hnat
    by_cases h1 : k = 1
    · rw [h1] at hnat
      simp [mark] at hnat
      omega
    · have hle := le_mark (by omega) h6
      generalize v / 64 ^ (k - 1) = q at hnat
      omega
  · have hrange := (conts_range hmem).1
    exact absurd hrange (by decide)

/-! ### The shortest form -/

/-- **No form is shorter.** -/
theorem width_spec (hv : v < 2 ^ 32) : v < capacity (width v) ∧ ∀ k < width v, capacity k ≤ v := by
  unfold width
  split_ifs <;> refine ⟨‹_›, fun k hk => ?_⟩ <;> interval_cases k <;>
    first | exact Nat.zero_le v | exact Nat.le_of_not_lt ‹_›

theorem width_pos (v : ℕ) : 0 < width v := by
  unfold width
  split_ifs <;> decide

end Multibyte
