import Mathlib.Data.List.DropRight
import Mathlib.Tactic.Linarith
import Mathlib.Tactic.Ring

/-!
# Positional numbers

The value of a list of digits in some base, the digit of least weight first.  The digits are
integers, so that the value is also defined while digits are being borrowed from.
-/

namespace Positional

def val (B : ℤ) : List ℤ → ℤ
  | [] => 0
  | d :: ds => d + B * val B ds

def IsDigits (B : ℤ) (ds : List ℤ) : Prop := ∀ d ∈ ds, 0 ≤ d ∧ d < B

instance (B : ℤ) (ds : List ℤ) : Decidable (IsDigits B ds) :=
  inferInstanceAs (Decidable (∀ d ∈ ds, 0 ≤ d ∧ d < B))

section

variable {B : ℤ} {ds es : List ℤ} {d : ℤ}

@[simp]
theorem val_nil : val B [] = 0 := rfl

@[simp]
theorem val_cons : val B (d :: ds) = d + B * val B ds := rfl

theorem isDigits_nil : IsDigits B [] := nofun

theorem isDigits_cons : IsDigits B (d :: ds) ↔ (0 ≤ d ∧ d < B) ∧ IsDigits B ds :=
  List.forall_mem_cons

theorem isDigits_append : IsDigits B (ds ++ es) ↔ IsDigits B ds ∧ IsDigits B es :=
  List.forall_mem_append

theorem IsDigits.take (h : IsDigits B ds) (n : ℕ) : IsDigits B (ds.take n) :=
  fun d hd => h d (List.mem_of_mem_take hd)

theorem IsDigits.drop (h : IsDigits B ds) (n : ℕ) : IsDigits B (ds.drop n) :=
  fun d hd => h d (List.mem_of_mem_drop hd)

theorem isDigits_replicate_zero (hB : 0 < B) (n : ℕ) : IsDigits B (List.replicate n 0) := by
  intro d hd
  rw [List.eq_of_mem_replicate hd]
  exact ⟨le_refl 0, hB⟩

theorem val_append (ds es : List ℤ) : val B (ds ++ es) = val B ds + B ^ ds.length * val B es := by
  induction ds with
  | nil => rw [List.nil_append, val_nil, List.length_nil, pow_zero, one_mul, zero_add]
  | cons d ds ih =>
    rw [List.cons_append, val_cons, val_cons, ih, List.length_cons, pow_succ]
    ring

@[simp]
theorem val_replicate_zero (n : ℕ) : val B (List.replicate n 0) = 0 := by
  induction n with
  | zero => rfl
  | succ n ih => rw [List.replicate_succ, val_cons, ih, mul_zero, add_zero]

theorem val_append_zeros (ds : List ℤ) (n : ℕ) : val B (ds ++ List.replicate n 0) = val B ds := by
  rw [val_append, val_replicate_zero, mul_zero, add_zero]

theorem val_zeros_append (n : ℕ) (ds : List ℤ) :
    val B (List.replicate n 0 ++ ds) = B ^ n * val B ds := by
  rw [val_append, val_replicate_zero, zero_add, List.length_replicate]

theorem val_take_add_drop {n : ℕ} (h : n ≤ ds.length) :
    val B (ds.take n) + B ^ n * val B (ds.drop n) = val B ds := by
  have hsplit := val_append (B := B) (ds.take n) (ds.drop n)
  rw [List.take_append_drop, List.length_take, Nat.min_eq_left h] at hsplit
  exact hsplit.symm

theorem val_take_of_zeros {n : ℕ} (h : ∀ d ∈ ds.drop n, d = 0) :
    val B (ds.take n) = val B ds := by
  have hzeros := List.eq_replicate_of_mem h
  conv => rhs; rw [← List.take_append_drop n ds, hzeros, val_append_zeros]

theorem val_nonneg (hB : 0 < B) (h : IsDigits B ds) : 0 ≤ val B ds := by
  induction ds with
  | nil => exact le_refl 0
  | cons d ds ih =>
    obtain ⟨hd, hds⟩ := isDigits_cons.mp h
    exact add_nonneg hd.1 (mul_nonneg (le_of_lt hB) (ih hds))

theorem val_lt (hB : 0 < B) (h : IsDigits B ds) : val B ds < B ^ ds.length := by
  induction ds with
  | nil =>
    rw [val_nil, List.length_nil, pow_zero]
    exact Int.one_pos
  | cons d ds ih =>
    obtain ⟨hd, hds⟩ := isDigits_cons.mp h
    have hle : B * (val B ds + 1) ≤ B * B ^ ds.length :=
      mul_le_mul_of_nonneg_left (ih hds) (le_of_lt hB)
    rw [val_cons, List.length_cons, pow_succ]
    linarith [hd.2]

theorem val_drop (hB : 0 < B) (h : IsDigits B ds) (n : ℕ) :
    val B (ds.drop n) = val B ds / B ^ n := by
  rcases Nat.le_total n ds.length with hle | hle
  · have hlow := val_lt hB (h.take n)
    rw [List.length_take, Nat.min_eq_left hle] at hlow
    rw [← val_take_add_drop (B := B) hle, Int.add_mul_ediv_left _ _ (ne_of_gt (pow_pos hB n)),
      Int.ediv_eq_zero_of_lt (val_nonneg hB (h.take n)) hlow, zero_add]
  · have hpow : B ^ ds.length ≤ B ^ n := pow_le_pow_right₀ hB hle
    rw [List.drop_of_length_le hle, val_nil,
      Int.ediv_eq_zero_of_lt (val_nonneg hB h) (lt_of_lt_of_le (val_lt hB h) hpow)]

theorem val_take (hB : 0 < B) (h : IsDigits B ds) (n : ℕ) :
    val B (ds.take n) = val B ds % B ^ n := by
  rcases Nat.le_total n ds.length with hle | hle
  · have hsplit := val_take_add_drop (B := B) hle
    have hlow := val_lt hB (h.take n)
    rw [List.length_take, Nat.min_eq_left hle] at hlow
    rw [← hsplit, Int.add_mul_emod_self_left,
      Int.emod_eq_of_lt (val_nonneg hB (h.take n)) hlow]
  · have hpow : B ^ ds.length ≤ B ^ n := pow_le_pow_right₀ hB hle
    rw [List.take_of_length_le hle,
      Int.emod_eq_of_lt (val_nonneg hB h) (lt_of_lt_of_le (val_lt hB h) hpow)]

theorem val_rdropWhile (ds : List ℤ) : val B (ds.rdropWhile (· = 0)) = val B ds := by
  induction ds using List.reverseRecOn with
  | nil => rfl
  | append_singleton ds d ih =>
    rw [List.rdropWhile_concat]
    split
    · next hd =>
      rw [decide_eq_true_eq] at hd
      rw [ih, val_append, hd, val_cons, val_nil, mul_zero, add_zero, mul_zero, add_zero]
    · rfl

end

end Positional
