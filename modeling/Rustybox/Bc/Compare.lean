import Mathlib.Tactic.FieldSimp
import Mathlib.Tactic.Positivity
import Rustybox.Bc.Integers

/-!
# The order of the numbers of bc

`bc_num_clean` leaves no zero before the first digit, but the ones right behind the point.  A normal
number is zero only without digits, and with digits it is as large as their number says.

`bc_num_cmp` leaves early where a number is zero, where the signs differ, and where the numbers of
digits before the point differ; else it compares the digits from the first on, and then looks whether
the longer fraction goes on with a digit that is not zero.

The difference of the numbers of digits is returned as it is.  Of two negative numbers the one with
more digits before the point is the smaller one, but it is returned as the larger one.

* `cmp_spec`: apart from that the sign is that of the difference of the values.
* `cmp_iff`: so the order is right if and only if this case does not arise.
-/

namespace Rustybox.Bc

open Positional

/-! ### Cleaning -/

theorem rdropWhile_append_zeros (ds : List ℤ) :
    ds.rdropWhile (· = 0) ++ List.replicate (ds.length - (ds.rdropWhile (· = 0)).length) 0 = ds := by
  have hsplit := List.rdropWhile_append_rtakeWhile (p := (fun d : ℤ => decide (d = 0))) (l := ds)
  have hlen := congrArg List.length hsplit
  rw [List.length_append] at hlen
  have hzeros := List.eq_replicate_of_mem (a := (0 : ℤ)) (l := ds.rtakeWhile (· = 0))
    fun d hd => by simpa using List.mem_rtakeWhile_imp hd
  conv => rhs; rw [← hsplit, hzeros]
  rw [show ds.length - (ds.rdropWhile (· = 0)).length = (ds.rtakeWhile (· = 0)).length by omega]

theorem rdropWhile_zeros (ds : List ℤ) (n : ℕ) :
    (ds ++ List.replicate n 0).rdropWhile (· = 0) = ds.rdropWhile (· = 0) := by
  induction n with
  | zero => rw [List.replicate_zero, List.append_nil]
  | succ n ih =>
    rw [List.replicate_succ', ← List.append_assoc, List.rdropWhile_concat_pos _ _ _ (by simp), ih]

section

variable {n : BcNum}

theorem isDigits_rdropWhile {ds : List ℤ} (h : IsDigits 10 ds) :
    IsDigits 10 (ds.rdropWhile (· = 0)) :=
  fun d hd => h d ((List.rdropWhile_prefix _ _).subset hd)

theorem clean_clean (n : BcNum) : clean (clean n) = clean n := by
  rw [clean]
  split
  · next hnil =>
    rw [clean] at hnil ⊢
    split at hnil
    · next h => rw [if_pos h]
    · next h =>
      rw [rdropWhile_zeros, List.rdropWhile_idempotent] at hnil
      exact absurd hnil h
  · next hne =>
    rw [clean] at hne ⊢
    split at hne
    · exact absurd rfl hne
    · next h => rw [if_neg h, rdropWhile_zeros, List.rdropWhile_idempotent]

theorem isDigits_clean (h : IsDigits 10 n.num) : IsDigits 10 (clean n).num := by
  rw [clean]
  split
  · exact isDigits_nil
  · exact isDigits_append.mpr ⟨isDigits_rdropWhile h, isDigits_replicate_zero (by decide) _⟩

theorem normal_clean (h : IsDigits 10 n.num) : Normal (clean n) := ⟨isDigits_clean h, clean_clean n⟩

@[simp]
theorem clean_rdx (n : BcNum) : (clean n).rdx = n.rdx := by
  rw [clean]
  split
  · rfl
  · rfl

@[simp]
theorem val_clean (n : BcNum) : val 10 (clean n).num = val 10 n.num := by
  have hval := val_rdropWhile (B := 10) n.num
  rw [clean]
  split
  · next hnil => rw [← hval, hnil]
  · rw [← hval]
    exact val_append_zeros _ _

theorem val_eq_zero_iff {ds : List ℤ} (h : IsDigits 10 ds) :
    val 10 ds = 0 ↔ ds.rdropWhile (· = 0) = [] := by
  rw [rdropWhile_eq h]
  have hnonneg := val_nonneg (by decide) h
  constructor
  · intro hzero
    rw [hzero]
    rfl
  · intro hnil
    have hval := val_ulong2num (val 10 ds).toNat
    rw [hnil, val_nil] at hval
    omega

theorem clean_neg (h : IsDigits 10 n.num) (hv : val 10 n.num ≠ 0) : (clean n).neg = n.neg := by
  rw [clean, if_neg (mt (val_eq_zero_iff h).mpr hv)]

/-! ### Normal numbers -/

theorem Normal.val_ne_zero (h : Normal n) (hne : n.num ≠ []) : val 10 n.num ≠ 0 :=
  mt (val_eq_zero_iff h.digits).mp (h.num_eq hne).1

theorem Normal.val_pos (h : Normal n) (hne : n.num ≠ []) : 0 < val 10 n.num :=
  lt_of_le_of_ne (val_nonneg (by decide) h.digits) (Ne.symm (h.val_ne_zero hne))

theorem Normal.neg_of_nil (h : Normal n) (hnil : n.num = []) : n.neg = false := by
  have hclean := congrArg BcNum.neg h.cleaned
  rw [clean, if_pos (by rw [hnil]; rfl)] at hclean
  exact hclean.symm

theorem large_of_concat {ds : List ℤ} {d : ℤ} (h : IsDigits 10 (ds ++ [d])) (hd : d ≠ 0) :
    10 ^ (ds ++ [d]).length ≤ 10 * val 10 (ds ++ [d]) := by
  obtain ⟨hds, hlast⟩ := isDigits_append.mp h
  have hd0 := (isDigits_cons.mp hlast).1
  have hnonneg := val_nonneg (by decide) hds
  have hmul : (10 : ℤ) ^ ds.length * 1 ≤ 10 ^ ds.length * d :=
    mul_le_mul_of_nonneg_left (by omega) (by positivity)
  rw [val_append, List.length_append, List.length_singleton, pow_succ, val_cons, val_nil, mul_zero,
    add_zero]
  linarith

/-- With digits, a normal number is below one or as large as its length says. -/
theorem Normal.large (h : Normal n) (hne : n.num ≠ []) :
    n.rdx = n.len ∨ n.rdx < n.len ∧ 10 ^ n.len ≤ 10 * val 10 n.num := by
  rcases Nat.lt_or_eq_of_le (h.rdx_le hne) with hlt | heq
  · obtain ⟨ds, d, hnum, hd⟩ := h.getLast_ne hlt
    have hdigits := h.digits
    rw [hnum] at hdigits
    rw [BcNum.len] at hlt
    rw [BcNum.len, hnum]
    rw [hnum] at hlt
    exact .inr ⟨hlt, large_of_concat hdigits hd⟩
  · exact .inl heq

theorem normal_of_large (h : IsDigits 10 n.num) (hv : 0 < val 10 n.num) (hrdx : n.rdx ≤ n.len)
    (hlarge : n.rdx = n.len ∨ 10 ^ n.len ≤ 10 * val 10 n.num) : Normal n := by
  refine ⟨h, ?_⟩
  have hne : n.num.rdropWhile (· = 0) ≠ [] := mt (val_eq_zero_iff h).mpr (ne_of_gt hv)
  rw [clean, if_neg hne]
  rcases hlarge with heq | hlarge
  · have hnum := rdropWhile_append_zeros n.num
    rw [BcNum.len] at heq
    rw [← heq] at hnum
    rw [hnum]
  · have hzero : n.rdx - n.num.length = 0 := Nat.sub_eq_zero_of_le hrdx
    rw [rdropWhile_of_large h hlarge, hzero, List.replicate_zero, List.append_nil]

theorem Normal.zero (scale : ℕ) : Normal (setToZero scale) := ⟨isDigits_nil, rfl⟩

theorem Normal.with_neg (h : Normal n) (hne : n.num ≠ []) (neg : Bool) :
    Normal { n with neg := neg } := by
  refine normal_of_large h.digits (h.val_pos hne) (h.rdx_le hne) ?_
  rcases h.large hne with heq | ⟨-, hlarge⟩
  · exact .inl heq
  · exact .inr hlarge

/-! ### Values -/

def BcNum.sgn (n : BcNum) : ℤ := if n.neg then -1 else 1

theorem BcNum.value_eq (n : BcNum) : n.value = n.sgn * val 10 n.num / 10 ^ n.rdx := by
  rw [BcNum.value, BcNum.sgn]
  split
  · push_cast
    rfl
  · push_cast
    rfl

theorem BcNum.value_scaled (n : BcNum) {m : ℕ} (h : n.rdx ≤ m) :
    n.value = ((n.sgn * (val 10 n.num * 10 ^ (m - n.rdx)) : ℤ) : ℚ) / 10 ^ m := by
  have hpow : (10 : ℚ) ^ m = 10 ^ n.rdx * 10 ^ (m - n.rdx) := by
    rw [← pow_add, Nat.add_sub_cancel' h]
  rw [n.value_eq, hpow, div_eq_div_iff (by positivity) (by positivity)]
  push_cast
  ring

theorem value_of_nil (h : n.num = []) : n.value = 0 := by
  rw [BcNum.value_eq, h, val_nil]
  simp

/-! ### Integers -/

theorem normal_ulong2num (m : ℕ) : Normal (ulong2num m) := by
  have hclean := clean_integer (isDigits_ulong2num m)
  rw [val_ulong2num, Int.toNat_natCast] at hclean
  exact ⟨isDigits_ulong2num m, hclean⟩

@[simp]
theorem value_ulong2num (m : ℕ) : (ulong2num m).value = m := by
  have hrdx : (ulong2num m).rdx = 0 := rfl
  have hsgn : (ulong2num m).sgn = 1 := rfl
  rw [BcNum.value_eq, val_ulong2num, hrdx, hsgn, pow_zero, div_one, Int.cast_one, one_mul,
    Int.cast_natCast]

theorem Normal.eq_of_value (h : Normal n) (hrdx : n.rdx = 0) {m : ℕ} (hv : n.value = m) :
    n = ulong2num m := by
  have hnonneg := val_nonneg (by decide) h.digits
  have hval : n.sgn * val 10 n.num = m := by
    rw [n.value_eq, hrdx, pow_zero, div_one] at hv
    exact_mod_cast hv
  have hneg : n.neg = false := by
    by_contra hneg
    have hsgn : n.sgn = -1 := if_pos (by simpa using hneg)
    have hne : n.num ≠ [] := fun hnil => hneg (h.neg_of_nil hnil)
    have hpos := h.val_pos hne
    rw [hsgn] at hval
    omega
  have hsgn : n.sgn = 1 := if_neg (by rw [hneg]; exact Bool.false_ne_true)
  rw [hsgn, one_mul] at hval
  rw [h.eq_ulong2num hrdx hneg, hval, Int.toNat_natCast]

end

/-! ## The order -/

/-- Negative, zero and positive at the same time. -/
def SameSign (x y : ℤ) : Prop := (x < 0 ↔ y < 0) ∧ (0 < x ↔ 0 < y)

instance (x y : ℤ) : Decidable (SameSign x y) := inferInstanceAs (Decidable (_ ∧ _))

theorem negateIf_sub (neg : Bool) (x y : ℤ) :
    negateIf neg x - negateIf neg y = negateIf neg (x - y) := by
  cases neg with
  | false => rfl
  | true => exact neg_sub_neg x y |>.trans (neg_sub x y).symm

theorem negateIf_not (neg : Bool) (x y : ℤ) : negateIf (!neg) (y - x) = negateIf neg (x - y) := by
  cases neg with
  | false => exact neg_sub y x
  | true => exact (neg_sub x y).symm

theorem zero_sub_negateIf (neg : Bool) (x : ℤ) : 0 - negateIf neg x = negateIf (!neg) x := by
  cases neg with
  | false => exact zero_sub x
  | true => exact (zero_sub _).trans (neg_neg x)

theorem SameSign.of_pos {x y : ℤ} (hx : 0 < x) (hy : 0 < y) : SameSign x y :=
  ⟨iff_of_false (by omega) (by omega), iff_of_true hx hy⟩

theorem SameSign.of_neg {x y : ℤ} (hx : x < 0) (hy : y < 0) : SameSign x y :=
  ⟨iff_of_true hx hy, iff_of_false (by omega) (by omega)⟩

theorem SameSign.negateIf {x y : ℤ} (h : SameSign x y) (neg : Bool) :
    SameSign (negateIf neg x) (negateIf neg y) := by
  obtain ⟨h1, h2⟩ := h
  cases neg with
  | false => exact ⟨h1, h2⟩
  | true =>
    constructor
    · show -x < 0 ↔ -y < 0
      omega
    · show 0 < -x ↔ 0 < -y
      omega

/-! ### Digits -/

theorem any_ne_zero {ds : List ℤ} (h : IsDigits 10 ds) : ds.any (· ≠ 0) = true ↔ 0 < val 10 ds := by
  have hnonneg := val_nonneg (by decide) h
  constructor
  · intro hany
    refine lt_of_le_of_ne hnonneg fun hzero => ?_
    obtain ⟨d, hd, hne⟩ := List.any_eq_true.mp hany
    have hnil := List.rdropWhile_eq_nil_iff.mp ((val_eq_zero_iff h).mp hzero.symm) d hd
    exact absurd (of_decide_eq_true hnil) (of_decide_eq_true hne)
  · intro hpos
    by_contra hany
    refine absurd ((val_eq_zero_iff h).mpr (List.rdropWhile_eq_nil_iff.mpr fun d hd => ?_))
      (ne_of_gt hpos)
    by_contra hne
    exact hany (List.any_eq_true.mpr ⟨d, hd, by simpa using hne⟩)

/-- The comparison of two fractions of which the first one has more digits. -/
def compareTails (xs ys : List ℤ) (diff : ℕ) : ℤ :=
  if compare (xs.drop diff) ys ys.length ≠ 0 then compare (xs.drop diff) ys ys.length
  else if (xs.take diff).any (· ≠ 0) then 1 else 0

theorem compareTails_spec {xs ys : List ℤ} (hx : IsDigits 10 xs) (hy : IsDigits 10 ys) (diff : ℕ)
    (hlen : xs.length = ys.length + diff) :
    SameSign (compareTails xs ys diff) (val 10 xs - 10 ^ diff * val 10 ys) := by
  have hsplit := val_take_add_drop (B := 10) (show diff ≤ xs.length by omega)
  have hlow := val_nonneg (by decide) (hx.take diff)
  have hlow' := val_lt (by decide) (hx.take diff)
  have hany := any_ne_zero (hx.take diff)
  rw [List.length_take, Nat.min_eq_left (by omega)] at hlow'
  have hdrop : (xs.drop diff).length = ys.length := by rw [List.length_drop]; omega
  have hcmp := compare_spec (hx.drop diff) hy (Nat.le_of_eq hdrop.symm) (Nat.le_refl _)
  rw [List.take_length, List.take_of_length_le (Nat.le_of_eq hdrop)] at hcmp
  obtain ⟨hneg, hpos⟩ := hcmp
  rw [compareTails]
  generalize compare (xs.drop diff) ys ys.length = c at *
  rw [← hsplit]
  have hpow : (0 : ℤ) < 10 ^ diff := by positivity
  rcases lt_trichotomy (val 10 (xs.drop diff)) (val 10 ys) with hlt | heq | hgt
  · have hc := hneg.mpr hlt
    have hmul : (10 : ℤ) ^ diff * (val 10 (xs.drop diff) + 1) ≤ 10 ^ diff * val 10 ys :=
      mul_le_mul_of_nonneg_left (by omega) (le_of_lt hpow)
    rw [mul_add, mul_one] at hmul
    rw [if_pos (ne_of_lt hc)]
    exact .of_neg hc (by omega)
  · obtain rfl : c = 0 := by omega
    rw [if_neg (by decide), heq]
    split
    · next htrue =>
      have := hany.mp htrue
      exact .of_pos (by decide) (by omega)
    · next hfalse =>
      have := mt hany.mpr hfalse
      exact ⟨iff_of_false (by decide) (by omega), iff_of_false (by decide) (by omega)⟩
  · have hc := hpos.mpr hgt
    have hmul : (10 : ℤ) ^ diff * (val 10 ys + 1) ≤ 10 ^ diff * val 10 (xs.drop diff) :=
      mul_le_mul_of_nonneg_left (by omega) (le_of_lt hpow)
    rw [mul_add, mul_one] at hmul
    rw [if_pos (ne_of_gt hc)]
    exact .of_pos hc (by omega)

/-! ### Numbers -/

/-- The value in units of the last digit, at `m` digits behind the point. -/
def BcNum.scaled (n : BcNum) (m : ℕ) : ℤ := n.sgn * (val 10 n.num * 10 ^ (m - n.rdx))

section

variable {a b : BcNum} {m : ℕ}

theorem value_lt_iff (ha : a.rdx ≤ m) (hb : b.rdx ≤ m) :
    a.value < b.value ↔ a.scaled m < b.scaled m := by
  have hpow : (0 : ℚ) < 10 ^ m := by positivity
  rw [a.value_scaled ha, b.value_scaled hb, div_lt_div_iff_of_pos_right hpow, Int.cast_lt]
  rfl

theorem val_lt_of_int_lt (ha : Normal a) (hb : Normal b) (h : b.int < a.int) (hma : a.rdx ≤ m)
    (hmb : b.rdx ≤ m) :
    val 10 b.num * 10 ^ (m - b.rdx) < val 10 a.num * 10 ^ (m - a.rdx) := by
  rw [BcNum.int, BcNum.int] at h
  have hne : a.num ≠ [] := by
    intro hnil
    have hlen : a.len = 0 := by rw [BcNum.len, hnil, List.length_nil]
    omega
  have hlarge : 10 ^ a.len ≤ 10 * val 10 a.num := by
    rcases ha.large hne with heq | ⟨-, hlarge⟩
    · omega
    · exact hlarge
  have hpos := ha.val_pos hne
  by_cases hnil : b.num = []
  · rw [hnil, val_nil, zero_mul]
    positivity
  have hlt := val_lt (by decide) hb.digits
  have hrb := hb.rdx_le hnil
  have hexp : (10 : ℤ) ^ (b.num.length + (m - b.rdx) + 1) ≤ 10 ^ (a.len + (m - a.rdx)) :=
    pow_le_pow_right₀ (by decide) (by rw [BcNum.len] at hrb h; omega)
  have h1 : val 10 b.num * 10 ^ (m - b.rdx) < 10 ^ b.num.length * 10 ^ (m - b.rdx) :=
    mul_lt_mul_of_pos_right hlt (by positivity)
  have h2 : 10 ^ a.len * 10 ^ (m - a.rdx) ≤ 10 * val 10 a.num * 10 ^ (m - a.rdx) :=
    mul_le_mul_of_nonneg_right hlarge (by positivity)
  rw [pow_succ, pow_add, pow_add] at hexp
  linarith

theorem cmp_aligned (ha : a.num ≠ []) (hb : b.num ≠ []) (hneg : a.neg = b.neg)
    (hint : a.int = b.int) (hra : a.rdx ≤ a.len) (hrb : b.rdx ≤ b.len) :
    cmp a b = if b.rdx < a.rdx then negateIf a.neg (compareTails a.num b.num (a.rdx - b.rdx))
      else negateIf (!a.neg) (compareTails b.num a.num (b.rdx - a.rdx)) := by
  have ha0 : a.len ≠ 0 := fun h => ha (List.eq_nil_of_length_eq_zero h)
  have hb0 : b.len ≠ 0 := fun h => hb (List.eq_nil_of_length_eq_zero h)
  have hzero : ∀ neg, negateIf neg 0 = 0 := by decide
  have hout : ∀ (neg : Bool) (c t : ℤ) (p : Bool), (if c ≠ 0 then negateIf neg c
      else if p = true then negateIf neg t else 0) =
        negateIf neg (if c ≠ 0 then c else if p = true then t else 0) := by
    intro neg c t p
    split
    · rfl
    · split
      · rfl
      · exact (hzero neg).symm
  rw [cmp, if_neg ha0, if_neg hb0, if_neg (not_not.mpr hneg), if_neg (not_not.mpr hint)]
  rw [BcNum.int, BcNum.int] at hint
  by_cases hmax : b.rdx < a.rdx
  · have hlen : b.int + b.rdx = b.num.length := Nat.sub_add_cancel hrb
    simp only [hmax, decide_true, if_true, hlen]
    exact hout _ _ _ _
  · have hlen : b.int + a.rdx = a.num.length := by
      rw [BcNum.int, ← hint]
      exact Nat.sub_add_cancel hra
    simp only [hmax, decide_false, Bool.false_eq_true, if_false, hlen]
    exact hout _ _ _ _

/-- Both numbers are negative, and they have not the same number of digits before the point. -/
def Misjudged (a b : BcNum) : Prop := a.neg = true ∧ b.neg = true ∧ a.int ≠ b.int

theorem scaled_eq (n : BcNum) (m : ℕ) :
    n.scaled m = negateIf n.neg (val 10 n.num * 10 ^ (m - n.rdx)) := by
  rw [BcNum.scaled, BcNum.sgn, negateIf]
  split
  · rw [neg_one_mul]
  · rw [one_mul]

theorem scaled_of_nil (h : a.num = []) (m : ℕ) : a.scaled m = 0 := by
  rw [BcNum.scaled, h, val_nil, zero_mul, mul_zero]

theorem len_of_nil (h : a.num = []) : a.len = 0 := by rw [BcNum.len, h, List.length_nil]

theorem len_ne_zero (h : a.num ≠ []) : a.len ≠ 0 := mt List.eq_nil_of_length_eq_zero h

theorem Normal.scaled_pos (h : Normal a) (hne : a.num ≠ []) (m : ℕ) :
    0 < val 10 a.num * 10 ^ (m - a.rdx) := mul_pos (h.val_pos hne) (by positivity)

theorem cmp_int (ha : Normal a) (hb : Normal b) (hanil : a.num ≠ []) (hbnil : b.num ≠ [])
    (hneg : a.neg = b.neg) (hint : a.int ≠ b.int) (hma : a.rdx ≤ m) (hmb : b.rdx ≤ m) :
    SameSign (cmp a b) (val 10 a.num * 10 ^ (m - a.rdx) - val 10 b.num * 10 ^ (m - b.rdx)) := by
  rw [cmp, if_neg (len_ne_zero hanil), if_neg (len_ne_zero hbnil), if_neg (not_not.mpr hneg),
    if_pos hint]
  rcases Nat.lt_or_gt_of_ne hint with hlt | hgt
  · have hval := val_lt_of_int_lt hb ha hlt hmb hma
    exact .of_neg (by omega) (by omega)
  · have hval := val_lt_of_int_lt ha hb hgt hma hmb
    exact .of_pos (by omega) (by omega)

theorem cmp_digits (ha : Normal a) (hb : Normal b) (hanil : a.num ≠ []) (hbnil : b.num ≠ [])
    (hneg : a.neg = b.neg) (hint : a.int = b.int) (hm : m = max a.rdx b.rdx) :
    SameSign (cmp a b) (a.scaled m - b.scaled m) := by
  have hra := ha.rdx_le hanil
  have hrb := hb.rdx_le hbnil
  rw [cmp_aligned hanil hbnil hneg hint hra hrb, scaled_eq, scaled_eq, ← hneg, negateIf_sub]
  rw [BcNum.int, BcNum.int, BcNum.len, BcNum.len] at hint
  rw [BcNum.len] at hra hrb
  by_cases hmax : b.rdx < a.rdx
  · obtain rfl : m = a.rdx := by omega
    have hspec := (compareTails_spec ha.digits hb.digits (a.rdx - b.rdx)
      (by omega)).negateIf a.neg
    rw [if_pos hmax, Nat.sub_self, pow_zero, mul_one, mul_comm (val 10 b.num)]
    exact hspec
  · obtain rfl : m = b.rdx := by omega
    have hspec := (compareTails_spec hb.digits ha.digits (b.rdx - a.rdx)
      (by omega)).negateIf (!a.neg)
    rw [if_neg hmax, Nat.sub_self, pow_zero, mul_one, mul_comm (val 10 a.num), ← negateIf_not]
    exact hspec

/-- **The sign of the comparison** is that of the difference of the values. -/
theorem cmp_spec (ha : Normal a) (hb : Normal b) (h : ¬ Misjudged a b) (hm : m = max a.rdx b.rdx) :
    SameSign (cmp a b) (a.scaled m - b.scaled m) := by
  by_cases hanil : a.num = []
  · rw [cmp, if_pos (len_of_nil hanil), scaled_of_nil hanil]
    by_cases hbnil : b.num = []
    · rw [scaled_of_nil hbnil, len_of_nil hbnil, hb.neg_of_nil hbnil]
      decide
    · rw [if_pos (len_ne_zero hbnil), scaled_eq, zero_sub_negateIf]
      exact (SameSign.of_pos Int.one_pos (hb.scaled_pos hbnil m)).negateIf _
  by_cases hbnil : b.num = []
  · rw [cmp, if_neg (len_ne_zero hanil), if_pos (len_of_nil hbnil), scaled_of_nil hbnil, sub_zero,
      scaled_eq]
    exact (SameSign.of_pos Int.one_pos (ha.scaled_pos hanil m)).negateIf _
  by_cases hneg : a.neg = b.neg
  · by_cases hint : a.int = b.int
    · exact cmp_digits ha hb hanil hbnil hneg hint hm
    · have hspec := cmp_int ha hb hanil hbnil hneg hint (m := m) (by omega) (by omega)
      have haneg : a.neg = false := by
        by_contra hne
        have htrue : a.neg = true := by simpa using hne
        exact h ⟨htrue, hneg ▸ htrue, hint⟩
      rw [scaled_eq, scaled_eq, ← hneg, haneg]
      exact hspec
  · have ha1 := ha.scaled_pos hanil m
    have hb1 := hb.scaled_pos hbnil m
    rw [cmp, if_neg (len_ne_zero hanil), if_neg (len_ne_zero hbnil), if_pos hneg, scaled_eq,
      scaled_eq]
    cases haneg : a.neg with
    | true =>
      obtain hbneg : b.neg = false := by simpa [haneg] using Ne.symm hneg
      rw [hbneg]
      refine .of_neg (by decide) ?_
      show -(val 10 a.num * 10 ^ (m - a.rdx)) - val 10 b.num * 10 ^ (m - b.rdx) < 0
      omega
    | false =>
      obtain hbneg : b.neg = true := by simpa [haneg] using Ne.symm hneg
      rw [hbneg]
      refine .of_pos (by decide) ?_
      show 0 < val 10 a.num * 10 ^ (m - a.rdx) - -(val 10 b.num * 10 ^ (m - b.rdx))
      omega

/-- The comparison is that of the values. -/
def OrderedAs (a b : BcNum) : Prop :=
  (cmp a b < 0 ↔ a.value < b.value) ∧ (cmp a b = 0 ↔ a.value = b.value) ∧
    (0 < cmp a b ↔ b.value < a.value)

theorem orderedAs_of_sameSign (hm : m = max a.rdx b.rdx)
    (h : SameSign (cmp a b) (a.scaled m - b.scaled m)) : OrderedAs a b := by
  have hlt := value_lt_iff (a := a) (b := b) (m := m) (by omega) (by omega)
  have hgt := value_lt_iff (a := b) (b := a) (m := m) (by omega) (by omega)
  have heq : a.value = b.value ↔ a.scaled m = b.scaled m := by
    rw [le_antisymm_iff, ← not_lt, ← not_lt, hlt, hgt, not_lt, not_lt, ← le_antisymm_iff]
  obtain ⟨hneg, hpos⟩ := h
  refine ⟨?_, ?_, ?_⟩
  · rw [hlt]
    omega
  · rw [heq]
    omega
  · rw [hgt]
    omega

/-- The number with more digits before the point is said to be the larger one, though it is more
negative. -/
theorem not_orderedAs_of_misjudged (ha : Normal a) (hb : Normal b) (h : Misjudged a b) :
    ¬ OrderedAs a b := by
  obtain ⟨haneg, hbneg, hint⟩ := h
  rintro ⟨hlt, -, hgt⟩
  have hanil : a.num ≠ [] := fun h => by
    rw [ha.neg_of_nil h] at haneg
    exact Bool.false_ne_true haneg
  have hbnil : b.num ≠ [] := fun h => by
    rw [hb.neg_of_nil h] at hbneg
    exact Bool.false_ne_true hbneg
  obtain ⟨hneg, hpos⟩ := cmp_int ha hb hanil hbnil (haneg.trans hbneg.symm) hint
    (Nat.le_max_left a.rdx b.rdx) (Nat.le_max_right a.rdx b.rdx)
  rw [value_lt_iff (Nat.le_max_left _ _) (Nat.le_max_right _ _), scaled_eq, scaled_eq, haneg,
    hbneg] at hlt
  rw [value_lt_iff (Nat.le_max_right _ _) (Nat.le_max_left _ _), scaled_eq, scaled_eq, haneg,
    hbneg] at hgt
  have hne : cmp a b ≠ 0 := by
    rw [cmp, if_neg (len_ne_zero hanil), if_neg (len_ne_zero hbnil),
      if_neg (not_not.mpr (haneg.trans hbneg.symm)), if_pos hint]
    omega
  simp only [negateIf, if_true] at hlt hgt
  omega

/-- **The order of bc is that of the values if and only if** not both numbers are negative with
different numbers of digits before the point. -/
theorem cmp_iff (ha : Normal a) (hb : Normal b) : OrderedAs a b ↔ ¬ Misjudged a b :=
  ⟨fun h hmis => not_orderedAs_of_misjudged ha hb hmis h,
    fun h => orderedAs_of_sameSign rfl (cmp_spec ha hb h rfl)⟩

end

/-- Two thirds and a quarter. -/
theorem cmp_iff_fractions :
    OrderedAs { num := [7, 6], rdx := 2 } { num := [5, 2], rdx := 2, neg := true } :=
  (cmp_iff ⟨by decide, by decide⟩ ⟨by decide, by decide⟩).mpr (by
    rintro ⟨h, -⟩
    cases h)

/-- `-10 < -9` is false for bc. -/
theorem minus_ten_exceeds_minus_nine :
    ¬ ∀ a b : BcNum, Normal a → Normal b → OrderedAs a b := by
  intro h
  have hten : Normal { num := [0, 1], neg := true } := ⟨by decide, by decide⟩
  have hnine : Normal { num := [9], neg := true } := ⟨by decide, by decide⟩
  exact not_orderedAs_of_misjudged hten hnine ⟨rfl, rfl, by decide⟩ (h _ _ hten hnine)

end Rustybox.Bc
