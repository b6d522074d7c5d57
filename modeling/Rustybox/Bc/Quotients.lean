import Mathlib.Tactic.LinearCombination
import Rustybox.Bc.Products

/-!
# Quotients and remainders of numbers of bc

`zbc_num_d` puts zeros behind the dividend until the quotient has the digits behind the point that
are asked for, and another zero in front of it, and divides digit by digit.  `zbc_num_r` takes the
product of quotient and divisor off the dividend.

* `div_spec`: the quotient is cut off at the scale.
* `mod_spec`: the remainder is what the divisor times the quotient leaves.
-/

namespace Rustybox.Bc

open Positional Truncation

/-! ### The dividend -/

theorem extend_zero (n : BcNum) : extend n 0 = n := rfl

theorem extend_if {n : BcNum} {places : ℕ} {c : Prop} [Decidable c] (h : ¬ c → places = 0) :
    (if c then extend n places else n) = extend n places := by
  split
  · rfl
  · next hc => rw [h hc, extend_zero]

/-- The copy of the dividend that is divided. -/
def dividend (a b : BcNum) (scale : ℕ) : BcNum :=
  let cp := if a.len < b.len then extend a (b.len - a.len) else a
  let cp := if cp.rdx < b.rdx then extend cp (b.rdx - cp.rdx) else cp
  let cp := { cp with rdx := cp.rdx - b.rdx }
  if cp.rdx < scale then extend cp (scale - cp.rdx) else cp

theorem dividend_spec (a b : BcNum) (scale : ℕ) :
    ∃ zeros, (dividend a b scale).num = List.replicate zeros 0 ++ a.num ∧
      (dividend a b scale).rdx + b.rdx = a.rdx + zeros ∧ scale ≤ (dividend a b scale).rdx ∧
      b.len ≤ (dividend a b scale).num.length := by
  rw [dividend]
  dsimp only
  rw [extend_if (c := a.len < b.len) (fun h => by omega)]
  obtain ⟨x, hx⟩ : ∃ x, x = b.len - a.len := ⟨_, rfl⟩
  rw [← hx, extend_if (c := (extend a x).rdx < b.rdx) (fun h => by omega)]
  obtain ⟨y, hy⟩ : ∃ y, y = b.rdx - (extend a x).rdx := ⟨_, rfl⟩
  rw [← hy, extend_if (fun h => by omega)]
  obtain ⟨z, hz⟩ : ∃ z, z = scale - ((extend (extend a x) y).rdx - b.rdx) := ⟨_, rfl⟩
  have hrx : (extend a x).rdx = a.rdx + x := rfl
  have hry : (extend (extend a x) y).rdx = a.rdx + x + y := rfl
  rw [hrx] at hy
  rw [hry] at hz
  refine ⟨z + (y + x), ?_, ?_, ?_, ?_⟩
  · show List.replicate (scale - ((extend (extend a x) y).rdx - b.rdx)) 0 ++
      (List.replicate y 0 ++ (List.replicate x 0 ++ a.num)) = _
    rw [hry, ← hz, List.replicate_add, List.replicate_add]
    simp only [List.append_assoc]
  · show (extend (extend a x) y).rdx - b.rdx + (scale - ((extend (extend a x) y).rdx - b.rdx)) +
      b.rdx = _
    rw [hry]
    omega
  · show scale ≤ (extend (extend a x) y).rdx - b.rdx +
      (scale - ((extend (extend a x) y).rdx - b.rdx))
    omega
  · show b.len ≤ (List.replicate (scale - ((extend (extend a x) y).rdx - b.rdx)) 0 ++
      (List.replicate y 0 ++ (List.replicate x 0 ++ a.num))).length
    rw [BcNum.len, BcNum.len] at hx
    simp only [List.length_append, List.length_replicate, BcNum.len]
    omega

/-! ### The divisor -/

section

variable {a b : BcNum}

theorem divisorLen_eq (h : Normal b) (hne : b.num ≠ []) :
    divisorLen b = (b.num.rdropWhile (· = 0)).length := by
  have hdrop := (h.num_eq hne).1
  rw [divisorLen]
  split
  · exact Nat.sub_add_cancel (List.length_pos_iff.mpr hdrop)
  · next hrdx =>
    have hlarge := (h.large hne).resolve_left hrdx
    rw [rdropWhile_of_large h.digits hlarge.2, BcNum.len]

theorem divisor_spec (h : Normal b) (hne : b.num ≠ []) :
    Divisor b.num (divisorLen b) ∧ val 10 (b.num.take (divisorLen b)) = val 10 b.num ∧
      divisorLen b ≤ b.len := by
  have hprefix := List.rdropWhile_prefix (fun d : ℤ => decide (d = 0)) b.num
  have htake : b.num.take (divisorLen b) = (ulong2num (val 10 b.num).toNat).num := by
    rw [divisorLen_eq h hne, ← List.prefix_iff_eq_take.mp hprefix, rdropWhile_eq h.digits]
  have hpos := h.val_pos hne
  have hnat : (val 10 b.num).toNat ≠ 0 := by omega
  have hlen : divisorLen b = (ulong2num (val 10 b.num).toNat).len := by
    rw [divisorLen_eq h hne, rdropWhile_eq h.digits, BcNum.len]
  have hdiv := divisor_ulong2num hnat
  have hle : divisorLen b ≤ b.num.length := by
    rw [divisorLen_eq h hne]
    exact hprefix.length_le
  have hval : val 10 (b.num.take (divisorLen b)) = val 10 b.num := by
    rw [htake, val_ulong2num]
    exact Int.toNat_of_nonneg (le_of_lt hpos)
  refine ⟨⟨h.digits, ?_, hle, ?_⟩, hval, hle⟩
  · rw [hlen]
    exact hdiv.pos
  · have hlarge := hdiv.large
    rw [htake, hlen]
    rwa [BcNum.len, List.take_length] at hlarge

/-! ### Quotients -/

theorem numD_eq {fuel scale : ℕ} (hb : b.len ≠ 0) (ha : a.len ≠ 0) (hone : ¬ isOne b = true) :
    numD fuel a b scale = (do
      let qs ← quotientLoop fuel b.num (divisorLen b)
        ((dividend a b scale).num.length + 1 - divisorLen b) ((dividend a b scale).num ++ [0])
      pure (retireMul
        { num := qs ++ List.replicate (divisorLen b) 0, rdx := (dividend a b scale).rdx }
        scale a.neg b.neg)) := by
  have hlen : ((dividend a b scale).num ++ [0]).length = (dividend a b scale).num.length + 1 :=
    List.length_append
  rw [← hlen, numD, if_neg hb, if_neg ha, if_neg hone]
  rfl

/-- The quotient, cut off at the scale. -/
def IsQuotient (a b : BcNum) (scale : ℕ) (q : BcNum) : Prop :=
  Normal q ∧ q.rdx = scale ∧ q.value = cut 10 scale (a.value / b.value)

theorem sgn_div_sgn (a b : BcNum) : (a.sgn / b.sgn : ℚ) = productSgn a.neg b.neg := by
  rw [← sgn_mul_sgn, Int.cast_mul]
  rcases sgn_eq_or b with h | h
  · rw [h, Int.cast_one, div_one, mul_one]
  · rw [h, Int.cast_neg, Int.cast_one, div_neg, div_one, mul_neg, mul_one]

theorem value_div_value (a b : BcNum) {zeros m : ℕ} (h : m + b.rdx = a.rdx + zeros) :
    a.value / b.value = productSgn a.neg b.neg *
      ((val 10 a.num * 10 ^ zeros : ℤ) / (val 10 b.num * 10 ^ m : ℤ)) := by
  have hpow : (10 : ℚ) ^ m * 10 ^ b.rdx = 10 ^ a.rdx * 10 ^ zeros := by
    rw [← pow_add, ← pow_add, h]
  rw [a.value_eq, b.value_eq, ← sgn_div_sgn, mul_div_assoc (a.sgn : ℚ), mul_div_assoc (b.sgn : ℚ),
    mul_div_mul_comm]
  congr 1
  push_cast
  by_cases hb : (val 10 b.num : ℚ) = 0
  · rw [hb, zero_div, div_zero, zero_mul, div_zero]
  · rw [div_div_div_eq, div_eq_div_iff (by positivity) (by positivity)]
    linear_combination (val 10 a.num * val 10 b.num : ℚ) * hpow

/-- **The digits of the quotient** are found, each in at most nine subtractions. -/
theorem quotient_digits (ha : Normal a) (hb : Normal b) (hne : b.num ≠ []) (scale : ℕ) {fuel : ℕ}
    (hfuel : 10 ≤ fuel) :
    ∃ qs, quotientLoop fuel b.num (divisorLen b)
        ((dividend a b scale).num.length + 1 - divisorLen b) ((dividend a b scale).num ++ [0]) =
        .ok qs ∧ IsDigits 10 qs ∧
      productSgn a.neg b.neg * (val 10 qs / 10 ^ (dividend a b scale).rdx : ℚ) =
        cut 10 (dividend a b scale).rdx (a.value / b.value) := by
  obtain ⟨hdiv, hvalb, hlenb⟩ := divisor_spec hb hne
  obtain ⟨zeros, hnum, hrdx, -, hlen⟩ := dividend_spec a b scale
  have hdigits : IsDigits 10 (dividend a b scale).num := by
    rw [hnum]
    exact isDigits_append.mpr ⟨isDigits_replicate_zero (by decide) _, ha.digits⟩
  obtain ⟨qs, h1, h2, h3⟩ := hdiv.quotient_spec hfuel hdigits (by omega)
  refine ⟨qs, h1, h2, ?_⟩
  have hbpos := hb.val_pos hne
  have hapos : 0 ≤ val 10 a.num * 10 ^ zeros :=
    mul_nonneg (val_nonneg (by decide) ha.digits) (by positivity)
  have hcut := cut_fraction hapos ((val 10 b.num).toNat * 10 ^ (dividend a b scale).rdx)
    (dividend a b scale).rdx
  have hcast : (((val 10 b.num).toNat * 10 ^ (dividend a b scale).rdx : ℕ) : ℤ) =
      val 10 b.num * 10 ^ (dividend a b scale).rdx := by
    rw [Nat.cast_mul, Int.toNat_of_nonneg (le_of_lt hbpos), Nat.cast_pow, Nat.cast_ofNat]
  rw [← Int.cast_natCast (R := ℚ), hcast, Int.mul_ediv_mul_of_pos_left _ _ (by positivity)] at hcut
  rw [value_div_value a b hrdx, cut_productSgn, hcut, h3, hvalb, hnum, val_zeros_append,
    mul_comm (10 ^ zeros)]

theorem cut_ten_cut_ten {j k : ℕ} (h : j ≤ k) (q : ℚ) : cut 10 j (cut 10 k q) = cut 10 j q :=
  cut_cut (B := 10) (by decide) h q

theorem sgn_ne_zero (n : BcNum) : n.sgn ≠ 0 := by
  rcases sgn_eq_or n with h | h
  · rw [h]
    exact one_ne_zero
  · rw [h]
    exact neg_ne_zero.mpr one_ne_zero

theorem Normal.value_ne_zero (h : Normal a) (hne : a.num ≠ []) : a.value ≠ 0 := by
  have hval := h.val_ne_zero hne
  rw [a.value_eq, ← Int.cast_mul]
  exact div_ne_zero (Int.cast_ne_zero.mpr (mul_ne_zero (sgn_ne_zero a) hval)) (by positivity)

theorem Normal.neg_iff (h : Normal a) : a.neg = true ↔ a.value < 0 := by
  have hval := val_nonneg (by decide) h.digits
  have hval' : (0 : ℚ) ≤ val 10 a.num := by exact_mod_cast hval
  constructor
  · intro hneg
    have hne : a.num ≠ [] := fun hnil => Bool.false_ne_true ((h.neg_of_nil hnil).symm.trans hneg)
    have hpos : (0 : ℚ) < val 10 a.num := by exact_mod_cast h.val_pos hne
    rw [a.value_eq, BcNum.sgn, if_pos hneg, Int.cast_neg, Int.cast_one, neg_one_mul]
    exact div_neg_of_neg_of_pos (neg_neg_of_pos hpos) (by positivity)
  · intro hlt
    by_contra hneg
    rw [a.value_eq, BcNum.sgn, if_neg hneg, Int.cast_one, one_mul] at hlt
    exact absurd hlt (not_lt.mpr (div_nonneg hval' (by positivity)))

theorem value_of_isOne (hone : isOne b = true) : b.value = b.sgn := by
  simp only [isOne, Bool.and_eq_true, decide_eq_true_eq] at hone
  obtain ⟨⟨hlen, hrdx⟩, hdigit⟩ := hone
  obtain ⟨d, hd⟩ : ∃ d, b.num = [d] := List.length_eq_one_iff.mp hlen
  rw [hd] at hdigit
  rw [b.value_eq, hrdx, hd, show d = 1 from hdigit, val_cons, val_nil, pow_zero]
  norm_num

/-- **`zbc_num_div` divides.** -/
theorem div_spec (ha : Normal a) (hb : Normal b) (hne : b.num ≠ []) (scale : ℕ) {fuel : ℕ}
    (hfuel : 10 ≤ fuel) : ∃ q, div fuel a b scale = .ok q ∧ IsQuotient a b scale q := by
  rw [div]
  by_cases hanil : a.num = []
  · refine ⟨setToZero scale, ?_, Normal.zero scale, rfl, ?_⟩
    · rw [numD, if_neg (len_ne_zero hne), if_pos (len_of_nil hanil)]
    · rw [value_of_nil hanil, zero_div, cut_zero]
      exact value_of_nil rfl
  by_cases hone : isOne b = true
  · obtain ⟨h1, h2, h3⟩ := retireMul_spec ha.digits scale a.neg b.neg
    refine ⟨_, ?_, h1, h2, ?_⟩
    · rw [numD, if_neg (len_ne_zero hne), if_neg (len_ne_zero hanil), if_pos hone]
    · rw [h3, value_of_isOne hone, a.value_eq, ← sgn_div_sgn, mul_div_assoc, div_mul_eq_mul_div,
        mul_div_assoc]
  · obtain ⟨qs, h1, h2, h3⟩ := quotient_digits ha hb hne scale hfuel
    obtain ⟨zeros, -, -, hscale, -⟩ := dividend_spec a b scale
    have hdigits : IsDigits 10 (qs ++ List.replicate (divisorLen b) 0) :=
      isDigits_append.mpr ⟨h2, isDigits_replicate_zero (by decide) _⟩
    obtain ⟨k1, k2, k3⟩ := retireMul_spec
      (n := { num := qs ++ List.replicate (divisorLen b) 0, rdx := (dividend a b scale).rdx })
      hdigits scale a.neg b.neg
    refine ⟨_, ?_, k1, k2, ?_⟩
    · rw [numD_eq (len_ne_zero hne) (len_ne_zero hanil) hone, h1]
      rfl
    · rw [k3]
      dsimp only
      rw [val_append_zeros, h3, cut_ten_cut_ten hscale]

/-- **Division of integers.** -/
theorem numD_ulong2num {fuel : ℕ} (hfuel : 10 ≤ fuel) {m k : ℕ} (hk : k ≠ 0) :
    numD fuel (ulong2num m) (ulong2num k) 0 = .ok (ulong2num (m / k)) := by
  obtain ⟨q, hq, hnormal, hrdx, hvalue⟩ :=
    div_spec (normal_ulong2num m) (normal_ulong2num k) (num_ne_nil hk) 0 hfuel
  have hcut := cut_fraction (Int.natCast_nonneg m) k 0
  rw [pow_zero, pow_zero, mul_one, div_one, Int.cast_natCast] at hcut
  rw [value_ulong2num, value_ulong2num, hcut, ← Int.natCast_ediv, Int.cast_natCast] at hvalue
  rw [← hnormal.eq_of_value hrdx hvalue]
  exact hq

theorem numR_ulong2num {fuel l : ℕ} (hfuel : 10 ≤ fuel) {m k : ℕ} (hm : m ≠ 0) (hk : k ≠ 0)
    (hmul : ResultOr (· = ulong2num (m / k * k)) l
      (numM fuel (ulong2num (m / k)) (ulong2num k) 0)) :
    ResultOr (· = (ulong2num (m / k), ulong2num (m % k))) l
      (numR fuel (ulong2num m) (ulong2num k) 0 0) := by
  have hm0 : (ulong2num m).len ≠ 0 := by rwa [ne_eq, ulong2num_len_eq_zero]
  have hk0 : (ulong2num k).len ≠ 0 := by rwa [ne_eq, ulong2num_len_eq_zero]
  have hsub : sub (ulong2num m) (ulong2num (m / k * k)) = ulong2num (m % k) := by
    rw [sub_ulong2num (Nat.div_mul_le_self m k), Nat.mod_eq_sub_div_mul]
  have hret : retireMul (ulong2num (m % k)) 0 false false = ulong2num (m % k) := by
    have := retireMul_integer (isDigits_ulong2num (m % k)) 0
    rwa [val_ulong2num, pow_zero, Int.ediv_one, Int.toNat_natCast] at this
  rw [numR, if_neg hk0, if_neg hm0, numD_ulong2num hfuel hk]
  refine ResultOr.bind (P := (· = ulong2num (m / k))) (.ok rfl) id ?_
  rintro _ rfl
  refine ResultOr.bind hmul id ?_
  rintro _ rfl
  simp only [hsub, Nat.not_lt_zero, false_and, if_false]
  exact .ok (congrArg (fun n => (ulong2num (m / k), BcNum.mk n.num n.rdx false)) hret)

/-- **Quotient and remainder of integers** by a short one. -/
theorem divmod_ulong2num {fuel : ℕ} (hfuel : 10 ≤ fuel) {m k : ℕ} (hm : m ≠ 0) (hk : k ≠ 0)
    (hlen : (ulong2num k).len < 32) :
    divmod fuel (ulong2num m) (ulong2num k) 0 = .ok (ulong2num (m / k), ulong2num (m % k)) := by
  obtain ⟨n, rfl⟩ : ∃ n, fuel = n + 1 := ⟨fuel - 1, by omega⟩
  have hmul : ResultOr (· = ulong2num (m / k * k)) 0
      (numM (n + 1) (ulong2num (m / k)) (ulong2num k) 0) := by
    rw [numM_ulong2num n (m / k) hlen]
    exact .ok rfl
  rcases numR_ulong2num hfuel hm hk hmul with ⟨r, hr, rfl⟩ | ⟨-, hlong⟩
  · exact hr
  · exact absurd hlong (Nat.not_lt_zero _)

/-! ### Remainders -/

/-- `zbc_num_rem`. -/
def rem (fuel : ℕ) (a b : BcNum) (scale : ℕ) : Except Err BcNum := do
  let r ← numR fuel a b scale (max (scale + b.rdx) a.rdx)
  pure r.2

/-- `zbc_num_mod`. -/
def mod (fuel : ℕ) (a b : BcNum) (scale : ℕ) : Except Err BcNum := rem fuel a b scale

/-- What the divisor times the quotient leaves: less than the divisor in the last digit of the
quotient, and zero or of the sign of the dividend. -/
structure IsRemainder (a b : BcNum) (scale : ℕ) (q r : BcNum) : Prop where
  normal : Normal r
  value_eq : a.value = b.value * q.value + r.value
  small : |r.value| < |b.value| * (1 / 10 ^ scale)
  sign : r.value = 0 ∨ 0 < a.value * r.value

/-- Taking the product of the quotient off leaves the divisor times what was cut off. -/
theorem IsQuotient.remainder {q r : BcNum} {scale : ℕ} (hq : IsQuotient a b scale q)
    (hb0 : b.value ≠ 0) (hr : Normal r) (hval : r.value = a.value - q.value * b.value) :
    IsRemainder a b scale q r := by
  obtain ⟨hsmall, hpos, hneg⟩ := sub_cut (by norm_num : (0 : ℚ) < 10) (a.value / b.value) scale
  have hrest : r.value = b.value * (a.value / b.value - cut 10 scale (a.value / b.value)) := by
    rw [hval, ← hq.2.2, mul_sub, mul_div_cancel₀ _ hb0, mul_comm q.value]
  have ha : a.value = b.value * (a.value / b.value) := (mul_div_cancel₀ _ hb0).symm
  refine ⟨hr, by rw [hval]; ring, ?_, ?_⟩
  · rw [hrest, abs_mul]
    exact mul_lt_mul_of_pos_left hsmall (abs_pos.mpr hb0)
  · by_cases hzero : r.value = 0
    · exact .inl hzero
    · right
      generalize a.value / b.value = x at *
      generalize x - cut 10 scale x = y at *
      have hy : y ≠ 0 := by
        rintro rfl
        exact hzero (by rw [hrest, mul_zero])
      have hsq : 0 < b.value * b.value := mul_self_pos.mpr hb0
      have hxy : 0 < x * y := by
        rcases lt_trichotomy x 0 with hx | rfl | hx
        · exact mul_pos_of_neg_of_neg hx (lt_of_le_of_ne (hneg (le_of_lt hx)) hy)
        · exact absurd (le_antisymm (hneg le_rfl) (hpos le_rfl)) hy
        · exact mul_pos hx (lt_of_le_of_ne (hpos (le_of_lt hx)) (Ne.symm hy))
      rw [ha, hrest]
      have := mul_pos hsq hxy
      linarith

theorem addSub_rdx_le (ha : Normal a) (hb : Normal b) (sub : Bool) :
    (addSub a b sub).rdx ≤ scaleOf a b := by
  have hra : a.rdx ≤ scaleOf a b := Nat.le_max_left _ _
  have hrb : b.rdx ≤ scaleOf a b := Nat.le_max_right _ _
  by_cases hanil : a.num = []
  · rw [addSub, numA, numS, if_pos (len_of_nil hanil), if_pos (len_of_nil hanil), ite_self]
    split
    · exact hrb
    · exact hrb
  by_cases hbnil : b.num = []
  · rw [addSub, numA, numS, if_neg (len_ne_zero hanil), if_neg (len_ne_zero hanil),
      if_pos (len_of_nil hbnil), if_pos (len_of_nil hbnil), ite_self]
    exact hra
  rw [addSub]
  split
  · exact le_of_eq (numA_spec ha hb hanil hbnil sub).2.1
  · next hsigns => exact le_of_eq (numS_spec ha hb hanil hbnil (signed_eq_neg hsigns)).2.1

theorem value_extend (n : BcNum) (places : ℕ) : (extend n places).value = n.value := by
  have hrdx : (extend n places).rdx = n.rdx + places := rfl
  have hsgn : (extend n places).sgn = n.sgn := rfl
  rw [BcNum.value_eq, n.value_eq, val_extend, hrdx, hsgn, pow_add]
  push_cast
  rw [← mul_assoc, mul_div_mul_right _ _ (by positivity)]

theorem cut_value {n : BcNum} {k : ℕ} (h : n.rdx ≤ k) : cut 10 k n.value = n.value := by
  refine cut_of_int (by norm_num) (n := n.sgn * (val 10 n.num * 10 ^ (k - n.rdx))) ?_
  rw [n.value_scaled h, div_mul_cancel₀ _ (by positivity)]

theorem cut_product (a b : BcNum) :
    cut 10 (a.rdx + b.rdx) (a.value * b.value) = a.value * b.value := by
  refine cut_of_int (by norm_num) (n := a.sgn * val 10 a.num * (b.sgn * val 10 b.num)) ?_
  rw [a.value_eq, b.value_eq, div_mul_div_comm, ← pow_add, div_mul_cancel₀ _ (by positivity)]
  push_cast
  ring

/-- The end of `zbc_num_r`: the difference gets the scale of a remainder, and keeps its sign. -/
theorem retire_difference {d : BcNum} (h : Normal d) {ts : ℕ} (hrdx : d.rdx ≤ ts)
    (neg1 neg2 : Bool) {n : BcNum}
    (hn : n = if d.rdx < ts ∧ d.len ≠ 0 then extend d (ts - d.rdx) else d) :
    Normal { retireMul n ts neg1 neg2 with neg := n.neg } ∧
      BcNum.value { retireMul n ts neg1 neg2 with neg := n.neg } = d.value := by
  have hspec : IsDigits 10 n.num ∧ n.neg = d.neg ∧ n.rdx ≤ ts ∧ n.value = d.value := by
    subst hn
    split
    · exact ⟨isDigits_extend h.digits _, rfl, le_of_eq (Nat.add_sub_cancel' hrdx),
        value_extend d _⟩
    · exact ⟨h.digits, rfl, hrdx, rfl⟩
  obtain ⟨hdigits, hneg, hle, hvalue⟩ := hspec
  obtain ⟨h1, h2, h3⟩ := retireMul_self hdigits ts
  rw [cut_value hle, hvalue] at h3
  suffices hsame : { retireMul n ts neg1 neg2 with neg := n.neg } = retireMul n ts n.neg false by
    rw [hsame]
    exact ⟨h1, h3⟩
  rw [retireMul] at h1 h3 ⊢
  rw [retireMul]
  dsimp only at h1 h3 ⊢
  generalize clean (if n.rdx < ts then extend n (ts - n.rdx) else truncate n (n.rdx - ts)) = m at *
  by_cases hlen : m.len ≠ 0
  · rw [if_pos hlen, if_pos hlen, Bool.bne_false]
  · rw [if_neg hlen] at h1 h3
    rw [if_neg hlen, if_neg hlen]
    have hmnil := List.eq_nil_of_length_eq_zero (not_not.mp hlen)
    have hdnil : d.num = [] := by
      by_contra hne
      rw [value_of_nil hmnil] at h3
      exact h.value_ne_zero hne h3.symm
    rw [hneg, h.neg_of_nil hdnil]
    exact congrArg (BcNum.mk m.num m.rdx) (h1.neg_of_nil hmnil).symm

theorem abs_value (n : BcNum) (h : Normal n) : |n.value| = val 10 n.num / 10 ^ n.rdx := by
  have hval : (0 : ℚ) ≤ val 10 n.num := by exact_mod_cast val_nonneg (by decide) h.digits
  rw [n.value_eq, mul_div_assoc, abs_mul, abs_of_nonneg (div_nonneg hval (by positivity))]
  rcases sgn_eq_or n with hs | hs
  · rw [hs, Int.cast_one, abs_one, one_mul]
  · rw [hs, Int.cast_neg, Int.cast_one, abs_neg, abs_one, one_mul]

theorem Normal.len_le {n : BcNum} (h : Normal n) {m : ℕ} (hlt : |n.value| < 10 ^ m) :
    n.len ≤ m + n.rdx := by
  by_cases hnil : n.num = []
  · rw [len_of_nil hnil]
    exact Nat.zero_le _
  rcases h.large hnil with heq | ⟨-, hlarge⟩
  · omega
  · rw [abs_value n h, div_lt_iff₀ (by positivity), ← pow_add] at hlt
    have hlt' : val 10 n.num < 10 ^ (m + n.rdx) := by exact_mod_cast hlt
    have hpow : (10 : ℤ) ^ n.len < 10 ^ (m + n.rdx + 1) := by
      rw [pow_succ]
      linarith
    exact Nat.le_of_lt_succ ((pow_lt_pow_iff_right₀ (by decide)).mp hpow)

theorem IsQuotient.len_le {q : BcNum} {scale : ℕ} (hq : IsQuotient a b scale q) (ha : Normal a)
    (hb : Normal b) (hne : b.num ≠ []) : q.len ≤ a.len + b.rdx + scale := by
  have hapos := val_nonneg (by decide) ha.digits
  have ha' : |a.value| < 10 ^ a.len := by
    have hlt : (val 10 a.num : ℚ) < 10 ^ a.len := by exact_mod_cast val_lt (by decide) ha.digits
    have hle : |a.value| ≤ val 10 a.num := by
      rw [abs_value a ha]
      exact div_le_self (by exact_mod_cast hapos) (one_le_pow₀ (by norm_num))
    linarith
  have hb' : 1 ≤ |b.value| * 10 ^ b.rdx := by
    rw [abs_value b hb, div_mul_cancel₀ _ (by positivity)]
    exact_mod_cast hb.val_pos hne
  have hlt : |q.value| < 10 ^ (a.len + b.rdx) := by
    have hbpos : 0 < |b.value| := abs_pos.mpr (hb.value_ne_zero hne)
    rw [hq.2.2, pow_add]
    refine (abs_cut_le (by norm_num) _ _).trans_lt ?_
    rw [abs_div, div_lt_iff₀ hbpos]
    have hmul := mul_le_mul_of_nonneg_left hb' (by positivity : (0 : ℚ) ≤ 10 ^ a.len)
    linarith
  have := hq.1.len_le hlt
  rw [hq.2.1] at this
  exact this

/-- **`zbc_num_mod` takes the remainder.** -/
theorem mod_spec (ha : Normal a) (hb : Normal b) (hne : b.num ≠ []) (scale : ℕ) {fuel : ℕ}
    (hfuel : a.len + b.len + 2 * (scale + b.rdx) + 10 ≤ fuel) :
    ∃ q, div fuel a b scale = .ok q ∧ IsQuotient a b scale q ∧
      ResultOr (IsRemainder a b scale q) (a.len + b.len + 3 * (scale + b.rdx))
        (mod fuel a b scale) := by
  have hten : 10 ≤ fuel := by omega
  obtain ⟨q, hdiv, hq⟩ := div_spec ha hb hne scale hten
  refine ⟨q, hdiv, hq, ?_⟩
  have hb0 := hb.value_ne_zero hne
  have hlen := hq.len_le ha hb hne
  rw [mod, rem]
  by_cases hanil : a.num = []
  · refine .inl ⟨setToZero (max (scale + b.rdx) a.rdx), ?_, hq.remainder hb0 (Normal.zero _) ?_⟩
    · rw [numR, if_neg (len_ne_zero hne), if_pos (len_of_nil hanil)]
      rfl
    · rw [value_of_nil hanil, hq.2.2, value_of_nil hanil, zero_div, cut_zero, zero_mul, sub_zero]
      exact value_of_nil rfl
  -- the product is exact, as the scale is that of the quotient and the divisor together
  generalize hts : max (scale + b.rdx) a.rdx = ts
  obtain ⟨s, hs⟩ : ∃ s, s = if scale ≠ 0 then ts else scale := ⟨_, rfl⟩
  have hscale : mulScale q b s = scale + b.rdx := by
    rw [mulScale, hq.2.1, hs]
    split <;> omega
  have hlarge : q.len + b.len + mulScale q b s < fuel := by omega
  have hprod := mul_spec hq.1 hb s hlarge
  rw [mul, hscale] at hprod
  rw [div] at hdiv
  rw [numR, if_neg (len_ne_zero hne), if_neg (len_ne_zero hanil), hdiv, ← hs]
  rcases hprod with ⟨temp, hok, hnormal, hrdx, hvalue⟩ | ⟨herr, hlong⟩
  · rw [hscale] at hrdx hvalue
    rw [← hq.2.1, cut_product] at hvalue
    obtain ⟨hd, hdvalue⟩ := addSub_spec ha hnormal true
    have hdrdx := addSub_rdx_le ha hnormal true
    rw [← sub_eq] at hd hdvalue hdrdx
    rw [scaleOf, hrdx, max_comm, hts] at hdrdx
    obtain ⟨hr, hrvalue⟩ := retire_difference hd hdrdx a.neg b.neg rfl
    refine .inl ⟨_, ?_, hq.remainder hb0 hr ?_⟩
    · simp only [bind, Except.bind, hok]
      rfl
    · rw [hrvalue, hdvalue, if_pos rfl, hvalue, sub_eq_add_neg]
  · right
    simp only [bind, Except.bind, herr]
    exact ⟨trivial, by omega⟩

/-- **Division is exact** up to the scale, with digits from 0 to 9 for the quotient, and the
remainder is what is left.  Only where the product of quotient and divisor would be too long there
is an error instead of a remainder. -/
theorem div_mod_exact (ha : Normal a) (hb : Normal b) (hb0 : b.value ≠ 0) (scale : ℕ) :
    (∃ least, ∀ fuel, least < fuel → ∃ q, div fuel a b scale = .ok q ∧ IsQuotient a b scale q ∧
      ResultOr (IsRemainder a b scale q) (a.len + b.len + 3 * (scale + b.rdx))
        (mod fuel a b scale)) ∧
    ∀ fuel, 10 ≤ fuel → ∃ qs, quotientLoop fuel b.num (divisorLen b)
        ((dividend a b scale).num.length + 1 - divisorLen b) ((dividend a b scale).num ++ [0]) =
        .ok qs ∧ ∀ d ∈ qs, 0 ≤ d ∧ d ≤ 9 := by
  have hne : b.num ≠ [] := fun h => hb0 (value_of_nil h)
  refine ⟨⟨a.len + b.len + 2 * (scale + b.rdx) + 10, fun fuel h => ?_⟩, fun fuel h => ?_⟩
  · exact mod_spec ha hb hne scale (le_of_lt h)
  · obtain ⟨qs, h1, h2, -⟩ := quotient_digits ha hb hne scale h
    exact ⟨qs, h1, fun d hd => ⟨(h2 d hd).1, Int.le_of_lt_add_one (h2 d hd).2⟩⟩

theorem mod_tooLong {q : BcNum} {fuel scale : ℕ} (ha : a.num ≠ []) (hb : b.num ≠ [])
    (hdiv : div fuel a b scale = .ok q) (hlen : q.len ≠ 0) (hscale : q.rdx ≠ 0)
    (hlong : maxNum < q.rdx + q.len) : mod fuel a b scale = .error .numberTooLong := by
  have hmul : ∀ s, numM fuel q b s = .error .numberTooLong :=
    fun s => mul_tooLong fuel hlen hscale hlong
  rw [div] at hdiv
  rw [mod, rem, numR, if_neg (len_ne_zero hb), if_neg (len_ne_zero ha), hdiv]
  simp only [bind, Except.bind, hmul]

end

/-- Minus seven divided by a half, and by two thirds. -/
theorem div_mod_exact_seven :
    (∃ least, ∀ fuel, least < fuel →
      ∃ q, div fuel { num := [7], neg := true } { num := [5], rdx := 1 } 0 = .ok q ∧
        IsQuotient { num := [7], neg := true } { num := [5], rdx := 1 } 0 q ∧
        ResultOr (IsRemainder { num := [7], neg := true } { num := [5], rdx := 1 } 0 q) 5
          (mod fuel { num := [7], neg := true } { num := [5], rdx := 1 } 0)) :=
  (div_mod_exact ⟨by decide, by decide⟩ ⟨by decide, by decide⟩
    (Normal.value_ne_zero ⟨by decide, by decide⟩ (by decide)) 0).1

/-- The remainder of one divided by three, at the scale 4294967294, is an error. -/
theorem third_too_long :
    ¬ ∀ a b : BcNum, Normal a → Normal b → b.value ≠ 0 → ∀ scale, ∃ fuel q r,
      div fuel a b scale = .ok q ∧ IsQuotient a b scale q ∧
      mod fuel a b scale = .ok r ∧ IsRemainder a b scale q r := by
  intro h
  have hone : Normal { num := [1] } := ⟨by decide, by decide⟩
  have hthree : Normal { num := [3] } := ⟨by decide, by decide⟩
  obtain ⟨n, hn⟩ : ∃ n, n = maxNum := ⟨_, rfl⟩
  have hpos : 0 < n := by
    rw [hn]
    decide
  obtain ⟨fuel, q, r, hdiv, hq, hmod, -⟩ := h { num := [1] } { num := [3] } hone hthree
    (hthree.value_ne_zero (List.cons_ne_nil _ _)) n
  have hq0 : q.num ≠ [] := by
    intro hnil
    have hvalue : (BcNum.mk [1] 0 false).value / (BcNum.mk [3] 0 false).value = 1 / 3 := by
      norm_num [BcNum.value, val]
    obtain ⟨-, -, hlt⟩ := cut_bounds (by norm_num : (0 : ℚ) < 10) (k := n)
      (by norm_num : (0 : ℚ) ≤ 1 / 3)
    have hpow : (10 : ℚ) ^ 1 ≤ 10 ^ n := pow_le_pow_right₀ (by norm_num) hpos
    have hsmall := one_div_le_one_div_of_le (by norm_num) hpow
    rw [← hvalue, ← hq.2.2, value_of_nil hnil, hvalue] at hlt
    norm_num at hlt hsmall
    linarith
  have hlen := hq.1.rdx_le hq0
  have hrdx := hq.2.1
  rw [mod_tooLong (List.cons_ne_nil _ _) (List.cons_ne_nil _ _) hdiv (len_ne_zero hq0) (by omega)
    (by omega)] at hmod
  cases hmod

end Rustybox.Bc
