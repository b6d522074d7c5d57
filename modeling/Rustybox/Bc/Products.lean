import Mathlib.Data.Rat.Floor
import Rustybox.Bc.Sums
import Rustybox.Lib.Truncation

/-!
# Products of numbers of bc

`zbc_num_m` makes integers of its operands, multiplies them by `zbc_num_k`, and takes digits off the
product.  `zbc_num_k` multiplies digit by digit where one of the numbers is short; else it splits
both in the middle of the longer one, and gets along with three products of the halves.

Shifting a number to more than 4294967294 digits is the error `number too long`.

* `numK_spec`: both ways give the product of the integers.
* `mul_spec`: the product is cut off at the scale that POSIX asks for.
-/

namespace Rustybox.Bc

open Positional Truncation

/-! ### Numbers that are too long -/

/-- `BC_MAX_NUM`: the largest number of digits that `zbc_num_shift` lets a number have. -/
def maxNum : ℕ := 4294967294

/-- An operation that comes to its end: with its result, or with the error where a number would
have more digits than it may have, as `limit` is larger than that. -/
def ResultOr {α : Type} (P : α → Prop) (limit : ℕ) (r : Except Err α) : Prop :=
  (∃ c, r = .ok c ∧ P c) ∨ r = .error .numberTooLong ∧ maxNum < limit

section

variable {α β : Type} {P : α → Prop} {Q : β → Prop} {l limit : ℕ} {x : Except Err α}

theorem ResultOr.ok {c : α} (h : P c) : ResultOr P limit (.ok c) := .inl ⟨c, rfl, h⟩

theorem ResultOr.bind {f : α → Except Err β} (hx : ResultOr P l x)
    (hl : maxNum < l → maxNum < limit) (hf : ∀ c, P c → ResultOr Q limit (f c)) :
    ResultOr Q limit (x >>= f) := by
  rcases hx with ⟨c, rfl, hc⟩ | ⟨rfl, h⟩
  · exact hf c hc
  · exact .inr ⟨rfl, hl h⟩

theorem ResultOr.mono {R : α → Prop} (hx : ResultOr P l x) (hP : ∀ c, P c → R c)
    (hl : maxNum < l → maxNum < limit) : ResultOr R limit x := by
  rcases hx with ⟨c, rfl, hc⟩ | ⟨rfl, h⟩
  · exact .inl ⟨c, rfl, hP c hc⟩
  · exact .inr ⟨rfl, hl h⟩

end

/-! ### Parts of integers -/

theorem len_le_iff {m n : ℕ} : (ulong2num m).len ≤ n ↔ m < 10 ^ n := by
  rw [len_ulong2num]
  exact Nat.digits_length_le_iff (by decide) m

theorem lt_pow_len (m : ℕ) : m < 10 ^ (ulong2num m).len := len_le_iff.mp (Nat.le_refl _)

theorem split_ulong2num (m idx : ℕ) :
    split (ulong2num m) idx = (ulong2num (m % 10 ^ idx), ulong2num (m / 10 ^ idx)) := by
  have hdigits := isDigits_ulong2num m
  rw [split]
  split
  · have hlow := clean_integer (hdigits.take idx)
    have hhigh := clean_integer (hdigits.drop idx)
    rw [val_take (by decide) hdigits, val_ulong2num] at hlow
    rw [val_drop (by decide) hdigits, val_ulong2num] at hhigh
    rw [hlow, hhigh]
    congr 2
  · next hlen =>
    have hlt := len_le_iff.mp (Nat.le_of_not_lt hlen)
    have hclean := clean_integer hdigits
    rw [val_ulong2num, Int.toNat_natCast] at hclean
    rw [Nat.mod_eq_of_lt hlt, Nat.div_eq_of_lt hlt]
    exact Prod.ext hclean rfl

theorem shift_cases (n : BcNum) (places : ℕ) :
    ResultOr (fun c => n.len = 0 → c.len = 0) (places + n.len) (shift n places) := by
  rw [shift]
  split
  · exact .ok id
  · next hzero =>
    split
    · next hlong => exact .inr ⟨rfl, hlong⟩
    · exact .ok fun h => absurd (.inr h) hzero

theorem shift_tooLong {n : BcNum} {places : ℕ} (hp : places ≠ 0) (hne : n.len ≠ 0)
    (hlong : maxNum < places + n.len) : shift n places = .error .numberTooLong := by
  rw [shift, if_neg (not_or.mpr ⟨hp, hne⟩)]
  exact if_pos hlong

/-- **Shifting** a number to an integer multiplies, as long as it does not become too long. -/
theorem shift_spec {n : BcNum} (h : Normal n) (hne : n.num ≠ []) (hneg : n.neg = false)
    {places : ℕ} (hp : n.rdx ≤ places) :
    ResultOr (· = ulong2num (val 10 n.num * 10 ^ (places - n.rdx)).toNat) (places + n.len)
      (shift n places) := by
  have hdigits : IsDigits 10 (List.replicate (places - n.rdx) 0 ++ n.num) :=
    isDigits_append.mpr ⟨isDigits_replicate_zero (by decide) _, h.digits⟩
  have hval : val 10 (List.replicate (places - n.rdx) 0 ++ n.num) =
      val 10 n.num * 10 ^ (places - n.rdx) := by
    rw [val_zeros_append, mul_comm]
  rw [shift]
  by_cases hzero : places = 0 ∨ n.len = 0
  · have hp0 : places = 0 := hzero.resolve_right (len_ne_zero hne)
    have hr0 : n.rdx = 0 := by omega
    rw [if_pos hzero, hp0, Nat.zero_sub, pow_zero, mul_one]
    exact .ok (h.eq_ulong2num hr0 hneg)
  · rw [if_neg hzero]
    by_cases hlong : 4294967294 < places + n.len
    · exact .inr ⟨if_pos hlong, hlong⟩
    · rw [if_neg hlong, ← hval, ← clean_integer hdigits]
      refine .ok ?_
      by_cases heq : places ≤ n.rdx
      · rw [if_pos heq, Nat.sub_eq_zero_of_le heq, Nat.sub_eq_zero_of_le (by omega), hneg]
        rfl
      · rw [if_neg heq, extend, hneg]

theorem shift_ulong2num (m places : ℕ) :
    ResultOr (· = ulong2num (m * 10 ^ places)) (if m = 0 then 0 else places + (ulong2num m).len)
      (shift (ulong2num m) places) := by
  by_cases hm : m = 0
  · have hshift : shift (ulong2num m) places = .ok (ulong2num m) :=
      if_pos (.inr ((ulong2num_len_eq_zero m).mpr hm))
    rw [hshift]
    exact .ok (by rw [hm, Nat.zero_mul])
  · have hspec := shift_spec (normal_ulong2num m) (num_ne_nil hm) rfl (Nat.zero_le places)
    have hval : (val 10 (ulong2num m).num * 10 ^ (places - (ulong2num m).rdx)).toNat =
        m * 10 ^ places := by
      rw [val_ulong2num]
      exact Int.toNat_natCast (m * 10 ^ places)
    rw [hval] at hspec
    rw [if_neg hm]
    exact hspec

/-! ### Products of integers -/

theorem karatsuba (B l₁ h₁ l₂ h₂ : ℕ) :
    h₁ * h₂ * (B * B) + ((h₁ + l₁) * (h₂ + l₂) - h₁ * h₂ - l₁ * l₂) * B + l₁ * l₂ =
      (l₁ + B * h₁) * (l₂ + B * h₂) := by
  have hmid : (h₁ + l₁) * (h₂ + l₂) - h₁ * h₂ - l₁ * l₂ = h₁ * l₂ + l₁ * h₂ := by
    rw [Nat.sub_sub]
    apply Nat.sub_eq_of_eq_add
    ring
  rw [hmid]
  ring

theorem len_le_of_dvd_pow {m n p : ℕ} (h : m * 10 ^ n < 10 ^ p) (hm : m ≠ 0) :
    (ulong2num m).len + n ≤ p := by
  have hnp : n < p := by
    by_contra hge
    have hle := Nat.pow_le_pow_right (by decide : 0 < 10) (not_lt.mp hge)
    have hmul := Nat.le_mul_of_pos_left (10 ^ n) (Nat.pos_of_ne_zero hm)
    omega
  have hlen : (ulong2num m).len ≤ p - n := by
    rw [len_le_iff]
    have hpow : 10 ^ p = 10 ^ (p - n) * 10 ^ n := by rw [← pow_add, Nat.sub_add_cancel (by omega)]
    rw [hpow] at h
    exact Nat.lt_of_mul_lt_mul_right h
  omega

/-- **`zbc_num_k` multiplies**, in halves or digit by digit. -/
theorem numK_spec {fuel : ℕ} : ∀ {m k : ℕ},
    max (ulong2num m).len (ulong2num k).len < fuel →
    ResultOr (· = ulong2num (m * k)) ((ulong2num m).len + (ulong2num k).len)
      (numK fuel (ulong2num m) (ulong2num k)) := by
  induction fuel with
  | zero => exact fun h => absurd h (Nat.not_lt_zero _)
  | succ fuel ih =>
    intro m k hfuel
    by_cases hshort : (ulong2num m).len + (ulong2num k).len < 32 ∨ (ulong2num m).len < 32 ∨
        (ulong2num k).len < 32
    · rw [numK_short fuel hshort]
      exact .ok rfl
    obtain ⟨M, hM⟩ : ∃ M, M = (max (ulong2num m).len (ulong2num k).len + 1) / 2 := ⟨_, rfl⟩
    have hzero : ¬ ((ulong2num m).len = 0 ∨ (ulong2num k).len = 0) := by omega
    have hone : ¬ (isOne (ulong2num m) || isOne (ulong2num k)) = true := by
      have hlen : ∀ n, isOne (ulong2num n) = true → (ulong2num n).len = 1 := by
        intro n hn
        rw [(isOne_ulong2num n).mp hn]
        rfl
      rw [Bool.or_eq_true]
      rintro (h | h)
      · have := hlen m h
        omega
      · have := hlen k h
        omega
    have hpow : 0 < 10 ^ M := Nat.pow_pos (by decide)
    have hm := Nat.mod_add_div m (10 ^ M)
    have hk := Nat.mod_add_div k (10 ^ M)
    have hlm : m < 10 ^ (2 * M) :=
      (lt_pow_len m).trans_le (Nat.pow_le_pow_right (by decide) (by omega))
    have hlk : k < 10 ^ (2 * M) :=
      (lt_pow_len k).trans_le (Nat.pow_le_pow_right (by decide) (by omega))
    have hl₁ := Nat.mod_lt m hpow
    have hl₂ := Nat.mod_lt k hpow
    have hh₁ : m / 10 ^ M < 10 ^ M := by
      rw [Nat.div_lt_iff_lt_mul hpow, ← pow_add, ← two_mul]
      exact hlm
    have hh₂ : k / 10 ^ M < 10 ^ M := by
      rw [Nat.div_lt_iff_lt_mul hpow, ← pow_add, ← two_mul]
      exact hlk
    have hprod : m * k < 10 ^ ((ulong2num m).len + (ulong2num k).len) := by
      rw [pow_add]
      exact Nat.mul_lt_mul'' (lt_pow_len m) (lt_pow_len k)
    have hkara := karatsuba (10 ^ M) (m % 10 ^ M) (m / 10 ^ M) (k % 10 ^ M) (k / 10 ^ M)
    rw [hm, hk] at hkara
    rw [numK, if_neg hzero, if_neg hone, if_neg hshort, ← hM, split_ulong2num, split_ulong2num]
    dsimp only
    rw [add_ulong2num, add_ulong2num]
    generalize m % 10 ^ M = l₁ at *
    generalize m / 10 ^ M = h₁ at *
    generalize k % 10 ^ M = l₂ at *
    generalize k / 10 ^ M = h₂ at *
    have hsum : ∀ {x y : ℕ}, x < 10 ^ M → y < 10 ^ M → (ulong2num (x + y)).len ≤ M + 1 := by
      intro x y hx hy
      rw [len_le_iff, pow_succ]
      omega
    have hlen₁ := len_le_iff.mpr hl₁
    have hlen₂ := len_le_iff.mpr hl₂
    have hlen₃ := len_le_iff.mpr hh₁
    have hlen₄ := len_le_iff.mpr hh₂
    have hlen₅ := hsum hh₁ hl₁
    have hlen₆ := hsum hh₂ hl₂
    refine (ih (m := h₁) (k := h₂) (by omega)).bind (fun h => by omega) ?_
    rintro _ rfl
    refine (ih (m := h₁ + l₁) (k := h₂ + l₂) (by omega)).bind (fun h => by omega) ?_
    rintro _ rfl
    refine (ih (m := l₁) (k := l₂) (by omega)).bind (fun h => by omega) ?_
    rintro _ rfl
    have hle₀ : h₁ * h₂ ≤ (h₁ + l₁) * (h₂ + l₂) := Nat.mul_le_mul (by omega) (by omega)
    have hle₂ : l₁ * l₂ ≤ (h₁ + l₁) * (h₂ + l₂) - h₁ * h₂ := by
      have hexpand : (h₁ + l₁) * (h₂ + l₂) = h₁ * h₂ + (h₁ * l₂ + l₁ * h₂ + l₁ * l₂) := by ring
      omega
    rw [sub_ulong2num hle₀, sub_ulong2num hle₂]
    -- neither part of the product is longer than it
    have hpart : ∀ {x n : ℕ}, x * 10 ^ n ≤ m * k →
        maxNum < (if x = 0 then 0 else n + (ulong2num x).len) →
        maxNum < (ulong2num m).len + (ulong2num k).len := by
      intro x n hx hlong
      split at hlong
      · exact absurd hlong (Nat.not_lt_zero _)
      · next hne =>
        have := len_le_of_dvd_pow (Nat.lt_of_le_of_lt hx hprod) hne
        omega
    refine (shift_ulong2num (h₁ * h₂) (M * 2)).bind (hpart ?_) ?_
    · rw [mul_comm M, two_mul, pow_add]
      omega
    rintro _ rfl
    refine (shift_ulong2num _ M).bind (hpart (by omega)) ?_
    rintro _ rfl
    refine .ok ?_
    rw [add_ulong2num, add_ulong2num, ← hkara, mul_comm M, two_mul, pow_add]

/-! ### The scale of a result -/

/-- The sign of a product and of a quotient. -/
def productSgn (neg1 neg2 : Bool) : ℤ := if neg1 != neg2 then -1 else 1

theorem sgn_mul_sgn (a b : BcNum) : a.sgn * b.sgn = productSgn a.neg b.neg := by
  rw [BcNum.sgn, BcNum.sgn, productSgn]
  cases a.neg <;> cases b.neg <;> rfl

theorem cut_productSgn (neg1 neg2 : Bool) (k : ℕ) (q : ℚ) :
    cut 10 k (productSgn neg1 neg2 * q) = productSgn neg1 neg2 * cut 10 k q := by
  rw [productSgn]
  split
  · rw [Int.cast_neg, Int.cast_one, neg_one_mul, neg_one_mul, cut_neg]
  · rw [Int.cast_one, one_mul, one_mul]

theorem cut_fraction {n : ℤ} (hn : 0 ≤ n) (d k : ℕ) :
    cut (10 : ℚ) k (n / d) = (n * 10 ^ k / d : ℤ) / 10 ^ k := by
  have hn' : (0 : ℚ) ≤ n := by exact_mod_cast hn
  have hfloor := Rat.floor_intCast_div_natCast (n * 10 ^ k) d
  push_cast at hfloor
  rw [cut_of_nonneg (by norm_num) (by positivity), div_mul_eq_mul_div, hfloor]

/-- **`bc_num_retireMul` cuts off** what is behind the scale, and sets the sign. -/
theorem retireMul_spec {n : BcNum} (h : IsDigits 10 n.num) (scale : ℕ) (neg1 neg2 : Bool) :
    Normal (retireMul n scale neg1 neg2) ∧ (retireMul n scale neg1 neg2).rdx = scale ∧
      (retireMul n scale neg1 neg2).value =
        cut 10 scale ((productSgn neg1 neg2 : ℚ) * (val 10 n.num / 10 ^ n.rdx)) := by
  obtain ⟨m, hm⟩ : ∃ m, m = if n.rdx < scale then extend n (scale - n.rdx)
      else truncate n (n.rdx - scale) := ⟨_, rfl⟩
  have hspec : IsDigits 10 m.num ∧ m.rdx = scale ∧
      val 10 m.num = val 10 n.num * 10 ^ scale / 10 ^ n.rdx := by
    subst hm
    split
    · next hlt =>
      have hpow : (10 : ℤ) ^ scale = 10 ^ (scale - n.rdx) * 10 ^ n.rdx := by
        rw [← pow_add, Nat.sub_add_cancel (le_of_lt hlt)]
      refine ⟨isDigits_extend h _, Nat.add_sub_cancel' (le_of_lt hlt), ?_⟩
      rw [val_extend, hpow, ← mul_assoc, Int.mul_ediv_cancel _ (by positivity)]
    · next hge =>
      have hpow : (10 : ℤ) ^ n.rdx = 10 ^ (n.rdx - scale) * 10 ^ scale := by
        rw [← pow_add, Nat.sub_add_cancel (not_lt.mp hge)]
      refine ⟨h.drop _, Nat.sub_sub_self (not_lt.mp hge), ?_⟩
      rw [hpow, Int.mul_ediv_mul_of_pos_left _ _ (by positivity)]
      exact val_drop (by decide) h _
  obtain ⟨hdigits, hrdx, hval⟩ := hspec
  have hnormal := normal_clean hdigits
  have hcut := cut_fraction (val_nonneg (by decide) h) (10 ^ n.rdx) scale
  rw [Nat.cast_pow, Nat.cast_pow, Nat.cast_ofNat, Nat.cast_ofNat] at hcut
  rw [cut_productSgn, hcut, ← hval, retireMul, ← hm]
  split
  · next hlen =>
    have hne := num_ne_nil_of_len hlen
    refine ⟨hnormal.with_neg hne _, by rw [clean_rdx, hrdx], ?_⟩
    rw [BcNum.value_eq, BcNum.sgn, clean_rdx, hrdx, val_clean, productSgn, mul_div_assoc]
  · next hlen =>
    have hnil := List.eq_nil_of_length_eq_zero (not_not.mp hlen)
    have hzero : val 10 m.num = 0 := by rw [← val_clean, hnil, val_nil]
    refine ⟨hnormal, by rw [clean_rdx, hrdx], ?_⟩
    rw [value_of_nil hnil, hzero, Int.cast_zero, zero_div, mul_zero]

theorem retireMul_self {n : BcNum} (h : IsDigits 10 n.num) (scale : ℕ) :
    Normal (retireMul n scale n.neg false) ∧ (retireMul n scale n.neg false).rdx = scale ∧
      (retireMul n scale n.neg false).value = cut 10 scale n.value := by
  have hsgn : (productSgn n.neg false : ℚ) * (val 10 n.num / 10 ^ n.rdx) = n.value := by
    rw [n.value_eq, mul_div_assoc, productSgn, BcNum.sgn, Bool.bne_false]
  rw [← hsgn]
  exact retireMul_spec h scale n.neg false

/-! ### Products of numbers -/

section

variable {a b : BcNum}

/-- How many digits of a product stay behind the point. -/
def mulScale (a b : BcNum) (scale : ℕ) : ℕ :=
  min (a.rdx + b.rdx) (max (max scale a.rdx) b.rdx)

theorem len_shifted (h : Normal a) (places : ℕ) :
    (ulong2num (val 10 a.num * 10 ^ (places - a.rdx)).toNat).len ≤ a.len + places := by
  have hlt := val_lt (by decide) h.digits
  have hnonneg := val_nonneg (by decide) h.digits
  rw [len_le_iff, Int.toNat_lt (mul_nonneg hnonneg (by positivity))]
  push_cast
  calc val 10 a.num * 10 ^ (places - a.rdx)
      < 10 ^ a.len * 10 ^ (places - a.rdx) := mul_lt_mul_of_pos_right hlt (by positivity)
    _ ≤ 10 ^ a.len * 10 ^ places :=
        mul_le_mul_of_nonneg_left (pow_le_pow_right₀ (by decide) (Nat.sub_le _ _)) (by positivity)
    _ = 10 ^ (a.len + places) := (pow_add _ _ _).symm

theorem value_mul_value (a b : BcNum) {m : ℕ} (ha : a.rdx ≤ m) (hb : b.rdx ≤ m) :
    a.value * b.value = (productSgn a.neg b.neg : ℚ) *
      (val 10 a.num * 10 ^ (m - a.rdx) * (val 10 b.num * 10 ^ (m - b.rdx)) : ℤ) / 10 ^ (m + m) := by
  rw [a.value_scaled ha, b.value_scaled hb, ← sgn_mul_sgn, pow_add, div_mul_div_comm]
  push_cast
  ring

/-- The product, cut off at the scale that POSIX asks for. -/
def IsProduct (a b : BcNum) (scale : ℕ) (c : BcNum) : Prop :=
  Normal c ∧ c.rdx = mulScale a b scale ∧
    c.value = cut 10 (mulScale a b scale) (a.value * b.value)

/-- **`zbc_num_mul` multiplies.** -/
theorem mul_spec (ha : Normal a) (hb : Normal b) (scale : ℕ) {fuel : ℕ}
    (hfuel : a.len + b.len + mulScale a b scale < fuel) :
    ResultOr (IsProduct a b scale) (a.len + b.len + 2 * mulScale a b scale)
      (mul fuel a b scale) := by
  have hra : a.rdx ≤ mulScale a b scale := by rw [mulScale]; omega
  have hrb : b.rdx ≤ mulScale a b scale := by rw [mulScale]; omega
  have hmax : max (max a.rdx b.rdx) (mulScale a b scale) = mulScale a b scale := by omega
  rw [mul, numM]
  unfold IsProduct
  dsimp only
  rw [show min (a.rdx + b.rdx) (max (max scale a.rdx) b.rdx) = mulScale a b scale from rfl, hmax]
  generalize mulScale a b scale = m at *
  -- whatever the integers are, the digits of their product are put back
  have hback : ∀ {k : ℕ}, (productSgn a.neg b.neg : ℚ) * k / 10 ^ (m + m) = a.value * b.value →
      ResultOr (fun c => Normal c ∧ c.rdx = m ∧ c.value = cut 10 m (a.value * b.value))
        (a.len + b.len + 2 * m) (pure (retireMul { ulong2num k with
          num := if (ulong2num k).len < m + m then
            (ulong2num k).num ++ List.replicate (m + m) 0 else (ulong2num k).num,
          rdx := m + m } m a.neg b.neg)) := by
    intro k hk
    obtain ⟨n, hn⟩ : ∃ n, n = { ulong2num k with
        num := if (ulong2num k).len < m + m then
          (ulong2num k).num ++ List.replicate (m + m) 0 else (ulong2num k).num,
        rdx := m + m } := ⟨_, rfl⟩
    have hdigits : IsDigits 10 n.num ∧ val 10 n.num = k := by
      subst hn
      dsimp only
      split
      · exact ⟨isDigits_append.mpr ⟨isDigits_ulong2num k, isDigits_replicate_zero (by decide) _⟩,
          (val_append_zeros _ _).trans (val_ulong2num k)⟩
      · exact ⟨isDigits_ulong2num k, val_ulong2num k⟩
    have hspec := retireMul_spec hdigits.1 m a.neg b.neg
    have hrdx : n.rdx = m + m := by rw [hn]
    rw [hdigits.2, hrdx, Int.cast_natCast, ← mul_div_assoc, hk] at hspec
    rw [← hn]
    exact .inl ⟨_, rfl, hspec⟩
  by_cases hzero : a.len = 0 ∨ b.len = 0
  · have hvalue : a.value * b.value = 0 := by
      rcases hzero with h | h
      · rw [value_of_nil (List.eq_nil_of_length_eq_zero h), zero_mul]
      · rw [value_of_nil (List.eq_nil_of_length_eq_zero h), mul_zero]
    refine (shift_cases { a with neg := false } m).bind (fun h => ?_) fun x hx => ?_
    · exact Nat.lt_of_lt_of_le h (by show m + a.len ≤ _; omega)
    refine (shift_cases { b with neg := false } m).bind (fun h => ?_) fun y hy => ?_
    · exact Nat.lt_of_lt_of_le h (by show m + b.len ≤ _; omega)
    have hnum : numK fuel x y = .ok (ulong2num 0) := by
      obtain ⟨fuel, rfl⟩ : ∃ n, fuel = n + 1 := ⟨fuel - 1, by omega⟩
      exact if_pos (hzero.imp hx hy)
    rw [hnum]
    refine hback (k := 0) ?_
    rw [hvalue, Nat.cast_zero, mul_zero, zero_div]
  have hanil : a.num ≠ [] := num_ne_nil_of_len (fun h => hzero (.inl h))
  have hbnil : b.num ≠ [] := num_ne_nil_of_len (fun h => hzero (.inr h))
  have hsa := shift_spec (ha.with_neg hanil false) hanil rfl hra
  have hsb := shift_spec (hb.with_neg hbnil false) hbnil rfl hrb
  have hla := len_shifted ha m
  have hlb := len_shifted hb m
  have hka := ha.scaled_pos hanil m
  have hkb := hb.scaled_pos hbnil m
  have hvalue := value_mul_value a b hra hrb
  dsimp only at hsa hsb
  rw [← Int.toNat_of_nonneg (le_of_lt hka), ← Int.toNat_of_nonneg (le_of_lt hkb)] at hvalue
  generalize (val 10 a.num * 10 ^ (m - a.rdx)).toNat = x at *
  generalize (val 10 b.num * 10 ^ (m - b.rdx)).toNat = y at *
  refine hsa.bind (fun h => ?_) ?_
  · exact Nat.lt_of_lt_of_le h (by show m + a.len ≤ _; omega)
  rintro _ rfl
  refine hsb.bind (fun h => ?_) ?_
  · exact Nat.lt_of_lt_of_le h (by show m + b.len ≤ _; omega)
  rintro _ rfl
  refine (numK_spec (by omega)).bind (fun h => by omega) ?_
  rintro _ rfl
  refine hback ?_
  rw [hvalue]
  push_cast
  rfl

theorem mul_ulong2num (m k : ℕ) {fuel : ℕ}
    (hfuel : (ulong2num m).len + (ulong2num k).len < fuel) :
    ResultOr (· = ulong2num (m * k)) ((ulong2num m).len + (ulong2num k).len)
      (mul fuel (ulong2num m) (ulong2num k) 0) := by
  have hscale : mulScale (ulong2num m) (ulong2num k) 0 = 0 := rfl
  have hlarge : (ulong2num m).len + (ulong2num k).len + mulScale (ulong2num m) (ulong2num k) 0 <
      fuel := hscale ▸ hfuel
  have hspec := mul_spec (normal_ulong2num m) (normal_ulong2num k) 0 hlarge
  refine hspec.mono (fun c hc => hc.1.eq_of_value hc.2.1 ?_) id
  rw [hc.2.2, hscale, value_ulong2num, value_ulong2num]
  refine (cut_of_int (by norm_num) (n := m * k) ?_).trans (Nat.cast_mul m k).symm
  push_cast
  ring

/-! ### Both ways -/

/-- What the loops of `zbc_num_k` make of the digits, where they multiply digit by digit. -/
def schoolbook (a b : BcNum) : BcNum :=
  let c := mulRows a.num 0 0 b.num (List.replicate (a.len + b.len + 1) 0)
  { num := c.1.take c.2 }

/-- The integers that `zbc_num_k` gets. -/
def Natural (n : BcNum) : Prop := Normal n ∧ n.rdx = 0 ∧ n.neg = false

theorem Natural.eq_ulong2num (h : Natural a) : a = ulong2num (val 10 a.num).toNat :=
  h.1.eq_ulong2num h.2.1 h.2.2

/-- **Multiplication is exact** up to the scale of the result, and multiplying in halves gives the
digits of multiplying digit by digit.  Only a number that would be too long is an error. -/
theorem mul_exact (ha : Normal a) (hb : Normal b) (scale : ℕ) :
    (∃ least, ∀ fuel, least < fuel →
      ResultOr (IsProduct a b scale) (a.len + b.len + 2 * mulScale a b scale)
        (mul fuel a b scale)) ∧
    (Natural a → Natural b → 32 ≤ a.len → 32 ≤ b.len → ∃ least, ∀ fuel, least < fuel →
      ResultOr (· = schoolbook a b) (a.len + b.len) (numK fuel a b)) := by
  refine ⟨⟨_, fun fuel h => mul_spec ha hb scale h⟩, fun hna hnb hla hlb => ?_⟩
  refine ⟨max a.len b.len, fun fuel hfuel => ?_⟩
  have hea := hna.eq_ulong2num
  have heb := hnb.eq_ulong2num
  generalize (val 10 a.num).toNat = m at hea
  generalize (val 10 b.num).toNat = k at heb
  subst hea heb
  have hm : m ≠ 0 := by
    rintro rfl
    exact absurd hla (by decide)
  have hk : k ≠ 0 := by
    rintro rfl
    exact absurd hlb (by decide)
  refine (numK_spec hfuel).mono ?_ id
  rintro _ rfl
  exact (mulRows_ulong2num hm hk rfl).symm

theorem mul_tooLong (fuel : ℕ) {scale : ℕ} (hlen : a.len ≠ 0) (hscale : a.rdx ≠ 0)
    (hlong : maxNum < a.rdx + a.len) : mul fuel a b scale = .error .numberTooLong := by
  have hmax : a.rdx ≤ max (max a.rdx b.rdx) (mulScale a b scale) := by omega
  have hshift : shift { a with neg := false } (max (max a.rdx b.rdx) (mulScale a b scale)) =
      .error .numberTooLong :=
    shift_tooLong (by omega) hlen (Nat.lt_of_lt_of_le hlong (Nat.add_le_add_right hmax a.len))
  rw [mul, numM]
  dsimp only
  rw [← mulScale, hshift]
  rfl

end

/-- `0.25 * -1.5`, and the square of a number of 32 ones. -/
theorem mul_exact_quarter :
    (∃ least, ∀ fuel, least < fuel →
      ResultOr (IsProduct { num := [5, 2], rdx := 2 } { num := [5, 1], rdx := 1, neg := true } 2)
        8 (mul fuel { num := [5, 2], rdx := 2 } { num := [5, 1], rdx := 1, neg := true } 2)) ∧
    ∃ least, ∀ fuel, least < fuel →
      ResultOr (· = schoolbook { num := List.replicate 32 1 } { num := List.replicate 32 1 }) 64
        (numK fuel { num := List.replicate 32 1 } { num := List.replicate 32 1 }) :=
  ⟨(mul_exact ⟨by decide, by decide⟩ ⟨by decide, by decide⟩ 2).1,
    (mul_exact (a := { num := List.replicate 32 1 }) (b := { num := List.replicate 32 1 })
      ⟨by decide, by decide⟩ ⟨by decide, by decide⟩ 0).2
      ⟨⟨by decide, by decide⟩, rfl, rfl⟩ ⟨⟨by decide, by decide⟩, rfl, rfl⟩ (by decide) (by decide)⟩

/-- The largest fraction of some digits: `0.99...9`. -/
def nines (n : ℕ) : BcNum := { num := List.replicate (n + 1) 9, rdx := n + 1 }

theorem normal_nines (n : ℕ) : Normal (nines n) := by
  have hdigits : ∀ k, IsDigits 10 (List.replicate k 9) := fun k d hd => by
    rw [List.eq_of_mem_replicate hd]
    exact ⟨by decide, by decide⟩
  have hlen : (nines n).len = n + 1 := List.length_replicate
  have hval : 0 < val 10 (nines n).num := by
    have := val_nonneg (by decide) (hdigits n)
    show 0 < val 10 (List.replicate (n + 1) 9)
    rw [List.replicate_succ, val_cons]
    omega
  exact normal_of_large (hdigits _) hval (by rw [hlen]; exact Nat.le_refl _) (.inl hlen.symm)

/-- Twice the largest fraction of 4294967294 digits is an error. -/
theorem nines_too_long :
    ¬ ∀ a b : BcNum, Normal a → Normal b → ∀ scale, ∃ fuel c,
      mul fuel a b scale = .ok c ∧ IsProduct a b scale c := by
  intro h
  obtain ⟨n, hn⟩ : ∃ n, n = maxNum := ⟨_, rfl⟩
  have hlen : (nines n).len = n + 1 := List.length_replicate
  have hrdx : (nines n).rdx = n + 1 := rfl
  obtain ⟨fuel, c, hc, -⟩ := h (nines n) { num := [2] } (normal_nines n) ⟨by decide, by decide⟩ 0
  rw [mul_tooLong fuel (by omega) (by omega) (by omega)] at hc
  cases hc

end Rustybox.Bc
