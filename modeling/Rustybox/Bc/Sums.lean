import Rustybox.Bc.Compare

/-!
# Sums and differences of numbers of bc

`zbc_num_a` adds the digits of both numbers, shifted so that the points are one above the other:
below it copies what only one of them has, above it carries on along the longer one.  `zbc_num_s`
subtracts the smaller number from the larger one.  Which of them is called depends on the signs.
-/

namespace Rustybox.Bc

open Positional

/-! ### Addition of sizes -/

/-- The digits that `zbc_num_a` puts together: those that only one number has, the sum of the
digits that both have, and the carry along the longer one. -/
theorem sumDigits_spec {low xs ys zs : List ℤ} (hlow : IsDigits 10 low) (hx : IsDigits 10 xs)
    (hy : IsDigits 10 ys) (hlen : xs.length = ys.length) (hz : IsDigits 10 zs) {r : ℕ} {v : ℤ}
    (hv : val 10 low + 10 ^ low.length * (val 10 xs + val 10 ys + 10 ^ xs.length * val 10 zs) = v)
    (hpos : 0 < v) (hr : r ≤ low.length + (xs.length + zs.length))
    (hlarge : r = low.length + (xs.length + zs.length) ∨
      10 ^ (low.length + (xs.length + zs.length)) ≤ 10 * v)
    {both one : List ℤ × ℤ} (hboth : addLoop 0 xs ys = both) (hone : carryLoop both.2 zs = one)
    {n : BcNum} (hn : n.num = low ++ both.1 ++ one.1 ++ if one.2 ≠ 0 then [one.2] else [])
    (hrdx : n.rdx = r) : Normal n ∧ val 10 n.num = v := by
  obtain ⟨h1, h2, h3⟩ := addDigits_spec hx hy hlen hz rfl hboth hone
  rw [List.append_assoc, List.append_assoc, ← List.append_assoc both.1] at hn
  generalize (both.1 ++ one.1 ++ if one.2 ≠ 0 then [one.2] else []) = ds at *
  have hval : val 10 n.num = v := by rw [hn, val_append, h2, hv]
  have hdigits : IsDigits 10 n.num := by
    rw [hn]
    exact isDigits_append.mpr ⟨hlow, h1⟩
  have hnlen : n.len = low.length + ds.length := by rw [BcNum.len, hn, List.length_append]
  refine ⟨normal_of_large hdigits (by rw [hval]; exact hpos) (by omega) ?_, hval⟩
  rcases h3 with hds | ⟨hds, hcarry⟩
  · rw [hnlen, hds, hrdx, hval]
    exact hlarge
  · right
    have hnonneg := val_nonneg (by decide) hlow
    have hmul := mul_le_mul_of_nonneg_left hcarry (by positivity : (0 : ℤ) ≤ 10 ^ low.length)
    rw [hval, hnlen, hds, ← hv, pow_add, pow_succ]
    linarith

section

variable {a b : BcNum}

theorem Normal.large_shifted (h : Normal a) (hne : a.num ≠ []) {m : ℕ} (hm : a.rdx ≤ m) {w : ℤ}
    (hw : 0 ≤ w) :
    m = m + a.int ∨ 10 ^ (m + a.int) ≤ 10 * (val 10 a.num * 10 ^ (m - a.rdx) + w) := by
  rcases h.large hne with heq | ⟨hlt, hlarge⟩
  · left
    rw [BcNum.int, heq, Nat.sub_self, Nat.add_zero]
  · right
    have hexp : m + a.int = a.len + (m - a.rdx) := by rw [BcNum.int]; omega
    have hmul := mul_le_mul_of_nonneg_right hlarge (by positivity : (0 : ℤ) ≤ 10 ^ (m - a.rdx))
    rw [hexp, pow_add]
    linarith

def scaleOf (a b : BcNum) : ℕ := max a.rdx b.rdx

/-- The digits with the points one above the other: those behind the end of the shorter
fraction, and those of both numbers from there on. -/
structure Aligned (a b : BcNum) (low as bs : List ℤ) : Prop where
  low_digits : IsDigits 10 low
  left_digits : IsDigits 10 as
  right_digits : IsDigits 10 bs
  left_length : as.length = min a.rdx b.rdx + a.int
  right_length : bs.length = min a.rdx b.rdx + b.int
  low_length : low.length + min a.rdx b.rdx = scaleOf a b
  val_eq : val 10 low + 10 ^ low.length * (val 10 as + val 10 bs) =
    val 10 a.num * 10 ^ (scaleOf a b - a.rdx) + val 10 b.num * 10 ^ (scaleOf a b - b.rdx)

theorem aligned (ha : IsDigits 10 a.num) (hb : IsDigits 10 b.num) (hra : a.rdx ≤ a.len)
    (hrb : b.rdx ≤ b.len) :
    Aligned a b
      ((if b.rdx < a.rdx then a.num else b.num).take (max a.rdx b.rdx - min a.rdx b.rdx))
      (if b.rdx < a.rdx then a.num.drop (max a.rdx b.rdx - min a.rdx b.rdx) else a.num)
      (if b.rdx < a.rdx then b.num else b.num.drop (max a.rdx b.rdx - min a.rdx b.rdx)) := by
  rw [BcNum.len] at hra hrb
  by_cases hr : b.rdx < a.rdx
  · have hmax : max a.rdx b.rdx = a.rdx := by omega
    have hmin : min a.rdx b.rdx = b.rdx := by omega
    have hsplit := val_take_add_drop (B := 10)
      (show a.rdx - b.rdx ≤ a.num.length by omega)
    have hlen : (a.num.take (a.rdx - b.rdx)).length = a.rdx - b.rdx := by
      rw [List.length_take]
      omega
    rw [if_pos hr, if_pos hr, if_pos hr, hmax, hmin]
    refine ⟨ha.take _, ha.drop _, hb, ?_, ?_, ?_, ?_⟩
    · rw [List.length_drop, hmin, BcNum.int, BcNum.len]
      omega
    · rw [hmin, BcNum.int, BcNum.len]
      omega
    · rw [hlen, hmin, scaleOf, hmax]
      omega
    · rw [hlen, scaleOf, hmax, Nat.sub_self, ← hsplit]
      ring
  · have hmax : max a.rdx b.rdx = b.rdx := by omega
    have hmin : min a.rdx b.rdx = a.rdx := by omega
    have hsplit := val_take_add_drop (B := 10)
      (show b.rdx - a.rdx ≤ b.num.length by omega)
    have hlen : (b.num.take (b.rdx - a.rdx)).length = b.rdx - a.rdx := by
      rw [List.length_take]
      omega
    rw [if_neg hr, if_neg hr, if_neg hr, hmax, hmin]
    refine ⟨hb.take _, ha, hb.drop _, ?_, ?_, ?_, ?_⟩
    · rw [hmin, BcNum.int, BcNum.len]
      omega
    · rw [List.length_drop, hmin, BcNum.int, BcNum.len]
      omega
    · rw [hlen, hmin, scaleOf, hmax]
      omega
    · rw [hlen, scaleOf, hmax, Nat.sub_self, ← hsplit]
      ring

/-- **`zbc_num_a` adds** the sizes of two numbers that are not zero. -/
theorem numA_spec (ha : Normal a) (hb : Normal b) (hanil : a.num ≠ []) (hbnil : b.num ≠ [])
    (sub : Bool) :
    Normal (numA a b sub) ∧ (numA a b sub).rdx = scaleOf a b ∧ (numA a b sub).neg = a.neg ∧
      val 10 (numA a b sub).num = val 10 a.num * 10 ^ (scaleOf a b - a.rdx) +
        val 10 b.num * 10 ^ (scaleOf a b - b.rdx) := by
  have ha1 := ha.scaled_pos hanil (scaleOf a b)
  have hb1 := hb.scaled_pos hbnil (scaleOf a b)
  have hla := ha.large_shifted hanil (Nat.le_max_left a.rdx b.rdx) (le_of_lt hb1)
  have hlb := hb.large_shifted hbnil (Nat.le_max_right a.rdx b.rdx) (le_of_lt ha1)
  obtain ⟨hlow, hxa, hxb, hlena, hlenb, hlenlow, hval⟩ :=
    aligned ha.digits hb.digits (ha.rdx_le hanil) (hb.rdx_le hbnil)
  have hnum := numA.eq_def a b sub
  rw [if_neg (len_ne_zero hanil), if_neg (len_ne_zero hbnil)] at hnum
  dsimp only at hnum
  generalize (if b.rdx < a.rdx then a.num else b.num).take
    (max a.rdx b.rdx - min a.rdx b.rdx) = low at *
  generalize (if b.rdx < a.rdx then a.num.drop (max a.rdx b.rdx - min a.rdx b.rdx)
    else a.num) = xa at *
  generalize (if b.rdx < a.rdx then b.num
    else b.num.drop (max a.rdx b.rdx - min a.rdx b.rdx)) = xb at *
  suffices h : Normal (numA a b sub) ∧ val 10 (numA a b sub).num =
      val 10 a.num * 10 ^ (scaleOf a b - a.rdx) + val 10 b.num * 10 ^ (scaleOf a b - b.rdx) by
    exact ⟨h.1, by rw [hnum, scaleOf], by rw [hnum], h.2⟩
  by_cases hi : b.int < a.int
  · -- the digits of `a` go on above those of `b`
    simp only [hi, if_true] at hnum
    have htake : (xa.take (min a.rdx b.rdx + b.int)).length = xb.length := by
      rw [List.length_take]
      omega
    have hall : xa.take (a.int + min a.rdx b.rdx) = xa := List.take_of_length_le (by omega)
    have hallb : xb.take (min a.rdx b.rdx + b.int) = xb := List.take_of_length_le (by omega)
    have hdrop : (xa.drop (min a.rdx b.rdx + b.int)).length = a.int - b.int := by
      rw [List.length_drop]
      omega
    have hsplit := val_take_add_drop (B := 10)
      (show min a.rdx b.rdx + b.int ≤ xa.length by omega)
    refine sumDigits_spec hlow (hxa.take _) hxb htake (hxa.drop (min a.rdx b.rdx + b.int))
      (r := scaleOf a b) ?_ (by omega) (by omega) ?_ rfl rfl
      (by rw [hnum, hall, hallb]) (by rw [hnum, scaleOf])
    · rw [← hval, htake, hlenb, ← hsplit]
      ring
    · rw [htake, hdrop, show low.length + (xb.length + (a.int - b.int)) = scaleOf a b + a.int by
        omega]
      exact hla
  · simp only [hi, if_false] at hnum
    have htake : xa.length = (xb.take (min a.rdx b.rdx + a.int)).length := by
      rw [List.length_take]
      omega
    have hall : xb.take (b.int + min a.rdx b.rdx) = xb := List.take_of_length_le (by omega)
    have halla : xa.take (min a.rdx b.rdx + a.int) = xa := List.take_of_length_le (by omega)
    have hdrop : (xb.drop (min a.rdx b.rdx + a.int)).length = b.int - a.int := by
      rw [List.length_drop]
      omega
    have hsplit := val_take_add_drop (B := 10)
      (show min a.rdx b.rdx + a.int ≤ xb.length by omega)
    refine sumDigits_spec hlow hxa (hxb.take _) htake (hxb.drop (min a.rdx b.rdx + a.int))
      (r := scaleOf a b) ?_ (by omega) (by omega) ?_ rfl rfl
      (by rw [hnum, hall, halla]) (by rw [hnum, scaleOf])
    · rw [← hval, hlena, ← hsplit]
      ring
    · rw [hdrop, show low.length + (xa.length + (b.int - a.int)) = scaleOf a b + b.int by
        omega, add_comm (val 10 a.num * _)]
      exact hlb

/-! ### Subtraction of sizes -/

theorem isDigits_extend (h : IsDigits 10 a.num) (places : ℕ) : IsDigits 10 (extend a places).num :=
  isDigits_append.mpr ⟨isDigits_replicate_zero (by decide) _, h⟩

theorem val_extend (a : BcNum) (places : ℕ) :
    val 10 (extend a places).num = val 10 a.num * 10 ^ places := by
  rw [extend, val_zeros_append, mul_comm]

theorem len_extend (a : BcNum) (places : ℕ) : (extend a places).len = places + a.len := by
  rw [BcNum.len, extend, List.length_append, List.length_replicate, BcNum.len]

theorem extend_to (h : IsDigits 10 a.num) (r : ℕ) {c : BcNum}
    (hc : c = if a.rdx < r then extend a (r - a.rdx) else a) :
    IsDigits 10 c.num ∧ c.rdx = max a.rdx r ∧ c.len = a.len + (max a.rdx r - a.rdx) ∧
      val 10 c.num = val 10 a.num * 10 ^ (max a.rdx r - a.rdx) := by
  subst hc
  split
  · next hlt =>
    have hmax : max a.rdx r = r := by omega
    refine ⟨isDigits_extend h _, ?_, ?_, ?_⟩
    · show a.rdx + (r - a.rdx) = _
      omega
    · rw [len_extend, hmax]
      omega
    · rw [val_extend, hmax]
  · next hge =>
    have hmax : max a.rdx r = a.rdx := by omega
    rw [hmax, Nat.sub_self, pow_zero, mul_one]
    exact ⟨h, rfl, rfl, rfl⟩

theorem subDigits_spec (ha : Normal a) (hb : Normal b) (hrb : b.rdx ≤ b.len)
    (hlt : val 10 b.num * 10 ^ (scaleOf a b - b.rdx) < val 10 a.num * 10 ^ (scaleOf a b - a.rdx))
    (neg : Bool) {c : BcNum} (hc : c = if a.rdx < b.rdx then extend a (b.rdx - a.rdx) else a)
    {n : BcNum} (hn : n = clean { c with
      num := c.num.take (c.rdx - b.rdx) ++ subArrays (c.num.drop (c.rdx - b.rdx)) b.num,
      neg := neg }) :
    Normal n ∧ n.rdx = scaleOf a b ∧ n.neg = neg ∧
      val 10 n.num = val 10 a.num * 10 ^ (scaleOf a b - a.rdx) -
        val 10 b.num * 10 ^ (scaleOf a b - b.rdx) := by
  obtain ⟨hdigits, hrdx, hlen, hval⟩ := extend_to ha.digits b.rdx hc
  have hra : a.rdx ≤ a.len := ha.rdx_le (by
    intro hnil
    rw [hnil, val_nil, zero_mul] at hlt
    exact absurd hlt (not_lt.mpr (mul_nonneg (val_nonneg (by decide) hb.digits) (by positivity))))
  have hm : scaleOf a b = max a.rdx b.rdx := rfl
  rw [hm] at hlt ⊢
  rw [← hval] at hlt ⊢
  rw [hrdx] at hn
  generalize hstart : max a.rdx b.rdx - b.rdx = start at *
  have hint : b.int ≤ a.int := by
    by_contra hgt
    have hval' := val_lt_of_int_lt hb ha (not_le.mp hgt) (Nat.le_max_right a.rdx b.rdx)
      (Nat.le_max_left a.rdx b.rdx)
    rw [hstart, ← hval] at hval'
    omega
  simp only [BcNum.int, BcNum.len] at hint hra hrb hlen
  have hstartle : start ≤ c.num.length := by omega
  have hsplit := val_take_add_drop (B := 10) hstartle
  have hlow := val_lt (by decide) (hdigits.take start)
  have hlow' := val_nonneg (by decide) (hdigits.take start)
  rw [List.length_take, Nat.min_eq_left hstartle] at hlow
  have hpow : (0 : ℤ) < 10 ^ start := by positivity
  -- what is below the last digit of the smaller number cannot make up for a missing unit
  have hle : val 10 b.num ≤ val 10 (c.num.drop start) := by
    by_contra hgt
    have hmul := mul_le_mul_of_nonneg_left (Int.add_one_le_iff.mpr (not_le.mp hgt)) (le_of_lt hpow)
    rw [mul_add, mul_one, mul_comm _ (val 10 b.num)] at hmul
    omega
  obtain ⟨h1, h2, h3⟩ := subArrays_spec (hdigits.drop start) hb.digits (by
    rw [List.length_drop]
    omega) hle
  have hnum : IsDigits 10 (c.num.take start ++ subArrays (c.num.drop start) b.num) :=
    isDigits_append.mpr ⟨hdigits.take start, h1⟩
  have hvaln : val 10 (c.num.take start ++ subArrays (c.num.drop start) b.num) =
      val 10 c.num - val 10 b.num * 10 ^ start := by
    rw [val_append, List.length_take, Nat.min_eq_left hstartle, h3, ← hsplit]
    linarith
  subst hn
  refine ⟨normal_clean hnum, ?_, ?_, ?_⟩
  · rw [clean_rdx]
  · refine clean_neg (n := BcNum.mk _ _ _) hnum ?_
    rw [hvaln]
    omega
  · rw [val_clean, hvaln]

theorem value_of_scaled {n : BcNum} {m : ℕ} (hrdx : n.rdx = m) {v : ℤ}
    (h : n.sgn * val 10 n.num = v) : n.value = (v : ℚ) / 10 ^ m := by
  rw [n.value_eq, hrdx, ← h]
  push_cast
  rfl

theorem cmp_sizes (ha : Normal a) (hb : Normal b) (hanil : a.num ≠ []) (hbnil : b.num ≠ []) :
    SameSign (cmp { a with neg := false } { b with neg := false })
      (val 10 a.num * 10 ^ (scaleOf a b - a.rdx) - val 10 b.num * 10 ^ (scaleOf a b - b.rdx)) := by
  have hspec := cmp_spec (ha.with_neg hanil false) (hb.with_neg hbnil false)
    (fun h => Bool.false_ne_true h.1) (m := scaleOf a b) rfl
  rw [scaled_eq, scaled_eq] at hspec
  exact hspec

/-- The sign that the second number counts with. -/
def signed (sub : Bool) (b : BcNum) : ℤ := if sub then -b.sgn else b.sgn

theorem sgn_signed (b : BcNum) (sub : Bool) {n : BcNum}
    (hn : n.neg = if sub then !b.neg else b.neg) : n.sgn = signed sub b := by
  rw [BcNum.sgn, hn, signed, BcNum.sgn]
  cases sub with
  | false => rfl
  | true => cases b.neg <;> rfl

/-- **`zbc_num_s` adds** two numbers that are not zero and count with different signs. -/
theorem numS_spec (ha : Normal a) (hb : Normal b) (hanil : a.num ≠ []) (hbnil : b.num ≠ [])
    {sub : Bool} (hsigns : signed sub b = -a.sgn) :
    Normal (numS a b sub) ∧ (numS a b sub).rdx = scaleOf a b ∧
      (numS a b sub).sgn * val 10 (numS a b sub).num =
        a.sgn * (val 10 a.num * 10 ^ (scaleOf a b - a.rdx)) +
        signed sub b * (val 10 b.num * 10 ^ (scaleOf a b - b.rdx)) := by
  have hcmp := cmp_sizes ha hb hanil hbnil
  have hnum := numS.eq_def a b sub
  rw [if_neg (len_ne_zero hanil), if_neg (len_ne_zero hbnil)] at hnum
  dsimp only at hnum
  obtain ⟨hneg, hpos⟩ := hcmp
  generalize cmp { a with neg := false } { b with neg := false } = c at *
  rcases lt_trichotomy c 0 with hlt | rfl | hgt
  · -- `b` is larger, and its sign is that of the result
    simp only [ne_of_lt hlt, if_false, not_lt.mpr (le_of_lt hlt)] at hnum
    have hsize := sub_neg.mp (hneg.mp hlt)
    have hcomm : scaleOf b a = scaleOf a b := Nat.max_comm _ _
    obtain ⟨h1, h2, h3, h4⟩ := subDigits_spec hb ha (ha.rdx_le hanil)
      (by rwa [hcomm]) (if sub then !b.neg else b.neg) rfl hnum
    refine ⟨h1, h2.trans hcomm, ?_⟩
    rw [h4, sgn_signed b sub h3, hsigns, hcomm]
    ring
  · have hsize : val 10 a.num * 10 ^ (scaleOf a b - a.rdx) =
        val 10 b.num * 10 ^ (scaleOf a b - b.rdx) := by omega
    simp only [if_true] at hnum
    rw [hnum, hsigns, hsize]
    refine ⟨Normal.zero _, rfl, ?_⟩
    rw [neg_mul, add_neg_cancel]
    exact mul_zero _
  · simp only [ne_of_gt hgt, if_false, hgt, if_true] at hnum
    have hsize := sub_pos.mp (hpos.mp hgt)
    obtain ⟨h1, h2, h3, h4⟩ := subDigits_spec ha hb (hb.rdx_le hbnil) hsize a.neg rfl hnum
    refine ⟨h1, h2, ?_⟩
    rw [h4, hsigns, BcNum.sgn, h3, ← BcNum.sgn]
    ring

/-! ### The operations -/

/-- `zbc_num_add` and `zbc_num_sub` in one. -/
def addSub (a b : BcNum) (sub : Bool) : BcNum :=
  if signed sub b = a.sgn then numA a b sub else numS a b sub

theorem add_eq (a b : BcNum) : add a b = addSub a b false := by
  rw [add, addSub, signed, BcNum.sgn, BcNum.sgn]
  cases a.neg <;> cases b.neg <;> rfl

theorem sub_eq (a b : BcNum) : sub a b = addSub a b true := by
  rw [sub, addSub, signed, BcNum.sgn, BcNum.sgn]
  cases a.neg <;> cases b.neg <;> rfl

theorem sgn_eq_or (n : BcNum) : n.sgn = 1 ∨ n.sgn = -1 := by
  rw [BcNum.sgn]
  split
  · exact .inr rfl
  · exact .inl rfl

theorem signed_eq_neg {sub : Bool} (h : signed sub b ≠ a.sgn) : signed sub b = -a.sgn := by
  have ha := sgn_eq_or a
  have hb := sgn_eq_or b
  rw [signed] at h ⊢
  cases sub with
  | false =>
    simp only [Bool.false_eq_true, if_false] at h ⊢
    omega
  | true =>
    simp only [if_true] at h ⊢
    omega

theorem signed_value (sub : Bool) {m : ℕ} (hm : b.rdx ≤ m) :
    ((signed sub b * (val 10 b.num * 10 ^ (m - b.rdx)) : ℤ) : ℚ) / 10 ^ m =
      if sub then -b.value else b.value := by
  cases sub with
  | false => exact (b.value_scaled hm).symm
  | true =>
    have hneg : signed true b * (val 10 b.num * 10 ^ (m - b.rdx)) =
        -(b.sgn * (val 10 b.num * 10 ^ (m - b.rdx))) := neg_mul _ _
    rw [hneg, Int.cast_neg, neg_div, ← b.value_scaled hm, if_pos rfl]

theorem addSub_nil (hb : Normal b) (hanil : a.num = []) (sub : Bool) :
    Normal (addSub a b sub) ∧ (addSub a b sub).value = if sub then -b.value else b.value := by
  have hnum : addSub a b sub = if sub ∧ b.len ≠ 0 then { b with neg := !b.neg } else b := by
    rw [addSub, numA, numS, if_pos (len_of_nil hanil), if_pos (len_of_nil hanil), ite_self]
  rw [hnum]
  by_cases hbnil : b.num = []
  · rw [if_neg (fun h => h.2 (len_of_nil hbnil)), value_of_nil hbnil, neg_zero, ite_self]
    exact ⟨hb, rfl⟩
  cases sub with
  | false =>
    rw [if_neg (fun h => Bool.false_ne_true h.1)]
    exact ⟨hb, rfl⟩
  | true =>
    rw [if_pos ⟨rfl, len_ne_zero hbnil⟩]
    refine ⟨hb.with_neg hbnil _, ?_⟩
    have hsgn := sgn_signed b true (n := { b with neg := !b.neg }) rfl
    rw [BcNum.value_eq, hsgn, if_pos rfl, b.value_eq, signed, if_pos rfl]
    push_cast
    ring

/-- **Sums and differences are exact.** -/
theorem addSub_spec (ha : Normal a) (hb : Normal b) (sub : Bool) :
    Normal (addSub a b sub) ∧
      (addSub a b sub).value = a.value + if sub then -b.value else b.value := by
  by_cases hanil : a.num = []
  · rw [value_of_nil hanil, zero_add]
    exact addSub_nil hb hanil sub
  by_cases hbnil : b.num = []
  · have hnum : addSub a b sub = a := by
      rw [addSub, numA, numS, if_neg (len_ne_zero hanil), if_neg (len_ne_zero hanil),
        if_pos (len_of_nil hbnil), if_pos (len_of_nil hbnil), ite_self]
    rw [hnum, value_of_nil hbnil, neg_zero, ite_self, add_zero]
    exact ⟨ha, rfl⟩
  have hma : a.rdx ≤ scaleOf a b := Nat.le_max_left _ _
  have hmb : b.rdx ≤ scaleOf a b := Nat.le_max_right _ _
  rw [← signed_value sub hmb, a.value_scaled hma, ← add_div, ← Int.cast_add, addSub]
  split
  · next hsigns =>
    obtain ⟨h1, h2, h3, h4⟩ := numA_spec ha hb hanil hbnil sub
    refine ⟨h1, value_of_scaled h2 ?_⟩
    rw [h4, hsigns, BcNum.sgn, h3, ← BcNum.sgn]
    ring
  · next hsigns =>
    obtain ⟨h1, h2, h3⟩ := numS_spec ha hb hanil hbnil (signed_eq_neg hsigns)
    exact ⟨h1, value_of_scaled h2 h3⟩

end

end Rustybox.Bc
