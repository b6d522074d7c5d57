import Rustybox.Bc.Quotients

/-!
# Powers of numbers of bc

`zbc_num_p` squares until the exponent is odd, and then squares on and multiplies by the squares
that the exponent has.  It asks for a scale that no product needs more than, and cuts off digits
once, at the end.

Before it looks at the length of the exponent it looks at its digits behind the point, for a zero
at what stands in the memory behind it.

* `pow_exact`: the power is cut off once.
-/

namespace Rustybox.Bc

open Positional Truncation

/-- `zbc_num_inv`. -/
def inv (fuel : ℕ) (a : BcNum) (scale : ℕ) : Except Err BcNum := div fuel one a scale

/-- The first loop of `zbc_num_p`: the square, its scale and what is left of the exponent. -/
def squareLoop (fuel : ℕ) : ℕ → BcNum → ℕ → ℕ → Except Err (BcNum × ℕ × ℕ)
  | 0, _, _, _ => .error .unfinished
  | turns + 1, copy, powrdx, pow =>
    if pow % 2 ≠ 0 then .ok (copy, powrdx, pow)
    else do
      let powrdx := powrdx * 2 % 2 ^ 64
      let copy ← mul fuel copy copy powrdx
      squareLoop fuel turns copy powrdx (pow / 2)

/-- The second loop of `zbc_num_p`: `c` is the product so far. -/
def powLoop (fuel : ℕ) : ℕ → BcNum → ℕ → BcNum → ℕ → ℕ → Except Err BcNum
  | 0, _, _, _, _, _ => .error .unfinished
  | turns + 1, copy, powrdx, c, resrdx, pow =>
    if pow = 0 then .ok c
    else do
      let powrdx := powrdx * 2 % 2 ^ 64
      let copy ← mul fuel copy copy powrdx
      if pow % 2 ≠ 0 then do
        let resrdx := (resrdx + powrdx) % 2 ^ 64
        let c ← mul fuel c copy resrdx
        powLoop fuel turns copy powrdx c resrdx (pow / 2)
      else powLoop fuel turns copy powrdx c resrdx (pow / 2)

/-- The scale of a power that is not an inverse. -/
def powScale (a : BcNum) (pow scale : ℕ) : ℕ :=
  let scale := if scale < a.rdx then a.rdx else scale
  if a.rdx * pow % 2 ^ 64 < scale then a.rdx * pow % 2 ^ 64 else scale

/-- The end of `zbc_num_p`, which does not clean the number. -/
def retirePow (c : BcNum) (scale : ℕ) : BcNum :=
  let c := if scale < c.rdx then truncate c (c.rdx - scale) else c
  if c.num.any (· ≠ 0) then c else setToZero scale

/-- `zbc_num_p`; `behind` is what stands in the memory behind the digits of the exponent. -/
def numP (fuel : ℕ) (behind : List ℤ) (a b : BcNum) (scale : ℕ) : Except Err BcNum :=
  if ((b.num ++ behind).take b.rdx).any (· ≠ 0) then .error .notInteger
  else if b.len = 0 then .ok one
  else if a.len = 0 then .ok (setToZero scale)
  else if isOne b then if b.neg then inv fuel a scale else .ok a
  else do
    let pow ← ulongAbs b
    let scale := if b.neg then scale else powScale a pow scale
    let (copy, powrdx, pow) ← squareLoop fuel fuel a a.rdx pow
    let c ← powLoop fuel fuel copy powrdx copy powrdx (pow / 2)
    let c ← if b.neg then inv fuel c scale else pure c
    pure (retirePow c scale)

/-- `zbc_num_pow`. -/
def pow (fuel : ℕ) (behind : List ℤ) (a b : BcNum) (scale : ℕ) : Except Err BcNum :=
  numP fuel behind a b scale

/-! ### Cutting off without cleaning -/

section

variable {a b : BcNum}

theorem Normal.truncate (h : Normal a) (hne : a.num ≠ []) {places : ℕ} (hp : places ≤ a.rdx)
    (hv : 0 < val 10 (truncate a places).num) : Normal (truncate a places) := by
  have hrdx := h.rdx_le hne
  have hlen : (Bc.truncate a places).len = a.len - places := List.length_drop
  have hrdx' : (Bc.truncate a places).rdx = a.rdx - places := rfl
  refine normal_of_large (h.digits.drop _) hv (by omega) ?_
  rcases Nat.lt_or_eq_of_le hrdx with hlt | heq
  · obtain ⟨ds, d, hnum, hd⟩ := h.getLast_ne hlt
    have hlen' := congrArg List.length hnum
    rw [List.length_append, List.length_singleton] at hlen'
    rw [BcNum.len] at hlt
    have hdrop : (Bc.truncate a places).num = ds.drop places ++ [d] := by
      show a.num.drop places = _
      rw [hnum, List.drop_append_of_le_length (by omega)]
    have hdigits := h.digits.drop places
    rw [show a.num.drop places = (Bc.truncate a places).num from rfl, hdrop] at hdigits
    rw [BcNum.len, hdrop]
    exact .inr (large_of_concat hdigits hd)
  · left
    omega

theorem retirePow_eq (h : Normal a) {k : ℕ} (hk : k ≤ a.rdx) :
    retirePow a k = retireMul a k a.neg false := by
  have hif : (if k < a.rdx then truncate a (a.rdx - k) else a) = truncate a (a.rdx - k) := by
    split
    · rfl
    · next hge =>
      rw [Nat.sub_eq_zero_of_le (not_lt.mp hge)]
      rfl
  have hdigits : IsDigits 10 (truncate a (a.rdx - k)).num := h.digits.drop _
  have hrdx : (truncate a (a.rdx - k)).rdx = k := Nat.sub_sub_self hk
  rw [retirePow, hif, retireMul, if_neg (not_lt.mpr hk)]
  by_cases hv : 0 < val 10 (truncate a (a.rdx - k)).num
  · have hne : a.num ≠ [] := by
      intro hnil
      rw [truncate, hnil, List.drop_nil, val_nil] at hv
      exact absurd hv (lt_irrefl 0)
    have hnormal := h.truncate hne (Nat.sub_le _ _) hv
    have hnum : (truncate a (a.rdx - k)).num ≠ [] := by
      intro hnil
      rw [hnil, val_nil] at hv
      exact absurd hv (lt_irrefl 0)
    rw [if_pos ((any_ne_zero hdigits).mpr hv), hnormal.cleaned, if_pos (len_ne_zero hnum),
      Bool.bne_false]
    rfl
  · have hzero : val 10 (truncate a (a.rdx - k)).num = 0 :=
      le_antisymm (not_lt.mp hv) (val_nonneg (by decide) hdigits)
    have hclean : clean (truncate a (a.rdx - k)) = setToZero k := by
      rw [clean, if_pos ((val_eq_zero_iff hdigits).mp hzero), hrdx]
      rfl
    rw [if_neg (mt (any_ne_zero hdigits).mp hv), hclean]
    exact (if_neg fun h => h rfl).symm

/-- **The end of `zbc_num_p`** cuts off. -/
theorem retirePow_spec (h : Normal a) {k : ℕ} (hk : k ≤ a.rdx) :
    Normal (retirePow a k) ∧ (retirePow a k).rdx = k ∧
      (retirePow a k).value = cut 10 k a.value := by
  rw [retirePow_eq h hk]
  exact retireMul_self h.digits k

/-! ### Powers in digits -/

/-- A power, with all its digits behind the point, and a scale that fits in a `size_t`. -/
structure Power (a : BcNum) (k : ℕ) (n : BcNum) : Prop where
  normal : Normal n
  value_eq : n.value = a.value ^ k
  rdx_eq : n.rdx = a.rdx * k
  fits : a.rdx * k < 2 ^ 64

theorem Power.one (h : Normal a) (hsize : a.rdx < 2 ^ 64) : Power a 1 a :=
  ⟨h, (pow_one _).symm, (Nat.mul_one _).symm, by rwa [Nat.mul_one]⟩

theorem Power.len_le {n : BcNum} {k : ℕ} (h : Power a k n) (ha : Normal a) (hne : a.num ≠ [])
    (hk : k ≠ 0) : n.len ≤ a.len * k := by
  have hrdx := ha.rdx_le hne
  have ha' : |a.value| < 10 ^ a.int := by
    have hlt : val 10 a.num < 10 ^ (a.int + a.rdx) := by
      rw [BcNum.int, Nat.sub_add_cancel hrdx]
      exact val_lt (by decide) ha.digits
    rw [abs_value a ha, div_lt_iff₀ (by positivity), ← pow_add]
    exact_mod_cast hlt
  have hlt : |n.value| < 10 ^ (a.int * k) := by
    rw [h.value_eq, abs_pow, pow_mul]
    exact pow_lt_pow_left₀ ha' (abs_nonneg _) hk
  have hlen := h.normal.len_le hlt
  rw [h.rdx_eq, ← Nat.add_mul, BcNum.int, Nat.sub_add_cancel hrdx] at hlen
  exact hlen

/-- **The product of two powers** is exact at the scale of both together. -/
theorem Power.product {c d : BcNum} {j k scale fuel : ℕ} (hc : Power a j c) (hd : Power a k d)
    (ha : Normal a) (hne : a.num ≠ []) (hj : j ≠ 0) (hk : k ≠ 0) (hscale : scale = a.rdx * (j + k))
    (hfits : a.rdx * (j + k) < 2 ^ 64) (hfuel : (a.len + a.rdx) * (j + k) < fuel) :
    ResultOr (Power a (j + k)) ((a.len + 2 * a.rdx) * (j + k)) (mul fuel c d scale) := by
  have hlc := hc.len_le ha hne hj
  have hld := hd.len_le ha hne hk
  have hrc := hc.rdx_eq
  have hrd := hd.rdx_eq
  have hmul : mulScale c d scale = c.rdx + d.rdx := by
    rw [mulScale, hscale, hrc, hrd, mul_add]
    omega
  have hlarge : c.len + d.len + mulScale c d scale < fuel := by
    rw [hmul, hrc, hrd]
    linarith
  have hprod := mul_spec hc.normal hd.normal scale hlarge
  refine hprod.mono (fun n hn => ⟨hn.1, ?_, ?_, hfits⟩) (fun h => ?_)
  · rw [hn.2.2, hmul, cut_product, hc.value_eq, hd.value_eq, pow_add]
  · rw [hn.2.1, hmul, hrc, hrd, mul_add]
  · rw [hmul, hrc, hrd] at h
    linarith

theorem Power.num_ne_nil {n : BcNum} {k : ℕ} (h : Power a k n) (ha : Normal a) (hne : a.num ≠ []) :
    n.num ≠ [] := by
  intro hnil
  have hvalue := h.value_eq
  rw [value_of_nil hnil] at hvalue
  exact pow_ne_zero k (ha.value_ne_zero hne) hvalue.symm

/-- **A squaring** of the loops: where its scale does not fit in a `size_t`, the number has been too
long before. -/
theorem Power.square {copy : BcNum} {k powrdx fuel : ℕ} (h : Power a k copy) (ha : Normal a)
    (hne : a.num ≠ []) (hk : k ≠ 0) (hrdx : powrdx = a.rdx * k)
    (hfuel : (a.len + a.rdx) * (k + k) < fuel) :
    ResultOr (fun c => Power a (k + k) c ∧ a.rdx * k ≤ maxNum ∧
        powrdx * 2 % 2 ^ 64 = a.rdx * (k + k)) ((a.len + 2 * a.rdx) * (k + k))
      (mul fuel copy copy (powrdx * 2 % 2 ^ 64)) := by
  have hle := h.len_le ha hne hk
  have hcopy := h.rdx_eq
  have hnum := h.num_ne_nil ha hne
  by_cases hlong : maxNum < a.rdx * k
  · have hmul : mul fuel copy copy (powrdx * 2 % 2 ^ 64) = .error .numberTooLong :=
      mul_tooLong fuel (len_ne_zero hnum) (by omega) (by omega)
    refine .inr ⟨hmul, ?_⟩
    linarith
  · have hfits : a.rdx * (k + k) < 2 ^ 64 := by
      rw [maxNum] at hlong
      rw [mul_add]
      omega
    have hmod : powrdx * 2 % 2 ^ 64 = a.rdx * (k + k) := by
      rw [hrdx, mul_assoc, mul_two]
      exact Nat.mod_eq_of_lt hfits
    refine (h.product h ha hne hk hk hmod hfits hfuel).mono (fun c hc => ?_) id
    exact ⟨hc, not_lt.mp hlong, hmod⟩

theorem squareLoop_spec (ha : Normal a) (hne : a.num ≠ []) {e fuel : ℕ}
    (hfuel : (a.len + a.rdx) * e < fuel) {turns : ℕ} : ∀ {copy : BcNum} {k powrdx pow : ℕ},
    Power a k copy → k ≠ 0 → powrdx = a.rdx * k → pow ≠ 0 → k * pow = e → pow < turns →
    ResultOr (fun r => ∃ k', k' ≠ 0 ∧ Power a k' r.1 ∧ r.2.1 = a.rdx * k' ∧ r.2.2 % 2 ≠ 0 ∧
      k' * r.2.2 = e) ((a.len + 2 * a.rdx) * e) (squareLoop fuel turns copy powrdx pow) := by
  induction turns with
  | zero => exact fun _ _ _ _ _ h => absurd h (Nat.not_lt_zero _)
  | succ turns ih =>
    intro copy k powrdx pow hcopy hk hrdx hpow he hturns
    rw [squareLoop]
    by_cases hodd : pow % 2 ≠ 0
    · rw [if_pos hodd]
      exact .ok ⟨k, hk, hcopy, hrdx, hodd, he⟩
    · have hhalf : (k + k) * (pow / 2) = e := by
        rw [← he, ← two_mul, mul_comm 2, mul_assoc]
        congr 1
        omega
      have hle : k + k ≤ e := by
        rw [← hhalf]
        exact Nat.le_mul_of_pos_right _ (by omega)
      rw [if_neg hodd]
      refine (hcopy.square ha hne hk hrdx ?_).bind (fun h => ?_) fun c hc => ?_
      · exact Nat.lt_of_le_of_lt (Nat.mul_le_mul_left _ hle) hfuel
      · exact Nat.lt_of_lt_of_le h (Nat.mul_le_mul_left _ hle)
      · exact ih hc.1 (by omega) hc.2.2 (by omega) hhalf (by omega)

theorem powLoop_spec (ha : Normal a) (hne : a.num ≠ []) {e fuel : ℕ}
    (hfuel : (a.len + a.rdx) * e < fuel) {turns : ℕ} :
    ∀ {copy c : BcNum} {j k powrdx resrdx pow : ℕ},
    Power a k copy → k ≠ 0 → powrdx = a.rdx * k → Power a j c → j ≠ 0 → j < k + k →
    resrdx = a.rdx * j → j + (k + k) * pow = e → pow < turns →
    ResultOr (Power a e) ((a.len + 2 * a.rdx) * e)
      (powLoop fuel turns copy powrdx c resrdx pow) := by
  induction turns with
  | zero => exact fun _ _ _ _ _ _ _ _ h => absurd h (Nat.not_lt_zero _)
  | succ turns ih =>
    intro copy c j k powrdx resrdx pow hcopy hk hrdx hc hj hjk hres he hturns
    rw [powLoop]
    by_cases hpow : pow = 0
    · rw [if_pos hpow]
      rw [hpow, mul_zero, add_zero] at he
      rw [← he]
      exact .ok hc
    rw [if_neg hpow]
    have hle : j + (k + k) ≤ e := by
      have := Nat.le_mul_of_pos_right (k + k) (Nat.pos_of_ne_zero hpow)
      omega
    have hfuel' : ∀ {n}, n ≤ e → (a.len + a.rdx) * n < fuel := fun h =>
      Nat.lt_of_le_of_lt (Nat.mul_le_mul_left _ h) hfuel
    have hlimit : ∀ {n}, n ≤ e → maxNum < (a.len + 2 * a.rdx) * n →
        maxNum < (a.len + 2 * a.rdx) * e := fun h hlong =>
      Nat.lt_of_lt_of_le hlong (Nat.mul_le_mul_left _ h)
    have hsplit : (k + k) * pow = (k + k) * (pow % 2) + (k + k + (k + k)) * (pow / 2) := by
      conv => lhs; rw [← Nat.mod_add_div pow 2]
      ring
    refine (hcopy.square ha hne hk hrdx (hfuel' (by omega))).bind (hlimit (by omega)) ?_
    rintro d ⟨hd, hshort, hmod⟩
    by_cases hodd : pow % 2 ≠ 0
    · have hsum : a.rdx * (j + (k + k)) = a.rdx * j + a.rdx * (k + k) := mul_add _ _ _
      have hfits : a.rdx * (j + (k + k)) < 2 ^ 64 := by
        have hjle : a.rdx * j ≤ a.rdx * (k + k) := Nat.mul_le_mul_left _ (le_of_lt hjk)
        have hkk : a.rdx * (k + k) = a.rdx * k + a.rdx * k := mul_add _ _ _
        rw [maxNum] at hshort
        omega
      have hres' : (resrdx + powrdx * 2 % 2 ^ 64) % 2 ^ 64 = a.rdx * (j + (k + k)) := by
        rw [hmod, hres, ← hsum]
        exact Nat.mod_eq_of_lt hfits
      have hone : pow % 2 = 1 := by omega
      rw [hone, mul_one] at hsplit
      rw [if_pos hodd]
      refine (hc.product hd ha hne hj (by omega) hres' hfits (hfuel' hle)).bind (hlimit hle)
        fun c' hc' => ?_
      exact ih hd (by omega) hmod hc' (by omega) (by omega) hres' (by omega) (by omega)
    · have hzero : pow % 2 = 0 := not_not.mp hodd
      rw [hzero, mul_zero, zero_add] at hsplit
      rw [if_neg hodd]
      exact ih hd (by omega) hmod hc hj (by omega) hres (by omega) (by omega)

/-! ### The exponent -/

/-- A number that is an integer has zeros behind the point, and `zbc_num_ulong_abs` reads what is
before it. -/
theorem integer_spec (h : Normal b) (hne : b.num ≠ []) {z : ℤ} (hz : b.value = z) :
    (b.num.take b.rdx).any (· ≠ 0) = false ∧ (z.natAbs < 2 ^ 64 → ulongAbs b = .ok z.natAbs) := by
  have hval : val 10 b.num = z.natAbs * 10 ^ b.rdx := by
    have habs := abs_value b h
    rw [hz, eq_div_iff (by positivity)] at habs
    have habs' : |z| * 10 ^ b.rdx = val 10 b.num := by exact_mod_cast habs
    rw [← habs', Int.natCast_natAbs]
  have hpos := h.val_pos hne
  have hlow := val_take (by decide) h.digits b.rdx
  have hhigh := val_drop (by decide) h.digits b.rdx
  rw [hval, Int.mul_emod_left] at hlow
  rw [hval, Int.mul_ediv_cancel _ (by positivity)] at hhigh
  constructor
  · by_contra hany
    have := (any_ne_zero (h.digits.take b.rdx)).mp (by simpa using hany)
    omega
  · intro hlt
    have hdrop : 0 < val 10 (truncate b b.rdx).num := by
      show 0 < val 10 (b.num.drop b.rdx)
      rw [hhigh]
      by_contra hzero
      rw [show (z.natAbs : ℤ) = 0 by omega, zero_mul] at hval
      omega
    have hnormal := h.truncate hne (Nat.le_refl _) hdrop
    have hnum : b.num.drop b.rdx = (ulong2num z.natAbs).num := by
      have hne' : (truncate b b.rdx).num ≠ [] := fun hnil => by
        rw [hnil, val_nil] at hdrop
        exact absurd hdrop (lt_irrefl 0)
      have heq := (hnormal.with_neg hne' false).eq_ulong2num (Nat.sub_self _) rfl
      have hnum := congrArg BcNum.num heq
      rw [show val 10 ({ truncate b b.rdx with neg := false } : BcNum).num = z.natAbs from hhigh,
        Int.toNat_natCast] at hnum
      exact hnum
    have hread := ulong_ulong2num hlt
    have hulong : ulong (ulong2num z.natAbs) = ulongLoop 0 (ulong2num z.natAbs).num.reverse := rfl
    rw [hulong, ← hnum] at hread
    exact hread

theorem powScale_eq {k : ℕ} (h : a.rdx * k < 2 ^ 64) (scale : ℕ) :
    powScale a k scale = min (a.rdx * k) (max scale a.rdx) := by
  rw [powScale, Nat.mod_eq_of_lt h]
  split
  · split <;> omega
  · split <;> omega

/-! ### Powers -/

def IsPower (a : BcNum) (z : ℤ) (scale : ℕ) (c : BcNum) : Prop :=
  Normal c ∧
    (0 ≤ z → c.value =
      cut 10 (min (a.rdx * z.natAbs) (max scale a.rdx)) (a.value ^ z.natAbs)) ∧
    (z < 0 → c.rdx = scale ∧ c.value = cut 10 scale (1 / a.value ^ z.natAbs))

theorem inv_spec (ha : Normal a) (hne : a.num ≠ []) (scale : ℕ) {fuel : ℕ} (hfuel : 10 ≤ fuel) :
    ∃ c, inv fuel a scale = .ok c ∧ Normal c ∧ c.rdx = scale ∧ c.value = cut 10 scale (1 / a.value) := by
  have hone : Normal one := ⟨by decide, by decide⟩
  have hvalue : one.value = 1 := value_ulong2num 1
  obtain ⟨c, hc, hq⟩ := div_spec hone ha hne scale hfuel
  rw [IsQuotient, hvalue] at hq
  exact ⟨c, hc, hq⟩

theorem numP_spec (ha : Normal a) (hanil : a.num ≠ []) (hsize : a.rdx < 2 ^ 64) (hb : Normal b)
    (hbnil : b.num ≠ []) (hone : ¬ isOne b = true) {z : ℤ} (hz : b.value = z)
    (hlt : z.natAbs < 2 ^ 64) (behind : List ℤ) (scale : ℕ) {fuel : ℕ} (hten : 10 ≤ fuel)
    (hfuel : (a.len + a.rdx) * z.natAbs < fuel) (hexp : z.natAbs < fuel) :
    ResultOr (IsPower a z scale) ((a.len + 2 * a.rdx) * z.natAbs)
      (numP fuel behind a b scale) := by
  obtain ⟨htail, hread⟩ := integer_spec hb hbnil hz
  have hint : (b.num ++ behind).take b.rdx = b.num.take b.rdx :=
    List.take_append_of_le_length (hb.rdx_le hbnil)
  have hneg : b.neg = true ↔ z < 0 := by
    rw [hb.neg_iff, hz]
    exact Int.cast_lt_zero
  have hz0 : z.natAbs ≠ 0 := by
    intro hzero
    refine hb.value_ne_zero hbnil ?_
    rw [hz, Int.natAbs_eq_zero.mp hzero, Int.cast_zero]
  rw [numP, hint, htail, if_neg Bool.false_ne_true, if_neg (len_ne_zero hbnil),
    if_neg (len_ne_zero hanil), if_neg hone, hread hlt]
  refine (squareLoop_spec ha hanil hfuel (Power.one ha hsize) one_ne_zero (Nat.mul_one _).symm hz0
    (Nat.one_mul _) hexp).bind id ?_
  rintro ⟨copy, powrdx, pow⟩ ⟨k, hk, hcopy, hrdx, hodd, he⟩
  dsimp only at hcopy hrdx hodd he ⊢
  have hsplit : k + (k + k) * (pow / 2) = z.natAbs := by
    have hpow : pow = 1 + 2 * (pow / 2) := by omega
    rw [← he]
    conv => rhs; rw [hpow]
    ring
  have hturns : pow / 2 < fuel := by
    have := Nat.le_mul_of_pos_left pow (Nat.pos_of_ne_zero hk)
    omega
  refine (powLoop_spec ha hanil hfuel hcopy hk hrdx hcopy hk (by omega) hrdx hsplit hturns).bind
    id fun c hc => ?_
  by_cases hsign : b.neg = true
  · obtain ⟨i, hi, hnormal, hirdx, hvalue⟩ :=
      inv_spec hc.normal (hc.num_ne_nil ha hanil) scale hten
    obtain ⟨h1, h2, h3⟩ := retirePow_spec hnormal (le_of_eq hirdx.symm)
    rw [if_pos hsign, if_pos hsign, hi]
    refine .ok ⟨h1, fun h => absurd (hneg.mp hsign) (not_lt.mpr h), fun _ => ⟨h2, ?_⟩⟩
    rw [h3, ← hirdx, cut_value le_rfl, hvalue, hirdx, hc.value_eq]
  · have hscale := powScale_eq hc.fits scale
    have hle : powScale a z.natAbs scale ≤ c.rdx := by
      rw [hscale, hc.rdx_eq]
      exact Nat.min_le_left _ _
    obtain ⟨h1, -, h3⟩ := retirePow_spec hc.normal hle
    rw [if_neg hsign, if_neg hsign]
    refine .ok ⟨h1, fun _ => ?_, fun h => absurd (hneg.mpr h) hsign⟩
    rw [h3, hscale, hc.value_eq]

theorem numP_one (ha : Normal a) (hanil : a.num ≠ []) (hb : Normal b) (hbnil : b.num ≠ [])
    (hone : isOne b = true) {z : ℤ} (hz : b.value = z) (behind : List ℤ) (scale : ℕ) (fuel : ℕ)
    (hten : 10 ≤ fuel) : ∃ c, numP fuel behind a b scale = .ok c ∧ IsPower a z scale c := by
  have hint : (b.num ++ behind).take b.rdx = b.num.take b.rdx :=
    List.take_append_of_le_length (hb.rdx_le hbnil)
  have hsgn : z = b.sgn := by
    rw [value_of_isOne hone] at hz
    exact_mod_cast hz.symm
  have habs : z.natAbs = 1 := by
    rcases sgn_eq_or b with h | h
    · rw [hsgn, h, Int.natAbs_one]
    · rw [hsgn, h, Int.natAbs_neg, Int.natAbs_one]
  rw [numP, hint, (integer_spec hb hbnil hz).1, if_neg Bool.false_ne_true,
    if_neg (len_ne_zero hbnil), if_neg (len_ne_zero hanil), if_pos hone]
  by_cases hneg : b.neg = true
  · have hlt : z < 0 := by
      rw [hsgn, BcNum.sgn, if_pos hneg]
      decide
    obtain ⟨c, hc, hnormal, hrdx, hvalue⟩ := inv_spec ha hanil scale hten
    rw [if_pos hneg]
    refine ⟨c, hc, hnormal, fun h => absurd hlt (not_lt.mpr h), fun _ => ⟨hrdx, ?_⟩⟩
    rw [hvalue, habs, pow_one]
  · have hle : 0 ≤ z := by
      rw [hsgn, BcNum.sgn, if_neg hneg]
      decide
    rw [if_neg hneg]
    refine ⟨a, rfl, ha, fun _ => ?_, fun h => absurd hle (not_le.mpr h)⟩
    rw [habs, pow_one, Nat.mul_one, Nat.min_eq_left (Nat.le_max_right _ _), cut_value le_rfl]

/-- **Powers are exact** up to the scale of the result: they are cut off once.  Only where a power
would be too long there is an error.  A zero with digits behind the point is left out as an
exponent. -/
theorem pow_exact (ha : Normal a) (hsize : a.rdx < 2 ^ 64) (hb : Normal b) {z : ℤ}
    (hz : b.value = z) (hlt : z.natAbs < 2 ^ 64) (hzero : z = 0 → b.rdx = 0)
    (ha0 : z < 0 → a.value ≠ 0) (behind : List ℤ) (scale : ℕ) :
    ∃ least, ∀ fuel, least < fuel →
      ResultOr (IsPower a z scale) ((a.len + 2 * a.rdx) * z.natAbs)
        (pow fuel behind a b scale) := by
  refine ⟨10 + z.natAbs + (a.len + a.rdx) * z.natAbs, fun fuel hfuel => ?_⟩
  rw [pow]
  by_cases hbnil : b.num = []
  · have hz0 : z = 0 := by
      rw [value_of_nil hbnil] at hz
      exact_mod_cast hz.symm
    have hnum : numP fuel behind a b scale = .ok one := by
      rw [numP, hzero hz0, List.take_zero, List.any_nil, if_neg Bool.false_ne_true,
        if_pos (len_of_nil hbnil)]
    rw [hnum]
    refine .ok ⟨⟨by decide, by decide⟩, fun _ => ?_, fun h => absurd hz0 (ne_of_lt h)⟩
    rw [hz0, Int.natAbs_zero, Nat.mul_zero, Nat.zero_min, pow_zero]
    exact (cut_value (Nat.le_refl one.rdx)).symm.trans (congrArg _ (value_ulong2num 1))
  obtain ⟨htail, -⟩ := integer_spec hb hbnil hz
  by_cases hanil : a.num = []
  · have hint : (b.num ++ behind).take b.rdx = b.num.take b.rdx :=
      List.take_append_of_le_length (hb.rdx_le hbnil)
    have hnum : numP fuel behind a b scale = .ok (setToZero scale) := by
      rw [numP, hint, htail, if_neg Bool.false_ne_true, if_neg (len_ne_zero hbnil),
        if_pos (len_of_nil hanil)]
    have hz0 : z.natAbs ≠ 0 := by
      intro h
      refine hb.value_ne_zero hbnil ?_
      rw [hz, Int.natAbs_eq_zero.mp h, Int.cast_zero]
    rw [hnum]
    refine .ok ⟨Normal.zero scale, fun _ => ?_, fun h => absurd (value_of_nil hanil) (ha0 h)⟩
    rw [value_of_nil hanil, zero_pow hz0, cut_zero]
    exact value_of_nil rfl
  by_cases hone : isOne b = true
  · obtain ⟨c, hc, hpower⟩ := numP_one ha hanil hb hbnil hone hz behind scale
      fuel (by omega)
    rw [hc]
    exact .ok hpower
  · exact numP_spec ha hanil hsize hb hbnil hone hz hlt behind scale (by omega) (by omega) (by omega)

end

/-- The power of minus one and a half with the exponent minus three. -/
theorem pow_exact_inverse :
    ∃ least, ∀ fuel, least < fuel →
      ResultOr (IsPower { num := [5, 1], rdx := 1, neg := true } (-3) 4) 12
        (pow fuel [] { num := [5, 1], rdx := 1, neg := true } { num := [3], neg := true } 4) :=
  have hvalue : BcNum.value { num := [3], neg := true } = ((-3 : ℤ) : ℚ) := by
    norm_num [BcNum.value, val]
  pow_exact (a := { num := [5, 1], rdx := 1, neg := true }) (b := { num := [3], neg := true })
    ⟨by decide, by decide⟩ (by decide) ⟨by decide, by decide⟩ hvalue (by decide) (fun h => by cases h)
    (fun _ => Normal.value_ne_zero ⟨by decide, by decide⟩ (by decide)) [] 4

/-- The square of the largest fraction of 4294967295 digits is an error. -/
theorem nines_square_too_long :
    ¬ ∀ a b : BcNum, Normal a → Normal b → ∀ z : ℤ, b.value = z → z.natAbs < 2 ^ 64 →
      (z = 0 → b.rdx = 0) → (z < 0 → a.value ≠ 0) → ∀ behind scale, ∃ fuel c,
      pow fuel behind a b scale = .ok c ∧ IsPower a z scale c := by
  intro h
  obtain ⟨n, hn⟩ : ∃ n, n = maxNum := ⟨_, rfl⟩
  have hlen : (nines n).len = n + 1 := List.length_replicate
  have hrdx : (nines n).rdx = n + 1 := rfl
  have hne : (nines n).num ≠ [] := num_ne_nil_of_len (by omega)
  have htwo : Normal { num := [2] } := ⟨by decide, by decide⟩
  obtain ⟨fuel, c, hc, -⟩ := h (nines n) { num := [2] } (normal_nines n) htwo 2
    (by norm_num [BcNum.value, val]) (by decide) (fun h => by cases h) (fun h => by cases h) [] 0
  have hmul : ∀ scale, mul fuel (nines n) (nines n) scale = .error .numberTooLong := fun scale =>
    mul_tooLong fuel (by omega) (by omega) (by omega)
  have hread : ulongAbs { num := [2] } = .ok 2 := by decide
  rw [pow, numP, List.take_zero, List.any_nil, if_neg Bool.false_ne_true, if_neg (by decide),
    if_neg (len_ne_zero hne), if_neg (by decide), hread] at hc
  cases fuel with
  | zero => cases hc
  | succ fuel =>
    simp only [bind, Except.bind, squareLoop, hmul] at hc
    cases hc

end Rustybox.Bc
