import Rustybox.Bc.Settling

/-!
# The square root of bc

* `sqrt_exact`: the loop of `zbc_num_sqrt` ends, with the largest number of that many digits behind
  the point whose square is not above the operand.
-/

namespace Rustybox.Bc

open Positional Truncation

/-- The square root, cut off at the larger scale. -/
structure IsRoot (a : BcNum) (scale : ℕ) (b : BcNum) : Prop where
  normal : Normal b
  rdx : a.num ≠ [] → b.rdx = max scale a.rdx
  value : IsGreatest {q : ℚ | (∃ n : ℤ, q = n / 10 ^ max scale a.rdx) ∧ q ^ 2 ≤ a.value} b.value

section

variable {a : BcNum} (ha : Normal a) (hneg : a.neg = false)

/-! ### The root of the value -/

include ha hneg

/-- The integer root of the radicand is the root of the value. -/
theorem isGreatest_sqrt {m : ℕ} (hm : a.rdx ≤ m) :
    IsGreatest {q : ℚ | (∃ n : ℤ, q = n / 10 ^ m) ∧ q ^ 2 ≤ a.value}
      (Nat.sqrt (radicand a m) / 10 ^ m) := by
  have hradicand := radicand_eq ha hneg (show a.rdx ≤ 2 * m by omega)
  have hvalue : a.value = radicand a m / (10 ^ m) ^ 2 := by
    rw [hradicand, mul_comm 2 m, pow_mul, mul_div_cancel_right₀ _ (by positivity)]
  refine ⟨⟨⟨Nat.sqrt (radicand a m), by rw [Int.cast_natCast]⟩, ?_⟩, ?_⟩
  · rw [hvalue, div_pow, div_le_div_iff_of_pos_right (by positivity)]
    exact_mod_cast Nat.sqrt_le' (radicand a m)
  · rintro q ⟨⟨n, rfl⟩, hsq⟩
    rw [hvalue, div_pow, div_le_div_iff_of_pos_right (by positivity)] at hsq
    have hsq' : n ^ 2 ≤ radicand a m := by exact_mod_cast hsq
    have habs : n.natAbs * n.natAbs ≤ radicand a m := by
      zify
      rwa [← sq, sq_abs]
    have hle : n ≤ Nat.sqrt (radicand a m) := by
      have hroot := Nat.le_sqrt.mpr habs
      omega
    rw [div_le_div_iff_of_pos_right (by positivity)]
    exact_mod_cast hle

omit ha hneg in
theorem sqrt_radicand_div {m r : ℕ} (hm : a.rdx ≤ m) (hr : m ≤ r) :
    Nat.sqrt (radicand a r) / 10 ^ (r - m) = Nat.sqrt (radicand a m) := by
  have hmul : radicand a r = radicand a m * (10 ^ (r - m) * 10 ^ (r - m)) := by
    rw [radicand, radicand, ← pow_add, mul_assoc, ← pow_add]
    congr 2
    omega
  rw [hmul, Newton.sqrt_mul_sq_div _ (by positivity)]

omit ha hneg in
theorem truncate_atScale {r X k : ℕ} (hk : k ≤ r) (hX : X / 10 ^ k ≠ 0) :
    truncate (atScale r X) k = atScale (r - k) (X / 10 ^ k) := by
  have hX0 : X ≠ 0 := by
    rintro rfl
    exact hX (Nat.zero_div _)
  have hnormal := normal_atScale r X
  have hrdx : (truncate (atScale r X) k).rdx = r - k := by
    rw [truncate, atScale_rdx]
  have hval : val 10 (truncate (atScale r X) k).num = (X / 10 ^ k : ℕ) := by
    rw [truncate, val_drop (by decide) hnormal.digits, val_atScale, Int.natCast_ediv, Nat.cast_pow,
      Nat.cast_ofNat]
  have hlen : (truncate (atScale r X) k).len = (atScale r X).len - k := List.length_drop
  have hle := hnormal.rdx_le (atScale_ne_nil r hX0)
  rw [atScale_rdx] at hle
  have htruncated : Normal (truncate (atScale r X) k) := by
    refine normal_of_large (hnormal.digits.drop k) ?_ ?_ ?_
    · rw [hval]
      exact_mod_cast Nat.pos_of_ne_zero hX
    · omega
    · rcases hnormal.large (atScale_ne_nil r hX0) with heq | ⟨hlt, hlarge⟩
      · rw [atScale_rdx] at heq
        exact .inl (by omega)
      · rw [val_atScale] at hlarge
        rw [atScale_rdx] at hlt
        refine .inr ?_
        obtain ⟨n, hn⟩ : ∃ n, (atScale r X).len = n + 1 + k := ⟨(atScale r X).len - 1 - k, by omega⟩
        have hlarge' : 10 ^ n * 10 ^ k ≤ X := by
          rw [hn, show n + 1 + k = n + k + 1 by omega, pow_succ, pow_add] at hlarge
          zify
          omega
        have hdiv : 10 ^ n ≤ X / 10 ^ k := (Nat.le_div_iff_mul_le (by positivity)).mpr hlarge'
        rw [hval, hlen, hn, Nat.add_sub_cancel, pow_succ']
        exact mul_le_mul_of_nonneg_left (by exact_mod_cast hdiv) (by decide)
  refine htruncated.eq_atScale hrdx ?_
  have hsgn : (truncate (atScale r X) k).sgn = 1 := by
    rw [BcNum.sgn, truncate, atScale_neg, if_neg Bool.false_ne_true]
  rw [BcNum.value_eq, hval, hrdx, hsgn, Int.cast_one, one_mul, Int.cast_natCast]

/-! ### The start of the loop -/

variable (hne : a.num ≠ [])

include hne

omit hneg in
theorem guess_firstGuess {r : ℕ} (hr : a.rdx + 3 ≤ r) : ∃ G, firstGuess a = atScale 0 G ∧ G ≠ 0 ∧
    Guess a r (G * 10 ^ (r - 0)) ∧ (firstGuess a).len ≤ max a.int 1 := by
  obtain ⟨G, hG, hG0, hGle, hGlen⟩ := firstGuess_eq a
  refine ⟨G, hG, hG0, ⟨Nat.mul_ne_zero hG0 (by positivity), ?_, ?_⟩, hGlen⟩
  · rw [ceiling, pow_add, Nat.sub_zero]
    exact Nat.mul_le_mul_right _ hGle
  · refine Nat.lt_of_lt_of_le (radicand_lt ha hne hr) ?_
    rw [Nat.sub_zero, mul_comm (ceiling a r)]
    exact Nat.mul_le_mul_right _ (Nat.le_mul_of_pos_left _ (Nat.pos_of_ne_zero hG0))

/-- **The loop ends.** -/
theorem ends_of_start {m limit : ℕ} (hm : a.rdx ≤ m) (hsize : max a.int 1 + m < 2 ^ 61)
    (hlimit : 4 * max a.int 1 + 3 * m + 11 ≤ limit) :
    Ends a m ((firstGuess a).len - (firstGuess a).rdx + (m + 3) - 1) limit
      { x0 := firstGuess a, resrdx := m + 3 } := by
  obtain ⟨G, hG, hG0, hguess, hGlen⟩ := guess_firstGuess ha hne (show a.rdx + 3 ≤ m + 3 by omega)
  have hrdx : (firstGuess a).rdx = 0 := by rw [hG, atScale_rdx]
  have hlen : (firstGuess a).len ≠ 0 := len_ne_zero (by
    rw [hG]
    exact atScale_ne_nil 0 hG0)
  generalize hL : (firstGuess a).len - (firstGuess a).rdx + (m + 3) - 1 = len
  have hr : Precision a m limit (m + 3) := ⟨by omega, by omega, by omega, by omega⟩
  generalize hs : ({ x0 := firstGuess a, resrdx := m + 3 } : SqrtState) = s
  have hx0 : s.x0 = atScale 0 G := by rw [← hs, hG]
  have hat := At.turn ha hne hr.rdx hx0 (Nat.zero_le _) hguess
  have htimes : (s.turn a (m + 3) (G * 10 ^ (m + 3 - 0))).times = 0 := by
    rw [turn_times, if_neg]
    rintro ⟨hcmp, -⟩
    have hbound := natAbs_cmp_le (atScale (m + 3) (Newton.step (radicand a (m + 3))
      (G * 10 ^ (m + 3 - 0)))) s.x0
    have hcmp' : cmp (atScale (m + 3) (Newton.step (radicand a (m + 3))
        (G * 10 ^ (m + 3 - 0)))) s.x0 = 9223372036854775807 := by
      rw [← hs] at hcmp ⊢
      exact hcmp
    have hlen1 := hat.len_le
    have hlen0 : s.x0.len = (firstGuess a).len := by rw [← hs]
    have hrdx0 : s.x0.rdx = 0 := by rw [hx0, atScale_rdx]
    rw [hcmp', hrdx0, hlen0, atScale_rdx] at hbound
    omega
  have hle : (s.turn a (m + 3) (G * 10 ^ (m + 3 - 0))).times ≤ 4 := by
    rw [htimes]
    decide
  have hstreak : Streak a (m + 3) (s.turn a (m + 3) (G * 10 ^ (m + 3 - 0))).times
      (s.turn a (m + 3) (G * 10 ^ (m + 3 - 0)))
      (Newton.step (radicand a (m + 3)) (G * 10 ^ (m + 3 - 0))) := by
    rw [htimes]
    exact .start hat
  refine Ends.turn ha hne hneg hr hx0 (by rw [← hs]) (Nat.zero_le _) hguess
    (fun hcmp => ?_) (Streak.ends ha hne hneg hr ?_ _ _ hstreak ?_ hle)
  · rw [← hs] at hcmp
    exact absurd hcmp Int.one_ne_zero
  · exact settledEnds ha hne hneg hm (by omega) (by omega) (Nat.le_refl _) (by omega)
  · rw [turn_resrdx_of_le hle, ← hs]

theorem isRoot_of_isRootFrom {scale : ℕ} {b : BcNum} (h : IsRootFrom a (max scale a.rdx) b) :
    IsRoot a scale
      (if max scale a.rdx < b.rdx then truncate b (b.rdx - max scale a.rdx) else b) := by
  have hm := Nat.le_max_right scale a.rdx
  generalize hmax : max scale a.rdx = m at *
  obtain ⟨r, hr, rfl⟩ := h
  have hpos : Nat.sqrt (radicand a m) ≠ 0 := by
    have hval := ha.val_pos hne
    have hone : 0 < radicand a m := Nat.mul_pos (by omega) (by positivity)
    exact Nat.ne_of_gt (Nat.sqrt_pos.mpr hone)
  have hcut : (if m < (atScale r (Nat.sqrt (radicand a r))).rdx then
      truncate (atScale r (Nat.sqrt (radicand a r)))
        ((atScale r (Nat.sqrt (radicand a r))).rdx - m)
      else atScale r (Nat.sqrt (radicand a r))) = atScale m (Nat.sqrt (radicand a m)) := by
    rw [atScale_rdx]
    have hdiv := sqrt_radicand_div (a := a) hm hr
    split
    · next hlt =>
      rw [truncate_atScale (Nat.sub_le r m) (by rwa [hdiv]), hdiv, Nat.sub_sub_self hr]
    · next hge =>
      obtain rfl : r = m := by omega
      rfl
  rw [hcut]
  refine ⟨normal_atScale _ _, fun _ => by rw [atScale_rdx, hmax], ?_⟩
  rw [value_atScale, hmax]
  exact isGreatest_sqrt ha hneg hm

end

section

variable {a : BcNum} {scale : ℕ}

/-- The first request for memory is met, except for a zero with digits behind the point. -/
theorem sqrtRequest_lt (ha : Normal a) (hzero : a.num = [] → a.rdx ≤ 1) (hlen : a.len < 2 ^ 60)
    (hscale : scale < 2 ^ 60) : sqrtRequest a scale < 2 ^ 63 := by
  rw [sqrtRequest]
  by_cases hnil : a.num = []
  · have hrdx := hzero hnil
    have hlen0 := len_of_nil hnil
    omega
  · have hrdx := ha.rdx_le hnil
    omega

theorem isRoot_zero (ha : Normal a) (hneg : a.neg = false) (hnil : a.num = []) (scale : ℕ) :
    IsRoot a scale (setToZero scale) := by
  refine ⟨Normal.zero scale, fun hne => absurd hnil hne, ?_⟩
  have hroot := isGreatest_sqrt ha hneg (Nat.le_max_right scale a.rdx)
  have hradicand : radicand a (max scale a.rdx) = 0 := by
    rw [radicand, hnil, val_nil, Int.toNat_zero, zero_mul]
  rwa [hradicand, Nat.sqrt_zero, Nat.cast_zero, zero_div, ← value_of_nil (n := setToZero scale) rfl]
    at hroot

theorem isRoot_one (ha : Normal a) (hneg : a.neg = false) (hone : isOne a = true) (scale : ℕ) :
    IsRoot a scale (extend one scale) := by
  have hrdx : a.rdx = 0 := by
    simp only [isOne, Bool.and_eq_true, decide_eq_true_eq] at hone
    exact hone.1.2
  have hvalue : a.value = 1 := by
    rw [value_of_isOne hone, BcNum.sgn, hneg, if_neg Bool.false_ne_true, Int.cast_one]
  have hval : val 10 (extend one scale).num = 10 ^ scale := by
    rw [val_extend, show val 10 one.num = 1 from rfl, one_mul]
  have hnormal : Normal (extend one scale) := by
    refine normal_of_large (isDigits_extend (by decide) scale) ?_ ?_ (.inr ?_)
    · rw [hval]
      positivity
    · show 0 + scale ≤ (extend one scale).len
      rw [len_extend, Nat.add_comm]
      exact Nat.add_le_add_left (Nat.zero_le _) scale
    · rw [hval, len_extend, ← pow_succ']
      rfl
  refine ⟨hnormal, fun _ => ?_, ?_⟩
  · rw [hrdx, Nat.max_zero]
    exact Nat.zero_add scale
  · have hroot := isGreatest_sqrt ha hneg (Nat.le_max_right scale a.rdx)
    have hradicand : radicand a (max scale a.rdx) =
        10 ^ max scale a.rdx * 10 ^ max scale a.rdx := by
      have hcast := radicand_eq ha hneg (show a.rdx ≤ 2 * max scale a.rdx by omega)
      rw [hvalue, one_mul, two_mul, pow_add] at hcast
      exact_mod_cast hcast
    have hext : (extend one scale).value = 1 := by
      rw [value_extend, value_of_isOne (by decide)]
      exact Int.cast_one
    rw [hradicand, Nat.sqrt_eq, Nat.cast_pow, Nat.cast_ofNat, div_self (by positivity)] at hroot
    rwa [hext]

/-- **The square root of bc** is the largest number with that many digits behind the point whose
square is not above the operand, and the loop that looks for it ends. -/
theorem sqrt_exact (ha : Normal a) (hneg : a.neg = false) (hzero : a.num = [] → a.rdx ≤ 1)
    (hlen : a.len < 2 ^ 60) (hscale : scale < 2 ^ 60) :
    ∃ least, ∀ fuel > least, ResultOr (IsRoot a scale) (4 * a.int + 3 * max scale a.rdx + 15)
      (sqrt fuel a scale) := by
  have hrequest := sqrtRequest_lt ha hzero hlen hscale
  by_cases hnil : a.num = []
  · refine ⟨0, fun fuel _ => ?_⟩
    rw [sqrt, if_neg (not_le.mpr hrequest), if_pos (len_of_nil hnil)]
    exact .ok (isRoot_zero ha hneg hnil scale)
  by_cases hone : isOne a = true
  · refine ⟨0, fun fuel _ => ?_⟩
    rw [sqrt, if_neg (not_le.mpr hrequest), if_neg (len_ne_zero hnil), hneg,
      if_neg Bool.false_ne_true, if_pos hone]
    exact .ok (isRoot_one ha hneg hone scale)
  have hrdx := ha.rdx_le hnil
  have hint : a.int ≤ a.len := Nat.sub_le _ _
  have hlimit : 4 * max a.int 1 + 3 * max scale a.rdx + 11 ≤
      4 * a.int + 3 * max scale a.rdx + 15 := by omega
  obtain ⟨n, hn⟩ := ends_of_start ha hneg hnil (Nat.le_max_right scale a.rdx) (by omega) hlimit
  refine ⟨n, fun fuel hfuel => ?_⟩
  rw [sqrt, if_neg (not_le.mpr hrequest), if_neg (len_ne_zero hnil), hneg,
    if_neg Bool.false_ne_true, if_neg hone]
  refine (hn fuel (Nat.le_of_lt hfuel) fuel (Nat.le_of_lt hfuel)).bind id fun b hb => .ok ?_
  exact isRoot_of_isRootFrom ha hneg hnil hb

/-- The first turn stops where the scale is too large for a product. -/
theorem sqrt_tooLong {fuel : ℕ} (ha : Normal a) (hneg : a.neg = false) (hnil : a.num ≠ [])
    (hone : ¬ isOne a = true) (hrequest : sqrtRequest a scale < 2 ^ 63)
    (hlong : maxNum < max scale a.rdx + 3) (hfuel : 10 ≤ fuel) :
    sqrt fuel a scale = .error .numberTooLong := by
  have hm := Nat.le_max_right scale a.rdx
  rw [sqrt, if_neg (not_le.mpr hrequest), if_neg (len_ne_zero hnil), hneg,
    if_neg Bool.false_ne_true, if_neg hone]
  dsimp only
  rw [show max scale a.rdx + 1 + 2 = max scale a.rdx + 3 from rfl]
  generalize max scale a.rdx = m at *
  obtain ⟨G, hG, hG0, hguess, -⟩ := guess_firstGuess ha hnil (show a.rdx + 3 ≤ m + 3 by omega)
  have hthree := hguess.three_le ha hnil (by omega)
  have hdiv := div_atScale ha hneg (Nat.zero_le (m + 3)) (by omega) hG0 hfuel
  have hadd := add_atScale (Nat.zero_le (m + 3)) hG0
    (show radicand a (m + 3) / (G * 10 ^ (m + 3 - 0)) ≠ 0 by omega)
  have hmul : mul fuel (atScale (m + 3) (G * 10 ^ (m + 3 - 0) +
      radicand a (m + 3) / (G * 10 ^ (m + 3 - 0)))) half (m + 3) = .error .numberTooLong := by
    refine mul_tooLong fuel (len_ne_zero (atScale_ne_nil _ ?_)) ?_ ?_
    · exact Nat.ne_of_gt (Nat.add_pos_left (Nat.pos_of_ne_zero hguess.ne) _)
    · rw [atScale_rdx]
      exact Nat.succ_ne_zero _
    · rw [atScale_rdx]
      omega
  have hloop : ∀ len turns, turns ≠ 0 →
      sqrtLoop fuel a len turns { x0 := atScale 0 G, resrdx := m + 3 } =
        .error .numberTooLong := by
    intro len turns hturns
    obtain ⟨turns, rfl⟩ := Nat.exists_eq_add_one_of_ne_zero hturns
    rw [sqrtLoop, if_pos (.inl Int.one_ne_zero)]
    dsimp only
    rw [hdiv]
    show (mul fuel (add (atScale 0 G) _) half (m + 3) >>= _) = _
    rw [hadd, hmul]
    rfl
  rw [hG, hloop _ fuel (by omega)]
  rfl

end

/-- The root of two to three digits. -/
theorem sqrt_exact_two :
    ∃ least, ∀ fuel > least, ResultOr (IsRoot { num := [2] } 3)
      (4 * BcNum.int { num := [2] } + 3 * max 3 0 + 15) (sqrt fuel { num := [2] } 3) :=
  sqrt_exact ⟨by decide, by decide⟩ rfl (fun h => absurd h (List.cons_ne_nil _ _)) (by decide)
    (by decide)

/-- The root of two at the largest scale that bc has is too long for the first product. -/
theorem root_of_two_too_long :
    ¬ ∀ (a : BcNum) (scale : ℕ), Normal a → a.neg = false →
      ∃ least, ∀ fuel > least, ∃ b, sqrt fuel a scale = .ok b ∧ IsRoot a scale b := by
  intro h
  have htwo : Normal { num := [2] } := ⟨by decide, by decide⟩
  obtain ⟨least, hleast⟩ := h _ 4294967295 htwo rfl
  obtain ⟨b, hb, -⟩ := hleast (least + 10) (by omega)
  rw [sqrt_tooLong htwo rfl (List.cons_ne_nil _ _) (by decide) (by decide) (by decide) (by omega)]
    at hb
  cases hb

end Rustybox.Bc
