import Rustybox.Bc.Quotients
import Rustybox.Lib.Newton

/-!
# Square roots of bc

`zbc_num_sqrt` takes Newton's iteration from a first guess of half as many digits, with three digits
more behind the point than the result has.  The loop ends where a turn has changed nothing and the
number has as many digits as the first guess stands for.  Where the same digit has changed over and
over again, the working precision gets one digit more.

* `turn_spec`: a turn of the loop is a step of the iteration on integers.
-/

namespace Rustybox.Bc

open Positional Truncation

/-- The bytes that `zbc_num_sqrt` asks for first.  A zero has no digits, so that with a scale the
number of its digits before the point falls below zero. -/
def sqrtRequest (a : BcNum) (scale : ℕ) : ℕ :=
  (max scale a.rdx + (a.len + 2 ^ 64 - a.rdx + 1) % 2 ^ 64 / 2 + 1) % 2 ^ 64

def firstGuess (a : BcNum) : BcNum :=
  let pow := a.int
  if pow ≠ 0 then
    let x0 := { one with num := [if pow % 2 ≠ 0 then 2 else 6] }
    { extend x0 (pow - (2 - pow % 2)) with rdx := 0 }
  else one

def half : BcNum := { num := [5], rdx := 1 }

/-- The variables of the loop. -/
structure SqrtState where
  x0 : BcNum
  resrdx : ℕ
  cmp : ℤ := 1
  cmp1 : ℤ := 9223372036854775807
  cmp2 : ℤ := 9223372036854775807
  digs : ℤ := 0
  digs1 : ℤ := 0
  times : ℕ := 0

/-- The end of a turn, which has found `x1`. -/
def SqrtState.next (s : SqrtState) (x1 : BcNum) : SqrtState :=
  let cmp := Bc.cmp x1 s.x0
  let digs := (x1.len - |cmp|) % 2 ^ 64
  let times := if cmp = s.cmp2 ∧ digs = s.digs1 then s.times + 1 else 0
  { x0 := x1
    resrdx := s.resrdx + if 4 < times then 1 else 0
    cmp := cmp, cmp1 := cmp, cmp2 := s.cmp1
    digs := digs, digs1 := digs
    times := times }

/-- The loop of `zbc_num_sqrt`. -/
def sqrtLoop (fuel : ℕ) (a : BcNum) (len : ℕ) : ℕ → SqrtState → Except Err BcNum
  | 0, _ => .error .unfinished
  | turns + 1, s =>
    if s.cmp ≠ 0 ∨ s.digs < len then do
      let f ← div fuel a s.x0 s.resrdx
      let fprime := add s.x0 f
      let x1 ← mul fuel fprime half s.resrdx
      sqrtLoop fuel a len turns (s.next x1)
    else .ok s.x0

/-- `zbc_num_sqrt`.  No more than `2 ^ 63 - 1` bytes are ever allocated. -/
def sqrt (fuel : ℕ) (a : BcNum) (scale : ℕ) : Except Err BcNum :=
  if 2 ^ 63 ≤ sqrtRequest a scale then .error .memoryExhausted
  else if a.len = 0 then .ok (setToZero scale)
  else if a.neg then .error .negativeNumber
  else if isOne a then .ok (extend one scale)
  else do
    let scale := max scale a.rdx + 1
    let x0 := firstGuess a
    let resrdx := scale + 2
    let b ← sqrtLoop fuel a (x0.len - x0.rdx + resrdx - 1) fuel { x0 := x0, resrdx := resrdx }
    let scale := scale - 1
    pure (if scale < b.rdx then truncate b (b.rdx - scale) else b)

/-! ### Numbers at a scale -/

/-- The number `X / 10 ^ r`, with `r` digits behind the point. -/
def atScale (r X : ℕ) : BcNum := clean { ulong2num X with rdx := r }

section

variable {r X : ℕ}

theorem normal_atScale (r X : ℕ) : Normal (atScale r X) := normal_clean (isDigits_ulong2num X)

@[simp]
theorem atScale_rdx (r X : ℕ) : (atScale r X).rdx = r := clean_rdx _

@[simp]
theorem val_atScale (r X : ℕ) : val 10 (atScale r X).num = X := by
  rw [atScale, val_clean]
  exact val_ulong2num X

@[simp]
theorem atScale_neg (r X : ℕ) : (atScale r X).neg = false := by
  rw [atScale, clean]
  split
  · rfl
  · rfl

@[simp]
theorem value_atScale (r X : ℕ) : (atScale r X).value = X / 10 ^ r := by
  rw [BcNum.value_eq, BcNum.sgn, atScale_neg, val_atScale, atScale_rdx, if_neg Bool.false_ne_true,
    Int.cast_one, one_mul, Int.cast_natCast]

theorem atScale_ne_nil (r : ℕ) {X : ℕ} (h : X ≠ 0) : (atScale r X).num ≠ [] := by
  intro hnil
  have hval := val_atScale r X
  rw [hnil, val_nil] at hval
  omega

theorem len_atScale (r : ℕ) {X : ℕ} (h : X ≠ 0) : (atScale r X).len = max (ulong2num X).len r := by
  have hdrop := rdropWhile_eq (isDigits_ulong2num X)
  rw [val_ulong2num, Int.toNat_natCast] at hdrop
  rw [atScale, clean]
  dsimp only
  rw [hdrop, if_neg (num_ne_nil h), BcNum.len, List.length_append, List.length_replicate,
    BcNum.len]
  omega

theorem len_atScale_le (h : X ≠ 0) {n : ℕ} : (atScale r X).len ≤ n ↔ X < 10 ^ n ∧ r ≤ n := by
  rw [len_atScale r h, max_le_iff, len_le_iff]

/-- **A normal number is given by its scale and its value.** -/
theorem Normal.eq_atScale {n : BcNum} (h : Normal n) (hrdx : n.rdx = r)
    (hv : n.value = (X : ℚ) / 10 ^ r) : n = atScale r X := by
  have hneg : n.neg = false := by
    have hnonneg : ¬ n.value < 0 := by
      rw [hv]
      exact not_lt.mpr (by positivity)
    simpa using mt h.neg_iff.mp hnonneg
  have hval : val 10 n.num = X := by
    rw [n.value_eq, BcNum.sgn, hneg, if_neg Bool.false_ne_true, hrdx,
      div_left_inj' (by positivity), Int.cast_one, one_mul] at hv
    exact_mod_cast hv
  have hdrop := rdropWhile_eq h.digits
  have hdrop' := rdropWhile_eq (isDigits_ulong2num X)
  rw [hval] at hdrop
  rw [val_ulong2num] at hdrop'
  rw [← h.cleaned, atScale, clean, clean]
  dsimp only
  rw [hdrop, hdrop', hrdx, hneg]
  rfl

theorem value_atScale_of_le (X : ℕ) {j r : ℕ} (h : j ≤ r) :
    (atScale j X).value = (X * 10 ^ (r - j) : ℕ) / 10 ^ r := by
  rw [value_atScale, Nat.cast_mul, Nat.cast_pow, Nat.cast_ofNat,
    div_eq_div_iff (by positivity) (by positivity), mul_assoc, ← pow_add, Nat.sub_add_cancel h]

end

/-! ### A turn of the loop -/

section

variable {a : BcNum}

/-- The number whose integer root has `r` digits behind the point. -/
def radicand (a : BcNum) (r : ℕ) : ℕ := (val 10 a.num).toNat * 10 ^ (2 * r - a.rdx)

theorem radicand_eq (ha : Normal a) (hneg : a.neg = false) {r : ℕ} (hr : a.rdx ≤ 2 * r) :
    (radicand a r : ℚ) = a.value * 10 ^ (2 * r) := by
  have hval := val_nonneg (by decide) ha.digits
  have hcast : (radicand a r : ℤ) = val 10 a.num * 10 ^ (2 * r - a.rdx) := by
    rw [radicand, Nat.cast_mul, Int.toNat_of_nonneg hval, Nat.cast_pow, Nat.cast_ofNat]
  rw [a.value_scaled hr, div_mul_cancel₀ _ (by positivity), BcNum.sgn, hneg,
    if_neg Bool.false_ne_true, one_mul, ← hcast, Int.cast_natCast]

theorem div_atScale (ha : Normal a) (hneg : a.neg = false) {j r X fuel : ℕ} (hj : j ≤ r)
    (hr : a.rdx ≤ 2 * r) (hX : X ≠ 0) (hfuel : 10 ≤ fuel) :
    div fuel a (atScale j X) r = .ok (atScale r (radicand a r / (X * 10 ^ (r - j)))) := by
  obtain ⟨q, hq, hnormal, hrdx, hvalue⟩ :=
    div_spec ha (normal_atScale j X) (atScale_ne_nil j hX) r hfuel
  have hfrac : a.value / (atScale j X).value =
      ((radicand a r : ℤ) / (X * 10 ^ (r - j) * 10 ^ r : ℕ) : ℚ) := by
    have hpos : (X : ℚ) ≠ 0 := Nat.cast_ne_zero.mpr hX
    rw [value_atScale_of_le X hj, Int.cast_natCast, radicand_eq ha hneg hr, two_mul, pow_add]
    push_cast
    field_simp
  rw [hfrac, cut_fraction (Int.natCast_nonneg _)] at hvalue
  have hdiv : ((radicand a r : ℤ) * 10 ^ r / ((X * 10 ^ (r - j) * 10 ^ r : ℕ) : ℤ)) =
      ((radicand a r / (X * 10 ^ (r - j)) : ℕ) : ℤ) := by
    have hpow : ((10 : ℤ) ^ r) = ((10 ^ r : ℕ) : ℤ) := by rw [Nat.cast_pow, Nat.cast_ofNat]
    rw [hpow, ← Nat.cast_mul, ← Int.natCast_ediv, Nat.mul_div_mul_right _ _ (by positivity)]
  rw [hdiv, Int.cast_natCast] at hvalue
  rw [hq, hnormal.eq_atScale hrdx hvalue]

theorem add_atScale {j r X Y : ℕ} (hj : j ≤ r) (hX : X ≠ 0) (hY : Y ≠ 0) :
    add (atScale j X) (atScale r Y) = atScale r (X * 10 ^ (r - j) + Y) := by
  have hspec := addSub_spec (normal_atScale j X) (normal_atScale r Y) false
  have hsame : signed false (atScale r Y) = (atScale j X).sgn := by
    rw [signed, if_neg Bool.false_ne_true, BcNum.sgn, BcNum.sgn, atScale_neg, atScale_neg]
  have hnum := numA_spec (normal_atScale j X) (normal_atScale r Y) (atScale_ne_nil j hX)
    (atScale_ne_nil r hY) false
  have hrdx : (addSub (atScale j X) (atScale r Y) false).rdx = r := by
    rw [addSub, if_pos hsame, hnum.2.1, scaleOf, atScale_rdx, atScale_rdx, Nat.max_eq_right hj]
  rw [add_eq]
  refine hspec.1.eq_atScale hrdx ?_
  rw [hspec.2, if_neg Bool.false_ne_true, value_atScale_of_le X hj, value_atScale, ← add_div,
    ← Nat.cast_add]

theorem mul_half {r Y fuel : ℕ} (hr : r ≠ 0) (hfuel : (atScale r Y).len + r + 1 < fuel) :
    ResultOr (· = atScale r (Y / 2)) ((atScale r Y).len + 1 + 2 * r)
      (mul fuel (atScale r Y) half r) := by
  have hhalf : Normal half := ⟨by decide, by decide⟩
  have hscale : mulScale (atScale r Y) half r = r := by
    have hrdx : half.rdx = 1 := rfl
    rw [mulScale, atScale_rdx, hrdx]
    omega
  have hlen : half.len = 1 := rfl
  have hlarge : (atScale r Y).len + half.len + mulScale (atScale r Y) half r < fuel := by
    rw [hscale, hlen]
    omega
  have hspec := mul_spec (normal_atScale r Y) hhalf r hlarge
  rw [hscale, hlen] at hspec
  refine hspec.mono (fun c hc => ?_) id
  obtain ⟨hnormal, hrdx, hvalue⟩ := hc
  rw [hscale] at hrdx hvalue
  refine hnormal.eq_atScale hrdx ?_
  have hfrac : (atScale r Y).value * half.value = ((Y : ℤ) / (2 * 10 ^ r : ℕ) : ℚ) := by
    rw [value_atScale, half, BcNum.value_eq, BcNum.sgn, val_cons, val_nil]
    push_cast
    norm_num
    ring
  have hdiv : ((Y : ℤ) * 10 ^ r / ((2 * 10 ^ r : ℕ) : ℤ)) = ((Y / 2 : ℕ) : ℤ) := by
    have hpow : ((10 : ℤ) ^ r) = ((10 ^ r : ℕ) : ℤ) := by rw [Nat.cast_pow, Nat.cast_ofNat]
    rw [hpow, ← Nat.cast_mul, ← Int.natCast_ediv, Nat.mul_div_mul_right _ _ (by positivity)]
  rw [hvalue, hfrac, cut_fraction (Int.natCast_nonneg _), hdiv, Int.cast_natCast]

end

/-! ### Where two numbers differ -/

theorem compare_comm (as bs : List ℤ) (n : ℕ) : compare as bs n = -compare bs as n := by
  induction n with
  | zero => rfl
  | succ n ih =>
    rw [compare, compare, ih]
    split_ifs
    all_goals omega

/-- **The comparison finds the first digit that differs.** -/
theorem compare_position {as bs : List ℤ} {n : ℕ} (hlen : as.length = bs.length)
    (hn : n ≤ as.length) (htail : as.drop n = bs.drop n) :
    as.drop (compare as bs n).natAbs = bs.drop (compare as bs n).natAbs ∧
      (compare as bs n).natAbs ≤ n ∧ ((compare as bs n).natAbs ≠ 0 →
        as.getD ((compare as bs n).natAbs - 1) 0 ≠ bs.getD ((compare as bs n).natAbs - 1) 0) := by
  induction n with
  | zero => exact ⟨htail, Nat.le_refl _, fun h => absurd rfl h⟩
  | succ n ih =>
    rw [compare]
    by_cases hdigit : as.getD n 0 - bs.getD n 0 ≠ 0
    · have hpos : (if as.getD n 0 - bs.getD n 0 < 0 then -((n : ℤ) + 1) else n + 1).natAbs =
          n + 1 := by
        split
        · omega
        · omega
      rw [if_pos hdigit, hpos]
      exact ⟨htail, Nat.le_refl _, fun _ => sub_ne_zero.mp hdigit⟩
    · rw [if_neg hdigit]
      have hn' : n < bs.length := hlen ▸ hn
      have hcons : as.drop n = bs.drop n := by
        rw [List.drop_eq_getElem_cons hn, List.drop_eq_getElem_cons hn', htail,
          ← List.getD_eq_getElem as 0 hn, ← List.getD_eq_getElem bs 0 hn',
          sub_eq_zero.mp (not_not.mp hdigit)]
      obtain ⟨h1, h2, h3⟩ := ih (Nat.le_of_lt hn) hcons
      exact ⟨h1, Nat.le_succ_of_le h2, h3⟩

theorem natAbs_cmp_le (a b : BcNum) : (cmp a b).natAbs ≤ a.len + b.len + a.rdx + b.rdx + 1 := by
  have hcompare : ∀ (as bs : List ℤ) (n : ℕ), (compare as bs n).natAbs ≤ n := by
    intro as bs n
    induction n with
    | zero => exact Nat.le_refl _
    | succ n ih =>
      rw [compare]
      split_ifs
      all_goals omega
  have hnegate : ∀ (neg : Bool) (x : ℤ), (negateIf neg x).natAbs = x.natAbs := by
    intro neg x
    cases neg with
    | false => rfl
    | true => exact Int.natAbs_neg x
  have hone : ∀ p : Prop, [Decidable p] → (if p then (1 : ℤ) else 0).natAbs ≤ 1 := by
    intro p _
    split
    · exact Nat.le_refl _
    · exact Nat.zero_le _
  have hint : a.int ≤ a.len ∧ b.int ≤ b.len := ⟨Nat.sub_le _ _, Nat.sub_le _ _⟩
  rw [cmp]
  split
  · rw [hnegate]
    have := hone (b.len ≠ 0)
    omega
  split
  · rw [hnegate]
    omega
  split
  · have h1 := hone (b.neg = true)
    have h2 := hone (a.neg = true)
    omega
  split
  · omega
  dsimp only
  have hout : ∀ (neg p : Bool) (c : ℤ) {n : ℕ}, c.natAbs ≤ n →
      (if c ≠ 0 then negateIf neg c else if p = true then negateIf neg 1 else 0).natAbs ≤
        n + 1 := by
    intro neg p c n hc
    split
    · rw [hnegate]
      omega
    split
    · rw [hnegate]
      omega
    · exact Nat.zero_le _
  refine (hout _ _ _ (hcompare _ _ _)).trans ?_
  split
  · omega
  · omega

section

variable {r X Y : ℕ}

theorem cmp_atScale (hX : X ≠ 0) (hY : Y ≠ 0) (hlen : (atScale r X).len = (atScale r Y).len) :
    cmp (atScale r X) (atScale r Y) =
      -compare (atScale r Y).num (atScale r X).num (atScale r X).len := by
  have hXnil := atScale_ne_nil r hX
  have hYnil := atScale_ne_nil r hY
  have hint : (atScale r X).int = (atScale r Y).int := by
    rw [BcNum.int, BcNum.int, hlen, atScale_rdx, atScale_rdx]
  rw [cmp_aligned hXnil hYnil (by rw [atScale_neg, atScale_neg]) hint
    ((normal_atScale r X).rdx_le hXnil) ((normal_atScale r Y).rdx_le hYnil), atScale_rdx,
    atScale_rdx, if_neg (Nat.lt_irrefl r), atScale_neg, compareTails, Nat.sub_self, List.drop_zero,
    List.take_zero]
  show -_ = -_
  split
  · rfl
  · next hzero => exact congrArg _ (not_not.mp hzero).symm

theorem abs_cmp_comm (hX : X ≠ 0) (hY : Y ≠ 0) (hlen : (atScale r X).len = (atScale r Y).len) :
    |cmp (atScale r X) (atScale r Y)| = |cmp (atScale r Y) (atScale r X)| := by
  rw [cmp_atScale hX hY hlen, cmp_atScale hY hX hlen.symm, compare_comm, hlen, neg_neg, abs_neg]

/-- **The size of the comparison** is the position of the first digit that differs. -/
theorem cmp_position (hX : X ≠ 0) (hY : Y ≠ 0) (hlen : (atScale r X).len = (atScale r Y).len)
    {c : ℕ} (hc : |cmp (atScale r X) (atScale r Y)| = c) :
    X / 10 ^ c = Y / 10 ^ c ∧ c ≤ (atScale r X).len ∧
      (X ≠ Y → c ≠ 0 ∧ X / 10 ^ (c - 1) ≠ Y / 10 ^ (c - 1)) := by
  have hcast : ∀ Z n : ℕ, val 10 ((atScale r Z).num.drop n) = ((Z / 10 ^ n : ℕ) : ℤ) := by
    intro Z n
    rw [val_drop (by decide) (normal_atScale r Z).digits, val_atScale, Int.natCast_ediv,
      Nat.cast_pow, Nat.cast_ofNat]
  have hend : (atScale r Y).num.drop (atScale r X).len = (atScale r X).num.drop (atScale r X).len :=
    (List.drop_of_length_le (Nat.le_of_eq hlen.symm)).trans
      (List.drop_of_length_le (Nat.le_refl _)).symm
  have hpos := compare_position hlen.symm (Nat.le_of_eq hlen) hend
  have hnat : (compare (atScale r Y).num (atScale r X).num (atScale r X).len).natAbs = c := by
    rw [cmp_atScale hX hY hlen, abs_neg, Int.abs_eq_natAbs] at hc
    exact_mod_cast hc
  rw [hnat] at hpos
  obtain ⟨htail, hle, hdigit⟩ := hpos
  have hsame : X / 10 ^ c = Y / 10 ^ c := by
    have hval := congrArg (val 10) htail
    rw [hcast, hcast] at hval
    exact_mod_cast hval.symm
  refine ⟨hsame, hle, fun hXY => ?_⟩
  have hc0 : c ≠ 0 := by
    rintro rfl
    rw [pow_zero, Nat.div_one, Nat.div_one] at hsame
    exact hXY hsame
  refine ⟨hc0, fun heq => hdigit hc0 ?_⟩
  have hlt : c - 1 < (atScale r X).num.length := by
    rw [BcNum.len] at hle
    omega
  have hlt' : c - 1 < (atScale r Y).num.length := Nat.lt_of_lt_of_eq hlt hlen
  have hX' := hcast X (c - 1)
  have hY' := hcast Y (c - 1)
  rw [List.drop_eq_getElem_cons hlt, val_cons] at hX'
  rw [List.drop_eq_getElem_cons hlt', val_cons, show c - 1 + 1 = c by omega, htail] at hY'
  rw [show c - 1 + 1 = c by omega] at hX'
  rw [List.getD_eq_getElem _ _ hlt, List.getD_eq_getElem _ _ hlt']
  omega

end

/-! ### The range of the iteration -/

/-- A power of ten above the root, in units of the last digit. -/
def ceiling (a : BcNum) (r : ℕ) : ℕ := 10 ^ (max a.int 1 + r)

/-- A number that the iteration can be at: neither it nor its quotient is above the ceiling. -/
structure Guess (a : BcNum) (r X : ℕ) : Prop where
  ne : X ≠ 0
  le : X ≤ ceiling a r
  lt : radicand a r < X * ceiling a r

theorem ceiling_succ (a : BcNum) (r : ℕ) : ceiling a (r + 1) = ceiling a r * 10 := pow_succ _ _

theorem radicand_succ {a : BcNum} {r : ℕ} (hr : a.rdx ≤ 2 * r) :
    radicand a (r + 1) = radicand a r * 100 := by
  rw [radicand, radicand, show 2 * (r + 1) - a.rdx = 2 * r - a.rdx + 2 by omega, pow_add]
  ring

theorem Guess.next_scale {a : BcNum} {r X : ℕ} (hr : a.rdx ≤ 2 * r) (h : Guess a r X) :
    Guess a (r + 1) (X * 10) := by
  have hX := h.ne
  refine ⟨by omega, ?_, ?_⟩
  · rw [ceiling_succ]
    exact Nat.mul_le_mul_right 10 h.le
  · have hlt := h.lt
    rw [ceiling_succ, radicand_succ hr, show X * 10 * (ceiling a r * 10) =
      X * ceiling a r * 100 by ring]
    omega

theorem ten_dvd_radicand {a : BcNum} {r : ℕ} (hr : a.rdx < 2 * r) : 10 ∣ radicand a r := by
  rw [radicand, show 2 * r - a.rdx = 2 * r - a.rdx - 1 + 1 by omega, pow_succ, ← mul_assoc]
  exact Nat.dvd_mul_left _ _

section

variable {a : BcNum} (ha : Normal a) (hne : a.num ≠ []) {r : ℕ} (hr : a.rdx + 3 ≤ r)

include ha hne hr

theorem radicand_large : 10 ^ (r + 3) ≤ radicand a r := by
  have hpos := ha.val_pos hne
  have hone : 1 ≤ (val 10 a.num).toNat := by omega
  calc 10 ^ (r + 3) ≤ 10 ^ (2 * r - a.rdx) := Nat.pow_le_pow_right (by decide) (by omega)
    _ = 1 * 10 ^ (2 * r - a.rdx) := (one_mul _).symm
    _ ≤ radicand a r := Nat.mul_le_mul_right _ hone

theorem hundred_mul_ceiling_le : 100 * ceiling a r ≤ radicand a r := by
  have hlarge := radicand_large ha hne hr
  rcases ha.large hne with heq | ⟨hlt, hlarge'⟩
  · have hint : max a.int 1 = 1 := by
      rw [BcNum.int]
      omega
    rw [ceiling, hint]
    calc 100 * 10 ^ (1 + r) = 10 ^ (r + 3) := by ring
      _ ≤ radicand a r := hlarge
  · have hint : max a.int 1 = a.len - a.rdx := by
      rw [BcNum.int]
      omega
    have hval : 10 ^ (a.len - 1) ≤ (val 10 a.num).toNat := by
      have hpow : (10 : ℤ) ^ a.len = 10 ^ (a.len - 1) * 10 := by
        rw [← pow_succ]
        congr 1
        omega
      zify
      rw [Int.toNat_of_nonneg (val_nonneg (by decide) ha.digits)]
      omega
    rw [ceiling, hint, radicand]
    calc 100 * 10 ^ (a.len - a.rdx + r) = 10 ^ (a.len - a.rdx + r + 2) := by ring
      _ ≤ 10 ^ (a.len - 1 + (2 * r - a.rdx)) := Nat.pow_le_pow_right (by decide) (by omega)
      _ = 10 ^ (a.len - 1) * 10 ^ (2 * r - a.rdx) := pow_add _ _ _
      _ ≤ (val 10 a.num).toNat * 10 ^ (2 * r - a.rdx) := Nat.mul_le_mul_right _ hval

theorem radicand_lt : radicand a r < ceiling a r * 10 ^ r := by
  have hval : (val 10 a.num).toNat < 10 ^ a.len := by
    have hlt := val_lt (by decide) ha.digits
    rw [Int.toNat_lt (val_nonneg (by decide) ha.digits)]
    exact_mod_cast hlt
  have hrdx := ha.rdx_le hne
  have hint : a.len + (2 * r - a.rdx) ≤ max a.int 1 + r + r := by
    rw [BcNum.int]
    omega
  calc radicand a r < 10 ^ a.len * 10 ^ (2 * r - a.rdx) :=
        Nat.mul_lt_mul_of_pos_right hval (by positivity)
    _ = 10 ^ (a.len + (2 * r - a.rdx)) := (pow_add _ _ _).symm
    _ ≤ 10 ^ (max a.int 1 + r + r) := Nat.pow_le_pow_right (by decide) hint
    _ = ceiling a r * 10 ^ r := pow_add _ _ _

theorem ten_le_sqrt : 10 ≤ Nat.sqrt (radicand a r) := by
  have hlarge := radicand_large ha hne hr
  have hpow : 10 ^ 2 ≤ 10 ^ (r + 3) := Nat.pow_le_pow_right (by decide) (by omega)
  exact Nat.le_sqrt.mpr (by omega)

theorem sqrt_add_three_le : Nat.sqrt (radicand a r) + 3 ≤ ceiling a r := by
  have hlt := radicand_lt ha hne hr
  have hsq := Nat.sqrt_le (radicand a r)
  have hten := ten_le_sqrt ha hne hr
  have hpow : 10 * 10 ^ r ≤ ceiling a r := by
    calc 10 * 10 ^ r = 10 ^ (1 + r) := by ring
      _ ≤ ceiling a r := Nat.pow_le_pow_right (by decide) (by omega)
  have hmul := Nat.mul_le_mul_left (ceiling a r) hpow
  generalize Nat.sqrt (radicand a r) = S at *
  by_contra hlarge
  have hle : ceiling a r ≤ S + 2 := by omega
  have hsq' := Nat.mul_le_mul hle hle
  nlinarith

theorem Guess.step {X : ℕ} (h : Guess a r X) : Guess a r (Newton.step (radicand a r) X) := by
  have hthree := sqrt_add_three_le ha hne hr
  have hten := ten_le_sqrt ha hne hr
  have hle := Newton.sqrt_le_step (N := radicand a r) (Nat.pos_of_ne_zero h.ne)
  refine ⟨by omega, ?_, ?_⟩
  · have hdiv : radicand a r / X < ceiling a r :=
      (Nat.div_lt_iff_lt_mul (Nat.pos_of_ne_zero h.ne)).mpr (by
        rw [mul_comm]
        exact h.lt)
    have hX := h.le
    rw [Newton.step]
    omega
  · have hadd := Nat.sqrt_le_add (radicand a r)
    have hmul := Nat.mul_le_mul hle hthree
    rw [Nat.mul_add] at hmul
    omega

end

/-- **The first guess** is as large as a number with half as many digits can be. -/
theorem firstGuess_eq (a : BcNum) :
    ∃ G, firstGuess a = atScale 0 G ∧ G ≠ 0 ∧ G ≤ 10 ^ max a.int 1 ∧
      (firstGuess a).len ≤ max a.int 1 := by
  have hguess : ∀ (k : ℕ) (d : ℕ), d ≠ 0 → d < 10 →
      { num := List.replicate k 0 ++ [(d : ℤ)] } = atScale 0 (10 ^ k * d) := by
    intro k d hd0 hd
    have hdigits : IsDigits 10 (List.replicate k 0 ++ [(d : ℤ)]) :=
      isDigits_append.mpr ⟨isDigits_replicate_zero (by decide) k,
        isDigits_cons.mpr ⟨⟨Int.natCast_nonneg d, by exact_mod_cast hd⟩, isDigits_nil⟩⟩
    have hval : val 10 (List.replicate k 0 ++ [(d : ℤ)]) = (10 ^ k * d : ℕ) := by
      rw [val_zeros_append, val_cons, val_nil]
      push_cast
      ring
    have hnormal : Normal { num := List.replicate k 0 ++ [(d : ℤ)] } := by
      refine normal_of_large hdigits ?_ (Nat.zero_le _)
        (.inr (large_of_concat hdigits (Int.natCast_ne_zero.mpr hd0)))
      rw [hval]
      exact_mod_cast Nat.mul_pos (by positivity) (Nat.pos_of_ne_zero hd0)
    refine hnormal.eq_atScale rfl ?_
    rw [BcNum.value_eq, hval, BcNum.sgn, if_neg Bool.false_ne_true, Int.cast_one, one_mul,
      Int.cast_natCast]
  rw [firstGuess]
  dsimp only
  split
  · next hint =>
    have hmax : max a.int 1 = a.int := by omega
    rw [hmax]
    rcases Nat.mod_two_eq_zero_or_one a.int with heven | hodd
    · rw [heven, if_neg (not_not.mpr rfl)]
      refine ⟨_, hguess (a.int - 2) 6 (by decide) (by decide), by positivity, ?_, ?_⟩
      · calc 10 ^ (a.int - 2) * 6 ≤ 10 ^ (a.int - 2) * 10 ^ 2 := Nat.mul_le_mul_left _ (by decide)
          _ = 10 ^ (a.int - 2 + 2) := (pow_add _ _ _).symm
          _ = 10 ^ a.int := by
            congr 1
            omega
      · show (List.replicate _ _ ++ [_]).length ≤ _
        rw [List.length_append, List.length_replicate, List.length_singleton]
        omega
    · rw [hodd, if_pos (by decide)]
      refine ⟨_, hguess (a.int - 1) 2 (by decide) (by decide), by positivity, ?_, ?_⟩
      · calc 10 ^ (a.int - 1) * 2 ≤ 10 ^ (a.int - 1) * 10 ^ 1 := Nat.mul_le_mul_left _ (by decide)
          _ = 10 ^ (a.int - 1 + 1) := (pow_add _ _ _).symm
          _ = 10 ^ a.int := by
            congr 1
            omega
      · show (List.replicate _ _ ++ [_]).length ≤ _
        rw [List.length_append, List.length_replicate, List.length_singleton]
        omega
  · refine ⟨_, hguess 0 1 (by decide) (by decide), by positivity, ?_, Nat.le_max_right _ _⟩
    exact Nat.one_le_pow _ _ (by decide)

end Rustybox.Bc
