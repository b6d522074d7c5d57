import Mathlib.Data.Nat.Sqrt
import Mathlib.Tactic.Linarith
import Mathlib.Tactic.Ring

/-!
# Newton's iteration for the integer square root

`step N X` is the mean of `X` and `N / X`, both rounded down.  From anywhere it leads to the root or
above it, and from above the root it halves the distance.  It settles on the root, or, where `N + 1`
is a square, goes back and forth between the root and the number behind it.
-/

namespace Newton

/-- The mean of `X` and `N / X`. -/
def step (N X : ℕ) : ℕ := (X + N / X) / 2

/-- The number behind is a square. -/
def Cycles (N : ℕ) : Prop := N = Nat.sqrt N * Nat.sqrt N + 2 * Nat.sqrt N

instance (N : ℕ) : Decidable (Cycles N) := inferInstanceAs (Decidable (_ = _))

/-- The root, or the number behind it where the iteration goes back and forth. -/
def Settled (N X : ℕ) : Prop := X = Nat.sqrt N ∨ X = Nat.sqrt N + 1 ∧ Cycles N

section

variable {N X S : ℕ}

/-- **One step leads to the root or above it.** -/
theorem sqrt_le_step (hX : 0 < X) : Nat.sqrt N ≤ step N X := by
  have hdiv : N < X * (N / X + 1) := Nat.lt_mul_div_succ N hX
  have hmean : X + N / X < 2 * (step N X + 1) := by
    rw [step]
    omega
  have hsq : N < (step N X + 1) * (step N X + 1) := by
    have hle : X + (N / X + 1) ≤ 2 * (step N X + 1) := hmean
    generalize N / X + 1 = q at *
    generalize step N X + 1 = t at *
    have hamgm : 4 * (X * q) ≤ (X + q) * (X + q) := by
      zify
      nlinarith [sq_nonneg ((X : ℤ) - q)]
    have hmono := Nat.mul_le_mul hle hle
    nlinarith
  exact Nat.le_of_lt_succ (Nat.sqrt_lt.mpr hsq)

theorem div_le_sqrt (h : Nat.sqrt N < X) : N / X ≤ Nat.sqrt N := by
  refine Nat.le_of_lt_succ ((Nat.div_lt_iff_lt_mul (by omega)).mpr ?_)
  exact Nat.lt_of_lt_of_le (Nat.lt_succ_sqrt N) (Nat.mul_le_mul_left _ h)

/-- **From above the root a step halves the distance.** -/
theorem two_mul_step_le (h : Nat.sqrt N < X) : 2 * step N X ≤ X + Nat.sqrt N := by
  have hdiv := div_le_sqrt h
  rw [step]
  omega

theorem step_lt (h : Nat.sqrt N < X) : step N X < X := by
  have hstep := two_mul_step_le h
  omega

theorem eq_sqrt_of_step (hX : 0 < X) (h : step N X = X) : X = Nat.sqrt N := by
  have hle := sqrt_le_step (N := N) hX
  by_contra hne
  have hlt := step_lt (N := N) (X := X) (by omega)
  omega

theorem div_sqrt (hS : 0 < Nat.sqrt N) :
    Nat.sqrt N ≤ N / Nat.sqrt N ∧ N / Nat.sqrt N ≤ Nat.sqrt N + 2 := by
  have hle := Nat.sqrt_le N
  have hlt := Nat.sqrt_le_add N
  constructor
  · exact (Nat.le_div_iff_mul_le hS).mpr hle
  · refine Nat.le_of_lt_succ ((Nat.div_lt_iff_lt_mul hS).mpr ?_)
    show N < (Nat.sqrt N + 3) * Nat.sqrt N
    rw [Nat.add_mul]
    omega

/-- From the root the iteration goes on to the number behind it only where `N + 1` is a square. -/
theorem step_sqrt (hS : 0 < Nat.sqrt N) :
    step N (Nat.sqrt N) = if Cycles N then Nat.sqrt N + 1 else Nat.sqrt N := by
  obtain ⟨hlo, hhi⟩ := div_sqrt hS
  have hcycle : N / Nat.sqrt N = Nat.sqrt N + 2 ↔ Cycles N := by
    rw [Cycles]
    have hle := Nat.sqrt_le_add N
    have hdiv := Nat.le_div_iff_mul_le hS (x := Nat.sqrt N + 2) (y := N)
    rw [Nat.add_mul] at hdiv
    omega
  rw [step]
  split
  · next h =>
    rw [hcycle.mpr h]
    omega
  · next h =>
    have hne := mt hcycle.mp h
    omega

theorem step_succ_sqrt : step N (Nat.sqrt N + 1) = Nat.sqrt N := by
  have hle := sqrt_le_step (N := N) (Nat.succ_pos (Nat.sqrt N))
  have hstep := two_mul_step_le (Nat.lt_succ_self (Nat.sqrt N))
  rw [Nat.succ_eq_add_one] at hle hstep
  omega

namespace Settled

theorem le (h : Settled N X) : Nat.sqrt N ≤ X := by
  rcases h with rfl | ⟨rfl, -⟩
  · exact Nat.le_refl _
  · exact Nat.le_succ _

theorem le_succ (h : Settled N X) : X ≤ Nat.sqrt N + 1 := by
  rcases h with rfl | ⟨rfl, -⟩
  · exact Nat.le_succ _
  · exact Nat.le_refl _

/-- **What has settled stays so**, and comes back in two steps. -/
theorem next (h : Settled N X) (hS : 0 < Nat.sqrt N) :
    Settled N (step N X) ∧ step N (step N X) = X := by
  rcases h with rfl | ⟨rfl, hcycle⟩
  · rw [step_sqrt hS]
    split
    · next hcycle => exact ⟨.inr ⟨rfl, hcycle⟩, step_succ_sqrt⟩
    · next hcycle =>
      rw [step_sqrt hS, if_neg hcycle]
      exact ⟨.inl rfl, rfl⟩
  · rw [step_succ_sqrt, step_sqrt hS, if_pos hcycle]
    exact ⟨.inl rfl, rfl⟩

end Settled

/-! ### The descent -/

/-- What is left of the square where a step ends. -/
theorem mul_le_of_step (X : ℕ) : X * (2 * step N X - X) ≤ N := by
  have hq : 2 * step N X - X ≤ N / X := by
    rw [step]
    generalize N / X = q
    omega
  exact (Nat.mul_le_mul_left X hq).trans (Nat.mul_div_le N X)

/-- A step by less than two leads to where the iteration settles. -/
theorem settled_of_small_step (h : Nat.sqrt N < X) (hsmall : X ≤ step N X + 1) :
    Settled N (step N X) := by
  have hle := sqrt_le_step (N := N) (X := X) (by omega)
  have hlt := step_lt h
  rcases Nat.eq_or_lt_of_le hle with heq | hgt
  · exact .inl heq.symm
  · have hN := mul_le_of_step (N := N) X
    have hsucc := Nat.lt_succ_sqrt N
    obtain ⟨y, hy⟩ : ∃ y, step N X = y + 1 := ⟨step N X - 1, by omega⟩
    have hX : X = y + 2 := by omega
    rw [hy, hX, show 2 * (y + 1) - (y + 2) = y by omega] at hN
    have hsqrt : Nat.sqrt N = y := by
      refine Nat.le_antisymm (by omega) (Nat.le_sqrt.mpr ?_)
      have hmono := Nat.mul_le_mul_right y (show y ≤ y + 2 by omega)
      exact hmono.trans hN
    rw [hsqrt] at hsucc
    refine .inr ⟨by rw [hsqrt, hy], ?_⟩
    rw [Cycles, hsqrt]
    rw [Nat.succ_mul, Nat.mul_succ] at hsucc
    rw [Nat.add_mul] at hN
    omega

/-- **A step is at most half as long as the one before it.** -/
theorem two_mul_sub_step_le (h : Nat.sqrt N < X) (hlong : step N X + 2 ≤ X) (hq : 3 ≤ N / X) :
    2 * (step N X - step N (step N X)) ≤ X - step N X := by
  have hN := mul_le_of_step (N := N) X
  have hmean : X + N / X ≤ 2 * step N X + 1 := by
    rw [step]
    omega
  have hnext : step N X + N / step N X ≤ 2 * step N (step N X) + 1 := by
    rw [step.eq_1 N (step N X)]
    omega
  generalize step N (step N X) = Z at *
  generalize step N X = Y at *
  obtain ⟨w, rfl⟩ : ∃ w, X = Y + w := ⟨X - Y, by omega⟩
  obtain ⟨v, rfl⟩ : ∃ v, Y = w + 2 + v := ⟨Y - (w + 2), by omega⟩
  rw [show 2 * (w + 2 + v) - (w + 2 + v + w) = v + 2 by omega] at hN
  have hdiv : v + 3 ≤ N / (w + 2 + v) := by
    refine (Nat.le_div_iff_mul_le (by omega)).mpr (le_trans ?_ hN)
    obtain ⟨k, rfl⟩ : ∃ k, w = k + 2 := ⟨w - 2, by omega⟩
    nlinarith [Nat.zero_le (k * v)]
  omega

/-- **No long descent keeps to one digit**: of six numbers that follow one another above the root,
and that differ in the digit of weight `u` each time, the first and the last differ in a digit
before it. -/
theorem no_long_descent {x : ℕ → ℕ} {u : ℕ} (hu : 0 < u) (hx : ∀ i < 5, x (i + 1) = step N (x i))
    (hq : 3 ≤ N / x 0) (hroot : ∀ i ≤ 4, Nat.sqrt N < x i ∧ ¬ Settled N (x i))
    (hdigit : ∀ i < 5, x i / u ≠ x (i + 1) / u) : x 0 / (10 * u) ≠ x 5 / (10 * u) := by
  have hlt : ∀ i < 5, x (i + 1) < x i := fun i hi => by
    rw [hx i hi]
    exact step_lt (hroot i (by omega)).1
  have hlong : ∀ i < 4, x (i + 1) + 2 ≤ x i := fun i hi => by
    by_contra hshort
    have hsmall : x i ≤ step N (x i) + 1 := by
      rw [← hx i (by omega)]
      omega
    have hsettled := settled_of_small_step (hroot i (by omega)).1 hsmall
    rw [← hx i (by omega)] at hsettled
    exact (hroot (i + 1) (by omega)).2 hsettled
  have h1 : x 1 < x 0 := hlt 0 (by omega)
  have h2 : x 2 < x 1 := hlt 1 (by omega)
  have h3 : x 3 < x 2 := hlt 2 (by omega)
  have h4 : x 4 < x 3 := hlt 3 (by omega)
  have h5 : x 5 < x 4 := hlt 4 (by omega)
  have hhalf : ∀ i < 4, x i ≤ x 0 → 2 * (x (i + 1) - x (i + 2)) ≤ x i - x (i + 1) := by
    intro i hi hle
    have hpos := Nat.zero_lt_of_lt (hroot i (by omega)).1
    have hqi : 3 ≤ N / x i := hq.trans (Nat.div_le_div_left hle hpos)
    have hlongi := hlong i hi
    have hhalf := two_mul_sub_step_le (hroot i (by omega)).1
      (by rw [← hx i (by omega)]; exact hlongi) hqi
    rwa [← hx i (by omega), ← hx (i + 1) (by omega)] at hhalf
  have w1 : 2 * (x 1 - x 2) ≤ x 0 - x 1 := hhalf 0 (by omega) (by omega)
  have w2 : 2 * (x 2 - x 3) ≤ x 1 - x 2 := hhalf 1 (by omega) (by omega)
  have w3 : 2 * (x 3 - x 4) ≤ x 2 - x 3 := hhalf 2 (by omega) (by omega)
  have w4 : 2 * (x 4 - x 5) ≤ x 3 - x 4 := hhalf 3 (by omega) (by omega)
  -- the last two steps together pass a whole unit
  have hunit : x 5 + u < x 3 := by
    have hd3 : x 3 / u ≠ x 4 / u := hdigit 3 (by omega)
    have hd4 : x 4 / u ≠ x 5 / u := hdigit 4 (by omega)
    have hm3 := Nat.div_le_div_right (c := u) (Nat.le_of_lt h4)
    have hm4 := Nat.div_le_div_right (c := u) (Nat.le_of_lt h5)
    have hlo := Nat.lt_mul_div_succ (x 5) hu
    have hhi := Nat.mul_div_le (x 3) u
    have hmul : u * (x 5 / u + 2) ≤ u * (x 3 / u) := Nat.mul_le_mul_left u (by omega)
    rw [Nat.mul_add] at hlo hmul
    omega
  intro heq
  have hlo := Nat.mul_div_le (x 5) (10 * u)
  have hhi := Nat.lt_mul_div_succ (x 0) (show 0 < 10 * u by omega)
  rw [heq, Nat.mul_add] at hhi
  omega

/-! ### More digits -/

/-- The root of a number with more digits begins with the digits of the root. -/
theorem sqrt_mul_sq_div (N : ℕ) {k : ℕ} (hk : 0 < k) : Nat.sqrt (N * (k * k)) / k = Nat.sqrt N := by
  refine Nat.div_eq_of_lt_le ?_ ?_
  · rw [Nat.le_sqrt]
    calc Nat.sqrt N * k * (Nat.sqrt N * k) = Nat.sqrt N * Nat.sqrt N * (k * k) := by ring
      _ ≤ N * (k * k) := Nat.mul_le_mul_right _ (Nat.sqrt_le N)
  · rw [Nat.sqrt_lt]
    calc N * (k * k) < (Nat.sqrt N + 1) * (Nat.sqrt N + 1) * (k * k) :=
          Nat.mul_lt_mul_of_pos_right (Nat.lt_succ_sqrt N) (Nat.mul_pos hk hk)
      _ = (Nat.sqrt N + 1) * k * ((Nat.sqrt N + 1) * k) := by ring

/-- From a number next to the root the iteration does not go far. -/
theorem step_le_of_near (hX : 100 ≤ X) (hlo : Nat.sqrt N ≤ X + 9) (hhi : X ≤ Nat.sqrt N + 10) :
    step N X ≤ Nat.sqrt N + 10 := by
  rcases Nat.lt_or_ge (Nat.sqrt N) X with hlt | hge
  · have hstep := two_mul_step_le hlt
    omega
  · have hN := Nat.sqrt_le_add N
    have hsq := Nat.mul_le_mul hlo hlo
    have hdiv : N / X < X + 21 := by
      refine (Nat.div_lt_iff_lt_mul (by omega)).mpr ?_
      rw [Nat.add_mul X 21 X]
      rw [Nat.add_mul, Nat.mul_add] at hsq
      omega
    rw [step]
    omega

/-- Two squares are not that close. -/
theorem not_cycles_mul_hundred (hS : 5 ≤ Nat.sqrt N) (h : Cycles N) : ¬ Cycles (N * 100) := by
  intro h'
  have hdiv := sqrt_mul_sq_div N (k := 10) (by decide)
  rw [show 10 * 10 = 100 from rfl] at hdiv
  rw [Cycles] at h h'
  generalize Nat.sqrt (N * 100) = T at *
  generalize Nat.sqrt N = S at *
  subst h
  rcases Nat.lt_or_eq_of_le (show T ≤ 10 * S + 9 by omega) with hlt | rfl
  · have hmono := Nat.mul_le_mul (Nat.le_of_lt_succ hlt) (Nat.le_of_lt_succ hlt)
    nlinarith
  · ring_nf at h'
    omega

end

end Newton
