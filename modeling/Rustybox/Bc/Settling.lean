import Rustybox.Bc.Roots

/-!
# The end of the square root's loop

From above the root the iteration descends, and it does not change one and the same digit often
enough for the working precision to be raised.  Once it has settled, either the number has as many
digits as the loop waits for, or every turn is like the one before it, the precision is raised, and
the iteration settles again before that can be repeated.

* `no_five_turns`: on the way down the precision stays as it is.
* `settledEnds`: where the iteration has settled, the loop ends.
-/

namespace Rustybox.Bc

open Positional Truncation

/-- The integer root at a scale of at least `m`, as a number. -/
def IsRootFrom (a : BcNum) (m : ℕ) (b : BcNum) : Prop :=
  ∃ r, m ≤ r ∧ b = atScale r (Nat.sqrt (radicand a r))

/-- The loop ends from here, with the root or, above the limit, with the error. -/
def Ends (a : BcNum) (m len limit : ℕ) (s : SqrtState) : Prop :=
  ∃ n, ∀ fuel ≥ n, ∀ turns ≥ n, ResultOr (IsRootFrom a m) limit (sqrtLoop fuel a len turns s)

/-- A working precision of the loop. -/
structure Precision (a : BcNum) (m limit r : ℕ) : Prop where
  rdx : a.rdx + 3 ≤ r
  scale : m ≤ r
  size : max a.int 1 + r < 2 ^ 63
  limit : max a.int 1 + 3 * r + 2 ≤ limit

/-- A turn of the loop from `X`, in units of the last digit of the working precision. -/
def SqrtState.turn (a : BcNum) (r : ℕ) (s : SqrtState) (X : ℕ) : SqrtState :=
  s.next (atScale r (Newton.step (radicand a r) X))

/-- The iteration is at `X`, which is not below the root, and the variables fit. -/
structure At (a : BcNum) (r : ℕ) (s : SqrtState) (X : ℕ) : Prop where
  x0 : s.x0 = atScale r X
  root : Nat.sqrt (radicand a r) ≤ X
  guess : Guess a r X
  done : s.cmp = 0 → X = Nat.sqrt (radicand a r)
  digs : (s.digs1 + |s.cmp1| - s.x0.len) % 2 ^ 64 = 0

section

variable {a : BcNum} {m len limit r : ℕ} {s : SqrtState} {X : ℕ}

theorem Ends.now (hcmp : s.cmp = 0) (hdigs : (len : ℤ) ≤ s.digs) (hroot : IsRootFrom a m s.x0) :
    Ends a m len limit s := by
  refine ⟨1, fun fuel _ turns hturns => ?_⟩
  obtain ⟨turns, rfl⟩ := Nat.exists_eq_add_one_of_ne_zero (Nat.ne_zero_of_lt hturns)
  rw [sqrtLoop, if_neg (fun h => h.elim (fun h => h hcmp) (fun h => absurd h (not_lt.mpr hdigs)))]
  exact .ok hroot

variable (ha : Normal a) (hne : a.num ≠ []) (hneg : a.neg = false)

include ha hne in
theorem Guess.three_le (h : Guess a r X) (hr : a.rdx + 3 ≤ r) : 3 ≤ radicand a r / X := by
  refine (Nat.le_div_iff_mul_le (Nat.pos_of_ne_zero h.ne)).mpr ?_
  have hceiling := hundred_mul_ceiling_le ha hne hr
  have hX := h.le
  omega

theorem Guess.len_le (h : Guess a r X) :
    (atScale r (X + radicand a r / X)).len ≤ max a.int 1 + r + 1 := by
  have hX := h.le
  have hpos := Nat.pos_of_ne_zero h.ne
  have hdiv : radicand a r / X < ceiling a r :=
    (Nat.div_lt_iff_lt_mul hpos).mpr (by
      rw [mul_comm]
      exact h.lt)
  refine (len_atScale_le (Nat.ne_of_gt (Nat.add_pos_left hpos _))).mpr ⟨?_, by omega⟩
  rw [pow_succ, ← ceiling]
  generalize radicand a r / X = q at *
  omega

include ha hne hneg in
/-- **The loop ends if it does after one more turn.** -/
theorem Ends.turn (hr : Precision a m limit r) {j : ℕ} (hx0 : s.x0 = atScale j X)
    (hresrdx : s.resrdx = r) (hj : j ≤ r) (hguess : Guess a r (X * 10 ^ (r - j)))
    (hdone : s.cmp = 0 → IsRootFrom a m s.x0)
    (h : Ends a m len limit (s.turn a r (X * 10 ^ (r - j)))) : Ends a m len limit s := by
  have hX : X ≠ 0 := left_ne_zero_of_mul hguess.ne
  by_cases hgo : s.cmp ≠ 0 ∨ s.digs < len
  · obtain ⟨n, hn⟩ := h
    have hrdx := hr.rdx
    have hthree := hguess.three_le ha hne hrdx
    have hlen := hguess.len_le
    refine ⟨n + (max a.int 1 + 2 * r + 10) + 1, fun fuel hfuel turns hturns => ?_⟩
    obtain ⟨turns, rfl⟩ := Nat.exists_eq_add_one_of_ne_zero (Nat.ne_zero_of_lt hturns)
    have hdiv := div_atScale ha hneg hj (show a.rdx ≤ 2 * r by omega) hX
      (show 10 ≤ fuel by omega)
    have hadd := add_atScale (r := r) (Y := radicand a r / (X * 10 ^ (r - j))) hj hX (by omega)
    have hlarge : (atScale r (X * 10 ^ (r - j) + radicand a r / (X * 10 ^ (r - j)))).len + r + 1 <
        fuel := by omega
    have hmul := mul_half (r := r) (by omega) hlarge
    have hquotient : ResultOr (· = atScale r (radicand a r / (X * 10 ^ (r - j)))) limit
        (div fuel a (atScale j X) r) := by
      rw [hdiv]
      exact .ok rfl
    rw [sqrtLoop, if_pos hgo, hresrdx, hx0]
    refine hquotient.bind id fun f hf => ?_
    subst hf
    dsimp only
    rw [hadd]
    refine hmul.bind (fun hlong => ?_) fun c hc => ?_
    · have hlimit := hr.limit
      omega
    · subst hc
      exact hn fuel (by omega) turns (by omega)
  · rw [not_or, not_not, not_lt] at hgo
    exact .now hgo.1 hgo.2 (hdone hgo.1)

include ha hne in
theorem At.turn {j : ℕ} (hr : a.rdx + 3 ≤ r) (hx0 : s.x0 = atScale j X) (hj : j ≤ r)
    (hguess : Guess a r (X * 10 ^ (r - j))) :
    At a r (s.turn a r (X * 10 ^ (r - j))) (Newton.step (radicand a r) (X * 10 ^ (r - j))) := by
  have hpos := Nat.pos_of_ne_zero hguess.ne
  refine ⟨rfl, Newton.sqrt_le_step hpos, hguess.step ha hne hr, fun hcmp => ?_, ?_⟩
  · change cmp (atScale r _) s.x0 = 0 at hcmp
    have hmis : ¬ Misjudged (atScale r (Newton.step (radicand a r) (X * 10 ^ (r - j))))
        (atScale j X) := fun h => by
      rw [Misjudged, atScale_neg] at h
      exact Bool.false_ne_true h.1
    have hvalue := ((cmp_iff (normal_atScale _ _) (normal_atScale _ _)).mpr hmis).2.1.mp
      (hx0 ▸ hcmp)
    rw [value_atScale, value_atScale_of_le X hj, div_left_inj' (by positivity), Nat.cast_inj]
      at hvalue
    exact hvalue.trans (Newton.eq_sqrt_of_step hpos hvalue)
  · change (((atScale r _).len - |cmp (atScale r _) s.x0|) % 2 ^ 64 + |cmp (atScale r _) s.x0| -
      (atScale r _).len) % 2 ^ 64 = 0
    omega

theorem At.len_le (h : At a r s X) : (atScale r X).len ≤ max a.int 1 + r + 1 := by
  have hle := h.guess.le
  have hpos := Nat.pos_of_ne_zero h.guess.ne
  refine (len_atScale_le h.guess.ne).mpr ⟨?_, by omega⟩
  rw [pow_succ, ← ceiling]
  omega

theorem At.len_lt (h : At a r s X) (hr : Precision a m limit r) : (atScale r X).len < 2 ^ 64 := by
  have hlen := h.len_le
  have hsize := hr.size
  omega

theorem At.lt (h : At a r s X) (hun : ¬ Newton.Settled (radicand a r) X) :
    Nat.sqrt (radicand a r) < X :=
  Nat.lt_of_le_of_ne h.root fun heq => hun (.inl heq.symm)

/-! ### The way down -/

/-- The last turns went down, as many of them as `times` says, and each was like the one before
the last. -/
inductive Streak (a : BcNum) (r : ℕ) : ℕ → SqrtState → ℕ → Prop
  | start {s : SqrtState} {X : ℕ} (h : At a r s X) : Streak a r 0 s X
  | turn {times : ℕ} {s : SqrtState} {X : ℕ} (h : Streak a r times s X)
      (hun : ¬ Newton.Settled (radicand a r) X) (hcmp : (s.turn a r X).cmp1 = s.cmp2)
      (hdigs : (s.turn a r X).digs1 = s.digs1) :
      Streak a r (times + 1) (s.turn a r X) (Newton.step (radicand a r) X)

include ha hne in
theorem At.next (h : At a r s X) (hr : a.rdx + 3 ≤ r) :
    At a r (s.turn a r X) (Newton.step (radicand a r) X) := by
  have hturn := At.turn ha hne hr h.x0 (Nat.le_refl r) (X := X)
  rw [Nat.sub_self, pow_zero, mul_one] at hturn
  exact hturn h.guess

include ha hne hneg in
theorem At.ends_next (h : At a r s X) (hr : Precision a m limit r) (hresrdx : s.resrdx = r)
    (hends : Ends a m len limit (s.turn a r X)) : Ends a m len limit s := by
  have hone : X * 10 ^ (r - r) = X := by rw [Nat.sub_self, pow_zero, mul_one]
  refine .turn ha hne hneg hr h.x0 hresrdx (Nat.le_refl r) (hone.symm ▸ h.guess)
    (fun hcmp => ⟨r, hr.scale, ?_⟩) (hone.symm ▸ hends)
  rw [h.x0, h.done hcmp]

include ha hne in
theorem Streak.toAt {times : ℕ} (h : Streak a r times s X) (hr : a.rdx + 3 ≤ r) : At a r s X := by
  induction h with
  | start h => exact h
  | turn h hun hcmp hdigs ih => exact ih.next ha hne hr

theorem len_atScale_mono {X Y : ℕ} (hX : X ≠ 0) (h : X ≤ Y) :
    (atScale r X).len ≤ (atScale r Y).len := by
  obtain ⟨hlt, hr⟩ := (len_atScale_le (r := r) (Nat.ne_of_gt (Nat.lt_of_lt_of_le
    (Nat.pos_of_ne_zero hX) h))).mp (Nat.le_refl _)
  exact (len_atScale_le hX).mpr ⟨Nat.lt_of_le_of_lt h hlt, hr⟩

theorem At.digs_eq (h : At a r s X) : (s.digs1 + |s.cmp1| - (atScale r X).len) % 2 ^ 64 = 0 := by
  have hdigs := h.digs
  rwa [h.x0] at hdigs

include ha hne in
theorem Streak.history {times : ℕ} (h : Streak a r times s X) (hr : a.rdx + 3 ≤ r) :
    ∃ (v : ℕ → SqrtState) (x : ℕ → ℕ), v 0 = s ∧ x 0 = X ∧ (∀ i ≤ times, At a r (v i) (x i)) ∧
      ∀ i < times, ¬ Newton.Settled (radicand a r) (x (i + 1)) ∧
        x i = Newton.step (radicand a r) (x (i + 1)) ∧
        v i = (v (i + 1)).turn a r (x (i + 1)) ∧
        (v i).cmp1 = (v (i + 1)).cmp2 ∧ (v i).digs1 = (v (i + 1)).digs1 := by
  induction h with
  | @start s X h =>
    refine ⟨fun _ => s, fun _ => X, rfl, rfl, fun _ _ => h, fun i hi => ?_⟩
    exact absurd hi (Nat.not_lt_zero i)
  | @turn times s X h hun hcmp hdigs ih =>
    obtain ⟨v, x, rfl, rfl, hat, hlink⟩ := ih
    refine ⟨fun i => i.casesOn ((v 0).turn a r (x 0)) v,
      fun i => i.casesOn (Newton.step (radicand a r) (x 0)) x, rfl, rfl, fun i hi => ?_,
      fun i hi => ?_⟩
    · cases i with
      | zero => exact (hat 0 (Nat.zero_le _)).next ha hne hr
      | succ i => exact hat i (Nat.le_of_succ_le_succ hi)
    · cases i with
      | zero => exact ⟨hun, rfl, rfl, hcmp, hdigs⟩
      | succ i => exact hlink i (Nat.lt_of_succ_lt_succ hi)

/-- A turn that is like the one before the last has not changed the length of the number. -/
theorem len_eq_of_alike (hr : Precision a m limit r) {s₀ s₁ s₂ : SqrtState} {X₀ X₁ X₂ : ℕ}
    (h₀ : At a r s₀ X₀) (h₁ : At a r s₁ X₁) (h₂ : At a r s₂ X₂) (hle₁ : X₁ ≤ X₀) (hle₂ : X₂ ≤ X₁)
    (hdigs : s₂.digs1 = s₀.digs1) (hcmp : s₂.cmp1 = s₀.cmp1) :
    (atScale r X₁).len = (atScale r X₀).len ∧ (atScale r X₂).len = (atScale r X₁).len := by
  have g₀ := h₀.digs_eq
  have g₂ := h₂.digs_eq
  rw [hdigs, hcmp] at g₂
  have l₁ := len_atScale_mono (r := r) h₁.guess.ne hle₁
  have l₂ := len_atScale_mono (r := r) h₂.guess.ne hle₂
  have hlt := h₀.len_lt hr
  generalize |s₀.cmp1| = c at *
  omega

include ha hne in
/-- **On the way down five turns in a row are not alike.** -/
theorem no_five_turns (hr : Precision a m limit r) : ¬ Streak a r 5 s X := by
  intro h
  have hrdx := hr.rdx
  obtain ⟨v, x, -, -, hat, hlink⟩ := h.history ha hne hrdx
  have hdown : ∀ i < 5, x i < x (i + 1) := fun i hi => by
    obtain ⟨hun, hstep, -⟩ := hlink i hi
    rw [hstep]
    exact Newton.step_lt ((hat (i + 1) hi).lt hun)
  have hlen : ∀ i < 4, (atScale r (x (i + 1))).len = (atScale r (x (i + 2))).len ∧
      (atScale r (x i)).len = (atScale r (x (i + 1))).len := fun i hi => by
    obtain ⟨-, -, -, hcmp, hdigs⟩ := hlink i (by omega)
    obtain ⟨-, -, hturn, -, hdigs'⟩ := hlink (i + 1) (by omega)
    refine len_eq_of_alike hr (hat (i + 2) (by omega)) (hat (i + 1) (by omega))
      (hat i (by omega)) (Nat.le_of_lt (hdown (i + 1) (by omega)))
      (Nat.le_of_lt (hdown i (by omega))) (hdigs.trans hdigs') (hcmp.trans ?_)
    rw [hturn]
    rfl
  have hlen5 : ∀ i < 5, (atScale r (x i)).len = (atScale r (x (i + 1))).len := fun i hi => by
    rcases Nat.lt_or_eq_of_le (Nat.le_of_lt_succ hi) with hlt | rfl
    · exact (hlen i hlt).2
    · exact (hlen 3 (by omega)).1
  -- the position of the first digit that differs
  have hposition : ∀ i < 5, ∀ c : ℕ, |(v i).cmp1| = c → x i / 10 ^ c = x (i + 1) / 10 ^ c ∧
      c ≤ (atScale r (x i)).len ∧
      (x i ≠ x (i + 1) → c ≠ 0 ∧ x i / 10 ^ (c - 1) ≠ x (i + 1) / 10 ^ (c - 1)) := by
    intro i hi c hc
    obtain ⟨-, hstep, hturn, -⟩ := hlink i hi
    have hcmp : (v i).cmp1 = cmp (atScale r (x i)) (atScale r (x (i + 1))) := by
      rw [hturn, hstep, ← (hat (i + 1) hi).x0]
      rfl
    rw [hcmp] at hc
    exact cmp_position (hat i (by omega)).guess.ne (hat (i + 1) hi).guess.ne (hlen5 i hi) hc
  have hsame : ∀ i < 4, |(v (i + 1)).cmp1| = |(v i).cmp1| := fun i hi => by
    have hdigs := (hlink i (by omega)).2.2.2.2
    have g := (hat i (by omega)).digs_eq
    have g' := (hat (i + 1) (by omega)).digs_eq
    have hlt := (hat i (by omega)).len_lt hr
    have hle := (hposition i (by omega) _ (Int.abs_eq_natAbs _)).2.1
    have hle' := (hposition (i + 1) (by omega) _ (Int.abs_eq_natAbs _)).2.1
    rw [hdigs, hlen5 i (by omega), Int.abs_eq_natAbs] at g
    rw [Int.abs_eq_natAbs] at g'
    rw [Int.abs_eq_natAbs, Int.abs_eq_natAbs]
    have hlen' := hlen5 i (by omega)
    generalize (v i).cmp1.natAbs = c at *
    generalize (v (i + 1)).cmp1.natAbs = c' at *
    omega
  obtain ⟨c, hc⟩ : ∃ c : ℕ, |(v 0).cmp1| = c := ⟨_, Int.abs_eq_natAbs _⟩
  have hall : ∀ i < 5, |(v i).cmp1| = c := by
    intro i hi
    induction i with
    | zero => exact hc
    | succ i ih => exact (hsame i (by omega)).trans (ih (by omega))
  have hdiff : ∀ i < 5, c ≠ 0 ∧ x i / 10 ^ (c - 1) ≠ x (i + 1) / 10 ^ (c - 1) := fun i hi =>
    (hposition i hi c (hall i hi)).2.2 (Nat.ne_of_lt (hdown i hi))
  have htop : ∀ i < 5, x i / 10 ^ c = x (i + 1) / 10 ^ c := fun i hi =>
    (hposition i hi c (hall i hi)).1
  have hten : 10 * 10 ^ (c - 1) = 10 ^ c := by
    rw [← pow_succ', Nat.sub_add_cancel (Nat.pos_of_ne_zero (hdiff 0 (by omega)).1)]
  have hback : ∀ i < 5, 5 - i = 4 - i + 1 := fun i hi => by omega
  refine Newton.no_long_descent (N := radicand a r) (x := fun i => x (5 - i)) (u := 10 ^ (c - 1))
    (by positivity) (fun i hi => ?_) ((hat 5 (Nat.le_refl 5)).guess.three_le ha hne hrdx)
    (fun i hi => ?_) (fun i hi => ?_) ?_
  · rw [hback i hi, show 5 - (i + 1) = 4 - i by omega]
    exact (hlink (4 - i) (by omega)).2.1
  · rw [hback i (by omega)]
    have hun := (hlink (4 - i) (by omega)).1
    exact ⟨(hat (4 - i + 1) (by omega)).lt hun, hun⟩
  · rw [hback i hi, show 5 - (i + 1) = 4 - i by omega]
    exact (hdiff (4 - i) (by omega)).2.symm
  · rw [hten]
    exact ((htop 0 (by omega)).trans ((htop 1 (by omega)).trans ((htop 2 (by omega)).trans
      ((htop 3 (by omega)).trans (htop 4 (by omega)))))).symm

theorem turn_times (s : SqrtState) (X : ℕ) : (s.turn a r X).times =
    if (s.turn a r X).cmp1 = s.cmp2 ∧ (s.turn a r X).digs1 = s.digs1 then s.times + 1 else 0 := rfl

theorem turn_resrdx (s : SqrtState) (X : ℕ) : (s.turn a r X).resrdx =
    s.resrdx + if 4 < (s.turn a r X).times then 1 else 0 := rfl

theorem turn_resrdx_of_le (h : (s.turn a r X).times ≤ 4) : (s.turn a r X).resrdx = s.resrdx := by
  rw [turn_resrdx, if_neg (not_lt.mpr h), Nat.add_zero]

theorem turn_times_le (s : SqrtState) (X : ℕ) : (s.turn a r X).times ≤ s.times + 1 := by
  rw [turn_times]
  split
  · exact Nat.le_refl _
  · exact Nat.zero_le _

/-- Wherever the iteration has settled at this precision, the loop ends. -/
def SettledEnds (a : BcNum) (m len limit r : ℕ) : Prop :=
  ∀ (s : SqrtState) (X : ℕ), At a r s X → Newton.Settled (radicand a r) X → s.resrdx = r →
    Ends a m len limit s

include ha hne hneg in
/-- **The way down ends** where the iteration has settled. -/
theorem Streak.ends (hr : Precision a m limit r) (hsettled : SettledEnds a m len limit r) :
    ∀ (X : ℕ) (s : SqrtState), Streak a r s.times s X → s.resrdx = r → s.times ≤ 4 →
      Ends a m len limit s := by
  intro X
  induction X using Nat.strong_induction_on with
  | _ X ih =>
    intro s h hresrdx htimes
    have hat := h.toAt ha hne hr.rdx
    by_cases hun : Newton.Settled (radicand a r) X
    · exact hsettled s X hat hun hresrdx
    have hnext := hat.next ha hne hr.rdx
    have hstreak : Streak a r (s.turn a r X).times (s.turn a r X)
        (Newton.step (radicand a r) X) := by
      rw [turn_times]
      split
      · next hsame => exact .turn h hun hsame.1 hsame.2
      · exact .start hnext
    have hle : (s.turn a r X).times ≤ 4 := by
      by_contra hfive
      have hturn := turn_times_le (a := a) (r := r) s X
      rw [show (s.turn a r X).times = 5 by omega] at hstreak
      exact no_five_turns ha hne hr hstreak
    exact hat.ends_next ha hne hneg hr hresrdx
      (ih _ (Newton.step_lt (hat.lt hun)) _ hstreak ((turn_resrdx_of_le hle).trans hresrdx) hle)

include ha hne hneg in
theorem ends_of_near (hr : Precision a m limit r) (hsettled : SettledEnds a m len limit r) :
    ∀ (d : ℕ) (s : SqrtState) (X : ℕ), At a r s X → s.resrdx = r →
      X < Nat.sqrt (radicand a r) + 2 ^ d → s.times + d ≤ 4 → Ends a m len limit s := by
  intro d
  induction d with
  | zero =>
    intro s X hat hresrdx hX htimes
    have hroot := hat.root
    exact hsettled s X hat (.inl (by omega)) hresrdx
  | succ d ih =>
    intro s X hat hresrdx hX htimes
    by_cases hun : Newton.Settled (radicand a r) X
    · exact hsettled s X hat hun hresrdx
    have hhalf := Newton.two_mul_step_le (hat.lt hun)
    have hturn := turn_times_le (a := a) (r := r) s X
    have hle : (s.turn a r X).times ≤ 4 := by omega
    rw [pow_succ] at hX
    exact hat.ends_next ha hne hneg hr hresrdx (ih _ _ (hat.next ha hne hr.rdx)
      ((turn_resrdx_of_le hle).trans hresrdx) (by omega) (by omega))

/-! ### Where the iteration has settled -/

theorem len_settled (hr : a.rdx < 2 * r) (hS : Nat.sqrt (radicand a r) ≠ 0)
    (h : Newton.Settled (radicand a r) X) :
    (atScale r X).len = (atScale r (Nat.sqrt (radicand a r))).len := by
  rcases h with rfl | ⟨rfl, hcycle⟩
  · rfl
  refine Nat.le_antisymm ?_ (len_atScale_mono hS (Nat.le_succ _))
  obtain ⟨hlt, hle⟩ := (len_atScale_le (r := r) hS).mp (Nat.le_refl _)
  refine (len_atScale_le (Nat.succ_ne_zero _)).mpr ⟨Nat.lt_of_le_of_ne hlt fun heq => ?_, hle⟩
  -- the square of a power of ten does not lie behind a number that ends in zero
  have hten := ten_dvd_radicand hr
  rw [Newton.Cycles] at hcycle
  generalize (atScale r (Nat.sqrt (radicand a r))).len = n at *
  generalize Nat.sqrt (radicand a r) = S at *
  have hn : n ≠ 0 := by
    rintro rfl
    omega
  obtain ⟨k, rfl⟩ := Nat.exists_eq_add_one_of_ne_zero hn
  have hsq : radicand a r + 1 = 10 * (10 ^ k * (S + 1)) := by
    calc radicand a r + 1 = (S + 1) * (S + 1) := by
          rw [hcycle]
          ring
      _ = 10 ^ (k + 1) * (S + 1) := congrArg (· * (S + 1)) heq
      _ = 10 * (10 ^ k * (S + 1)) := by ring
  omega

/-- The precision has just been raised. -/
structure Raised (a : BcNum) (r : ℕ) (s : SqrtState) (X : ℕ) : Prop where
  toAt : At a r s X
  settled : Newton.Settled (radicand a r) X
  resrdx : s.resrdx = r + 1
  digs : (s.digs1 + |s.cmp2| - (atScale r X).len) % 2 ^ 64 = 0

/-- Every turn is like the one before the last. -/
structure Steady (a : BcNum) (r : ℕ) (s : SqrtState) (X : ℕ) : Prop where
  toAt : At a r s X
  settled : Newton.Settled (radicand a r) X
  cmp2 : s.cmp2 = cmp (atScale r (Newton.step (radicand a r) X)) (atScale r X)
  cmp1 : s.cmp1 = cmp (atScale r X) (atScale r (Newton.step (radicand a r) X))
  digs : s.digs1 = ((atScale r X).len - |s.cmp1|) % 2 ^ 64

theorem At.turn_cmp1 (h : At a r s X) : (s.turn a r X).cmp1 =
    cmp (atScale r (Newton.step (radicand a r) X)) (atScale r X) := by
  rw [← h.x0]
  rfl

theorem turn_digs1 (s : SqrtState) (X : ℕ) : (s.turn a r X).digs1 =
    ((atScale r (Newton.step (radicand a r) X)).len - |(s.turn a r X).cmp1|) % 2 ^ 64 := rfl

section

variable (hr : a.rdx + 3 ≤ r)

include ha hne hr

theorem sqrt_radicand_pos : 0 < Nat.sqrt (radicand a r) :=
  Nat.lt_of_lt_of_le (by decide) (ten_le_sqrt ha hne hr)

theorem settled_turn (h : Newton.Settled (radicand a r) X) :
    Newton.Settled (radicand a r) (Newton.step (radicand a r) X) ∧
      Newton.step (radicand a r) (Newton.step (radicand a r) X) = X ∧
      (atScale r (Newton.step (radicand a r) X)).len = (atScale r X).len := by
  have hS := sqrt_radicand_pos ha hne hr
  obtain ⟨hnext, hback⟩ := h.next hS
  have hrdx : a.rdx < 2 * r := by omega
  exact ⟨hnext, hback, (len_settled hrdx (Nat.ne_of_gt hS) hnext).trans
    (len_settled hrdx (Nat.ne_of_gt hS) h).symm⟩

theorem steady_of_two_turns (h : At a r s X) (hsettled : Newton.Settled (radicand a r) X) :
    Steady a r ((s.turn a r X).turn a r (Newton.step (radicand a r) X)) X := by
  obtain ⟨hnext, hback, -⟩ := settled_turn ha hne hr hsettled
  have h1 := h.next ha hne hr
  have h2 := h1.next ha hne hr
  have hcmp := h1.turn_cmp1
  have hdigs := turn_digs1 (a := a) (r := r) (s.turn a r X) (Newton.step (radicand a r) X)
  rw [hback] at h2 hcmp hdigs
  exact ⟨h2, hsettled, h.turn_cmp1, hcmp, hdigs⟩

/-- **A steady turn is like the one before the last**, and the next one is steady. -/
theorem Steady.turn (h : Steady a r s X) :
    Steady a r (s.turn a r X) (Newton.step (radicand a r) X) ∧
      (s.turn a r X).times = s.times + 1 := by
  obtain ⟨hnext, hback, hlen⟩ := settled_turn ha hne hr h.settled
  have hat := h.toAt.next ha hne hr
  have hcmp := h.toAt.turn_cmp1
  have hdigs := turn_digs1 (a := a) (r := r) s X
  refine ⟨⟨hat, hnext, ?_, ?_, hdigs⟩, ?_⟩
  · rw [hback]
    exact h.cmp1
  · rw [hback]
    exact hcmp
  · have hcomm := abs_cmp_comm (r := r) hat.guess.ne h.toAt.guess.ne hlen
    have hsame : (s.turn a r X).digs1 = s.digs1 := by
      rw [hdigs, h.digs, hcmp, h.cmp1, hlen, hcomm]
    exact if_pos ⟨hcmp.trans h.cmp2.symm, hsame⟩

end

include ha hne hneg in
/-- A turn where the iteration has settled: either the precision is raised, or it is not. -/
theorem ends_of_settled_turn (hr : Precision a m limit r)
    (hraised : ∀ s X, Raised a r s X → Ends a m len limit s) (h : At a r s X)
    (hsettled : Newton.Settled (radicand a r) X) (hresrdx : s.resrdx = r)
    (hnext : (s.turn a r X).resrdx = r → (s.turn a r X).times ≤ 4 →
      Ends a m len limit (s.turn a r X)) : Ends a m len limit s := by
  obtain ⟨hstill, -, hlen⟩ := settled_turn ha hne hr.rdx hsettled
  have hat := h.next ha hne hr.rdx
  refine h.ends_next ha hne hneg hr hresrdx ?_
  by_cases hle : (s.turn a r X).times ≤ 4
  · exact hnext ((turn_resrdx_of_le hle).trans hresrdx) hle
  refine hraised _ _ ⟨hat, hstill, ?_, ?_⟩
  · rw [turn_resrdx, hresrdx, if_pos (not_le.mp hle)]
  · have hsame : (s.turn a r X).digs1 = s.digs1 := by
      rw [turn_times] at hle
      split at hle
      · next hsame => exact hsame.2
      · omega
    have hcmp2 : (s.turn a r X).cmp2 = s.cmp1 := rfl
    rw [hsame, hcmp2, hlen]
    exact h.digs_eq

include ha hne hneg in
/-- **The precision is raised** where the iteration has settled, or the loop ends before. -/
theorem ends_of_raised (hr : Precision a m limit r)
    (hraised : ∀ s X, Raised a r s X → Ends a m len limit s) : SettledEnds a m len limit r := by
  have hsteady : ∀ (k : ℕ) (s : SqrtState) (X : ℕ), Steady a r s X → s.resrdx = r →
      s.times + k = 4 → Ends a m len limit s := by
    intro k
    induction k with
    | zero =>
      intro s X h hresrdx htimes
      refine ends_of_settled_turn ha hne hneg hr hraised h.toAt h.settled hresrdx
        fun _ hle => ?_
      have hturn := (h.turn ha hne hr.rdx).2
      omega
    | succ k ih =>
      intro s X h hresrdx htimes
      obtain ⟨hnext, hturn⟩ := h.turn ha hne hr.rdx
      exact ends_of_settled_turn ha hne hneg hr hraised h.toAt h.settled hresrdx
        fun hresrdx' _ => ih _ _ hnext hresrdx' (by omega)
  intro s X h hsettled hresrdx
  obtain ⟨hstill, -⟩ := settled_turn ha hne hr.rdx hsettled
  have hat := h.next ha hne hr.rdx
  refine ends_of_settled_turn ha hne hneg hr hraised h hsettled hresrdx
    fun hresrdx' _ => ?_
  refine ends_of_settled_turn ha hne hneg hr hraised hat hstill hresrdx'
    fun hresrdx'' htimes'' => ?_
  exact hsteady _ _ _ (steady_of_two_turns ha hne hr.rdx h hsettled) hresrdx''
    (Nat.add_sub_cancel' htimes'')

/-! ### The whole loop -/

theorem sqrt_radicand_succ (hr : a.rdx ≤ 2 * r) :
    Nat.sqrt (radicand a (r + 1)) / 10 = Nat.sqrt (radicand a r) := by
  rw [radicand_succ hr]
  exact Newton.sqrt_mul_sq_div (radicand a r) (k := 10) (by decide)

include ha hne in
theorem len_lt_of_raised (hr : a.rdx + 3 ≤ r) (h : Newton.Settled (radicand a r) X) {Y : ℕ}
    (hY : Nat.sqrt (radicand a (r + 1)) ≤ Y) : (atScale r X).len < (atScale (r + 1) Y).len := by
  have hS := sqrt_radicand_pos ha hne hr
  have hroot := sqrt_radicand_succ (a := a) (r := r) (by omega)
  rw [len_settled (by omega) (Nat.ne_of_gt hS) h]
  obtain ⟨hlt, hle⟩ := (len_atScale_le (r := r + 1) (X := Y) (by omega)).mp (Nat.le_refl _)
  obtain ⟨n, hn⟩ := Nat.exists_eq_add_one_of_ne_zero (Nat.ne_zero_of_lt hle)
  rw [hn] at hlt hle ⊢
  refine Nat.lt_succ_of_le ((len_atScale_le (Nat.ne_of_gt hS)).mpr ⟨?_, by omega⟩)
  rw [pow_succ] at hlt
  omega

include ha hne hneg in
/-- **After the precision has been raised** the iteration is near the root, and begins to count
anew. -/
theorem Raised.ends (hr : Precision a m limit r) (hr' : Precision a m limit (r + 1))
    (hsettled : SettledEnds a m len limit (r + 1)) (h : Raised a r s X) :
    Ends a m len limit s := by
  have hrdx := hr.rdx
  have hone : X * 10 ^ (r + 1 - r) = X * 10 := by rw [Nat.add_sub_cancel_left, pow_one]
  have hguess := hone ▸ h.toAt.guess.next_scale (show a.rdx ≤ 2 * r by omega)
  have hat := At.turn ha hne hr'.rdx h.toAt.x0 (Nat.le_succ r) hguess
  have hends : Ends a m len limit (s.turn a (r + 1) (X * 10 ^ (r + 1 - r))) →
      Ends a m len limit s :=
    .turn ha hne hneg hr' h.toAt.x0 h.resrdx (Nat.le_succ r) hguess
      fun hcmp => ⟨r, hr.scale, by rw [h.toAt.x0, h.toAt.done hcmp]⟩
  rw [hone] at hat hends
  have hlen := len_lt_of_raised ha hne hrdx h.settled hat.root
  have htimes : (s.turn a (r + 1) (X * 10)).times = 0 := by
    rw [turn_times, if_neg]
    rintro ⟨hcmp, hdigs⟩
    have hold := h.digs
    have hnew := hat.digs_eq
    have hlt := hat.len_lt hr'
    rw [hcmp, hdigs] at hnew
    omega
  have hle : (s.turn a (r + 1) (X * 10)).times ≤ 4 := by
    rw [htimes]
    decide
  have hroot := sqrt_radicand_succ (a := a) (r := r) (by omega)
  have hten := ten_le_sqrt ha hne hrdx
  have hlo := h.settled.le
  have hhi := h.settled.le_succ
  have hnear := Newton.step_le_of_near (N := radicand a (r + 1)) (X := X * 10) (by omega)
    (by omega) (by omega)
  exact hends (ends_of_near ha hne hneg hr' hsettled 4 _ _ hat
    ((turn_resrdx_of_le hle).trans h.resrdx) (by omega) (by omega))

include ha hne hneg in
/-- Where the iteration does not go back and forth, and the number is long enough, the loop ends. -/
theorem settledEnds_of_le (hr : Precision a m limit r) (hlen : len ≤ r)
    (hcycle : ¬ Newton.Cycles (radicand a r)) : SettledEnds a m len limit r := by
  intro s X h hsettled hresrdx
  have hX : X = Nat.sqrt (radicand a r) := by
    rcases hsettled with hX | ⟨-, hcycle'⟩
    · exact hX
    · exact absurd hcycle' hcycle
  have hstep : Newton.step (radicand a r) X = X := by
    rw [hX, Newton.step_sqrt (sqrt_radicand_pos ha hne hr.rdx), if_neg hcycle]
  have hx0 : (s.turn a r X).x0 = atScale r X := by
    rw [SqrtState.turn, hstep]
    rfl
  have hcmp : (s.turn a r X).cmp1 = 0 := by
    rw [h.turn_cmp1, hstep, cmp_self _ (atScale_neg r X)]
  refine h.ends_next ha hne hneg hr hresrdx (.now hcmp ?_ ⟨r, hr.scale, hX ▸ hx0⟩)
  have hlong := ((len_atScale_le (r := r) h.guess.ne).mp (Nat.le_refl _)).2
  have hlt := h.len_lt hr
  have hdigs : (s.turn a r X).digs = ((atScale r X).len - |(0 : ℤ)|) % 2 ^ 64 := by
    rw [← hcmp, ← hx0]
    rfl
  rw [hdigs, abs_zero]
  omega

include ha hne hneg in
/-- **Wherever the iteration has settled, the loop ends**: the precision goes at most one digit
above the length that the loop waits for. -/
theorem settledEnds (hm : a.rdx ≤ m) (hsize : max a.int 1 + len + 1 < 2 ^ 63)
    (hlimit : max a.int 1 + 3 * (len + 1) + 2 ≤ limit) (hlo : m + 3 ≤ r) (hhi : r ≤ len) :
    SettledEnds a m len limit r := by
  have hprecision : ∀ r, m + 3 ≤ r → r ≤ len + 1 → Precision a m limit r := fun r hlo hhi =>
    ⟨by omega, by omega, by omega, by omega⟩
  obtain ⟨k, hk⟩ : ∃ k, r + k = len := ⟨len - r, by omega⟩
  induction k generalizing r with
  | zero =>
    have hr := hprecision r hlo (by omega)
    by_cases hcycle : Newton.Cycles (radicand a r)
    · have hr' := hprecision (r + 1) (by omega) (by omega)
      have hnot := Newton.not_cycles_mul_hundred
        ((by decide : 5 ≤ 10).trans (ten_le_sqrt ha hne hr.rdx)) hcycle
      rw [← radicand_succ (by omega)] at hnot
      exact ends_of_raised ha hne hneg hr fun s X h => h.ends ha hne hneg hr hr'
        (settledEnds_of_le ha hne hneg hr' (by omega) hnot)
    · exact settledEnds_of_le ha hne hneg hr (by omega) hcycle
  | succ k ih =>
    have hr := hprecision r hlo (by omega)
    have hr' := hprecision (r + 1) (by omega) (by omega)
    exact ends_of_raised ha hne hneg hr fun s X h => h.ends ha hne hneg hr hr'
      (ih (by omega) (by omega) (by omega))

end

end Rustybox.Bc
