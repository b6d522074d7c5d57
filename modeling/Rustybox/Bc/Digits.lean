import Rustybox.Bc.Num
import Rustybox.Lib.Positional
import Mathlib.Data.List.GetD

/-!
# What the digit loops of bc compute

Each loop over digits is described by the value of the digits it leaves.
-/

namespace Rustybox.Bc

open Positional

/-! ### Subtraction -/

/-- Borrowing keeps the value, as long as there is something to borrow from. -/
theorem borrow_spec {d : ℤ} {ds : List ℤ} (hd : -10 ≤ d ∧ d < 10) (hds : IsDigits 10 ds)
    (hv : 0 ≤ d + 10 * val 10 ds) :
    IsDigits 10 (borrow d ds) ∧ (borrow d ds).length = ds.length + 1 ∧
      val 10 (borrow d ds) = d + 10 * val 10 ds := by
  induction ds generalizing d with
  | nil =>
    rw [val_nil, mul_zero, add_zero] at hv
    rw [borrow, if_neg (by omega)]
    exact ⟨isDigits_cons.mpr ⟨⟨hv, hd.2⟩, isDigits_nil⟩, rfl, rfl⟩
  | cons e ds ih =>
    obtain ⟨he, hds'⟩ := isDigits_cons.mp hds
    rw [val_cons] at hv
    rw [borrow]
    split
    · next hneg =>
      obtain ⟨h1, h2, h3⟩ := ih (d := e - 1) (by omega) hds' (by omega)
      refine ⟨isDigits_cons.mpr ⟨by omega, h1⟩, by rw [List.length_cons, h2, List.length_cons], ?_⟩
      rw [val_cons, h3, val_cons]
      omega
    · next hpos => exact ⟨isDigits_cons.mpr ⟨by omega, hds⟩, rfl, rfl⟩

/-- **`bc_num_subArrays` subtracts.** -/
theorem subArrays_spec {a b : List ℤ} (ha : IsDigits 10 a) (hb : IsDigits 10 b)
    (hlen : b.length ≤ a.length) (hle : val 10 b ≤ val 10 a) :
    IsDigits 10 (subArrays a b) ∧ (subArrays a b).length = a.length ∧
      val 10 (subArrays a b) = val 10 a - val 10 b := by
  induction b generalizing a with
  | nil =>
    rw [subArrays, val_nil, sub_zero]
    exact ⟨ha, rfl, rfl⟩
  | cons y b ih =>
    cases a with
    | nil => exact absurd hlen (Nat.not_succ_le_zero _)
    | cons x a =>
      obtain ⟨hx, ha'⟩ := isDigits_cons.mp ha
      obtain ⟨hy, hb'⟩ := isDigits_cons.mp hb
      have hnonneg := val_nonneg (by decide) hb'
      rw [val_cons, val_cons] at hle
      obtain ⟨h1, h2, h3⟩ := borrow_spec (d := x - y) (by omega) ha' (by omega)
      rw [subArrays]
      cases hborrow : borrow (x - y) a with
      | nil =>
        rw [hborrow] at h2
        exact absurd h2.symm (Nat.succ_ne_zero _)
      | cons d a' =>
        rw [hborrow] at h1 h2 h3
        obtain ⟨hd, ha''⟩ := isDigits_cons.mp h1
        rw [val_cons] at h3
        rw [List.length_cons, Nat.add_right_cancel_iff] at h2
        rw [List.length_cons, List.length_cons, Nat.add_le_add_iff_right] at hlen
        obtain ⟨k1, k2, k3⟩ := ih ha'' hb' (by omega) (by omega)
        refine ⟨isDigits_cons.mpr ⟨hd, k1⟩, by rw [List.length_cons, k2, h2, List.length_cons], ?_⟩
        rw [val_cons, k3, val_cons, val_cons]
        omega

/-! ### Comparison -/

theorem take_succ_eq {ds : List ℤ} {n : ℕ} (h : n < ds.length) :
    ds.take (n + 1) = ds.take n ++ [ds.getD n 0] := by
  rw [List.take_succ_eq_append_getElem h, List.getD_eq_getElem _ _ h]

theorem getD_isDigit {ds : List ℤ} (h : IsDigits 10 ds) (n : ℕ) :
    0 ≤ ds.getD n 0 ∧ ds.getD n 0 < 10 := by
  rcases Nat.lt_or_ge n ds.length with hlt | hle
  · rw [List.getD_eq_getElem _ _ hlt]
    exact h _ (List.getElem_mem hlt)
  · rw [List.getD_eq_default _ _ hle]
    decide

theorem val_take_succ {ds : List ℤ} {n : ℕ} (h : n < ds.length) :
    val 10 (ds.take (n + 1)) = val 10 (ds.take n) + 10 ^ n * ds.getD n 0 := by
  rw [take_succ_eq h, val_append, List.length_take, Nat.min_eq_left (Nat.le_of_lt h), val_cons,
    val_nil, mul_zero, add_zero]

/-- **`bc_num_compare` compares the values.** -/
theorem compare_spec {a b : List ℤ} (ha : IsDigits 10 a) (hb : IsDigits 10 b) {n : ℕ}
    (hna : n ≤ a.length) (hnb : n ≤ b.length) :
    (compare a b n < 0 ↔ val 10 (a.take n) < val 10 (b.take n)) ∧
    (0 < compare a b n ↔ val 10 (b.take n) < val 10 (a.take n)) := by
  induction n with
  | zero => simp [compare]
  | succ n ih =>
    have h1 := val_nonneg (by decide) (ha.take n)
    have h2 := val_nonneg (by decide) (hb.take n)
    have h3 := val_lt (by decide) (ha.take n)
    have h4 := val_lt (by decide) (hb.take n)
    rw [List.length_take, Nat.min_eq_left (by omega)] at h3 h4
    rw [val_take_succ hna, val_take_succ hnb, compare]
    generalize a.getD n 0 = x at *
    generalize b.getD n 0 = y at *
    split
    · next hne =>
      split
      · next hneg =>
        have hmul : (10 : ℤ) ^ n * (x + 1) ≤ 10 ^ n * y :=
          mul_le_mul_of_nonneg_left (by omega) (by positivity)
        rw [mul_add, mul_one] at hmul
        constructor
        · exact ⟨fun _ => by omega, fun _ => by omega⟩
        · exact ⟨fun _ => by omega, fun _ => by omega⟩
      · next hpos =>
        have hmul : (10 : ℤ) ^ n * (y + 1) ≤ 10 ^ n * x :=
          mul_le_mul_of_nonneg_left (by omega) (by positivity)
        rw [mul_add, mul_one] at hmul
        constructor
        · exact ⟨fun _ => by omega, fun _ => by omega⟩
        · exact ⟨fun _ => by omega, fun _ => by omega⟩
    · next heq =>
      obtain rfl : x = y := by omega
      obtain ⟨hlt, hgt⟩ := ih (by omega) (by omega)
      rw [hlt, hgt]
      constructor
      · exact ⟨fun _ => by omega, fun _ => by omega⟩
      · exact ⟨fun _ => by omega, fun _ => by omega⟩

/-! ### Addition -/

theorem addLoop_spec {xs ys : List ℤ} (hx : IsDigits 10 xs) (hy : IsDigits 10 ys)
    (hlen : xs.length = ys.length) (carry : ℤ) (hc : 0 ≤ carry ∧ carry ≤ 1) :
    IsDigits 10 (addLoop carry xs ys).1 ∧ (addLoop carry xs ys).1.length = xs.length ∧
    (0 ≤ (addLoop carry xs ys).2 ∧ (addLoop carry xs ys).2 ≤ 1) ∧
    val 10 (addLoop carry xs ys).1 + 10 ^ xs.length * (addLoop carry xs ys).2 =
      val 10 xs + val 10 ys + carry := by
  induction xs generalizing ys carry with
  | nil =>
    obtain rfl : ys = [] := List.eq_nil_of_length_eq_zero hlen.symm
    refine ⟨isDigits_nil, rfl, hc, ?_⟩
    simp [addLoop]
  | cons x xs ih =>
    cases ys with
    | nil => exact absurd hlen (Nat.succ_ne_zero _)
    | cons y ys =>
      obtain ⟨hx0, hxs⟩ := isDigits_cons.mp hx
      obtain ⟨hy0, hys⟩ := isDigits_cons.mp hy
      obtain ⟨h1, h2, h3, h4⟩ := ih hxs hys (Nat.succ.inj hlen)
        ((x + y + carry) / 10) (by omega)
      rw [addLoop]
      refine ⟨isDigits_cons.mpr ⟨by omega, h1⟩, congrArg Nat.succ h2, h3, ?_⟩
      rw [val_cons, val_cons, val_cons, List.length_cons, pow_succ]
      have hsplit := Int.emod_add_mul_ediv (x + y + carry) 10
      linarith

theorem carryLoop_spec {xs : List ℤ} (hx : IsDigits 10 xs) (carry : ℤ)
    (hc : 0 ≤ carry ∧ carry ≤ 1) :
    IsDigits 10 (carryLoop carry xs).1 ∧ (carryLoop carry xs).1.length = xs.length ∧
    (0 ≤ (carryLoop carry xs).2 ∧ (carryLoop carry xs).2 ≤ 1) ∧
    val 10 (carryLoop carry xs).1 + 10 ^ xs.length * (carryLoop carry xs).2 =
      val 10 xs + carry := by
  induction xs generalizing carry with
  | nil => exact ⟨isDigits_nil, rfl, hc, by simp [carryLoop]⟩
  | cons x xs ih =>
    obtain ⟨hx0, hxs⟩ := isDigits_cons.mp hx
    obtain ⟨h1, h2, h3, h4⟩ := ih hxs ((x + carry) / 10) (by omega)
    rw [carryLoop]
    refine ⟨isDigits_cons.mpr ⟨by omega, h1⟩, congrArg Nat.succ h2, h3, ?_⟩
    rw [val_cons, val_cons, List.length_cons, pow_succ]
    have hsplit := Int.emod_add_mul_ediv (x + carry) 10
    linarith

/-- **Both loops and the last carry add**: a digit more than the longer number has is there only
where the sum needs it. -/
theorem addDigits_spec {xs ys zs : List ℤ} (hx : IsDigits 10 xs) (hy : IsDigits 10 ys)
    (hlen : xs.length = ys.length) (hz : IsDigits 10 zs) {v : ℤ}
    (hv : val 10 xs + val 10 ys + 10 ^ xs.length * val 10 zs = v) {both one : List ℤ × ℤ}
    (hboth : addLoop 0 xs ys = both) (hone : carryLoop both.2 zs = one) :
    IsDigits 10 (both.1 ++ one.1 ++ if one.2 ≠ 0 then [one.2] else []) ∧
    val 10 (both.1 ++ one.1 ++ if one.2 ≠ 0 then [one.2] else []) = v ∧
    ((both.1 ++ one.1 ++ if one.2 ≠ 0 then [one.2] else []).length = xs.length + zs.length ∨
      (both.1 ++ one.1 ++ if one.2 ≠ 0 then [one.2] else []).length =
        xs.length + zs.length + 1 ∧ 10 ^ (xs.length + zs.length) ≤ v) := by
  have h := addLoop_spec hx hy hlen 0 (by omega)
  rw [hboth, add_zero] at h
  obtain ⟨h1, h2, h3, h4⟩ := h
  have k := carryLoop_spec hz both.2 h3
  rw [hone] at k
  obtain ⟨k1, k2, k3, k4⟩ := k
  have hdigits := isDigits_append.mpr ⟨h1, k1⟩
  have hlen' : (both.1 ++ one.1).length = xs.length + zs.length := by
    rw [List.length_append, h2, k2]
  have hval : val 10 (both.1 ++ one.1) + 10 ^ (xs.length + zs.length) * one.2 = v := by
    have hmul : (10 : ℤ) ^ xs.length * (val 10 one.1 + 10 ^ zs.length * one.2) =
        10 ^ xs.length * (val 10 zs + both.2) := by rw [k4]
    rw [mul_add, mul_add, ← mul_assoc, ← pow_add] at hmul
    rw [val_append, h2]
    linarith
  by_cases hcarry : one.2 = 0
  · rw [if_neg (not_not.mpr hcarry), List.append_nil]
    rw [hcarry, mul_zero, add_zero] at hval
    exact ⟨hdigits, hval, .inl hlen'⟩
  · have hnonneg := val_nonneg (by decide) hdigits
    have hone1 : one.2 = 1 := by omega
    rw [hone1, mul_one] at hval
    rw [if_pos hcarry, hone1]
    refine ⟨isDigits_append.mpr ⟨hdigits, by decide⟩, ?_, .inr ⟨?_, by omega⟩⟩
    · rw [val_append, hlen', val_cons, val_nil, mul_zero, add_zero, mul_one, hval]
    · rw [List.length_append, hlen', List.length_singleton]

/-! ### Multiplication -/

theorem mulDigit_bound {c x y carry : ℤ} (hc : 0 ≤ c ∧ c < 10) (hx : 0 ≤ x ∧ x < 10)
    (hy : 0 ≤ y ∧ y < 10) (hcarry : 0 ≤ carry ∧ carry < 10) :
    0 ≤ (c + x * y + carry) / 10 ∧ (c + x * y + carry) / 10 < 10 := by
  have h1 : 0 ≤ x * y := mul_nonneg hx.1 hy.1
  have h2 : x * y ≤ 9 * 9 := mul_le_mul (by omega) (by omega) hy.1 (by omega)
  omega

/-- A row adds a multiple, and its carry goes where no digit was yet. -/
theorem mulRow_spec {y : ℤ} (hy : 0 ≤ y ∧ y < 10) {a c : List ℤ} (ha : IsDigits 10 a)
    (hc : IsDigits 10 c) (hlen : a.length < c.length) (hzero : c.getD a.length 0 = 0) (carry : ℤ)
    (hcarry : 0 ≤ carry ∧ carry < 10) :
    IsDigits 10 (mulRow y carry a c).1 ∧
    (mulRow y carry a c).1.drop a.length = (mulRow y carry a c).2 :: c.drop (a.length + 1) ∧
    val 10 (mulRow y carry a c).1 = val 10 c + val 10 a * y + carry := by
  induction a generalizing c carry with
  | nil =>
    cases c with
    | nil => exact absurd hlen (Nat.not_lt_zero _)
    | cons c cs =>
      obtain ⟨-, hcs⟩ := isDigits_cons.mp hc
      obtain rfl : c = 0 := hzero
      rw [mulRow, zero_add]
      refine ⟨isDigits_cons.mpr ⟨hcarry, hcs⟩, rfl, ?_⟩
      rw [val_cons, val_cons, val_nil]
      ring
  | cons x a ih =>
    cases c with
    | nil => exact absurd hlen (Nat.not_lt_zero _)
    | cons c cs =>
      obtain ⟨hc0, hcs⟩ := isDigits_cons.mp hc
      obtain ⟨hx0, hxs⟩ := isDigits_cons.mp ha
      obtain ⟨h1, h2, h3⟩ := ih hxs hcs (Nat.lt_of_succ_lt_succ hlen) hzero _
        (mulDigit_bound hc0 hx0 hy hcarry)
      rw [mulRow]
      refine ⟨isDigits_cons.mpr ⟨by omega, h1⟩, h2, ?_⟩
      rw [val_cons, h3, val_cons, val_cons]
      have hsplit := Int.emod_add_mul_ediv (c + x * y + carry) 10
      linarith

/-- A row of the product, where no digit was yet above the first number: its last digit is passed,
the carry is on top of the others, and above it are zeros. -/
structure Row (a c : List ℤ) (y d : ℤ) (ds : List ℤ) (carry : ℤ) : Prop where
  row_eq : mulRow y 0 a c = (d :: ds, carry)
  digit : 0 ≤ d ∧ d < 10
  digits : IsDigits 10 ds
  length_eq : ds.length + 1 = c.length
  top : ds.drop (a.length - 1) = carry :: c.drop (a.length + 1)
  zeros : ∀ e ∈ c.drop (a.length + 1), e = 0
  val_eq : d + 10 * val 10 ds = val 10 c + val 10 a * y

theorem exists_row {y : ℤ} (hy : 0 ≤ y ∧ y < 10) {a c : List ℤ} (ha : IsDigits 10 a) (hne : a ≠ [])
    (hc : IsDigits 10 c) (hlen : a.length < c.length) (hzero : ∀ d ∈ c.drop a.length, d = 0) :
    ∃ d ds carry, Row a c y d ds carry := by
  have hpos : 0 < a.length := List.length_pos_iff.mpr hne
  have hz : c.getD a.length 0 = 0 := by
    rw [List.getD_eq_getElem _ _ hlen]
    apply hzero
    rw [List.drop_eq_getElem_cons hlen]
    exact List.mem_cons_self
  obtain ⟨h1, h2, h3⟩ := mulRow_spec hy ha hc hlen hz 0 (by omega)
  cases hrow : mulRow y 0 a c with
  | mk row carry =>
    rw [hrow] at h1 h2 h3
    dsimp only at h1 h2 h3
    have hlength : row.length = c.length := by
      have := congrArg List.length h2
      rw [List.length_drop, List.length_cons, List.length_drop] at this
      omega
    obtain ⟨d, ds, rfl⟩ : ∃ d ds, row = d :: ds := List.exists_cons_of_length_pos (by omega)
    obtain ⟨hd, hds⟩ := isDigits_cons.mp h1
    refine ⟨d, ds, carry, hrow, hd, hds, hlength, ?_, ?_, ?_⟩
    · rw [← h2]
      conv => rhs; rw [show a.length = a.length - 1 + 1 by omega, List.drop_succ_cons]
    · intro e he
      rw [← List.drop_drop] at he
      exact hzero e (List.mem_of_mem_drop he)
    · rw [val_cons] at h3
      linarith

section

variable {a c ds : List ℤ} {y d carry : ℤ}

theorem Row.zeros_above (h : Row a c y d ds carry) (hpos : 0 < a.length) :
    ∀ e ∈ ds.drop a.length, e = 0 := by
  intro e he
  rw [show a.length = a.length - 1 + 1 by omega, ← List.drop_drop, h.top, List.drop_succ_cons,
    List.drop_zero] at he
  exact h.zeros e he

theorem Row.zeros_counted (h : Row a c y d ds carry) (hpos : 0 < a.length) {n : ℕ}
    (hn : a.length - 1 + (if carry ≠ 0 then 1 else 0) ≤ n) : ∀ e ∈ ds.drop n, e = 0 := by
  intro e he
  by_cases hcarry : carry = 0
  · rw [if_neg (not_not.mpr hcarry)] at hn
    rw [show n = a.length - 1 + (n - (a.length - 1)) by omega, ← List.drop_drop, h.top] at he
    rcases List.mem_cons.mp (List.mem_of_mem_drop he) with rfl | hmem
    · exact hcarry
    · exact h.zeros e hmem
  · rw [if_pos hcarry] at hn
    rw [show n = a.length + (n - a.length) by omega, ← List.drop_drop] at he
    exact h.zeros_above hpos e (List.mem_of_mem_drop he)

theorem Row.large (h : Row a c y d ds carry) (hpos : 0 < a.length) (hcarry : carry ≠ 0) :
    10 ^ a.length ≤ d + 10 * val 10 ds := by
  have hsplit := val_append (B := 10) (ds.take (a.length - 1)) (ds.drop (a.length - 1))
  have htop := congrArg List.length h.top
  rw [List.length_drop, List.length_cons] at htop
  rw [List.take_append_drop, List.length_take, Nat.min_eq_left (by omega), h.top, val_cons] at hsplit
  have hlow := val_nonneg (by decide) (h.digits.take (a.length - 1))
  have hdigit : 0 ≤ carry ∧ carry < 10 ∧ 0 ≤ val 10 (c.drop (a.length + 1)) := by
    have hdrop := h.digits.drop (a.length - 1)
    rw [h.top] at hdrop
    obtain ⟨h1, h2⟩ := isDigits_cons.mp hdrop
    exact ⟨h1.1, h1.2, val_nonneg (by decide) h2⟩
  have hmul : (10 : ℤ) ^ (a.length - 1) * 1 ≤
      10 ^ (a.length - 1) * (carry + 10 * val 10 (c.drop (a.length + 1))) :=
    mul_le_mul_of_nonneg_left (by omega) (by positivity)
  have hpow : (10 : ℤ) ^ a.length = 10 ^ (a.length - 1) * 10 := by
    rw [← pow_succ, Nat.sub_add_cancel hpos]
  have hd := h.digit.1
  rw [hpow]
  linarith

end

/-- **The rows add up to the product**, above the digits that count there are zeros, and there are no
more of them than the lengths say, unless the product is large enough. -/
theorem mulRows_spec {a b c : List ℤ} (ha : IsDigits 10 a) (hne : a ≠ []) (hb : IsDigits 10 b)
    (hc : IsDigits 10 c) (hlen : a.length + b.length ≤ c.length)
    (hzero : ∀ d ∈ c.drop a.length, d = 0) (i len : ℕ) (hcount : ∀ d ∈ c.drop (len - i), d = 0) :
    IsDigits 10 (mulRows a i len b c).1 ∧
    val 10 (mulRows a i len b c).1 = val 10 c + val 10 a * val 10 b ∧
    len ≤ (mulRows a i len b c).2 ∧
    (∀ d ∈ (mulRows a i len b c).1.drop ((mulRows a i len b c).2 - i), d = 0) ∧
    ((mulRows a i len b c).2 ≤ max len (i + a.length + b.length - 1) ∨
      10 ^ ((mulRows a i len b c).2 - 1 - i) ≤ val 10 (mulRows a i len b c).1) := by
  induction b generalizing c i len with
  | nil =>
    rw [mulRows, val_nil, mul_zero, add_zero]
    exact ⟨hc, rfl, Nat.le_refl _, hcount, .inl (Nat.le_max_left _ _)⟩
  | cons y b ih =>
    obtain ⟨hy, hb'⟩ := isDigits_cons.mp hb
    rw [List.length_cons] at hlen
    have hpos : 0 < a.length := List.length_pos_iff.mpr hne
    obtain ⟨d, ds, carry, hrow⟩ := exists_row hy ha hne hc (by omega) hzero
    have hds := hrow.length_eq
    have hval := hrow.val_eq
    obtain ⟨len', hlen'⟩ : ∃ n, n = max len (i + a.length + if carry ≠ 0 then 1 else 0) := ⟨_, rfl⟩
    have hrows : mulRows a i len (y :: b) c =
        (d :: (mulRows a (i + 1) len' b ds).1, (mulRows a (i + 1) len' b ds).2) := by
      rw [mulRows, hrow.row_eq, hlen']
      rfl
    obtain ⟨k1, k2, k3, k4, k5⟩ := ih hb' hrow.digits (by omega) (hrow.zeros_above hpos) (i + 1) len'
      (hrow.zeros_counted hpos (by omega))
    have hnonneg : 0 ≤ val 10 a * val 10 b :=
      mul_nonneg (val_nonneg (by decide) ha) (val_nonneg (by decide) hb')
    rw [hrows, val_cons, k2]
    dsimp only
    refine ⟨isDigits_cons.mpr ⟨hrow.digit, k1⟩, ?_, by omega, ?_, ?_⟩
    · rw [val_cons]
      linarith
    · intro e he
      apply k4
      rw [show (mulRows a (i + 1) len' b ds).2 - i = (mulRows a (i + 1) len' b ds).2 - (i + 1) + 1 by
        omega, List.drop_succ_cons] at he
      exact he
    · rw [k2] at k5
      rw [List.length_cons]
      rcases k5 with hle | hlarge
      · by_cases hmax : (mulRows a (i + 1) len' b ds).2 ≤ max len (i + a.length + b.length)
        · exact .inl (by omega)
        · -- only the carry of this row can have counted one more
          right
          have hcarry : carry ≠ 0 := by
            intro h0
            rw [h0] at hlen'
            simp only [ne_eq, not_true_eq_false, if_false] at hlen'
            omega
          rw [if_pos hcarry] at hlen'
          have hbig := hrow.large hpos hcarry
          rw [show (mulRows a (i + 1) len' b ds).2 - 1 - i = a.length by omega]
          linarith
      · right
        have hexp : (10 : ℤ) ^ ((mulRows a (i + 1) len' b ds).2 - 1 - i) ≤
            10 * 10 ^ ((mulRows a (i + 1) len' b ds).2 - 1 - (i + 1)) := by
          rw [← pow_succ']
          exact pow_le_pow_right₀ (by decide) (by omega)
        have hd := hrow.digit.1
        linarith

/-! ### Division -/

/-- The divisor of the digit loop: its first digit is not zero. -/
structure Divisor (b : List ℤ) (len : ℕ) : Prop where
  digits : IsDigits 10 b
  pos : 0 < len
  length_le : len ≤ b.length
  large : 10 ^ (len - 1) ≤ val 10 (b.take len)

section

variable {b : List ℤ} {len : ℕ}

theorem Divisor.val_lt (h : Divisor b len) : val 10 (b.take len) < 10 ^ len := by
  have := Positional.val_lt (by decide) (h.digits.take len)
  rwa [List.length_take, Nat.min_eq_left h.length_le] at this

theorem Divisor.val_pos (h : Divisor b len) : 0 < val 10 (b.take len) :=
  lt_of_lt_of_le (by positivity) h.large

/-- The test of the digit loop: the divisor can be subtracted once more. -/
theorem Divisor.test_iff (h : Divisor b len) {n : List ℤ} (hn : IsDigits 10 n)
    (hlen : len < n.length) (hv : val 10 n < 10 * val 10 (b.take len)) :
    (n.getD len 0 ≠ 0 ∨ 0 ≤ compare n b len) ↔ val 10 (b.take len) ≤ val 10 n := by
  have hlt := h.val_lt
  have hhigh := val_nonneg (by decide) (hn.drop (len + 1))
  have hlow := val_nonneg (by decide) (hn.take len)
  have hdigit := (getD_isDigit hn len).1
  have hcmp := (compare_spec hn h.digits (Nat.le_of_lt hlen) h.length_le).1
  have hsplit : val 10 (n.take (len + 1)) + 10 ^ (len + 1) * val 10 (n.drop (len + 1)) = val 10 n :=
    val_take_add_drop hlen
  rw [val_take_succ hlen, pow_succ] at hsplit
  have hpos : (0 : ℤ) < 10 ^ len := by positivity
  -- the digits above the window are zero, for the value is below ten times the divisor
  have hzero : val 10 (n.drop (len + 1)) = 0 := by
    by_contra hne
    have hmul : (10 : ℤ) ^ len * 10 * 1 ≤ 10 ^ len * 10 * val 10 (n.drop (len + 1)) :=
      mul_le_mul_of_nonneg_left (by omega) (by positivity)
    have hmul' : (0 : ℤ) ≤ 10 ^ len * n.getD len 0 := mul_nonneg (le_of_lt hpos) hdigit
    linarith
  rw [hzero, mul_zero, add_zero] at hsplit
  by_cases hd : n.getD len 0 = 0
  · rw [hd, mul_zero, add_zero] at hsplit
    rw [hd, ← hsplit]
    constructor
    · rintro (hne | hge)
      · exact absurd rfl hne
      · by_contra hlt'
        exact absurd (hcmp.mpr (not_le.mp hlt')) (not_lt.mpr hge)
    · intro hle
      right
      by_contra hneg
      exact absurd (hcmp.mp (not_le.mp hneg)) (not_lt.mpr hle)
  · have hmul : (10 : ℤ) ^ len * 1 ≤ 10 ^ len * n.getD len 0 :=
      mul_le_mul_of_nonneg_left (by omega) (le_of_lt hpos)
    exact ⟨fun _ => by linarith, fun _ => Or.inl hd⟩

/-- **The digit loop divides.** -/
theorem Divisor.digitLoop_spec (h : Divisor b len) {fuel : ℕ} {n : List ℤ} (hn : IsDigits 10 n)
    (hlen : len < n.length) (hv : val 10 n < 10 * val 10 (b.take len))
    (hfuel : val 10 n / val 10 (b.take len) < fuel) (q : ℤ) :
    ∃ n', digitLoop b len fuel n q = .ok (n', q + val 10 n / val 10 (b.take len)) ∧
      IsDigits 10 n' ∧ n'.length = n.length ∧ val 10 n' = val 10 n % val 10 (b.take len) := by
  have hpos := h.val_pos
  have hnonneg := val_nonneg (by decide) hn
  induction fuel generalizing n q with
  | zero =>
    have := Int.ediv_nonneg hnonneg (le_of_lt hpos)
    rw [Nat.cast_zero] at hfuel
    omega
  | succ fuel ih =>
    rw [digitLoop]
    split
    · next htest =>
      have hle := (h.test_iff hn hlen hv).mp htest
      have htake : (b.take len).length ≤ n.length := by
        rw [List.length_take, Nat.min_eq_left h.length_le]
        exact Nat.le_of_lt hlen
      obtain ⟨h1, h2, h3⟩ := subArrays_spec hn (h.digits.take len) htake hle
      have hdiv : val 10 n / val 10 (b.take len) =
          (val 10 n - val 10 (b.take len)) / val 10 (b.take len) + 1 := by
        rw [Int.sub_ediv_of_dvd _ (dvd_refl _), Int.ediv_self (ne_of_gt hpos)]
        omega
      obtain ⟨n', k1, k2, k3, k4⟩ := ih h1 (by omega) (by omega)
        (by rw [h3]; rw [hdiv] at hfuel; push_cast at hfuel; omega) (q + 1) (by omega)
      refine ⟨n', ?_, k2, k3.trans h2, ?_⟩
      · rw [k1, h3, hdiv]
        congr 2
        omega
      · rw [k4, h3, Int.sub_emod_right]
    · next htest =>
      have hlt : val 10 n < val 10 (b.take len) := by
        by_contra hge
        exact htest ((h.test_iff hn hlen hv).mpr (not_lt.mp hge))
      refine ⟨n, ?_, hn, rfl, (Int.emod_eq_of_lt hnonneg hlt).symm⟩
      rw [Int.ediv_eq_zero_of_lt hnonneg hlt, add_zero]

/-- **The loop over the digits of the quotient.**  What has been divided so far is smaller than
the divisor. -/
theorem Divisor.quotientLoop_spec (h : Divisor b len) {fuel : ℕ} (hfuel : 10 ≤ fuel) {i : ℕ}
    {cp : List ℤ} (hcp : IsDigits 10 cp) (hlen : i + len ≤ cp.length)
    (hv : val 10 (cp.drop i) < val 10 (b.take len)) :
    ∃ qs, quotientLoop fuel b len i cp = .ok qs ∧ IsDigits 10 qs ∧ qs.length = i ∧
      val 10 qs = val 10 cp / val 10 (b.take len) := by
  have hpos := h.val_pos
  induction i generalizing cp with
  | zero =>
    rw [List.drop_zero] at hv
    refine ⟨[], rfl, isDigits_nil, rfl, ?_⟩
    rw [Int.ediv_eq_zero_of_lt (val_nonneg (by decide) hcp) hv, val_nil]
  | succ i ih =>
    have hi : i < cp.length := by omega
    have hdigit := hcp _ (List.getElem_mem hi)
    have hdrop : cp.drop i = cp[i] :: cp.drop (i + 1) := List.drop_eq_getElem_cons hi
    have hwindow : val 10 (cp.drop i) < 10 * val 10 (b.take len) := by
      rw [hdrop, val_cons]
      omega
    have hdiv : val 10 (cp.drop i) / val 10 (b.take len) < 10 := by
      rw [Int.ediv_lt_iff_lt_mul hpos]
      exact hwindow
    have hdiv0 := Int.ediv_nonneg (val_nonneg (by decide) (hcp.drop i)) (le_of_lt hpos)
    have hhave : val 10 (cp.take i) + 10 ^ i * val 10 (cp.drop i) = val 10 cp :=
      val_take_add_drop (Nat.le_of_lt hi)
    obtain ⟨n', h1, h2, h3, h4⟩ := h.digitLoop_spec (hcp.drop i)
      (by rw [List.length_drop]; omega) hwindow (lt_of_lt_of_le hdiv (by exact_mod_cast hfuel)) 0
    have hn' : val 10 n' < val 10 (b.take len) := by
      rw [h4]
      exact Int.emod_lt_of_pos _ hpos
    have htake : (cp.take i).length = i := by
      rw [List.length_take, Nat.min_eq_left (Nat.le_of_lt hi)]
    obtain ⟨qs, k1, k2, k3, k4⟩ := ih
      (isDigits_append.mpr ⟨hcp.take i, h2⟩)
      (by rw [List.length_append, htake, h3, List.length_drop]; omega)
      (by rw [List.drop_left' htake]; exact hn')
    rw [zero_add] at h1
    refine ⟨qs ++ [val 10 (cp.drop i) / val 10 (b.take len)], ?_, ?_, ?_, ?_⟩
    · rw [quotientLoop, h1]
      simp only [bind, Except.bind, k1]
      rfl
    · exact isDigits_append.mpr ⟨k2, isDigits_cons.mpr ⟨⟨hdiv0, hdiv⟩, isDigits_nil⟩⟩
    · rw [List.length_append, k3, List.length_singleton]
    · rw [val_append, k3, k4, val_append, htake, val_cons, val_nil, mul_zero, add_zero, ← hhave, h4]
      rw [← Int.add_mul_ediv_right _ _ (ne_of_gt hpos)]
      congr 1
      rw [mul_assoc, add_assoc, ← mul_add, mul_comm (_ / _), Int.emod_add_mul_ediv]

/-- **The digits of the quotient**, with the extra zero in front of the dividend: below it there are
less digits than the divisor has. -/
theorem Divisor.quotient_spec (h : Divisor b len) {fuel : ℕ} (hfuel : 10 ≤ fuel) {cp : List ℤ}
    (hcp : IsDigits 10 cp) (hlen : len ≤ cp.length) :
    ∃ qs, quotientLoop fuel b len (cp.length + 1 - len) (cp ++ [0]) = .ok qs ∧ IsDigits 10 qs ∧
      val 10 qs = val 10 cp / val 10 (b.take len) := by
  have hpos := h.pos
  have hlength : (cp ++ [0]).length = cp.length + 1 := List.length_append
  generalize he : cp.length + 1 - len = e
  have hsmall : val 10 ((cp ++ [0]).drop e) < val 10 (b.take len) := by
    have hlt := Positional.val_lt (by decide) (hcp.drop e)
    have hlarge := h.large
    have hdrop : (cp ++ [0]).drop e = cp.drop e ++ List.replicate 1 0 :=
      List.drop_append_of_le_length (by omega)
    rw [List.length_drop, show cp.length - e = len - 1 by omega] at hlt
    rw [hdrop, val_append_zeros]
    omega
  have hall : IsDigits 10 (cp ++ [0]) :=
    isDigits_append.mpr ⟨hcp, isDigits_replicate_zero (by decide) 1⟩
  obtain ⟨qs, h1, h2, -, h4⟩ := h.quotientLoop_spec hfuel hall (i := e) (by omega) hsmall
  refine ⟨qs, h1, h2, ?_⟩
  rw [h4]
  exact congrArg (· / _) (val_append_zeros cp 1)

end

end Rustybox.Bc
