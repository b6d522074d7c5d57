import Mathlib.Data.Nat.ModEq
import Rustybox.Bc.Quotients

/-!
# Modular exponentiation of dc

`zdc_num_modexp` halves the exponent and multiplies by the squares that it has, and takes the
remainder after each product.  Without a product there is no remainder: to the power of zero it
leaves the one it has begun with.

* `modexp_iff`: so the result is the residue unless the exponent is zero and the modulus one.
-/

namespace Rustybox.Bc

open Positional

/-- The two of `zdc_num_modexp`. -/
def two : BcNum := { num := [2] }

/-- The loop of `zdc_num_modexp`. -/
def modexpLoop (fuel : ℕ) (c : BcNum) : ℕ → BcNum → BcNum → BcNum → Except Err BcNum
  | 0, _, _, _ => .error .unfinished
  | turns + 1, base, exp, d =>
    if exp.len = 0 then .ok d
    else do
      let (exp, temp) ← divmod fuel exp two 0
      let d ← if isOne temp then do
          let temp ← mul fuel d base 0
          rem fuel temp c 0
        else pure d
      let temp ← mul fuel base base 0
      let base ← rem fuel temp c 0
      modexpLoop fuel c turns base exp d

/-- `zdc_num_modexp`. -/
def modexp (fuel : ℕ) (a b c : BcNum) : Except Err BcNum :=
  if c.len = 0 then .error .divideByZero
  else if a.rdx ≠ 0 ∨ b.rdx ≠ 0 ∨ c.rdx ≠ 0 then .error .notInteger
  else if b.neg then .error .negativeNumber
  else do
    let base ← rem fuel a c 0
    modexpLoop fuel c fuel base b one

/-! ### One turn -/

theorem rem_ulong2num (m : ℕ) {k : ℕ} (hk : k ≠ 0) {fuel : ℕ} (hten : 10 ≤ fuel)
    (hfuel : (ulong2num (m / k)).len + (ulong2num k).len < fuel) :
    ResultOr (· = ulong2num (m % k)) ((ulong2num (m / k)).len + (ulong2num k).len)
      (rem fuel (ulong2num m) (ulong2num k) 0) := by
  have hts : max (0 + (ulong2num k).rdx) (ulong2num m).rdx = 0 := rfl
  have hk0 : (ulong2num k).len ≠ 0 := by rwa [ne_eq, ulong2num_len_eq_zero]
  rw [rem, hts]
  by_cases hm : m = 0
  · have hm0 : (ulong2num m).len = 0 := (ulong2num_len_eq_zero m).mpr hm
    rw [numR, if_neg hk0, if_pos hm0, hm, Nat.zero_mod]
    exact .ok rfl
  · refine (numR_ulong2num hten hm hk (mul_ulong2num (m / k) k hfuel)).bind id ?_
    rintro _ rfl
    exact .ok rfl

theorem mulRem_spec {m n k : ℕ} (hk : k ≠ 0) (hm : m ≤ k) (hn : n ≤ k) {fuel : ℕ}
    (hten : 10 ≤ fuel) (hfuel : 2 * (ulong2num k).len < fuel) :
    ResultOr (· = ulong2num (m * n % k)) (2 * (ulong2num k).len) (do
      let temp ← mul fuel (ulong2num m) (ulong2num n) 0
      rem fuel temp (ulong2num k) 0) := by
  have hle : ∀ {x}, x ≤ k → (ulong2num x).len ≤ (ulong2num k).len := fun h => len_le_len h
  have hdiv : m * n / k ≤ k := by
    refine Nat.div_le_of_le_mul ?_
    exact Nat.mul_le_mul hm hn
  have hlm := hle hm
  have hln := hle hn
  have hld := hle hdiv
  refine (mul_ulong2num m n (by omega)).bind (fun h => by omega) ?_
  rintro _ rfl
  exact (rem_ulong2num (m * n) hk hten (by omega)).mono (fun _ h => h) (fun h => by omega)

/-- What the loop makes of the product so far: without an exponent, nothing. -/
def residue (k d base exp : ℕ) : ℕ := if exp = 0 then d else d * base ^ exp % k

theorem residue_step {k d base exp : ℕ} (hexp : exp ≠ 0) :
    residue k (if exp % 2 = 1 then d * base % k else d) (base * base % k) (exp / 2) =
      residue k d base exp := by
  have hsq : ∀ n, (base * base % k) ^ n ≡ base ^ (2 * n) [MOD k] := by
    intro n
    rw [pow_mul, sq]
    exact (Nat.mod_modEq _ _).pow n
  have hsplit := Nat.mod_add_div exp 2
  rw [residue, residue, if_neg hexp]
  by_cases hodd : exp % 2 = 1
  · rw [if_pos hodd]
    have hpow : d * base ^ exp = d * base * base ^ (2 * (exp / 2)) := by
      rw [mul_assoc, ← pow_succ']
      congr 2
      omega
    rw [hpow]
    split
    · next hzero => rw [hzero, mul_zero, pow_zero, mul_one]
    · exact (Nat.mod_modEq _ _).mul (hsq _)
  · have hpow : 2 * (exp / 2) = exp := by omega
    rw [if_neg hodd, if_neg (by omega)]
    have hmod := (Nat.ModEq.refl (n := k) d).mul (hsq (exp / 2))
    rw [hpow] at hmod
    exact hmod

/-- **The loop** leaves the residue. -/
theorem modexpLoop_spec {k : ℕ} (hk : k ≠ 0) {fuel : ℕ} (hten : 10 ≤ fuel)
    (hfuel : 2 * (ulong2num k).len < fuel) {turns : ℕ} : ∀ {base exp d : ℕ},
    base ≤ k → d ≤ k → exp < turns →
    ResultOr (· = ulong2num (residue k d base exp)) (2 * (ulong2num k).len)
      (modexpLoop fuel (ulong2num k) turns (ulong2num base) (ulong2num exp) (ulong2num d)) := by
  induction turns with
  | zero => exact fun _ _ h => absurd h (Nat.not_lt_zero _)
  | succ turns ih =>
    intro base exp d hbase hd hturns
    rw [modexpLoop]
    by_cases hexp : exp = 0
    · rw [if_pos ((ulong2num_len_eq_zero exp).mpr hexp), residue, if_pos hexp]
      exact .ok rfl
    have htwo : two = ulong2num 2 := rfl
    have hmod : ∀ x, x % k ≤ k := fun x => le_of_lt (Nat.mod_lt x (Nat.pos_of_ne_zero hk))
    rw [if_neg (mt (ulong2num_len_eq_zero exp).mp hexp), htwo,
      divmod_ulong2num hten hexp (by decide) (by decide)]
    -- the base is squared, whatever has become of the product
    have hrest : ∀ {d' : ℕ}, d' ≤ k → d' = (if exp % 2 = 1 then d * base % k else d) →
        ResultOr (· = ulong2num (residue k d base exp)) (2 * (ulong2num k).len) (do
          let temp ← mul fuel (ulong2num base) (ulong2num base) 0
          let base ← rem fuel temp (ulong2num k) 0
          modexpLoop fuel (ulong2num k) turns base (ulong2num (exp / 2)) (ulong2num d')) := by
      intro d' hd' heq
      rw [← bind_assoc]
      refine (mulRem_spec hk hbase hbase hten hfuel).bind id ?_
      rintro _ rfl
      rw [← residue_step hexp, ← heq]
      exact ih (hmod _) hd' (by omega)
    refine ResultOr.bind (P := (· = (ulong2num (exp / 2), ulong2num (exp % 2)))) (.ok rfl) id ?_
    rintro _ rfl
    dsimp only
    by_cases hodd : exp % 2 = 1
    · rw [if_pos ((isOne_ulong2num _).mpr hodd), ← bind_assoc]
      refine (mulRem_spec hk hd hbase hten hfuel).bind id ?_
      rintro _ rfl
      exact hrest (hmod _) (if_pos hodd).symm
    · rw [if_neg (mt (isOne_ulong2num _).mp hodd)]
      exact hrest hd (if_neg hodd).symm

/-! ### Residues -/

section

variable {a b c : BcNum}

def BcNum.toNat (n : BcNum) : ℕ := (val 10 n.num).toNat

def IsResidue (a b c d : BcNum) : Prop :=
  Natural d ∧ d.toNat = a.toNat ^ b.toNat % c.toNat ∧ d.toNat < c.toNat

theorem natural_ulong2num (m : ℕ) : Natural (ulong2num m) := ⟨normal_ulong2num m, rfl, rfl⟩

theorem toNat_ulong2num (m : ℕ) : (ulong2num m).toNat = m := by
  rw [BcNum.toNat, val_ulong2num, Int.toNat_natCast]

/-- **The result is the residue of the power if and only if** it is not the power of zero modulo
one; only where the product of two residues would be too long there is an error. -/
theorem modexp_iff (ha : Natural a) (hb : Natural b) (hc : Natural c) (hc0 : c.toNat ≠ 0) :
    ∃ least, ∀ fuel, least < fuel →
      ResultOr (fun d => IsResidue a b c d ↔ ¬ (b.toNat = 0 ∧ c.toNat = 1))
        (a.len + 2 * c.len) (modexp fuel a b c) := by
  have hea := ha.eq_ulong2num
  have heb := hb.eq_ulong2num
  have hec := hc.eq_ulong2num
  rw [← BcNum.toNat] at hea heb hec
  generalize a.toNat = m at hea
  generalize b.toNat = n at heb
  generalize c.toNat = k at hec hc0
  subst hea heb hec
  have hk := hc0
  refine ⟨(ulong2num m).len + 2 * (ulong2num k).len + n + 10, fun fuel hfuel => ?_⟩
  have hdiv : (ulong2num (m / k)).len ≤ (ulong2num m).len := len_le_len (Nat.div_le_self m k)
  have hone : one = ulong2num 1 := rfl
  have hk0 : (ulong2num k).len ≠ 0 := by rwa [ne_eq, ulong2num_len_eq_zero]
  have hint : ¬ ((ulong2num m).rdx ≠ 0 ∨ (ulong2num n).rdx ≠ 0 ∨ (ulong2num k).rdx ≠ 0) := by
    rintro (h | h | h)
    · exact h rfl
    · exact h rfl
    · exact h rfl
  have hneg : ¬ (ulong2num n).neg = true := Bool.false_ne_true
  rw [modexp, if_neg hk0, if_neg hint, if_neg hneg, hone]
  refine (rem_ulong2num m hk (by omega) (by omega)).bind (fun h => by omega) ?_
  rintro _ rfl
  refine (modexpLoop_spec hk (by omega) (by omega) (le_of_lt (Nat.mod_lt m (by omega))) (by omega)
    (by omega)).mono ?_ (fun h => by omega)
  rintro _ rfl
  rw [IsResidue, toNat_ulong2num, toNat_ulong2num, toNat_ulong2num, toNat_ulong2num, residue]
  have hlt := Nat.mod_lt (m ^ n) (Nat.pos_of_ne_zero hk)
  by_cases hn : n = 0
  · rw [if_pos hn, hn, pow_zero]
    constructor
    · rintro ⟨-, -, h⟩ ⟨-, rfl⟩
      exact absurd h (lt_irrefl 1)
    · intro h
      have h1 : 1 < k := by omega
      exact ⟨natural_ulong2num 1, (Nat.mod_eq_of_lt h1).symm, h1⟩
  · rw [if_neg hn, one_mul, ← Nat.pow_mod]
    exact ⟨fun _ h => hn h.1, fun _ => ⟨natural_ulong2num _, rfl, hlt⟩⟩

end

/-- The residue of `3 ^ 5` modulo `7`. -/
theorem modexp_iff_seven :
    ∃ least, ∀ fuel, least < fuel →
      ResultOr (fun d => IsResidue { num := [3] } { num := [5] } { num := [7] } d ↔
        ¬ (BcNum.toNat { num := [5] } = 0 ∧ BcNum.toNat { num := [7] } = 1)) 3
        (modexp fuel { num := [3] } { num := [5] } { num := [7] }) :=
  modexp_iff ⟨⟨by decide, by decide⟩, rfl, rfl⟩ ⟨⟨by decide, by decide⟩, rfl, rfl⟩
    ⟨⟨by decide, by decide⟩, rfl, rfl⟩ (by decide)

/-- To the power of zero modulo one dc leaves one. -/
theorem zeroth_power_modulo_one :
    ¬ ∀ a b c : BcNum, Natural a → Natural b → Natural c → c.toNat ≠ 0 →
      ∃ fuel d, modexp fuel a b c = .ok d ∧ IsResidue a b c d := by
  intro h
  have hzero : Natural zero := ⟨Normal.zero 0, rfl, rfl⟩
  have hone : Natural one := ⟨⟨by decide, by decide⟩, rfl, rfl⟩
  obtain ⟨fuel, d, hd, -, -, hlt⟩ := h zero zero one hzero hzero hone (by decide)
  cases fuel with
  | zero => cases hd
  | succ fuel =>
    have hval : modexp (fuel + 1) zero zero one = .ok one := rfl
    rw [hval] at hd
    cases hd
    exact absurd hlt (by decide)

end Rustybox.Bc
