import Rustybox.Bc.Digits
import Mathlib.Data.Nat.Digits.Lemmas
import Mathlib.Data.Rat.Floor
import Mathlib.Algebra.Order.Field.Rat

/-!
# Integers of bc

The numbers that `bc_num_ulong2num` makes are the digits of a natural number, without a leading
zero.  The operations on them are those of the natural numbers: a result is again what
`ulong2num` gives for the sum, the difference, the product, the quotient or the remainder.
`zbc_num_ulong_abs` is the way back, for every number whose integer part is below 2^64
(`ulongAbs_exact`).
-/

namespace Rustybox.Bc

open Positional

/-! ### The digits of a natural number -/

theorem val_map_ofNat (ns : List ℕ) : val 10 (ns.map Int.ofNat) = (Nat.ofDigits 10 ns : ℕ) := by
  induction ns with
  | nil => rfl
  | cons n ns ih =>
    rw [List.map_cons, val_cons, ih, Nat.ofDigits_cons]
    push_cast
    rfl

@[simp]
theorem val_ulong2num (m : ℕ) : val 10 (ulong2num m).num = m := by
  rw [ulong2num, val_map_ofNat, Nat.ofDigits_digits]

theorem isDigits_ulong2num (m : ℕ) : IsDigits 10 (ulong2num m).num := by
  intro d hd
  obtain ⟨n, hn, rfl⟩ := List.mem_map.mp hd
  have := Nat.digits_lt_base (by decide : 1 < 10) hn
  exact ⟨Int.natCast_nonneg n, Int.ofNat_lt.mpr this⟩

@[simp]
theorem len_ulong2num (m : ℕ) : (ulong2num m).len = (Nat.digits 10 m).length := List.length_map _

@[simp]
theorem ulong2num_len_eq_zero (m : ℕ) : (ulong2num m).len = 0 ↔ m = 0 := by
  rw [len_ulong2num, List.length_eq_zero_iff, Nat.digits_eq_nil_iff_eq_zero]

theorem pow_le_of_ne_zero {m : ℕ} (h : m ≠ 0) : 10 ^ ((ulong2num m).len - 1) ≤ m := by
  rw [len_ulong2num]
  have hlen : 0 < (Nat.digits 10 m).length :=
    List.length_pos_iff.mpr (Nat.digits_ne_nil_iff_ne_zero.mpr h)
  by_contra hlt
  have := Nat.digits_length_le_iff (by decide : 1 < 10) (k := (Nat.digits 10 m).length - 1) m
  omega

/-- **The digits of a value without leading zeros.** -/
theorem rdropWhile_eq {ds : List ℤ} (h : IsDigits 10 ds) :
    ds.rdropWhile (· = 0) = (ulong2num (val 10 ds).toNat).num := by
  have hsub : ∀ d ∈ ds.rdropWhile (· = 0), 0 ≤ d ∧ d < 10 :=
    fun d hd => h d ((List.rdropWhile_prefix _ _).subset hd)
  have hcast : ((ds.rdropWhile (· = 0)).map Int.toNat).map Int.ofNat =
      ds.rdropWhile (· = 0) := by
    rw [List.map_map]
    conv => rhs; rw [← List.map_id (ds.rdropWhile _)]
    exact List.map_congr_left fun d hd => Int.toNat_of_nonneg (hsub d hd).1
  have hval : ((Nat.ofDigits 10 ((ds.rdropWhile (· = 0)).map Int.toNat) : ℕ) : ℤ) =
      val 10 ds := by
    rw [← val_rdropWhile ds, ← val_map_ofNat, hcast]
  rw [ulong2num, ← hval, Int.toNat_natCast, Nat.digits_ofDigits 10 (by decide), hcast]
  · intro n hn
    obtain ⟨d, hd, rfl⟩ := List.mem_map.mp hn
    have := hsub d hd
    omega
  · intro hne hlast
    have hne' : ds.rdropWhile (· = 0) ≠ [] := fun he => hne (by rw [he]; rfl)
    have hnot := List.rdropWhile_last_not _ ds hne'
    rw [List.getLast_map, Int.toNat_eq_zero] at hlast
    have hpos := (hsub _ (List.getLast_mem hne')).1
    rw [decide_eq_true_eq] at hnot
    omega

theorem clean_integer {ds : List ℤ} (h : IsDigits 10 ds) :
    clean { num := ds } = ulong2num (val 10 ds).toNat := by
  rw [clean]
  dsimp only
  rw [Nat.zero_sub, List.replicate_zero, List.append_nil, rdropWhile_eq h]
  split
  · next hnil =>
    rw [← hnil]
    rfl
  · rfl

theorem rdropWhile_of_large {ds : List ℤ} (h : IsDigits 10 ds)
    (hv : 10 ^ ds.length ≤ 10 * val 10 ds) : ds.rdropWhile (· = 0) = ds := by
  cases ds using List.reverseRecOn with
  | nil => rfl
  | append_singleton ds d =>
    rw [List.rdropWhile_concat, if_neg]
    rw [decide_eq_true_eq]
    rintro rfl
    have hlt := val_lt (by decide) (isDigits_append.mp h).1
    rw [val_append, List.length_append, List.length_singleton, pow_succ, val_cons, val_nil,
      mul_zero, add_zero, mul_zero, add_zero] at hv
    omega

theorem eq_ulong2num {ds : List ℤ} (h : IsDigits 10 ds) (hv : 10 ^ ds.length ≤ 10 * val 10 ds) :
    ({ num := ds } : BcNum) = ulong2num (val 10 ds).toNat := by
  rw [← clean_integer h, clean]
  dsimp only
  rw [rdropWhile_of_large h hv, Nat.zero_sub, List.replicate_zero, List.append_nil]
  split
  · next hnil => rw [hnil]
  · rfl

/-! ### Normal numbers -/

/-- A number as `bc_num_clean` leaves it. -/
structure Normal (n : BcNum) : Prop where
  digits : IsDigits 10 n.num
  cleaned : clean n = n

def BcNum.value (n : BcNum) : ℚ := (if n.neg then -1 else 1) * (val 10 n.num : ℚ) / 10 ^ n.rdx

section

variable {n : BcNum}

/-- What is left of a normal number without the zeros it starts with. -/
theorem Normal.num_eq (h : Normal n) (hne : n.num ≠ []) :
    n.num.rdropWhile (· = 0) ≠ [] ∧ n.num = n.num.rdropWhile (· = 0) ++
      List.replicate (n.rdx - (n.num.rdropWhile (· = 0)).length) 0 := by
  have hclean := congrArg BcNum.num h.cleaned
  rw [clean] at hclean
  split at hclean
  · exact absurd hclean.symm hne
  · next hnil => exact ⟨hnil, hclean.symm⟩

theorem Normal.rdx_le (h : Normal n) (hne : n.num ≠ []) : n.rdx ≤ n.len := by
  have hlen := congrArg List.length (h.num_eq hne).2
  rw [List.length_append, List.length_replicate] at hlen
  rw [BcNum.len]
  omega

theorem Normal.getLast_ne (h : Normal n) (hrdx : n.rdx < n.len) :
    ∃ ds d, n.num = ds ++ [d] ∧ d ≠ 0 := by
  have hne : n.num ≠ [] := fun hnil => by
    rw [BcNum.len, hnil] at hrdx
    exact Nat.not_lt_zero _ hrdx
  obtain ⟨hnil, heq⟩ := h.num_eq hne
  have hlen := congrArg List.length heq
  rw [List.length_append, List.length_replicate] at hlen
  rw [BcNum.len] at hrdx
  rw [show n.rdx - (n.num.rdropWhile (· = 0)).length = 0 by omega, List.replicate_zero,
    List.append_nil] at heq
  have hlast := List.rdropWhile_last_not _ n.num hnil
  refine ⟨_, _, heq.trans (List.dropLast_append_getLast hnil).symm, ?_⟩
  simpa using hlast

theorem Normal.exists_ne (h : Normal n) (hne : n.num ≠ []) : ∃ d ∈ n.num, d ≠ 0 := by
  have hnil := (h.num_eq hne).1
  have hlast := List.rdropWhile_last_not _ n.num hnil
  exact ⟨_, (List.rdropWhile_prefix _ _).subset (List.getLast_mem hnil), by simpa using hlast⟩

/-- **A normal integer is given by its value.** -/
theorem Normal.eq_ulong2num (h : Normal n) (hrdx : n.rdx = 0) (hneg : n.neg = false) :
    n = ulong2num (val 10 n.num).toNat := by
  have hn : n = { num := n.num } := by
    obtain ⟨num, rdx, neg⟩ := n
    dsimp only at hrdx hneg
    rw [hrdx, hneg]
  rw [← clean_integer h.digits, ← hn, h.cleaned]

end

/-! ### Sums and differences -/

theorem addDigits_eq {xs ys zs : List ℤ} (hx : IsDigits 10 xs) (hy : IsDigits 10 ys)
    (hlen : xs.length = ys.length) (hz : IsDigits 10 zs) {v : ℤ}
    (hv : val 10 xs + val 10 ys + 10 ^ xs.length * val 10 zs = v)
    (hlarge : 10 ^ (xs.length + zs.length) ≤ 10 * v) {both one : List ℤ × ℤ}
    (hboth : addLoop 0 xs ys = both) (hone : carryLoop both.2 zs = one) :
    ({ num := both.1 ++ one.1 ++ if one.2 ≠ 0 then [one.2] else [] } : BcNum) =
      ulong2num v.toNat := by
  obtain ⟨h1, h2, h3⟩ := addDigits_spec hx hy hlen hz hv hboth hone
  rw [← h2]
  apply eq_ulong2num h1
  rcases h3 with hlen' | ⟨hlen', hcarry⟩
  · rwa [hlen', h2]
  · rw [hlen', h2, pow_succ]
    omega

theorem numA_integer {a b : List ℤ} (ha : a ≠ []) (hb : b ≠ []) (sub : Bool) :
    numA { num := a } { num := b } sub =
      if b.length < a.length then
        let both := addLoop 0 (a.take b.length) b
        let one := carryLoop both.2 (a.drop b.length)
        { num := both.1 ++ one.1 ++ if one.2 ≠ 0 then [one.2] else [] }
      else
        let both := addLoop 0 a (b.take a.length)
        let one := carryLoop both.2 (b.drop a.length)
        { num := both.1 ++ one.1 ++ if one.2 ≠ 0 then [one.2] else [] } := by
  have ha' : a.length ≠ 0 := fun h => ha (List.eq_nil_of_length_eq_zero h)
  have hb' : b.length ≠ 0 := fun h => hb (List.eq_nil_of_length_eq_zero h)
  by_cases h : b.length < a.length
  · simp only [numA, BcNum.len, BcNum.int, ha', hb', Nat.min_self, Nat.max_self, Nat.sub_self,
      Nat.lt_irrefl, if_false, List.take_zero, List.drop_zero, List.nil_append, Nat.sub_zero,
      Nat.zero_add, Nat.add_zero, h, if_true, List.take_length]
  · simp only [numA, BcNum.len, BcNum.int, ha', hb', Nat.min_self, Nat.max_self, Nat.sub_self,
      Nat.lt_irrefl, if_false, List.take_zero, List.drop_zero, List.nil_append, Nat.sub_zero,
      Nat.zero_add, Nat.add_zero, h, List.take_length]

theorem num_ne_nil {m : ℕ} (h : m ≠ 0) : (ulong2num m).num ≠ [] := by
  intro hnil
  exact h ((ulong2num_len_eq_zero m).mp (by rw [BcNum.len, hnil]; rfl))

theorem num_ne_nil_of_len {n : BcNum} (h : ¬ n.len = 0) : n.num ≠ [] :=
  fun hnil => h (by rw [BcNum.len, hnil]; rfl)

theorem pow_len_le {m : ℕ} (h : m ≠ 0) : 10 ^ (ulong2num m).num.length ≤ 10 * (m : ℤ) := by
  have hpos : 0 < (ulong2num m).num.length := List.length_pos_iff.mpr (num_ne_nil h)
  have hle := pow_le_of_ne_zero h
  obtain ⟨n, hn⟩ : ∃ n, (ulong2num m).num.length = n + 1 := ⟨_, (Nat.sub_add_cancel hpos).symm⟩
  rw [BcNum.len, hn, Nat.add_sub_cancel] at hle
  rw [hn, pow_succ]
  have hle' : (10 : ℤ) ^ n ≤ m := by exact_mod_cast hle
  omega

/-- **Addition of integers.** -/
theorem add_ulong2num (m k : ℕ) : add (ulong2num m) (ulong2num k) = ulong2num (m + k) := by
  have hadd : add (ulong2num m) (ulong2num k) =
      numA { num := (ulong2num m).num } { num := (ulong2num k).num } false := rfl
  by_cases hm : m = 0
  · rw [hm, Nat.zero_add]
    rfl
  by_cases hk : k = 0
  · have hm0 : (ulong2num m).len ≠ 0 := by rwa [ne_eq, ulong2num_len_eq_zero]
    rw [hk, Nat.add_zero]
    exact if_neg hm0
  have hsum : ((m : ℤ) + k).toNat = m + k := Int.toNat_natCast _
  have hdm := isDigits_ulong2num m
  have hdk := isDigits_ulong2num k
  rw [hadd, numA_integer (num_ne_nil hm) (num_ne_nil hk), ← hsum]
  split
  · next hlt =>
    have htake : ((ulong2num m).num.take (ulong2num k).num.length).length =
        (ulong2num k).num.length := by
      rw [List.length_take, Nat.min_eq_left (Nat.le_of_lt hlt)]
    refine addDigits_eq (hdm.take _) hdk htake (hdm.drop _) ?_ ?_ rfl rfl
    · have := val_take_add_drop (B := 10) (Nat.le_of_lt hlt)
      rw [val_ulong2num] at this
      rw [htake, val_ulong2num]
      linarith
    · have := pow_len_le hm
      rw [htake, List.length_drop, Nat.add_sub_cancel' (Nat.le_of_lt hlt)]
      omega
  · next hge =>
    have hle := Nat.le_of_not_lt hge
    have htake : ((ulong2num k).num.take (ulong2num m).num.length).length =
        (ulong2num m).num.length := by
      rw [List.length_take, Nat.min_eq_left hle]
    refine addDigits_eq hdm (hdk.take _) htake.symm (hdk.drop _) ?_ ?_ rfl rfl
    · have := val_take_add_drop (B := 10) hle
      rw [val_ulong2num] at this
      rw [val_ulong2num]
      linarith
    · have := pow_len_le hk
      rw [List.length_drop, Nat.add_sub_cancel' hle]
      omega

theorem len_le_len {m k : ℕ} (h : k ≤ m) : (ulong2num k).num.length ≤ (ulong2num m).num.length := by
  have := Nat.le_length_digits_le 10 k m h
  rwa [← len_ulong2num, ← len_ulong2num] at this

theorem cmp_ulong2num {m k : ℕ} (hk : k ≠ 0) (h : k < m) : 0 < cmp (ulong2num m) (ulong2num k) := by
  have hlen := len_le_len (Nat.le_of_lt h)
  have hm0 : (ulong2num m).len ≠ 0 := by rw [ne_eq, ulong2num_len_eq_zero]; omega
  have hk0 : (ulong2num k).len ≠ 0 := by rwa [ne_eq, ulong2num_len_eq_zero]
  have hneg : ∀ n, (ulong2num n).neg = false := fun _ => rfl
  have hrdx : ∀ n, (ulong2num n).rdx = 0 := fun _ => rfl
  have hint : ∀ n, (ulong2num n).int = (ulong2num n).num.length := fun _ => rfl
  rw [cmp, if_neg hm0, if_neg hk0, hneg, hneg, if_neg (by decide)]
  split
  · next hne =>
    rw [hint, hint] at hne ⊢
    omega
  · next heq =>
    rw [hint, hint, not_ne_iff] at heq
    have hcmp := (compare_spec (isDigits_ulong2num k) (isDigits_ulong2num m) (Nat.le_refl _)
      (by omega : (ulong2num k).num.length ≤ (ulong2num m).num.length)).1
    rw [List.take_length, ← heq, List.take_length, heq, val_ulong2num, val_ulong2num] at hcmp
    have hlt := hcmp.mpr (by exact_mod_cast h)
    simp only [hrdx, hint, Nat.lt_irrefl, decide_false, Bool.false_eq_true, if_false,
      Nat.sub_self, List.drop_zero, Nat.add_zero, Bool.not_false, negateIf, if_true]
    rw [if_pos (ne_of_lt hlt)]
    omega

theorem compare_self (a : List ℤ) (n : ℕ) : compare a a n = 0 := by
  induction n with
  | zero => rfl
  | succ n ih =>
    rw [compare, sub_self, if_neg (by decide), ih]

theorem cmp_self (a : BcNum) (hneg : a.neg = false) : cmp a a = 0 := by
  simp only [cmp, ne_eq, not_true_eq_false, if_false, Nat.lt_irrefl, decide_false,
    Bool.false_eq_true, Nat.sub_self, List.drop_zero, compare_self, List.take_zero, List.any_nil,
    hneg]
  split
  · rfl
  · rfl

/-- **Subtraction of integers.** -/
theorem sub_ulong2num {m k : ℕ} (h : k ≤ m) :
    sub (ulong2num m) (ulong2num k) = ulong2num (m - k) := by
  have hsub : sub (ulong2num m) (ulong2num k) = numS (ulong2num m) (ulong2num k) true := rfl
  by_cases hm : m = 0
  · obtain rfl : k = 0 := by omega
    subst hm
    rfl
  have hm0 : (ulong2num m).len ≠ 0 := by rwa [ne_eq, ulong2num_len_eq_zero]
  by_cases hk : k = 0
  · subst hk
    rw [hsub, numS, if_neg hm0]
    rfl
  have hk0 : (ulong2num k).len ≠ 0 := by rwa [ne_eq, ulong2num_len_eq_zero]
  rw [hsub, numS, if_neg hm0, if_neg hk0]
  rcases Nat.eq_or_lt_of_le h with rfl | hlt
  · have hcmp := cmp_self (ulong2num k) rfl
    rw [Nat.sub_self]
    exact if_pos hcmp
  · have hcmp := cmp_ulong2num hk hlt
    have hne := ne_of_gt hcmp
    have hneg : ∀ n, { ulong2num n with neg := false } = ulong2num n := fun _ => rfl
    rw [hneg, hneg]
    simp only [if_neg hne, if_pos hcmp]
    have hspec := subArrays_spec (isDigits_ulong2num m) (isDigits_ulong2num k) (len_le_len h)
      (by rw [val_ulong2num, val_ulong2num]; exact_mod_cast h)
    rw [val_ulong2num, val_ulong2num] at hspec
    have hclean := clean_integer hspec.1
    rw [hspec.2.2, ← Nat.cast_sub h, Int.toNat_natCast] at hclean
    exact hclean

/-! ### Products -/

theorem isOne_ulong2num (m : ℕ) : isOne (ulong2num m) = true ↔ m = 1 := by
  constructor
  · intro h
    simp only [isOne, Bool.and_eq_true, decide_eq_true_eq] at h
    obtain ⟨⟨h1, -⟩, h2⟩ := h
    obtain ⟨d, hd⟩ : ∃ d, (ulong2num m).num = [d] := List.length_eq_one_iff.mp h1
    rw [hd] at h2
    have hval := val_ulong2num m
    rw [hd, show d = 1 from h2, val_cons, val_nil] at hval
    omega
  · rintro rfl
    decide

theorem retireMul_integer {ds : List ℤ} (h : IsDigits 10 ds) (places : ℕ) :
    retireMul { num := ds, rdx := places } 0 false false =
      ulong2num (val 10 ds / 10 ^ places).toNat := by
  have htrunc : truncate { num := ds, rdx := places } places = { num := ds.drop places } :=
    congrArg (BcNum.mk _ · _) (Nat.sub_self places)
  simp only [retireMul, Nat.not_lt_zero, if_false, Nat.sub_zero, htrunc,
    clean_integer (h.drop places), val_drop (by decide) h]
  split
  · rfl
  · rfl

theorem mulRows_ulong2num {m k : ℕ} (hm : m ≠ 0) (hk : k ≠ 0) {c : List ℤ × ℕ}
    (hc : mulRows (ulong2num m).num 0 0 (ulong2num k).num
      (List.replicate ((ulong2num m).len + (ulong2num k).len + 1) 0) = c) :
    ({ num := c.1.take c.2 } : BcNum) = ulong2num (m * k) := by
  have hspec := mulRows_spec (isDigits_ulong2num m) (num_ne_nil hm) (isDigits_ulong2num k)
    (isDigits_replicate_zero (by decide) ((ulong2num m).len + (ulong2num k).len + 1))
    (by rw [List.length_replicate, BcNum.len, BcNum.len]; omega)
    (fun d hd => List.eq_of_mem_replicate (List.mem_of_mem_drop hd)) 0 0
    (fun d hd => List.eq_of_mem_replicate (List.mem_of_mem_drop hd))
  rw [hc, val_replicate_zero, zero_add, val_ulong2num, val_ulong2num] at hspec
  obtain ⟨h1, h2, -, h4, h5⟩ := hspec
  rw [Nat.sub_zero] at h4
  have hval : val 10 (c.1.take c.2) = ((m * k : ℕ) : ℤ) := by
    rw [val_take_of_zeros h4, h2]
    exact (Nat.cast_mul m k).symm
  have hpos : 1 ≤ (m : ℤ) * k := by
    have hne : m * k ≠ 0 := Nat.mul_ne_zero hm hk
    exact_mod_cast Nat.one_le_iff_ne_zero.mpr hne
  have hlarge : (10 : ℤ) ^ c.2 ≤ 10 * (m * k) := by
    rw [Nat.zero_add, Nat.zero_max, Nat.sub_zero, h2] at h5
    rcases h5 with hle | hlarge
    · have hm' := pow_len_le hm
      have hk' := pow_len_le hk
      have hpm : 0 < (ulong2num m).num.length := List.length_pos_iff.mpr (num_ne_nil hm)
      have hexp : (10 : ℤ) ^ (c.2 + 1) ≤
          10 ^ (ulong2num m).num.length * 10 ^ (ulong2num k).num.length := by
        rw [← pow_add]
        exact pow_le_pow_right₀ (by decide) (by omega)
      have hmul : (10 : ℤ) ^ (ulong2num m).num.length * 10 ^ (ulong2num k).num.length ≤
          10 * m * (10 * k) := mul_le_mul hm' hk' (by positivity) (by positivity)
      rw [pow_succ] at hexp
      linarith
    · have hexp : (10 : ℤ) ^ c.2 ≤ 10 * 10 ^ (c.2 - 1) := by
        rw [← pow_succ']
        exact pow_le_pow_right₀ (by decide) (by omega)
      linarith
  have hlen : (10 : ℤ) ^ (c.1.take c.2).length ≤ 10 ^ c.2 :=
    pow_le_pow_right₀ (by decide) (by rw [List.length_take]; exact Nat.min_le_left _ _)
  rw [eq_ulong2num (h1.take _), hval, Int.toNat_natCast]
  rw [hval, Nat.cast_mul]
  linarith

/-- The product, when one of the numbers is short. -/
theorem numK_short (fuel : ℕ) {m k : ℕ}
    (h : (ulong2num m).len + (ulong2num k).len < 32 ∨ (ulong2num m).len < 32 ∨
      (ulong2num k).len < 32) :
    numK (fuel + 1) (ulong2num m) (ulong2num k) = .ok (ulong2num (m * k)) := by
  rw [numK]
  by_cases hzero : (ulong2num m).len = 0 ∨ (ulong2num k).len = 0
  · rw [if_pos hzero]
    rw [ulong2num_len_eq_zero, ulong2num_len_eq_zero] at hzero
    rcases hzero with rfl | rfl
    · rw [Nat.zero_mul]
      rfl
    · rw [Nat.mul_zero]
      rfl
  rw [if_neg hzero]
  by_cases hone : (isOne (ulong2num m) || isOne (ulong2num k)) = true
  · rw [if_pos hone]
    by_cases hm : isOne (ulong2num m) = true
    · rw [if_pos hm, (isOne_ulong2num m).mp hm, Nat.one_mul]
    · rw [Bool.or_eq_true, or_iff_right hm] at hone
      rw [if_neg hm, (isOne_ulong2num k).mp hone, Nat.mul_one]
  · rw [not_or, ulong2num_len_eq_zero, ulong2num_len_eq_zero] at hzero
    rw [if_neg hone, if_pos h]
    exact congrArg Except.ok (mulRows_ulong2num hzero.1 hzero.2 rfl)

/-- **Multiplication of integers** by a short one. -/
theorem numM_ulong2num (fuel m : ℕ) {k : ℕ} (hk : (ulong2num k).len < 32) :
    numM (fuel + 1) (ulong2num m) (ulong2num k) 0 = .ok (ulong2num (m * k)) := by
  have hshift : ∀ n, shift { ulong2num n with neg := false } 0 = .ok (ulong2num n) :=
    fun _ => if_pos (Or.inl rfl)
  have hret := retireMul_integer (isDigits_ulong2num (m * k)) 0
  rw [pow_zero, Int.ediv_one, val_ulong2num, Int.toNat_natCast] at hret
  have hnum : numM (fuel + 1) (ulong2num m) (ulong2num k) 0 =
      (do
        let cpa ← shift { ulong2num m with neg := false } 0
        let cpb ← shift { ulong2num k with neg := false } 0
        let c ← numK (fuel + 1) cpa cpb
        let num := if c.len < 0 then c.num ++ List.replicate 0 0 else c.num
        pure (retireMul { c with num := num, rdx := 0 } 0 false false)) := rfl
  rw [hnum, hshift, hshift]
  simp only [bind, Except.bind, numK_short fuel (.inr (.inr hk)), Nat.not_lt_zero, if_false]
  exact congrArg Except.ok hret

/-! ### Divisors -/

theorem divisor_ulong2num {k : ℕ} (hk : k ≠ 0) :
    Divisor (ulong2num k).num (ulong2num k).len where
  digits := isDigits_ulong2num k
  pos := List.length_pos_iff.mpr (num_ne_nil hk)
  length_le := Nat.le_refl _
  large := by
    rw [BcNum.len, List.take_length, val_ulong2num]
    exact_mod_cast pow_le_of_ne_zero hk

/-! ### Machine numbers -/

/-- **The overflow test.**  What has wrapped around is less than eight times what there was, and
what has not is more. -/
theorem wraps_iff {prev d : ℕ} : prev < 2 ^ 64 → d < 10 →
    ((prev * 10 + d) % 2 ^ 64 / 8 < prev ↔ 2 ^ 64 ≤ prev * 10 + d) := by
  intro hprev hd
  omega

/-- The loop has the value of the digits that it has read, and goes on to that of all of them. -/
theorem ulongLoop_eq {ds : List ℤ} (h : IsDigits 10 ds) {prev : ℕ} (hprev : prev < 2 ^ 64) {v : ℕ}
    (hv : (v : ℤ) = prev * 10 ^ ds.length + val 10 ds.reverse) :
    ulongLoop prev ds = if v < 2 ^ 64 then .ok v else .error .overflow := by
  induction ds generalizing prev with
  | nil =>
    obtain rfl : v = prev := by simpa using hv
    rw [ulongLoop, if_pos hprev]
  | cons d ds ih =>
    obtain ⟨⟨hd0, hd⟩, hds⟩ := isDigits_cons.mp h
    obtain ⟨d, rfl⟩ := Int.eq_ofNat_of_zero_le hd0
    have hd : d < 10 := by omega
    have hrest : 0 ≤ val 10 ds.reverse :=
      val_nonneg (by decide) fun e he => hds e (List.mem_reverse.mp he)
    have hv' : (v : ℤ) = (prev * 10 + d : ℕ) * 10 ^ ds.length + val 10 ds.reverse := by
      rw [hv, List.reverse_cons, val_append, List.length_reverse, List.length_cons, pow_succ,
        val_cons, val_nil]
      push_cast
      ring
    rw [ulongLoop, Int.toNat_natCast]
    by_cases hwraps : 2 ^ 64 ≤ prev * 10 + d
    · have hle : ((prev * 10 + d : ℕ) : ℤ) ≤ v := by
        rw [hv']
        have hpow : (1 : ℤ) ≤ 10 ^ ds.length := one_le_pow₀ (by decide)
        nlinarith [Int.natCast_nonneg (prev * 10 + d)]
      rw [if_pos ((wraps_iff hprev hd).mpr hwraps), if_neg (by omega)]
    · rw [if_neg (mt (wraps_iff hprev hd).mp hwraps), Nat.mod_eq_of_lt (Nat.lt_of_not_le hwraps)]
      exact ih hds (Nat.lt_of_not_le hwraps) hv'

/-- **Integers below 2^64 are read back.** -/
theorem ulong_ulong2num {m : ℕ} (h : m < 2 ^ 64) : ulong (ulong2num m) = .ok m := by
  have hloop : ulongLoop 0 (ulong2num m).num.reverse =
      if m < 2 ^ 64 then .ok m else .error .overflow :=
    ulongLoop_eq (fun d hd => isDigits_ulong2num m d (List.mem_reverse.mp hd)) (by decide)
      (by rw [List.reverse_reverse, val_ulong2num]; simp)
  rw [if_pos h] at hloop
  exact hloop

theorem floor_abs_value {n : BcNum} (h : IsDigits 10 n.num) :
    ⌊|n.value|⌋ = val 10 (n.num.drop n.rdx) := by
  have hpos : (0 : ℚ) ≤ val 10 n.num := Int.cast_nonneg (val_nonneg (by decide) h)
  have habs : |n.value| = (val 10 n.num : ℚ) / (10 ^ n.rdx : ℕ) := by
    rw [BcNum.value, abs_div, abs_mul, abs_of_nonneg hpos]
    split <;> simp
  rw [habs, Rat.floor_intCast_div_natCast, val_drop (by decide) h]
  push_cast
  rfl

theorem ulongAbs_eq {n : BcNum} (h : IsDigits 10 n.num) :
    ulongAbs n =
      if ⌊|n.value|⌋ < 2 ^ 64 then .ok ⌊|n.value|⌋.toNat else .error .overflow := by
  have hdrop := h.drop n.rdx
  have hpos : 0 ≤ ⌊|n.value|⌋ := Int.floor_nonneg.mpr (abs_nonneg _)
  have hloop : ulongLoop 0 (n.num.drop n.rdx).reverse =
      if ⌊|n.value|⌋.toNat < 2 ^ 64 then .ok ⌊|n.value|⌋.toNat else .error .overflow :=
    ulongLoop_eq (fun d hd => hdrop d (List.mem_reverse.mp hd)) (by decide)
      (by rw [Int.toNat_of_nonneg hpos, floor_abs_value h, List.reverse_reverse]; simp)
  rw [ulongAbs, hloop]
  refine if_congr ?_ rfl rfl
  omega

/-- **Overflow is found exactly.**  A number is read when its integer part is below 2^64, and only
then, and what is read is its integer part; the test for it is right for all that the loop may have
read and for every next digit. -/
theorem ulongAbs_exact :
    (∀ n : BcNum, Normal n →
      ((∃ m, ulongAbs n = .ok m) ↔ ⌊|n.value|⌋ < 2 ^ 64) ∧
        ∀ m, ulongAbs n = .ok m → (m : ℤ) = ⌊|n.value|⌋) ∧
      ∀ prev d : ℕ, prev < 2 ^ 64 → d < 10 →
        ((prev * 10 + d) % 2 ^ 64 / 8 < prev ↔ 2 ^ 64 ≤ prev * 10 + d) := by
  refine ⟨fun n hn => ?_, fun _ _ => wraps_iff⟩
  have hpos : 0 ≤ ⌊|n.value|⌋ := Int.floor_nonneg.mpr (abs_nonneg _)
  rw [ulongAbs_eq hn.digits]
  by_cases hlt : ⌊|n.value|⌋ < 2 ^ 64
  · rw [if_pos hlt]
    refine ⟨iff_of_true ⟨_, rfl⟩ hlt, fun m hm => ?_⟩
    cases hm
    exact Int.toNat_of_nonneg hpos
  · rw [if_neg hlt]
    refine ⟨iff_of_false ?_ hlt, ?_⟩
    · rintro ⟨m, hm⟩
      cases hm
    · intro m hm
      cases hm

/-- 2^64 itself is one too large. -/
theorem ulongAbs_exact_limit :
    (¬ ∃ m, ulongAbs (ulong2num (2 ^ 64)) = .ok m) ∧ 2 ^ 64 ≤ ⌊|(ulong2num (2 ^ 64)).value|⌋ := by
  have hnormal : Normal (ulong2num (2 ^ 64)) :=
    ⟨isDigits_ulong2num _, by decide +kernel⟩
  have hnone : ¬ ∃ m, ulongAbs (ulong2num (2 ^ 64)) = .ok m := by
    rintro ⟨m, hm⟩
    have herror : ulongAbs (ulong2num (2 ^ 64)) = .error .overflow := by decide +kernel
    rw [herror] at hm
    cases hm
  refine ⟨hnone, ?_⟩
  rw [((ulongAbs_exact.1 _ hnormal).1).not] at hnone
  exact not_lt.mp hnone

end Rustybox.Bc
