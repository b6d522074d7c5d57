import Rustybox.Lib.Shifts
import Rustybox.Lib.Skipping
import Mathlib.Data.BitVec
import Mathlib.Data.Finite.Prod
import Mathlib.Algebra.Ring.Nat

/-!
# Random numbers of the shell

`next_random`, for `$RANDOM`: a Galois register, a linear generator and a xorshift whose states
(0, 0), (1, 0) and (2, 0) are skipped.
-/

namespace Rustybox.Shell.Random

open Skipping

structure RandomT where
  galoisLFSR : BitVec 32
  LCG : BitVec 32
  xs64X : BitVec 32
  xs64Y : BitVec 32
  deriving DecidableEq

/-- Taps at 32 31 29 1. -/
def MASK : BitVec 32 := 2147483659#32

/-- The xorshift with 2, 7 and 3, on `xs64_x` and `xs64_y`. -/
def xorshift (xs : BitVec 32 × BitVec 32) : BitVec 32 × BitVec 32 :=
  let t := xs.1 ^^^ xs.1 <<< 2
  (xs.2, xs.2 ^^^ xs.2 >>> 3 ^^^ t ^^^ t >>> 7)

/-- The states for which the loop goes on. -/
def Skipped (xs : BitVec 32 × BitVec 32) : Prop := xs.2 = 0 ∧ xs.1 ≤ 2

instance : DecidablePred Skipped := fun _ => inferInstanceAs (Decidable (_ ∧ _))

/-- `galois_LFSR` shifted left, as an `i32`. -/
def nextLFSR (g : BitVec 32) : BitVec 32 :=
  -- if we just shifted 1 out of msb...
  if g.slt 0 then g <<< 1 ^^^ MASK else g <<< 1

/-- What a `galois_LFSR` of 0 is seeded with: `getpid` and `monotonic_us`. -/
def seed (pid us : BitVec 32) (rnd : RandomT) : RandomT :=
  if rnd.galoisLFSR = 0 then ⟨pid, us, pid, us⟩ else rnd

/-- `next_random`, with at most `turns` turns of its loop. -/
def nextRandom (pid us : BitVec 32) (turns : ℕ) (rnd : RandomT) : Option (RandomT × BitVec 32) := do
  let rnd := seed pid us rnd
  let LCG := 1664525#32 * rnd.LCG + 1013904223#32
  let galoisLFSR := nextLFSR rnd.galoisLFSR
  let (xs64X, xs64Y) ← skip xorshift Skipped turns (rnd.xs64X, rnd.xs64Y)
  let t := galoisLFSR - LCG + xs64Y
  pure (⟨galoisLFSR, LCG, xs64X, xs64Y⟩, t &&& 0x7fff#32)

/-! ### The generators -/

theorem nextLFSR_eq_galois (g : BitVec 32) : nextLFSR g = Shifts.galois MASK g := by
  rw [nextLFSR, Shifts.galois, show (0 : BitVec 32) = 0#32 from rfl, BitVec.slt_zero_eq_msb]

theorem nextLFSR_injective : Function.Injective nextLFSR := by
  intro x y h
  rw [nextLFSR_eq_galois, nextLFSR_eq_galois] at h
  exact Shifts.galois_injective (by decide) h

theorem nextLFSR_ne_zero {g : BitVec 32} (h : g ≠ 0) : nextLFSR g ≠ 0 := by
  intro hzero
  have hfixed : nextLFSR 0 = 0 := by decide
  exact h (nextLFSR_injective (hzero.trans hfixed.symm))

theorem LCG_injective : Function.Injective fun x : BitVec 32 => 1664525#32 * x + 1013904223#32 := by
  intro x y h
  have hmul : 1664525#32 * x = 1664525#32 * y := by
    have hsub := congrArg (· - 1013904223#32) h
    simpa using hsub
  -- 1664525 is odd, and 4276115653 is its inverse
  have hone : 4276115653#32 * 1664525#32 = 1#32 := by decide
  calc x = 4276115653#32 * 1664525#32 * x := by rw [hone, BitVec.one_mul]
    _ = 4276115653#32 * (1664525#32 * x) := BitVec.mul_assoc _ _ _
    _ = 4276115653#32 * (1664525#32 * y) := by rw [hmul]
    _ = 4276115653#32 * 1664525#32 * y := (BitVec.mul_assoc _ _ _).symm
    _ = y := by rw [hone, BitVec.one_mul]

theorem xorshift_injective : Function.Injective xorshift := by
  rintro ⟨x, y⟩ ⟨x', y'⟩ h
  obtain ⟨hy, hxor⟩ := Prod.mk.inj h
  dsimp only at hy hxor
  subst hy
  rw [BitVec.xor_assoc, BitVec.xor_assoc (y ^^^ y >>> 3), BitVec.xor_right_inj] at hxor
  have ht := Shifts.xor_shiftRight_injective (by decide) hxor
  rw [Shifts.xor_shiftLeft_injective (by decide) ht]

theorem xorshift_zero : xorshift (0, 0) = (0, 0) := by decide

theorem xorshift_ne_zero {xs : BitVec 32 × BitVec 32} (h : xs ≠ (0, 0)) :
    xorshift xs ≠ (0, 0) := fun hzero => h (xorshift_injective (hzero.trans xorshift_zero.symm))

/-! ### The loop -/

/-- Of the three skipped states (0, 0) is not reached, and the other two are left for (0, 5) and
(0, 10). -/
theorem skipped_cases {xs : BitVec 32 × BitVec 32} (hne : xs ≠ (0, 0)) (h : Skipped xs) :
    xs = (1, 0) ∨ xs = (2, 0) := by
  obtain ⟨x, y⟩ := xs
  obtain ⟨hy, hx⟩ := h
  dsimp only at hy hx
  subst hy
  have hne' : x ≠ 0 := by
    rintro rfl
    exact hne rfl
  have hcases : x = 1 ∨ x = 2 := by bv_omega
  rcases hcases with rfl | rfl
  · exact Or.inl rfl
  · exact Or.inr rfl

theorem skip_of_skipped {xs : BitVec 32 × BitVec 32} (hne : xs ≠ (0, 0)) (h : Skipped xs) :
    ∃ xs', skip xorshift Skipped 1 xs = some xs' := by
  rcases skipped_cases hne h with rfl | rfl
  · exact ⟨(0, 5), by decide⟩
  · exact ⟨(0, 10), by decide⟩

theorem skip_exists {xs : BitVec 32 × BitVec 32} (hne : xs ≠ (0, 0)) :
    ∃ xs', skip xorshift Skipped 2 xs = some xs' := by
  by_cases hskipped : Skipped (xorshift xs)
  · obtain ⟨xs', hxs'⟩ := skip_of_skipped (xorshift_ne_zero hne) hskipped
    refine ⟨xs', ?_⟩
    rw [skip, if_pos hskipped, hxs']
  · refine ⟨xorshift xs, ?_⟩
    rw [skip, if_neg hskipped]

/-! ### Calls one after another -/

/-- The state after so many calls, of which call `i` finds `pid i` and `us i`. -/
def calls (pid us : ℕ → BitVec 32) (turns : ℕ) : ℕ → RandomT → Option RandomT
  | 0, rnd => some rnd
  | n + 1, rnd => do
    let rnd ← calls pid us turns n rnd
    let (rnd, _) ← nextRandom (pid n) (us n) turns rnd
    pure rnd

/-- What a state is seeded with, at least. -/
def Seeded (rnd : RandomT) : Prop := rnd.galoisLFSR ≠ 0 ∧ (rnd.xs64X, rnd.xs64Y) ≠ (0, 0)

/-- No register is stuck, and the xorshift is not at a state to skip. -/
def Proper (rnd : RandomT) : Prop := rnd.galoisLFSR ≠ 0 ∧ ¬ Skipped (rnd.xs64X, rnd.xs64Y)

theorem Proper.seeded {rnd : RandomT} (h : Proper rnd) : Seeded rnd := by
  refine ⟨h.1, fun hzero => h.2 ?_⟩
  rw [hzero]
  decide

theorem nextRandom_eq_some {pid us : BitVec 32} {turns : ℕ} {rnd rnd' : RandomT} {t : BitVec 32}
    (hseeded : rnd.galoisLFSR ≠ 0) (h : nextRandom pid us turns rnd = some (rnd', t)) :
    rnd'.galoisLFSR = nextLFSR rnd.galoisLFSR ∧
      rnd'.LCG = 1664525#32 * rnd.LCG + 1013904223#32 ∧
      skip xorshift Skipped turns (rnd.xs64X, rnd.xs64Y) = some (rnd'.xs64X, rnd'.xs64Y) := by
  simp only [nextRandom, seed, if_neg hseeded, Option.bind_eq_bind, Option.bind_eq_some_iff,
    Option.pure_def, Option.some.injEq, Prod.mk.injEq] at h
  obtain ⟨⟨x, y⟩, hskip, rfl, -⟩ := h
  exact ⟨rfl, rfl, hskip⟩

theorem nextRandom_exists (pid us : BitVec 32) {rnd : RandomT} (h : Seeded rnd) :
    ∃ rnd', Proper rnd' ∧
      ∀ turns ≥ 2, ∃ t, nextRandom pid us turns rnd = some (rnd', t) := by
  obtain ⟨⟨x, y⟩, hskip⟩ := skip_exists h.2
  obtain ⟨n, -, hgood, -⟩ := skip_eq_some hskip
  refine ⟨⟨nextLFSR rnd.galoisLFSR, 1664525#32 * rnd.LCG + 1013904223#32, x, y⟩,
    ⟨nextLFSR_ne_zero h.1, hgood⟩, fun turns hturns => ?_⟩
  have hmore := skip_mono hskip hturns
  simp only [nextRandom, seed, if_neg h.1, hmore, Option.bind_eq_bind, Option.bind_some,
    Option.pure_def, Option.some.injEq, Prod.mk.injEq, true_and, exists_eq']

theorem calls_exists (pid us : ℕ → BitVec 32) {rnd : RandomT} (h : Seeded rnd) (n : ℕ) :
    ∃ rnd', Proper rnd' ∧ ∀ turns ≥ 2, calls pid us turns (n + 1) rnd = some rnd' := by
  induction n with
  | zero =>
    obtain ⟨rnd', hproper, hreturns⟩ := nextRandom_exists (pid 0) (us 0) h
    refine ⟨rnd', hproper, fun turns hturns => ?_⟩
    obtain ⟨t, ht⟩ := hreturns turns hturns
    simp only [calls, Option.bind_eq_bind, Option.bind_some, ht, Option.pure_def]
  | succ n ih =>
    obtain ⟨rnd', hproper, hcalls⟩ := ih
    obtain ⟨rnd'', hproper', hreturns⟩ :=
      nextRandom_exists (pid (n + 1)) (us (n + 1)) hproper.seeded
    refine ⟨rnd'', hproper', fun turns hturns => ?_⟩
    obtain ⟨t, ht⟩ := hreturns turns hturns
    rw [calls, hcalls turns hturns]
    simp only [Option.bind_eq_bind, Option.bind_some, ht, Option.pure_def]

/-- Two proper states that a call brings to one are one. -/
theorem nextRandom_injective {pid us pid' us' : BitVec 32} {turns turns' : ℕ}
    {rnd rnd' next : RandomT} {t t' : BitVec 32} (hproper : Proper rnd) (hproper' : Proper rnd')
    (h : nextRandom pid us turns rnd = some (next, t))
    (h' : nextRandom pid' us' turns' rnd' = some (next, t')) : rnd = rnd' := by
  obtain ⟨hlfsr, hlcg, hskip⟩ := nextRandom_eq_some hproper.1 h
  obtain ⟨hlfsr', hlcg', hskip'⟩ := nextRandom_eq_some hproper'.1 h'
  have hg := nextLFSR_injective (hlfsr.symm.trans hlfsr')
  have hl := LCG_injective (hlcg.symm.trans hlcg')
  have hxs := skip_injective xorshift_injective hproper.2 hproper'.2 hskip hskip'
  obtain ⟨hx, hy⟩ := Prod.mk.inj hxs
  cases rnd
  cases rnd'
  simp only at hg hl hx hy
  rw [hg, hl, hx, hy]

instance finite_bitVec (w : ℕ) : Finite (BitVec w) :=
  Finite.of_injective BitVec.toFin fun _ _ h => BitVec.eq_of_toFin_eq h

instance : Finite RandomT := by
  refine Finite.of_injective (fun rnd : RandomT => (rnd.galoisLFSR, rnd.LCG, rnd.xs64X, rnd.xs64Y))
    fun rnd rnd' h => ?_
  cases rnd
  cases rnd'
  simpa using h

/-- The call as a map, where it returns. -/
def turned (rnd : RandomT) : RandomT :=
  match nextRandom 0 0 2 rnd with
  | some (rnd, _) => rnd
  | none => rnd

theorem nextRandom_turned (pid us : BitVec 32) {rnd : RandomT} (h : Seeded rnd) :
    ∀ turns ≥ 2, ∃ t, nextRandom pid us turns rnd = some (turned rnd, t) := by
  intro turns hturns
  obtain ⟨rnd', -, hreturns⟩ := nextRandom_exists pid us h
  obtain ⟨t, ht⟩ := hreturns 2 le_rfl
  have hsame : nextRandom 0 0 2 rnd = nextRandom pid us 2 rnd := by
    simp only [nextRandom, seed, if_neg h.1]
  have hturned : turned rnd = rnd' := by
    rw [turned, hsame, ht]
  rw [hturned]
  exact hreturns turns hturns

theorem turned_proper {rnd : RandomT} (h : Proper rnd) : Proper (turned rnd) := by
  obtain ⟨rnd', hproper, hreturns⟩ := nextRandom_exists 0 0 h.seeded
  obtain ⟨t, ht⟩ := hreturns 2 le_rfl
  rwa [turned, ht]

theorem turned_injective {rnd rnd' : RandomT} (h : Proper rnd) (h' : Proper rnd')
    (heq : turned rnd = turned rnd') : rnd = rnd' := by
  obtain ⟨t, ht⟩ := nextRandom_turned 0 0 h.seeded 2 le_rfl
  obtain ⟨t', ht'⟩ := nextRandom_turned 0 0 h'.seeded 2 le_rfl
  rw [heq] at ht
  exact nextRandom_injective h h' ht ht'

theorem calls_turned (pid us : ℕ → BitVec 32) {turns : ℕ} (hturns : 2 ≤ turns) {rnd : RandomT}
    (h : Proper rnd) (n : ℕ) :
    calls pid us turns n rnd = some (turned^[n] rnd) ∧ Proper (turned^[n] rnd) := by
  induction n with
  | zero => exact ⟨rfl, h⟩
  | succ n ih =>
    obtain ⟨hcalls, hproper⟩ := ih
    obtain ⟨t, ht⟩ := nextRandom_turned (pid n) (us n) hproper.seeded turns hturns
    rw [Function.iterate_succ_apply']
    refine ⟨?_, turned_proper hproper⟩
    rw [calls, hcalls]
    simp only [Option.bind_eq_bind, Option.bind_some, ht, Option.pure_def]

/-- The numbers do not degenerate: from a seeded state every call returns, after at most two turns of
its loop, and leaves a proper one; no two proper states are followed by one; and after some number of
calls a proper state is there again. -/
theorem calls_proper (pid us : ℕ → BitVec 32) :
    (∀ rnd, Seeded rnd → ∀ n, ∃ rnd', Proper rnd' ∧
      ∀ turns ≥ 2, calls pid us turns (n + 1) rnd = some rnd') ∧
    (∀ i j turns turns' rnd rnd' next t t', Proper rnd → Proper rnd' →
      nextRandom (pid i) (us i) turns rnd = some (next, t) →
      nextRandom (pid j) (us j) turns' rnd' = some (next, t') → rnd = rnd') ∧
    ∀ rnd, Proper rnd → ∃ n > 0, ∀ turns ≥ 2, calls pid us turns n rnd = some rnd := by
  refine ⟨fun rnd h n => calls_exists pid us h n, ?_, fun rnd h => ?_⟩
  · intro i j turns turns' rnd rnd' next t t' hproper hproper' h h'
    exact nextRandom_injective hproper hproper' h h'
  · obtain ⟨n, hn, hback⟩ :=
      exists_iterate_eq (p := Proper) (g := turned) (fun _ => turned_proper)
        (fun _ _ => turned_injective) h
    refine ⟨n, hn, fun turns hturns => ?_⟩
    rw [(calls_turned pid us hturns h n).1, hback]

theorem calls_proper_once :
    ∃ rnd', Proper rnd' ∧ ∀ turns ≥ 2, calls 0 0 turns 1 ⟨1, 0, 1, 0⟩ = some rnd' :=
  (calls_proper 0 0).1 ⟨1, 0, 1, 0⟩ ⟨by decide, by decide⟩ 0

end Rustybox.Shell.Random
