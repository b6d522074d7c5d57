import Mathlib.Dynamics.PeriodicPts.Lemmas

/-!
# Maps that skip some states

`skip f bad` applies `f` until the state is not one of the `bad` ones.  Where `f` is injective so is
this map on the states that are not bad, and where there are finitely many of these each of them
comes back.
-/

namespace Skipping

variable {α : Type} (f : α → α) (bad : α → Prop) [DecidablePred bad]

/-- Apply `f`, and again as long as the state is bad, but not more often than `turns`. -/
def skip : ℕ → α → Option α
  | 0, _ => none
  | turns + 1, s => if bad (f s) then skip turns (f s) else some (f s)

variable {f bad}

/-- The state is reached by turns of which all but the last lead to bad states. -/
theorem skip_eq_some {turns : ℕ} {s t : α} (h : skip f bad turns s = some t) :
    ∃ n, t = f^[n + 1] s ∧ ¬ bad t ∧ ∀ m < n, bad (f^[m + 1] s) := by
  induction turns generalizing s with
  | zero => cases h
  | succ turns ih =>
    rw [skip] at h
    by_cases hbad : bad (f s)
    · rw [if_pos hbad] at h
      obtain ⟨n, ht, hgood, hturns⟩ := ih h
      refine ⟨n + 1, ht, hgood, fun m hm => ?_⟩
      cases m with
      | zero => exact hbad
      | succ m => exact hturns m (Nat.lt_of_succ_lt_succ hm)
    · rw [if_neg hbad] at h
      obtain rfl := Option.some.inj h
      exact ⟨0, rfl, hbad, fun m hm => absurd hm (Nat.not_lt_zero m)⟩

theorem skip_mono {turns turns' : ℕ} {s t : α} (h : skip f bad turns s = some t)
    (hle : turns ≤ turns') : skip f bad turns' s = some t := by
  induction turns generalizing s turns' with
  | zero => cases h
  | succ turns ih =>
    obtain ⟨more, rfl⟩ := Nat.exists_eq_add_of_le hle
    have hsucc : turns + 1 + more = turns + more + 1 := by omega
    rw [hsucc, skip]
    rw [skip] at h
    split
    · rename_i hbad
      rw [if_pos hbad] at h
      exact ih h (Nat.le_add_right _ _)
    · rename_i hbad
      rwa [if_neg hbad] at h

/-- Two states that are not bad and come to one are one. -/
theorem skip_injective (hf : Function.Injective f) {turns turns' : ℕ} {s s' t : α} (hs : ¬ bad s)
    (hs' : ¬ bad s') (h : skip f bad turns s = some t) (h' : skip f bad turns' s' = some t) :
    s = s' := by
  obtain ⟨n, ht, -, hturns⟩ := skip_eq_some h
  obtain ⟨n', ht', -, hturns'⟩ := skip_eq_some h'
  have heq : f^[n + 1] s = f^[n' + 1] s' := ht.symm.trans ht'
  rcases Nat.lt_trichotomy n n' with hlt | rfl | hlt
  · obtain ⟨k, rfl⟩ := Nat.exists_eq_add_of_lt hlt
    have hsum : n + k + 1 + 1 = (n + 1) + (k + 1) := by omega
    rw [hsum] at heq
    have hback := hf.iterate (n + 1) (heq.trans (Function.iterate_add_apply f (n + 1) (k + 1) s'))
    exact absurd (hback ▸ hturns' k (by omega)) hs
  · exact hf.iterate (n + 1) heq
  · obtain ⟨k, rfl⟩ := Nat.exists_eq_add_of_lt hlt
    have hsum : n' + k + 1 + 1 = (n' + 1) + (k + 1) := by omega
    rw [hsum] at heq
    have hback := hf.iterate (n' + 1)
      (heq.symm.trans (Function.iterate_add_apply f (n' + 1) (k + 1) s))
    exact absurd (hback ▸ hturns k (by omega)) hs'

/-- An injective map of finitely many states into themselves brings each of them back. -/
theorem exists_iterate_eq [Finite α] {p : α → Prop} {g : α → α} (hmaps : ∀ s, p s → p (g s))
    (hinj : ∀ s t, p s → p t → g s = g t → s = t) {s : α} (hs : p s) :
    ∃ n > 0, g^[n] s = s := by
  let restricted : {s // p s} → {s // p s} := fun s => ⟨g s.1, hmaps s.1 s.2⟩
  have hrestricted : Function.Injective restricted := fun a b hab =>
    Subtype.ext (hinj a.1 b.1 a.2 b.2 (congrArg Subtype.val hab))
  have hiterate : ∀ n (a : {s // p s}), (restricted^[n] a).1 = g^[n] a.1 := by
    intro n a
    induction n generalizing a with
    | zero => rfl
    | succ n ih => exact ih (restricted a)
  obtain ⟨n, hn, hperiodic⟩ :=
    Function.mem_periodicPts.mp (hrestricted.mem_periodicPts ⟨s, hs⟩)
  refine ⟨n, hn, ?_⟩
  have heq : restricted^[n] ⟨s, hs⟩ = ⟨s, hs⟩ := hperiodic
  rw [← hiterate n ⟨s, hs⟩, heq]

end Skipping
