import Mathlib.Logic.Basic

/-!
# Programs over a state, and what they come to

`Prog σ ε α` is a program that reads and changes a state and gives a result or fails.  A pure
program `y` leaves the state out and tells only of the result.  `Refines` says that a program comes
to the same result as a pure one, and what it does to the state: as long as the state is `good` it
stays so, or the program fails with `crash`, says so in its result, and leaves the state `bad`.
`Stays` says that a program keeps an invariant of the state, and what its result or failure is, and
`Guards` that it keeps the invariant unless it crashes.
-/

namespace Guarded

/-- A program over states of type `σ` that fails with an `ε`. -/
def Prog (σ ε α : Type) : Type := σ → Except ε α × σ

variable {σ ε α β : Type}

instance : Monad (Prog σ ε) where
  pure a := fun s => (.ok a, s)
  bind x f := fun s =>
    match x s with
    | (.ok a, s) => f a s
    | (.error e, s) => (.error e, s)

def fail (e : ε) : Prog σ ε α := fun s => (.error e, s)

/-- To change the state and give a result. -/
def change (f : σ → α × σ) : Prog σ ε α := fun s => (.ok (f s).1, (f s).2)

theorem bind_ok {x : Prog σ ε α} {s s' : σ} {a : α} (h : x s = (.ok a, s')) (f : α → Prog σ ε β) :
    (x >>= f) s = f a s' := by
  have hrun : (x >>= f) s = match x s with
      | (.ok a, s) => f a s
      | (.error e, s) => (.error e, s) := rfl
  rw [hrun, h]

theorem bind_error {x : Prog σ ε α} {s s' : σ} {e : ε} (h : x s = (.error e, s'))
    (f : α → Prog σ ε β) : (x >>= f) s = (.error e, s') := by
  have hrun : (x >>= f) s = match x s with
      | (.ok a, s) => f a s
      | (.error e, s) => (.error e, s) := rfl
  rw [hrun, h]

/-- From a good state in `P` on, `x` comes to the same as `y`: either the state stays good and is in
`Q` of the result, if there is one, or `x` crashes and the state is bad. -/
def Refines (good bad : σ → Prop) (crash : ε) (P : σ → Prop) (x : Prog σ ε α) (y : Except ε α)
    (Q : α → σ → Prop) : Prop :=
  ∀ s, P s → good s →
    ((x s).1 = y ∧ good (x s).2 ∧ ∀ a, y = .ok a → Q a (x s).2) ∨
      (x s).1 = .error crash ∧ y = .error crash ∧ bad (x s).2

variable {good bad : σ → Prop} {crash : ε} {P P' : σ → Prop} {x : Prog σ ε α} {y : Except ε α}
  {Q Q' : α → σ → Prop}

theorem Refines.pure (a : α) : Refines good bad crash (Q a) (pure a) (.ok a) Q := by
  intro s hs hgood
  refine Or.inl ⟨rfl, hgood, ?_⟩
  intro b hb
  obtain rfl := Except.ok.inj hb
  exact hs

theorem Refines.weaken (h : Refines good bad crash P x y Q) (hP : ∀ s, P' s → P s)
    (hQ : ∀ a s, y = .ok a → Q a s → Q' a s) : Refines good bad crash P' x y Q' := by
  intro s hs hgood
  rcases h s (hP s hs) hgood with ⟨hx, hgood', hpost⟩ | hbad
  · exact Or.inl ⟨hx, hgood', fun a ha => hQ a _ ha (hpost a ha)⟩
  · exact Or.inr hbad

theorem Refines.exists {ι : Sort*} {P : ι → σ → Prop} {Q : ι → α → σ → Prop}
    (h : ∀ i, Refines good bad crash (P i) x y (Q i)) :
    Refines good bad crash (fun s => ∃ i, P i s) x y (fun a s => ∃ i, Q i a s) := by
  rintro s ⟨i, hs⟩ hgood
  rcases h i s hs hgood with ⟨hx, hgood', hpost⟩ | hbad
  · exact Or.inl ⟨hx, hgood', fun a ha => ⟨i, hpost a ha⟩⟩
  · exact Or.inr hbad

theorem Refines.bind {f : α → Prog σ ε β} {g : α → Except ε β} {R : β → σ → Prop}
    (hx : Refines good bad crash P x y Q)
    (hf : ∀ a, y = .ok a → Refines good bad crash (Q a) (f a) (g a) R) :
    Refines good bad crash P (x >>= f) (y >>= g) R := by
  intro s hs hgood
  have hpost := hx s hs hgood
  cases hxs : x s with
  | mk r s' =>
    rw [hxs] at hpost
    cases r with
    | error e =>
      rw [bind_error hxs]
      rcases hpost with ⟨rfl, hgood', -⟩ | ⟨he, rfl, hbad⟩
      · refine Or.inl ⟨rfl, hgood', ?_⟩
        intro b hb
        cases hb
      · exact Or.inr ⟨congrArg Except.error (Except.error.inj he), rfl, hbad⟩
    | ok a =>
      rw [bind_ok hxs]
      rcases hpost with ⟨rfl, hgood', hQ⟩ | ⟨he, -⟩
      · exact hf a rfl s' (hQ a rfl) hgood'
      · cases he

theorem Refines.ite {p : Prop} [Decidable p] {x' : Prog σ ε α} {y' : Except ε α}
    (hx : p → Refines good bad crash P x y Q) (hx' : ¬ p → Refines good bad crash P x' y' Q) :
    Refines good bad crash P (if p then x else x') (if p then y else y') Q := by
  by_cases hp : p
  · rw [if_pos hp, if_pos hp]
    exact hx hp
  · rw [if_neg hp, if_neg hp]
    exact hx' hp

/-! ### Invariants -/

/-- The invariant `good` stays, what `x` fails with is `fine`, and what it gives is in `Q`. -/
def Stays (good : σ → Prop) (fine : ε → Prop) (x : Prog σ ε α) (Q : α → Prop) : Prop :=
  ∀ s, good s → good (x s).2 ∧ (∀ e, (x s).1 = .error e → fine e) ∧ ∀ a, (x s).1 = .ok a → Q a

section

variable {fine : ε → Prop} {S T : α → Prop}

theorem Stays.pure {a : α} (h : S a) : Stays good fine (pure a) S := by
  intro s hs
  refine ⟨hs, fun e he => ?_, fun b hb => ?_⟩
  · cases he
  · rw [← Except.ok.inj hb]
    exact h

theorem Stays.fail {e : ε} (h : fine e) : Stays good fine (fail e) S := by
  intro s hs
  refine ⟨hs, fun e' he => ?_, fun b hb => ?_⟩
  · rw [← Except.error.inj he]
    exact h
  · cases hb

theorem Stays.weaken (h : Stays good fine x S) (hST : ∀ a, S a → T a) : Stays good fine x T := by
  intro s hs
  obtain ⟨hgood, hfine, hS⟩ := h s hs
  exact ⟨hgood, hfine, fun a ha => hST a (hS a ha)⟩

theorem Stays.excuse {fine' : ε → Prop} (h : Stays good fine x S) (hfine : ∀ e, fine e → fine' e) :
    Stays good fine' x S := by
  intro s hs
  obtain ⟨hgood, hfail, hS⟩ := h s hs
  exact ⟨hgood, fun e he => hfine e (hfail e he), hS⟩

theorem Stays.bind {f : α → Prog σ ε β} {R : β → Prop} (hx : Stays good fine x S)
    (hf : ∀ a, S a → Stays good fine (f a) R) : Stays good fine (x >>= f) R := by
  intro s hs
  obtain ⟨hgood, hfine, hS⟩ := hx s hs
  cases hxs : x s with
  | mk r s' =>
    rw [hxs] at hgood hfine hS
    cases r with
    | error e =>
      rw [bind_error hxs]
      refine ⟨hgood, fun e' he => ?_, fun b hb => ?_⟩
      · exact hfine e' (congrArg Except.error (Except.error.inj he))
      · cases hb
    | ok a =>
      rw [bind_ok hxs]
      exact hf a (hS a rfl) s' hgood

theorem Stays.ite {p : Prop} [Decidable p] {x' : Prog σ ε α} (hx : p → Stays good fine x S)
    (hx' : ¬ p → Stays good fine x' S) : Stays good fine (if p then x else x') S := by
  by_cases hp : p
  · rw [if_pos hp]
    exact hx hp
  · rw [if_neg hp]
    exact hx' hp

end

/-! ### Invariants that a crash breaks -/

/-- The invariant `good` stays and what `x` gives is in `S`, or `x` crashes, and the state is not
good any more. -/
def Guards (good : σ → Prop) (crash : ε) (x : Prog σ ε α) (S : α → Prop) : Prop :=
  ∀ s, good s → (good (x s).2 ∧ (x s).1 ≠ .error crash ∧ ∀ a, (x s).1 = .ok a → S a) ∨
    ((x s).1 = .error crash ∧ ¬ good (x s).2)

section

variable {fine : ε → Prop} {S T : α → Prop}

theorem Stays.guards (h : Stays good fine x S) (hcrash : ¬ fine crash) :
    Guards good crash x S := by
  intro s hs
  obtain ⟨hgood, hfine, hS⟩ := h s hs
  exact Or.inl ⟨hgood, fun hx => hcrash (hfine crash hx), hS⟩

theorem Guards.bind {f : α → Prog σ ε β} {R : β → Prop} (hx : Guards good crash x S)
    (hf : ∀ a, S a → Guards good crash (f a) R) : Guards good crash (x >>= f) R := by
  intro s hs
  have hcases := hx s hs
  cases hxs : x s with
  | mk r s' =>
    rw [hxs] at hcases
    cases r with
    | error e =>
      rw [bind_error hxs]
      rcases hcases with ⟨hgood, hno, -⟩ | ⟨he, hbad⟩
      · refine Or.inl ⟨hgood, fun he => hno ?_, fun b hb => ?_⟩
        · exact congrArg Except.error (Except.error.inj he)
        · cases hb
      · exact Or.inr ⟨congrArg Except.error (Except.error.inj he), hbad⟩
    | ok a =>
      rw [bind_ok hxs]
      rcases hcases with ⟨hgood, -, hS⟩ | ⟨he, -⟩
      · exact hf a (hS a rfl) s' hgood
      · cases he

theorem Guards.ite {p : Prop} [Decidable p] {x' : Prog σ ε α} (hx : p → Guards good crash x S)
    (hx' : ¬ p → Guards good crash x' S) : Guards good crash (if p then x else x') S := by
  by_cases hp : p
  · rw [if_pos hp]
    exact hx hp
  · rw [if_neg hp]
    exact hx' hp

end

theorem exists_of_bind_eq_ok {y : Except ε α} {g : α → Except ε β} {b : β}
    (h : y >>= g = .ok b) : ∃ a, y = .ok a ∧ g a = .ok b := by
  cases y with
  | error e => cases h
  | ok a => exact ⟨a, rfl, h⟩

/-- What fails at once does so before what comes next. -/
theorem ite_error_bind {p : Prop} [Decidable p] (e : ε) (y : Except ε α) (g : α → Except ε β) :
    (if p then .error e else y >>= g) = (if p then .error e else y) >>= g := by
  by_cases hp : p
  · rw [if_pos hp, if_pos hp]
    rfl
  · rw [if_neg hp, if_neg hp]

end Guarded
