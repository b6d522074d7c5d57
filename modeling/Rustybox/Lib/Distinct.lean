import Mathlib.Data.List.Basic

/-!
# Lists in which one value may repeat

A table with a fixed number of slots marks the free ones with a value of its own, say `z`.
`But z l` says that no other value stands twice in `l`.  It survives what such a table is
put through: freeing slots, and filling a slot with a value that is nowhere else.
-/

namespace Distinct

variable {α β : Type*} {z : α} {l : List α}

/-- No value but `z` occurs at two places. -/
def But (z : α) (l : List α) : Prop := l.Pairwise (fun a b => a = b → a = z)

theorem But.replicate (z : α) (n : ℕ) : But z (List.replicate n z) :=
  List.pairwise_replicate.mpr (Or.inr fun _ => rfl)

theorem But.place_eq (h : But z l) {i j : ℕ} {a : α} (hi : l[i]? = some a) (hj : l[j]? = some a)
    (ha : a ≠ z) : i = j := by
  obtain ⟨hi', rfl⟩ := List.getElem?_eq_some_iff.mp hi
  obtain ⟨hj', he⟩ := List.getElem?_eq_some_iff.mp hj
  have hp := List.pairwise_iff_getElem.mp h
  rcases Nat.lt_trichotomy i j with hlt | rfl | hlt
  · exact absurd (hp i j hi' hj' hlt he.symm) ha
  · rfl
  · exact absurd (he ▸ hp j i hj' hi' hlt he) ha

/-- Some values become `z`. -/
theorem But.map_of_eq_or {g g' : β → α} {l : List β} (h : But z (l.map g))
    (hg : ∀ b ∈ l, g' b = g b ∨ g' b = z) : But z (l.map g') := by
  rw [But, List.pairwise_map] at h ⊢
  refine h.imp_of_mem ?_
  intro a b ha hb hab he
  rcases hg a ha with h1 | h1
  · rcases hg b hb with h2 | h2
    · rw [h1]
      exact hab (by rw [← h1, ← h2, he])
    · rw [he, h2]
  · exact h1

/-- One place gets a value that stands nowhere else. -/
theorem But.set (h : But z l) {i : ℕ} {x : α} (hx : ∀ j a, j ≠ i → l[j]? = some a → a = x → x = z) :
    But z (l.set i x) := by
  rw [But, List.pairwise_iff_getElem] at h ⊢
  intro j k hj hk hjk
  rw [List.length_set] at hj hk
  rw [List.getElem_set, List.getElem_set]
  split
  · next hij =>
    rw [if_neg (by omega)]
    intro he
    exact hx k _ (by omega) (List.getElem?_eq_getElem hk) he.symm
  · split
    · next hik =>
      intro he
      rw [he]
      exact hx j _ (by omega) (List.getElem?_eq_getElem hj) he
    · exact h j k hj hk hjk

theorem But.set_self (h : But z l) (i : ℕ) : But z (l.set i z) := h.set fun _ _ _ _ _ => rfl

end Distinct
