import Mathlib.Data.List.Lex
import Mathlib.Data.List.Rotate
import Mathlib.Data.Fintype.Card
import Mathlib.Order.Interval.Finset.Fin
import Mathlib.Logic.Equiv.Fin.Rotate
import Mathlib.Data.Fin.Tuple.Sort

/-!
# The Burrows–Wheeler transform

The rotations of a word, sorted, are the rows of a table; the transform of the word is the last
column.  Turned by one letter the rows are the table again, in another order, and sorted by the
letter that has come to the front they are in order, as long as equal letters stay as they were
(`IsTable.row_rank`).  So whoever has the last column, and can count, walks from row to row and
reads the word (`IsTable.walk_eq`).
-/

namespace BurrowsWheeler

variable {α β : Type*} [LinearOrder α] [LinearOrder β] {n : ℕ}

/-! ### Sorting by a key -/

/-- The order of a stable sort by `key`. -/
def Before (key : Fin n → α) (i j : Fin n) : Prop := key i < key j ∨ key i = key j ∧ i < j

instance (key : Fin n → α) (i j : Fin n) : Decidable (Before key i j) :=
  inferInstanceAs (Decidable (_ ∨ _))

/-- The place that a stable sort by `key` gives to `j`. -/
def place (key : Fin n → α) (j : Fin n) : ℕ := (Finset.univ.filter (Before key · j)).card

variable {key : Fin n → α}

theorem Before.trans {i j k : Fin n} (h : Before key i j) (h' : Before key j k) :
    Before key i k := by
  rcases h with h | ⟨h, hlt⟩
  · rcases h' with h' | ⟨h', -⟩
    · exact Or.inl (h.trans h')
    · exact Or.inl (h'.symm ▸ h)
  · rcases h' with h' | ⟨h', hlt'⟩
    · exact Or.inl (h ▸ h')
    · exact Or.inr ⟨h.trans h', hlt.trans hlt'⟩

theorem not_before_self (i : Fin n) : ¬ Before key i i := by
  rintro (h | ⟨-, h⟩)
  · exact lt_irrefl _ h
  · exact lt_irrefl _ h

theorem before_or_before (key : Fin n → α) {i j : Fin n} (h : i ≠ j) :
    Before key i j ∨ Before key j i := by
  rcases lt_trichotomy (key i) (key j) with hlt | heq | hgt
  · exact Or.inl (Or.inl hlt)
  · rcases lt_or_gt_of_ne h with hlt | hgt
    · exact Or.inl (Or.inr ⟨heq, hlt⟩)
    · exact Or.inr (Or.inr ⟨heq.symm, hgt⟩)
  · exact Or.inr (Or.inl hgt)

theorem place_lt (key : Fin n → α) (j : Fin n) : place key j < n := by
  have hlt : place key j < (Finset.univ : Finset (Fin n)).card := by
    apply Finset.card_lt_card
    refine ⟨Finset.filter_subset _ _, fun hsub => ?_⟩
    exact not_before_self j (Finset.mem_filter.mp (hsub (Finset.mem_univ j))).2
  simpa using hlt

theorem place_lt_place {i j : Fin n} (h : Before key i j) : place key i < place key j := by
  apply Finset.card_lt_card
  refine ⟨?_, fun hsub => ?_⟩
  · intro k hk
    rw [Finset.mem_filter] at hk ⊢
    exact ⟨hk.1, hk.2.trans h⟩
  · have hi : i ∈ Finset.univ.filter (Before key · j) :=
      Finset.mem_filter.mpr ⟨Finset.mem_univ i, h⟩
    exact not_before_self i (Finset.mem_filter.mp (hsub hi)).2

theorem place_injective (key : Fin n → α) : Function.Injective (place key) := by
  intro i j h
  by_contra hne
  rcases before_or_before key hne with hlt | hlt
  · exact (place_lt_place hlt).ne h
  · exact (place_lt_place hlt).ne' h

theorem exists_place_eq (key : Fin n → α) {p : ℕ} (hp : p < n) : ∃ j, place key j = p := by
  let f : Fin n → Fin n := fun j => ⟨place key j, place_lt key j⟩
  have hf : Function.Injective f := fun i j h => place_injective key (Fin.mk.inj h)
  obtain ⟨j, hj⟩ := (Finite.injective_iff_surjective.mp hf) ⟨p, hp⟩
  exact ⟨j, congrArg Fin.val hj⟩

section Sorted

variable {values : Fin n → β}

omit [LinearOrder β] in
theorem card_filter_rows {rows : Fin n → β} {τ : Equiv.Perm (Fin n)}
    (hτ : ∀ i, rows i = values (τ i)) (p : β → Prop) [DecidablePred p] :
    (Finset.univ.filter fun k => p (rows k)).card =
      (Finset.univ.filter fun k => p (values k)).card := by
  apply Finset.card_bijective τ τ.bijective
  intro k
  simp [hτ]

variable (hlt : ∀ i j, key i < key j → values i < values j)
  (heq : ∀ i j, key i = key j → i < j → values i ≤ values j)

include hlt heq

/-- What comes before `i` is at most `values i`, and so is `values i` itself. -/
theorem place_lt_card (i : Fin n) :
    place key i < (Finset.univ.filter fun k => values k ≤ values i).card := by
  apply Finset.card_lt_card
  refine ⟨?_, fun hsub => ?_⟩
  · intro k hk
    rw [Finset.mem_filter] at hk ⊢
    refine ⟨hk.1, ?_⟩
    rcases hk.2 with h | ⟨h, h'⟩
    · exact (hlt k i h).le
    · exact heq k i h h'
  · have hi := hsub (Finset.mem_filter.mpr ⟨Finset.mem_univ i, le_refl (values i)⟩)
    exact not_before_self i (Finset.mem_filter.mp hi).2

/-- What is smaller than `values i` comes before `i`. -/
theorem card_le_place (i : Fin n) :
    (Finset.univ.filter fun k => values k < values i).card ≤ place key i := by
  apply Finset.card_le_card
  intro k hk
  rw [Finset.mem_filter] at hk ⊢
  refine ⟨hk.1, ?_⟩
  rcases lt_trichotomy (key k) (key i) with h | h | h
  · exact Or.inl h
  · refine Or.inr ⟨h, ?_⟩
    by_contra hle
    rcases (not_lt.mp hle).eq_or_lt with rfl | hik
    · exact lt_irrefl _ hk.2
    · exact absurd (heq i k h.symm hik) (not_le.mpr hk.2)
  · exact absurd (hlt i k h) hk.2.asymm

/-- If the keys decide the order of the values, and equal keys leave them in order, the values that
are sorted are found at their places. -/
theorem apply_place {rows : Fin n → β} (hrows : Monotone rows) {τ : Equiv.Perm (Fin n)}
    (hτ : ∀ i, rows i = values (τ i)) (i : Fin n) :
    rows ⟨place key i, place_lt key i⟩ = values i := by
  apply le_antisymm
  · by_contra hgt
    rw [not_le] at hgt
    -- then the values up to `values i` have no room before its place
    have hsub : (Finset.univ.filter fun k => rows k ≤ values i) ⊆
        Finset.Iio ⟨place key i, place_lt key i⟩ := by
      intro k hk
      rw [Finset.mem_filter] at hk
      rw [Finset.mem_Iio]
      by_contra hle
      exact absurd (hgt.trans_le (hrows (not_lt.mp hle))) (not_lt.mpr hk.2)
    have hle := Finset.card_le_card hsub
    rw [card_filter_rows hτ (· ≤ values i), Fin.card_Iio] at hle
    exact absurd hle (not_le.mpr (place_lt_card hlt heq i))
  · by_contra hgt
    rw [not_le] at hgt
    -- then more values are smaller than there are places before
    have hsub : Finset.Iic ⟨place key i, place_lt key i⟩ ⊆
        Finset.univ.filter fun k => rows k < values i := by
      intro k hk
      rw [Finset.mem_Iic] at hk
      exact Finset.mem_filter.mpr ⟨Finset.mem_univ k, (hrows hk).trans_lt hgt⟩
    have hle := Finset.card_le_card hsub
    rw [card_filter_rows hτ (· < values i), Fin.card_Iic] at hle
    exact absurd (hle.trans (card_le_place hlt heq i)) (Nat.not_succ_le_self _)

end Sorted

/-! ### The table of rotations -/

/-- `rows` are the rotations of `word` in order, and `last` is the last column. -/
structure IsTable (word : List α) (rows : Fin word.length → List α) (last : Fin word.length → α) :
    Prop where
  mono : Monotone rows
  perm : ∃ σ : Equiv.Perm (Fin word.length), ∀ i, rows i = word.rotate (σ i)
  last_eq : ∀ i, (rows i).getLast? = some (last i)

theorem append_lt_append {u v : List α} (h : u < v) :
    u.length = v.length → ∀ x y : List α, u ++ x < v ++ y := by
  induction h with
  | nil =>
    intro hlen
    cases hlen
  | cons h ih =>
    intro hlen x y
    exact List.Lex.cons (ih (Nat.succ.inj hlen) x y)
  | rel h =>
    intro _ x y
    exact List.Lex.rel h

section Table

variable {word : List α} {rows : Fin word.length → List α} {last : Fin word.length → α}

theorem IsTable.length_eq (h : IsTable word rows last) (i : Fin word.length) :
    (rows i).length = word.length := by
  obtain ⟨σ, hσ⟩ := h.perm
  rw [hσ, List.length_rotate]

theorem IsTable.row_eq (h : IsTable word rows last) (i : Fin word.length) :
    (rows i).dropLast ++ [last i] = rows i :=
  List.dropLast_append_getLast? _ (h.last_eq i)

/-- A row, turned so that its last letter comes first. -/
theorem IsTable.turn_eq (h : IsTable word rows last) (i : Fin word.length) :
    (rows i).rotate (word.length - 1) = last i :: (rows i).dropLast := by
  have hlen : (rows i).dropLast.length = word.length - 1 := by
    rw [List.length_dropLast, h.length_eq]
  conv_lhs => rw [← h.row_eq i, ← hlen]
  exact List.rotate_append_length_eq _ _

/-- **The turned rows are the rows, sorted by the last column.** -/
theorem IsTable.row_place (h : IsTable word rows last) (i : Fin word.length) :
    rows ⟨place last i, place_lt last i⟩ = (rows i).rotate (word.length - 1) := by
  obtain ⟨σ, hσ⟩ := h.perm
  have hpos : 0 < word.length := i.pos
  have : NeZero word.length := ⟨hpos.ne'⟩
  let τ : Equiv.Perm (Fin word.length) := (σ.trans (finRotate _)).trans σ.symm
  let turned : Fin word.length → List α := fun j => (rows j).rotate (word.length - 1)
  have hτ (j : Fin word.length) : rows j = turned (τ j) := by
    change rows j = (rows (τ j)).rotate (word.length - 1)
    have hval : ((σ (τ j) : Fin word.length) : ℕ) = ((σ j : ℕ) + 1) % word.length := by
      change ((σ (σ.symm (finRotate _ (σ j))) : Fin word.length) : ℕ) = _
      rw [Equiv.apply_symm_apply, finRotate_apply, Fin.val_add, Fin.val_one', Nat.add_mod_mod]
    rw [hσ j, hσ (τ j), List.rotate_rotate, hval, ← List.rotate_mod word (_ % _ + _),
      Nat.mod_add_mod, ← List.rotate_mod word (σ j)]
    congr 1
    have hsum : (σ j : ℕ) + 1 + (word.length - 1) = σ j + word.length := by omega
    rw [hsum, Nat.add_mod_right]
  change _ = turned i
  refine apply_place (fun j k hjk => ?_) (fun j k heq hjk => ?_) h.mono hτ i
  · change (rows j).rotate (word.length - 1) < (rows k).rotate (word.length - 1)
    rw [h.turn_eq, h.turn_eq]
    exact List.Lex.rel hjk
  · change (rows j).rotate (word.length - 1) ≤ (rows k).rotate (word.length - 1)
    rw [h.turn_eq, h.turn_eq, heq]
    apply List.cons_le_cons
    by_contra hlt
    have hlen : (rows k).dropLast.length = (rows j).dropLast.length := by
      rw [List.length_dropLast, List.length_dropLast, h.length_eq, h.length_eq]
    have hrows := append_lt_append (not_le.mp hlt) hlen [last k] [last j]
    rw [h.row_eq, h.row_eq] at hrows
    exact absurd (h.mono hjk.le) (not_le.mpr hrows)

/-- From a row to the one that is turned once more. -/
theorem IsTable.row_next (h : IsTable word rows last) {next : Fin word.length → Fin word.length}
    (hnext : ∀ j, place last (next j) = j) (j : Fin word.length) :
    rows (next j) = (rows j).rotate 1 := by
  have hrow := h.row_place (next j)
  have hfin : (⟨place last (next j), place_lt last (next j)⟩ : Fin word.length) = j :=
    Fin.ext (hnext j)
  rw [hfin] at hrow
  have hpos := j.pos
  rw [hrow, List.rotate_rotate, Nat.sub_add_cancel hpos, ← h.length_eq (next j), List.rotate_length]

theorem IsTable.row_iterate (h : IsTable word rows last)
    {next : Fin word.length → Fin word.length} (hnext : ∀ j, place last (next j) = j)
    {orig : Fin word.length} (horig : rows orig = word) (k : ℕ) :
    rows (next^[k] orig) = word.rotate k := by
  induction k with
  | zero => rw [Function.iterate_zero_apply, horig, List.rotate_zero]
  | succ k ih =>
    rw [Function.iterate_succ_apply', h.row_next hnext, ih, List.rotate_rotate]

/-- **The walk reads the word.** -/
theorem IsTable.walk_eq (h : IsTable word rows last)
    {next : Fin word.length → Fin word.length} (hnext : ∀ j, place last (next j) = j)
    {orig : Fin word.length} (horig : rows orig = word) (k : ℕ) (hk : k < word.length) :
    last (next^[k + 1] orig) = word[k] := by
  have hlast := h.last_eq (next^[k + 1] orig)
  rw [h.row_iterate hnext horig, List.rotate_eq_drop_append_take hk, List.take_add_one,
    List.getElem?_eq_getElem hk, Option.toList_some, ← List.append_assoc,
    List.getLast?_concat] at hlast
  exact (Option.some.inj hlast).symm

end Table

/-! ### The transform -/

variable (word : List α)

/-- The order of the rotations. -/
def order : Equiv.Perm (Fin word.length) := Tuple.sort fun i : Fin word.length => word.rotate i

/-- The rotations of a word, sorted. -/
def row (i : Fin word.length) : List α := word.rotate (order word i)

theorem row_ne_nil (i : Fin word.length) : row word i ≠ [] := by
  rw [row, Ne, List.rotate_eq_nil_iff]
  exact List.ne_nil_of_length_pos i.pos

/-- The last column: what the transform makes of a word. -/
def column (i : Fin word.length) : α := (row word i).getLast (row_ne_nil word i)

theorem isTable : IsTable word (row word) (column word) where
  mono := Tuple.monotone_sort fun i : Fin word.length => word.rotate i
  perm := ⟨order word, fun _ => rfl⟩
  last_eq := fun i => List.getLast?_eq_some_getLast (row_ne_nil word i)

/-- The word is one of its own rotations. -/
theorem exists_row_eq {word : List α} (h : word ≠ []) : ∃ i, row word i = word := by
  let zero : Fin word.length := ⟨0, List.length_pos_iff.mpr h⟩
  refine ⟨(order word).symm zero, ?_⟩
  rw [row, Equiv.apply_symm_apply]
  exact List.rotate_zero word

end BurrowsWheeler
