import Mathlib.Data.List.Basic
import Mathlib.Data.Nat.Notation

/-!
# Lines

A list cut behind each separator.  What follows the last one is a line too, if there is anything.
-/

namespace Lines

variable {α : Type} [DecidableEq α] {sep : α}

/-- The lines, with the separators that end them. -/
def lines (sep : α) : List α → List (List α)
  | [] => []
  | c :: cs =>
    if c = sep then [c] :: lines sep cs
    else
      match lines sep cs with
      | [] => [[c]]
      | line :: rest => (c :: line) :: rest

/-- What stands behind so many separators. -/
def skip (sep : α) : ℕ → List α → List α
  | 0, l => l
  | _ + 1, [] => []
  | k + 1, c :: cs => if c = sep then skip sep k cs else skip sep (k + 1) cs

/-- A last line that no separator ends. -/
def extra (sep : α) (l : List α) : ℕ := if ∀ c ∈ l.getLast?, c = sep then 0 else 1

def lastLines (sep : α) (n : ℕ) (l : List α) : List α :=
  ((lines sep l).drop ((lines sep l).length - n)).flatten

theorem lines_nil : lines sep [] = [] := rfl

theorem lines_cons (c : α) (cs : List α) :
    lines sep (c :: cs) =
      if c = sep then [c] :: lines sep cs
      else
        match lines sep cs with
        | [] => [[c]]
        | line :: rest => (c :: line) :: rest := rfl

theorem skip_nil (k : ℕ) : skip sep k [] = [] := by
  cases k <;> rfl

theorem skip_zero (l : List α) : skip sep 0 l = l := by
  cases l <;> rfl

theorem skip_cons (k : ℕ) (c : α) (cs : List α) :
    skip sep (k + 1) (c :: cs) = if c = sep then skip sep k cs else skip sep (k + 1) cs := rfl

theorem lines_ne_nil (c : α) (cs : List α) : lines sep (c :: cs) ≠ [] := by
  rw [lines_cons]
  split
  · exact List.cons_ne_nil _ _
  · split <;> exact List.cons_ne_nil _ _

theorem lines_flatten (l : List α) : (lines sep l).flatten = l := by
  induction l with
  | nil => rfl
  | cons c cs ih =>
    rw [lines_cons]
    split
    · rw [List.flatten_cons, ih, List.singleton_append]
    · split
      · rename_i hnone
        rw [hnone] at ih
        rw [← ih]
        rfl
      · rename_i line rest hsome
        rw [hsome] at ih
        rw [← ih]
        rfl

theorem lines_length (l : List α) : (lines sep l).length = l.count sep + extra sep l := by
  induction l with
  | nil => simp [lines_nil, extra]
  | cons c cs ih =>
    have hextra : cs ≠ [] → extra sep (c :: cs) = extra sep cs := by
      intro hcs
      obtain ⟨d, ds, rfl⟩ := List.exists_cons_of_ne_nil hcs
      rw [extra, List.getLast?_cons_cons, extra]
    rw [lines_cons]
    split
    · rename_i hsep
      rw [List.length_cons, ih, hsep, List.count_cons_self]
      cases cs with
      | nil => simp [extra]
      | cons d ds =>
        rw [hsep] at hextra
        rw [hextra (List.cons_ne_nil d ds)]
        omega
    · rename_i hsep
      rw [List.count_cons_of_ne hsep]
      cases cs with
      | nil => simp [lines_nil, extra, hsep]
      | cons d ds =>
        rw [hextra (List.cons_ne_nil d ds), ← ih]
        split
        · rename_i hnone
          exact absurd hnone (lines_ne_nil d ds)
        · rename_i hsome
          rw [hsome]
          rfl

theorem skip_eq (k : ℕ) (l : List α) : skip sep k l = ((lines sep l).drop k).flatten := by
  induction l generalizing k with
  | nil => rw [skip_nil, lines_nil, List.drop_nil, List.flatten_nil]
  | cons c cs ih =>
    cases k with
    | zero => rw [skip_zero, List.drop_zero, lines_flatten]
    | succ k =>
      rw [skip_cons, lines_cons]
      by_cases hsep : c = sep
      · rw [if_pos hsep, if_pos hsep, ih, List.drop_succ_cons]
      · rw [if_neg hsep, if_neg hsep, ih]
        split
        · rename_i hnone
          rw [hnone, List.drop_nil, List.drop_succ_cons, List.drop_nil]
        · rename_i hsome
          rw [hsome, List.drop_succ_cons, List.drop_succ_cons]

theorem skip_suffix (sep : α) (k : ℕ) (l : List α) : skip sep k l <:+ l := by
  induction l generalizing k with
  | nil =>
    simp only [skip_nil]
    exact List.suffix_refl []
  | cons c cs ih =>
    cases k with
    | zero =>
      simp only [skip_zero]
      exact List.suffix_refl _
    | succ k =>
      rw [skip_cons]
      split
      · exact (ih k).trans (List.suffix_cons c cs)
      · exact (ih (k + 1)).trans (List.suffix_cons c cs)

theorem skip_skip (j k : ℕ) (l : List α) : skip sep j (skip sep k l) = skip sep (k + j) l := by
  induction l generalizing k with
  | nil => rw [skip_nil, skip_nil, skip_nil]
  | cons c cs ih =>
    cases k with
    | zero => rw [skip_zero, Nat.zero_add]
    | succ k =>
      rw [Nat.add_right_comm, skip_cons, skip_cons]
      split
      · exact ih k
      · rw [ih (k + 1), Nat.add_right_comm]

theorem skip_append_of_le {k : ℕ} {l : List α} (hk : k ≤ l.count sep) (m : List α) :
    skip sep k (l ++ m) = skip sep k l ++ m := by
  induction l generalizing k with
  | nil =>
    obtain rfl : k = 0 := Nat.le_zero.mp hk
    rw [skip_zero, skip_zero]
  | cons c cs ih =>
    cases k with
    | zero => rw [skip_zero, skip_zero]
    | succ k =>
      rw [List.cons_append, skip_cons, skip_cons]
      by_cases hsep : c = sep
      · rw [hsep, List.count_cons_self] at hk
        rw [if_pos hsep, if_pos hsep, ih (Nat.le_of_succ_le_succ hk)]
      · rw [List.count_cons_of_ne hsep] at hk
        rw [if_neg hsep, if_neg hsep, ih hk]

theorem skip_append_of_lt {k : ℕ} {l : List α} (hk : l.count sep < k) (m : List α) :
    skip sep k l = [] ∧ skip sep k (l ++ m) = skip sep (k - l.count sep) m := by
  induction l generalizing k with
  | nil => exact ⟨skip_nil k, rfl⟩
  | cons c cs ih =>
    cases k with
    | zero => exact absurd hk (Nat.not_lt_zero _)
    | succ k =>
      rw [List.cons_append, skip_cons, skip_cons]
      by_cases hsep : c = sep
      · rw [hsep, List.count_cons_self] at hk ⊢
        rw [if_pos rfl, if_pos rfl, Nat.add_sub_add_right]
        exact ih (Nat.lt_of_succ_lt_succ hk)
      · rw [List.count_cons_of_ne hsep] at hk ⊢
        rw [if_neg hsep, if_neg hsep]
        exact ih hk

theorem skip_split {k : ℕ} {l : List α} (hk : k ≤ l.count sep) :
    ∃ x, l = x ++ skip sep k l ∧ x.count sep = k ∧ ∀ c ∈ x.getLast?, c = sep := by
  induction l generalizing k with
  | nil =>
    obtain rfl : k = 0 := Nat.le_zero.mp hk
    exact ⟨[], rfl, rfl, by simp⟩
  | cons c cs ih =>
    cases k with
    | zero => exact ⟨[], rfl, rfl, by simp⟩
    | succ k =>
      rw [skip_cons]
      by_cases hsep : c = sep
      · rw [hsep, List.count_cons_self] at hk
        obtain ⟨x, hx, hcount, hlast⟩ := ih (Nat.le_of_succ_le_succ hk)
        rw [if_pos hsep]
        refine ⟨c :: x, congrArg (c :: ·) hx, ?_, ?_⟩
        · rw [hsep, List.count_cons_self, hcount]
        · cases x with
          | nil => simpa using hsep
          | cons d ds =>
            rw [List.getLast?_cons_cons]
            exact hlast
      · rw [List.count_cons_of_ne hsep] at hk
        obtain ⟨x, hx, hcount, hlast⟩ := ih hk
        rw [if_neg hsep]
        refine ⟨c :: x, congrArg (c :: ·) hx, ?_, ?_⟩
        · rw [List.count_cons_of_ne hsep, hcount]
        · cases x with
          | nil => exact absurd hcount (Nat.succ_ne_zero k).symm
          | cons d ds =>
            rw [List.getLast?_cons_cons]
            exact hlast

theorem count_skip {k : ℕ} {l : List α} (hk : k ≤ l.count sep) :
    (skip sep k l).count sep = l.count sep - k := by
  obtain ⟨x, hx, hcount, _⟩ := skip_split hk
  have htotal := congrArg (List.count sep) hx
  rw [List.count_append] at htotal
  omega

theorem lastLines_eq (n : ℕ) (l : List α) :
    lastLines sep n l = skip sep (l.count sep + extra sep l - n) l := by
  rw [lastLines, skip_eq, lines_length]

theorem extra_le (l : List α) : extra sep l ≤ 1 := by
  rw [extra]
  split <;> omega

theorem extra_append (l : List α) {m : List α} (hm : m ≠ []) :
    extra sep (l ++ m) = extra sep m := by
  rw [extra, List.getLast?_append_of_ne_nil l hm, extra]

theorem lastLines_of_le {n : ℕ} {l : List α} (h : l.count sep + extra sep l ≤ n) :
    lastLines sep n l = l := by
  rw [lastLines_eq, Nat.sub_eq_zero_of_le h, skip_zero]

theorem lines_pos {l : List α} (hl : l ≠ []) : 0 < l.count sep + extra sep l := by
  obtain ⟨c, cs, rfl⟩ := List.exists_cons_of_ne_nil hl
  rw [← lines_length]
  exact List.length_pos_iff.mpr (lines_ne_nil c cs)

/-- What is kept is not empty, so it ends as the whole does. -/
theorem lastLines_ne_nil {n : ℕ} (hn : 0 < n) {l : List α} (hl : l ≠ []) :
    lastLines sep n l ≠ [] := by
  intro hnone
  have hextra : extra sep l ≤ 1 := extra_le l
  have hpos : 0 < l.count sep + extra sep l := lines_pos hl
  rw [lastLines_eq] at hnone
  have hk : l.count sep + extra sep l - n ≤ l.count sep := by omega
  obtain ⟨x, hx, hcount, hlast⟩ := skip_split hk
  rw [hnone, List.append_nil] at hx
  have hclosed : extra sep l = 0 := by
    rw [hx, extra, if_pos hlast]
  rw [← hx] at hcount
  omega

/-- To have the last lines it is enough to keep the last lines. -/
theorem lastLines_append {n : ℕ} (hn : 0 < n) (l m : List α) :
    lastLines sep n (lastLines sep n l ++ m) = lastLines sep n (l ++ m) := by
  by_cases hl : l = []
  · have hnone : lastLines sep n ([] : List α) = [] := by
      rw [lastLines, lines_nil, List.drop_nil, List.flatten_nil]
    rw [hl, hnone]
  · have hextra : extra sep l ≤ 1 := extra_le l
    have hne : lastLines sep n l ≠ [] := lastLines_ne_nil hn hl
    have hk : l.count sep + extra sep l - n ≤ l.count sep := by omega
    obtain ⟨x, hx, _, _⟩ := skip_split hk
    have hcount := count_skip hk
    have hmore := skip_append_of_le hk m
    rw [← lastLines_eq] at hx hcount hmore
    have hends : ∀ m', extra sep (lastLines sep n l ++ m') = extra sep (l ++ m') := by
      intro m'
      have hall : l ++ m' = x ++ (lastLines sep n l ++ m') := by
        rw [← List.append_assoc, ← hx]
      rw [hall, extra_append x (List.append_ne_nil_of_left_ne_nil hne m')]
    rw [lastLines_eq n (lastLines sep n l ++ m), lastLines_eq n (l ++ m), ← hmore, skip_skip,
      hmore, hends, List.count_append, List.count_append, hcount]
    congr 1
    -- Where lines have been dropped, `n` of them are kept.
    by_cases hm : m = []
    · rw [hm, List.append_nil, List.count_nil]
      omega
    · have hpos : 0 < m.count sep + extra sep m := lines_pos hm
      rw [extra_append l hm]
      omega

/-- How many separators are kept. -/
theorem count_lastLines {n : ℕ} {l : List α} (hn : 0 < n) (h : n ≤ l.count sep + extra sep l) :
    (lastLines sep n l).count sep = n - extra sep l := by
  have hextra : extra sep l ≤ 1 := extra_le l
  rw [lastLines_eq, count_skip (by omega)]
  omega

end Lines
