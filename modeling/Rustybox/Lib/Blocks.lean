import Mathlib.Data.List.Basic

/-!
# Cutting a list into blocks

`whole n l` are the blocks of `n` elements at the front of `l`, as many as there are, and
`rest n l` is what is left behind them.  A program that takes its input in pieces and works
block by block keeps `rest n l` for the input `l` it has seen; `whole_append` and
`rest_append` say what the next piece does to both.
-/

namespace Blocks

variable {α : Type*}

def whole (n : ℕ) (l : List α) : List (List α) :=
  if 0 < n ∧ n ≤ l.length then l.take n :: whole n (l.drop n) else []
termination_by l.length
decreasing_by
  simp only [List.length_drop]
  omega

/-- What is left behind the whole blocks. -/
def rest (n : ℕ) (l : List α) : List α := l.drop (n * (l.length / n))

theorem whole_of_length_lt {n : ℕ} {l : List α} (h : l.length < n) : whole n l = [] := by
  rw [whole, if_neg (by omega)]

theorem rest_of_length_lt {n : ℕ} {l : List α} (h : l.length < n) : rest n l = l := by
  rw [rest, Nat.div_eq_of_lt h, Nat.mul_zero, List.drop_zero]

theorem whole_cons {n : ℕ} (hn : 0 < n) {b : List α} (hb : b.length = n) (l : List α) :
    whole n (b ++ l) = b :: whole n l := by
  subst hb
  rw [whole, if_pos (by simp only [List.length_append]; omega), List.take_left, List.drop_left]

theorem whole_self {n : ℕ} (hn : 0 < n) {b : List α} (hb : b.length = n) : whole n b = [b] := by
  have h := whole_cons hn hb []
  rwa [List.append_nil, whole_of_length_lt (l := ([] : List α)) hn] at h

theorem rest_cons {n : ℕ} (hn : 0 < n) {b : List α} (hb : b.length = n) (l : List α) :
    rest n (b ++ l) = rest n l := by
  subst hb
  rw [rest, rest, List.length_append, Nat.add_div_left _ hn, Nat.mul_succ, Nat.add_comm,
    ← List.drop_drop, List.drop_left]

theorem length_rest (n : ℕ) (l : List α) : (rest n l).length = l.length % n := by
  rw [rest, List.length_drop, Nat.mod_eq_sub]

/-- The rule of the proofs below: a list that is too short for a block, and a list with a
block in front. -/
theorem block_induction {n : ℕ} {motive : List α → Prop}
    (short : ∀ l, l.length < n → motive l)
    (cons : ∀ b l, b.length = n → motive l → motive (b ++ l)) (l : List α) (hn : 0 < n) :
    motive l := by
  fun_induction whole n l with
  | case1 l h ih =>
    rw [← List.take_append_drop n l]
    exact cons _ _ (by rw [List.length_take]; omega) ih
  | case2 l h => exact short l (by omega)

/-- **The next piece, the blocks.** -/
theorem whole_append {n : ℕ} (hn : 0 < n) (l m : List α) :
    whole n (l ++ m) = whole n l ++ whole n (rest n l ++ m) := by
  induction l using block_induction (n := n) with
  | short l h => rw [whole_of_length_lt h, rest_of_length_lt h, List.nil_append]
  | cons b l hb ih =>
    rw [List.append_assoc, whole_cons hn hb, whole_cons hn hb, rest_cons hn hb, ih,
      List.cons_append]
  | hn => exact hn

/-- **The next piece, the rest.** -/
theorem rest_append {n : ℕ} (hn : 0 < n) (l m : List α) :
    rest n (l ++ m) = rest n (rest n l ++ m) := by
  induction l using block_induction (n := n) with
  | short l h => rw [rest_of_length_lt h]
  | cons b l hb ih => rw [List.append_assoc, rest_cons hn hb, rest_cons hn hb, ih]
  | hn => exact hn

end Blocks
