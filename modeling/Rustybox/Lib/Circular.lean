import Mathlib.Algebra.Ring.Nat
import Mathlib.Data.List.Basic

/-!
# Circular buffers

The cells of a circular buffer with the position of the next write hold a window on what has
been written: `unroll pos cells` lists it, the oldest element first.  A write slides the window
along (`unroll_write`), and reading from a position up to that of the next write gives the last
elements of the window (`readFrom_eq`).
-/

namespace Circular

variable {α : Type*}

/-- The elements from the oldest to the newest; `pos` is where the next one goes. -/
def unroll (pos : ℕ) (cells : List α) : List α := cells.drop pos ++ cells.take pos

/-- The cells after `c` has been written at `pos`, where there is room for it. -/
def write (cells : List α) (pos : ℕ) (c : List α) : List α :=
  cells.take pos ++ c ++ cells.drop (pos + c.length)

/-- A window that new elements have moved along. -/
def slide (w c : List α) : List α := (w ++ c).drop c.length

/-- The cells from `cur` on up to `pos`, round the end where `cur` lies behind `pos`. -/
def readFrom (cur pos : ℕ) (cells : List α) : List α :=
  if cur ≤ pos then (cells.take pos).drop cur else cells.drop cur ++ cells.take pos

variable {cells : List α} {pos : ℕ}

theorem unroll_zero (cells : List α) : unroll 0 cells = cells := by
  rw [unroll, List.drop_zero, List.take_zero, List.append_nil]

/-- Behind the last cell comes the first. -/
theorem unroll_length (cells : List α) : unroll cells.length cells = unroll 0 cells := by
  rw [unroll_zero, unroll, List.drop_length, List.take_length, List.nil_append]

theorem length_write {c : List α} (h : pos + c.length ≤ cells.length) :
    (write cells pos c).length = cells.length := by
  simp only [write, List.length_append, List.length_drop, List.length_take]
  omega

/-- Memory behind the cells is left alone. -/
theorem write_append {c : List α} (h : pos + c.length ≤ cells.length) (z : List α) :
    write (cells ++ z) pos c = write cells pos c ++ z := by
  rw [write, write, List.take_append_of_le_length (by omega), List.drop_append_of_le_length h,
    List.append_assoc, List.append_assoc, List.append_assoc]

theorem slide_append {w : List α} (c d : List α) : slide w (c ++ d) = slide (slide w c) d := by
  have hle : c.length ≤ (w ++ c).length := by
    rw [List.length_append]
    omega
  rw [slide, slide, slide, ← List.drop_append_of_le_length hle, List.drop_drop,
    List.length_append, List.append_assoc]

theorem length_slide (w c : List α) : (slide w c).length = w.length := by
  rw [slide, List.length_drop, List.length_append, Nat.add_sub_cancel]

/-- The end of the window is what has come last. -/
theorem drop_slide {w : List α} (c : List α) {d : List α} (h : d.length ≤ w.length) :
    (slide w (c ++ d)).drop (w.length - d.length) = d := by
  have hlen : (c ++ d).length + (w.length - d.length) = (w ++ c).length := by
    rw [List.length_append, List.length_append]
    omega
  rw [slide, List.drop_drop, hlen, ← List.append_assoc, List.drop_left]

/-- **A write slides the window along.** -/
theorem unroll_write {c : List α} (h : pos + c.length ≤ cells.length) :
    unroll (pos + c.length) (write cells pos c) = slide (unroll pos cells) c := by
  have hfront : (cells.take pos ++ c).length = pos + c.length := by
    rw [List.length_append, List.length_take, Nat.min_eq_left (by omega)]
  have hle : c.length ≤ (cells.drop pos).length := by
    rw [List.length_drop]
    omega
  rw [unroll, write, ← hfront, List.drop_left, List.take_left, hfront, slide, unroll,
    List.append_assoc, List.drop_append_of_le_length hle, List.drop_drop]

/-- What is read are the last elements that were written. -/
theorem readFrom_eq {cur d : ℕ} (hpos : pos < cells.length) (hcur : cur < cells.length)
    (hd : d < cells.length) (h : (cur + d) % cells.length = pos) :
    readFrom cur pos cells = (unroll pos cells).drop (cells.length - d) := by
  unfold readFrom unroll
  by_cases hle : cur ≤ pos
  · have hd' : pos = cur + d := by
      by_cases hwrap : cur + d < cells.length
      · rw [← h, Nat.mod_eq_of_lt hwrap]
      · rw [Nat.mod_eq_sub_mod (by omega), Nat.mod_eq_of_lt (by omega)] at h
        omega
    have hlen : (cells.drop pos).length ≤ cells.length - d := by
      rw [List.length_drop]
      omega
    rw [if_pos hle, List.drop_append, List.drop_of_length_le hlen, List.nil_append,
      List.length_drop]
    congr 1
    omega
  · have hd' : pos + cells.length = cur + d := by
      by_cases hwrap : cur + d < cells.length
      · rw [Nat.mod_eq_of_lt hwrap] at h
        omega
      · rw [Nat.mod_eq_sub_mod (by omega), Nat.mod_eq_of_lt (by omega)] at h
        omega
    have hlen : cells.length - d ≤ (cells.drop pos).length := by
      rw [List.length_drop]
      omega
    rw [if_neg hle, List.drop_append_of_le_length hlen, List.drop_drop]
    congr 2
    omega

end Circular
