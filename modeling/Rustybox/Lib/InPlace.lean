import Mathlib.Data.List.Basic

/-!
# Rewriting in place

A buffer that is read and written with two pointers, the write pointer never ahead of the read
pointer: what is written lies at the start, what is not read yet lies at the end, and what is
between them may be overwritten.
-/

namespace InPlace

variable {α : Type*}

/-- `out` is written up to `dst`, and `rest` is to be read from `src` on. -/
def Rewriting (buf out rest : List α) (dst src : ℕ) : Prop :=
  ∃ gap, buf = out ++ (gap ++ rest) ∧ dst = out.length ∧ src = out.length + gap.length

variable {buf out rest : List α} {dst src : ℕ}

theorem Rewriting.start (buf : List α) : Rewriting buf [] buf 0 0 := ⟨[], rfl, rfl, rfl⟩

theorem Rewriting.le (h : Rewriting buf out rest dst src) : dst ≤ src := by
  obtain ⟨gap, -, rfl, rfl⟩ := h
  exact Nat.le_add_right _ _

theorem Rewriting.length (h : Rewriting buf out rest dst src) :
    buf.length = src + rest.length := by
  obtain ⟨gap, rfl, rfl, rfl⟩ := h
  simp only [List.length_append]
  omega

theorem Rewriting.read (h : Rewriting buf out rest dst src) (i : ℕ) :
    buf[src + i]? = rest[i]? := by
  obtain ⟨gap, rfl, rfl, rfl⟩ := h
  rw [← List.append_assoc, ← List.length_append, List.getElem?_append_right (Nat.le_add_right _ _),
    Nat.add_sub_cancel_left]

theorem Rewriting.written (h : Rewriting buf out rest dst src) {i : ℕ} (hi : i < dst) :
    buf[i]? = out[i]? := by
  obtain ⟨gap, rfl, rfl, rfl⟩ := h
  exact List.getElem?_append_left hi

theorem Rewriting.take (h : Rewriting buf out rest dst src) : buf.take dst = out := by
  obtain ⟨gap, rfl, rfl, rfl⟩ := h
  exact List.take_left' rfl

theorem Rewriting.drop (h : Rewriting buf out rest dst src) : buf.drop src = rest := by
  obtain ⟨gap, rfl, rfl, rfl⟩ := h
  rw [← List.append_assoc, ← List.length_append]
  exact List.drop_left' rfl

theorem Rewriting.advance {l : List α} (h : Rewriting buf out (l ++ rest) dst src) :
    Rewriting buf out rest dst (src + l.length) := by
  obtain ⟨gap, rfl, rfl, rfl⟩ := h
  refine ⟨gap ++ l, by simp, rfl, ?_⟩
  rw [List.length_append, Nat.add_assoc]

theorem Rewriting.advance_one {b : α} (h : Rewriting buf out (b :: rest) dst src) :
    Rewriting buf out rest dst (src + 1) :=
  Rewriting.advance (l := [b]) h

/-- A byte that was read makes room for one that is written. -/
theorem Rewriting.put (h : Rewriting buf out rest dst src) (hlt : dst < src) (b : α) :
    Rewriting (buf.set dst b) (out ++ [b]) rest (dst + 1) src := by
  obtain ⟨gap, rfl, rfl, rfl⟩ := h
  cases gap with
  | nil => exact absurd hlt (Nat.lt_irrefl _)
  | cons a gap =>
    refine ⟨gap, ?_, by simp, ?_⟩
    · rw [List.set_append_right _ _ (Nat.le_refl _), Nat.sub_self]
      simp
    · simp only [List.length_append, List.length_cons, List.length_nil]
      omega

theorem Rewriting.retreat {back : List α} (h : Rewriting buf (out ++ back) rest dst src) :
    Rewriting buf out rest out.length src := by
  obtain ⟨gap, rfl, rfl, rfl⟩ := h
  refine ⟨back ++ gap, by simp, rfl, ?_⟩
  simp only [List.length_append]
  omega

end InPlace
