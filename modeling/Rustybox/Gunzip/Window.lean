import Rustybox.Gunzip.Inflate
import Mathlib.Data.List.Induction

/-!
# What the window does to a run

Nothing in the decoder looks at the bytes of the window to decide what to do next.  So a run over
another window takes the same steps, and its window is the result of the same writes: each write
puts a byte, or copies one from a place of the window.  Where every copied byte is one that was
decoded before, the windows of two runs agree; the first copy from further back makes them differ
for good.
-/

namespace Rustybox.Gunzip

/-! ### Writes -/

/-- Where a written byte comes from: the input, or a place of the window. -/
inductive Source where
  | byte (value : UInt8)
  | back (dd : ℕ)
  deriving DecidableEq

/-- The byte that is written. -/
def Source.value (win : Window) : Source → UInt8
  | .byte value => value
  | .back dd => win dd

/-- Write bytes one after the other, from place `w` on. -/
def writeAll : ℕ → List Source → Window → Window
  | _, [], win => win
  | w, src :: srcs, win => writeAll (w + 1) srcs (win.put w (src.value win))

/-- Every byte that is copied was written before, in this window or in the one before it. -/
def Grounded (bytesOut : ℕ) : ℕ → List Source → Prop
  | _, [] => True
  | w, .byte _ :: srcs => Grounded bytesOut (w + 1) srcs
  | w, .back dd :: srcs => (dd < w ∨ 0 < bytesOut) ∧ Grounded bytesOut (w + 1) srcs

/-- The `e` bytes from `dd` on. -/
def backs : ℕ → ℕ → List Source
  | 0, _ => []
  | e + 1, dd => .back dd :: backs e (dd + 1)

@[simp] theorem put_same (win : Window) (w : ℕ) (byte : UInt8) : win.put w byte w = byte := by
  simp [Window.put]

theorem put_ne (win : Window) {w i : ℕ} (byte : UInt8) (h : i ≠ w) : win.put w byte i = win i := by
  simp [Window.put, h]

@[simp] theorem length_backs (e dd : ℕ) : (backs e dd).length = e := by
  induction e generalizing dd with
  | zero => rfl
  | succ e ih => simp [backs, ih]

theorem mem_backs {e dd place : ℕ} (h : Source.back place ∈ backs e dd) :
    dd ≤ place ∧ place < dd + e := by
  induction e generalizing dd with
  | zero => simp [backs] at h
  | succ e ih =>
    rcases List.mem_cons.mp h with h | h
    · cases h
      omega
    · have := ih h
      omega

theorem writeAll_append (w : ℕ) (srcs more : List Source) (win : Window) :
    writeAll w (srcs ++ more) win = writeAll (w + srcs.length) more (writeAll w srcs win) := by
  induction srcs generalizing w win with
  | nil => rfl
  | cons src srcs ih =>
    rw [List.cons_append, writeAll, writeAll, ih, List.length_cons]
    congr 1
    omega

theorem grounded_append (bytesOut w : ℕ) (srcs more : List Source) :
    Grounded bytesOut w (srcs ++ more) ↔
      Grounded bytesOut w srcs ∧ Grounded bytesOut (w + srcs.length) more := by
  induction srcs generalizing w with
  | nil => simp [Grounded]
  | cons src srcs ih =>
    have hw : w + (src :: srcs).length = w + 1 + srcs.length := by simp; omega
    rw [hw]
    cases src with
    | byte value => simp [Grounded, ih]
    | back dd => simp [Grounded, ih, and_assoc]

theorem grounded_backs {bytesOut e dd w : ℕ} (h : dd < w ∨ 0 < bytesOut) :
    Grounded bytesOut w (backs e dd) := by
  induction e generalizing dd w with
  | zero => trivial
  | succ e ih => exact ⟨h, ih (by omega)⟩

theorem writeAll_before {w i : ℕ} (srcs : List Source) (win : Window) (h : i < w) :
    writeAll w srcs win i = win i := by
  induction srcs generalizing w win with
  | nil => rfl
  | cons src srcs ih =>
    rw [writeAll, ih _ (by omega)]
    exact put_ne win _ (by omega)

theorem copySlow_eq_writeAll (e dd w : ℕ) (win : Window) :
    copySlow e dd w win = writeAll w (backs e dd) win := by
  induction e generalizing dd w win with
  | zero => rfl
  | succ e ih => rw [copySlow, ih, backs, writeAll, Source.value]

/-- `memcpy` does the same where source and target do not overlap. -/
theorem copyFast_eq_copySlow {e dd w : ℕ} (win : Window) (h : w + e ≤ dd ∨ dd + e ≤ w) :
    copyFast e dd w win = copySlow e dd w win := by
  induction e generalizing dd w win with
  | zero =>
    funext i
    have : ¬ (w ≤ i ∧ i < w + 0) := by omega
    simp only [copyFast, this, if_false, copySlow]
  | succ e ih =>
    rw [copySlow, ← ih _ (by omega)]
    funext i
    simp only [copyFast]
    by_cases hi : w ≤ i ∧ i < w + (e + 1)
    · by_cases hw : i = w
      · subst hw
        have : ¬ (i + 1 ≤ i ∧ i < i + 1 + e) := by omega
        rw [if_pos hi, if_neg this, put_same, Nat.sub_self, Nat.add_zero]
      · have hi' : w + 1 ≤ i ∧ i < w + 1 + e := by omega
        have hdd : dd + 1 + (i - (w + 1)) = dd + (i - w) := by omega
        rw [if_pos hi, if_pos hi', hdd, put_ne win _ (by omega)]
    · have hi' : ¬ (w + 1 ≤ i ∧ i < w + 1 + e) := by omega
      rw [if_neg hi, if_neg hi', put_ne win _ (by omega)]

/-! ### Two windows -/

/-- The windows agree on what is known: the first `n` bytes, or all once a window is full. -/
def Agree (bytesOut n : ℕ) (win win' : Window) : Prop :=
  ∀ i, i < wsize → i < n ∨ 0 < bytesOut → win i = win' i

/-- The windows differ in one of the first `n` bytes. -/
def Differ (n : ℕ) (win win' : Window) : Prop := ∃ i, i < n ∧ win i ≠ win' i

/-- What is not written yet is still what the new window held. -/
def Untouched (bytesOut n : ℕ) (g win : Window) : Prop := bytesOut = 0 → ∀ i, n ≤ i → win i = g i

theorem agree_put {bytesOut w : ℕ} {win win' : Window} (h : Agree bytesOut w win win')
    {byte byte' : UInt8} (hbyte : byte = byte') :
    Agree bytesOut (w + 1) (win.put w byte) (win'.put w byte') := by
  intro i hi hknown
  by_cases hw : i = w
  · subst hw
    simp [hbyte]
  · rw [put_ne win _ hw, put_ne win' _ hw]
    exact h i hi (by omega)

/-- **Grounded writes keep windows that agree in agreement.** -/
theorem agree_writeAll {bytesOut w : ℕ} {srcs : List Source} {win win' : Window}
    (hin : ∀ dd, Source.back dd ∈ srcs → dd < wsize) (hg : Grounded bytesOut w srcs)
    (h : Agree bytesOut w win win') :
    Agree bytesOut (w + srcs.length) (writeAll w srcs win) (writeAll w srcs win') := by
  induction srcs generalizing w win win' with
  | nil => exact h
  | cons src srcs ih =>
    have hlen : w + (src :: srcs).length = w + 1 + srcs.length := by simp; omega
    rw [hlen]
    have hin' : ∀ dd, Source.back dd ∈ srcs → dd < wsize :=
      fun dd hdd => hin dd (List.mem_cons_of_mem _ hdd)
    cases src with
    | byte value => exact ih hin' hg (agree_put h rfl)
    | back dd => exact ih hin' hg.2 (agree_put h (h dd (hin dd List.mem_cons_self) hg.1))

/-- **The first write that is not grounded makes two windows differ** that were new and different
all over. -/
theorem differ_writeAll {bytesOut w : ℕ} {srcs : List Source} {g g' win win' : Window}
    (hg : ¬ Grounded bytesOut w srcs) (happart : ∀ i, g i ≠ g' i)
    (hu : Untouched bytesOut w g win) (hu' : Untouched bytesOut w g' win') :
    Differ (w + srcs.length) (writeAll w srcs win) (writeAll w srcs win') := by
  induction srcs generalizing w win win' with
  | nil => exact absurd trivial hg
  | cons src srcs ih =>
    have hlen : w + (src :: srcs).length = w + 1 + srcs.length := by simp; omega
    rw [hlen]
    have hput : ∀ (g win : Window) (byte : UInt8), Untouched bytesOut w g win →
        Untouched bytesOut (w + 1) g (win.put w byte) := by
      intro g win byte hu hb i hi
      rw [put_ne win _ (by omega)]
      exact hu hb i (by omega)
    cases src with
    | byte value => exact ih hg (hput _ _ _ hu) (hput _ _ _ hu')
    | back dd =>
      by_cases hdd : dd < w ∨ 0 < bytesOut
      · exact ih (fun h => hg ⟨hdd, h⟩) (hput _ _ _ hu) (hput _ _ _ hu')
      · -- this byte comes from what the windows held at first
        have hb : bytesOut = 0 := by omega
        refine ⟨w, by omega, ?_⟩
        rw [writeAll, writeAll, writeAll_before _ _ (by omega), writeAll_before _ _ (by omega),
          put_same, put_same, Source.value, Source.value, hu hb dd (by omega),
          hu' hb dd (by omega)]
        exact happart dd

end Rustybox.Gunzip
