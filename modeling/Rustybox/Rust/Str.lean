import Mathlib.Algebra.Group.Nat.Defs
import Mathlib.Data.List.Basic

/-!
# The string functions of the standard library that the applets use

A `str` is the list of its characters here.  Each function is named as in Rust and
follows its documentation; iterators are the lists of what they yield.  The few functions
on slices that the applets use on their words stand at the end.
-/

namespace Rustybox.Rust

/-- `char::is_whitespace`: the characters with the Unicode property `White_Space`. -/
def isWhitespace (c : Char) : Bool :=
  (9 ≤ c.toNat && c.toNat ≤ 13) || c.toNat == 0x20 || c.toNat == 0x85 || c.toNat == 0xA0 ||
    c.toNat == 0x1680 || (0x2000 ≤ c.toNat && c.toNat ≤ 0x200A) || c.toNat == 0x2028 ||
    c.toNat == 0x2029 || c.toNat == 0x202F || c.toNat == 0x205F || c.toNat == 0x3000

/-- `str::split_inclusive`: cut after each `sep`. -/
def splitInclusive (sep : Char) : List Char → List (List Char)
  | [] => []
  | c :: s =>
    if c = sep then [c] :: splitInclusive sep s
    else
      match splitInclusive sep s with
      | [] => [[c]]
      | piece :: pieces => (c :: piece) :: pieces

/-- The line without its terminator, which is `"\n"` or `"\r\n"`. -/
def stripTerminator (line : List Char) : List Char :=
  if line.getLast? = some '\n' then
    let line := line.dropLast
    if line.getLast? = some '\r' then line.dropLast else line
  else line

def lines (s : List Char) : List (List Char) := (splitInclusive '\n' s).map stripTerminator

def trim (s : List Char) : List Char :=
  ((s.dropWhile isWhitespace).reverse.dropWhile isWhitespace).reverse

/-- `str::splitn`: at most `n` pieces, the last one with all that is left. -/
def splitn : ℕ → Char → List Char → List (List Char)
  | 0, _, _ => []
  | 1, _, s => [s]
  | n + 2, sep, s =>
    match s.dropWhile (· ≠ sep) with
    | [] => [s]
    | _ :: rest => s.takeWhile (· ≠ sep) :: splitn (n + 1) sep rest

def splitWhitespace : List Char → List (List Char)
  | [] => []
  | c :: s =>
    if isWhitespace c then splitWhitespace s
    else
      match s with
      | [] => [[c]]
      | d :: _ =>
        if isWhitespace d then [c] :: splitWhitespace s
        else
          match splitWhitespace s with
          | [] => [[c]]
          | word :: words => (c :: word) :: words

/-- `str::parse::<usize>`: an optional plus sign, then decimal digits of a number below
`2^64`. -/
def parseUsize (s : List Char) : Option ℕ :=
  let digits := match s with
    | '+' :: rest => rest
    | _ => s
  if digits = [] ∨ ¬ digits.all Char.isDigit then none
  else
    let n := digits.foldl (fun acc c => 10 * acc + (c.toNat - '0'.toNat)) 0
    if n < 2 ^ 64 then some n else none

/-! ### Words and lines -/

/-- A word: something, with no whitespace in it. -/
def IsWord (w : List Char) : Prop := w ≠ [] ∧ ∀ c ∈ w, isWhitespace c = false

instance : DecidablePred IsWord := fun w =>
  decidable_of_iff (w ≠ [] ∧ (w.all fun c => !isWhitespace c) = true) (by simp [IsWord])

/-- A word is split off at the whitespace after it. -/
theorem splitWhitespace_word {w : List Char} (hw : IsWord w) {sep : Char}
    (hsep : isWhitespace sep = true) (rest : List Char) :
    splitWhitespace (w ++ sep :: rest) = w :: splitWhitespace rest := by
  obtain ⟨hne, hall⟩ := hw
  induction w with
  | nil => exact absurd rfl hne
  | cons c w ih =>
    have hc : isWhitespace c = false := hall c List.mem_cons_self
    have hrest : splitWhitespace (sep :: rest) = splitWhitespace rest := by
      rw [splitWhitespace.eq_def]
      exact if_pos hsep
    cases w with
    | nil =>
      rw [List.singleton_append, splitWhitespace, if_neg (by simp [hc]), if_pos hsep,
        hrest]
    | cons d w =>
      have hd : isWhitespace d = false := hall d (by simp)
      have ih := ih (by simp) fun c hc => hall c (List.mem_cons_of_mem _ hc)
      rw [List.cons_append] at ih
      rw [List.cons_append, List.cons_append, splitWhitespace, if_neg (by simp [hc]),
        if_neg (by simp [hd]), ih]

theorem splitWhitespace_self {w : List Char} (hw : IsWord w) : splitWhitespace w = [w] := by
  obtain ⟨hne, hall⟩ := hw
  induction w with
  | nil => exact absurd rfl hne
  | cons c w ih =>
    have hc : isWhitespace c = false := hall c List.mem_cons_self
    rw [splitWhitespace.eq_def]
    dsimp only
    rw [if_neg (by simp [hc])]
    cases w with
    | nil => rfl
    | cons d w =>
      have hd : isWhitespace d = false := hall d (by simp)
      dsimp only
      rw [if_neg (by simp [hd]), ih (by simp) fun c hc => hall c (List.mem_cons_of_mem _ hc)]

/-- What `split_whitespace` yields are words. -/
theorem isWord_of_mem_splitWhitespace {s w : List Char} (h : w ∈ splitWhitespace s) : IsWord w := by
  induction s generalizing w with
  | nil => cases h
  | cons c s ih =>
    rw [splitWhitespace.eq_def] at h
    dsimp only at h
    by_cases hc : isWhitespace c = true
    · rw [if_pos hc] at h
      exact ih h
    rw [if_neg hc] at h
    have hone : IsWord [c] := ⟨by simp, by simpa using hc⟩
    cases s with
    | nil => exact List.mem_singleton.mp h ▸ hone
    | cons d s =>
      dsimp only at h
      by_cases hd : isWhitespace d = true
      · rw [if_pos hd] at h
        exact (List.mem_cons.mp h).elim (fun he => he ▸ hone) ih
      rw [if_neg hd] at h
      cases hs : splitWhitespace (d :: s) with
      | nil =>
        rw [hs] at h
        exact List.mem_singleton.mp h ▸ hone
      | cons word words =>
        rw [hs] at h ih
        rcases List.mem_cons.mp h with rfl | h
        · refine ⟨by simp, fun x hx => ?_⟩
          rcases List.mem_cons.mp hx with rfl | hx
          · simpa using hc
          · exact (ih List.mem_cons_self).2 x hx
        · exact ih (List.mem_cons_of_mem _ h)

theorem splitInclusive_line {l : List Char} (h : '\n' ∉ l) (rest : List Char) :
    splitInclusive '\n' (l ++ '\n' :: rest) = (l ++ ['\n']) :: splitInclusive '\n' rest := by
  induction l with
  | nil => simp [splitInclusive]
  | cons c l ih =>
    have hc : c ≠ '\n' := fun he => h (he ▸ List.mem_cons_self)
    rw [List.cons_append, splitInclusive, if_neg hc, ih fun hm => h (List.mem_cons_of_mem _ hm)]
    rfl

/-- The first line of a text, where it does not end in a carriage return. -/
theorem lines_line {l : List Char} (h : '\n' ∉ l) (hcr : l.getLast? ≠ some '\r')
    (rest : List Char) : lines (l ++ '\n' :: rest) = l :: lines rest := by
  rw [lines, splitInclusive_line h, List.map_cons, stripTerminator]
  simp [hcr, lines]

/-! ### Slices -/

/-- `slice::chunks`: pieces of `size` elements, the last one with what is left.  The
function panics for a `size` of zero, which no caller passes. -/
def chunks {α : Type*} (size : ℕ) : List α → List (List α)
  | [] => []
  | x :: xs => (x :: xs.take (size - 1)) :: chunks size (xs.drop (size - 1))
termination_by l => l.length
decreasing_by
  simp only [List.length_cons, List.length_drop]
  omega

theorem flatten_chunks {α : Type*} (size : ℕ) (l : List α) : (chunks size l).flatten = l := by
  fun_induction chunks size l with
  | case1 => rfl
  | case2 x xs ih => rw [List.flatten_cons, ih, List.cons_append, List.take_append_drop]

theorem ne_nil_of_mem_chunks {α : Type*} {size : ℕ} {l chunk : List α}
    (h : chunk ∈ chunks size l) : chunk ≠ [] := by
  fun_induction chunks size l with
  | case1 => cases h
  | case2 x xs ih =>
    rcases List.mem_cons.mp h with rfl | h
    · exact List.cons_ne_nil _ _
    · exact ih h

end Rustybox.Rust
