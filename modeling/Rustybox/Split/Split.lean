import Rustybox.Rust.CStr
import Mathlib.Data.List.Lex
import Mathlib.Order.Monotone.Basic
import Mathlib.Algebra.Ring.Nat
import Mathlib.Algebra.Ring.Int.Defs

/-!
# split

`next_file` counts the suffix of a name up, as an odometer of letters.  The suffixes of a length are
the numbers up to a power of 26 in order, and so are their names.

`split_main` after its options are read: what `read` returns is written to one file after another.
Whether a file can be opened and whether a write succeeds is up to the environment.
-/

namespace Rustybox.Split

open Rust

/-- `*curr < 'z'`, for a `c_char`. -/
def belowZ (c : UInt8) : Bool := c < 122 || 128 ≤ c

/-- The loop of `next_file` over the name from its end on.  A byte that becomes a NUL ends it. -/
def nextLoop (suffixLen : ℕ) : ℕ → Str → Option Str
  | _, [] => none
  | i, c :: cs =>
    if belowZ c then some (if c + 1 = 0 then cs else (c + 1) :: cs)
    else if suffixLen < i + 1 then none
    else (nextLoop suffixLen (i + 1) cs).map (97 :: ·)

/-- `next_file`: increment the suffix part of the filename; none if we are out of filenames. -/
def nextFile (old : Str) (suffixLen : ℕ) : Option Str :=
  (nextLoop suffixLen 1 old.reverse).map List.reverse

/-! ### Suffixes as numbers -/

/-- Suffix number `n` of the suffixes with `k` letters. -/
def suffix : ℕ → ℕ → Str
  | 0, _ => []
  | k + 1, n => suffix k (n / 26) ++ [UInt8.ofNat (97 + n % 26)]

theorem suffix_length (k n : ℕ) : (suffix k n).length = k := by
  induction k generalizing n with
  | zero => rfl
  | succ k ih => rw [suffix, List.length_append, ih, List.length_singleton]

theorem suffix_zero (k : ℕ) : suffix k 0 = List.replicate k 97 := by
  induction k with
  | zero => rfl
  | succ k ih =>
    rw [suffix, Nat.zero_div, ih, List.replicate_succ']
    rfl

theorem letter_spec {d : ℕ} (hd : d < 26) :
    (belowZ (UInt8.ofNat (97 + d)) = true ↔ d + 1 < 26) ∧
      UInt8.ofNat (97 + d) + 1 = UInt8.ofNat (97 + (d + 1)) ∧ UInt8.ofNat (97 + d) + 1 ≠ 0 := by
  have hall : ∀ d : Fin 26, (belowZ (UInt8.ofNat (97 + d.val)) = true ↔ d.val + 1 < 26) ∧
      UInt8.ofNat (97 + d.val) + 1 = UInt8.ofNat (97 + (d.val + 1)) ∧
      UInt8.ofNat (97 + d.val) + 1 ≠ 0 := by decide
  exact hall ⟨d, hd⟩

theorem suffix_reverse (k n : ℕ) :
    (suffix (k + 1) n).reverse = UInt8.ofNat (97 + n % 26) :: (suffix k (n / 26)).reverse := by
  rw [suffix, List.reverse_append, List.reverse_singleton, List.singleton_append]

/-- The loop on a name that ends in `k + 1` letters, with `i - 1` others behind them. -/
theorem nextLoop_suffix {k n : ℕ} (hn : n < 26 ^ (k + 1)) (i : ℕ) (front : Str) :
    nextLoop (k + i) i ((suffix (k + 1) n).reverse ++ front) =
      if n + 1 < 26 ^ (k + 1) then some ((suffix (k + 1) (n + 1)).reverse ++ front) else none := by
  induction k generalizing n i with
  | zero =>
    obtain ⟨hbelow, hnext, hnul⟩ := letter_spec (Nat.mod_lt n (by decide : 26 > 0))
    rw [Nat.zero_add, Nat.pow_one] at hn ⊢
    rw [suffix_reverse, suffix_reverse, List.cons_append, nextLoop]
    by_cases hlast : n + 1 < 26
    · have hsame : (n + 1) % 26 = n % 26 + 1 := by omega
      rw [if_pos (hbelow.mpr (by omega)), if_neg hnul, if_pos hlast, hsame, hnext]
      rfl
    · rw [if_neg fun h => hlast (by have := hbelow.mp h; omega), if_pos (by omega), if_neg hlast]
  | succ k ih =>
    obtain ⟨hbelow, hnext, hnul⟩ := letter_spec (Nat.mod_lt n (by decide : 26 > 0))
    have hpow : 26 ^ (k + 2) = 26 * 26 ^ (k + 1) := by rw [Nat.pow_succ, Nat.mul_comm]
    rw [hpow] at hn
    have hdiv : n / 26 < 26 ^ (k + 1) := by omega
    rw [suffix_reverse (k + 1) n, suffix_reverse (k + 1) (n + 1), List.cons_append, nextLoop, hpow]
    by_cases hcarry : n % 26 + 1 < 26
    · have hsame : (n + 1) / 26 = n / 26 ∧ (n + 1) % 26 = n % 26 + 1 := by omega
      rw [if_pos (hbelow.mpr hcarry), if_neg hnul, if_pos (by omega), hsame.1, hsame.2, hnext]
      rfl
    · have hover : (n + 1) / 26 = n / 26 + 1 ∧ (n + 1) % 26 = 0 := by omega
      have hlen : k + 1 + i = k + (i + 1) := by omega
      rw [if_neg fun h => hcarry (hbelow.mp h), if_neg (by omega), hlen, ih hdiv (i + 1)]
      by_cases hlast : n / 26 + 1 < 26 ^ (k + 1)
      · rw [if_pos hlast, if_pos (by omega), hover.1, hover.2]
        rfl
      · rw [if_neg hlast, if_neg (by omega)]
        rfl

theorem nextFile_suffix {k n : ℕ} (hn : n < 26 ^ (k + 1)) (pfx : Str) :
    nextFile (pfx ++ suffix (k + 1) n) (k + 1) =
      if n + 1 < 26 ^ (k + 1) then some (pfx ++ suffix (k + 1) (n + 1)) else none := by
  rw [nextFile, List.reverse_append, nextLoop_suffix hn 1]
  split
  · simp
  · rfl

theorem append_lt_append {l₁ l₂ : Str} (h : l₁ < l₂) (hlength : l₁.length = l₂.length)
    (s t : Str) : l₁ ++ s < l₂ ++ t := by
  induction l₁ generalizing l₂ with
  | nil =>
    obtain rfl : l₂ = [] := List.eq_nil_of_length_eq_zero hlength.symm
    exact absurd h (List.lt_irrefl [])
  | cons c l₁ ih =>
    cases l₂ with
    | nil => cases hlength
    | cons d l₂ =>
      rw [List.cons_append, List.cons_append, List.cons_lt_cons_iff]
      rcases List.cons_lt_cons_iff.mp h with hlt | ⟨heq, hlt⟩
      · exact Or.inl hlt
      · exact Or.inr ⟨heq, ih hlt (Nat.succ.inj hlength)⟩

theorem letter_lt {d e : ℕ} (hde : d < e) (he : e < 26) :
    UInt8.ofNat (97 + d) < UInt8.ofNat (97 + e) := by
  have hall : ∀ d e : Fin 26, d < e → UInt8.ofNat (97 + d.val) < UInt8.ofNat (97 + e.val) := by
    decide
  exact hall ⟨d, by omega⟩ ⟨e, he⟩ hde

/-- Suffixes are in the order of their numbers. -/
theorem suffix_lt {k m n : ℕ} (hmn : m < n) (hn : n < 26 ^ k) : suffix k m < suffix k n := by
  induction k generalizing m n with
  | zero =>
    rw [Nat.pow_zero] at hn
    omega
  | succ k ih =>
    rw [Nat.pow_succ] at hn
    rw [suffix, suffix]
    by_cases hsame : m / 26 = n / 26
    · rw [hsame]
      refine List.append_left_lt (List.cons_lt_cons_iff.mpr (Or.inl ?_))
      exact letter_lt (by omega) (Nat.mod_lt n (by decide))
    · have hlt : suffix k (m / 26) < suffix k (n / 26) := ih (by omega) (by omega)
      refine append_lt_append hlt ?_ _ _
      rw [suffix_length, suffix_length]

/-! ## The loop -/

/-- What the option parser accepts: `-b` takes any number of 64 bits, `-l` any `off_t`. -/
structure Options where
  sfx : Str
  suffixLen : ℕ
  byBytes : Bool
  count : ℕ
  fits : sfx.length + suffixLen ≤ 255
  bound : count < if byBytes then 2 ^ 64 else 2 ^ 63

/-- `cnt`, an `off_t`. -/
def Options.cnt (o : Options) : ℤ := (o.count : ℤ).bmod (2 ^ 64)

/-- Which opens and which writes succeed. -/
structure Env where
  opens : ℕ → Bool
  writes : ℕ → Bool

/-- The messages of the last words. -/
inductive Die
  | suffixesExhausted
  | cannotOpen
  | writeError

/-- A file: its name and its content. -/
abbrev Piece := Str × Str

/-- `current` is open as the output; the files before it are `closed`.  `remaining` is an `off_t`; a
number of lines that overflows it does not occur. -/
structure State where
  remaining : ℤ
  pfx : Option Str
  closed : List Piece
  current : Option Piece
  writes : ℕ

/-- The files in the order of their creation. -/
def State.pieces (s : State) : List Piece := s.closed ++ s.current.toList

abbrev Result (α : Type) := Except (Die × State) α

variable (o : Options) (env : Env)

def start : State := ⟨0, some (o.sfx ++ List.replicate o.suffixLen 97), [], none, 0⟩

/-- Open the next file as the output.  There is no file with an empty name. -/
def openNext (s : State) : Result State :=
  match s.pfx with
  | none => .error (.suffixesExhausted, s)
  | some pfx =>
    if pfx = [] ∨ env.opens s.pieces.length = false then .error (.cannotOpen, s)
    else
      .ok { s with
        closed := s.pieces
        current := some (pfx, [])
        pfx := nextFile pfx o.suffixLen
        remaining := o.cnt }

/-- `to_write`, and what is then `remaining`. -/
def toWrite (src : Str) (remaining : ℤ) : ℤ × ℤ :=
  if o.byBytes then
    -- split by bytes
    let n := if src.length < remaining then (src.length : ℤ) else remaining
    (n, remaining - n)
  else
    -- split by lines
    match src.findIdx? (· = newline) with
    | some i => ((i : ℤ) + 1, remaining - 1)
    | none => (src.length, remaining)

/-- `xwrite`.  A negative number of bytes is a huge `size_t`, which the system refuses; for -1 that
is what was asked for. -/
def xwrite (src : Str) (n : ℤ) (s : State) : Result State :=
  if n = 0 ∨ n = -1 then .ok s
  else if n < 0 ∨ env.writes s.writes = false then .error (.writeError, s)
  else
    .ok { s with
      current := s.current.map fun piece => (piece.1, piece.2 ++ src.take n.toNat)
      writes := s.writes + 1 }

/-- A turn of the inner loop: what is left of the buffer. -/
def turn (src : Str) (s : State) : Result (Str × State) :=
  match (if s.remaining = 0 then openNext o env s else .ok s) with
  | .error e => .error e
  | .ok s =>
    let (n, remaining) := toWrite o src s.remaining
    match xwrite env src n { s with remaining } with
    | .error e => .error e
    | .ok s => .ok (src.drop n.toNat, s)

/-- The inner loop on a buffer, with at most so many turns. -/
def bufferLoop : ℕ → Str → State → Option (Result State)
  | 0, _, _ => none
  | turns + 1, src, s =>
    match turn o env src s with
    | .error e => some (.error e)
    | .ok (src, s) => if src = [] then some (.ok s) else bufferLoop turns src s

/-- `split_main` on what the reads return, with so many turns of the inner loop each. -/
def readLoop (turns : ℕ) : List Str → State → Option (Result State)
  | [], s => some (.ok s)
  | buffer :: reads, s =>
    match bufferLoop o env turns buffer s with
    | none => none
    | some (.error e) => some (.error e)
    | some (.ok s) => readLoop turns reads s

/-! ### Names -/

def limit : ℕ := 26 ^ o.suffixLen

def nameAt (n : ℕ) : Str := o.sfx ++ suffix o.suffixLen n

/-- Counting up keeps to the suffix: there is one, or what stands in its place is not counted. -/
def Usable : Prop := 0 < o.suffixLen ∨ ∀ c ∈ o.sfx.getLast?, belowZ c = false

variable {o env}

theorem nextFile_nameAt (husable : Usable o) {n : ℕ} (hn : n < limit o) :
    nextFile (nameAt o n) o.suffixLen =
      if n + 1 < limit o then some (nameAt o (n + 1)) else none := by
  rw [nameAt, nameAt]
  rw [limit] at hn ⊢
  cases hlen : o.suffixLen with
  | zero =>
    rw [hlen, Nat.pow_zero] at hn
    rw [Usable, hlen] at husable
    have hlast := husable.resolve_left (Nat.lt_irrefl 0)
    rw [Nat.pow_zero, if_neg (by omega), suffix, List.append_nil, nextFile]
    rcases List.eq_nil_or_concat' o.sfx with hnil | ⟨front, c, hfront⟩
    · rw [hnil]
      rfl
    · have hc : belowZ c = false := hlast c (by rw [hfront, List.getLast?_concat]; rfl)
      rw [hfront, List.reverse_append, List.reverse_singleton, List.singleton_append, nextLoop,
        if_neg (by rw [hc]; exact Bool.false_ne_true), if_pos (by decide)]
      rfl
  | succ k =>
    rw [hlen] at hn
    exact nextFile_suffix hn o.sfx

/-- The files have the names with the first numbers, and the name with the next one is to come. -/
def Named (o : Options) (s : State) : Prop :=
  s.pieces.map Prod.fst = (List.range s.pieces.length).map (nameAt o) ∧
    s.pieces.length ≤ limit o ∧
    s.pfx = if s.pieces.length < limit o then some (nameAt o s.pieces.length) else none

theorem named_start : Named o (start o) := by
  have hpos : 0 < limit o := Nat.pow_pos (by decide)
  have hlength : (start o).pieces.length = 0 := rfl
  refine ⟨rfl, hlength ▸ Nat.zero_le _, ?_⟩
  rw [hlength, if_pos hpos, nameAt, suffix_zero]
  rfl

theorem openNext_error {s s' : State} {die : Die} (h : openNext o env s = .error (die, s')) :
    s' = s := by
  rw [openNext] at h
  split at h
  · exact (congrArg Prod.snd (Except.error.inj h)).symm
  · split at h
    · exact (congrArg Prod.snd (Except.error.inj h)).symm
    · cases h

theorem openNext_ok {s s' : State} (h : openNext o env s = .ok s') :
    ∃ pfx, s.pfx = some pfx ∧ s' =
      ⟨o.cnt, nextFile pfx o.suffixLen, s.pieces, some (pfx, []), s.writes⟩ := by
  rw [openNext] at h
  split at h
  · cases h
  · rename_i pfx hpfx
    split at h
    · cases h
    · exact ⟨pfx, hpfx, (Except.ok.inj h).symm⟩

theorem xwrite_error {src : Str} {n : ℤ} {s s' : State} {die : Die}
    (h : xwrite env src n s = .error (die, s')) : s' = s := by
  rw [xwrite] at h
  split at h
  · cases h
  · split at h
    · exact (congrArg Prod.snd (Except.error.inj h)).symm
    · cases h

theorem xwrite_ok {src : Str} {n : ℤ} {s s' : State} (h : xwrite env src n s = .ok s') :
    s'.remaining = s.remaining ∧ s'.pfx = s.pfx ∧ s'.closed = s.closed ∧
      s'.current = s.current.map fun piece => (piece.1, piece.2 ++ src.take n.toNat) := by
  rw [xwrite] at h
  split at h
  · rename_i hnone
    obtain rfl := Except.ok.inj h
    have hzero : n.toNat = 0 := by omega
    rw [hzero]
    refine ⟨rfl, rfl, rfl, ?_⟩
    cases s.current <;> simp
  · split at h
    · cases h
    · obtain rfl := Except.ok.inj h
      exact ⟨rfl, rfl, rfl, rfl⟩

/-- What stands before a write in a turn: the state, with the next file opened if it is time. -/
def Opened (o : Options) (env : Env) (s t : State) : Prop :=
  (s.remaining ≠ 0 ∧ t = s) ∨ (s.remaining = 0 ∧ openNext o env s = .ok t)

theorem turn_ok {src src' : Str} {s s' : State} (h : turn o env src s = .ok (src', s')) :
    ∃ t, Opened o env s t ∧ src' = src.drop (toWrite o src t.remaining).1.toNat ∧
      s'.remaining = (toWrite o src t.remaining).2 ∧ s'.pfx = t.pfx ∧ s'.closed = t.closed ∧
      s'.current = t.current.map fun piece =>
        (piece.1, piece.2 ++ src.take (toWrite o src t.remaining).1.toNat) := by
  rw [turn] at h
  split at h
  · cases h
  · rename_i t hopen
    have hopened : Opened o env s t := by
      split at hopen
      · exact Or.inr ⟨‹_›, hopen⟩
      · exact Or.inl ⟨‹_›, (Except.ok.inj hopen).symm⟩
    dsimp only at h
    split at h
    · cases h
    · rename_i u hwrite
      obtain ⟨rfl, rfl⟩ := Prod.mk.inj (Except.ok.inj h)
      obtain ⟨hremaining, hpfx, hclosed, hcurrent⟩ := xwrite_ok hwrite
      exact ⟨t, hopened, rfl, hremaining, hpfx, hclosed, hcurrent⟩

/-- A turn that dies leaves the files as they are, or with one more. -/
theorem turn_error {src : Str} {s s' : State} {die : Die}
    (h : turn o env src s = .error (die, s')) :
    (s' = s ∧ openNext o env s = .error (die, s')) ∨
      ∃ t, Opened o env s t ∧ s'.pfx = t.pfx ∧ s'.pieces = t.pieces := by
  rw [turn] at h
  split at h
  · rename_i e hopen
    split at hopen
    · obtain rfl := Except.error.inj h
      exact Or.inl ⟨openNext_error hopen, hopen⟩
    · cases hopen
  · rename_i t hopen
    have hopened : Opened o env s t := by
      split at hopen
      · exact Or.inr ⟨‹_›, hopen⟩
      · exact Or.inl ⟨‹_›, (Except.ok.inj hopen).symm⟩
    dsimp only at h
    split at h
    · rename_i e hwrite
      obtain rfl := Except.error.inj h
      obtain rfl := xwrite_error hwrite
      exact Or.inr ⟨t, hopened, rfl, rfl⟩
    · cases h

end Rustybox.Split
