import Mathlib.Data.Nat.Digits.Defs
import Rustybox.Shell.TokenLoop

/-!
# Numbers with a base

In `base#digits` the digits are `0-9`, then the letters, of either case up to base 36, the small
ones before the large ones past it, and then `@` and `_`.  `strto_arith_t` folds the case of every
character from `:` to `z` by setting a bit, which is made for letters.  Of `@` and of the grave
accent the folded code is the one before `a`, and that counts as the digit 9.

* `baseDigit_eq`: for all other characters the loop knows the digits.
* `strtoArith_base_iff`: so the number is read as documented, unless what stands behind its digits
  is one of the two.
-/

namespace Rustybox.Shell

/-- The value of a character as a digit of a base, as documented. -/
def alphabetDigit (base : ℕ) (c : Char) : Option ℕ :=
  let digit : Option ℕ :=
    if isDigit c then some (c.toNat - 48)
    else if 97 ≤ c.toNat ∧ c.toNat ≤ 122 then some (c.toNat - 97 + 10)
    else if 65 ≤ c.toNat ∧ c.toNat ≤ 90 then
      some (c.toNat - 65 + if base ≤ 36 then 10 else 36)
    else if c = '@' then some 62
    else if c = '_' then some 63
    else none
  digit.filter (· < base)

/-- The character is a digit of the base. -/
def isDigitOf (base : ℕ) (c : Char) : Bool := (alphabetDigit base c).isSome

/-- The digits at the start of a string, the first one first. -/
def leadingDigits (base : ℕ) (s : List Char) : List ℕ :=
  (s.takeWhile (isDigitOf base)).filterMap (alphabetDigit base)

/-- The value of `base#digits`. -/
def digitsValue (base : ℕ) (s : List Char) : ℕ := Nat.ofDigits base (leadingDigits base s).reverse

/-- No digit, but folded onto the code before `a`: the grave accent, and `@` up to base 36. -/
def FoldsBeforeA (base : ℕ) (c : Char) : Prop :=
  10 ≤ base ∧ (c.toNat = 96 ∨ c.toNat = 64 ∧ base ≤ 36)

instance (base : ℕ) (c : Char) : Decidable (FoldsBeforeA base c) :=
  inferInstanceAs (Decidable (_ ∧ _))

/-! ### One digit -/

theorem fold_eq {n : ℕ} (h : n < 128) : n ||| 32 = if n % 64 < 32 then n + 32 else n := by
  revert n
  decide

theorem filter_lt_eq_none {base d : ℕ} (h : base ≤ d) : (some d).filter (· < base) = none := by
  rw [Option.filter_some, if_neg (by simpa using h)]

theorem char_eq_iff {c d : Char} : c = d ↔ c.toNat = d.toNat := Char.toNat_inj.symm

theorem baseDigit_folded {base : ℕ} {c : Char} (h : FoldsBeforeA base c) :
    baseDigit base c = some 9 := by
  have hund : c = '_' ↔ c.toNat = 95 := char_eq_iff
  obtain ⟨hbase, hc | ⟨hc, hle⟩⟩ := h
  · simp only [baseDigit, hc]
    grind
  · simp only [baseDigit, hc]
    grind

theorem alphabetDigit_folded {base : ℕ} {c : Char} (h : FoldsBeforeA base c) :
    alphabetDigit base c = none := by
  have hat : c = '@' ↔ c.toNat = 64 := char_eq_iff
  have hund : c = '_' ↔ c.toNat = 95 := char_eq_iff
  obtain ⟨hbase, hc | ⟨hc, hle⟩⟩ := h
  · simp only [alphabetDigit, isDigit, hat, hund, hc]
    rfl
  · simp only [alphabetDigit, isDigit, hat, hund, hc]
    exact filter_lt_eq_none (by omega)

/-- **Digits are known**, the two folded characters apart. -/
theorem baseDigit_eq {base : ℕ} (hbase : base ≤ 64) {c : Char} (h : ¬ FoldsBeforeA base c) :
    baseDigit base c = alphabetDigit base c := by
  have hat : c = '@' ↔ c.toNat = 64 := char_eq_iff
  have hund : c = '_' ↔ c.toNat = 95 := char_eq_iff
  simp only [FoldsBeforeA] at h
  simp only [baseDigit, alphabetDigit, isDigit, hat, hund, Bool.and_eq_true, decide_eq_true_eq]
  generalize c.toNat = n at *
  rcases Nat.lt_or_ge n 128 with hn | hn
  · -- the two rows of letters are 32 apart, and what is below them has the bit already
    have hmod : n % 64 = if n < 64 then n else n - 64 := by split <;> omega
    rw [fold_eq hn, hmod]
    by_cases h48 : n < 48
    · grind
    · grind
  · -- past `z` the difference to `0` is no digit of any base
    grind

theorem baseDigit_of_alphabetDigit {base : ℕ} (hbase : base ≤ 64) {c : Char} {d : ℕ}
    (h : alphabetDigit base c = some d) : baseDigit base c = some d := by
  have hnot : ¬ FoldsBeforeA base c := by
    intro hfold
    rw [alphabetDigit_folded hfold] at h
    cases h
  rw [baseDigit_eq hbase hnot, h]

/-! ### The digits of a number -/

section

variable {base : ℕ} {c : Char} {d : ℕ}

theorem leadingDigits_cons (h : alphabetDigit base c = some d) (s : List Char) :
    leadingDigits base (c :: s) = d :: leadingDigits base s := by
  have hc : isDigitOf base c = true := by rw [isDigitOf, h, Option.isSome_some]
  rw [leadingDigits, List.takeWhile_cons_of_pos hc, List.filterMap_cons_some h, leadingDigits]

theorem leadingDigits_cons_of_none (h : alphabetDigit base c = none) (s : List Char) :
    leadingDigits base (c :: s) = [] := by
  have hc : ¬ isDigitOf base c = true := by rw [isDigitOf, h, Option.isSome_none]; decide
  rw [leadingDigits, List.takeWhile_cons_of_neg hc, List.filterMap_nil]

theorem ofDigits_reverse_cons (d : ℕ) (ds : List ℕ) :
    Nat.ofDigits base (d :: ds).reverse = d * base ^ ds.length + Nat.ofDigits base ds.reverse := by
  rw [List.reverse_cons, Nat.ofDigits_append, List.length_reverse, Nat.ofDigits_singleton]
  ring

/-- The loop takes the digits, whatever comes behind them. -/
theorem readBaseDigits_digits (hbase : base ≤ 64) (s : List Char) (m : ℕ) :
    readBaseDigits base (BitVec.ofNat 64 m) s =
      readBaseDigits base
        (BitVec.ofNat 64 (m * base ^ (leadingDigits base s).length + digitsValue base s))
        (s.dropWhile (isDigitOf base)) := by
  induction s generalizing m with
  | nil => simp [digitsValue, leadingDigits]
  | cons c s ih =>
    cases hd : alphabetDigit base c with
    | none =>
      have hc : ¬ isDigitOf base c = true := by rw [isDigitOf, hd, Option.isSome_none]; decide
      rw [List.dropWhile_cons_of_neg hc, digitsValue, leadingDigits_cons_of_none hd, List.length_nil,
        pow_zero, mul_one, List.reverse_nil, Nat.ofDigits_nil, add_zero]
    | some d =>
      have hc : isDigitOf base c = true := by rw [isDigitOf, hd, Option.isSome_some]
      have hvalue : digitsValue base (c :: s) =
          d * base ^ (leadingDigits base s).length + digitsValue base s := by
        rw [digitsValue, leadingDigits_cons hd, ofDigits_reverse_cons, digitsValue]
      have hnext : BitVec.ofNat 64 m * BitVec.ofNat 64 base + BitVec.ofNat 64 d =
          BitVec.ofNat 64 (m * base + d) := by
        rw [BitVec.ofNat_add, BitVec.ofNat_mul]
      rw [List.dropWhile_cons_of_pos hc, readBaseDigits, baseDigit_of_alphabetDigit hbase hd]
      dsimp only
      rw [hnext, ih, hvalue, leadingDigits_cons hd, List.length_cons, pow_succ]
      congr 2
      ring

/-- What the loop does behind the digits. -/
theorem readBaseDigits_stops_iff (hbase : base ≤ 64) (s : List Char) (n : BitVec 64) :
    readBaseDigits base n (s.dropWhile (isDigitOf base)) = (n, s.dropWhile (isDigitOf base)) ↔
      ∀ c ∈ (s.dropWhile (isDigitOf base)).head?, ¬ FoldsBeforeA base c := by
  cases hrest : s.dropWhile (isDigitOf base) with
  | nil =>
    refine ⟨fun _ c hc => ?_, fun _ => rfl⟩
    cases hc
  | cons c rest =>
    have hnone : alphabetDigit base c = none := by
      have hhead := List.head?_dropWhile_not (isDigitOf base) s
      rw [hrest] at hhead
      exact Option.isNone_iff_eq_none.mp (by simpa [isDigitOf] using hhead)
    constructor
    · intro heq z hz hfold
      cases hz
      -- a folded character is taken for a digit
      rw [readBaseDigits, baseDigit_folded hfold] at heq
      have hle := length_readBaseDigits_le base
        (n * BitVec.ofNat 64 base + BitVec.ofNat 64 9) rest
      dsimp only at heq
      rw [heq, List.length_cons] at hle
      omega
    · intro h
      rw [readBaseDigits, baseDigit_eq hbase (h c rfl), hnone]

end

/-- A base stands before its `#` as a decimal number. -/
theorem strtoArith_base {base : ℕ} (hlo : 2 ≤ base) (hhi : base ≤ 64) (s : List Char) :
    strtoArith (Nat.toDigits 10 base ++ '#' :: s) = readBaseDigits base 0 s := by
  have hnodigit : NoDigit ('#' :: s) := by
    intro c hc
    cases hc
    decide
  have hread := strtoull_toDigits_of_pos (Nat.lt_of_lt_of_le Nat.two_pos hlo) hnodigit
  obtain ⟨c, cs, hcs, hc⟩ := head_toDigits (Nat.lt_of_lt_of_le Nat.two_pos hlo)
  have hdigit : isDigit c = true :=
    isDigit_of_mem_toDigits (by rw [hcs]; exact List.mem_cons_self)
  have hrange : 49 ≤ c.toNat ∧ c.toNat ≤ 57 := by
    have hne : c.toNat ≠ 48 := fun h => hc (char_eq_iff.mpr h)
    simp only [isDigit, Bool.and_eq_true, decide_eq_true_eq] at hdigit
    omega
  have hsmall : ¬ 2 ^ 64 ≤ base := by omega
  rw [hcs, List.cons_append] at hread
  rw [hcs, List.cons_append, strtoArith, hread]
  dsimp only
  rw [if_neg hsmall]
  exact if_pos ⟨hrange.1, hrange.2, hlo, hhi⟩

/-- **`base#digits` is read as documented if and only if** behind the digits there is neither a
grave accent, from base 10 on, nor `@`, from base 10 to 36. -/
theorem strtoArith_base_iff {base : ℕ} (hlo : 2 ≤ base) (hhi : base ≤ 64) (s : List Char) :
    strtoArith (Nat.toDigits 10 base ++ '#' :: s) =
        (BitVec.ofNat 64 (digitsValue base s), s.dropWhile (isDigitOf base)) ↔
      ∀ c ∈ (s.dropWhile (isDigitOf base)).head?, ¬ FoldsBeforeA base c := by
  have hdigits := readBaseDigits_digits hhi s 0
  rw [zero_mul, zero_add] at hdigits
  rw [strtoArith_base hlo hhi, show (0 : BitVec 64) = BitVec.ofNat 64 0 from rfl, hdigits]
  exact readBaseDigits_stops_iff hhi s _

theorem strtoArith_base_iff_hex :
    strtoArith (Nat.toDigits 10 16 ++ '#' :: ['f', 'F']) =
      (BitVec.ofNat 64 (digitsValue 16 ['f', 'F']), ['f', 'F'].dropWhile (isDigitOf 16)) :=
  (strtoArith_base_iff (show 2 ≤ 16 by decide) (by decide) ['f', 'F']).mpr fun _ hc =>
    absurd hc (Option.not_mem_none _)

/-- `16#@` is 9. -/
theorem at_sign_is_nine :
    ¬ ∀ (base : ℕ) (s : List Char), 2 ≤ base → base ≤ 64 →
      strtoArith (Nat.toDigits 10 base ++ '#' :: s) =
        (BitVec.ofNat 64 (digitsValue base s), s.dropWhile (isDigitOf base)) := by
  intro h
  have hread := h 16 ['@'] (by decide) (by decide)
  have hnine : strtoArith "16#@".toList = (9, []) := by decide +kernel
  have hnone : ['@'].dropWhile (isDigitOf 16) = ['@'] := by decide +kernel
  rw [hnone] at hread
  cases hnine.symm.trans hread

end Rustybox.Shell
