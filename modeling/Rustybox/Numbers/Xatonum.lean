import Rustybox.Rust.CStr
import Mathlib.Data.Nat.Digits.Lemmas
import Mathlib.Data.List.TakeWhile
import Mathlib.Tactic.Linarith

/-!
# Numbers in options: `xstrtoi_range_sfx` and `xstrtoll_range_sfx`

The signed parsers take the sign off, have the rest read by an unsigned one and put the sign
back.  The limit they give to the unsigned one is the largest value of the type; it should be
one more behind a minus sign, but the code looks for the sign after it has stepped over it.

`xstrtoRangeSfx_ok_iff`: what is accepted has a magnitude up to that limit.  So the parsers
accept what a number denotes, unless that is the smallest value of the type
(`signed_range_iff`).

All numbers are read with base 10.
-/

namespace Rustybox.Numbers

open Rustybox.Rust

/-! ### The C library -/

/-- What `strtoul` and `strtoull` give: the number, whether `errno` is set, and where the
reading ended. -/
structure Strto where
  r : ℕ
  errno : Bool
  e : Str

def decimal (digits : Str) : ℕ := Nat.ofDigits 10 (digits.map fun c => (c - 48).toNat).reverse

/-- `strtoull` with base 10, on a string that starts with no blank and no sign. -/
def strtoull (s : Str) : Strto :=
  let n := decimal (s.takeWhile isDigit)
  if n < 2 ^ 64 then ⟨n, false, s.dropWhile isDigit⟩
  else ⟨2 ^ 64 - 1, true, s.dropWhile isDigit⟩

/-- `bb_strtoui`; `strtoul` is `strtoull` where a `long` has 64 bits. -/
def bbStrtoui (s : Str) : Strto :=
  let v := strtoull s
  if 2 ^ 32 - 1 < v.r then { v with r := 2 ^ 32 - 1, errno := true } else v

/-! ### The unsigned parsers -/

/-- An entry of a suffix table.  The entry with multiplier zero, which ends a table, is the end
of the list. -/
structure SuffixMult where
  suffix : Str
  mult : ℕ
  pos : 0 < mult
  lt : mult < 2 ^ 32

/-- The messages of `bb_error_msg_and_die`. -/
inductive Die
  | invalidNumber (numstr : Str)
  | notInRange (numstr : Str) (lower upper : ℤ)
deriving DecidableEq

def plusSign : UInt8 := 43
def minusSign : UInt8 := 45

/-- `isspace`, as it is inlined. -/
def isSpace (c : UInt8) : Bool := c = 32 || (9 ≤ c && c ≤ 13)

/-- The walk over the suffix table: the number, or `none` when it overflows, or no suffix. -/
def scale (max r : ℕ) (e : Str) : List SuffixMult → Option (Option ℕ)
  | [] => none
  | s :: suffixes =>
    if s.suffix = e then
      if max / s.mult < r then some none else some (some (r * s.mult % (max + 1)))
    else scale max r e suffixes

/-- What comes after the reading: the suffix and the range. -/
def finish (max : ℕ) (numstr : Str) (r : ℕ) (e : Str) (lower upper : ℕ)
    (suffixes : List SuffixMult) : Except Die ℕ :=
  match scale max r e suffixes with
  | none =>
    if e ≠ [] then .error (.invalidNumber numstr)
    else if lower ≤ r ∧ r ≤ upper then .ok r
    else .error (.notInRange numstr lower upper)
  | some none => .error (.notInRange numstr lower upper)
  | some (some r) =>
    if lower ≤ r ∧ r ≤ upper then .ok r else .error (.notInRange numstr lower upper)

/-- The unsigned parser for a type with largest value `max`, which reads by `strto`. -/
def xstrtouRange (max : ℕ) (strto : Str → Strto) (numstr : Str) (lower upper : ℕ)
    (suffixes : List SuffixMult) : Except Die ℕ :=
  if numstr.head? = some minusSign ∨ numstr.head? = some plusSign ∨
      numstr.head?.any isSpace = true then
    .error (.invalidNumber numstr)
  else
    let v := strto numstr
    if v.errno ∨ v.e = numstr then .error (.invalidNumber numstr)
    else finish max numstr v.r v.e lower upper suffixes

/-- `xstrtoull_range_sfx`; without a table the list is empty. -/
def xstrtoullRangeSfx : Str → ℕ → ℕ → List SuffixMult → Except Die ℕ :=
  xstrtouRange (2 ^ 64 - 1) strtoull

def xstrtouRangeSfx : Str → ℕ → ℕ → List SuffixMult → Except Die ℕ :=
  xstrtouRange (2 ^ 32 - 1) bbStrtoui

/-! ### The signed parsers -/

/-- The last steps of a signed parser: the sign and the range.  A type with `2 * half` values
wraps around at its ends. -/
def applySign (half : ℕ) (numstr : Str) (lower upper : ℤ) (n : ℕ) : Except Die ℤ :=
  let r := (n : ℤ).bmod (2 * half)
  let r := if numstr.head? = some minusSign then (-r).bmod (2 * half) else r
  if r < lower ∨ upper < r then .error (.notInRange numstr lower upper) else .ok r

/-- The signed parser for a type with the values from `-half` to `half - 1`, on top of the
unsigned one. -/
def xstrtoRange (half : ℕ) (xstrtou : Str → ℕ → ℕ → List SuffixMult → Except Die ℕ)
    (numstr : Str) (lower upper : ℤ) (suffixes : List SuffixMult) : Except Die ℤ :=
  let signed := numstr.head? = some plusSign ∨ numstr.head? = some minusSign
  let p := if signed then numstr.tail else numstr
  -- the sign is looked for behind the place where it was
  let u := if signed ∧ p.head? = some minusSign then half else half - 1
  (xstrtou p 0 u suffixes).bind (applySign half numstr lower upper)

def xstrtoiRangeSfx : Str → ℤ → ℤ → List SuffixMult → Except Die ℤ :=
  xstrtoRange (2 ^ 31) xstrtouRangeSfx

def xstrtollRangeSfx : Str → ℤ → ℤ → List SuffixMult → Except Die ℤ :=
  xstrtoRange (2 ^ 63) xstrtoullRangeSfx

/-! ### What a string denotes -/

/-- The multiplier of a suffix: the first one in the table, or one for no suffix. -/
def multiplier (suffixes : List SuffixMult) (suffix : Str) : Option ℕ :=
  match suffixes.find? (·.suffix = suffix) with
  | some s => some s.mult
  | none => if suffix = [] then some 1 else none

/-- `s` is digits, all that there are, and a suffix, and has the value `n`. -/
def Magnitude (suffixes : List SuffixMult) (s : Str) (n : ℕ) : Prop :=
  ∃ digits suffix mult, s = digits ++ suffix ∧ digits ≠ [] ∧ (∀ c ∈ digits, isDigit c = true) ∧
    suffix.head?.any isDigit = false ∧ multiplier suffixes suffix = some mult ∧
    n = decimal digits * mult

/-- The string is a number with an optional sign, and has the value `v`. -/
inductive Denotes (suffixes : List SuffixMult) : Str → ℤ → Prop
  | bare {s : Str} {n : ℕ} (h : Magnitude suffixes s n) : Denotes suffixes s n
  | plus {s : Str} {n : ℕ} (h : Magnitude suffixes s n) : Denotes suffixes (plusSign :: s) n
  | minus {s : Str} {n : ℕ} (h : Magnitude suffixes s n) : Denotes suffixes (minusSign :: s) (-n)

/-! ### Reading digits -/

theorem split_digits {digits suffix : Str} (hd : ∀ c ∈ digits, isDigit c = true)
    (hs : suffix.head?.any isDigit = false) :
    (digits ++ suffix).takeWhile isDigit = digits ∧
      (digits ++ suffix).dropWhile isDigit = suffix := by
  have hrest : suffix.takeWhile isDigit = [] ∧ suffix.dropWhile isDigit = suffix := by
    cases suffix with
    | nil => exact ⟨rfl, rfl⟩
    | cons c suffix =>
      have hc : isDigit c = false := hs
      rw [List.takeWhile_cons, List.dropWhile_cons, hc]
      exact ⟨rfl, rfl⟩
  induction digits with
  | nil => exact hrest
  | cons c digits ih =>
    have hc := hd c (List.mem_cons_self ..)
    obtain ⟨h1, h2⟩ := ih fun b hb => hd b (List.mem_cons_of_mem c hb)
    rw [List.cons_append, List.takeWhile_cons, List.dropWhile_cons, hc]
    exact ⟨congrArg (c :: ·) h1, h2⟩

theorem scale_eq (max r : ℕ) (e : Str) (suffixes : List SuffixMult) :
    scale max r e suffixes = (suffixes.find? (·.suffix = e)).map fun s =>
      if max / s.mult < r then none else some (r * s.mult % (max + 1)) := by
  induction suffixes with
  | nil => rfl
  | cons s suffixes ih =>
    rw [scale]
    by_cases h : s.suffix = e
    · rw [if_pos h, List.find?_cons_of_pos (by simpa using h)]
      rw [Option.map_some]
      by_cases hr : max / s.mult < r
      · rw [if_pos hr, if_pos hr]
      · rw [if_neg hr, if_neg hr]
    · rw [if_neg h, List.find?_cons_of_neg (by simpa using h), ih]

/-! ### The unsigned parsers accept what is in the range -/

/-- What the unsigned parsers need of the function that reads for them. -/
structure Reads (max : ℕ) (strto : Str → Strto) : Prop where
  value : ∀ s, decimal (s.takeWhile isDigit) ≤ max →
    strto s = ⟨decimal (s.takeWhile isDigit), false, s.dropWhile isDigit⟩
  overflow : ∀ s, max < decimal (s.takeWhile isDigit) → (strto s).errno = true

theorem reads_strtoull : Reads (2 ^ 64 - 1) strtoull where
  value := by
    intro s h
    exact if_pos (by omega)
  overflow := by
    intro s h
    have hs : strtoull s = ⟨2 ^ 64 - 1, true, s.dropWhile isDigit⟩ := if_neg (by omega)
    rw [hs]

theorem reads_bbStrtoui : Reads (2 ^ 32 - 1) bbStrtoui where
  value := by
    intro s h
    rw [bbStrtoui, reads_strtoull.value s (by omega)]
    exact if_neg (Nat.not_lt.mpr h)
  overflow := by
    intro s h
    rw [bbStrtoui]
    by_cases h64 : decimal (s.takeWhile isDigit) ≤ 2 ^ 64 - 1
    · rw [reads_strtoull.value s h64]
      simp only [h, if_true]
    · have herr := reads_strtoull.overflow s (by omega)
      show Strto.errno (if 2 ^ 32 - 1 < (strtoull s).r then _ else _) = true
      split
      · rfl
      · exact herr

theorem Magnitude.head {suffixes : List SuffixMult} {s : Str} {n : ℕ}
    (h : Magnitude suffixes s n) :
    ¬ (s.head? = some minusSign ∨ s.head? = some plusSign ∨ s.head?.any isSpace = true) := by
  obtain ⟨digits, suffix, mult, rfl, hne, hd, -, -, -⟩ := h
  cases digits with
  | nil => exact absurd rfl hne
  | cons c digits =>
    have hc := hd c (List.mem_cons_self ..)
    rw [List.cons_append, List.head?_cons]
    rintro (h | h | h)
    · rw [Option.some.inj h] at hc
      exact absurd hc (by decide)
    · rw [Option.some.inj h] at hc
      exact absurd hc (by decide)
    · have hspace : isSpace c = true := h
      simp only [isSpace, isDigit, Bool.or_eq_true, Bool.and_eq_true, decide_eq_true_eq,
        UInt8.le_iff_toNat_le, UInt8.reduceToNat, ← UInt8.toNat_inj] at hspace hc
      omega

theorem ite_ok_iff {lower upper k n : ℕ} {err : Die} :
    (if lower ≤ k ∧ k ≤ upper then (.ok k : Except Die ℕ) else .error err) = .ok n ↔
      n = k ∧ lower ≤ n ∧ n ≤ upper := by
  by_cases hk : lower ≤ k ∧ k ≤ upper
  · rw [if_pos hk, Except.ok.injEq]
    exact ⟨fun h => ⟨h.symm, h ▸ hk⟩, fun h => h.1.symm⟩
  · rw [if_neg hk]
    refine ⟨fun h => (by cases h), fun h => absurd ?_ hk⟩
    rw [← h.1]
    exact h.2

/-- The range check is about the product, which does not wrap around where it is made. -/
theorem finish_ok_iff {max : ℕ} (numstr : Str) {r : ℕ} (e : Str) {lower upper : ℕ}
    (hmax : upper ≤ max) (suffixes : List SuffixMult) (n : ℕ) :
    finish max numstr r e lower upper suffixes = .ok n ↔
      ∃ mult, multiplier suffixes e = some mult ∧ n = r * mult ∧ lower ≤ n ∧ n ≤ upper := by
  rw [finish, scale_eq, multiplier]
  cases suffixes.find? (·.suffix = e) with
  | none =>
    by_cases he : e = []
    · have hok := @ite_ok_iff lower upper r n (.notInRange numstr lower upper)
      simp only [Option.map_none, ne_eq, he, not_true_eq_false, if_false, if_true, hok]
      constructor
      · rintro ⟨rfl, h⟩
        exact ⟨1, rfl, (Nat.mul_one n).symm, h⟩
      · rintro ⟨mult, hm, hn, h⟩
        obtain rfl := Option.some.inj hm
        exact ⟨hn.trans (Nat.mul_one r), h⟩
    · simp only [Option.map_none, ne_eq, he, not_false_eq_true, if_true, if_false]
      constructor
      · intro h
        cases h
      · rintro ⟨mult, hm, -⟩
        cases hm
  | some m =>
    have hiff : max / m.mult < r ↔ max < r * m.mult := Nat.div_lt_iff_lt_mul m.pos
    by_cases hover : max / m.mult < r
    · simp only [Option.map_some, if_pos hover]
      refine ⟨fun h => (by cases h), ?_⟩
      rintro ⟨mult, hm, rfl, -, hup⟩
      obtain rfl := Option.some.inj hm
      exact absurd (hiff.mp hover) (by omega)
    · have hok :=
        @ite_ok_iff lower upper (r * m.mult % (max + 1)) n (.notInRange numstr lower upper)
      have hmod : r * m.mult % (max + 1) = r * m.mult := Nat.mod_eq_of_lt (by omega)
      rw [hmod] at hok
      simp only [Option.map_some, if_neg hover, hmod, hok]
      constructor
      · rintro ⟨hn, h⟩
        exact ⟨m.mult, rfl, hn, h⟩
      · rintro ⟨mult, hm, hn, h⟩
        obtain rfl := Option.some.inj hm
        exact ⟨hn, h⟩

theorem multiplier_pos {suffixes : List SuffixMult} {e : Str} {mult : ℕ}
    (h : multiplier suffixes e = some mult) : 0 < mult := by
  rw [multiplier] at h
  cases hf : suffixes.find? (·.suffix = e) with
  | none =>
    rw [hf] at h
    by_cases he : e = []
    · simp only [if_pos he] at h
      exact Option.some.inj h ▸ Nat.one_pos
    · simp only [if_neg he] at h
      cases h
  | some m =>
    rw [hf] at h
    exact Option.some.inj h ▸ m.pos

/-- **What an unsigned parser accepts.** -/
theorem xstrtouRange_ok_iff {max : ℕ} {strto : Str → Strto} (hread : Reads max strto)
    (s : Str) {lower upper : ℕ} (hmax : upper ≤ max) (suffixes : List SuffixMult) (n : ℕ) :
    xstrtouRange max strto s lower upper suffixes = .ok n ↔
      Magnitude suffixes s n ∧ lower ≤ n ∧ n ≤ upper := by
  constructor
  · intro h
    rw [xstrtouRange] at h
    split at h
    · cases h
    · by_cases hover : max < decimal (s.takeWhile isDigit)
      · simp only [hread.overflow s hover, true_or, if_true] at h
        cases h
      · rw [hread.value s (by omega)] at h
        simp only [Bool.false_eq_true, false_or] at h
        split at h
        · cases h
        · rename_i hne
          obtain ⟨mult, hm, hn, hrange⟩ := (finish_ok_iff s _ hmax suffixes n).mp h
          refine ⟨⟨s.takeWhile isDigit, s.dropWhile isDigit, mult,
            (List.takeWhile_append_dropWhile).symm, ?_, ?_, ?_, hm, hn⟩, hrange⟩
          · intro hnil
            apply hne
            have happ := List.takeWhile_append_dropWhile (p := isDigit) (l := s)
            rwa [hnil, List.nil_append] at happ
          · intro c hc
            exact List.mem_takeWhile_imp hc
          · have hhead := List.head?_dropWhile_not isDigit s
            cases hd : (s.dropWhile isDigit).head? with
            | none => rfl
            | some c =>
              rw [hd] at hhead
              exact hhead
  · rintro ⟨hm, hlo, hup⟩
    rw [xstrtouRange, if_neg hm.head]
    obtain ⟨digits, suffix, mult, rfl, hne, hd, hs, hmult, rfl⟩ := hm
    obtain ⟨htake, hdrop⟩ := split_digits hd hs
    have hle : decimal digits ≤ decimal digits * mult :=
      Nat.le_mul_of_pos_right _ (multiplier_pos hmult)
    have hvalue := hread.value (digits ++ suffix) (by rw [htake]; omega)
    rw [htake, hdrop] at hvalue
    have hsome : ¬ suffix = digits ++ suffix := by
      intro heq
      exact hne (List.append_left_eq_self.mp heq.symm)
    rw [hvalue]
    simp only [Bool.false_eq_true, false_or, if_neg hsome]
    exact (finish_ok_iff _ suffix hmax suffixes _).mpr ⟨mult, hmult, rfl, hlo, hup⟩

/-! ### The signed parsers -/

theorem applySign_eq {half n : ℕ} (hn : n < half) (numstr : Str) (lower upper : ℤ) :
    applySign half numstr lower upper n =
      let r : ℤ := if numstr.head? = some minusSign then -n else n
      if r < lower ∨ upper < r then .error (.notInRange numstr lower upper) else .ok r := by
  have h1 : (n : ℤ).bmod (2 * half) = n := Int.bmod_eq_of_le_mul_two (by omega) (by omega)
  have h2 : (-n : ℤ).bmod (2 * half) = -n := Int.bmod_eq_of_le_mul_two (by omega) (by omega)
  rw [applySign, h1, h2]

theorem ite_range_ok_iff {lower upper r v : ℤ} {err : Die} :
    (if r < lower ∨ upper < r then (.error err : Except Die ℤ) else .ok r) = .ok v ↔
      v = r ∧ lower ≤ v ∧ v ≤ upper := by
  by_cases h : r < lower ∨ upper < r
  · rw [if_pos h]
    refine ⟨fun he => (by cases he), ?_⟩
    rintro ⟨rfl, h1, h2⟩
    omega
  · rw [if_neg h, Except.ok.injEq]
    constructor
    · rintro rfl
      omega
    · intro hv
      exact hv.1.symm

theorem bind_ok_iff {x : Except Die ℕ} {f : ℕ → Except Die ℤ} {v : ℤ} :
    x.bind f = .ok v ↔ ∃ n, x = .ok n ∧ f n = .ok v := by
  cases x with
  | error e => exact ⟨fun h => (by cases h), fun ⟨n, hn, _⟩ => (by cases hn)⟩
  | ok n =>
    constructor
    · intro h
      exact ⟨n, rfl, h⟩
    · rintro ⟨m, hm, h⟩
      obtain rfl := Except.ok.inj hm
      exact h

section Signed

variable {half : ℕ} {xstrtou : Str → ℕ → ℕ → List SuffixMult → Except Die ℕ}
  {suffixes : List SuffixMult}

theorem xstrtoRange_ok_iff_magnitude (hhalf : 0 < half)
    (hx : ∀ s u n, u ≤ half → (xstrtou s 0 u suffixes = .ok n ↔
      Magnitude suffixes s n ∧ 0 ≤ n ∧ n ≤ u)) (numstr : Str) (lower upper v : ℤ) :
    xstrtoRange half xstrtou numstr lower upper suffixes = .ok v ↔
      ∃ n : ℕ, Magnitude suffixes (if numstr.head? = some plusSign ∨
          numstr.head? = some minusSign then numstr.tail else numstr) n ∧ n < half ∧
        v = (if numstr.head? = some minusSign then -(n : ℤ) else n) ∧ lower ≤ v ∧ v ≤ upper := by
  have hread (signed : Prop) [Decidable signed] (p : Str) (n : ℕ) :
      xstrtou p 0 (if signed ∧ p.head? = some minusSign then half else half - 1) suffixes = .ok n ↔
        Magnitude suffixes p n ∧ n < half := by
    by_cases h : signed ∧ p.head? = some minusSign
    · rw [if_pos h, hx p half n (Nat.le_refl _)]
      exact ⟨fun hm => absurd (Or.inl h.2) hm.1.head, fun hm => absurd (Or.inl h.2) hm.1.head⟩
    · rw [if_neg h, hx p (half - 1) n (Nat.sub_le _ _)]
      constructor
      · rintro ⟨hm, -, hn⟩
        exact ⟨hm, by omega⟩
      · rintro ⟨hm, hn⟩
        exact ⟨hm, Nat.zero_le _, by omega⟩
  rw [xstrtoRange, bind_ok_iff]
  constructor
  · rintro ⟨n, hn, hv⟩
    obtain ⟨hm, hlt⟩ := (hread _ _ n).mp hn
    rw [applySign_eq hlt] at hv
    obtain ⟨h1, h2⟩ := ite_range_ok_iff.mp hv
    exact ⟨n, hm, hlt, h1, h2⟩
  · rintro ⟨n, hm, hlt, h1, h2⟩
    refine ⟨n, (hread _ _ n).mpr ⟨hm, hlt⟩, ?_⟩
    rw [applySign_eq hlt]
    exact ite_range_ok_iff.mpr ⟨h1, h2⟩

theorem denotes_iff (numstr : Str) (v : ℤ) :
    Denotes suffixes numstr v ↔
      ∃ n : ℕ, Magnitude suffixes (if numstr.head? = some plusSign ∨
          numstr.head? = some minusSign then numstr.tail else numstr) n ∧
        v = (if numstr.head? = some minusSign then -(n : ℤ) else n) := by
  constructor
  · intro h
    cases h with
    | @bare s n hm =>
      have hhead := hm.head
      have hplus : ¬ (numstr.head? = some plusSign ∨ numstr.head? = some minusSign) := by
        rintro (h | h)
        · exact hhead (Or.inr (Or.inl h))
        · exact hhead (Or.inl h)
      rw [if_neg hplus]
      refine ⟨n, hm, ?_⟩
      rw [if_neg fun h => hplus (Or.inr h)]
    | @plus s n hm => exact ⟨n, hm, rfl⟩
    | @minus s n hm => exact ⟨n, hm, rfl⟩
  · rintro ⟨n, hm, rfl⟩
    cases numstr with
    | nil => exact .bare hm
    | cons c s =>
      by_cases hp : c = plusSign
      · subst hp
        exact .plus hm
      · by_cases hn : c = minusSign
        · subst hn
          exact .minus hm
        · have hhead : ¬ ((c :: s).head? = some plusSign ∨ (c :: s).head? = some minusSign) := by
            rintro (h | h)
            · exact hp (Option.some.inj h)
            · exact hn (Option.some.inj h)
          rw [if_neg hhead] at hm
          rw [if_neg fun h => hhead (Or.inr h)]
          exact .bare hm

/-- **What a signed parser accepts**: every value of its type in the range but the smallest
one of the type. -/
theorem xstrtoRange_ok_iff (hhalf : 0 < half)
    (hx : ∀ s u n, u ≤ half → (xstrtou s 0 u suffixes = .ok n ↔
      Magnitude suffixes s n ∧ 0 ≤ n ∧ n ≤ u)) (numstr : Str) (lower upper v : ℤ) :
    xstrtoRange half xstrtou numstr lower upper suffixes = .ok v ↔
      Denotes suffixes numstr v ∧ lower ≤ v ∧ v ≤ upper ∧ -half < v ∧ v < half := by
  rw [xstrtoRange_ok_iff_magnitude hhalf hx, denotes_iff]
  constructor
  · rintro ⟨n, hm, hn, hv, h1, h2⟩
    refine ⟨⟨n, hm, hv⟩, h1, h2, ?_⟩
    split at hv <;> omega
  · rintro ⟨⟨n, hm, hv⟩, h1, h2, h3, h4⟩
    refine ⟨n, hm, ?_, hv, h1, h2⟩
    split at hv <;> omega

/-- The parser is right exactly when the smallest value of the type is out of reach. -/
theorem xstrtoRange_right_iff (hhalf : 0 < half)
    (hx : ∀ s u n, u ≤ half → (xstrtou s 0 u suffixes = .ok n ↔
      Magnitude suffixes s n ∧ 0 ≤ n ∧ n ≤ u)) (numstr : Str) {lower upper : ℤ}
    (hlo : -half ≤ lower) (hle : lower ≤ upper) (hup : upper < half) :
    (∀ v, xstrtoRange half xstrtou numstr lower upper suffixes = .ok v ↔
        Denotes suffixes numstr v ∧ lower ≤ v ∧ v ≤ upper) ↔
      ¬ (lower = -half ∧ Denotes suffixes numstr (-half)) := by
  constructor
  · rintro h ⟨rfl, hd⟩
    have hok := (h (-half)).mpr ⟨hd, Int.le_refl _, hle⟩
    have hlt := ((xstrtoRange_ok_iff hhalf hx numstr _ upper _).mp hok).2.2.2.1
    omega
  · intro h v
    rw [xstrtoRange_ok_iff hhalf hx]
    constructor
    · rintro ⟨hd, h1, h2, -⟩
      exact ⟨hd, h1, h2⟩
    · rintro ⟨hd, h1, h2⟩
      refine ⟨hd, h1, h2, ?_, by omega⟩
      by_contra hv
      have heq : v = -half := by omega
      rw [heq] at hd h1
      exact h ⟨by omega, hd⟩

end Signed

theorem xstrtouRangeSfx_ok_iff (suffixes : List SuffixMult) (s : Str) (u n : ℕ)
    (hu : u ≤ 2 ^ 31) :
    xstrtouRangeSfx s 0 u suffixes = .ok n ↔ Magnitude suffixes s n ∧ 0 ≤ n ∧ n ≤ u :=
  xstrtouRange_ok_iff reads_bbStrtoui s (Nat.le_trans hu (by decide)) suffixes n

theorem xstrtoullRangeSfx_ok_iff (suffixes : List SuffixMult) (s : Str) (u n : ℕ)
    (hu : u ≤ 2 ^ 63) :
    xstrtoullRangeSfx s 0 u suffixes = .ok n ↔ Magnitude suffixes s n ∧ 0 ≤ n ∧ n ≤ u :=
  xstrtouRange_ok_iff reads_strtoull s (Nat.le_trans hu (by decide)) suffixes n

/-- **The range of the signed parsers.**  They return what the string denotes if that is in
the range, and end in the error exit otherwise, for every string except one that denotes the
smallest value of the type when that is in the range. -/
theorem signed_range_iff (suffixes : List SuffixMult) (numstr : Str) {li ui ll ul : ℤ}
    (hli : -2 ^ 31 ≤ li) (hi : li ≤ ui) (hui : ui < 2 ^ 31)
    (hll : -2 ^ 63 ≤ ll) (hl : ll ≤ ul) (hul : ul < 2 ^ 63) :
    ((∀ v, xstrtoiRangeSfx numstr li ui suffixes = .ok v ↔
        Denotes suffixes numstr v ∧ li ≤ v ∧ v ≤ ui) ↔
      ¬ (li = -2 ^ 31 ∧ Denotes suffixes numstr (-2 ^ 31))) ∧
    ((∀ v, xstrtollRangeSfx numstr ll ul suffixes = .ok v ↔
        Denotes suffixes numstr v ∧ ll ≤ v ∧ v ≤ ul) ↔
      ¬ (ll = -2 ^ 63 ∧ Denotes suffixes numstr (-2 ^ 63))) := by
  constructor
  · exact xstrtoRange_right_iff (by decide) (xstrtouRangeSfx_ok_iff suffixes) numstr hli hi hui
  · exact xstrtoRange_right_iff (by decide) (xstrtoullRangeSfx_ok_iff suffixes) numstr hll hl hul

/-- `-7` in the whole range of `int`. -/
theorem signed_range_iff_seven :
    (∀ v, xstrtoiRangeSfx [45, 55] (-2 ^ 31) (2 ^ 31 - 1) [] = .ok v ↔
        Denotes [] [45, 55] v ∧ -2 ^ 31 ≤ v ∧ v ≤ 2 ^ 31 - 1) ↔
      ¬ ((-2 ^ 31 : ℤ) = -2 ^ 31 ∧ Denotes [] [45, 55] (-2 ^ 31)) :=
  (signed_range_iff [] [45, 55] (show (-2 ^ 31 : ℤ) ≤ -2 ^ 31 by decide)
    (show (-2 ^ 31 : ℤ) ≤ 2 ^ 31 - 1 by decide) (by decide)
    (show (-2 ^ 63 : ℤ) ≤ 0 by decide) (show (0 : ℤ) ≤ 0 by decide) (by decide)).1

/-- The smallest `int`, `-2147483648`, is refused. -/
theorem smallest_int_refused :
    ¬ (xstrtoiRangeSfx [45, 50, 49, 52, 55, 52, 56, 51, 54, 52, 56] (-2 ^ 31) (2 ^ 31 - 1) [] =
          .ok (-2 ^ 31) ↔
        Denotes [] [45, 50, 49, 52, 55, 52, 56, 51, 54, 52, 56] (-2 ^ 31) ∧
          (-2 ^ 31 : ℤ) ≤ -2 ^ 31 ∧ (-2 ^ 31 : ℤ) ≤ 2 ^ 31 - 1) := by
  have hdigits : [50, 49, 52, 55, 52, 56, 51, 54, 52, 56].all isDigit = true := by decide
  have hm : Magnitude [] [50, 49, 52, 55, 52, 56, 51, 54, 52, 56] (2 ^ 31) :=
    ⟨[50, 49, 52, 55, 52, 56, 51, 54, 52, 56], [], 1, rfl, by decide, List.all_eq_true.mp hdigits,
      rfl, rfl, by decide⟩
  intro h
  have hok := h.mpr ⟨.minus hm, by decide, by decide⟩
  have hlt := ((xstrtoRange_ok_iff (by decide) (xstrtouRangeSfx_ok_iff []) _ _ _ _).mp hok).2.2.2.1
  exact absurd hlt (by decide)

end Rustybox.Numbers
