import Mathlib.Data.List.TakeWhile
import Rustybox.Mode.Steps

/-!
# `bb_parse_mode` and `chmod`

A string is an octal number, a symbolic mode or an error (`Follows`).  The parser is right
about which of them it is; the mode of a symbolic string is right as long as no action takes
permissions from bits that its own `=` clears (`Smooth`).  Where an action does, the string
that ends with it has the wrong mode (`bbParseMode_follows_iff`).
-/

namespace Rustybox.Mode

open Rustybox.Rust

/-- The string is the octal number `n`. -/
def Octal (s : Str) (n : ℕ) : Prop :=
  s ≠ [] ∧ (∀ c ∈ s, 48 ≤ c ∧ c ≤ 55) ∧
    n = Nat.ofDigits 8 (s.map fun c => (c - 48).toNat).reverse

/-- What `chmod` makes of a symbolic mode: its actions, from left to right. -/
def chmod (umask mode : ModeT) (steps : List (List Who × Action)) : ModeT :=
  steps.foldl (specStep umask) mode

/-- `bb_parse_mode` treats this string, for this mode and umask, as `chmod` does. -/
structure Follows (umask : ModeT) (s : Str) (mode : ModeT) : Prop where
  error : bbParseMode umask s mode = -1 ↔
    ¬ (∃ n, n ≤ 0o7777 ∧ Octal s n) ∧ ¬ ∃ m : Symbolic, m.render = s
  octal : ∀ n, n ≤ 0o7777 → Octal s n → bbParseMode umask s mode = n
  symbolic : ∀ m : Symbolic, m.render = s →
    bbParseMode umask s mode = (chmod umask mode m.steps).toInt
  outside : ∀ m : Symbolic, m.render = s →
    BitVec.ofInt 32 (bbParseMode umask s mode) &&& ~~~0o7777 = mode &&& ~~~0o7777

/-- No action takes permissions from bits that it clears itself, and on no way is the mode
one with all bits set, which as a `c_int` is -1. -/
def Smooth (umask : ModeT) : ModeT → List (List Who × Action) → Prop
  | mode, [] => mode ≠ -1
  | mode, step :: steps =>
    mode ≠ -1 ∧ Unharmed umask mode step ∧ Smooth umask (specStep umask mode step) steps

/-- The string itself, or a mode whose actions are the first ones of this mode. -/
def Beginning (s' s : Str) : Prop :=
  s' = s ∨ ∃ m m' : Symbolic, m.render = s ∧ m'.render = s' ∧ m'.steps <+: m.steps

/-! ### Octal numbers -/

theorem isOctal_iff (c : UInt8) : isOctal c = true ↔ 48 ≤ c ∧ c ≤ 55 := by
  have hlt := c.toNat_lt
  simp only [isOctal, decide_eq_true_eq, UInt8.lt_iff_toNat_lt, UInt8.le_iff_toNat_le,
    UInt8.toNat_sub, UInt8.reduceToNat]
  omega

theorem digit_facts {c : UInt8} (hc : isOctal c = true) :
    c ≠ comma ∧ whoMask.lookup c = none ∧ c ≠ plusSign ∧ c ≠ minusSign ∧ c ≠ equalSign := by
  refine ⟨?_, ?_, ?_, ?_, ?_⟩
  · rintro rfl
    exact absurd hc (by decide)
  · by_contra h
    obtain ⟨mask, hmask⟩ := Option.ne_none_iff_exists'.mp h
    obtain ⟨w, rfl⟩ := who_of_lookup hmask
    cases w with
    | all => exact absurd hc (by decide)
    | one k => cases k <;> exact absurd hc (by decide)
  · rintro rfl
    exact absurd hc (by decide)
  · rintro rfl
    exact absurd hc (by decide)
  · rintro rfl
    exact absurd hc (by decide)

theorem parseClauses_digit (umask mode : ModeT) {c : UInt8} (hc : isOctal c = true) (s : Str) :
    parseClauses umask mode (c :: s) = none := by
  obtain ⟨hcomma, hwho, hop⟩ := digit_facts hc
  have hact : parseAction umask 0 mode (c :: s) = none := by
    rw [parseAction, if_pos hop]
  have hacts : parseActions umask 0 mode (c :: s) = none := by
    rw [parseActions.eq_def]
    split
    · rfl
    · rename_i h
      rw [hact] at h
      cases h
  have hclause : parseClause umask mode (c :: s) = none := by
    rw [parseClause, parseWho, hwho, Option.bind_some, hacts]
  rw [parseClauses.eq_def]
  simp only [if_neg hcomma]
  rw [hclause]

theorem not_symbolic_of_digit {c : UInt8} (hc : isOctal c = true) (s : Str) :
    ¬ ∃ m : Symbolic, m.render = c :: s :=
  (parseClauses_eq_none_iff 0 0 (c :: s)).mp (parseClauses_digit 0 0 hc s)

theorem strtoul8_rest (s : Str) : (strtoul8 s).2 = [] ↔ ∀ c ∈ s, 48 ≤ c ∧ c ≤ 55 := by
  rw [strtoul8, List.dropWhile_eq_nil_iff]
  simp only [isOctal_iff]

theorem strtoul8_digits {s : Str} (h : ∀ c ∈ s, 48 ≤ c ∧ c ≤ 55) :
    (strtoul8 s).1 = min (Nat.ofDigits 8 (s.map fun c => (c - 48).toNat).reverse) (2 ^ 64 - 1) := by
  have hall : s.takeWhile isOctal = s :=
    List.takeWhile_eq_self_iff.mpr fun c hc => (isOctal_iff c).mpr (h c hc)
  rw [strtoul8, hall]

theorem bbParseMode_digit (umask mode : ModeT) {c : UInt8} (hc : isOctal c = true) (s : Str) :
    (∀ n, n ≤ 0o7777 → Octal (c :: s) n → bbParseMode umask (c :: s) mode = n) ∧
      ((¬ ∃ n, n ≤ 0o7777 ∧ Octal (c :: s) n) → bbParseMode umask (c :: s) mode = -1) := by
  have hif : (c :: s).head?.getD 0 - 48 < 8 := of_decide_eq_true hc
  rw [bbParseMode, if_pos hif]
  constructor
  · rintro n hn ⟨-, hdigits, rfl⟩
    have hvalue := strtoul8_digits hdigits
    rw [Nat.min_eq_left (by omega)] at hvalue
    have hgood : ¬ ((strtoul8 (c :: s)).2 ≠ [] ∨ 0o7777 < (strtoul8 (c :: s)).1) := by
      rw [(strtoul8_rest _).mpr hdigits, hvalue]
      simp only [ne_eq, not_true_eq_false, false_or]
      omega
    rw [hvalue] at hgood
    simp only [hvalue, if_neg hgood]
  · intro hno
    refine if_pos ?_
    by_cases hdigits : ∀ b ∈ c :: s, 48 ≤ b ∧ b ≤ 55
    · right
      by_contra hle
      rw [strtoul8_digits hdigits] at hle
      exact hno ⟨_, by omega, List.cons_ne_nil _ _, hdigits, rfl⟩
    · exact Or.inl (mt (strtoul8_rest _).mp hdigits)

/-! ### Symbolic modes -/

theorem bbParseMode_of_not_digit (umask mode : ModeT) {s : Str}
    (h : ∀ c, s.head? = some c → isOctal c = false) :
    bbParseMode umask s mode = match parseClauses umask mode s with
      | none => -1
      | some newMode => newMode.toInt := by
  refine if_neg ?_
  cases s with
  | nil => decide
  | cons c s => exact of_decide_eq_false (h c rfl)

theorem bbParseMode_symbolic (umask mode : ModeT) (m : Symbolic) :
    bbParseMode umask m.render mode = (m.steps.foldl (codeStep umask) mode).toInt := by
  rw [bbParseMode_of_not_digit, parseClauses_render]
  intro c hc
  by_contra hdigit
  obtain ⟨s, hs⟩ : ∃ s, m.render = c :: s := by
    cases hr : m.render with
    | nil => simp [hr] at hc
    | cons b s =>
      rw [hr] at hc
      obtain rfl := Option.some.inj hc
      exact ⟨s, rfl⟩
  exact not_symbolic_of_digit (by simpa using hdigit) s ⟨m, hs⟩

/-- Neither a number nor a symbolic mode. -/
theorem bbParseMode_error (umask mode : ModeT) {s : Str}
    (hoct : ¬ ∃ n, n ≤ 0o7777 ∧ Octal s n) (hsym : ¬ ∃ m : Symbolic, m.render = s) :
    bbParseMode umask s mode = -1 := by
  by_cases h : ∃ c r, s = c :: r ∧ isOctal c = true
  · obtain ⟨c, r, rfl, hc⟩ := h
    exact (bbParseMode_digit umask mode hc r).2 hoct
  · rw [bbParseMode_of_not_digit, (parseClauses_eq_none_iff umask mode s).mpr hsym]
    intro c hc
    cases s with
    | nil => cases hc
    | cons b r =>
      obtain rfl := Option.some.inj hc
      by_contra hb
      exact h ⟨b, r, rfl, by simpa using hb⟩

/-- A number is no symbolic mode. -/
theorem Octal.digit {s : Str} {n : ℕ} (h : Octal s n) :
    ∃ c r, s = c :: r ∧ isOctal c = true := by
  obtain ⟨hne, hall, -⟩ := h
  cases s with
  | nil => exact absurd rfl hne
  | cons c r => exact ⟨c, r, rfl, (isOctal_iff c).mpr (hall c (List.mem_cons_self ..))⟩

/-! ### Runs -/

theorem toInt_eq_neg_one_iff (m : ModeT) : m.toInt = -1 ↔ m = -1 := by
  have hone : (-1 : ModeT).toInt = -1 := by decide
  rw [← hone, BitVec.toInt_inj]

/-- A run along which nothing is harmed: the code computes the mode that `chmod` gives. -/
theorem Smooth.run {umask mode : ModeT} {steps : List (List Who × Action)}
    (h : Smooth umask mode steps) :
    steps.foldl (codeStep umask) mode = chmod umask mode steps ∧
      chmod umask mode steps ≠ -1 := by
  induction steps generalizing mode with
  | nil => exact ⟨rfl, h⟩
  | cons step steps ih =>
    obtain ⟨-, hstep, hrest⟩ := h
    obtain ⟨h1, h2⟩ := ih hrest
    refine ⟨?_, h2⟩
    rw [List.foldl_cons, (codeStep_eq_iff umask mode step).mpr hstep, h1]
    rfl

theorem Smooth.start {umask mode : ModeT} {steps : List (List Who × Action)}
    (h : Smooth umask mode steps) {l : List (List Who × Action)} (hl : l <+: steps) :
    Smooth umask mode l := by
  induction l generalizing mode steps with
  | nil =>
    cases steps with
    | nil => exact h
    | cons step steps => exact h.1
  | cons a l ih =>
    obtain ⟨rest, rfl⟩ := hl
    obtain ⟨h1, h2, h3⟩ := h
    exact ⟨h1, h2, ih h3 ⟨rest, rfl⟩⟩

/-- When the code is right about every beginning of a run, nothing is harmed along it. -/
theorem smooth_of_prefixes {umask mode : ModeT} {steps : List (List Who × Action)}
    (h : ∀ l, l <+: steps →
      l.foldl (codeStep umask) mode = chmod umask mode l ∧ chmod umask mode l ≠ -1) :
    Smooth umask mode steps := by
  induction steps generalizing mode with
  | nil => exact (h [] (List.prefix_refl _)).2
  | cons step steps ih =>
    have hstep : codeStep umask mode step = specStep umask mode step :=
      (h [step] ⟨steps, rfl⟩).1
    refine ⟨(h [] List.nil_prefix).2, (codeStep_eq_iff umask mode step).mp hstep, ih ?_⟩
    intro l hl
    obtain ⟨h1, h2⟩ := h (step :: l) ((List.cons_prefix_cons).mpr ⟨rfl, hl⟩)
    rw [List.foldl_cons, hstep] at h1
    exact ⟨h1, h2⟩

theorem chmod_outside (umask mode : ModeT) (steps : List (List Who × Action)) :
    chmod umask mode steps &&& ~~~0o7777 = mode &&& ~~~0o7777 := by
  induction steps generalizing mode with
  | nil => rfl
  | cons step steps ih =>
    show chmod umask (specStep umask mode step) steps &&& ~~~0o7777 = _
    rw [ih, specStep_outside]

/-- A mode whose clauses have one action each. -/
def ofSteps : List (List Who × Action) → Symbolic
  | [] => ⟨none, []⟩
  | step :: steps => ⟨some ⟨step.1, step.2, []⟩, steps.map fun s => some ⟨s.1, s.2, []⟩⟩

theorem steps_ofSteps (l : List (List Who × Action)) : (ofSteps l).steps = l := by
  have hmore (l : List (List Who × Action)) :
      (l.map fun s => some (Clause.mk s.1 s.2 [])).flatMap clauseSteps = l := by
    induction l with
    | nil => rfl
    | cons step l ih =>
      rw [List.map_cons, List.flatMap_cons, ih]
      rfl
  cases l with
  | nil => rfl
  | cons step l =>
    rw [ofSteps, Symbolic.steps, hmore]
    rfl

/-- A string is treated well when nothing is harmed in the mode that it says. -/
theorem follows_of_smooth {umask mode : ModeT} {s : Str}
    (h : ∀ m : Symbolic, m.render = s → Smooth umask mode m.steps) : Follows umask s mode := by
  have hoctal (n : ℕ) (hn : n ≤ 0o7777) (ho : Octal s n) : bbParseMode umask s mode = n := by
    obtain ⟨c, r, rfl, hc⟩ := ho.digit
    exact (bbParseMode_digit umask mode hc r).1 n hn ho
  have hsym (m : Symbolic) (hm : m.render = s) :
      bbParseMode umask s mode = (chmod umask mode m.steps).toInt := by
    rw [← hm, bbParseMode_symbolic, (h m hm).run.1]
  refine ⟨⟨?_, fun hno => bbParseMode_error umask mode hno.1 hno.2⟩, hoctal, hsym, ?_⟩
  · intro herr
    constructor
    · rintro ⟨n, hn, ho⟩
      have hval := hoctal n hn ho
      omega
    · rintro ⟨m, hm⟩
      rw [hsym m hm] at herr
      exact (h m hm).run.2 ((toInt_eq_neg_one_iff _).mp herr)
  · intro m hm
    rw [hsym m hm, BitVec.ofInt_toInt, chmod_outside]

/-- **When `bb_parse_mode` does what `chmod` says.**  It does so for a string and for every
string that ends with an earlier action of it, exactly when no action of the string takes
permissions from bits that it clears itself.  Numbers and errors need no condition. -/
theorem bbParseMode_follows_iff (umask mode : ModeT) (s : Str) :
    (∀ s', Beginning s' s → Follows umask s' mode) ↔
      ∀ m : Symbolic, m.render = s → Smooth umask mode m.steps := by
  constructor
  · intro h m hm
    refine smooth_of_prefixes fun l hl => ?_
    have hsteps := steps_ofSteps l
    have hf := h (ofSteps l).render
      (Or.inr ⟨m, ofSteps l, hm, rfl, by rw [hsteps]; exact hl⟩)
    have hsym := hf.symbolic (ofSteps l) rfl
    have hcode := bbParseMode_symbolic umask mode (ofSteps l)
    rw [hsteps] at hsym hcode
    refine ⟨BitVec.eq_of_toInt_eq (hcode.symm.trans hsym), fun hneg => ?_⟩
    rw [(toInt_eq_neg_one_iff _).mpr hneg] at hsym
    exact (hf.error.mp hsym).2 ⟨ofSteps l, rfl⟩
  · rintro h s' (rfl | ⟨m, m', hm, rfl, hpre⟩)
    · exact follows_of_smooth h
    · refine follows_of_smooth fun k hk => ?_
      rw [Symbolic.render_inj hk]
      exact (h m hm).start hpre

/-- `u=u` takes the owner's permissions away. -/
theorem not_follows_owner_owner : ¬ Follows 0o22 [117, 61, 117] 0o100644 := by
  intro h
  have hm := h.symbolic ⟨some ⟨[.one .u], ⟨.equal, .copy .u⟩, []⟩, []⟩ rfl
  have hcode := bbParseMode_symbolic 0o22 0o100644 ⟨some ⟨[.one .u], ⟨.equal, .copy .u⟩, []⟩, []⟩
  exact absurd (hcode.symm.trans hm) (by decide)

end Rustybox.Mode
