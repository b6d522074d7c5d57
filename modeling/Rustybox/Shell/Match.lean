import Rustybox.Rust.CStr
import Mathlib.Computability.Language
import Mathlib.Data.List.TakeWhile
import Mathlib.Data.List.Infix

/-!
# `${v#p}`, `${v##p}`, `${v%p}` and `${v%%p}`

What a pattern of the shell matches, as the language of its strings.  A `*` at its start, or one
that is not quoted at its end, lets a matching string grow there.

`scan_and_match` looks for the half of a string that matches a pattern.  For a star at the right end
of the pattern it gives up after the first position, and here it is shown that it loses nothing by
that.  The length of the string is a `c_uint` in it: what lies beyond is looked at by no scan.
-/

namespace Rustybox.Shell.Pattern

open Rust

def backslash : UInt8 := 92
def question : UInt8 := 63
def opening : UInt8 := 91
def closing : UInt8 := 93

/-- What the locale decides: what `?` and a bracket expression match.  `bracket` is given the text
after a `[` and finds the text after the `]`, or that there is no bracket expression.  What a
backslash at the end matches is left open. -/
structure Locale where
  anyChar : Language UInt8
  bracket : Str → Option (Language UInt8 × Str)
  lastBackslash : Language UInt8
  ends : ∀ {text l rest}, bracket text = some (l, rest) → ∃ inner, text = inner ++ closing :: rest

/-- The strings that the pattern matches. -/
noncomputable def denotes (locale : Locale) : Str → Language UInt8
  | [] => 1
  | c :: p =>
    if c = star then ⊤ * denotes locale p
    else if c = question then locale.anyChar * denotes locale p
    else if c = backslash then
      match p with
      | [] => locale.lastBackslash
      | c :: p => {[c]} * denotes locale p
    else if c = opening then
      match _h : locale.bracket p with
      | some (l, rest) => l * denotes locale rest
      | none => {[c]} * denotes locale p
    else {[c]} * denotes locale p
  termination_by p => p.length
  decreasing_by
    all_goals try simp only [List.length_cons]
    all_goals try omega
    obtain ⟨inner, hinner⟩ := locale.ends _h
    subst hinner
    simp only [List.length_append, List.length_cons]
    omega

/-! ### Backslashes at the end -/

/-- How many backslashes the string ends in. -/
def run (s : Str) : ℕ := (s.reverse.takeWhile (· = backslash)).length

theorem run_append_of_mem {front back : Str} (h : ∃ c ∈ back, c ≠ backslash) :
    run (front ++ back) = run back := by
  obtain ⟨c, hc, hne⟩ := h
  rw [run, run, List.reverse_append, List.takeWhile_append]
  rw [if_neg]
  intro hall
  have hprefix := List.takeWhile_prefix (l := back.reverse) (· = backslash)
  have heq := hprefix.eq_of_length hall
  have hmem : c ∈ back.reverse.takeWhile (· = backslash) := by
    rw [heq]
    exact List.mem_reverse.mpr hc
  exact hne (by simpa using List.mem_takeWhile_imp hmem)

theorem run_replicate (n : ℕ) : run (List.replicate n backslash) = n := by
  simp [run]

theorem run_cons_of_ne {c : UInt8} (hc : c ≠ backslash) (s : Str) : run (c :: s) = run s := by
  by_cases hall : ∃ d ∈ s, d ≠ backslash
  · rw [show c :: s = [c] ++ s from rfl, run_append_of_mem hall]
  · have hs : s = List.replicate s.length backslash :=
      List.eq_replicate_iff.mpr ⟨rfl, fun d hd => by_contra fun hne => hall ⟨d, hd, hne⟩⟩
    rw [hs, run_replicate]
    simp [run, hc]

/-- A backslash and what it quotes. -/
theorem run_quoted (c : UInt8) (s : Str) : run (backslash :: c :: s) % 2 = run s % 2 := by
  by_cases hall : ∃ d ∈ s, d ≠ backslash
  · rw [show backslash :: c :: s = [backslash, c] ++ s from rfl, run_append_of_mem hall]
  · have hs : s = List.replicate s.length backslash :=
      List.eq_replicate_iff.mpr ⟨rfl, fun d hd => by_contra fun hne => hall ⟨d, hd, hne⟩⟩
    by_cases hc : c = backslash
    · have htwo : backslash :: c :: s = List.replicate (s.length + 2) backslash := by
        rw [hc, List.replicate_succ, List.replicate_succ, ← hs]
      rw [htwo, run_replicate, hs, run_replicate, List.length_replicate]
      omega
    · have hmem : ∃ d ∈ c :: s, d ≠ backslash := ⟨c, List.mem_cons_self, hc⟩
      rw [show backslash :: c :: s = [backslash] ++ c :: s from rfl, run_append_of_mem hmem,
        run_cons_of_ne hc]

/-! ### Stars -/

variable {locale : Locale}

theorem denotes_star (p : Str) : denotes locale (star :: p) = ⊤ * denotes locale p := by
  rw [denotes.eq_def]
  exact if_pos rfl

theorem append_mem_of_star {l : Language UInt8} {s : Str} (front : Str)
    (h : s ∈ (⊤ : Language UInt8) * l) : front ++ s ∈ (⊤ : Language UInt8) * l := by
  obtain ⟨a, -, b, hb, rfl⟩ := Language.mem_mul.mp h
  refine Language.mem_mul.mpr ⟨front ++ a, trivial, b, hb, ?_⟩
  rw [List.append_assoc]

theorem append_mem_of_star_last {l : Language UInt8} {s : Str} (back : Str)
    (h : s ∈ l * (⊤ : Language UInt8)) : s ++ back ∈ l * (⊤ : Language UInt8) := by
  obtain ⟨a, ha, b, -, rfl⟩ := Language.mem_mul.mp h
  refine Language.mem_mul.mpr ⟨a, ha, b ++ back, trivial, ?_⟩
  rw [List.append_assoc]

theorem mul_star_last {d : Language UInt8} (l : Language UInt8)
    (h : ∃ m, d = m * (⊤ : Language UInt8)) : ∃ m, l * d = m * (⊤ : Language UInt8) := by
  obtain ⟨m, rfl⟩ := h
  exact ⟨l * m, (mul_assoc l m ⊤).symm⟩

/-- A star at the end of the pattern comes after the `]` of a bracket expression. -/
theorem star_after_bracket {p inner rest : Str} (h : p ++ [star] = inner ++ closing :: rest) :
    ∃ rest', rest = rest' ++ [star] ∧ p = inner ++ closing :: rest' := by
  rcases List.eq_nil_or_concat' rest with rfl | ⟨rest', d, rfl⟩
  · obtain ⟨-, hlast⟩ := List.append_inj' h rfl
    exact absurd hlast (by decide)
  · rw [← List.cons_append, ← List.append_assoc] at h
    obtain ⟨hfront, hlast⟩ := List.append_inj' h rfl
    exact ⟨rest', by rw [hlast], hfront⟩

/-- After an even number of backslashes a star at the end is not quoted. -/
theorem denotes_star_last (p : Str) (h : run p % 2 = 0) :
    ∃ l, denotes locale (p ++ [star]) = l * (⊤ : Language UInt8) := by
  induction hn : p.length using Nat.strongRecOn generalizing p with
  | ind n ih =>
    subst hn
    cases p with
    | nil =>
      refine ⟨1, ?_⟩
      rw [List.nil_append, denotes_star, denotes, mul_one, one_mul]
    | cons c p =>
      have hrest : c ≠ backslash → ∃ l, denotes locale (p ++ [star]) = l * (⊤ : Language UInt8) := by
        intro hc
        rw [run_cons_of_ne hc] at h
        exact ih p.length (Nat.lt_succ_self _) p h rfl
      rw [List.cons_append, denotes.eq_def]
      dsimp only
      split
      · rename_i hstar
        exact mul_star_last _ (hrest (by rw [hstar]; decide))
      · split
        · rename_i hquestion
          exact mul_star_last _ (hrest (by rw [hquestion]; decide))
        · split
          · rename_i hbackslash
            subst hbackslash
            cases p with
            | nil => exact absurd h (by decide)
            | cons c p =>
              rw [run_quoted] at h
              exact mul_star_last _ (ih p.length (by simp only [List.length_cons]; omega) p h rfl)
          · rename_i hbackslash
            split
            · split
              · rename_i l rest hbracket
                obtain ⟨inner, hinner⟩ := locale.ends hbracket
                obtain ⟨rest, rfl, rfl⟩ := star_after_bracket hinner
                have hrun : run rest % 2 = 0 := by
                  rw [run_cons_of_ne hbackslash, run_append_of_mem ⟨closing, List.mem_cons_self, by decide⟩,
                    run_cons_of_ne (by decide)] at h
                  exact h
                refine mul_star_last _ (ih rest.length ?_ rest hrun rfl)
                simp only [List.length_cons, List.length_append]
                omega
              · exact mul_star_last _ (hrest hbackslash)
            · exact mul_star_last _ (hrest hbackslash)

end Rustybox.Shell.Pattern

/-! ## Looking for the match -/

namespace Rustybox.Shell.Match

open Rust Pattern

def SCAN_MOVE_FROM_LEFT : ℕ := 1
def SCAN_MOVE_FROM_RIGHT : ℕ := 2
def SCAN_MATCH_LEFT_HALF : ℕ := 4
def SCAN_MATCH_RIGHT_HALF : ℕ := 8

/-- The string at the start of the memory. -/
def cstr (mem : List UInt8) : Str := mem.takeWhile (· ≠ 0)

/-- `early_exit` flipped for each backslash. -/
def flipped : Str → Bool → Bool
  | [], early => early
  | c :: p, early => if c = backslash then flipped p (!early) else early

def earlyExit (pattern : Str) (flags : ℕ) : Bool :=
  let early := flags = SCAN_MOVE_FROM_LEFT + SCAN_MATCH_RIGHT_HALF && pattern.head? = some star
  if flags &&& SCAN_MOVE_FROM_LEFT ≠ 0 then early
  else if flags = SCAN_MOVE_FROM_RIGHT + SCAN_MATCH_LEFT_HALF then
    match pattern.reverse with
    | c :: p => if c = star then flipped p true else early
    | [] => early
  else early

section

variable (fnmatch : Str → Str → Bool)

/-- Does the half of the string match?  The left half is cut off by a NUL in the string. -/
def matchHalf (pattern : Str) (flags loc : ℕ) (mem : List UInt8) : Bool × List UInt8 :=
  if flags &&& SCAN_MATCH_LEFT_HALF ≠ 0 then
    let c := mem.getD loc 0
    let mem := mem.set loc 0
    let r := fnmatch pattern (cstr mem)
    (r, mem.set loc c)
  else (fnmatch pattern (cstr (mem.drop loc)), mem)

/-- The loop with so many positions left, the last of them `len` or 0. -/
def scan (pattern : Str) (flags : ℕ) (early : Bool) (len : ℕ) :
    ℕ → List UInt8 → Option ℕ × List UInt8
  | 0, mem => (none, mem)
  | left + 1, mem =>
    let loc := if flags &&& SCAN_MOVE_FROM_LEFT ≠ 0 then len - left else left
    let (r, mem) := matchHalf fnmatch pattern flags loc mem
    if r then (some loc, mem)
    else if early then (none, mem)
    else scan pattern flags early len left mem

/-- `scan_and_match`: the offset of what it returns, and the memory. -/
def scanAndMatch (mem : List UInt8) (pattern : Str) (flags : ℕ) : Option ℕ × List UInt8 :=
  let len := (cstr mem).length % 2 ^ 32
  scan fnmatch pattern flags (earlyExit pattern flags) len (len + 1) mem

/-- Does the half of the string at the position match? -/
def half (s pattern : Str) (flags loc : ℕ) : Bool :=
  fnmatch pattern (if flags &&& SCAN_MATCH_LEFT_HALF ≠ 0 then s.take loc else s.drop loc)

/-- The positions up to `len` in the order of the scan. -/
def scanned (flags len : ℕ) : List ℕ :=
  if flags &&& SCAN_MOVE_FROM_LEFT ≠ 0 then List.range (len + 1) else (List.range (len + 1)).reverse

/-- The first position that matches, of all of the string. -/
def firstMatch (s pattern : Str) (flags : ℕ) : Option ℕ :=
  (scanned flags s.length).find? (half fnmatch s pattern flags)

end

variable {fnmatch : Str → Str → Bool} {s pattern rest : Str} {flags : ℕ}

/-! ### The loop -/

theorem cstr_append (hs : 0 ∉ s) (rest : Str) : cstr (s ++ 0 :: rest) = s := by
  have hall : ∀ c ∈ s, decide (c ≠ 0) = true := fun c hc =>
    decide_eq_true (ne_of_mem_of_not_mem hc hs)
  rw [cstr, List.takeWhile_append_of_pos hall, List.takeWhile_cons_of_neg (by simp),
    List.append_nil]

theorem matchHalf_eq (hs : 0 ∉ s) {loc : ℕ} (hloc : loc ≤ s.length) :
    matchHalf fnmatch pattern flags loc (s ++ 0 :: rest) =
      (half fnmatch s pattern flags loc, s ++ 0 :: rest) := by
  rw [matchHalf, half]
  split
  · have hset : (s ++ 0 :: rest).set loc 0 =
        s.take loc ++ 0 :: (s ++ 0 :: rest).drop (loc + 1) := by
      rw [List.set_eq_take_cons_drop _ (by simp only [List.length_append]; simp; omega),
        List.take_append_of_le_length hloc]
    have htake : 0 ∉ s.take loc := fun h => hs (List.mem_of_mem_take h)
    dsimp only
    rw [List.set_set, hset, cstr_append htake]
    congr 1
    rw [← List.getElem_eq_getD 0 (h := by simp; omega), List.set_getElem_self]
  · have hdrop : (s ++ 0 :: rest).drop loc = s.drop loc ++ 0 :: rest :=
      List.drop_append_of_le_length hloc
    rw [hdrop, cstr_append (fun h => hs (List.mem_of_mem_drop h))]

def order (flags len : ℕ) : ℕ → List ℕ
  | 0 => []
  | left + 1 =>
    (if flags &&& SCAN_MOVE_FROM_LEFT ≠ 0 then len - left else left) :: order flags len left

theorem order_le {len left : ℕ} (h : left ≤ len + 1) : ∀ i ∈ order flags len left, i ≤ len := by
  induction left with
  | zero =>
    intro i hi
    cases hi
  | succ left ih =>
    intro i hi
    rcases List.mem_cons.mp hi with rfl | hi
    · split <;> omega
    · exact ih (by omega) i hi

theorem order_eq_range' {len left : ℕ} (hflags : flags &&& SCAN_MOVE_FROM_LEFT ≠ 0)
    (h : left ≤ len + 1) : order flags len left = List.range' (len + 1 - left) left := by
  induction left with
  | zero => rfl
  | succ left ih =>
    have hfirst : len + 1 - (left + 1) = len - left := by omega
    have hnext : len + 1 - left = len - left + 1 := by omega
    rw [order, if_pos hflags, ih (by omega), List.range'_succ, hfirst, hnext]

theorem order_eq_reverse {len : ℕ} (hflags : ¬ flags &&& SCAN_MOVE_FROM_LEFT ≠ 0) (left : ℕ) :
    order flags len left = (List.range left).reverse := by
  induction left with
  | zero => rfl
  | succ left ih => rw [order, if_neg hflags, ih, List.range_succ, List.reverse_concat]

theorem order_eq_scanned (flags len : ℕ) : order flags len (len + 1) = scanned flags len := by
  rw [scanned]
  by_cases hflags : flags &&& SCAN_MOVE_FROM_LEFT ≠ 0
  · rw [if_pos hflags, order_eq_range' hflags le_rfl, Nat.sub_self, List.range_eq_range']
  · rw [if_neg hflags, order_eq_reverse hflags]

theorem scan_eq_find? (hs : 0 ∉ s) {len left : ℕ} (hlen : len ≤ s.length) (hleft : left ≤ len + 1) :
    scan fnmatch pattern flags false len left (s ++ 0 :: rest) =
      ((order flags len left).find? (half fnmatch s pattern flags), s ++ 0 :: rest) := by
  induction left with
  | zero => rfl
  | succ left ih =>
    have hloc : (if flags &&& SCAN_MOVE_FROM_LEFT ≠ 0 then len - left else left) ≤ s.length := by
      split <;> omega
    rw [scan, order, matchHalf_eq hs hloc, List.find?_cons]
    cases half fnmatch s pattern flags
      (if flags &&& SCAN_MOVE_FROM_LEFT ≠ 0 then len - left else left) with
    | true => rfl
    | false => exact ih (by omega)

/-- The early exit is harmless where the first position matches if any does. -/
theorem scan_early (hs : 0 ∉ s) {len : ℕ} (hlen : len ≤ s.length) (early : Bool)
    (hfirst : early = true → ∀ i ≤ len, half fnmatch s pattern flags i = true →
      half fnmatch s pattern flags (if flags &&& SCAN_MOVE_FROM_LEFT ≠ 0 then 0 else len) = true) :
    scan fnmatch pattern flags early len (len + 1) (s ++ 0 :: rest) =
      scan fnmatch pattern flags false len (len + 1) (s ++ 0 :: rest) := by
  cases early with
  | false => rfl
  | true =>
    rw [scan_eq_find? hs hlen le_rfl, scan, order]
    have hloc : (if flags &&& SCAN_MOVE_FROM_LEFT ≠ 0 then len - len else len) =
        if flags &&& SCAN_MOVE_FROM_LEFT ≠ 0 then 0 else len := by
      rw [Nat.sub_self]
    have hle : (if flags &&& SCAN_MOVE_FROM_LEFT ≠ 0 then 0 else len) ≤ s.length := by
      split <;> omega
    rw [hloc, matchHalf_eq hs hle, List.find?_cons]
    cases hmatch : half fnmatch s pattern flags
      (if flags &&& SCAN_MOVE_FROM_LEFT ≠ 0 then 0 else len) with
    | true => rfl
    | false =>
      have hnone : (order flags len len).find? (half fnmatch s pattern flags) = none := by
        refine List.find?_eq_none.mpr fun i hi hhalf => ?_
        have hcontra := hfirst rfl i (order_le (Nat.le_succ len) i hi) hhalf
        rw [hmatch] at hcontra
        exact Bool.false_ne_true hcontra
      rw [hnone]
      rfl

/-! ### The early exit -/

/-- `fnmatch` matches as POSIX has it, in some locale. -/
def Posix (fnmatch : Str → Str → Bool) : Prop :=
  ∃ locale, ∀ p s, fnmatch p s = true ↔ s ∈ denotes locale p

/-- The flags for `#`, `##`, `%` and `%%`. -/
def removals : List ℕ :=
  [SCAN_MOVE_FROM_LEFT + SCAN_MATCH_LEFT_HALF, SCAN_MOVE_FROM_RIGHT + SCAN_MATCH_LEFT_HALF,
    SCAN_MOVE_FROM_RIGHT + SCAN_MATCH_RIGHT_HALF, SCAN_MOVE_FROM_LEFT + SCAN_MATCH_RIGHT_HALF]

theorem flipped_eq (p : Str) (early : Bool) :
    flipped p early = (early ^^ decide ((p.takeWhile (· = backslash)).length % 2 = 1)) := by
  induction p generalizing early with
  | nil => simp [flipped]
  | cons c p ih =>
    rw [flipped]
    by_cases hc : c = backslash
    · rw [if_pos hc, ih, List.takeWhile_cons_of_pos (by simpa using hc), List.length_cons]
      have hparity := Nat.mod_two_eq_zero_or_one (p.takeWhile (· = backslash)).length
      rcases hparity with heven | hodd
      · have hsucc : ((p.takeWhile (· = backslash)).length + 1) % 2 = 1 := by omega
        rw [heven, hsucc]
        cases early <;> rfl
      · have hsucc : ((p.takeWhile (· = backslash)).length + 1) % 2 = 0 := by omega
        rw [hodd, hsucc]
        cases early <;> rfl
    · rw [if_neg hc, List.takeWhile_cons_of_neg (by simpa using hc)]
      simp

/-- The scan stops early only for a star where the half of the string can grow. -/
theorem earlyExit_cases (hflags : flags ∈ removals) (h : earlyExit pattern flags = true) :
    (flags = SCAN_MOVE_FROM_LEFT + SCAN_MATCH_RIGHT_HALF ∧ ∃ p, pattern = star :: p) ∨
      (flags = SCAN_MOVE_FROM_RIGHT + SCAN_MATCH_LEFT_HALF ∧
        ∃ p, pattern = p ++ [star] ∧ run p % 2 = 0) := by
  simp only [removals, List.mem_cons, List.not_mem_nil, or_false] at hflags
  rcases hflags with rfl | rfl | rfl | rfl
  · exact absurd h (by simp [earlyExit, SCAN_MOVE_FROM_LEFT, SCAN_MATCH_LEFT_HALF,
      SCAN_MATCH_RIGHT_HALF])
  · refine Or.inr ⟨rfl, ?_⟩
    rw [earlyExit, if_neg (by decide), if_pos rfl] at h
    split at h
    · rename_i c p hreverse
      have hpattern : pattern = p.reverse ++ [c] := by
        rw [← List.reverse_cons, ← hreverse, List.reverse_reverse]
      by_cases hc : c = star
      · rw [if_pos hc, flipped_eq] at h
        refine ⟨p.reverse, by rw [hpattern, hc], ?_⟩
        rw [run, List.reverse_reverse]
        have hodd : ¬ (p.takeWhile (· = backslash)).length % 2 = 1 := by simpa using h
        omega
      · rw [if_neg hc] at h
        cases h
    · cases h
  · exact absurd h (by simp [earlyExit, SCAN_MOVE_FROM_LEFT, SCAN_MATCH_LEFT_HALF,
      SCAN_MATCH_RIGHT_HALF, SCAN_MOVE_FROM_RIGHT])
  · refine Or.inl ⟨rfl, ?_⟩
    have hhead : pattern.head? = some Rust.star := by
      rw [earlyExit, if_pos (by decide)] at h
      simpa using h
    obtain ⟨p, rfl⟩ := List.head?_eq_some_iff.mp hhead
    exact ⟨p, rfl⟩

/-- Where the scan stops early, the first position matches if any does. -/
theorem half_first (hposix : Posix fnmatch) (hflags : flags ∈ removals)
    (hearly : earlyExit pattern flags = true) {len i : ℕ} (hi : i ≤ len)
    (h : half fnmatch s pattern flags i = true) :
    half fnmatch s pattern flags (if flags &&& SCAN_MOVE_FROM_LEFT ≠ 0 then 0 else len) = true := by
  obtain ⟨locale, hdenotes⟩ := hposix
  rcases earlyExit_cases hflags hearly with ⟨rfl, p, rfl⟩ | ⟨rfl, p, rfl, hrun⟩
  · rw [half, if_neg (by decide), hdenotes, denotes_star] at h ⊢
    rw [if_pos (by decide), List.drop_zero]
    have hgrown := append_mem_of_star (s.take i) h
    rwa [List.take_append_drop] at hgrown
  · obtain ⟨l, hl⟩ : ∃ l, denotes locale (p ++ [Rust.star]) = l * (⊤ : Language UInt8) :=
      denotes_star_last p hrun
    rw [half, if_pos (by decide), hdenotes, hl] at h ⊢
    rw [if_neg (by decide)]
    have hgrown := append_mem_of_star_last ((s.take len).drop i) h
    have htake : s.take i = (s.take len).take i := by
      rw [List.take_take, Nat.min_eq_left hi]
    rwa [htake, List.take_append_drop] at hgrown

/-! ### What is found -/

/-- **The early exit changes nothing**: what is returned is the first position that matches, as
without it, and the string is unchanged.  The length of the string has to fit into a `c_uint`. -/
theorem scanAndMatch_eq_firstMatch (hposix : Posix fnmatch) (hs : 0 ∉ s)
    (hflags : flags ∈ removals) (hlen : s.length < 2 ^ 32) :
    let mem := s ++ 0 :: rest
    scanAndMatch fnmatch mem pattern flags = (firstMatch fnmatch s pattern flags, mem) ∧
      scanAndMatch fnmatch mem pattern flags =
        scan fnmatch pattern flags false s.length (s.length + 1) mem := by
  intro mem
  have hcode : scanAndMatch fnmatch mem pattern flags =
      scan fnmatch pattern flags false s.length (s.length + 1) mem := by
    rw [scanAndMatch, cstr_append hs, Nat.mod_eq_of_lt hlen]
    exact scan_early hs le_rfl _ fun hearly i hi => half_first hposix hflags hearly hi
  refine ⟨?_, hcode⟩
  rw [hcode, scan_eq_find? hs le_rfl le_rfl, order_eq_scanned]
  rfl

/-! ### An `fnmatch` without bracket expressions -/

/-- `fnmatch` where `?` is one byte and `[` is no bracket expression. -/
def plain : Str → Str → Bool
  | [], s => s.isEmpty
  | c :: p, s =>
    if c = Rust.star then s.tails.any fun t => plain p t
    else if c = question then !s.isEmpty && plain p s.tail
    else if c = backslash then
      match p with
      | [] => false
      | c :: p => s.head? = some c && plain p s.tail
    else s.head? = some c && plain p s.tail

def plainLocale : Pattern.Locale := ⟨{s | s.length = 1}, fun _ => none, 0, fun h => nomatch h⟩

theorem mem_literal_mul (c : UInt8) (l : Language UInt8) (s : Str) :
    s ∈ {[c]} * l ↔ s.head? = some c ∧ s.tail ∈ l := by
  rw [Language.mem_mul]
  constructor
  · rintro ⟨a, rfl, b, hb, rfl⟩
    exact ⟨rfl, hb⟩
  · rintro ⟨hhead, htail⟩
    obtain ⟨t, rfl⟩ := List.head?_eq_some_iff.mp hhead
    exact ⟨[c], rfl, t, htail, rfl⟩

theorem plain_iff (p s : Str) : plain p s = true ↔ s ∈ denotes plainLocale p := by
  induction hn : p.length using Nat.strongRecOn generalizing p s with
  | ind n ih =>
    subst hn
    cases p with
    | nil => simp [plain, denotes, Language.mem_one]
    | cons c p =>
      have hrest : ∀ t, plain p t = true ↔ t ∈ denotes plainLocale p := fun t =>
        ih p.length (Nat.lt_succ_self _) p t rfl
      have hliteral : (decide (s.head? = some c) && plain p s.tail) = true ↔
          s ∈ {[c]} * denotes plainLocale p := by
        rw [mem_literal_mul, ← hrest]
        simp
      rw [plain.eq_def, denotes.eq_def]
      dsimp only
      split
      · rw [List.any_eq_true, Language.mem_mul]
        constructor
        · rintro ⟨t, ht, hplain⟩
          obtain ⟨front, rfl⟩ := (List.mem_tails _ _).mp ht
          exact ⟨front, trivial, t, (hrest t).mp hplain, rfl⟩
        · rintro ⟨front, -, t, ht, rfl⟩
          exact ⟨t, (List.mem_tails _ _).mpr ⟨front, rfl⟩, (hrest t).mpr ht⟩
      · split
        · rw [Language.mem_mul]
          constructor
          · intro h
            cases s with
            | nil => cases h
            | cons d s => exact ⟨[d], rfl, s, (hrest s).mp (by simpa using h), rfl⟩
          · rintro ⟨a, ha, b, hb, rfl⟩
            obtain ⟨d, rfl⟩ := List.length_eq_one_iff.mp ha
            simpa using (hrest b).mpr hb
        · split
          · cases p with
            | nil => exact iff_of_false Bool.false_ne_true (Set.notMem_empty s)
            | cons c p =>
              rw [mem_literal_mul,
                ← ih p.length (by simp only [List.length_cons]; omega) p s.tail rfl]
              simp
          · split
            · exact hliteral
            · exact hliteral

theorem plain_posix : Posix plain := ⟨plainLocale, plain_iff⟩

theorem scanAndMatch_eq_firstMatch_plain :
    scanAndMatch plain (bytes "qwerty" ++ [0]) (bytes "*r?y") 9 =
        (firstMatch plain (bytes "qwerty") (bytes "*r?y") 9, bytes "qwerty" ++ [0]) ∧
      scanAndMatch plain (bytes "qwerty" ++ [0]) (bytes "*r?y") 9 =
        scan plain (bytes "*r?y") 9 false 6 7 (bytes "qwerty" ++ [0]) :=
  scanAndMatch_eq_firstMatch plain_posix (by decide) (by decide) (by decide)

end Rustybox.Shell.Match
