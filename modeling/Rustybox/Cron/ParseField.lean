import Rustybox.Rust.Strtol
import Mathlib.Data.Nat.Cast.Defs
import Mathlib.Algebra.Ring.Divisibility.Basic
import Mathlib.Algebra.Ring.Int.Defs

/-!
# The time fields of a crontab

`ParseField` marks the minutes, hours, days, months or weekdays that a field lists.  It marks an
item as soon as it has read it, and what it then finds wrong with the field does not take the marks
back.

The loop goes round in the array from the start of a range, and marks every so manyth index, until
it comes to the end or the failsafe stops it.
-/

namespace Rustybox.Cron

open Rust

def dash : UInt8 := 45

def DowAry : Str := bytes "sunmontuewedthufrisat"
def MonAry : Str := bytes "janfebmaraprmayjunjulaugsepoctnovdec"

/-- What `load_crontab` calls `ParseField` with; `names` is empty for a null pointer. -/
structure Field where
  modvalue : ℕ
  off : ℤ
  names : Str

def Field.minutes : Field := ⟨60, 0, []⟩
def Field.hours : Field := ⟨24, 0, []⟩
def Field.days : Field := ⟨32, 0, []⟩
def Field.months : Field := ⟨12, -1, MonAry⟩
def Field.weekdays : Field := ⟨7, 0, DowAry⟩

def fields : List Field := [.minutes, .hours, .days, .months, .weekdays]

def toLower (c : UInt8) : UInt8 := if 65 ≤ c ∧ c ≤ 90 then c + 32 else c

/-- `strncasecmp` with each of the names; the index of the one that the string starts with. -/
def findName (ptr : Str) : Str → ℕ → Option ℕ
  | a :: b :: c :: names, i =>
    if (ptr.take 3).map toLower = [a, b, c].map toLower then some i
    else findName ptr names (i + 3)
  | _, _ => none

/-- Handle numeric digit or symbol or `*`: the string behind it, `n1` and `n2`; none where `skip`
stays 0. -/
def token (k : Field) (ptr : Str) (n1 n2 : ℤ) : Option (Str × ℤ × ℤ) :=
  if ptr.head? = some star then
    -- everything will be filled
    some (ptr.tail, 0, k.modvalue - 1)
  else if ptr.head?.any isDigit then
    let (n, endp) := strtol ptr
    let n := cInt (n + k.off)
    if n1 < 0 then some (endp, n, n2) else some (endp, n1, n)
  else
    match findName ptr k.names 0 with
    | some i =>
      if n1 < 0 then some (ptr.drop 3, (i / 3 : ℕ), n2) else some (ptr.drop 3, n1, (i / 3 : ℕ))
    | none => none

/-- The step of an item and the string behind it. -/
def readStep (ptr : Str) : ℤ × Str :=
  if ptr.head? = some slash then
    let (skip, endp) := strtol ptr.tail
    (cInt skip, endp)
  else (1, ptr)

/-- Fill array, using a failsafe: the indices that are written to, and whether `n2` was reached. -/
def fill (modvalue n2 skip : ℤ) : ℕ → ℤ → ℤ → List ℤ → List ℤ × Bool
  | 0, _, _, ary => (ary, false)
  | failsafe + 1, n1, s0, ary =>
    let n1 := (cInt (n1 + 1)).tmod modvalue
    let s0 := cInt (s0 - 1)
    let (s0, ary) := if s0 = 0 then (skip, ary ++ [n1.tmod modvalue]) else (s0, ary)
    if failsafe = 0 then (ary, false)
    else if n1 = n2 then (ary, true)
    else fill modvalue n2 skip failsafe n1 s0 ary

/-- `ary` is where the array has been written to; the error is reported where not `accepted`. -/
structure Outcome where
  ary : List ℤ
  accepted : Bool
  deriving DecidableEq

/-- What is done with an item that has been read, with `next` for the items behind its comma. -/
def finish (k : Field) (next : Str → List ℤ → Option Outcome) (ptr : Str) (n1 n2 : ℤ)
    (ary : List ℤ) : Option Outcome :=
  -- collapse single-value ranges
  let n2 := if n2 < 0 then n1 else n2
  let (skip, ptr) := readStep ptr
  match fill k.modvalue n2 skip 1024 (cInt (n1 - 1)) 1 ary with
  | (ary, false) => some ⟨ary, false⟩
  | (ary, true) =>
    if ptr.head? = some comma then next ptr.tail ary
    else some ⟨ary, ptr.isEmpty⟩

/-- The loop, with at most so many turns. -/
def parseLoop (k : Field) : ℕ → Str → ℤ → ℤ → List ℤ → Option Outcome
  | 0, _, _, _, _ => none
  | fuel + 1, ptr, n1, n2, ary =>
    match token k ptr n1 n2 with
    | none => some ⟨ary, false⟩
    | some (ptr, n1, n2) =>
      if ptr.head? = some dash ∧ n2 < 0 then parseLoop k fuel ptr.tail n1 n2 ary
      else finish k (fun ptr ary => parseLoop k fuel ptr (-1) (-1) ary) ptr n1 n2 ary

/-- `ParseField`.  It takes a byte with each turn. -/
def parseField (k : Field) (ptr : Str) : Option Outcome :=
  parseLoop k (ptr.length + 1) ptr (-1) (-1) []

/-! ### Reading an item -/

/-- The turns that read an item, up to the one that fills: the string behind it, `n1` and `n2`. -/
inductive Reads (k : Field) : Str → ℤ → ℤ → Str → ℤ → ℤ → Prop
  | last {ptr rest : Str} {n1 n2 a b : ℤ} (htoken : token k ptr n1 n2 = some (rest, a, b))
      (hlast : ¬ (rest.head? = some dash ∧ b < 0)) : Reads k ptr n1 n2 rest a b
  | range {ptr ptr' rest : Str} {n1 n2 n1' n2' a b : ℤ}
      (htoken : token k ptr n1 n2 = some (ptr', n1', n2'))
      (hdash : ptr'.head? = some dash ∧ n2' < 0) (hrest : Reads k ptr'.tail n1' n2' rest a b) :
      Reads k ptr n1 n2 rest a b

/-- The field is a list of items that can be read and are filled without harm. -/
inductive Sound (k : Field) : Str → Prop
  | last {ptr rest : Str} {n1 n2 : ℤ} (hreads : Reads k ptr (-1) (-1) rest n1 n2) (hfirst : 0 ≤ n1)
      (hlast : (if n2 < 0 then n1 else n2) < k.modvalue) (hend : (readStep rest).2 = []) :
      Sound k ptr
  | more {ptr rest more : Str} {n1 n2 : ℤ} (hreads : Reads k ptr (-1) (-1) rest n1 n2)
      (hfirst : 0 ≤ n1) (hlast : (if n2 < 0 then n1 else n2) < k.modvalue)
      (hend : (readStep rest).2 = comma :: more) (hmore : Sound k more) : Sound k ptr

section

variable {k : Field}

theorem Reads.unique {ptr rest rest' : Str} {n1 n2 a b a' b' : ℤ} (h : Reads k ptr n1 n2 rest a b)
    (h' : Reads k ptr n1 n2 rest' a' b') : rest = rest' ∧ a = a' ∧ b = b' := by
  induction h with
  | last htoken hlast =>
    cases h' with
    | last htoken' hlast' => simpa using htoken.symm.trans htoken'
    | range htoken' hdash' hrest' =>
      obtain ⟨rfl, rfl, rfl⟩ : _ ∧ _ ∧ _ := by simpa using htoken.symm.trans htoken'
      exact absurd hdash' hlast
  | range htoken hdash hrest ih =>
    cases h' with
    | last htoken' hlast' =>
      obtain ⟨rfl, rfl, rfl⟩ : _ ∧ _ ∧ _ := by simpa using htoken.symm.trans htoken'
      exact absurd hdash hlast'
    | range htoken' hdash' hrest' =>
      obtain ⟨rfl, rfl, rfl⟩ : _ ∧ _ ∧ _ := by simpa using htoken.symm.trans htoken'
      exact ih hrest'

theorem findName_length {ptr names : Str} {i j : ℕ} (h : findName ptr names i = some j) :
    3 ≤ ptr.length := by
  induction names, i using findName.induct ptr with
  | case1 a b c names i heq =>
    have hlength := congrArg List.length heq
    simp only [List.length_map, List.length_take, List.length_cons, List.length_nil] at hlength
    omega
  | case2 a b c names i hne ih =>
    rw [findName, if_neg hne] at h
    exact ih h
  | case3 names i hshort => simp [findName] at h

theorem token_length {ptr rest : Str} {n1 n2 a b : ℤ} (h : token k ptr n1 n2 = some (rest, a, b)) :
    rest.length < ptr.length := by
  rw [token] at h
  split at h
  · rename_i hstar
    obtain ⟨rfl, -, -⟩ : _ ∧ _ ∧ _ := by simpa using h
    obtain ⟨t, rfl⟩ := List.head?_eq_some_iff.mp hstar
    exact Nat.lt_succ_self _
  · split at h
    · rename_i hdigit
      have hshorter := strtol_length_lt hdigit
      dsimp only at h
      split at h
      · obtain ⟨rfl, -, -⟩ : _ ∧ _ ∧ _ := by simpa using h
        exact hshorter
      · obtain ⟨rfl, -, -⟩ : _ ∧ _ ∧ _ := by simpa using h
        exact hshorter
    · split at h
      · rename_i i hname
        have hlong := findName_length hname
        have hdrop : (ptr.drop 3).length < ptr.length := by
          rw [List.length_drop]
          omega
        split at h
        · obtain ⟨rfl, -, -⟩ : _ ∧ _ ∧ _ := by simpa using h
          exact hdrop
        · obtain ⟨rfl, -, -⟩ : _ ∧ _ ∧ _ := by simpa using h
          exact hdrop
      · cases h

theorem readStep_length (ptr : Str) : (readStep ptr).2.length ≤ ptr.length := by
  rw [readStep]
  split
  · have htail := strtol_length ptr.tail
    rw [List.length_tail] at htail
    exact Nat.le_trans htail (Nat.sub_le _ _)
  · exact le_rfl

/-- A token that leaves `n1` negative leaves `n2` as it was. -/
theorem token_negative {ptr rest : Str} {n1 n2 a b : ℤ} (h : token k ptr n1 n2 = some (rest, a, b))
    (ha : a < 0) : b = n2 := by
  rw [token] at h
  split at h
  · obtain ⟨-, rfl, -⟩ : _ ∧ _ ∧ _ := by simpa using h
    exact absurd ha (by decide)
  · split at h
    · dsimp only at h
      split at h
      · obtain ⟨-, -, rfl⟩ : _ ∧ _ ∧ _ := by simpa using h
        rfl
      · obtain ⟨-, rfl, -⟩ : _ ∧ _ ∧ _ := by simpa using h
        contradiction
    · split at h
      · split at h
        · obtain ⟨-, -, rfl⟩ : _ ∧ _ ∧ _ := by simpa using h
          rfl
        · obtain ⟨-, rfl, -⟩ : _ ∧ _ ∧ _ := by simpa using h
          contradiction
      · cases h

theorem Reads.negative {ptr rest : Str} {n1 n2 a b : ℤ} (h : Reads k ptr n1 n2 rest a b)
    (hn2 : n2 < 0) (ha : a < 0) : b < 0 := by
  induction h with
  | last htoken hlast =>
    rw [token_negative htoken ha]
    exact hn2
  | range htoken hdash hrest ih => exact ih hdash.2 ha


end

/-! ## Filling the array -/

/-! ### Turns -/

theorem fill_append (m n2 skip : ℤ) (failsafe : ℕ) (n1 s0 : ℤ) (ary : List ℤ) :
    fill m n2 skip failsafe n1 s0 ary =
      (ary ++ (fill m n2 skip failsafe n1 s0 []).1, (fill m n2 skip failsafe n1 s0 []).2) := by
  induction failsafe generalizing n1 s0 ary with
  | zero => simp [fill]
  | succ failsafe ih =>
    by_cases hs : cInt (s0 - 1) = 0
    · simp only [fill, if_pos hs, List.nil_append]
      split
      · rfl
      · split
        · rfl
        · rw [ih, ih _ _ [_], List.append_assoc]
    · simp only [fill, if_neg hs]
      split
      · rw [List.append_nil]
      · split
        · rw [List.append_nil]
        · exact ih _ _ _

/-- What a turn marks, and the countdown after it. -/
def marked (s0 n1 : ℤ) : List ℤ := if cInt (s0 - 1) = 0 then [n1] else []

def countdown (skip s0 : ℤ) : ℤ := if cInt (s0 - 1) = 0 then skip else cInt (s0 - 1)

theorem fill_turn (m n2 skip : ℤ) (failsafe : ℕ) (n1 s0 : ℤ) {next : ℤ}
    (hnext : (cInt (n1 + 1)).tmod m = next) :
    fill m n2 skip (failsafe + 2) n1 s0 [] =
      if next = n2 then (marked s0 next, true)
      else
        (marked s0 next ++ (fill m n2 skip (failsafe + 1) next (countdown skip s0) []).1,
          (fill m n2 skip (failsafe + 1) next (countdown skip s0) []).2) := by
  have hmod : next.tmod m = next := by
    rw [← hnext, Int.tmod_tmod]
  rw [fill, hnext, hmod, marked, countdown]
  by_cases hs : cInt (s0 - 1) = 0
  · simp only [if_pos hs, List.nil_append, if_neg (Nat.succ_ne_zero failsafe)]
    split
    · rfl
    · exact fill_append _ _ _ _ _ _ _
  · simp only [if_neg hs, List.nil_append, if_neg (Nat.succ_ne_zero failsafe)]

/-- The first turn writes to the start of the range. -/
theorem fill_start (m n2 skip : ℤ) (failsafe : ℕ) {n1 : ℤ} (hlow : -2 ^ 31 ≤ n1)
    (hhigh : n1 < 2 ^ 31) :
    fill m n2 skip (failsafe + 2) (cInt (n1 - 1)) 1 [] =
      if n1.tmod m = n2 then ([n1.tmod m], true)
      else
        ([n1.tmod m] ++ (fill m n2 skip (failsafe + 1) (n1.tmod m) skip []).1,
          (fill m n2 skip (failsafe + 1) (n1.tmod m) skip []).2) := by
  have hback : cInt (cInt (n1 - 1) + 1) = n1 := by
    rw [cInt, cInt, Int.bmod_add_bmod, Int.sub_add_cancel]
    exact cInt_of_mem hlow hhigh
  have hzero : cInt (1 - 1) = 0 := by decide
  rw [fill_turn m n2 skip failsafe _ 1 (congrArg (Int.tmod · m) hback), marked, countdown,
    if_pos hzero, if_pos hzero]

section

variable {m n2 skip : ℤ}

theorem next_index (hm : m < 1024) {n1 : ℤ} (hlow : 0 ≤ n1) (hhigh : n1 < m) :
    (cInt (n1 + 1)).tmod m = (n1 + 1) % m := by
  rw [cInt_of_mem (by omega) (by omega), Int.tmod_eq_emod_of_nonneg (by omega)]

theorem marked_eq {s0 n1 i : ℤ} (h : i ∈ marked s0 n1) : i = n1 := by
  rw [marked] at h
  split at h
  · exact List.mem_singleton.mp h
  · cases h

theorem fill_one (n1 s0 : ℤ) :
    fill m n2 skip 1 n1 s0 [] = (marked s0 ((cInt (n1 + 1)).tmod m), false) := by
  rw [fill, Int.tmod_tmod, marked]
  by_cases hs : cInt (s0 - 1) = 0
  · simp only [if_pos hs, List.nil_append, if_true]
  · simp only [if_neg hs, if_true]

/-- From within the array on all writes are inside. -/
theorem fill_inside (hm : m < 1024) (failsafe : ℕ) {n1 : ℤ} (hlow : 0 ≤ n1) (hhigh : n1 < m)
    (s0 : ℤ) : ∀ i ∈ (fill m n2 skip failsafe n1 s0 []).1, 0 ≤ i ∧ i < m := by
  have hpos : 0 < m := by omega
  have hlow' := Int.emod_nonneg (n1 + 1) (by omega : m ≠ 0)
  have hhigh' := Int.emod_lt_of_pos (n1 + 1) hpos
  have hnext := next_index hm hlow hhigh
  induction failsafe using Nat.strongRecOn generalizing n1 s0 with
  | ind failsafe ih =>
    match failsafe with
    | 0 =>
      intro i hi
      cases hi
    | 1 =>
      intro i hi
      rw [fill_one, hnext] at hi
      rw [marked_eq hi]
      exact ⟨hlow', hhigh'⟩
    | failsafe + 2 =>
      intro i hi
      rw [fill_turn m n2 skip failsafe n1 s0 hnext] at hi
      split at hi
      · rw [marked_eq hi]
        exact ⟨hlow', hhigh'⟩
      · rcases List.mem_append.mp hi with hi | hi
        · rw [marked_eq hi]
          exact ⟨hlow', hhigh'⟩
        · exact ih (failsafe + 1) (Nat.lt_succ_self _) hlow' hhigh' (countdown skip s0)
            (Int.emod_nonneg _ (by omega)) (Int.emod_lt_of_pos _ hpos)
            (next_index hm hlow' hhigh') i hi

/-- An end outside of the array is not reached. -/
theorem fill_misses (hm : m < 1024) (failsafe : ℕ) {n1 : ℤ} (hlow : 0 ≤ n1) (hhigh : n1 < m)
    (s0 : ℤ) (hn2 : ¬ (0 ≤ n2 ∧ n2 < m)) : (fill m n2 skip failsafe n1 s0 []).2 = false := by
  have hpos : 0 < m := by omega
  induction failsafe using Nat.strongRecOn generalizing n1 s0 with
  | ind failsafe ih =>
    have hlow' := Int.emod_nonneg (n1 + 1) (by omega : m ≠ 0)
    have hhigh' := Int.emod_lt_of_pos (n1 + 1) hpos
    match failsafe with
    | 0 => rfl
    | 1 => rw [fill_one]
    | failsafe + 2 =>
      rw [fill_turn m n2 skip failsafe n1 s0 (next_index hm hlow hhigh), if_neg (by omega)]
      exact ih (failsafe + 1) (Nat.lt_succ_self _) hlow' hhigh' _

theorem next_add (n1 d : ℤ) : ((n1 + 1) % m + 1 + d) % m = (n1 + 1 + (d + 1)) % m := by
  rw [Int.add_assoc, Int.emod_add_emod, Int.add_comm 1 d, Int.add_assoc n1 1, Int.add_comm 1]

theorem fill_reaches (hm : m < 1024) {d failsafe : ℕ} (hfuel : d + 1 < failsafe) {n1 : ℤ}
    (hlow : 0 ≤ n1) (hhigh : n1 < m) (s0 : ℤ) (hn2 : n2 = (n1 + 1 + d) % m) :
    (fill m n2 skip failsafe n1 s0 []).2 = true := by
  have hpos : 0 < m := by omega
  induction d generalizing failsafe n1 s0 with
  | zero =>
    obtain ⟨failsafe, rfl⟩ := Nat.exists_eq_add_of_lt hfuel
    have hend : (n1 + 1) % m = n2 := by simpa using hn2.symm
    rw [show 0 + 1 + failsafe + 1 = failsafe + 2 by omega,
      fill_turn m n2 skip failsafe n1 s0 (next_index hm hlow hhigh), if_pos hend]
  | succ d ih =>
    obtain ⟨failsafe, rfl⟩ := Nat.exists_eq_add_of_lt hfuel
    rw [show d + 1 + 1 + failsafe + 1 = d + 1 + failsafe + 2 by omega,
      fill_turn m n2 skip _ n1 s0 (next_index hm hlow hhigh)]
    split
    · rfl
    · refine ih (by omega) (Int.emod_nonneg _ (by omega)) (Int.emod_lt_of_pos _ hpos) _ ?_
      rw [next_add, hn2, Nat.cast_succ]

theorem mem_marked {s0 n1 : ℤ} (hs0 : 1 ≤ s0) (hskip : s0 ≤ skip) (hlong : skip < 2 ^ 31) (i : ℤ) :
    i ∈ marked s0 n1 ↔ skip ∣ (0 : ℤ) + 1 - s0 ∧ i = n1 := by
  rw [marked, cInt_of_mem (by omega) (by omega)]
  by_cases hone : s0 = 1
  · subst hone
    simp
  · have hnot : ¬ skip ∣ (0 : ℤ) + 1 - s0 := by
      intro hdvd
      have hneg : s0 - 1 = -(0 + 1 - s0) := by omega
      have hpos : 0 < s0 - 1 := by omega
      have hdvd' : skip ∣ s0 - 1 := hneg ▸ Int.dvd_neg.mpr hdvd
      have hle := Int.le_of_dvd hpos hdvd'
      omega
    rw [if_neg (by omega)]
    exact iff_of_false List.not_mem_nil fun h => hnot h.1

theorem countdown_spec {s0 : ℤ} (hs0 : 1 ≤ s0) (hskip : s0 ≤ skip) (hlong : skip < 2 ^ 31) :
    1 ≤ countdown skip s0 ∧ countdown skip s0 ≤ skip ∧
      ∀ j : ℤ, skip ∣ j + 1 - countdown skip s0 ↔ skip ∣ j + 1 + 1 - s0 := by
  rw [countdown, cInt_of_mem (by omega) (by omega)]
  by_cases hone : s0 = 1
  · rw [if_pos (by omega)]
    refine ⟨by omega, Int.le_refl _, fun j => ?_⟩
    rw [hone, dvd_sub_self_right, Int.add_sub_cancel]
  · rw [if_neg (by omega)]
    refine ⟨by omega, by omega, fun j => ?_⟩
    rw [show j + 1 - (s0 - 1) = j + 1 + 1 - s0 by omega]

theorem mem_fill (hm : m < 1024) {d failsafe : ℕ} (hd : (d : ℤ) < m) (hfuel : d + 1 < failsafe)
    {n1 : ℤ} (hlow : 0 ≤ n1) (hhigh : n1 < m) {s0 : ℤ} (hs0 : 1 ≤ s0) (hskip : s0 ≤ skip)
    (hlong : skip < 2 ^ 31) (hn2 : n2 = (n1 + 1 + d) % m) (i : ℤ) :
    i ∈ (fill m n2 skip failsafe n1 s0 []).1 ↔
      ∃ j : ℕ, j ≤ d ∧ skip ∣ j + 1 - s0 ∧ i = (n1 + 1 + j) % m := by
  have hpos : 0 < m := by omega
  have hfirst : i ∈ marked s0 ((n1 + 1) % m) ↔ _ := mem_marked hs0 hskip hlong i
  induction d generalizing failsafe n1 s0 with
  | zero =>
    obtain ⟨failsafe, rfl⟩ := Nat.exists_eq_add_of_lt hfuel
    have hend : (n1 + 1) % m = n2 := by simpa using hn2.symm
    rw [show 0 + 1 + failsafe + 1 = failsafe + 2 by omega,
      fill_turn m n2 skip failsafe n1 s0 (next_index hm hlow hhigh), if_pos hend,
      hfirst]
    simp
  | succ d ih =>
    obtain ⟨failsafe, rfl⟩ := Nat.exists_eq_add_of_lt hfuel
    have hne : (n1 + 1) % m ≠ n2 := by
      intro heq
      rw [hn2] at heq
      have hdvd := Int.emod_eq_emod_iff_emod_sub_eq_zero.mp heq.symm
      rw [add_sub_cancel_left, Int.emod_eq_of_lt (by omega) hd] at hdvd
      omega
    obtain ⟨hlow', hhigh', hdvd⟩ := countdown_spec hs0 hskip hlong
    have hd' : (d : ℤ) < m := by omega
    have hne0 : m ≠ 0 := by omega
    have hfuel' : d + 1 < d + 1 + failsafe + 1 := by omega
    have hn2' : n2 = ((n1 + 1) % m + 1 + d) % m := by
      rw [next_add, hn2, Nat.cast_succ]
    have hrest := ih hd' hfuel' (Int.emod_nonneg (n1 + 1) hne0) (Int.emod_lt_of_pos (n1 + 1) hpos)
      hlow' hhigh' hn2' (mem_marked hlow' hhigh' hlong i)
    rw [show d + 1 + 1 + failsafe + 1 = d + 1 + failsafe + 2 by omega,
      fill_turn m n2 skip _ n1 s0 (next_index hm hlow hhigh), if_neg hne, List.mem_append]
    refine (or_congr hfirst hrest).trans ?_
    constructor
    · rintro (⟨hdvd0, rfl⟩ | ⟨j, hj, hdvdj, rfl⟩)
      · exact ⟨0, Nat.zero_le _, by simpa using hdvd0, by simp⟩
      · refine ⟨j + 1, by omega, ?_, ?_⟩
        · rw [Nat.cast_succ]
          exact (hdvd j).mp hdvdj
        · rw [next_add, Nat.cast_succ]
    · rintro ⟨j, hj, hdvdj, rfl⟩
      cases j with
      | zero => exact Or.inl ⟨by simpa using hdvdj, by simp⟩
      | succ j =>
        refine Or.inr ⟨j, by omega, ?_, ?_⟩
        · rw [Nat.cast_succ] at hdvdj
          exact (hdvd j).mpr hdvdj
        · rw [next_add, Nat.cast_succ]

end

/-- A range with its start and its end within bounds: the failsafe is not needed. -/
theorem fill_sound {m last skip n1 : ℤ} (hm : m ≤ 60) (hfirst : 0 ≤ n1) (hhigh : n1 < 2 ^ 31)
    (hlast : 0 ≤ last) (hlast' : last < m) :
    (fill m last skip 1024 (cInt (n1 - 1)) 1 []).2 = true ∧
      (fill m last skip 1024 (cInt (n1 - 1)) 1 []).1 ≠ [] ∧
      ∀ i ∈ (fill m last skip 1024 (cInt (n1 - 1)) 1 []).1, 0 ≤ i ∧ i < m := by
  have hpos : 0 < m := by omega
  have hindex : n1.tmod m = n1 % m := Int.tmod_eq_emod_of_nonneg hfirst
  have hlow' := Int.emod_nonneg n1 (by omega : m ≠ 0)
  have hhigh' := Int.emod_lt_of_pos n1 hpos
  rw [fill_start m last skip 1022 (by omega) hhigh, hindex]
  split
  · refine ⟨rfl, List.cons_ne_nil _ _, fun i hi => ?_⟩
    rw [List.mem_singleton.mp hi]
    exact ⟨hlow', hhigh'⟩
  · -- so many turns away from the start is the end
    have hnonneg := Int.emod_nonneg (last - n1 % m - 1) (by omega : m ≠ 0)
    have hsmall := Int.emod_lt_of_pos (last - n1 % m - 1) hpos
    obtain ⟨d, hd⟩ := Int.eq_ofNat_of_zero_le hnonneg
    have hn2 : last = (n1 % m + 1 + d) % m := by
      rw [← hd, Int.add_emod_emod, show n1 % m + 1 + (last - n1 % m - 1) = last by omega,
        Int.emod_eq_of_lt hlast hlast']
    refine ⟨fill_reaches (by omega) (by omega) hlow' hhigh' skip hn2, List.cons_ne_nil _ _, ?_⟩
    intro i hi
    rcases List.mem_cons.mp hi with rfl | hi
    · exact ⟨hlow', hhigh'⟩
    · exact fill_inside (by omega) 1023 hlow' hhigh' skip i hi

/-- Any other range: the error is reported, or something is written to outside of the array. -/
theorem fill_unsound {m last skip n1 : ℤ} (hm : m ≤ 60) (hpos : 0 < m) (hlow : -2 ^ 31 ≤ n1)
    (hhigh : n1 < 2 ^ 31) (hnegative : n1 < 0 → last = n1) (hbad : ¬ (0 ≤ n1 ∧ last < m))
    (hnonneg : 0 ≤ n1 → 0 ≤ last) :
    (fill m last skip 1024 (cInt (n1 - 1)) 1 []).1 ≠ [] ∧
      ((fill m last skip 1024 (cInt (n1 - 1)) 1 []).2 = true →
        ∃ i ∈ (fill m last skip 1024 (cInt (n1 - 1)) 1 []).1, ¬ (0 ≤ i ∧ i < m)) := by
  have hupper := Int.tmod_lt_of_pos n1 hpos
  rw [fill_start m last skip 1022 hlow hhigh]
  by_cases hinside : 0 ≤ n1.tmod m
  · -- the turns go round in the array, and the end is outside
    have houtside : ¬ (0 ≤ last ∧ last < m) := by omega
    rw [if_neg (by omega)]
    refine ⟨List.cons_ne_nil _ _, fun htrue => ?_⟩
    have hmiss : (fill m last skip 1023 (n1.tmod m) skip []).2 = false :=
      fill_misses (by omega) 1023 hinside hupper skip houtside
    rw [hmiss] at htrue
    cases htrue
  · split
    · exact ⟨List.cons_ne_nil _ _, fun _ => ⟨_, List.mem_cons_self, fun h => hinside h.1⟩⟩
    · exact ⟨List.cons_ne_nil _ _, fun _ => ⟨_, List.mem_cons_self, fun h => hinside h.1⟩⟩

/-- What is filled for a range and a step. -/
theorem mem_fill_start {m first last : ℤ} {step : ℕ} (hm : m ≤ 60) (hfirst : 0 ≤ first)
    (hfirst' : first < m) (hlast : 0 ≤ last) (hlast' : last < m) (hstep : 0 < step)
    (hstep' : step < 2 ^ 31) (i : ℤ) :
    i ∈ (fill m last step 1024 (cInt (first - 1)) 1 []).1 ↔
      ∃ j : ℕ, (j : ℤ) ≤ (last - first) % m ∧ step ∣ j ∧ i = (first + j) % m := by
  have hpos : 0 < m := by omega
  rw [fill_start m last step 1022 (by omega) (by omega), Int.tmod_eq_of_lt hfirst hfirst']
  split
  · rename_i heq
    rw [heq, Int.sub_self, Int.zero_emod, List.mem_singleton]
    constructor
    · rintro rfl
      exact ⟨0, by simp, by simp, by simpa using (Int.emod_eq_of_lt hlast hlast').symm⟩
    · rintro ⟨j, hj, -, rfl⟩
      obtain rfl : j = 0 := by omega
      simpa using Int.emod_eq_of_lt hlast hlast'
  · rename_i hne
    have hnonneg := Int.emod_nonneg (last - first) (by omega : m ≠ 0)
    have hsmall := Int.emod_lt_of_pos (last - first) hpos
    obtain ⟨d, hd⟩ := Int.eq_ofNat_of_zero_le hnonneg
    have hlastEq : last = (first + d) % m := by
      rw [← hd, Int.add_emod_emod, show first + (last - first) = last by omega,
        Int.emod_eq_of_lt hlast hlast']
    cases d with
    | zero =>
      rw [Nat.cast_zero, Int.add_zero, Int.emod_eq_of_lt hfirst hfirst'] at hlastEq
      exact absurd hlastEq.symm hne
    | succ d =>
      have hend : last = (first + 1 + d) % m := by
        rw [hlastEq, Nat.cast_succ, Int.add_assoc first, Int.add_comm 1]
      have hmore : i ∈ (fill m last step 1023 first step []).1 ↔
          ∃ j : ℕ, j ≤ d ∧ (step : ℤ) ∣ j + 1 - step ∧ i = (first + 1 + j) % m :=
        mem_fill (by omega) (by omega) (by omega) hfirst hfirst' (by omega) (by omega) (by omega)
          hend i
      constructor
      · intro hi
        rcases List.mem_cons.mp hi with rfl | hi
        · have hzero : i = (i + (0 : ℕ)) % m := by
            rw [Nat.cast_zero, Int.add_zero, Int.emod_eq_of_lt hfirst hfirst']
          exact ⟨0, by omega, Nat.dvd_zero step, hzero⟩
        · obtain ⟨j, hj, hdvd, rfl⟩ := hmore.mp hi
          refine ⟨j + 1, by omega, ?_, by rw [Nat.cast_succ]; congr 1; omega⟩
          rw [dvd_sub_self_right] at hdvd
          exact_mod_cast hdvd
      · rintro ⟨j, hj, hdvd, rfl⟩
        cases j with
        | zero =>
          rw [Nat.cast_zero, Int.add_zero, Int.emod_eq_of_lt hfirst hfirst']
          exact List.mem_cons_self
        | succ j =>
          refine List.mem_cons_of_mem _ (hmore.mpr ⟨j, by omega, ?_, ?_⟩)
          · rw [dvd_sub_self_right]
            exact_mod_cast hdvd
          · rw [Nat.cast_succ]
            congr 1
            omega

end Rustybox.Cron
