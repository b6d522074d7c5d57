import Rustybox.Lib.CanonicalCode
import Rustybox.Bunzip2.Bits
import Rustybox.Bunzip2.Output
import Mathlib.Algebra.Ring.Int.Defs

/-!
# The next block

`makeGroup` makes `limit`, `base` and `permute` from the lengths of the codes of a group, and
`readSymbol` decodes a symbol with them: it reads as many bits as the longest code has, looks where
they lie among the limits, and puts back what the code does not need.  `readSymbol_spec`: it decodes
canonical codes.

Then `get_next_block` over any `Reader`: the signature, the map of the bytes that are used, the
selectors, the lengths of the codes of each group, and the symbols, which are undone to bytes as
they come; and `start_bunzip` before the first block.  With `checked` the test is made that the
source has in a comment, whether a run has become longer than a block can be; the source itself
makes none.
-/

namespace Rustybox.Bunzip2

open BitString CanonicalCode

/-- `group_data`.  The first entry of `limit` and `base` is the one for `minLen`. -/
structure Group where
  limit : List ℤ
  base : List ℤ
  permute : List ℕ
  minLen : ℕ
  maxLen : ℕ

/-- The smallest and the largest length so far, and one more. -/
def widen (r : ℕ × ℕ) (l : ℕ) : ℕ × ℕ :=
  if l > r.2 then (r.1, l) else if l < r.1 then (l, r.2) else r

/-- Find largest and smallest lengths in this group. -/
def extremes : List ℕ → ℕ × ℕ
  | [] => (0, 0)
  | l :: lengths => lengths.foldl widen (l, l)

/-- Calculate limit[] (the largest symbol-coding value at each bit length, which is
(previous limit<<1)+symbols at this level), and base[] (number of symbols to ignore at each bit
length, which is limit minus the cumulative count of symbols coded for already).  The first argument
is `maxLen - i`. -/
def limits (temp : ℕ → ℕ) : ℕ → ℕ → ℤ → ℤ → List ℤ × List ℤ
  | 0, i, pp, _ => ([pp + temp i - 1, 2147483647], [])
  | n + 1, i, pp, t =>
    let pp := pp + temp i
    let t := t + temp i
    let rest := limits temp n (i + 1) (pp * 2) t
    ((pp * 2 ^ (n + 1) - 1) :: rest.1, (pp * 2 - t) :: rest.2)

/-- The tables for codes of these lengths. -/
def makeGroup (length : List ℕ) : Group :=
  let minLen := (extremes length).1
  let maxLen := (extremes length).2
  let tables := limits (fun i => length.count i) (maxLen - minLen) minLen 0 0
  { limit := tables.1
    base := 0 :: tables.2
    permute := sorted length minLen (maxLen + 1 - minLen)
    minLen := minLen
    maxLen := maxLen }

/-- Figure how many bits are in next symbol: how many limits it is above of. -/
def aboveLimits (nextSym : ℤ) : List ℤ → ℕ
  | [] => 0
  | l :: limit => if nextSym > l then aboveLimits nextSym limit + 1 else 0

def symbolLength (g : Group) (nextSym : ℕ) : ℕ := g.minLen + aboveLimits nextSym g.limit

/-- Huffman decode value to get nextSym (with bounds checking). -/
def lookup (g : Group) (nextSym : ℕ) : Except Fail ℕ :=
  let i := symbolLength g nextSym
  if g.maxLen < i then .error (.code (-5))
  else
    match g.base[i - g.minLen]? with
    | none => .error .fault
    | some base =>
      let sym : ℤ := (nextSym / 2 ^ (g.maxLen - i) : ℕ) - base
      if sym < 0 ∨ 258 ≤ sym then .error (.code (-5))
      else
        match g.permute[sym.toNat]? with
        | none => .error .fault
        | some sym => .ok sym

/-- Read next Huffman-coded symbol, and unget extras. -/
def readSymbol {σ : Type} (r : Reader σ) (g : Group) : StateT σ (Except Fail) ℕ := do
  let nextSym ← r.thenUnget (r.getCode g.maxLen) fun nextSym => g.maxLen - symbolLength g nextSym
  lookup g nextSym

/-! ### The tables -/

theorem foldl_widen (lengths : List ℕ) {lo hi : ℕ} (h : lo ≤ hi) :
    (lengths.foldl widen (lo, hi)).1 ≤ lo ∧ hi ≤ (lengths.foldl widen (lo, hi)).2 ∧
      (∀ l ∈ lengths, (lengths.foldl widen (lo, hi)).1 ≤ l ∧
        l ≤ (lengths.foldl widen (lo, hi)).2) ∧
      (lengths.foldl widen (lo, hi)).1 ∈ lo :: lengths ∧
      (lengths.foldl widen (lo, hi)).2 ∈ hi :: lengths := by
  induction lengths generalizing lo hi with
  | nil => exact ⟨le_rfl, le_rfl, fun _ hl => absurd hl List.not_mem_nil, by simp, by simp⟩
  | cons l lengths ih =>
    rw [List.foldl_cons]
    obtain ⟨lo', hi', hwiden, hlo, hhi, hle, hl, hl', hmem, hmem'⟩ : ∃ lo' hi',
        widen (lo, hi) l = (lo', hi') ∧ lo' ≤ lo ∧ hi ≤ hi' ∧ lo' ≤ hi' ∧ lo' ≤ l ∧ l ≤ hi' ∧
          (lo' = lo ∨ lo' = l) ∧ (hi' = hi ∨ hi' = l) := by
      unfold widen
      dsimp only
      split
      · exact ⟨lo, l, rfl, by omega, by omega, by omega, by omega, le_rfl, Or.inl rfl, Or.inr rfl⟩
      · split
        · exact ⟨l, hi, rfl, by omega, le_rfl, by omega, le_rfl, by omega, Or.inr rfl, Or.inl rfl⟩
        · exact ⟨lo, hi, rfl, le_rfl, le_rfl, h, by omega, by omega, Or.inl rfl, Or.inl rfl⟩
    rw [hwiden]
    obtain ⟨h1, h2, h3, h4, h5⟩ := ih hle
    refine ⟨h1.trans hlo, hhi.trans h2, fun m hm => ?_, ?_, ?_⟩
    · rcases List.mem_cons.mp hm with rfl | hm
      · exact ⟨h1.trans hl, hl'.trans h2⟩
      · exact h3 m hm
    · rcases List.mem_cons.mp h4 with heq | hm
      · rw [heq]
        rcases hmem with rfl | rfl
        · exact List.mem_cons_self ..
        · exact List.mem_cons_of_mem _ (List.mem_cons_self ..)
      · exact List.mem_cons_of_mem _ (List.mem_cons_of_mem _ hm)
    · rcases List.mem_cons.mp h5 with heq | hm
      · rw [heq]
        rcases hmem' with rfl | rfl
        · exact List.mem_cons_self ..
        · exact List.mem_cons_of_mem _ (List.mem_cons_self ..)
      · exact List.mem_cons_of_mem _ (List.mem_cons_of_mem _ hm)

theorem extremes_le {lengths : List ℕ} (hne : lengths ≠ []) :
    (extremes lengths).1 ≤ (extremes lengths).2 ∧
      (∀ l ∈ lengths, (extremes lengths).1 ≤ l ∧ l ≤ (extremes lengths).2) ∧
      (extremes lengths).2 ∈ lengths := by
  cases lengths with
  | nil => exact absurd rfl hne
  | cons l lengths =>
    obtain ⟨h1, h2, h3, -, h5⟩ := foldl_widen lengths (le_refl l)
    refine ⟨h1.trans h2, fun m hm => ?_, h5⟩
    rcases List.mem_cons.mp hm with rfl | hm
    · exact ⟨h1, h2⟩
    · exact h3 m hm

section Limits

/-- The number behind the last code of a length, with zeros up to `max`. -/
def ceiling (lengths : List ℕ) (max l : ℕ) : ℕ :=
  (firstCode lengths l + lengths.count l) * 2 ^ (max - l)

/-- The limits and the bases, in terms of the first codes. -/
theorem limits_getElem (lengths : List ℕ) (n i : ℕ) :
    (∀ d ≤ n, (limits (fun l => lengths.count l) n i (firstCode lengths i)
        (shorter lengths i)).1[d]? = some ((ceiling lengths (i + n) (i + d) : ℤ) - 1)) ∧
      (limits (fun l => lengths.count l) n i (firstCode lengths i) (shorter lengths i)).1[n + 1]? =
        some 2147483647 ∧
      (∀ d < n, (limits (fun l => lengths.count l) n i (firstCode lengths i)
        (shorter lengths i)).2[d]? =
          some ((firstCode lengths (i + d + 1) : ℤ) - (shorter lengths (i + d + 1) : ℤ))) := by
  induction n generalizing i with
  | zero =>
    refine ⟨fun d hd => ?_, rfl, fun d hd => absurd hd (Nat.not_lt_zero d)⟩
    obtain rfl := Nat.le_zero.mp hd
    rw [limits, ceiling, Nat.sub_self, pow_zero, Nat.mul_one, Nat.cast_add]
    rfl
  | succ n ih =>
    obtain ⟨h1, h2, h3⟩ := ih (i + 1)
    have hpp : ((firstCode lengths i : ℤ) + (lengths.count i : ℤ)) * 2 =
        (firstCode lengths (i + 1) : ℕ) := by
      rw [firstCode, Nat.cast_mul, Nat.cast_add, mul_comm]
      rfl
    have ht : (shorter lengths i : ℤ) + (lengths.count i : ℤ) = (shorter lengths (i + 1) : ℕ) := by
      rw [shorter_succ, Nat.cast_add]
    have hsplit : limits (fun l => lengths.count l) (n + 1) i (firstCode lengths i)
        (shorter lengths i) =
          ((((firstCode lengths i : ℤ) + (lengths.count i : ℤ)) * 2 ^ (n + 1) - 1) ::
            (limits (fun l => lengths.count l) n (i + 1) (firstCode lengths (i + 1))
              (shorter lengths (i + 1))).1,
            ((firstCode lengths (i + 1) : ℤ) - (shorter lengths (i + 1) : ℤ)) ::
            (limits (fun l => lengths.count l) n (i + 1) (firstCode lengths (i + 1))
              (shorter lengths (i + 1))).2) := by
      rw [limits, hpp, ht]
    rw [hsplit]
    refine ⟨fun d hd => ?_, h2, fun d hd => ?_⟩
    · cases d with
      | zero =>
        have hexp : i + (n + 1) - (i + 0) = n + 1 := by omega
        rw [ceiling, hexp, Nat.cast_mul, Nat.cast_add, Nat.cast_pow]
        rfl
      | succ d =>
        have hadd : i + (d + 1) = i + 1 + d := by omega
        have hadd' : i + (n + 1) = i + 1 + n := by omega
        rw [List.getElem?_cons_succ, h1 d (Nat.le_of_succ_le_succ hd), hadd, hadd']
    · cases d with
      | zero => rfl
      | succ d =>
        have hadd : i + (d + 1) + 1 = i + 1 + d + 1 := by omega
        rw [List.getElem?_cons_succ, h3 d (Nat.lt_of_succ_lt_succ hd), hadd]

/-- The first limit that a number is not above of. -/
theorem aboveLimits_eq {v : ℤ} {limit : List ℤ} {d : ℕ} {l : ℤ} (hd : limit[d]? = some l)
    (hle : v ≤ l) (hlt : ∀ e < d, ∀ l, limit[e]? = some l → l < v) : aboveLimits v limit = d := by
  induction limit generalizing d with
  | nil => cases hd
  | cons m limit ih =>
    cases d with
    | zero =>
      obtain rfl := Option.some.inj hd
      rw [aboveLimits, if_neg (not_lt.mpr hle)]
    | succ d =>
      have hm : m < v := hlt 0 (Nat.succ_pos d) m rfl
      have hd' : limit[d]? = some l := hd
      rw [aboveLimits, if_pos hm, ih hd' fun e he l' hl' => hlt (e + 1) (Nat.succ_lt_succ he) l' hl']

variable {lengths : List ℕ}

/-- The codes of a group have lengths that the header can give. -/
structure Lengths (lengths : List ℕ) : Prop where
  ne_nil : lengths ≠ []
  count : lengths.length ≤ 258
  pos : ∀ l ∈ lengths, 1 ≤ l
  le : ∀ l ∈ lengths, l ≤ 20

theorem count_eq_zero_of_lt {lo l : ℕ} (hlo : ∀ l ∈ lengths, lo ≤ l) (h : l < lo) :
    lengths.count l = 0 :=
  List.count_eq_zero.mpr fun hl => absurd (hlo l hl) (not_le.mpr h)

theorem firstCode_eq_zero {lo l : ℕ} (hlo : ∀ l ∈ lengths, lo ≤ l) (h : l ≤ lo) :
    firstCode lengths l = 0 := by
  induction l with
  | zero => rfl
  | succ l ih => rw [firstCode, ih (Nat.le_of_succ_le h), count_eq_zero_of_lt hlo h]

theorem shorter_eq_zero {lo : ℕ} (hlo : ∀ l ∈ lengths, lo ≤ l) : shorter lengths lo = 0 := by
  rw [shorter, List.countP_eq_zero]
  intro l hl
  rw [decide_eq_true_eq]
  exact not_lt.mpr (hlo l hl)

theorem shorter_le (l : ℕ) : shorter lengths l ≤ lengths.length := List.countP_le_length

theorem shorter_add_count_le (lengths : List ℕ) (l : ℕ) :
    shorter lengths l + lengths.count l ≤ lengths.length := by
  rw [← shorter_succ]
  exact shorter_le _

end Limits

section Lookup

variable {lengths : List ℕ} (h : Lengths lengths)

include h

theorem Lengths.lo_le : (extremes lengths).1 ≤ (extremes lengths).2 := (extremes_le h.ne_nil).1

theorem Lengths.between : ∀ l ∈ lengths, (extremes lengths).1 ≤ l ∧ l ≤ (extremes lengths).2 :=
  (extremes_le h.ne_nil).2.1

theorem Lengths.hi_le : (extremes lengths).2 ≤ 20 := h.le _ (extremes_le h.ne_nil).2.2

theorem Lengths.limit_eq {l : ℕ} (hlo : (extremes lengths).1 ≤ l) (hhi : l ≤ (extremes lengths).2) :
    (makeGroup lengths).limit[l - (extremes lengths).1]? =
      some ((ceiling lengths (extremes lengths).2 l : ℤ) - 1) := by
  have hlow : ∀ l ∈ lengths, (extremes lengths).1 ≤ l := fun l hl => (h.between l hl).1
  have hlimits := (limits_getElem lengths
    ((extremes lengths).2 - (extremes lengths).1) (extremes lengths).1).1
      (l - (extremes lengths).1) (Nat.sub_le_sub_right hhi _)
  rw [firstCode_eq_zero hlow le_rfl, shorter_eq_zero hlow, Nat.add_sub_cancel' hlo,
    Nat.add_sub_cancel' h.lo_le] at hlimits
  exact hlimits

/-- The length of the symbol is the first one whose codes reach `v`. -/
theorem Lengths.symbolLength_eq {l v : ℕ} (hlo : (extremes lengths).1 ≤ l)
    (hhi : l ≤ (extremes lengths).2) (hlow : ∀ i < l, ceiling lengths (extremes lengths).2 i ≤ v)
    (hv : v < ceiling lengths (extremes lengths).2 l) : symbolLength (makeGroup lengths) v = l := by
  have habove : aboveLimits v (makeGroup lengths).limit = l - (extremes lengths).1 := by
    refine aboveLimits_eq (h.limit_eq hlo hhi) (by omega) fun e he m hm => ?_
    have hlimit := h.limit_eq (l := (extremes lengths).1 + e) (Nat.le_add_right _ _) (by omega)
    rw [Nat.add_sub_cancel_left, hm] at hlimit
    have hle := hlow ((extremes lengths).1 + e) (by omega)
    rw [Option.some.inj hlimit]
    omega
  rw [symbolLength, habove]
  exact Nat.add_sub_cancel' hlo

theorem Lengths.lt_symbolLength {v : ℕ} (hv : v < 2 ^ 20)
    (hall : ∀ i ≤ (extremes lengths).2, ceiling lengths (extremes lengths).2 i ≤ v) :
    (extremes lengths).2 < symbolLength (makeGroup lengths) v := by
  have hle := h.lo_le
  have hlow : ∀ l ∈ lengths, (extremes lengths).1 ≤ l := fun l hl => (h.between l hl).1
  have hlast := (limits_getElem lengths
    ((extremes lengths).2 - (extremes lengths).1) (extremes lengths).1).2.1
  rw [firstCode_eq_zero hlow le_rfl, shorter_eq_zero hlow] at hlast
  have habove : aboveLimits v (makeGroup lengths).limit =
      (extremes lengths).2 - (extremes lengths).1 + 1 := by
    refine aboveLimits_eq hlast (by omega) fun e he m hm => ?_
    have hlimit := h.limit_eq (l := (extremes lengths).1 + e) (Nat.le_add_right _ _) (by omega)
    rw [Nat.add_sub_cancel_left, hm] at hlimit
    have hle' := hall ((extremes lengths).1 + e) (by omega)
    rw [Option.some.inj hlimit]
    omega
  rw [symbolLength, habove]
  change _ < (extremes lengths).1 + _
  omega

theorem Lengths.base_eq {l : ℕ} (hlo : (extremes lengths).1 ≤ l) (hhi : l ≤ (extremes lengths).2) :
    (makeGroup lengths).base[l - (extremes lengths).1]? =
      some ((firstCode lengths l : ℤ) - (shorter lengths l : ℤ)) := by
  have hlow : ∀ l ∈ lengths, (extremes lengths).1 ≤ l := fun l hl => (h.between l hl).1
  obtain ⟨d, rfl⟩ : ∃ d, l = (extremes lengths).1 + d := ⟨l - (extremes lengths).1, by omega⟩
  rw [Nat.add_sub_cancel_left]
  cases d with
  | zero =>
    rw [Nat.add_zero, firstCode_eq_zero hlow le_rfl, shorter_eq_zero hlow]
    rfl
  | succ d =>
    have hbase := (limits_getElem lengths
      ((extremes lengths).2 - (extremes lengths).1) (extremes lengths).1).2.2 d (by omega)
    rw [firstCode_eq_zero hlow le_rfl, shorter_eq_zero hlow] at hbase
    exact hbase

/-- What is looked up for a code of length `l`. -/
theorem Lengths.lookup_eq {l v : ℕ} (hlo : (extremes lengths).1 ≤ l)
    (hhi : l ≤ (extremes lengths).2) (hlow : ∀ i < l, ceiling lengths (extremes lengths).2 i ≤ v)
    (hv : v < ceiling lengths (extremes lengths).2 l) :
    ∃ k < lengths.length, (sorted lengths (extremes lengths).1
        ((extremes lengths).2 + 1 - (extremes lengths).1))[shorter lengths l +
          (v / 2 ^ ((extremes lengths).2 - l) - firstCode lengths l)]? = some k ∧
      lookup (makeGroup lengths) v = .ok k := by
  obtain ⟨hfirst, hlast⟩ := code_bounds hhi hlow hv
  have hlength := h.symbolLength_eq hlo hhi hlow hv
  have hcount := shorter_add_count_le lengths l
  have h258 := h.count
  have hlo' : ∀ l ∈ lengths, (extremes lengths).1 ≤ l := fun l hl => (h.between l hl).1
  have hsorted := length_sorted hlo' ((extremes lengths).2 + 1 - (extremes lengths).1)
  have hall : shorter lengths ((extremes lengths).2 + 1) = lengths.length := by
    rw [shorter, List.countP_eq_length]
    intro l hl
    rw [decide_eq_true_eq]
    exact Nat.lt_succ_of_le (h.between l hl).2
  rw [Nat.add_sub_cancel' (h.lo_le.trans (Nat.le_succ _)), hall] at hsorted
  obtain ⟨n, hn⟩ : ∃ n, n = shorter lengths l +
      (v / 2 ^ ((extremes lengths).2 - l) - firstCode lengths l) := ⟨_, rfl⟩
  have hnlt : n < lengths.length := by omega
  obtain ⟨k, hk⟩ : ∃ k, (sorted lengths (extremes lengths).1
      ((extremes lengths).2 + 1 - (extremes lengths).1))[n]? = some k :=
    ⟨_, List.getElem?_eq_getElem (hsorted ▸ hnlt)⟩
  have hmem := List.mem_of_getElem? hk
  rw [sorted, List.mem_flatMap] at hmem
  obtain ⟨m, -, hmem⟩ := hmem
  have hklt : k < lengths.length := List.mem_range.mp (List.mem_of_mem_filter hmem)
  refine ⟨k, hklt, hn ▸ hk, ?_⟩
  have hsym : ((v / 2 ^ ((makeGroup lengths).maxLen - l) : ℕ) : ℤ) -
      ((firstCode lengths l : ℤ) - (shorter lengths l : ℤ)) = n := by
    change ((v / 2 ^ ((extremes lengths).2 - l) : ℕ) : ℤ) - _ = _
    omega
  have hrange : ¬ ((n : ℤ) < 0 ∨ 258 ≤ (n : ℤ)) := by omega
  have hbase : (makeGroup lengths).base[l - (makeGroup lengths).minLen]? =
      some ((firstCode lengths l : ℤ) - (shorter lengths l : ℤ)) := h.base_eq hlo hhi
  have hpermute : (makeGroup lengths).permute[(n : ℤ).toNat]? = some k := by
    rw [Int.toNat_natCast]
    exact hk
  have hmax : ¬ (makeGroup lengths).maxLen < l := not_lt.mpr hhi
  unfold lookup
  rw [hlength]
  dsimp only
  rw [if_neg hmax, hbase]
  dsimp only
  rw [hsym, if_neg hrange, hpermute]

/-- **No entry is looked up that has not been written.** -/
theorem Lengths.lookup_ok {v : ℕ} (hv : v < 2 ^ 20) :
    (∃ k < lengths.length, lookup (makeGroup lengths) v = .ok k) ∨
      lookup (makeGroup lengths) v = .error (.code (-5)) := by
  have hlow : ∀ l ∈ lengths, (extremes lengths).1 ≤ l := fun l hl => (h.between l hl).1
  by_cases hex : ∃ l, l ≤ (extremes lengths).2 ∧ v < ceiling lengths (extremes lengths).2 l
  · obtain ⟨l, ⟨hhi, hlt⟩, hmin⟩ : ∃ l,
        (l ≤ (extremes lengths).2 ∧ v < ceiling lengths (extremes lengths).2 l) ∧
          ∀ i < l, ¬ (i ≤ (extremes lengths).2 ∧ v < ceiling lengths (extremes lengths).2 i) :=
      ⟨Nat.find hex, Nat.find_spec hex, fun i hi => Nat.find_min hex hi⟩
    have hlo : (extremes lengths).1 ≤ l := by
      by_contra hlo
      have hlo' := not_le.mp hlo
      rw [ceiling, firstCode_eq_zero hlow hlo'.le, count_eq_zero_of_lt hlow hlo', Nat.zero_mul] at hlt
      cases hlt
    have hle : ∀ i < l, ceiling lengths (extremes lengths).2 i ≤ v := by
      intro i hi
      exact not_lt.mp fun hlt' => hmin i hi ⟨hi.le.trans hhi, hlt'⟩
    obtain ⟨k, hk, -, hlookup⟩ := h.lookup_eq hlo hhi hle hlt
    exact Or.inl ⟨k, hk, hlookup⟩
  · have hall : ∀ i ≤ (extremes lengths).2, ceiling lengths (extremes lengths).2 i ≤ v := by
      intro i hi
      exact not_lt.mp fun hlt => hex ⟨i, hi, hlt⟩
    exact Or.inr (if_pos (h.lt_symbolLength hv hall))

/-- **A code is decoded**, whatever comes behind it. -/
theorem Lengths.lookup_code {k v : ℕ} (hk : k < lengths.length)
    (hv : v / 2 ^ ((extremes lengths).2 - lengthOf lengths k) = code lengths k) :
    symbolLength (makeGroup lengths) v = lengthOf lengths k ∧
      lookup (makeGroup lengths) v = .ok k := by
  have hget := lengthOf_eq hk
  have hmem : lengthOf lengths k ∈ lengths := hget ▸ List.getElem_mem hk
  obtain ⟨hlo, hhi⟩ := h.between _ hmem
  obtain ⟨hlow, hlt⟩ := bounds_of_code hk hv hhi
  have hlo' : ∀ l ∈ lengths, (extremes lengths).1 ≤ l := fun l hl => (h.between l hl).1
  refine ⟨h.symbolLength_eq hlo hhi hlow hlt, ?_⟩
  obtain ⟨k', -, hk', hlookup⟩ := h.lookup_eq hlo hhi hlow hlt
  have hle := h.lo_le
  rw [hv, code, Nat.add_sub_cancel_left, sorted_getElem hlo' hk (by omega)] at hk'
  rw [hlookup, Option.some.inj hk']

/-! ### A symbol -/

omit h in
theorem readSymbol_eq (bits : List Bool) (pos : ℕ) :
    readSymbol (bitReader bits) (makeGroup lengths) pos =
      if pos + (extremes lengths).2 ≤ bits.length then
        (lookup (makeGroup lengths) (value ((bits.drop pos).take (extremes lengths).2))).map fun k =>
          (k, pos + (extremes lengths).2 - ((extremes lengths).2 -
            symbolLength (makeGroup lengths) (value ((bits.drop pos).take (extremes lengths).2))))
      else .error (.code (-3)) := by
  have hbits : (bitReader bits).getCode (makeGroup lengths).maxLen pos =
      if pos + (extremes lengths).2 ≤ bits.length then
        .ok (value ((bits.drop pos).take (extremes lengths).2), pos + (extremes lengths).2)
      else .error (.code (-3)) := rfl
  have hsplit : readSymbol (bitReader bits) (makeGroup lengths) pos =
      (bitReader bits).getCode (makeGroup lengths).maxLen pos >>= fun r =>
        (lookup (makeGroup lengths) r.1).map fun k =>
          (k, r.2 - ((extremes lengths).2 - symbolLength (makeGroup lengths) r.1)) := by
    unfold readSymbol Reader.thenUnget
    cases hr : (bitReader bits).getCode (makeGroup lengths).maxLen pos with
    | error e =>
      change ((bitReader bits).getCode (makeGroup lengths).maxLen pos >>= _) >>= _ = _
      rw [hr]
      rfl
    | ok r =>
      change ((bitReader bits).getCode (makeGroup lengths).maxLen pos >>= _) >>= _ = _
      rw [hr]
      change (lookup (makeGroup lengths) r.1 >>= fun k => _) =
        (lookup (makeGroup lengths) r.1).map fun k => _
      cases lookup (makeGroup lengths) r.1 <;> rfl
  rw [hsplit, hbits]
  split <;> rfl

omit h in
/-- Bits that begin with a code and are as many as the longest code has. -/
theorem value_div {bits bits' rest : List Bool} {pos l : ℕ} (hbits : bits.drop pos = bits' ++ rest)
    (hl : bits'.length = l) {max : ℕ} (hmax : l ≤ max) (hlen : pos + max ≤ bits.length) :
    value ((bits.drop pos).take max) / 2 ^ (max - l) = value bits' := by
  have htake : ((bits.drop pos).take max).length = max := by
    rw [List.length_take, List.length_drop]
    omega
  have hprefix : ((bits.drop pos).take max).take l = bits' := by
    rw [List.take_take, Nat.min_eq_left hmax, hbits, ← hl, List.take_left]
  have hvalue := value_take ((bits.drop pos).take max) l
  rw [htake, hprefix] at hvalue
  exact hvalue.symm

def symbolBits (lengths : List ℕ) (k : ℕ) : List Bool :=
  ofNat (lengthOf lengths k) (code lengths k)

/-- **A symbol is decoded**, if there are bits enough behind it. -/
theorem Lengths.readSymbol_spec (hfits : Fits lengths (extremes lengths).2) {bits rest : List Bool}
    {pos k : ℕ} (hk : k < lengths.length)
    (hbits : bits.drop pos = symbolBits lengths k ++ rest) (hrest : 20 ≤ rest.length) :
    readSymbol (bitReader bits) (makeGroup lengths) pos =
      .ok (k, pos + (symbolBits lengths k).length) := by
  have hget := lengthOf_eq hk
  have hmem : lengthOf lengths k ∈ lengths := hget ▸ List.getElem_mem hk
  obtain ⟨hlo, hhi⟩ := h.between _ hmem
  have h20 := h.hi_le
  have hlen : (symbolBits lengths k).length = lengthOf lengths k := length_ofNat _ _
  have henough : pos + (extremes lengths).2 ≤ bits.length := by
    have hdrop := congrArg List.length hbits
    rw [List.length_drop, List.length_append] at hdrop
    omega
  have hvalue := value_div hbits hlen hhi henough
  rw [symbolBits, value_ofNat, Nat.mod_eq_of_lt (code_lt hfits hk hhi)] at hvalue
  obtain ⟨hlength, hlookup⟩ := h.lookup_code hk hvalue
  rw [readSymbol_eq, if_pos henough, hlookup, hlength, hlen]
  refine congrArg (fun n => Except.ok (k, n)) ?_
  omega

end Lookup

/-- A reading program. -/
abbrev Reading (σ : Type) (α : Type) : Type := StateT σ (Except Fail) α

/-! ### The header -/

/-- The bytes from `i` on whose bits are set in `innerMap`, the highest bit first. -/
def innerBytes (i innerMap : ℕ) : List UInt8 :=
  ((List.range 16).filter fun k => innerMap.testBit (15 - k)).map fun k => UInt8.ofNat (i + k)

/-- mapping table: the bytes that are used. -/
def readSymToByte {σ : Type} (r : Reader σ) (t : ℕ) : List ℕ → Reading σ (List UInt8)
  | [] => pure []
  | k :: ks =>
    if t.testBit (15 - k) then do
      let innerMap ← r.getBits 16
      let rest ← readSymToByte r t ks
      return innerBytes (16 * k) innerMap ++ rest
    else readSymToByte r t ks

/-- An element moves to the front; those before it move up. -/
def toFront {α : Type} (n : ℕ) (mtfSymbol : List α) : Option (α × List α) :=
  mtfSymbol[n]?.map fun a => (a, a :: mtfSymbol.eraseIdx n)

/-- Get next value: ones up to a zero.  The first argument is `groupCount - n`. -/
def readUnary {σ : Type} (r : Reader σ) : ℕ → ℕ → Reading σ ℕ
  | 0, _ => throw (.code (-5))
  | left + 1, n => do
    let bit ← r.getBits 1
    if bit ≠ 0 then readUnary r left (n + 1) else return n

/-- Read in the group selector list, which is stored as MTF encoded bit runs. -/
def readSelectors {σ : Type} (r : Reader σ) (groupCount : ℕ) : ℕ → List ℕ → Reading σ (List ℕ)
  | 0, _ => pure []
  | left + 1, mtfSymbol => do
    let n ← readUnary r groupCount 0
    match toFront n mtfSymbol with
    | none => throw .fault
    | some (selector, mtfSymbol) =>
      let rest ← readSelectors r groupCount left mtfSymbol
      return selector :: rest

/-- The next length, less one, from the one before. -/
def readLength {σ : Type} (r : Reader σ) : ℕ → ℤ → Reading σ ℤ
  | 0, _ => throw .fuel
  | fuel + 1, lenM1 =>
    if ¬ (0 ≤ lenM1 ∧ lenM1 ≤ 20 - 1) then throw (.code (-5))
    else do
      -- grab 2 bits and unget the second if the first was 0
      let twoBits ← r.thenUnget (r.getBits 2) fun twoBits => if twoBits < 2 then 1 else 0
      if twoBits < 2 then return lenM1
      -- Add one if second bit 1, else subtract 1
      else readLength r fuel (lenM1 + (((twoBits + 1) &&& 2 : ℕ) - 1))

/-- Read Huffman code lengths for each symbol. -/
def readLengths {σ : Type} (r : Reader σ) (fuel : ℕ) : ℕ → ℤ → Reading σ (List ℕ)
  | 0, _ => pure []
  | left + 1, lenM1 => do
    let lenM1 ← readLength r fuel lenM1
    let rest ← readLengths r fuel left lenM1
    return (lenM1 + 1).toNat :: rest

/-- Read the Huffman coding tables for each group. -/
def readGroups {σ : Type} (r : Reader σ) (fuel symCount : ℕ) : ℕ → Reading σ (List Group)
  | 0 => pure []
  | left + 1 => do
    let first ← r.getBits 5
    let length ← readLengths r fuel symCount ((first : ℤ) - 1)
    let rest ← readGroups r fuel symCount left
    return makeGroup length :: rest

/-! ### The symbols -/

/-- The state between two symbols: `dbuf` holds the bytes up to `dbufCount`. -/
structure Undoing where
  runPos : UInt32
  runCnt : UInt32
  mtfSymbol : List ℕ
  byteCount : List UInt32
  dbuf : List UInt8

/-- Initialize symbol occurrence counters and symbol Move To Front table. -/
def Undoing.start : Undoing := ⟨0, 0, List.range 256, List.replicate 256 0, []⟩

/-- What does not change from symbol to symbol. -/
structure Setting where
  checked : Bool
  dbufSize : ℕ
  symToByte : List UInt8

/-- A run goes on. -/
def runSymbol (c : Setting) (d : Undoing) (nextSym : ℕ) : Except Fail Undoing :=
  -- If this is the start of a new run, zero out counter
  let runPos := if d.runPos = 0 then 1 else d.runPos
  let runCnt := if d.runPos = 0 then 0 else d.runCnt
  let runCnt := runCnt + (runPos <<< UInt32.ofNat nextSym)
  if c.checked = true ∧ c.dbufSize < runCnt.toNat then .error .longRun
  else
    .ok { d with
      runPos := if runPos.toNat < c.dbufSize then runPos <<< 1 else runPos
      runCnt := runCnt }

/-- Bytes are put into `dbuf`, and counted. -/
def write (c : Setting) (d : Undoing) (byte : UInt8) (n : ℕ) (counted : UInt32) :
    Except Fail Undoing :=
  if c.dbufSize < d.dbuf.length + n then .error .fault
  else
    .ok { d with
      byteCount := d.byteCount.set byte.toNat (d.byteCount.getD byte.toNat 0 + counted)
      dbuf := d.dbuf ++ List.replicate n byte }

/-- Append that many copies to our buffer of decoded symbols now. -/
def flushRun (c : Setting) (d : Undoing) : Except Fail Undoing :=
  if d.runPos = 0 then .ok d
  else if c.dbufSize < (UInt32.ofNat d.dbuf.length + d.runCnt).toNat then .error (.code (-5))
  else
    -- the loop counts down as long as the count, with its sign, is not negative
    (write c { d with runPos := 0 } (c.symToByte.getD (d.mtfSymbol.headD 0) 0)
      (if d.runCnt.toNat ≤ 2 ^ 31 then d.runCnt.toNat else 0) d.runCnt)

/-- Save our literal byte into dbuf. -/
def literalSymbol (c : Setting) (d : Undoing) (nextSym : ℕ) : Except Fail Undoing :=
  if c.dbufSize ≤ d.dbuf.length then .error (.code (-5))
  else
    match toFront (nextSym - 1) d.mtfSymbol with
    | none => .error .fault
    | some (uc, mtfSymbol) =>
      write c { d with mtfSymbol := mtfSymbol } (c.symToByte.getD uc 0) 1 1

/-- What is done with a symbol, and whether it is the terminating one. -/
def undoSymbol (c : Setting) (d : Undoing) (nextSym : ℕ) : Except Fail (Undoing × Bool) :=
  if nextSym ≤ 1 then do
    let d ← runSymbol c d nextSym
    return (d, false)
  else do
    let d ← flushRun c d
    if nextSym > c.symToByte.length then return (d, true)
    else
      let d ← literalSymbol c d nextSym
      return (d, false)

/-- The symbols of one group. -/
def readGroupSymbols {σ : Type} (r : Reader σ) (c : Setting) (g : Group) :
    ℕ → Undoing → Reading σ (Undoing × Bool)
  | 0, d => pure (d, false)
  | symCount + 1, d => do
    let nextSym ← readSymbol r g
    let (d, ended) ← undoSymbol c d nextSym
    if ended then return (d, true) else readGroupSymbols r c g symCount d

/-- Loop through compressed symbols. -/
def readSymbols {σ : Type} (r : Reader σ) (c : Setting) (groups : List Group) :
    List ℕ → Undoing → Reading σ Undoing
  | [], _ => throw (.code (-5))
  | selector :: selectors, d =>
    match groups[selector]? with
    | none => throw (.code (-5))
    | some g => do
      let (d, ended) ← readGroupSymbols r c g 50 d
      if ended then return d else readSymbols r c groups selectors d

/-! ### The block -/

/-- Turn byteCount into cumulative occurrence counts of 0 to n-1, with the sums of the source. -/
def cumulate32 : UInt32 → List UInt32 → List UInt32
  | _, [] => []
  | j, c :: byteCount => j :: cumulate32 (j + c) byteCount

/-- The sort, from cumulated counts on. -/
def sortRounds (dbuf : List UInt32) (cumulated : List ℕ) (dbufCount : ℕ) : Option (List UInt32) :=
  ((List.range dbufCount).foldlM (fun s i => sortStep s.1 s.2 i) (dbuf, cumulated)).map Prod.fst

/-- The end of `get_next_block`.  `old` is what `dbuf` held before. -/
def finishBlock (d : Undoing) (old : List UInt32) (origPtr headerCRC : ℕ) : Except Fail Block :=
  match sortRounds (d.dbuf.map UInt8.toUInt32 ++ old.drop d.dbuf.length)
      ((cumulate32 0 d.byteCount).map UInt32.toNat) d.dbuf.length with
  | none => .error .fault
  | some dbuf =>
    if d.dbuf.length ≠ 0 ∧ d.dbuf.length ≤ origPtr then .error (.code (-5))
    else .ok ⟨dbuf, origPtr, d.dbuf.length, UInt32.ofNat headerCRC⟩

/-- What there is next: a block, or the end of the stream with the CRC of all. -/
inductive Next where
  | block (b : Block)
  | last (headerCRC : ℕ)

/-- `get_next_block` behind the signature and the CRC. -/
def readBlock {σ : Type} (r : Reader σ) (checked : Bool) (fuel dbufSize : ℕ) (old : List UInt32)
    (headerCRC : ℕ) : Reading σ Next := do
  let randomised ← r.getBits 1
  if randomised ≠ 0 then throw (.code (-7))
  else
    let origPtr ← r.getBits 24
    if origPtr > dbufSize then throw (.code (-5))
    else
      let t ← r.getBits 16
      let symToByte ← readSymToByte r t (List.range 16)
      let groupCount ← r.getBits 3
      if groupCount < 2 ∨ groupCount > 6 then throw (.code (-5))
      else
        let nSelectors ← r.getBits 15
        if nSelectors = 0 then throw (.code (-5))
        else
          let selectors ← readSelectors r groupCount nSelectors (List.range groupCount)
          let groups ← readGroups r fuel (symToByte.length + 2) groupCount
          let d ← readSymbols r ⟨checked, dbufSize, symToByte⟩ groups selectors Undoing.start
          let b ← finishBlock d old origPtr headerCRC
          return .block b

def getNextBlock {σ : Type} (r : Reader σ) (checked : Bool) (fuel dbufSize : ℕ)
    (old : List UInt32) : Reading σ Next := do
  let i ← r.getBits 24
  let j ← r.getBits 24
  let headerCRC ← r.getBits 32
  if i = 0x177245 ∧ j = 0x385090 then return .last headerCRC
  else if i ≠ 0x314159 ∨ j ≠ 0x265359 then throw (.code (-2))
  else readBlock r checked fuel dbufSize old headerCRC

/-- `start_bunzip`: the size of `dbuf`. -/
def startBunzip {σ : Type} (r : Reader σ) : Reading σ ℕ := do
  let i ← r.getBits 16
  if i < 26672 + 1 ∨ 26672 + 1 + 9 ≤ i then throw (.code (-2))
  else return 100000 * (i - 26672)

/-- The calls of `get_next_block` until there is no block any more: the blocks, what it returns
then, and the CRC of all. -/
def readBlocks {σ : Type} (r : Reader σ) (checked : Bool) (fuel dbufSize : ℕ) :
    ℕ → List UInt32 → σ → Except Fail (List Block × ℤ × UInt32)
  | 0, _, _ => .error .fuel
  | left + 1, old, s =>
    match getNextBlock r checked fuel dbufSize old s with
    | .error (.code c) => .ok ([], c, 0)
    | .error e => .error e
    | .ok (.last headerCRC, _) => .ok ([], -1, UInt32.ofNat headerCRC)
    | .ok (.block b, s) =>
      (readBlocks r checked fuel dbufSize left b.dbuf s).map fun rest => (b :: rest.1, rest.2)

/-- What these calls leave of the input, if they come to the end of the stream. -/
def behindBlocks {σ : Type} (r : Reader σ) (checked : Bool) (fuel dbufSize : ℕ) :
    ℕ → List UInt32 → σ → Option σ
  | 0, _, _ => none
  | left + 1, old, s =>
    match getNextBlock r checked fuel dbufSize old s with
    | .error _ => none
    | .ok (.last _, s) => some s
    | .ok (.block b, s) => behindBlocks r checked fuel dbufSize left b.dbuf s

end Rustybox.Bunzip2
