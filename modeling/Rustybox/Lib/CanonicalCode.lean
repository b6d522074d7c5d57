import Mathlib.Algebra.Ring.Nat
import Mathlib.Algebra.Order.Monoid.Unbundled.Basic
import Mathlib.Data.List.Basic

/-!
# Canonical codes

The lengths of the codes of some entries are all that is needed to write them down: codes are
numbered from the shortest to the longest, and entries of the same length in their order.

`firstCode l` is the first code of length `l`, `code k` that of entry `k`.  `bounds_of_code` says
how the bits in front of a string tell the length of the code that it begins with, and
`sorted_getElem` where the entry of a code is found in the list of entries by length.
-/

namespace CanonicalCode

variable (lengths : List ℕ)

def firstCode : ℕ → ℕ
  | 0 => 0
  | l + 1 => 2 * (firstCode l + lengths.count l)

def lengthOf (k : ℕ) : ℕ := lengths.getD k 0

def code (k : ℕ) : ℕ :=
  firstCode lengths (lengthOf lengths k) + (lengths.take k).count (lengthOf lengths k)

/-- How many entries have a shorter code. -/
def shorter (l : ℕ) : ℕ := lengths.countP (· < l)

def entriesOf (l : ℕ) : List ℕ :=
  (List.range lengths.length).filter fun k => lengthOf lengths k = l

/-- The entries with lengths from `lo` on, by length. -/
def sorted (lo n : ℕ) : List ℕ := (List.range' lo n).flatMap (entriesOf lengths)

/-- The codes fit into their lengths, if none is longer than `max`. -/
def Fits (max : ℕ) : Prop := firstCode lengths max + lengths.count max ≤ 2 ^ max

variable {lengths}

theorem lengthOf_eq {k : ℕ} (hk : k < lengths.length) : lengthOf lengths k = lengths[k] := by
  rw [lengthOf, List.getD_eq_getElem?_getD, List.getElem?_eq_getElem hk, Option.getD_some]

/-! ### Codes -/

theorem mul_le_firstCode (lengths : List ℕ) {l m : ℕ} (h : l < m) :
    (firstCode lengths l + lengths.count l) * 2 ^ (m - l) ≤ firstCode lengths m := by
  induction m with
  | zero => cases h
  | succ m ih =>
    rw [firstCode]
    rcases Nat.lt_succ_iff_lt_or_eq.mp h with hlt | rfl
    · have hpow : 2 ^ (m + 1 - l) = 2 ^ (m - l) * 2 := by
        rw [Nat.succ_sub hlt.le, pow_succ]
      rw [hpow, ← Nat.mul_assoc]
      have hle := Nat.mul_le_mul_right 2 (ih hlt)
      omega
    · rw [Nat.add_sub_cancel_left, pow_one, Nat.mul_comm]

theorem count_take_lt {k : ℕ} (hk : k < lengths.length) :
    (lengths.take k).count (lengthOf lengths k) < lengths.count (lengthOf lengths k) := by
  have hget := lengthOf_eq hk
  have hsplit : lengths = lengths.take k ++ lengths[k] :: lengths.drop (k + 1) := by
    rw [List.getElem_cons_drop, List.take_append_drop]
  have hcount := congrArg (List.count (lengthOf lengths k)) hsplit
  rw [List.count_append, List.count_cons, hget, if_pos (beq_self_eq_true _)] at hcount
  rw [hget]
  omega

/-- Where `v` lies whose first bits are the code of `k`. -/
theorem bounds_of_code {k max v : ℕ} (hk : k < lengths.length)
    (hv : v / 2 ^ (max - lengthOf lengths k) = code lengths k) (hmax : lengthOf lengths k ≤ max) :
    (∀ i < lengthOf lengths k,
      (firstCode lengths i + lengths.count i) * 2 ^ (max - i) ≤ v) ∧
    v < (firstCode lengths (lengthOf lengths k) + lengths.count (lengthOf lengths k)) *
      2 ^ (max - lengthOf lengths k) := by
  have hcount := count_take_lt hk
  refine ⟨fun i hi => ?_, ?_⟩
  · have hle := mul_le_firstCode lengths hi
    have hpow : 2 ^ (max - i) =
        2 ^ (lengthOf lengths k - i) * 2 ^ (max - lengthOf lengths k) := by
      rw [← pow_add]
      congr 1
      omega
    have hcode : firstCode lengths (lengthOf lengths k) ≤ v / 2 ^ (max - lengthOf lengths k) := by
      rw [hv, code]
      exact Nat.le_add_right _ _
    rw [hpow, ← Nat.mul_assoc]
    exact (Nat.mul_le_mul_right _ (hle.trans hcode)).trans (Nat.div_mul_le_self _ _)
  · rw [← Nat.div_lt_iff_lt_mul (Nat.two_pow_pos _), hv, code]
    omega

/-- The other way round: which codes of length `i` there are. -/
theorem code_bounds {i max v : ℕ} (hi : i ≤ max)
    (hlow : ∀ l < i, (firstCode lengths l + lengths.count l) * 2 ^ (max - l) ≤ v)
    (hhigh : v < (firstCode lengths i + lengths.count i) * 2 ^ (max - i)) :
    firstCode lengths i ≤ v / 2 ^ (max - i) ∧
      v / 2 ^ (max - i) < firstCode lengths i + lengths.count i := by
  refine ⟨?_, (Nat.div_lt_iff_lt_mul (Nat.two_pow_pos _)).mpr hhigh⟩
  cases i with
  | zero => exact Nat.zero_le _
  | succ i =>
    have hle := hlow i (Nat.lt_succ_self i)
    have hpow : 2 ^ (max - i) = 2 * 2 ^ (max - (i + 1)) := by
      rw [← pow_succ']
      congr 1
      omega
    rw [Nat.le_div_iff_mul_le (Nat.two_pow_pos _), firstCode, Nat.mul_comm 2, Nat.mul_assoc, ← hpow]
    exact hle

theorem code_lt {k max : ℕ} (hfits : Fits lengths max) (hk : k < lengths.length)
    (hmax : lengthOf lengths k ≤ max) : code lengths k < 2 ^ lengthOf lengths k := by
  have hcount := count_take_lt hk
  refine lt_of_lt_of_le (b := firstCode lengths (lengthOf lengths k) +
    lengths.count (lengthOf lengths k)) (Nat.add_lt_add_left hcount _) ?_
  rcases hmax.lt_or_eq with hlt | heq
  · have hle := mul_le_firstCode lengths hlt
    have hpow : 2 ^ max = 2 ^ lengthOf lengths k * 2 ^ (max - lengthOf lengths k) := by
      rw [← pow_add, Nat.add_sub_cancel' hmax]
    have hall : firstCode lengths max ≤ 2 ^ max := le_trans (Nat.le_add_right _ _) hfits
    rw [hpow] at hall
    exact Nat.le_of_mul_le_mul_right (hle.trans hall) (Nat.two_pow_pos _)
  · rw [heq]
    exact hfits

/-! ### Entries by length -/

theorem filter_range_getElem {p : ℕ → Bool} {m k : ℕ} (hk : k < m) (hp : p k = true) :
    ((List.range m).filter p)[(List.range k).countP p]? = some k := by
  have hm : m = k + (m - k - 1 + 1) := by omega
  rw [hm, List.range_add, List.range_succ_eq_map, List.map_cons, List.filter_append,
    List.countP_eq_length_filter, List.getElem?_append_right (Nat.le_refl _), Nat.sub_self,
    Nat.add_zero, List.filter_cons_of_pos hp]
  rfl

theorem countP_range (l : ℕ) {k : ℕ} (hk : k ≤ lengths.length) :
    (List.range k).countP (fun i => lengthOf lengths i = l) = (lengths.take k).count l := by
  induction k with
  | zero => rfl
  | succ k ih =>
    have hget := lengthOf_eq hk
    rw [List.range_succ, List.countP_append, ih (Nat.le_of_succ_le hk),
      List.take_succ_eq_append_getElem hk, List.count_append, List.countP_singleton,
      List.count_singleton, hget]
    simp

theorem length_entriesOf (l : ℕ) : (entriesOf lengths l).length = lengths.count l := by
  rw [entriesOf, ← List.countP_eq_length_filter, countP_range l le_rfl, List.take_length]

theorem shorter_succ (l : ℕ) : shorter lengths (l + 1) = shorter lengths l + lengths.count l := by
  unfold shorter
  induction lengths with
  | nil => rfl
  | cons a lengths ih =>
    have hsum : (if a < l + 1 then 1 else 0) =
        (if a < l then 1 else 0) + if a = l then 1 else 0 := by
      split <;> split <;> split <;> omega
    simp only [List.countP_cons, List.count_cons, decide_eq_true_eq, beq_iff_eq, ih, hsum]
    omega

theorem length_sorted {lo : ℕ} (hlo : ∀ l ∈ lengths, lo ≤ l) (n : ℕ) :
    (sorted lengths lo n).length = shorter lengths (lo + n) := by
  induction n with
  | zero =>
    have hzero : shorter lengths lo = 0 := by
      rw [shorter, List.countP_eq_zero]
      intro l hl
      have hle := hlo l hl
      simp only [decide_eq_true_eq]
      omega
    rw [Nat.add_zero, hzero]
    rfl
  | succ n ih =>
    rw [sorted, List.range'_concat, List.flatMap_append, List.length_append, ← sorted, ih,
      ← Nat.add_assoc, shorter_succ, Nat.one_mul]
    simp [length_entriesOf]

/-- Where an entry is found. -/
theorem sorted_getElem {lo n k : ℕ} (hlo : ∀ l ∈ lengths, lo ≤ l) (hk : k < lengths.length)
    (hn : lengthOf lengths k < lo + n) :
    (sorted lengths lo n)[shorter lengths (lengthOf lengths k) +
      (lengths.take k).count (lengthOf lengths k)]? = some k := by
  have hget := lengthOf_eq hk
  have hle : lo ≤ lengthOf lengths k := hget ▸ hlo _ (List.getElem_mem hk)
  obtain ⟨d, hd⟩ : ∃ d, lengthOf lengths k = lo + d := ⟨lengthOf lengths k - lo, by omega⟩
  obtain ⟨m, rfl⟩ : ∃ m, n = d + (m + 1) := ⟨n - d - 1, by omega⟩
  have hsplit : sorted lengths lo (d + (m + 1)) =
      sorted lengths lo d ++ (entriesOf lengths (lo + d) ++
        sorted lengths (lo + d + 1) m) := by
    rw [sorted, ← List.range'_append_1, List.range'_succ, List.flatMap_append, List.flatMap_cons]
    rfl
  have hlen := length_sorted hlo d
  have hcount := count_take_lt hk
  rw [hd] at hcount ⊢
  rw [hsplit, List.getElem?_append_right (by omega), hlen, Nat.add_sub_cancel_left,
    List.getElem?_append_left (by rw [length_entriesOf]; exact hcount), entriesOf,
    ← countP_range _ hk.le]
  exact filter_range_getElem hk (decide_eq_true hd)

end CanonicalCode
