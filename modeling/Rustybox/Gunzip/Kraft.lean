import Rustybox.Gunzip.Huft
import Mathlib.Algebra.Order.BigOperators.Group.List
import Mathlib.Algebra.Order.Group.Nat
import Mathlib.Algebra.Ring.Nat
import Mathlib.Data.List.Count
import Mathlib.Data.List.GetD

/-!
# Which sets of codes are marked

`huft_build` sets the lowest bit of the pointer it returns when the lengths are no complete set of
codes.  In the terms of the patterns of 16 bits that the codes take: when they take more than there
are, or fewer and there is a code of more than one bit (`huftBuild_flagged_iff`).  Where the bit is
not set there is a table (`huftBuild_tables`).
-/

namespace Rustybox.Gunzip

/-- How many of the patterns of 16 bits start with a code of length `l`. -/
def patterns (l : ℕ) : ℕ := if l = 0 then 0 else 2 ^ (16 - l)

/-- How many of the patterns of 16 bits the codes of these lengths take. -/
def kraft (b : List ℕ) : ℕ := (b.map patterns).sum

/-- These are not the lengths of a complete set of codes, nor of a single code of one bit, nor of
no code at all. -/
def Malformed (b : List ℕ) : Prop :=
  2 ^ 16 < kraft b ∨ 0 < kraft b ∧ kraft b < 2 ^ 16 ∧ ∃ l ∈ b, 1 < l

/-! ### The counts -/

theorem foldl_count (b : List ℕ) : ∀ (cnt : List ℕ), cnt.length = 17 → ∀ l < 17,
    (b.foldl (fun cnt l => cnt.set l (cnt.getD l 0 + 1)) cnt).getD l 0 =
      cnt.getD l 0 + b.count l := by
  induction b with
  | nil =>
    intro cnt _ l _
    simp
  | cons a b ih =>
    intro cnt hcnt l hl
    rw [List.foldl_cons, ih _ (by rw [List.length_set]; exact hcnt) l hl, List.count_cons]
    by_cases ha : a = l
    · subst ha
      rw [List.getD_eq_getElem?_getD, List.getElem?_set_self (by omega)]
      simp
      omega
    · rw [List.getD_eq_getElem?_getD, List.getElem?_set_ne ha, ← List.getD_eq_getElem?_getD]
      simp [ha]

theorem length_countLengths (b : List ℕ) : (countLengths b).length = 17 := by
  have hfold : ∀ cnt : List ℕ,
      (b.foldl (fun cnt l => cnt.set l (cnt.getD l 0 + 1)) cnt).length = cnt.length := by
    induction b with
    | nil => exact fun _ => rfl
    | cons l b ih =>
      intro cnt
      rw [List.foldl_cons, ih, List.length_set]
  rw [countLengths, hfold, List.length_replicate]

theorem countLengths_getD (b : List ℕ) {l : ℕ} (hl : l < 17) :
    (countLengths b).getD l 0 = b.count l := by
  rw [countLengths, foldl_count b _ List.length_replicate l hl]
  rw [List.getD_eq_getElem?_getD, List.getElem?_replicate, if_pos hl, Option.getD_some,
    Nat.zero_add]

theorem minLength_spec (cnt : List ℕ) (fuel j : ℕ) :
    j ≤ minLength cnt fuel j ∧ (∀ i, j ≤ i → i < minLength cnt fuel j → cnt.getD i 0 = 0) ∧
      (minLength cnt fuel j < j + fuel → minLength cnt fuel j ≤ bmax →
        cnt.getD (minLength cnt fuel j) 0 ≠ 0) := by
  induction fuel generalizing j with
  | zero =>
    refine ⟨le_rfl, ?_, ?_⟩
    · intro i h1 (h2 : i < j)
      omega
    · intro (h : j < j + 0)
      omega
  | succ fuel ih =>
    rw [minLength]
    by_cases h : j ≤ bmax ∧ cnt.getD j 0 = 0
    · rw [if_pos h]
      obtain ⟨h1, h2, h3⟩ := ih (j + 1)
      refine ⟨by omega, ?_, fun hlt => h3 (by omega)⟩
      intro i hi hlt
      by_cases hij : i = j
      · rw [hij]
        exact h.2
      · exact h2 i (by omega) hlt
    · rw [if_neg h]
      refine ⟨le_rfl, ?_, ?_⟩
      · intro i h1 h2
        omega
      · intro _ hle h0
        exact h ⟨hle, h0⟩

theorem maxLength_spec (cnt : List ℕ) (i : ℕ) :
    maxLength cnt i ≤ i ∧ (∀ k, maxLength cnt i < k → k ≤ i → cnt.getD k 0 = 0) ∧
      (maxLength cnt i ≠ 0 → cnt.getD (maxLength cnt i) 0 ≠ 0) := by
  induction i with
  | zero =>
    refine ⟨le_rfl, ?_, fun h => absurd rfl h⟩
    intro k (h1 : 0 < k) h2
    omega
  | succ i ih =>
    rw [maxLength]
    by_cases h : cnt.getD (i + 1) 0 = 0
    · rw [if_pos h]
      obtain ⟨h1, h2, h3⟩ := ih
      refine ⟨by omega, ?_, h3⟩
      intro k hlt hle
      by_cases hk : k = i + 1
      · rw [hk]
        exact h
      · exact h2 k hlt (by omega)
    · rw [if_neg h]
      refine ⟨le_rfl, ?_, fun _ => h⟩
      intro k h1 h2
      omega

/-- The lengths `j` and `g` that a set of codes lies between. -/
structure Spans (b : List ℕ) (j g : ℕ) : Prop where
  pos : 1 ≤ j
  le : j ≤ g
  le_sixteen : g ≤ 16
  shortest : j ∈ b
  longest : g ∈ b
  range : ∀ l ∈ b, l = 0 ∨ j ≤ l ∧ l ≤ g

theorem spans_lengths {b : List ℕ} (hb : ∀ l ∈ b, l ≤ 16) (hsome : ∃ l ∈ b, l ≠ 0) :
    Spans b (minLength (countLengths b) bmax 1) (maxLength (countLengths b) bmax) := by
  obtain ⟨l, hl, hl0⟩ := hsome
  have hcount : ∀ i < 17, (countLengths b).getD i 0 ≠ 0 ↔ i ∈ b := by
    intro i hi
    rw [countLengths_getD b hi]
    rw [Ne, List.count_eq_zero, not_not]
  obtain ⟨hj1, hjlow, hj⟩ := minLength_spec (countLengths b) bmax 1
  obtain ⟨hg1, hghigh, hg⟩ := maxLength_spec (countLengths b) bmax
  have hmin : ∀ i ∈ b, i ≠ 0 → minLength (countLengths b) bmax 1 ≤ i := by
    intro i hi hi0
    by_contra hlt
    exact (hcount i (Nat.lt_succ_of_le (hb i hi))).mpr hi (hjlow i (by omega) (by omega))
  have hmax : ∀ i ∈ b, i ≤ maxLength (countLengths b) bmax := by
    intro i hi
    by_contra hlt
    exact (hcount i (Nat.lt_succ_of_le (hb i hi))).mpr hi (hghigh i (by omega) (hb i hi))
  have hl16 := hb l hl
  have hjl := hmin l hl hl0
  have hlg := hmax l hl
  have hbmax : bmax = 16 := rfl
  refine ⟨hj1, Nat.le_trans hjl hlg, hg1, ?_, ?_, ?_⟩
  · exact (hcount _ (by omega)).mp (hj (by omega) (by omega))
  · exact (hcount _ (by omega)).mp (hg (by omega))
  · intro i hi
    by_cases hi0 : i = 0
    · exact Or.inl hi0
    · exact Or.inr ⟨hmin i hi hi0, hmax i hi⟩

/-! ### The patterns that are left -/

/-- The patterns of `j + n` bits that the codes of `j` to `j + n` bits take. -/
def spread (cnt : ℕ → ℕ) : ℕ → ℕ → ℕ
  | 0, j => cnt j
  | n + 1, j => cnt j * 2 ^ (n + 1) + spread cnt n (j + 1)

theorem patternsLeft_eq (cnt : List ℕ) (n j y : ℕ) :
    patternsLeft cnt n j y =
      if y * 2 ^ n < spread (cnt.getD · 0) n j then none
      else some (y * 2 ^ n - spread (cnt.getD · 0) n j) := by
  induction n generalizing j y with
  | zero => simp [patternsLeft, spread]
  | succ n ih =>
    rw [patternsLeft, spread]
    by_cases hlt : y < cnt.getD j 0
    · have : y * 2 ^ (n + 1) < cnt.getD j 0 * 2 ^ (n + 1) :=
        Nat.mul_lt_mul_of_pos_right hlt (Nat.two_pow_pos _)
      rw [if_pos hlt, if_pos (by omega)]
    · have hshift : (y - cnt.getD j 0) <<< 1 * 2 ^ n =
          y * 2 ^ (n + 1) - cnt.getD j 0 * 2 ^ (n + 1) := by
        rw [Nat.shiftLeft_eq, ← Nat.sub_mul, Nat.mul_assoc, Nat.pow_one, Nat.pow_succ']
      have hle : cnt.getD j 0 * 2 ^ (n + 1) ≤ y * 2 ^ (n + 1) :=
        Nat.mul_le_mul_right _ (by omega)
      rw [if_neg hlt, ih, hshift]
      by_cases hover : y * 2 ^ (n + 1) <
          cnt.getD j 0 * 2 ^ (n + 1) + spread (cnt.getD · 0) n (j + 1)
      · rw [if_pos hover, if_pos (by omega)]
      · rw [if_neg hover, if_neg (by omega), Nat.sub_sub]

theorem spread_cons (l : ℕ) (b : List ℕ) (n j : ℕ) :
    spread ((l :: b).count ·) n j =
      spread (b.count ·) n j + if j ≤ l ∧ l ≤ j + n then 2 ^ (j + n - l) else 0 := by
  induction n generalizing j with
  | zero =>
    rw [spread, spread, List.count_cons]
    by_cases hl : l = j
    · subst hl
      simp
    · have hnot : ¬ (j ≤ l ∧ l ≤ j + 0) := by omega
      have hne : (l == j) = false := by simpa using hl
      rw [if_neg hnot, hne]
      rfl
  | succ n ih =>
    rw [spread, spread, ih, List.count_cons]
    by_cases hl : l = j
    · subst hl
      have : ¬ (l + 1 ≤ l ∧ l ≤ l + 1 + n) := by omega
      have hbits : l + (n + 1) - l = n + 1 := by omega
      simp only [beq_self_eq_true, if_true, if_neg this, le_refl, Nat.le_add_right, and_self,
        hbits, Nat.add_mul, Nat.one_mul]
      omega
    · have hiff : (j + 1 ≤ l ∧ l ≤ j + 1 + n) ↔ (j ≤ l ∧ l ≤ j + (n + 1)) := by omega
      have hbits : j + 1 + n - l = j + (n + 1) - l := by omega
      have hne : (l == j) = false := by simpa using hl
      simp only [hne, if_congr hiff rfl rfl, hbits, Bool.false_eq_true, if_false, Nat.add_zero]
      omega

theorem spread_nil (n j : ℕ) : spread (([] : List ℕ).count ·) n j = 0 := by
  induction n generalizing j with
  | zero => rfl
  | succ n ih => rw [spread, ih, List.count_nil, Nat.zero_mul]

/-- With the lengths between `j` and `j + n`, the patterns of `j + n` bits tell the patterns of
16. -/
theorem spread_kraft {b : List ℕ} {j n : ℕ} (hj : 1 ≤ j) (hn : j + n ≤ 16)
    (hb : ∀ l ∈ b, l = 0 ∨ j ≤ l ∧ l ≤ j + n) :
    spread (b.count ·) n j * 2 ^ (16 - (j + n)) = kraft b := by
  induction b with
  | nil => rw [spread_nil, Nat.zero_mul, kraft, List.map_nil, List.sum_nil]
  | cons l b ih =>
    have hrest := ih fun i hi => hb i (List.mem_cons_of_mem l hi)
    have hkraft : kraft (l :: b) = patterns l + kraft b := List.sum_cons
    rw [spread_cons, Nat.add_mul, hrest, hkraft, Nat.add_comm]
    congr 1
    rcases hb l List.mem_cons_self with rfl | hl
    · have : ¬ (j ≤ 0 ∧ 0 ≤ j + n) := by omega
      rw [if_neg this, Nat.zero_mul, patterns, if_pos rfl]
    · have hl0 : l ≠ 0 := by omega
      have hbits : j + n - l + (16 - (j + n)) = 16 - l := by omega
      rw [if_pos hl, ← Nat.pow_add, hbits, patterns, if_neg hl0]

theorem kraft_eq_zero {b : List ℕ} (hb : ∀ l ∈ b, l = 0) : kraft b = 0 := by
  induction b with
  | nil => rfl
  | cons l b ih =>
    have hkraft : kraft (l :: b) = patterns l + kraft b := List.sum_cons
    rw [hkraft, hb l List.mem_cons_self, ih fun i hi => hb i (List.mem_cons_of_mem l hi)]
    rfl

theorem kraft_pos {b : List ℕ} {l : ℕ} (hl : l ∈ b) (hl0 : l ≠ 0) : 0 < kraft b := by
  have hle : patterns l ≤ kraft b := List.le_sum_of_mem (List.mem_map_of_mem hl)
  have hpos : 0 < patterns l := by
    rw [patterns, if_neg hl0]
    exact Nat.two_pow_pos _
  omega

/-! ### The mark -/

theorem spread_countLengths {b : List ℕ} {n j : ℕ} (hn : j + n ≤ 16) :
    spread ((countLengths b).getD · 0) n j = spread (b.count ·) n j := by
  induction n generalizing j with
  | zero => exact countLengths_getD b (by omega)
  | succ n ih => rw [spread, spread, ih (by omega), countLengths_getD b (by omega)]

theorem Spans.bits {b : List ℕ} {j g : ℕ} (h : Spans b j g) : j + (g - j) = g := by
  have := h.le
  omega

/-- The patterns of `g` bits and those of 16. -/
theorem Spans.spread {b : List ℕ} {j g : ℕ} (h : Spans b j g) :
    spread (b.count ·) (g - j) j * 2 ^ (16 - g) = kraft b ∧ 2 ^ g * 2 ^ (16 - g) = 2 ^ 16 := by
  have h16 := h.le_sixteen
  have hsum := spread_kraft (b := b) (n := g - j) h.pos (by rwa [h.bits]) (by
    rw [h.bits]
    exact h.range)
  rw [h.bits] at hsum
  refine ⟨hsum, ?_⟩
  rw [← Nat.pow_add]
  congr 1
  omega

/-- What of the patterns the lengths leave. -/
theorem patternsLeft_kraft {b : List ℕ} {j g : ℕ} (h : Spans b j g) :
    patternsLeft (countLengths b) (g - j) j (1 <<< j) =
      if 2 ^ 16 < kraft b then none
      else some (2 ^ g - Gunzip.spread (b.count ·) (g - j) j) := by
  have hpow : 1 <<< j * 2 ^ (g - j) = 2 ^ g := by
    rw [Nat.shiftLeft_eq, Nat.one_mul, ← Nat.pow_add, h.bits]
  have h16 := h.le_sixteen
  rw [patternsLeft_eq, hpow, spread_countLengths (by rwa [h.bits])]
  refine if_congr ?_ rfl rfl
  rw [← h.spread.1, ← h.spread.2]
  exact (Nat.mul_lt_mul_right (Nat.two_pow_pos _)).symm

theorem left_ne_zero_iff {b : List ℕ} {j g : ℕ} (h : Spans b j g) :
    2 ^ g - Gunzip.spread (b.count ·) (g - j) j ≠ 0 ↔ kraft b < 2 ^ 16 := by
  rw [← h.spread.1, ← h.spread.2, Nat.mul_lt_mul_right (Nat.two_pow_pos _)]
  omega

theorem longest_ne_one_iff {b : List ℕ} {j g : ℕ} (h : Spans b j g) :
    g ≠ 1 ↔ ∃ l ∈ b, 1 < l := by
  have hpos := h.pos
  have hle := h.le
  constructor
  · intro hg
    exact ⟨g, h.longest, by omega⟩
  · rintro ⟨l, hl, hl1⟩
    rcases h.range l hl with h0 | ⟨-, hlg⟩
    · omega
    · omega

theorem countLengths_null_iff (b : List ℕ) :
    (countLengths b).getD 0 0 = b.length ↔ ∀ l ∈ b, l = 0 := by
  rw [countLengths_getD b (by decide), List.count_eq_length]
  exact ⟨fun h l hl => (h l hl).symm, fun h l hl => (h l hl).symm⟩

/-- The lowest bit is set for lengths that are no complete set of codes. -/
theorem huftBuild_flagged_iff {b : List ℕ} (hb : ∀ l ∈ b, l ≤ 16) (s : ℕ) (cpExt : CpExt) (m : ℕ) :
    (huftBuild b s cpExt m).flagged = true ↔ Malformed b := by
  by_cases hzero : ∀ l ∈ b, l = 0
  · have hkraft := kraft_eq_zero hzero
    rw [huftBuild, if_pos ((countLengths_null_iff b).mpr hzero)]
    constructor
    · rintro ⟨⟩
    · rintro (h | h) <;> omega
  · have hsome : ∃ l ∈ b, l ≠ 0 := by simpa using hzero
    have hspans := spans_lengths hb hsome
    obtain ⟨l, hl, hl0⟩ := hsome
    have hpos := kraft_pos hl hl0
    rw [huftBuild, if_neg ((countLengths_null_iff b).not.mpr hzero)]
    dsimp only
    rw [patternsLeft_kraft hspans]
    by_cases hover : 2 ^ 16 < kraft b
    · rw [if_pos hover]
      exact iff_of_true rfl (Or.inl hover)
    · rw [if_neg hover]
      dsimp only
      rw [decide_eq_true_iff, left_ne_zero_iff hspans, longest_ne_one_iff hspans]
      constructor
      · rintro ⟨hlt, hlong⟩
        exact Or.inr ⟨hpos, hlt, hlong⟩
      · rintro (h | ⟨-, hlt, hlong⟩)
        · exact absurd h hover
        · exact ⟨hlt, hlong⟩

/-! ### The tables -/

theorem length_linkTable (s : Build) (w j q : ℕ) :
    (linkTable s w j q).tables.length = s.tables.length := by
  rw [linkTable]
  cases s.stack with
  | nil => rfl
  | cons parent stack => exact List.length_modify _ _ _

theorem length_makeTable (c : CodeSet) (k a : ℕ) (s : Build) :
    (makeTable c k a s).tables.length = s.tables.length + 1 := by
  rw [makeTable]
  exact (length_linkTable _ _ _ _).trans List.length_append

theorem length_makeTables (c : CodeSet) (k a fuel : ℕ) (s : Build) :
    s.tables.length ≤ (makeTables c k a fuel s).tables.length := by
  induction fuel generalizing s with
  | zero => exact le_rfl
  | succ fuel ih =>
    rw [makeTables]
    split
    · refine Nat.le_trans ?_ (ih _)
      rw [length_makeTable]
      exact Nat.le_succ _
    · exact le_rfl

theorem tables_setEntry (c : CodeSet) (b : ℕ) (s : Build) : (setEntry c b s).tables = s.tables := by
  rw [setEntry]
  split
  · rfl
  · split <;> rfl

theorem length_addCode (c : CodeSet) (k a : ℕ) (s : Build) :
    (addCode c k a s).tables.length = (makeTables c k a k s).tables.length := by
  rw [addCode]
  split
  · rfl
  · dsimp only
    rw [List.length_modify, tables_setEntry]

theorem length_addCodes (c : CodeSet) (k a : ℕ) (s : Build) :
    s.tables.length ≤ (addCodes c k a s).tables.length := by
  induction a generalizing s with
  | zero => exact le_rfl
  | succ a ih =>
    refine Nat.le_trans ?_ (ih _)
    rw [length_addCode]
    exact length_makeTables ..

theorem length_addLengths (c : CodeSet) (n k : ℕ) (s : Build) :
    s.tables.length ≤ (addLengths c n k s).tables.length := by
  induction n generalizing k s with
  | zero => exact le_rfl
  | succ n ih => exact Nat.le_trans (length_addCodes c k _ s) (ih _ _)

theorem addLengths_ne_nil (c : CodeSet) {n k : ℕ} (hn : 0 < n) (hk : 0 < k)
    (hcnt : c.cnt.getD k 0 ≠ 0) :
    (addLengths c n k ⟨[], [], 0, 0, .zero⟩).tables ≠ [] := by
  obtain ⟨n, rfl⟩ := Nat.exists_eq_succ_of_ne_zero (by omega : n ≠ 0)
  obtain ⟨k, rfl⟩ := Nat.exists_eq_succ_of_ne_zero (by omega : k ≠ 0)
  obtain ⟨a, ha⟩ := Nat.exists_eq_succ_of_ne_zero hcnt
  have hfirst : 0 < (makeTables c (k + 1) a (k + 1) ⟨[], [], 0, 0, .zero⟩).tables.length := by
    rw [makeTables]
    refine Nat.lt_of_lt_of_le ?_ (length_makeTables ..)
    rw [length_makeTable]
    exact Nat.succ_pos _
  apply List.ne_nil_of_length_pos
  rw [addLengths, ha, addCodes]
  refine Nat.lt_of_lt_of_le ?_ (length_addLengths ..)
  refine Nat.lt_of_lt_of_le ?_ (length_addCodes ..)
  rw [length_addCode]
  exact hfirst

/-- Where the codes take no more patterns than there are, there is a table. -/
theorem huftBuild_tables {b : List ℕ} (hb : ∀ l ∈ b, l ≤ 16) (s : ℕ) (cpExt : CpExt) (m : ℕ)
    (hkraft : kraft b ≤ 2 ^ 16) : (huftBuild b s cpExt m).tables ≠ [] := by
  by_cases hzero : ∀ l ∈ b, l = 0
  · rw [huftBuild, if_pos ((countLengths_null_iff b).mpr hzero)]
    exact List.cons_ne_nil _ _
  · have hspans := spans_lengths hb (by simpa using hzero)
    have hle := hspans.le
    have h16 := hspans.le_sixteen
    have hlen : (countLengths b).length = 17 := length_countLengths b
    rw [huftBuild, if_neg ((countLengths_null_iff b).not.mpr hzero)]
    dsimp only
    rw [patternsLeft_kraft hspans, if_neg (by omega)]
    refine addLengths_ne_nil _ (by omega) hspans.pos ?_
    dsimp only
    have hcount : (countLengths b).getD (minLength (countLengths b) bmax 1) 0 ≠ 0 := by
      rw [countLengths_getD b (by omega), Ne, List.count_eq_zero, not_not]
      exact hspans.shortest
    by_cases hsame : maxLength (countLengths b) bmax = minLength (countLengths b) bmax 1
    · rw [hsame, List.getD_eq_getElem?_getD, List.getElem?_set_self (by omega), Option.getD_some]
      omega
    · rwa [List.getD_eq_getElem?_getD, List.getElem?_set_ne hsame, ← List.getD_eq_getElem?_getD]

end Rustybox.Gunzip
