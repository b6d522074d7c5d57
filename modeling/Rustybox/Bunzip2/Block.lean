import Rustybox.Lib.BurrowsWheeler
import Mathlib.Algebra.Ring.Nat
import Mathlib.Data.Fintype.Fin

/-!
# The block sort, undone

The end of `get_next_block`, where `dbuf` holds the bytes of a block, and the walk through `dbuf`
that `read_bunzip` makes.  An entry of `dbuf` has a byte in its low eight bits; the sort puts the
place of another entry above it.

`walk_sortBlock`: if the bytes are the last column of the sorted rotations of a text, and the walk
starts at a row that is the text, it reads the text.
-/

namespace Rustybox.Bunzip2

open BurrowsWheeler

/-- Turn byteCount into cumulative occurrence counts of 0 to n-1; `j` is the count so far. -/
def cumulate : ℕ → List ℕ → List ℕ
  | _, [] => []
  | j, c :: byteCount => j :: cumulate (j + c) byteCount

/-- One round of the loop that finds what order `dbuf` would be in if we sorted it.  There is none
if it reads or writes outside of the arrays. -/
def sortStep (dbuf : List UInt32) (byteCount : List ℕ) (i : ℕ) : Option (List UInt32 × List ℕ) := do
  let entry ← dbuf[i]?
  let tmpByte := entry.toUInt8.toNat
  let tmpCount ← byteCount[tmpByte]?
  let old ← dbuf[tmpCount]?
  return (dbuf.set tmpCount (old ||| (UInt32.ofNat i <<< 8)), byteCount.set tmpByte (tmpCount + 1))

/-- The loop. -/
def sortBlock (dbuf : List UInt32) (byteCount : List ℕ) (dbufCount : ℕ) : Option (List UInt32) :=
  ((List.range dbufCount).foldlM (fun s i => sortStep s.1 s.2 i)
    (dbuf, cumulate 0 byteCount)).map Prod.fst

def byteOf (entry : UInt32) : UInt8 := entry.toUInt8

def placeOf (entry : UInt32) : ℕ := (entry >>> 8).toNat

/-- The place in an entry as the walk takes it, with a shift of an `int`.  A negative one, which is
before `dbuf`, is here one behind it. -/
def posOf (entry : UInt32) : ℕ := (entry.toInt32 >>> 8).toUInt32.toNat

/-- Follow the sequence vector: the bytes of `count` steps from `pos` on. -/
def walk (dbuf : List UInt32) : ℕ → ℕ → Option (List UInt8)
  | 0, _ => some []
  | count + 1, pos => do
    let entry ← dbuf[pos]?
    let rest ← walk dbuf count (posOf entry)
    return byteOf entry :: rest

/-- `walk` from where `get_next_block` leaves `writePos`. -/
def walkFrom (dbuf : List UInt32) (origPtr dbufCount : ℕ) : Option (List UInt8) := do
  let tmp ← dbuf[origPtr]?
  walk dbuf dbufCount (placeOf tmp)

/-! ### Counting -/

/-- The entries before `i` that have a property. -/
theorem card_filter_lt {n : ℕ} (last : Fin n → ℕ) (p : ℕ → Bool) (i : ℕ) :
    (Finset.univ.filter fun k : Fin n => (k : ℕ) < i ∧ p (last k) = true).card =
      ((List.ofFn last).take i).countP p := by
  induction n generalizing i with
  | zero =>
    rw [List.ofFn_zero, List.take_nil, List.countP_nil, Finset.card_eq_zero]
    ext k
    exact k.elim0
  | succ n ih =>
    cases i with
    | zero => simp
    | succ i =>
      have htail : (Finset.univ.filter fun k : Fin n =>
          (k.succ : ℕ) < i + 1 ∧ p (last k.succ) = true).card =
            ((List.ofFn fun k : Fin n => last k.succ).take i).countP p := by
        rw [← ih (fun k => last k.succ) i]
        simp
      rw [List.ofFn_succ, List.take_succ_cons, List.countP_cons, ← htail,
        Fin.card_filter_univ_succ]
      by_cases hb : p (last 0) = true
      · rw [if_pos hb]
        exact if_pos ⟨Nat.succ_pos i, hb⟩
      · rw [if_neg hb]
        exact if_neg fun h => hb h.2

/-- The place that a stable sort gives to an entry. -/
theorem place_eq {n : ℕ} (last : Fin n → ℕ) (i : Fin n) :
    place last i =
      (List.ofFn last).countP (· < last i) + ((List.ofFn last).take i).count (last i) := by
  have hsmaller := card_filter_lt last (· < last i) n
  have hequal := card_filter_lt last (· == last i) i
  rw [List.take_of_length_le (by simp)] at hsmaller
  rw [← hsmaller, List.count, ← hequal, place, ← Finset.card_union_of_disjoint]
  · congr 1
    ext k
    have hbefore : Before last k i ↔ last k < last i ∨ k < i ∧ last k = last i := by
      rw [and_comm]
      rfl
    simp [hbefore]
  · rw [Finset.disjoint_left]
    intro k hk hk'
    simp at hk hk'
    omega

/-- The counters, cumulated, are where the sort puts the first of each byte. -/
theorem cumulate_getElem (j : ℕ) (cs : List ℕ) (b : ℕ) (hb : b < cs.length) :
    (cumulate j cs)[b]? = some (j + (cs.take b).sum) := by
  induction cs generalizing j b with
  | nil => cases hb
  | cons c cs ih =>
    cases b with
    | zero => simp [cumulate]
    | succ b =>
      rw [cumulate, List.getElem?_cons_succ, ih _ _ (Nat.lt_of_succ_lt_succ hb),
        List.take_succ_cons, List.sum_cons, Nat.add_assoc]

/-- How often each byte is there. -/
def byteCounts (l : List ℕ) : List ℕ := (List.range 256).map l.count

theorem countP_lt_succ (l : List ℕ) (b : ℕ) :
    l.countP (· < b + 1) = l.countP (· < b) + l.count b := by
  induction l with
  | nil => rfl
  | cons a l ih =>
    rw [List.countP_cons, List.countP_cons, List.count_cons, ih]
    rcases lt_trichotomy a b with h | h | h
    · have hne : ¬ a = b := by omega
      have hlt : a < b + 1 := by omega
      simp [h, hne, hlt]
      omega
    · simp [h]
      omega
    · have hne : ¬ a = b := by omega
      have hlt : ¬ a < b + 1 := by omega
      have hlt' : ¬ a < b := by omega
      simp [hlt', hne, hlt]

theorem sum_byteCounts (l : List ℕ) {b : ℕ} (hb : b ≤ 256) :
    ((byteCounts l).take b).sum = l.countP (· < b) := by
  induction b with
  | zero => simp
  | succ b ih =>
    rw [List.take_add_one, List.sum_append, ih (by omega), byteCounts, List.getElem?_map,
      List.getElem?_range (by omega), countP_lt_succ]
    simp

/-! ### Entries -/

def entry (b j : ℕ) : UInt32 := UInt32.ofNat (b + 256 * j)

theorem toNat_entry {b j : ℕ} (hb : b < 256) (hj : j < 2 ^ 24) : (entry b j).toNat = b + 256 * j :=
  UInt32.toNat_ofNat_of_lt' (by change _ < 2 ^ 32; omega)

theorem byteOf_entry {b j : ℕ} (hb : b < 256) (hj : j < 2 ^ 24) :
    byteOf (entry b j) = UInt8.ofNat b := by
  apply UInt8.toNat_inj.mp
  rw [byteOf, UInt32.toNat_toUInt8, toNat_entry hb hj, UInt8.toNat_ofNat']
  omega

theorem placeOf_entry {b j : ℕ} (hb : b < 256) (hj : j < 2 ^ 24) : placeOf (entry b j) = j := by
  have hshift : (8 : UInt32).toNat % 32 = 8 := rfl
  rw [placeOf, UInt32.toNat_shiftRight, hshift, toNat_entry hb hj, Nat.shiftRight_eq_div_pow]
  omega

/-- The place of an entry is not negative if it is less than 2^23. -/
theorem posOf_entry {b j : ℕ} (hb : b < 256) (hj : j < 2 ^ 23) : posOf (entry b j) = j := by
  have hentry := toNat_entry hb (by omega : j < 2 ^ 24)
  have hbits : posOf (entry b j) = ((entry b j).toBitVec.sshiftRight 8).toNat := rfl
  have hmsb : (entry b j).toBitVec.msb = false := by
    rw [BitVec.msb_eq_false_iff_two_mul_lt, UInt32.toNat_toBitVec]
    omega
  rw [hbits, BitVec.sshiftRight_eq_of_msb_false hmsb, BitVec.toNat_ushiftRight,
    UInt32.toNat_toBitVec, hentry, Nat.shiftRight_eq_div_pow]
  omega

theorem entry_or {b j : ℕ} (hb : b < 256) (hj : j < 2 ^ 24) :
    entry b 0 ||| (UInt32.ofNat j <<< 8) = entry b j := by
  have hshift : (8 : UInt32).toNat % 32 = 8 := rfl
  have hj' : (UInt32.ofNat j).toNat = j := UInt32.toNat_ofNat_of_lt' (by change _ < 2 ^ 32; omega)
  apply UInt32.toNat_inj.mp
  rw [UInt32.toNat_or, UInt32.toNat_shiftLeft, hshift, hj', toNat_entry hb (by decide),
    toNat_entry hb hj, Nat.mod_eq_of_lt (by rw [Nat.shiftLeft_eq]; omega), Nat.or_comm]
  have hor := Nat.shiftLeft_add_eq_or_of_lt (show b + 256 * 0 < 2 ^ 8 by omega) j
  rw [← hor, Nat.shiftLeft_eq]
  omega

/-! ### The sort -/

section Rounds

variable {n : ℕ} {last : Fin n → ℕ} {next : Fin n → Fin n} {rest : List UInt32}

/-- `dbuf` and the counters after `i` rounds: the entries from the first `i` places have been
written. -/
structure Sorting (last : Fin n → ℕ) (next : Fin n → Fin n) (rest : List UInt32) (i : ℕ)
    (s : List UInt32 × List ℕ) : Prop where
  dbuf : s.1 = (List.ofFn fun k => entry (last k) (if (next k : ℕ) < i then next k else 0)) ++ rest
  length : s.2.length = 256
  count : ∀ b < 256, s.2[b]? =
    some ((List.ofFn last).countP (· < b) + ((List.ofFn last).take i).count b)

theorem Sorting.getElem {i : ℕ} {s : List UInt32 × List ℕ} (h : Sorting last next rest i s)
    (k : Fin n) :
    s.1[(k : ℕ)]? = some (entry (last k) (if (next k : ℕ) < i then next k else 0)) := by
  rw [h.dbuf, List.getElem?_append_left (by simp)]
  simp

theorem sorting_zero :
    Sorting last next rest 0
      ((List.ofFn last).map UInt32.ofNat ++ rest, cumulate 0 (byteCounts (List.ofFn last))) where
  dbuf := by
    refine congrArg (· ++ rest) ?_
    apply List.ext_getElem <;> simp [entry]
  length := by
    have hlen (j : ℕ) (cs : List ℕ) : (cumulate j cs).length = cs.length := by
      induction cs generalizing j with
      | nil => rfl
      | cons c cs ih => rw [cumulate, List.length_cons, ih, List.length_cons]
    rw [hlen]
    simp [byteCounts]
  count := fun b hb => by
    have hlen : b < (byteCounts (List.ofFn last)).length := by simpa [byteCounts] using hb
    rw [cumulate_getElem 0 _ b hlen, sum_byteCounts _ (by omega)]
    simp

theorem count_take_succ (last : Fin n → ℕ) (i : Fin n) (b : ℕ) :
    ((List.ofFn last).take (i + 1)).count b =
      ((List.ofFn last).take i).count b + if last i = b then 1 else 0 := by
  rw [List.take_add_one, List.getElem?_eq_getElem (by simp), List.getElem_ofFn, List.count_append]
  congr 1
  rw [Option.toList_some, List.count_singleton]
  simp

/-- A turn writes one more entry, that of the row whose next one is `i`. -/
theorem entries_set (last : Fin n → ℕ) {i k : Fin n} (hk : ∀ m, next m = i ↔ m = k) :
    (List.ofFn fun m => entry (last m) (if (next m : ℕ) < i then next m else 0)).set k
        (entry (last k) i) =
      List.ofFn fun m => entry (last m) (if (next m : ℕ) < i + 1 then next m else 0) := by
  apply List.ext_getElem
  · simp
  · intro m hm hm'
    rw [List.length_ofFn] at hm'
    rw [List.getElem_set, List.getElem_ofFn, List.getElem_ofFn]
    have hmk := hk ⟨m, hm'⟩
    by_cases heq : (k : ℕ) = m
    · have hmk' : (⟨m, hm'⟩ : Fin n) = k := Fin.ext heq.symm
      rw [if_pos heq, hmk', (hk k).mpr rfl, if_pos (Nat.lt_succ_self _)]
    · have hne : next ⟨m, hm'⟩ ≠ i := fun hi => heq (congrArg Fin.val (hmk.mp hi)).symm
      have hne' : (next ⟨m, hm'⟩ : ℕ) ≠ i := fun hi => hne (Fin.ext hi)
      have hiff : (next ⟨m, hm'⟩ : ℕ) < i + 1 ↔ (next ⟨m, hm'⟩ : ℕ) < i := by omega
      rw [if_neg heq]
      simp only [hiff]

theorem Sorting.step (hl : ∀ k, last k < 256) (hn : n ≤ 2 ^ 24)
    (hnext : ∀ k, place last (next k) = k) {i : Fin n} {s : List UInt32 × List ℕ}
    (h : Sorting last next rest i s) :
    ∃ s', sortStep s.1 s.2 i = some s' ∧ Sorting last next rest (i + 1) s' := by
  let k : Fin n := ⟨place last i, place_lt _ i⟩
  have hk (m : Fin n) : next m = i ↔ m = k := by
    constructor
    · rintro rfl
      exact Fin.ext (hnext m).symm
    · rintro rfl
      exact place_injective last (hnext k)
  have hplace (m : Fin n) : (if (next m : ℕ) < i then (next m : ℕ) else 0) < 2 ^ 24 := by
    have hm := (next m).isLt
    split <;> omega
  have htmp : (entry (last i) (if (next i : ℕ) < i then next i else 0)).toUInt8.toNat = last i := by
    have hval := congrArg UInt8.toNat (byteOf_entry (hl i) (hplace i))
    rw [UInt8.toNat_ofNat_of_lt' (hl i)] at hval
    exact hval
  have hk' : (k : ℕ) =
      (List.ofFn last).countP (· < last i) + ((List.ofFn last).take i).count (last i) :=
    place_eq last i
  have hold : s.1[(k : ℕ)]? = some (entry (last k) 0) := by
    rw [h.getElem k, if_neg (by rw [(hk k).mpr rfl]; exact lt_irrefl _)]
  refine ⟨(s.1.set k (entry (last k) i), s.2.set (last i) (k + 1)), ?_, ?_, ?_, ?_⟩
  · have hi := i.isLt
    rw [sortStep, h.getElem i]
    simp only [Option.pure_def, Option.bind_eq_bind, Option.bind_some, htmp, h.count _ (hl i),
      ← hk', hold]
    rw [entry_or (hl k) (by omega)]
  · rw [h.dbuf]
    dsimp only
    rw [List.set_append_left _ _ (by simp)]
    exact congrArg (· ++ rest) (entries_set last hk)
  · dsimp only
    rw [List.length_set, h.length]
  · intro b hb
    dsimp only
    rw [List.getElem?_set, count_take_succ]
    by_cases hbi : last i = b
    · subst hbi
      rw [if_pos rfl, if_pos (by rw [h.length]; exact hb), if_pos rfl, hk', Nat.add_assoc]
    · rw [if_neg hbi, if_neg hbi, h.count b hb, Nat.add_zero]

theorem sorting_rounds (hl : ∀ k, last k < 256) (hn : n ≤ 2 ^ 24)
    (hnext : ∀ k, place last (next k) = k) (rest : List UInt32) {i : ℕ} (hi : i ≤ n) :
    ∃ s, (List.range i).foldlM (fun s i => sortStep s.1 s.2 i)
        ((List.ofFn last).map UInt32.ofNat ++ rest, cumulate 0 (byteCounts (List.ofFn last))) =
          some s ∧
      Sorting last next rest i s := by
  induction i with
  | zero => exact ⟨_, rfl, sorting_zero⟩
  | succ i ih =>
    obtain ⟨s, hs, hsorting⟩ := ih (by omega)
    obtain ⟨s', hs', hsorting'⟩ :=
      Sorting.step hl hn hnext (i := ⟨i, by omega⟩) hsorting
    refine ⟨s', ?_, hsorting'⟩
    rw [List.range_succ, List.foldlM_append, hs]
    simp only [Option.bind_eq_bind, Option.bind_some, List.foldlM_cons, List.foldlM_nil, hs']
    rfl

/-- What the sort leaves: each entry has its byte, and the place where the sort took the byte of
this place from. -/
theorem sortBlock_eq (hl : ∀ k, last k < 256) (hn : n ≤ 2 ^ 24)
    (hnext : ∀ k, place last (next k) = k) :
    sortBlock ((List.ofFn last).map UInt32.ofNat ++ rest) (byteCounts (List.ofFn last)) n =
      some ((List.ofFn fun k => entry (last k) (next k)) ++ rest) := by
  obtain ⟨s, hs, hsorting⟩ := sorting_rounds hl hn hnext rest le_rfl
  rw [sortBlock, hs, Option.map_some, hsorting.dbuf]
  simp only [Fin.is_lt, if_true]

/-! ### The walk -/

theorem walk_eq (hl : ∀ k, last k < 256) (hn : n ≤ 2 ^ 23) (count : ℕ) (pos : Fin n) :
    walk ((List.ofFn fun k => entry (last k) (next k)) ++ rest) count pos =
      some (List.ofFn fun k : Fin count => UInt8.ofNat (last (next^[k] pos))) := by
  induction count generalizing pos with
  | zero => rfl
  | succ count ih =>
    have hpos : (next pos : ℕ) < 2 ^ 23 := lt_of_lt_of_le (next pos).isLt hn
    have hpos' : (next pos : ℕ) < 2 ^ 24 := by omega
    have hentry : ((List.ofFn fun k => entry (last k) (next k)) ++ rest)[(pos : ℕ)]? =
        some (entry (last pos) (next pos)) := by
      rw [List.getElem?_append_left (by simp)]
      simp
    rw [walk, hentry]
    simp only [Option.bind_eq_bind, Option.bind_some, posOf_entry (hl pos) hpos,
      byteOf_entry (hl pos) hpos', ih]
    rw [List.ofFn_succ]
    rfl

end Rounds

/-- **The sort and the walk undo the transform**, whichever of the rows that are the text the walk
starts at, and whatever `dbuf` holds behind the block. -/
theorem walk_sortBlock {text : List ℕ} (htext : ∀ b ∈ text, b < 256) (hlen : text.length ≤ 2 ^ 23)
    {rows : Fin text.length → List ℕ} {last : Fin text.length → ℕ} (h : IsTable text rows last)
    {orig : Fin text.length} (horig : rows orig = text) (rest : List UInt32) :
    (sortBlock ((List.ofFn last).map UInt32.ofNat ++ rest) (byteCounts (List.ofFn last))
        text.length).bind (fun dbuf => walkFrom dbuf orig text.length) =
      some (text.map UInt8.ofNat) := by
  have hl (k : Fin text.length) : last k < 256 := by
    obtain ⟨σ, hσ⟩ := h.perm
    have hmem := List.mem_of_getLast? (h.last_eq k)
    rw [hσ, List.mem_rotate] at hmem
    exact htext _ hmem
  choose next hnext using fun k : Fin text.length => exists_place_eq last k.isLt
  rw [sortBlock_eq hl (by omega) hnext, Option.bind_some]
  have hentry : ((List.ofFn fun k => entry (last k) (next k)) ++ rest)[(orig : ℕ)]? =
      some (entry (last orig) (next orig)) := by
    rw [List.getElem?_append_left (by simp)]
    simp
  have hpos : (next orig : ℕ) < 2 ^ 24 := (next orig).isLt.trans (by omega)
  rw [walkFrom, hentry]
  simp only [Option.bind_eq_bind, Option.bind_some, placeOf_entry (hl orig) hpos]
  rw [walk_eq hl hlen]
  refine congrArg some ?_
  apply List.ext_getElem
  · simp
  · intro k hk hk'
    rw [List.getElem_ofFn, List.getElem_map]
    refine congrArg UInt8.ofNat ?_
    rw [List.length_ofFn] at hk
    exact h.walk_eq hnext horig k hk

/-- The six letters of "banana". -/
theorem walk_sortBlock_banana : ∃ orig : ℕ,
    (sortBlock ((List.ofFn (column [98, 97, 110, 97, 110, 97])).map UInt32.ofNat ++ [])
        (byteCounts (List.ofFn (column [98, 97, 110, 97, 110, 97]))) 6).bind
        (fun dbuf => walkFrom dbuf orig 6) = some [98, 97, 110, 97, 110, 97] := by
  obtain ⟨orig, horig⟩ := exists_row_eq (show [98, 97, 110, 97, 110, 97] ≠ [] by decide)
  exact ⟨orig, walk_sortBlock (by decide) (by decide) (isTable _) horig []⟩

end Rustybox.Bunzip2
