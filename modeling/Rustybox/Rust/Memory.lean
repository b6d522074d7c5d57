import Mathlib.Data.List.Basic

/-!
# Memory

The bytes from one address on, for code that reads and writes by offset: what lies behind the end of
a buffer is part of the memory as well.
-/

namespace Rustybox.Rust

/-- The bytes from an address on. -/
abbrev Memory := ℕ → UInt8

/-- The `len` bytes at `off`. -/
def load (mem : Memory) (off len : ℕ) : List UInt8 := (List.range len).map fun i => mem (off + i)

/-- `memcpy` to `off`. -/
def store (mem : Memory) (off : ℕ) (bs : List UInt8) : Memory := fun i =>
  if off ≤ i then bs.getD (i - off) (mem i) else mem i

/-- `strlen`, which looks at `room` bytes at most. -/
def strlen (mem : Memory) (off : ℕ) : ℕ → ℕ
  | 0 => 0
  | room + 1 => if mem off = 0 then 0 else strlen mem (off + 1) room + 1

@[simp] theorem length_load (mem : Memory) (off len : ℕ) : (load mem off len).length = len := by
  simp [load]

theorem getElem?_load {mem : Memory} {off len i : ℕ} (hi : i < len) :
    (load mem off len)[i]? = some (mem (off + i)) := by
  simp [load, hi]

theorem load_congr {mem mem' : Memory} {off len : ℕ}
    (h : ∀ i, off ≤ i → i < off + len → mem i = mem' i) : load mem off len = load mem' off len := by
  refine List.map_congr_left fun i hi => ?_
  have := List.mem_range.mp hi
  exact h _ (Nat.le_add_right _ _) (by omega)

theorem load_add (mem : Memory) (off m n : ℕ) :
    load mem off (m + n) = load mem off m ++ load mem (off + m) n := by
  rw [load, List.range_add, List.map_append, List.map_map]
  refine congrArg _ (List.map_congr_left fun i _ => ?_)
  rw [Function.comp_apply, Nat.add_assoc]

theorem drop_load (mem : Memory) (off : ℕ) {len k : ℕ} (hk : k ≤ len) :
    (load mem off len).drop k = load mem (off + k) (len - k) := by
  have hsplit : len = k + (len - k) := by omega
  conv_lhs => rw [hsplit, load_add]
  exact List.drop_left' (length_load _ _ _)

theorem take_load (mem : Memory) (off : ℕ) {len k : ℕ} (hk : k ≤ len) :
    (load mem off len).take k = load mem off k := by
  have hsplit : len = k + (len - k) := by omega
  conv_lhs => rw [hsplit, load_add]
  exact List.take_left' (length_load _ _ _)

theorem store_before {mem : Memory} {off i : ℕ} {bs : List UInt8} (h : i < off) :
    store mem off bs i = mem i := by
  rw [store, if_neg (by omega)]

theorem store_after {mem : Memory} {off i : ℕ} {bs : List UInt8} (h : off + bs.length ≤ i) :
    store mem off bs i = mem i := by
  rw [store]
  split
  · rw [List.getD_eq_getElem?_getD, List.getElem?_eq_none (by omega)]
    rfl
  · rfl

theorem store_inside {mem mem' : Memory} {off i : ℕ} {bs : List UInt8} (h : off ≤ i)
    (hi : i < off + bs.length) : store mem off bs i = store mem' off bs i := by
  rw [store, store, if_pos h, if_pos h, List.getD_eq_getElem?_getD, List.getD_eq_getElem?_getD,
    List.getElem?_eq_getElem (by omega)]
  rfl

theorem store_congr {mem mem' : Memory} {off i : ℕ} {bs : List UInt8} (h : mem i = mem' i) :
    store mem off bs i = store mem' off bs i := by
  rw [store, store, h]

theorem load_store (mem : Memory) (off : ℕ) (bs : List UInt8) :
    load (store mem off bs) off bs.length = bs := by
  refine List.ext_getElem? fun i => ?_
  rcases Nat.lt_or_ge i bs.length with hi | hi
  · rw [getElem?_load hi, store, if_pos (Nat.le_add_right _ _), Nat.add_sub_cancel_left,
      List.getD_eq_getElem?_getD, List.getElem?_eq_getElem hi]
    rfl
  · rw [List.getElem?_eq_none (by simpa using hi), List.getElem?_eq_none hi]

theorem store_store (mem : Memory) (off : ℕ) (as bs : List UInt8) :
    store (store mem off as) (off + as.length) bs = store mem off (as ++ bs) := by
  funext i
  simp only [store, List.getD_eq_getElem?_getD]
  by_cases hoff : off ≤ i
  · by_cases hlen : off + as.length ≤ i
    · rw [if_pos hlen, if_pos hoff, if_pos hoff, List.getElem?_append_right (by omega),
        Nat.sub_sub, List.getElem?_eq_none (by omega : as.length ≤ i - off), Option.getD_none]
    · rw [if_neg hlen, if_pos hoff, if_pos hoff, List.getElem?_append_left (by omega)]
  · rw [if_neg (by omega), if_neg hoff, if_neg hoff]

theorem load_store_of_disjoint {mem : Memory} {off len at' : ℕ} {bs : List UInt8}
    (h : off + len ≤ at' ∨ at' + bs.length ≤ off) :
    load (store mem at' bs) off len = load mem off len := by
  refine load_congr fun i hi hlt => ?_
  rcases h with h | h
  · exact store_before (by omega)
  · exact store_after (by omega)

/-- The string ends before the next NUL. -/
theorem strlen_le_of_zero {mem : Memory} {off room k : ℕ} (h : mem (off + k) = 0) :
    strlen mem off room ≤ k := by
  induction room generalizing off k with
  | zero => exact Nat.zero_le _
  | succ room ih =>
    rw [strlen]
    split
    · exact Nat.zero_le _
    · rename_i hne
      cases k with
      | zero => exact absurd h hne
      | succ k =>
        refine Nat.succ_le_succ (ih ?_)
        rwa [Nat.add_assoc, Nat.add_comm 1 k]

/-- The length of a string depends on the string and its NUL only. -/
theorem strlen_congr {mem mem' : Memory} {off room : ℕ}
    (h : ∀ i, off ≤ i → i ≤ off + strlen mem off room → mem i = mem' i) :
    strlen mem' off room = strlen mem off room := by
  induction room generalizing off with
  | zero => rfl
  | succ room ih =>
    have hfirst := h off (Nat.le_refl _) (Nat.le_add_right _ _)
    rw [strlen] at h
    rw [strlen, strlen, ← hfirst]
    split
    · rfl
    · rename_i hne
      rw [if_neg hne] at h
      rw [ih fun i hi hle => h i (by omega) (by omega)]

end Rustybox.Rust
