import Rustybox.Bunzip2.Bounds

/-!
# Decoding bits

The parts of a block, as they are written: the map of the bytes, the selectors, the lengths of the
codes, and the codes of the symbols; a symbol is the place of a byte in a list in which the byte
moves to the front, and zeros are the digits of their number, with the digits 1 and 2 in the place
of 0 and 1.

`Undoes` says that the loop over symbols undoes them, `Decodes` that a reading program gets a value
out of a string of bits.
-/

namespace Rustybox.Bunzip2

/-- RUNA and RUNB: the digits of a number, the lowest first. -/
def runDigits : ℕ → List ℕ
  | 0 => []
  | n + 1 => n % 2 :: runDigits (n / 2)
termination_by n => n
decreasing_by omega

/-- The symbols for the places `is` of bytes in `symToByte`.  Before them `zeros` have been counted. -/
def symbolsOf (count : ℕ) : List ℕ → ℕ → List ℕ → List ℕ
  | _, zeros, [] => runDigits zeros ++ [count + 1]
  | mtfSymbol, zeros, i :: is =>
    if mtfSymbol.idxOf i = 0 then symbolsOf count mtfSymbol (zeros + 1) is
    else
      runDigits zeros ++ (mtfSymbol.idxOf i + 1) ::
        symbolsOf count (i :: mtfSymbol.erase i) 0 is

theorem le_one_of_mem_runDigits {n nextSym : ℕ} (h : nextSym ∈ runDigits n) : nextSym ≤ 1 := by
  induction n using Nat.strong_induction_on with
  | _ n ih =>
    cases n with
    | zero =>
      rw [runDigits] at h
      cases h
    | succ n =>
      rw [runDigits, List.mem_cons] at h
      rcases h with rfl | h
      · omega
      · exact ih (n / 2) (by omega) h

theorem length_runDigits_le (n : ℕ) : (runDigits n).length ≤ n := by
  induction n using Nat.strong_induction_on with
  | _ n ih =>
    cases n with
    | zero =>
      rw [runDigits]
      exact le_rfl
    | succ n =>
      have hle := ih (n / 2) (by omega)
      rw [runDigits, List.length_cons]
      omega

/-- There is no more than one symbol for a byte, and the terminating one. -/
theorem length_symbolsOf_le (count : ℕ) (mtfSymbol : List ℕ) (zeros : ℕ) (is : List ℕ) :
    (symbolsOf count mtfSymbol zeros is).length ≤ zeros + is.length + 1 := by
  have hzeros := length_runDigits_le
  induction is generalizing mtfSymbol zeros with
  | nil =>
    rw [symbolsOf, List.length_append]
    exact Nat.add_le_add_right (hzeros zeros) 1
  | cons i is ih =>
    rw [symbolsOf, List.length_cons]
    split
    · have hle := ih mtfSymbol (zeros + 1)
      omega
    · have hle := ih (i :: mtfSymbol.erase i) 0
      have hz := hzeros zeros
      rw [List.length_append, List.length_cons]
      omega

/-- The places of the bytes that are used stay in front. -/
theorem idxOf_lt_of_perm {count i : ℕ} {front : List ℕ} (back : List ℕ)
    (hfront : front.Perm (List.range count)) (hi : i < count) :
    i ∈ front ∧ (front ++ back).idxOf i < count ∧
      i :: (front ++ back).erase i = (i :: front.erase i) ++ back ∧
      (i :: front.erase i).Perm (List.range count) := by
  have hmem : i ∈ front := hfront.mem_iff.mpr (List.mem_range.mpr hi)
  have hlt := List.idxOf_lt_length_of_mem hmem
  rw [hfront.length_eq, List.length_range] at hlt
  refine ⟨hmem, ?_, ?_, (List.perm_cons_erase hmem).symm.trans hfront⟩
  · rwa [List.idxOf_append_of_mem hmem]
  · rw [List.erase_append_left back hmem]
    rfl

theorem le_of_mem_symbolsOf {count zeros nextSym : ℕ} {is front back : List ℕ}
    (hfront : front.Perm (List.range count)) (his : ∀ i ∈ is, i < count)
    (h : nextSym ∈ symbolsOf count (front ++ back) zeros is) : nextSym ≤ count + 1 := by
  induction is generalizing front zeros with
  | nil =>
    rw [symbolsOf, List.mem_append, List.mem_singleton] at h
    rcases h with h | rfl
    · have hle := le_one_of_mem_runDigits h
      omega
    · exact le_rfl
  | cons i is ih =>
    obtain ⟨-, hidx, hnext, hperm⟩ := idxOf_lt_of_perm back hfront
      (his i (List.mem_cons_self ..))
    have his' : ∀ i ∈ is, i < count := fun j hj => his j (List.mem_cons_of_mem _ hj)
    rw [symbolsOf] at h
    split at h
    · exact ih hfront his' h
    · rw [hnext, List.mem_append, List.mem_cons] at h
      rcases h with h | rfl | h
      · have hle := le_one_of_mem_runDigits h
        omega
      · omega
      · exact ih hperm his' h

/-- The symbols are undone, up to the terminating one, which is the last. -/
inductive Undoes (c : Setting) : Undoing → List ℕ → Undoing → Prop
  | last {d d' : Undoing} {nextSym : ℕ} (h : undoSymbol c d nextSym = .ok (d', true)) :
      Undoes c d [nextSym] d'
  | more {d d' d'' : Undoing} {nextSym : ℕ} {symbols : List ℕ}
      (h : undoSymbol c d nextSym = .ok (d', false)) (rest : Undoes c d' symbols d'') :
      Undoes c d (nextSym :: symbols) d''

section Symbols

variable {c : Setting} (hsize : c.dbufSize ≤ 900000)

/-! ### Runs -/

/-- What the next digit counts for. -/
def weight (d : Undoing) : ℕ := if d.runPos = 0 then 1 else d.runPos.toNat

/-- The number that the digits have given. -/
def counted (d : Undoing) : ℕ := if d.runPos = 0 then 0 else d.runCnt.toNat

theorem shiftLeft_one_toNat {a : UInt32} (ha : a.toNat < 2 ^ 31) : (a <<< 1).toNat = a.toNat * 2 := by
  have h1 : (1 : UInt32).toNat % 32 = 1 := rfl
  rw [UInt32.toNat_shiftLeft, h1, Nat.shiftLeft_eq, pow_one, Nat.mod_eq_of_lt (by omega)]

theorem shiftLeft_digit_toNat {a : UInt32} (ha : a.toNat < 2 ^ 31) {nextSym : ℕ}
    (hdigit : nextSym ≤ 1) : (a <<< UInt32.ofNat nextSym).toNat = a.toNat * (nextSym + 1) := by
  obtain rfl | rfl : nextSym = 0 ∨ nextSym = 1 := by omega
  · have h0 : (UInt32.ofNat 0).toNat % 32 = 0 := rfl
    rw [UInt32.toNat_shiftLeft, h0, Nat.shiftLeft_zero, Nat.mod_eq_of_lt (by omega), Nat.mul_one]
  · exact shiftLeft_one_toNat ha

include hsize

theorem runSymbol_eq {d : Undoing} {nextSym k : ℕ} (hdigit : nextSym ≤ 1) (hweight : weight d = 2 ^ k)
    (hle : counted d + 2 ^ k * (nextSym + 1) ≤ c.dbufSize) :
    ∃ runPos runCnt, runSymbol c d nextSym = .ok { d with runPos := runPos, runCnt := runCnt } ∧
      runPos ≠ 0 ∧ runCnt.toNat = counted d + 2 ^ k * (nextSym + 1) ∧
      (2 ^ k < c.dbufSize → runPos.toNat = 2 ^ (k + 1)) := by
  obtain ⟨a, ha⟩ : ∃ a, a = if d.runPos = 0 then 1 else d.runPos := ⟨_, rfl⟩
  obtain ⟨n, hn⟩ : ∃ n, n = if d.runPos = 0 then 0 else d.runCnt := ⟨_, rfl⟩
  have haw : a.toNat = 2 ^ k := by
    rw [← hweight, ha, weight]
    split <;> rfl
  have hnc : n.toNat = counted d := by
    rw [hn, counted]
    split <;> rfl
  have hk : 2 ^ k ≤ c.dbufSize := by
    have h1 : 2 ^ k * 1 ≤ 2 ^ k * (nextSym + 1) := Nat.mul_le_mul_left _ (Nat.le_add_left 1 nextSym)
    omega
  have hshift := shiftLeft_digit_toNat (a := a) (by omega) hdigit
  have hsum : (n + a <<< UInt32.ofNat nextSym).toNat = counted d + 2 ^ k * (nextSym + 1) := by
    rw [UInt32.toNat_add, hshift, haw, hnc, Nat.mod_eq_of_lt (by omega)]
  have htest : ¬ (c.checked = true ∧ c.dbufSize < (n + a <<< UInt32.ofNat nextSym).toNat) := by
    rw [hsum]
    exact fun h => not_le.mpr h.2 hle
  refine ⟨if a.toNat < c.dbufSize then a <<< 1 else a, _, ?_, ?_, hsum, fun hlt => ?_⟩
  · unfold runSymbol
    dsimp only
    rw [← ha, ← hn, if_neg htest]
  · intro h0
    have hzero := congrArg UInt32.toNat h0
    have hpow := Nat.two_pow_pos k
    split at hzero
    · rw [shiftLeft_one_toNat (by omega), haw] at hzero
      have hzero' : 2 ^ k * 2 = 0 := hzero
      omega
    · rw [haw] at hzero
      have hzero' : 2 ^ k = 0 := hzero
      omega
  · rw [haw, if_pos hlt, shiftLeft_one_toNat (by omega), haw, pow_succ]

theorem undoes_runDigits {n : ℕ} (hn : 0 < n) {d : Undoing} {k : ℕ} (hweight : weight d = 2 ^ k)
    (hle : counted d + 2 ^ k * n ≤ c.dbufSize) :
    ∃ runPos runCnt, runPos ≠ 0 ∧ runCnt.toNat = counted d + 2 ^ k * n ∧
      ∀ symbols d', Undoes c { d with runPos := runPos, runCnt := runCnt } symbols d' →
        Undoes c d (runDigits n ++ symbols) d' := by
  induction n using Nat.strong_induction_on generalizing d k with
  | _ n ih =>
    obtain ⟨n, rfl⟩ : ∃ m, n = m + 1 := ⟨n - 1, by omega⟩
    have hdigit : n % 2 ≤ 1 := by omega
    have hsplit : 2 ^ k * (n + 1) = 2 ^ k * (n % 2 + 1) + 2 ^ (k + 1) * (n / 2) := by
      rw [pow_succ, Nat.mul_assoc, ← Nat.mul_add]
      congr 1
      omega
    obtain ⟨runPos, runCnt, hrun, hne, hcnt, hpos⟩ :=
      runSymbol_eq hsize hdigit hweight (by omega)
    have hundo : undoSymbol c d (n % 2) =
        .ok ({ d with runPos := runPos, runCnt := runCnt }, false) := by
      unfold undoSymbol
      rw [if_pos hdigit, hrun]
      rfl
    rw [runDigits]
    by_cases hlast : n / 2 = 0
    · refine ⟨runPos, runCnt, hne, ?_, fun symbols d' h => ?_⟩
      · rw [hcnt, hsplit, hlast, Nat.mul_zero, Nat.add_zero (2 ^ k * _)]
      · rw [hlast, runDigits]
        exact .more hundo h
    · have hmore : 0 < n / 2 := Nat.pos_of_ne_zero hlast
      have hlt : 2 ^ k < c.dbufSize := by
        have h1 : 2 ^ (k + 1) * 1 ≤ 2 ^ (k + 1) * (n / 2) := Nat.mul_le_mul_left _ hmore
        have hpow := Nat.two_pow_pos k
        rw [pow_succ] at h1
        rw [pow_succ] at hsplit
        omega
      have hweight' : weight { d with runPos := runPos, runCnt := runCnt } = 2 ^ (k + 1) := by
        rw [weight, if_neg hne]
        exact hpos hlt
      have hcounted : counted { d with runPos := runPos, runCnt := runCnt } =
          counted d + 2 ^ k * (n % 2 + 1) := by
        rw [counted, if_neg hne]
        exact hcnt
      obtain ⟨runPos', runCnt', hne', hcnt', hrest⟩ :=
        ih (n / 2) (by omega) hmore hweight' (by rw [hcounted]; omega)
      refine ⟨runPos', runCnt', hne', ?_, fun symbols d' h => .more hundo (hrest symbols d' h)⟩
      rw [hcnt', hcounted, hsplit, Nat.add_assoc]

theorem undoes_zeros {zeros : ℕ} {d : Undoing} (hrunPos : d.runPos = 0)
    (hle : d.dbuf.length + zeros ≤ c.dbufSize) :
    ∃ d' d'', flushRun c d' = .ok d'' ∧ d''.runPos = 0 ∧ d''.mtfSymbol = d.mtfSymbol ∧
      d''.dbuf = d.dbuf ++ List.replicate zeros (c.symToByte.getD (d.mtfSymbol.headD 0) 0) ∧
      ∀ symbols r, Undoes c d' symbols r → Undoes c d (runDigits zeros ++ symbols) r := by
  rcases Nat.eq_zero_or_pos zeros with rfl | hpos
  · refine ⟨d, d, if_pos hrunPos, hrunPos, rfl, (List.append_nil _).symm, fun symbols r h => ?_⟩
    rw [runDigits]
    exact h
  · have hweight : weight d = 2 ^ 0 := if_pos hrunPos
    have hcounted : counted d = 0 := if_pos hrunPos
    obtain ⟨runPos, runCnt, hne, hcnt, hrest⟩ :=
      undoes_runDigits hsize hpos hweight (by rw [hcounted]; omega)
    rw [hcounted, pow_zero, Nat.one_mul, Nat.zero_add] at hcnt
    have hsum : (UInt32.ofNat d.dbuf.length + runCnt).toNat = d.dbuf.length + zeros := by
      rw [UInt32.toNat_add, UInt32.toNat_ofNat', hcnt, Nat.mod_eq_of_lt (by omega : _ < 2 ^ 32),
        Nat.mod_eq_of_lt (by omega)]
    have hsmall : runCnt.toNat ≤ 2 ^ 31 := by omega
    obtain ⟨d'', hwrite, hd''⟩ : ∃ d'', write c { d with runPos := 0, runCnt := runCnt }
        (c.symToByte.getD (d.mtfSymbol.headD 0) 0) zeros runCnt = .ok d'' ∧ d''.runPos = 0 ∧
          d''.mtfSymbol = d.mtfSymbol ∧
          d''.dbuf = d.dbuf ++ List.replicate zeros (c.symToByte.getD (d.mtfSymbol.headD 0) 0) := by
      unfold write
      rw [if_neg (not_lt.mpr hle)]
      exact ⟨_, rfl, rfl, rfl, rfl⟩
    refine ⟨{ d with runPos := runPos, runCnt := runCnt }, d'', ?_, hd''.1, hd''.2.1, hd''.2.2,
      hrest⟩
    unfold flushRun
    dsimp only
    rw [if_neg hne, hsum, if_neg (not_lt.mpr hle), if_pos hsmall, hcnt]
    exact hwrite

/-! ### Bytes -/

omit hsize in
theorem toFront_idxOf {i : ℕ} {l : List ℕ} (hi : i ∈ l) :
    toFront (l.idxOf i) l = some (i, i :: l.erase i) := by
  have hlt := List.idxOf_lt_length_of_mem hi
  rw [toFront, List.getElem?_eq_getElem hlt, List.getElem_idxOf hlt,
    List.erase_eq_eraseIdx_of_idxOf rfl]
  rfl

omit hsize in
theorem literalSymbol_idxOf {d : Undoing} {i : ℕ} (hi : i ∈ d.mtfSymbol)
    (hfree : d.dbuf.length < c.dbufSize) :
    ∃ d', literalSymbol c d (d.mtfSymbol.idxOf i + 1) = .ok d' ∧ d'.runPos = d.runPos ∧
      d'.mtfSymbol = i :: d.mtfSymbol.erase i ∧ d'.dbuf = d.dbuf ++ [c.symToByte.getD i 0] := by
  unfold literalSymbol
  rw [if_neg (not_le.mpr hfree), Nat.add_sub_cancel, toFront_idxOf hi]
  dsimp only
  unfold write
  rw [if_neg (not_lt.mpr hfree)]
  exact ⟨_, rfl, rfl, rfl, rfl⟩

/-- The copies that have been counted are written, and then a byte that is not the one in front. -/
theorem undoes_literal {zeros i : ℕ} {d : Undoing} (hrunPos : d.runPos = 0)
    (hi : i ∈ d.mtfSymbol) (hidx : d.mtfSymbol.idxOf i < c.symToByte.length)
    (hzero : d.mtfSymbol.idxOf i ≠ 0) (hle : d.dbuf.length + zeros < c.dbufSize) :
    ∃ d', d'.runPos = 0 ∧ d'.mtfSymbol = i :: d.mtfSymbol.erase i ∧
      d'.dbuf = d.dbuf ++ List.replicate zeros (c.symToByte.getD (d.mtfSymbol.headD 0) 0) ++
        [c.symToByte.getD i 0] ∧
      ∀ symbols r, Undoes c d' symbols r →
        Undoes c d (runDigits zeros ++ (d.mtfSymbol.idxOf i + 1) :: symbols) r := by
  obtain ⟨d₁, d₂, hflush, hpos₂, hmtf₂, hdbuf₂, hrest⟩ := undoes_zeros hsize hrunPos hle.le
  have hfree : d₂.dbuf.length < c.dbufSize := by
    rw [hdbuf₂, List.length_append, List.length_replicate]
    exact hle
  obtain ⟨d₃, hliteral, hpos₃, hmtf₃, hdbuf₃⟩ := literalSymbol_idxOf (hmtf₂ ▸ hi) hfree
  rw [hmtf₂] at hliteral hmtf₃
  have hrun : ¬ d.mtfSymbol.idxOf i + 1 ≤ 1 := by omega
  have hundo : undoSymbol c d₁ (d.mtfSymbol.idxOf i + 1) = .ok (d₃, false) := by
    unfold undoSymbol
    rw [if_neg hrun, hflush]
    change (if d.mtfSymbol.idxOf i + 1 > c.symToByte.length then _ else _) = _
    rw [if_neg (not_lt.mpr (Nat.succ_le_of_lt hidx)), hliteral]
    rfl
  refine ⟨d₃, hpos₃.trans hpos₂, hmtf₃, ?_, fun symbols r h => hrest _ _ (.more hundo h)⟩
  rw [hdbuf₃, hdbuf₂]

variable (hcount : 0 < c.symToByte.length)

include hcount

/-- **The symbols are undone**, and the bytes are there. -/
theorem undoes_symbolsOf {is front back : List ℕ} {zeros : ℕ} {d : Undoing}
    (hrunPos : d.runPos = 0) (hmtf : d.mtfSymbol = front ++ back)
    (hfront : front.Perm (List.range c.symToByte.length)) (his : ∀ i ∈ is, i < c.symToByte.length)
    (hle : d.dbuf.length + zeros + is.length ≤ c.dbufSize) :
    ∃ d', Undoes c d (symbolsOf c.symToByte.length d.mtfSymbol zeros is) d' ∧
      d'.dbuf = d.dbuf ++ List.replicate zeros (c.symToByte.getD (d.mtfSymbol.headD 0) 0) ++
        is.map fun i => c.symToByte.getD i 0 := by
  induction is generalizing zeros d front with
  | nil =>
    obtain ⟨d', d'', hflush, -, -, hdbuf, hrest⟩ :=
      undoes_zeros hsize hrunPos ((Nat.le_add_right _ _).trans hle)
    have hrun : ¬ c.symToByte.length + 1 ≤ 1 := by omega
    have hundo : undoSymbol c d' (c.symToByte.length + 1) = .ok (d'', true) := by
      unfold undoSymbol
      rw [if_neg hrun, hflush]
      exact if_pos (Nat.lt_succ_self _)
    refine ⟨d'', hrest _ _ (.last hundo), ?_⟩
    rw [hdbuf]
    exact (List.append_nil _).symm
  | cons i is ih =>
    obtain ⟨hi, hidx, hnext, hperm⟩ := idxOf_lt_of_perm back hfront (his i (List.mem_cons_self ..))
    rw [← hmtf] at hidx hnext
    have hi' : i ∈ d.mtfSymbol := hmtf ▸ List.mem_append_left back hi
    have his' : ∀ i ∈ is, i < c.symToByte.length := fun j hj => his j (List.mem_cons_of_mem _ hj)
    rw [List.length_cons] at hle
    rw [symbolsOf]
    by_cases hzero : d.mtfSymbol.idxOf i = 0
    · -- it is in front already, and is counted
      have hlt := List.idxOf_lt_length_of_mem hi'
      have hhead : d.mtfSymbol.headD 0 = i := by
        have hget := List.getElem_idxOf hlt
        rw [List.headD_eq_head?_getD, List.head?_eq_getElem?, ← hzero, List.getElem?_eq_getElem hlt,
          hget]
        rfl
      rw [if_pos hzero]
      have hle' : d.dbuf.length + (zeros + 1) + is.length ≤ c.dbufSize := by omega
      obtain ⟨d', hundoes, hdbuf⟩ := ih hrunPos hmtf hfront his' hle'
      refine ⟨d', hundoes, ?_⟩
      rw [hdbuf, hhead, List.replicate_succ', List.map_cons]
      simp only [List.append_assoc]
      rfl
    · have hlt' : d.dbuf.length + zeros < c.dbufSize := by omega
      obtain ⟨d₁, hpos₁, hmtf₁, hdbuf₁, hrest⟩ :=
        undoes_literal hsize hrunPos hi' hidx hzero hlt'
      have hle₁ : d₁.dbuf.length + 0 + is.length ≤ c.dbufSize := by
        rw [hdbuf₁, List.length_append, List.length_append, List.length_replicate]
        change d.dbuf.length + zeros + 1 + 0 + is.length ≤ _
        omega
      obtain ⟨d', hundoes, hdbuf⟩ := ih hpos₁ (hmtf₁.trans hnext) hperm his' hle₁
      rw [if_neg hzero]
      refine ⟨d', hrest _ _ (hmtf₁ ▸ hundoes), ?_⟩
      rw [hdbuf, hdbuf₁, List.map_cons]
      simp only [List.append_assoc]
      rfl

end Symbols

open BitString CanonicalCode
open Rustybox.Libbb

/-- A program gets `a` out of the bits of `word`, wherever they are, if `spare` bits are behind. -/
def Decodes {α : Type} (bits : List Bool) (spare : ℕ) (x : Reading ℕ α) (word : List Bool)
    (a : α) : Prop :=
  ∀ pos rest, bits.drop pos = word ++ rest → spare ≤ rest.length → x pos = .ok (a, pos + word.length)

section Decodes

variable {bits : List Bool} {spare : ℕ} {α β : Type}

theorem Decodes.pure (a : α) : Decodes bits spare (pure a) [] a := fun _ _ _ _ => rfl

theorem Decodes.lift {y : Except Fail α} {a : α} (h : y = .ok a) :
    Decodes bits spare (liftM y) [] a := by
  subst h
  exact fun _ _ _ _ => rfl

theorem drop_append {pos : ℕ} {word rest : List Bool} (h : bits.drop pos = word ++ rest) :
    bits.drop (pos + word.length) = rest := by
  rw [← List.drop_drop, h, List.drop_left]

theorem length_le {pos : ℕ} {word rest : List Bool} (h : bits.drop pos = word ++ rest)
    (hpos : 0 < word.length) : pos + word.length ≤ bits.length := by
  have hlen := congrArg List.length h
  rw [List.length_drop, List.length_append] at hlen
  omega

theorem Decodes.bind {x : Reading ℕ α} {f : α → Reading ℕ β} {word word' : List Bool} {a : α} {b : β}
    (h : Decodes bits spare x word a) (h' : Decodes bits spare (f a) word' b) :
    Decodes bits spare (x >>= f) (word ++ word') b := by
  intro pos rest hbits hspare
  rw [List.append_assoc] at hbits
  have hspare' : spare ≤ (word' ++ rest).length := by
    rw [List.length_append]
    exact Nat.le_add_left_of_le hspare
  have hx := h pos (word' ++ rest) hbits hspare'
  rw [bind_ok hx, h' _ rest (drop_append hbits) hspare, List.length_append, Nat.add_assoc]

/-- The last part has no bits of its own. -/
theorem Decodes.map {x : Reading ℕ α} {f : α → Reading ℕ β} {word : List Bool} {a : α} {b : β}
    (h : Decodes bits spare x word a) (h' : Decodes bits spare (f a) [] b) :
    Decodes bits spare (x >>= f) word b := by
  have hbind := h.bind h'
  rwa [List.append_nil] at hbind

variable (bits spare)

theorem decodes_bits (word : List Bool) (hpos : 0 < word.length) :
    Decodes bits spare ((bitReader bits).getBits word.length) word (value word) := by
  intro pos rest hbits _
  change bitsAt bits word.length pos = _
  unfold bitsAt
  rw [if_pos (length_le hbits hpos), hbits, List.take_left]

theorem decodes_ofNat {n v : ℕ} (hpos : 0 < n) (hv : v < 2 ^ n) :
    Decodes bits spare ((bitReader bits).getBits n) (ofNat n v) v := by
  have h := decodes_bits bits spare (ofNat n v) (by rwa [length_ofNat])
  rwa [length_ofNat, value_ofNat, Nat.mod_eq_of_lt hv] at h

variable {bits spare}

/-! ### The map of the bytes -/

/-- The bits for the bytes from `16 * k` on. -/
def rowBits (used : ℕ → Bool) (k : ℕ) : List Bool := (List.range 16).map fun i => used (16 * k + i)

/-- The bits that tell which rows there are. -/
def rowsBits (used : ℕ → Bool) (ks : List ℕ) : List Bool :=
  ks.map fun k => (rowBits used k).any id

def rowsUsed (used : ℕ → Bool) (ks : List ℕ) : List Bool :=
  ks.flatMap fun k => if (rowBits used k).any id then rowBits used k else []

def usedBytes (used : ℕ → Bool) (ks : List ℕ) : List UInt8 :=
  ks.flatMap fun k =>
    ((List.range 16).filter fun i => used (16 * k + i)).map fun i => UInt8.ofNat (16 * k + i)

theorem testBit_map_range (f : ℕ → Bool) {k : ℕ} (hk : k < 16) :
    (value ((List.range 16).map f)).testBit (15 - k) = f k := by
  have hlen : ((List.range 16).map f).length = 16 := by rw [List.length_map, List.length_range]
  have hk' : k < ((List.range 16).map f).length := by rwa [hlen]
  have hbit := testBit_value ((List.range 16).map f) hk'
  rw [List.getElem_map, List.getElem_range] at hbit
  rwa [hlen] at hbit

theorem innerBytes_rowBits (used : ℕ → Bool) (k : ℕ) :
    innerBytes (16 * k) (value (rowBits used k)) =
      ((List.range 16).filter fun i => used (16 * k + i)).map fun i => UInt8.ofNat (16 * k + i) := by
  have hfilter : ((List.range 16).filter fun i => (value (rowBits used k)).testBit (15 - i)) =
      (List.range 16).filter fun i => used (16 * k + i) := by
    refine List.filter_congr fun i hi => ?_
    exact testBit_map_range (fun i => used (16 * k + i)) (List.mem_range.mp hi)
  rw [innerBytes, hfilter]

theorem decodes_readSymToByte (used : ℕ → Bool) (t : ℕ) (ks : List ℕ)
    (ht : ∀ k ∈ ks, t.testBit (15 - k) = (rowBits used k).any id) :
    Decodes bits spare (readSymToByte (bitReader bits) t ks) (rowsUsed used ks)
      (usedBytes used ks) := by
  induction ks with
  | nil => exact Decodes.pure _
  | cons k ks ih =>
    have ih := ih fun j hj => ht j (List.mem_cons_of_mem _ hj)
    have hlen : (rowBits used k).length = 16 := by
      rw [rowBits, List.length_map, List.length_range]
    rw [readSymToByte, ht k (List.mem_cons_self ..)]
    by_cases hany : (rowBits used k).any id = true
    · have hword : rowsUsed used (k :: ks) = rowBits used k ++ rowsUsed used ks := by
        rw [rowsUsed, List.flatMap_cons, if_pos hany]
        rfl
      have hrow := decodes_bits bits spare (rowBits used k) (by omega)
      rw [hlen] at hrow
      rw [if_pos hany, hword]
      refine hrow.bind (ih.map ?_)
      rw [innerBytes_rowBits]
      exact Decodes.pure _
    · have hword : rowsUsed used (k :: ks) = rowsUsed used ks := by
        rw [rowsUsed, List.flatMap_cons, if_neg hany]
        rfl
      have hnone : ((List.range 16).filter fun i => used (16 * k + i)) = [] := by
        rw [List.filter_eq_nil_iff]
        intro i hi hused
        refine hany (List.any_eq_true.mpr ⟨true, ?_, rfl⟩)
        rw [rowBits, List.mem_map]
        exact ⟨i, hi, hused⟩
      have hbytes : usedBytes used (k :: ks) = usedBytes used ks := by
        rw [usedBytes, List.flatMap_cons, hnone]
        rfl
      rw [if_neg hany, hword, hbytes]
      exact ih

/-! ### The selectors -/

def unaryBits (n : ℕ) : List Bool := List.replicate n true ++ [false]

def selectorBits : List ℕ → List ℕ → List Bool
  | _, [] => []
  | mtfSymbol, selector :: selectors =>
    unaryBits (mtfSymbol.idxOf selector) ++
      selectorBits (selector :: mtfSymbol.erase selector) selectors

variable (bits spare) in
theorem decodes_readUnary {left m : ℕ} (n : ℕ) (hm : m < left) :
    Decodes bits spare (readUnary (bitReader bits) left n) (unaryBits m) (n + m) := by
  induction left generalizing n m with
  | zero => cases hm
  | succ left ih =>
    rw [readUnary]
    cases m with
    | zero =>
      have hbit := decodes_bits bits spare [false] Nat.one_pos
      exact hbit.map (Decodes.pure _)
    | succ m =>
      have hbit := decodes_bits bits spare [true] Nat.one_pos
      have hsum : n + (m + 1) = n + 1 + m := by omega
      rw [hsum]
      exact hbit.bind (ih (n + 1) (Nat.lt_of_succ_lt_succ hm))

theorem decodes_readSelectors {groupCount : ℕ} {selectors mtfSymbol : List ℕ}
    (hlen : mtfSymbol.length = groupCount) (hmem : ∀ s ∈ selectors, s ∈ mtfSymbol) :
    Decodes bits spare (readSelectors (bitReader bits) groupCount selectors.length mtfSymbol)
      (selectorBits mtfSymbol selectors) selectors := by
  induction selectors generalizing mtfSymbol with
  | nil => exact Decodes.pure _
  | cons selector selectors ih =>
    have hs : selector ∈ mtfSymbol := hmem selector (List.mem_cons_self ..)
    have hperm : (selector :: mtfSymbol.erase selector).Perm mtfSymbol :=
      (List.perm_cons_erase hs).symm
    have hidx := List.idxOf_lt_length_of_mem hs
    have hunary := decodes_readUnary bits spare 0 (hlen ▸ hidx)
    rw [Nat.zero_add] at hunary
    rw [List.length_cons, readSelectors]
    refine hunary.bind ?_
    rw [toFront_idxOf hs]
    exact (ih (hperm.length_eq.trans hlen) fun s hs' =>
      hperm.mem_iff.mpr (hmem s (List.mem_cons_of_mem _ hs'))).map (Decodes.pure _)

/-! ### The lengths of the codes -/

/-- Steps up or down, and the end of them. -/
def stepBits (down : Bool) (n : ℕ) : List Bool := (List.replicate n [true, down]).flatten ++ [false]

/-- From one length to the next. -/
def deltaBits (current target : ℕ) : List Bool :=
  if current ≤ target then stepBits false (target - current) else stepBits true (current - target)

/-- The lengths behind one. -/
def deltasBits : ℕ → List ℕ → List Bool
  | _, [] => []
  | current, target :: lengths => deltaBits current target ++ deltasBits target lengths

/-- The lengths of a group. -/
def lengthsBits (lengths : List ℕ) : List Bool :=
  ofNat 5 (lengths.headD 0) ++ deltasBits (lengths.headD 0) lengths

/-- One step. -/
def delta (down : Bool) : ℤ := if down then -1 else 1

theorem decodes_steps (hspare : 1 ≤ spare) (down : Bool) {n fuel : ℕ} (hfuel : n < fuel) {l : ℤ}
    (hfrom : 0 ≤ l ∧ l ≤ 20 - 1) (hto : 0 ≤ l + n * delta down ∧ l + n * delta down ≤ 20 - 1) :
    Decodes bits spare (readLength (bitReader bits) fuel l) (stepBits down n)
      (l + n * delta down) := by
  induction n generalizing fuel l with
  | zero =>
    obtain ⟨fuel, rfl⟩ : ∃ m, fuel = m + 1 := ⟨fuel - 1, by omega⟩
    intro pos rest hbits hrest
    obtain ⟨b, rest, rfl⟩ : ∃ b rest', rest = b :: rest' :=
      List.exists_cons_of_length_pos (by omega)
    have hbits' : bits.drop pos = [false, b] ++ rest := hbits
    have htake : (bits.drop pos).take 2 = [false, b] := by
      rw [hbits']
      rfl
    have henough : pos + 2 ≤ bits.length := length_le hbits' Nat.two_pos
    have hvalue : value [false, b] < 2 := by cases b <;> decide
    rw [readLength_succ, if_neg (not_not.mpr hfrom), if_pos henough, htake, if_pos hvalue,
      Nat.cast_zero, Int.zero_mul, Int.add_zero]
    rfl
  | succ n ih =>
    obtain ⟨fuel, rfl⟩ : ∃ m, fuel = m + 1 := ⟨fuel - 1, by omega⟩
    intro pos rest hbits hrest
    have hbits' : bits.drop pos = [true, down] ++ (stepBits down n ++ rest) := hbits
    have htake : (bits.drop pos).take 2 = [true, down] := by
      rw [hbits']
      rfl
    have henough : pos + 2 ≤ bits.length := length_le hbits' Nat.two_pos
    have hvalue : ¬ value [true, down] < 2 := by cases down <;> decide
    have hstep : (((value [true, down] + 1) &&& 2 : ℕ) - 1 : ℤ) = delta down := by
      cases down <;> rfl
    have hdelta : delta down = -1 ∨ delta down = 1 := by cases down <;> decide
    have hsum : l + (n + 1 : ℕ) * delta down = l + delta down + n * delta down := by
      rw [Nat.cast_succ, Int.add_mul, Int.one_mul, Int.add_assoc, Int.add_comm (delta down)]
    rw [hsum] at hto ⊢
    have hfrom' : 0 ≤ l + delta down ∧ l + delta down ≤ 20 - 1 := by
      rcases hdelta with h | h
      · rw [h] at hto ⊢
        omega
      · rw [h] at hto ⊢
        omega
    have hrun := ih (Nat.lt_of_succ_lt_succ hfuel) hfrom' hto (pos + 2) rest (drop_append hbits') hrest
    rw [readLength_succ, if_neg (not_not.mpr hfrom), if_pos henough, htake, if_neg hvalue, hstep,
      hrun, Nat.add_assoc]
    refine congrArg (fun k => Except.ok (_, pos + k)) ?_
    rw [Nat.add_comm]
    rfl

theorem decodes_readLength (hspare : 1 ≤ spare) {fuel current target : ℕ} (hfuel : 20 ≤ fuel)
    (hcurrent : 1 ≤ current ∧ current ≤ 20) (htarget : 1 ≤ target ∧ target ≤ 20) :
    Decodes bits spare (readLength (bitReader bits) fuel ((current : ℤ) - 1))
      (deltaBits current target) ((target : ℤ) - 1) := by
  have hfrom : 0 ≤ (current : ℤ) - 1 ∧ (current : ℤ) - 1 ≤ 20 - 1 := by omega
  unfold deltaBits
  split
  · have hto : (current : ℤ) - 1 + (target - current : ℕ) * delta false = (target : ℤ) - 1 := by
      change (current : ℤ) - 1 + (target - current : ℕ) * 1 = _
      omega
    rw [← hto]
    exact decodes_steps hspare false (by omega) hfrom (by rw [hto]; omega)
  · have hto : (current : ℤ) - 1 + (current - target : ℕ) * delta true = (target : ℤ) - 1 := by
      change (current : ℤ) - 1 + (current - target : ℕ) * (-1) = _
      omega
    rw [← hto]
    exact decodes_steps hspare true (by omega) hfrom (by rw [hto]; omega)

theorem decodes_readLengths (hspare : 1 ≤ spare) {fuel current : ℕ} (hfuel : 20 ≤ fuel)
    {lengths : List ℕ} (hcurrent : 1 ≤ current ∧ current ≤ 20)
    (hlengths : ∀ l ∈ lengths, 1 ≤ l ∧ l ≤ 20) :
    Decodes bits spare (readLengths (bitReader bits) fuel lengths.length ((current : ℤ) - 1))
      (deltasBits current lengths) lengths := by
  induction lengths generalizing current with
  | nil => exact Decodes.pure _
  | cons l lengths ih =>
    have hl := hlengths l (List.mem_cons_self ..)
    have hrest := ih hl fun m hm => hlengths m (List.mem_cons_of_mem _ hm)
    rw [List.length_cons, readLengths]
    refine (decodes_readLength hspare hfuel hcurrent hl).bind (hrest.map ?_)
    have hback : ((l : ℤ) - 1 + 1).toNat = l := by omega
    rw [hback]
    exact Decodes.pure _

theorem decodes_readGroups (hspare : 1 ≤ spare) {fuel symCount : ℕ} (hfuel : 20 ≤ fuel)
    {groups : List (List ℕ)}
    (hgroups : ∀ lengths ∈ groups, Lengths lengths ∧ lengths.length = symCount) :
    Decodes bits spare (readGroups (bitReader bits) fuel symCount groups.length)
      (groups.flatMap lengthsBits) (groups.map makeGroup) := by
  induction groups with
  | nil => exact Decodes.pure _
  | cons lengths groups ih =>
    obtain ⟨hlengths, hlen⟩ := hgroups lengths (List.mem_cons_self ..)
    have hrest := ih fun l hl => hgroups l (List.mem_cons_of_mem _ hl)
    have hall : ∀ l ∈ lengths, 1 ≤ l ∧ l ≤ 20 := fun l hl => ⟨hlengths.pos l hl, hlengths.le l hl⟩
    have hhead : 1 ≤ lengths.headD 0 ∧ lengths.headD 0 ≤ 20 := by
      obtain ⟨l, tail, rfl⟩ := List.exists_cons_of_ne_nil hlengths.ne_nil
      exact hall l (List.mem_cons_self ..)
    have hfirst : lengths.headD 0 < 2 ^ 5 := by omega
    rw [List.length_cons, readGroups, List.flatMap_cons, lengthsBits, List.append_assoc]
    refine (decodes_ofNat bits spare (by decide) hfirst).bind ?_
    rw [← hlen]
    refine (decodes_readLengths hspare hfuel hhead hall).bind ?_
    rw [hlen]
    exact hrest.map (Decodes.pure _)

/-! ### The codes -/

/-- The symbols in codes of their groups, of which each is for 50 symbols. -/
def codedBits (groups : List (List ℕ)) : List ℕ → List ℕ → List Bool
  | [], _ => []
  | selector :: selectors, symbols =>
    (symbols.take 50).flatMap (symbolBits (groups.getD selector [])) ++
      codedBits groups selectors (symbols.drop 50)

theorem codedBits_nil (groups : List (List ℕ)) (selectors : List ℕ) :
    codedBits groups selectors [] = [] := by
  induction selectors with
  | nil => rfl
  | cons selector selectors ih =>
    rw [codedBits, List.drop_nil, ih]
    rfl

variable (bits) in
theorem decodes_readSymbol (hspare : 20 ≤ spare) {lengths : List ℕ} (h : Lengths lengths)
    (hfits : Fits lengths (extremes lengths).2) {k : ℕ} (hk : k < lengths.length) :
    Decodes bits spare (readSymbol (bitReader bits) (makeGroup lengths)) (symbolBits lengths k) k :=
  fun _ _ hbits hrest => h.readSymbol_spec hfits hk hbits (hspare.trans hrest)

theorem Undoes.ne_nil {c : Setting} {d d' : Undoing} {symbols : List ℕ} (h : Undoes c d symbols d') :
    symbols ≠ [] := by
  cases h <;> exact List.cons_ne_nil _ _

theorem Undoes.sane {c : Setting} {d d' : Undoing} {symbols : List ℕ} (h : Undoes c d symbols d')
    (hc : c.Sane) (hd : Sane c d) : Sane c d' := by
  have hstep {d d' : Undoing} {nextSym : ℕ} {ended : Bool} (hd : Sane c d)
      (h : undoSymbol c d nextSym = .ok (d', ended)) : Sane c d' := by
    rcases @fine_undoSymbol c d hc hd nextSym with ⟨r, hr, hsane⟩ | ⟨c, -, hr⟩ | hr
    · rw [h] at hr
      obtain rfl := Except.ok.inj hr
      exact hsane
    · rw [h] at hr
      cases hr
    · rw [h] at hr
      cases hr
  induction h with
  | last h => exact hstep hd h
  | more h _ ih => exact ih (hstep hd h)

variable (bits) in
/-- The symbols of a group: all that are left, or 50 of them. -/
theorem decodes_readGroupSymbols (hspare : 20 ≤ spare) {c : Setting} {lengths : List ℕ}
    (hlengths : Lengths lengths) (hfits : Fits lengths (extremes lengths).2) (n : ℕ) {d d' : Undoing}
    {symbols : List ℕ} (h : Undoes c d symbols d') (hmem : ∀ s ∈ symbols, s < lengths.length) :
    (symbols.drop n = [] ∧
      Decodes bits spare (readGroupSymbols (bitReader bits) c (makeGroup lengths) n d)
        ((symbols.take n).flatMap (symbolBits lengths)) (d', true)) ∨
    ∃ d₁, Undoes c d₁ (symbols.drop n) d' ∧
      Decodes bits spare (readGroupSymbols (bitReader bits) c (makeGroup lengths) n d)
        ((symbols.take n).flatMap (symbolBits lengths)) (d₁, false) := by
  induction n generalizing d symbols with
  | zero => exact Or.inr ⟨d, h, Decodes.pure _⟩
  | succ n ih =>
    rw [readGroupSymbols]
    cases h with
    | @last _ _ nextSym h =>
      have hread := decodes_readSymbol bits hspare hlengths hfits
        (hmem nextSym (List.mem_cons_self ..))
      refine Or.inl ⟨List.drop_nil, ?_⟩
      rw [List.take_succ_cons, List.take_nil, List.flatMap_cons, List.flatMap_nil]
      exact hread.bind ((Decodes.lift h).map (Decodes.pure _))
    | @more _ d₂ _ nextSym symbols h hrest =>
      have hread := decodes_readSymbol bits hspare hlengths hfits
        (hmem nextSym (List.mem_cons_self ..))
      rw [List.take_succ_cons, List.flatMap_cons, List.drop_succ_cons]
      rcases ih hrest fun s hs => hmem s (List.mem_cons_of_mem _ hs) with
        ⟨hdrop, hdec⟩ | ⟨d₁, hundoes, hdec⟩
      · exact Or.inl ⟨hdrop, hread.bind ((Decodes.lift h).bind hdec)⟩
      · exact Or.inr ⟨d₁, hundoes, hread.bind ((Decodes.lift h).bind hdec)⟩

theorem decodes_readSymbols (hspare : 20 ≤ spare) {c : Setting} {groups : List (List ℕ)}
    (hgroups : ∀ lengths ∈ groups, Lengths lengths ∧ Fits lengths (extremes lengths).2)
    {selectors : List ℕ} (hselectors : ∀ s ∈ selectors, s < groups.length) {d d' : Undoing}
    {symbols : List ℕ} (h : Undoes c d symbols d')
    (hmem : ∀ s ∈ symbols, ∀ lengths ∈ groups, s < lengths.length)
    (hlen : symbols.length ≤ 50 * selectors.length) :
    Decodes bits spare (readSymbols (bitReader bits) c (groups.map makeGroup) selectors d)
      (codedBits groups selectors symbols) d' := by
  induction selectors generalizing d symbols with
  | nil => exact absurd (List.length_eq_zero_iff.mp (Nat.le_zero.mp hlen)) h.ne_nil
  | cons selector selectors ih =>
    have hlt := hselectors selector (List.mem_cons_self ..)
    obtain ⟨lengths, hget⟩ : ∃ lengths, groups[selector]? = some lengths :=
      ⟨_, List.getElem?_eq_getElem hlt⟩
    have hin : lengths ∈ groups := List.mem_of_getElem? hget
    have hgroup : (groups.map makeGroup)[selector]? = some (makeGroup lengths) := by
      rw [List.getElem?_map, hget]
      rfl
    have hgetD : groups.getD selector [] = lengths := by
      rw [List.getD_eq_getElem?_getD, hget]
      rfl
    rw [readSymbols, hgroup, codedBits, hgetD]
    dsimp only
    obtain ⟨hlengths, hfits⟩ := hgroups lengths hin
    rcases decodes_readGroupSymbols bits hspare hlengths hfits 50 h
      (fun s hs => hmem s hs lengths hin) with
      ⟨hdrop, hdec⟩ | ⟨d₁, hundoes, hdec⟩
    · rw [hdrop, codedBits_nil]
      exact hdec.bind (Decodes.pure _)
    · refine hdec.bind (ih (fun s hs => hselectors s (List.mem_cons_of_mem _ hs)) hundoes
        (fun s hs => hmem s (List.mem_of_mem_drop hs)) ?_)
      rw [List.length_drop]
      rw [List.length_cons] at hlen
      omega

end Decodes

end Rustybox.Bunzip2
