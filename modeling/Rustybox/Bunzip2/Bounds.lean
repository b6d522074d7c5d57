import Rustybox.Bunzip2.NextBlock

/-!
# What bunzip2 does not touch

`getNextBlock` looks up nothing outside of its arrays, whatever the bits are, and what it leaves can
be walked through by `read_bunzip`, unless a run is longer than a block can be
(`safe_getNextBlock`).  `Safe` says that a reading program stops with a code or with a result of
which something is known.

`readStream` is `start_bunzip` and all calls of `get_next_block` on the bytes of a file, as the
calls of `read` give them.  `readInput_congr`: how `read` cuts the file makes no difference.
`readInput_safe`: whatever the bytes are, a stream comes out that `unpack_bz2_stream` can write.
-/

namespace Rustybox.Bunzip2

open BitString CanonicalCode
open Rustybox.Libbb

/-- No fault, and fuel enough; the place does not go back. -/
def Safe {α : Type} (x : Reading ℕ α) (P : α → Prop) : Prop :=
  ∀ pos, (∃ a pos', x pos = .ok (a, pos') ∧ pos ≤ pos' ∧ P a) ∨
    (∃ c < -1, x pos = .error (.code c)) ∨ x pos = .error .longRun

section Safe

variable {α β : Type} {P Q : α → Prop} {R : β → Prop} {x x' : Reading ℕ α}

theorem Safe.pure {a : α} (h : P a) : Safe (pure a) P :=
  fun pos => Or.inl ⟨a, pos, rfl, le_rfl, h⟩

theorem Safe.code {c : ℤ} (hc : c < -1) : Safe (throw (.code c)) P :=
  fun _ => Or.inr (Or.inl ⟨c, hc, rfl⟩)

theorem Safe.mono (h : Safe x P) (hPQ : ∀ a, P a → Q a) : Safe x Q := by
  intro pos
  rcases h pos with ⟨a, pos', hx, hle, ha⟩ | hstop
  · exact Or.inl ⟨a, pos', hx, hle, hPQ a ha⟩
  · exact Or.inr hstop

theorem Safe.bind {f : α → Reading ℕ β} (h : Safe x P) (hf : ∀ a, P a → Safe (f a) R) :
    Safe (x >>= f) R := by
  intro pos
  rcases h pos with ⟨a, pos', hx, hle, ha⟩ | ⟨c, hc, hx⟩ | hx
  · rw [bind_ok hx]
    rcases hf a ha pos' with ⟨b, pos'', hfa, hle', hb⟩ | hstop
    · exact Or.inl ⟨b, pos'', hfa, hle.trans hle', hb⟩
    · exact Or.inr hstop
  · exact Or.inr (Or.inl ⟨c, hc, bind_error hx⟩)
  · exact Or.inr (Or.inr (bind_error hx))

theorem Safe.ite {p : Prop} [Decidable p] (h : p → Safe x P) (h' : ¬ p → Safe x' P) :
    Safe (if p then x else x') P := by
  by_cases hp : p
  · rw [if_pos hp]
    exact h hp
  · rw [if_neg hp]
    exact h' hp

/-- No fault in what does not read. -/
def Fine (y : Except Fail α) (P : α → Prop) : Prop :=
  (∃ a, y = .ok a ∧ P a) ∨ (∃ c < -1, y = .error (.code c)) ∨ y = .error .longRun

theorem Fine.lift {y : Except Fail α} (h : Fine y P) : Safe (liftM y) P := by
  intro pos
  rcases h with ⟨a, rfl, ha⟩ | ⟨c, hc, rfl⟩ | rfl
  · exact Or.inl ⟨a, pos, rfl, le_rfl, ha⟩
  · exact Or.inr (Or.inl ⟨c, hc, rfl⟩)
  · exact Or.inr (Or.inr rfl)

theorem Fine.bind {y : Except Fail α} {f : α → Except Fail β} (h : Fine y P)
    (hf : ∀ a, P a → Fine (f a) R) : Fine (y >>= f) R := by
  rcases h with ⟨a, rfl, ha⟩ | ⟨c, hc, rfl⟩ | rfl
  · exact hf a ha
  · exact Or.inr (Or.inl ⟨c, hc, rfl⟩)
  · exact Or.inr (Or.inr rfl)

end Safe

/-! ### The header -/

section Header

variable {bits : List Bool}

theorem safe_getBits (n : ℕ) : Safe ((bitReader bits).getBits n) fun v => v < 2 ^ n := by
  intro pos
  have hrun : (bitReader bits).getBits n pos = if pos + n ≤ bits.length then
      .ok (value ((bits.drop pos).take n), pos + n) else .error (.code (-3)) := rfl
  rw [hrun]
  split
  · refine Or.inl ⟨_, _, rfl, Nat.le_add_right _ _, lt_of_lt_of_le (value_lt _) ?_⟩
    rw [List.length_take]
    exact Nat.pow_le_pow_right (by decide) (Nat.min_le_left _ _)
  · exact Or.inr (Or.inl ⟨_, by decide, rfl⟩)

theorem safe_getBits_bind {n : ℕ} (hn : 0 < n) {β : Type} {R : β → Prop} {f : ℕ → Reading ℕ β}
    (hf : ∀ v, Safe (f v) R) (pos : ℕ) :
    (∃ b pos', ((bitReader bits).getBits n >>= f) pos = .ok (b, pos') ∧ pos < pos' ∧
        pos < bits.length ∧ R b) ∨
      (∃ c < -1, ((bitReader bits).getBits n >>= f) pos = .error (.code c)) ∨
        ((bitReader bits).getBits n >>= f) pos = .error .longRun := by
  by_cases hlen : pos + n ≤ bits.length
  · have hx : (bitReader bits).getBits n pos = .ok (value ((bits.drop pos).take n), pos + n) :=
      if_pos hlen
    rw [bind_ok hx]
    rcases hf (value ((bits.drop pos).take n)) (pos + n) with ⟨b, pos', hfv, hle, hb⟩ | hstop
    · exact Or.inl ⟨b, pos', hfv, by omega, by omega, hb⟩
    · exact Or.inr hstop
  · have hx : (bitReader bits).getBits n pos = .error (.code (-3)) := if_neg hlen
    exact Or.inr (Or.inl ⟨-3, by decide, bind_error hx⟩)

theorem length_innerBytes_le (i innerMap : ℕ) : (innerBytes i innerMap).length ≤ 16 := by
  rw [innerBytes, List.length_map]
  exact (List.length_filter_le _ _).trans_eq List.length_range

theorem safe_readSymToByte (t : ℕ) (ks : List ℕ) :
    Safe (readSymToByte (bitReader bits) t ks) fun bytes => bytes.length ≤ 16 * ks.length := by
  induction ks with
  | nil => exact Safe.pure (Nat.zero_le _)
  | cons k ks ih =>
    rw [readSymToByte]
    refine Safe.ite (fun _ => (safe_getBits 16).bind fun innerMap _ => ih.bind fun rest hrest =>
      Safe.pure ?_) fun _ => ih.mono fun bytes hbytes => ?_
    · have hinner := length_innerBytes_le (16 * k) innerMap
      rw [List.length_append, List.length_cons]
      omega
    · rw [List.length_cons]
      omega

theorem safe_readUnary (left n : ℕ) :
    Safe (readUnary (bitReader bits) left n) fun m => m < n + left := by
  induction left generalizing n with
  | zero => exact Safe.code (by decide)
  | succ left ih =>
    rw [readUnary]
    refine (safe_getBits 1).bind fun bit _ => Safe.ite (fun _ => (ih (n + 1)).mono fun m hm => ?_)
      fun _ => Safe.pure ?_ <;> omega

theorem toFront_of_lt {α : Type} {n : ℕ} {l : List α} (h : n < l.length) :
    toFront n l = some (l[n], l[n] :: l.eraseIdx n) := by
  rw [toFront, List.getElem?_eq_getElem h]
  rfl

theorem length_toFront {α : Type} {n : ℕ} {l : List α} (h : n < l.length) :
    (l[n] :: l.eraseIdx n).length = l.length := by
  rw [List.length_cons, List.length_eraseIdx_of_lt h]
  omega

theorem safe_readSelectors {groupCount : ℕ} (left : ℕ) {mtfSymbol : List ℕ}
    (h : mtfSymbol.length = groupCount) :
    Safe (readSelectors (bitReader bits) groupCount left mtfSymbol) fun _ => True := by
  induction left generalizing mtfSymbol with
  | zero => exact Safe.pure trivial
  | succ left ih =>
    rw [readSelectors]
    refine (safe_readUnary groupCount 0).bind fun n hn => ?_
    have hn' : n < mtfSymbol.length := by omega
    rw [toFront_of_lt hn']
    exact (ih ((length_toFront hn').trans h)).bind fun _ _ => Safe.pure trivial

/-- The bits that tell whether to go on. -/
theorem thenUnget_two (pos : ℕ) :
    (bitReader bits).thenUnget ((bitReader bits).getBits 2)
        (fun twoBits => if twoBits < 2 then 1 else 0) pos =
      if pos + 2 ≤ bits.length then
        let v := value ((bits.drop pos).take 2)
        .ok (v, pos + 2 - if v < 2 then 1 else 0)
      else .error (.code (-3)) := by
  have hrun : (bitReader bits).getBits 2 pos = if pos + 2 ≤ bits.length then
      .ok (value ((bits.drop pos).take 2), pos + 2) else .error (.code (-3)) := rfl
  unfold Reader.thenUnget
  rw [hrun]
  split <;> rfl

theorem readLength_succ (fuel : ℕ) (lenM1 : ℤ) (pos : ℕ) :
    readLength (bitReader bits) (fuel + 1) lenM1 pos =
      if ¬ (0 ≤ lenM1 ∧ lenM1 ≤ 20 - 1) then .error (.code (-5))
      else if pos + 2 ≤ bits.length then
        if value ((bits.drop pos).take 2) < 2 then .ok (lenM1, pos + 1)
        else readLength (bitReader bits) fuel
          (lenM1 + (((value ((bits.drop pos).take 2) + 1) &&& 2 : ℕ) - 1)) (pos + 2)
      else .error (.code (-3)) := by
  rw [readLength]
  by_cases hlen : ¬ (0 ≤ lenM1 ∧ lenM1 ≤ 20 - 1)
  · rw [if_pos hlen, if_pos hlen]
    rfl
  · rw [if_neg hlen, if_neg hlen]
    change ((bitReader bits).thenUnget _ _ pos >>= fun r => _) = _
    rw [thenUnget_two]
    by_cases henough : pos + 2 ≤ bits.length
    · rw [if_pos henough, if_pos henough]
      change (if value ((bits.drop pos).take 2) < 2 then _ else _ : Reading ℕ ℤ) _ = _
      by_cases hv : value ((bits.drop pos).take 2) < 2
      · rw [if_pos hv, if_pos hv, if_pos hv]
        rfl
      · rw [if_neg hv, if_neg hv, if_neg hv]
        rfl
    · rw [if_neg henough, if_neg henough]
      rfl

theorem readLength_fine {fuel : ℕ} (pos : ℕ) (hfuel : bits.length ≤ pos + fuel) (lenM1 : ℤ) :
    (∃ a pos', readLength (bitReader bits) (fuel + 1) lenM1 pos = .ok (a, pos') ∧
      pos ≤ pos' ∧ 0 ≤ a ∧ a ≤ 20 - 1) ∨
      ∃ c < -1, readLength (bitReader bits) (fuel + 1) lenM1 pos = .error (.code c) := by
  induction fuel generalizing pos lenM1 with
  | zero =>
    have henough : ¬ pos + 2 ≤ bits.length := by omega
    rw [readLength_succ, if_neg henough]
    split
    · exact Or.inr ⟨-5, by decide, rfl⟩
    · exact Or.inr ⟨-3, by decide, rfl⟩
  | succ fuel ih =>
    rw [readLength_succ]
    by_cases hlen : ¬ (0 ≤ lenM1 ∧ lenM1 ≤ 20 - 1)
    · rw [if_pos hlen]
      exact Or.inr ⟨-5, by decide, rfl⟩
    · rw [if_neg hlen]
      split
      · split
        · exact Or.inl ⟨lenM1, pos + 1, rfl, Nat.le_succ pos, not_not.mp hlen⟩
        · rcases ih (pos + 2) (by omega) (lenM1 + (((value ((bits.drop pos).take 2) + 1) &&& 2 : ℕ)
            - 1)) with ⟨a, pos', hrun, hle, ha⟩ | hstop
          · exact Or.inl ⟨a, pos', hrun, (Nat.le_add_right pos 2).trans hle, ha⟩
          · exact Or.inr hstop
      · exact Or.inr ⟨-3, by decide, rfl⟩

theorem safe_readLength {fuel : ℕ} (hfuel : bits.length < fuel) (lenM1 : ℤ) :
    Safe (readLength (bitReader bits) fuel lenM1) fun l => 0 ≤ l ∧ l ≤ 20 - 1 := by
  obtain ⟨fuel, rfl⟩ : ∃ n, fuel = n + 1 := ⟨fuel - 1, by omega⟩
  intro pos
  have hle : bits.length ≤ pos + fuel := by omega
  rcases readLength_fine pos hle lenM1 with hok | hcode
  · exact Or.inl hok
  · exact Or.inr (Or.inl hcode)

theorem safe_readLengths {fuel : ℕ} (hfuel : bits.length < fuel) (left : ℕ) (lenM1 : ℤ) :
    Safe (readLengths (bitReader bits) fuel left lenM1) fun lengths =>
      lengths.length = left ∧ ∀ l ∈ lengths, 1 ≤ l ∧ l ≤ 20 := by
  induction left generalizing lenM1 with
  | zero => exact Safe.pure ⟨rfl, fun _ hl => absurd hl List.not_mem_nil⟩
  | succ left ih =>
    rw [readLengths]
    refine (safe_readLength hfuel lenM1).bind fun l hl => (ih l).bind fun rest hrest =>
      Safe.pure ⟨?_, fun m hm => ?_⟩
    · rw [List.length_cons, hrest.1]
    · rcases List.mem_cons.mp hm with rfl | hm
      · omega
      · exact hrest.2 m hm

/-- A group that the header can describe. -/
def IsGroup (symCount : ℕ) (g : Group) : Prop :=
  ∃ lengths, Lengths lengths ∧ lengths.length = symCount ∧ g = makeGroup lengths

theorem safe_readGroups {fuel symCount : ℕ} (hfuel : bits.length < fuel) (hpos : 0 < symCount)
    (hcount : symCount ≤ 258) (left : ℕ) :
    Safe (readGroups (bitReader bits) fuel symCount left) fun groups =>
      ∀ g ∈ groups, IsGroup symCount g := by
  induction left with
  | zero => exact Safe.pure fun _ hg => absurd hg List.not_mem_nil
  | succ left ih =>
    rw [readGroups]
    refine (safe_getBits 5).bind fun first _ => (safe_readLengths hfuel symCount _).bind
      fun lengths hlengths => ih.bind fun rest hrest => Safe.pure fun g hg => ?_
    rcases List.mem_cons.mp hg with rfl | hg
    · refine ⟨lengths, ⟨?_, hlengths.1.trans_le hcount, fun l hl => (hlengths.2 l hl).1,
        fun l hl => (hlengths.2 l hl).2⟩, hlengths.1, rfl⟩
      rintro rfl
      exact absurd hlengths.1 hpos.ne
    · exact hrest g hg

theorem safe_readSymbol {symCount : ℕ} {g : Group} (hg : IsGroup symCount g) :
    Safe (readSymbol (bitReader bits) g) fun k => k < symCount := by
  obtain ⟨lengths, h, rfl, rfl⟩ := hg
  intro pos
  rw [readSymbol_eq]
  split
  · have hlt : value ((bits.drop pos).take (extremes lengths).2) < 2 ^ 20 := by
      refine lt_of_lt_of_le (value_lt _) (Nat.pow_le_pow_right (by decide) ?_)
      rw [List.length_take]
      exact (Nat.min_le_left _ _).trans h.hi_le
    rcases h.lookup_ok hlt with ⟨k, hk, hlookup⟩ | hlookup
    · rw [hlookup]
      exact Or.inl ⟨k, _, rfl, by omega, hk⟩
    · rw [hlookup]
      exact Or.inr (Or.inl ⟨-5, by decide, rfl⟩)
  · exact Or.inr (Or.inl ⟨-3, by decide, rfl⟩)

end Header

/-! ### The symbols -/

/-- What holds between two symbols, if runs are tested. -/
structure Sane (c : Setting) (d : Undoing) : Prop where
  fits : d.dbuf.length ≤ c.dbufSize
  mtf : d.mtfSymbol.length = 256
  length : d.byteCount.length = 256
  count : ∀ b : UInt8, d.byteCount.getD b.toNat 0 = UInt32.ofNat (d.dbuf.count b)
  run : d.runPos ≠ 0 → d.runCnt.toNat ≤ c.dbufSize

/-- What the header says is in its bounds. -/
structure Setting.Sane (c : Setting) : Prop where
  checked : c.checked = true
  dbufSize : c.dbufSize ≤ 900000
  symToByte : c.symToByte.length ≤ 256

theorem sane_start (c : Setting) : Sane c Undoing.start := by
  have hmtf : Undoing.start.mtfSymbol = List.range 256 := by rw [Undoing.start]
  have hbyteCount : Undoing.start.byteCount = List.replicate 256 0 := by rw [Undoing.start]
  have hdbuf : Undoing.start.dbuf = [] := by rw [Undoing.start]
  have hrunPos : Undoing.start.runPos = 0 := by rw [Undoing.start]
  refine ⟨?_, ?_, ?_, fun b => ?_, fun h => absurd hrunPos h⟩
  · rw [hdbuf]
    exact Nat.zero_le _
  · rw [hmtf, List.length_range]
  · rw [hbyteCount, List.length_replicate]
  · rw [hbyteCount, hdbuf, List.getD_eq_getElem?_getD, List.getElem?_replicate, List.count_nil]
    split <;> rfl

section Symbols

variable {c : Setting} {d : Undoing} (hc : c.Sane) (hd : Sane c d)

include hc hd

theorem fine_runSymbol (nextSym : ℕ) : Fine (runSymbol c d nextSym) (Sane c) := by
  unfold runSymbol
  dsimp only
  by_cases hlong : c.checked = true ∧ c.dbufSize < ((if d.runPos = 0 then 0 else d.runCnt) +
      (if d.runPos = 0 then 1 else d.runPos) <<< UInt32.ofNat nextSym).toNat
  · rw [if_pos hlong]
    exact Or.inr (Or.inr rfl)
  · rw [if_neg hlong]
    exact Or.inl ⟨_, rfl, hd.fits, hd.mtf, hd.length, hd.count,
      fun _ => not_lt.mp fun hlt => hlong ⟨hc.checked, hlt⟩⟩

omit hc in
theorem fine_write (byte : UInt8) {n : ℕ} (hn : d.dbuf.length + n ≤ c.dbufSize)
    (mtfSymbol : List ℕ) (hmtf : mtfSymbol.length = 256) (runPos : UInt32)
    (hrun : runPos ≠ 0 → d.runCnt.toNat ≤ c.dbufSize) :
    Fine (write c { d with mtfSymbol := mtfSymbol, runPos := runPos } byte n (UInt32.ofNat n))
      (Sane c) := by
  unfold write
  rw [if_neg (not_lt.mpr hn)]
  refine Or.inl ⟨_, rfl, ?_, hmtf, ?_, fun b => ?_, hrun⟩
  · rw [List.length_append, List.length_replicate]
    exact hn
  · rw [List.length_set]
    exact hd.length
  · dsimp only
    have hbyte : byte.toNat < d.byteCount.length := by
      rw [hd.length]
      exact byte.toNat_lt
    rw [List.count_append, List.count_replicate, List.getD_eq_getElem?_getD, List.getElem?_set,
      hd.count byte]
    by_cases hb : byte = b
    · subst hb
      rw [if_pos rfl, if_pos hbyte, if_pos (beq_self_eq_true _), Option.getD_some,
        UInt32.ofNat_add]
    · have hb' : byte.toNat ≠ b.toNat := fun heq => hb (UInt8.toNat_inj.mp heq)
      have hbeq : ¬ (byte == b) = true := fun heq => hb (beq_iff_eq.mp heq)
      rw [if_neg hb', if_neg hbeq, Nat.add_zero, ← List.getD_eq_getElem?_getD]
      exact hd.count b

theorem fine_flushRun : Fine (flushRun c d) (Sane c) := by
  unfold flushRun
  by_cases hpos : d.runPos = 0
  · rw [if_pos hpos]
    exact Or.inl ⟨d, rfl, hd⟩
  · rw [if_neg hpos]
    have hrun := hd.run hpos
    have hfits := hd.fits
    have hsize := hc.dbufSize
    have hsum : (UInt32.ofNat d.dbuf.length + d.runCnt).toNat = d.dbuf.length + d.runCnt.toNat := by
      rw [UInt32.toNat_add, UInt32.toNat_ofNat', Nat.mod_eq_of_lt (by omega : d.dbuf.length < 2 ^ 32),
        Nat.mod_eq_of_lt (by omega)]
    have hcnt : d.runCnt.toNat ≤ 2 ^ 31 := by omega
    rw [hsum, if_pos hcnt]
    by_cases hlong : c.dbufSize < d.dbuf.length + d.runCnt.toNat
    · rw [if_pos hlong]
      exact Or.inr (Or.inl ⟨-5, by decide, rfl⟩)
    · rw [if_neg hlong]
      have hwrite := fine_write hd (c.symToByte.getD (d.mtfSymbol.headD 0) 0) (not_lt.mp hlong)
        d.mtfSymbol hd.mtf 0 (fun h => absurd rfl h)
      rw [UInt32.ofNat_toNat] at hwrite
      exact hwrite

omit hc in
theorem fine_literalSymbol {nextSym : ℕ} (hlow : 1 < nextSym) (hhigh : nextSym ≤ 256) :
    Fine (literalSymbol c d nextSym) (Sane c) := by
  unfold literalSymbol
  by_cases hfull : c.dbufSize ≤ d.dbuf.length
  · rw [if_pos hfull]
    exact Or.inr (Or.inl ⟨-5, by decide, rfl⟩)
  · have hpos : nextSym - 1 < d.mtfSymbol.length := by
      rw [hd.mtf]
      omega
    rw [if_neg hfull, toFront_of_lt hpos]
    exact fine_write hd _ (not_le.mp hfull) _ ((length_toFront hpos).trans hd.mtf) d.runPos hd.run

theorem fine_undoSymbol {nextSym : ℕ} :
    Fine (undoSymbol c d nextSym) fun r => Sane c r.1 := by
  unfold undoSymbol
  by_cases hrun : nextSym ≤ 1
  · rw [if_pos hrun]
    exact (fine_runSymbol hc hd nextSym).bind fun d' hd' => Or.inl ⟨_, rfl, hd'⟩
  · rw [if_neg hrun]
    refine (fine_flushRun hc hd).bind fun d' hd' => ?_
    by_cases hend : nextSym > c.symToByte.length
    · rw [if_pos hend]
      exact Or.inl ⟨_, rfl, hd'⟩
    · have h256 := hc.symToByte
      rw [if_neg hend]
      exact (fine_literalSymbol hd' (by omega) (by omega)).bind fun d'' hd'' =>
        Or.inl ⟨_, rfl, hd''⟩

end Symbols

section Loops

variable {bits : List Bool} {c : Setting} (hc : c.Sane)

include hc

theorem safe_readGroupSymbols {g : Group} (hg : IsGroup (c.symToByte.length + 2) g) (symCount : ℕ)
    {d : Undoing} (hd : Sane c d) :
    Safe (readGroupSymbols (bitReader bits) c g symCount d) fun r => Sane c r.1 := by
  induction symCount generalizing d with
  | zero => exact Safe.pure hd
  | succ symCount ih =>
    rw [readGroupSymbols]
    refine (safe_readSymbol hg).bind fun nextSym _ => (fine_undoSymbol hc hd).lift.bind
      fun r hr => Safe.ite (fun _ => Safe.pure hr) fun _ => ih hr

theorem safe_readSymbols {groups : List Group}
    (hgroups : ∀ g ∈ groups, IsGroup (c.symToByte.length + 2) g) (selectors : List ℕ)
    {d : Undoing} (hd : Sane c d) :
    Safe (readSymbols (bitReader bits) c groups selectors d) (Sane c) := by
  induction selectors generalizing d with
  | nil => exact Safe.code (by decide)
  | cons selector selectors ih =>
    rw [readSymbols]
    cases hg : groups[selector]? with
    | none => exact Safe.code (by decide)
    | some g =>
      exact (safe_readGroupSymbols hc (hgroups g (List.mem_of_getElem? hg)) 50 hd).bind
        fun r hr => Safe.ite (fun _ => Safe.pure hr) fun _ => ih hr

end Loops

/-! ### The block -/

theorem cumulate32_eq {j : ℕ} {cs : List ℕ} (h : j + cs.sum < 2 ^ 32) :
    (cumulate32 (UInt32.ofNat j) (cs.map UInt32.ofNat)).map UInt32.toNat = cumulate j cs := by
  induction cs generalizing j with
  | nil => rfl
  | cons c cs ih =>
    rw [List.sum_cons] at h
    rw [List.map_cons, cumulate32, List.map_cons, ← UInt32.ofNat_add, ih (by omega), cumulate,
      UInt32.toNat_ofNat', Nat.mod_eq_of_lt (by omega)]

/-- The bytes of a block as numbers. -/
def numbersOf (dbuf : List UInt8) (k : Fin dbuf.length) : ℕ := dbuf[k].toNat

theorem ofFn_numbersOf (dbuf : List UInt8) :
    List.ofFn (numbersOf dbuf) = dbuf.map UInt8.toNat := by
  apply List.ext_getElem
  · rw [List.length_ofFn, List.length_map]
  · intro k hk hk'
    rw [List.getElem_ofFn, List.getElem_map]
    rfl

theorem length_byteCounts (l : List ℕ) : (byteCounts l).length = 256 := by simp [byteCounts]

theorem getElem_byteCounts (l : List ℕ) {b : ℕ} (hb : b < (byteCounts l).length) :
    (byteCounts l)[b] = l.count b := by simp [byteCounts]

theorem byteCount_eq {c : Setting} {d : Undoing} (hd : Sane c d) :
    d.byteCount = (byteCounts (List.ofFn (numbersOf d.dbuf))).map UInt32.ofNat := by
  apply List.ext_getElem
  · exact hd.length.trans ((List.length_map _).trans (length_byteCounts _)).symm
  · intro b hb hb'
    have hb256 : b < 256 := hd.length ▸ hb
    have hcount := hd.count (UInt8.ofNat b)
    have hinj : Function.Injective UInt8.toNat := fun _ _ h => UInt8.toNat_inj.mp h
    have hnat : (UInt8.ofNat b).toNat = b := UInt8.toNat_ofNat_of_lt' hb256
    rw [← List.count_map_of_injective d.dbuf _ hinj, hnat, List.getD_eq_getElem?_getD,
      List.getElem?_eq_getElem hb, Option.getD_some] at hcount
    rw [hcount, List.getElem_map, getElem_byteCounts, ofFn_numbersOf]

/-- The sums of the source are those of the numbers, so that the sort is the same. -/
theorem sortRounds_eq {c : Setting} {d : Undoing} (hsize : c.dbufSize ≤ 900000) (hd : Sane c d)
    (rest : List UInt32) :
    sortRounds (d.dbuf.map UInt8.toUInt32 ++ rest) ((cumulate32 0 d.byteCount).map UInt32.toNat)
        d.dbuf.length =
      sortBlock ((List.ofFn (numbersOf d.dbuf)).map UInt32.ofNat ++ rest)
        (byteCounts (List.ofFn (numbersOf d.dbuf))) d.dbuf.length := by
  have hfits := hd.fits
  have hbytes : d.dbuf.map UInt8.toUInt32 =
      (List.ofFn (numbersOf d.dbuf)).map UInt32.ofNat := by
    rw [ofFn_numbersOf, List.map_map]
    refine List.map_congr_left fun b _ => UInt32.toNat_inj.mp ?_
    have hb := b.toNat_lt
    rw [UInt8.toNat_toUInt32, Function.comp_apply, UInt32.toNat_ofNat', Nat.mod_eq_of_lt (by omega)]
  have hsum : (byteCounts (List.ofFn (numbersOf d.dbuf))).sum = d.dbuf.length := by
    have h256 := sum_byteCounts (List.ofFn (numbersOf d.dbuf)) (le_refl 256)
    have hlen := length_byteCounts (List.ofFn (numbersOf d.dbuf))
    have hall : (List.ofFn (numbersOf d.dbuf)).countP (· < 256) = d.dbuf.length := by
      rw [List.countP_eq_length.mpr, List.length_ofFn]
      intro m hm
      obtain ⟨k, rfl⟩ := List.mem_ofFn.mp hm
      exact decide_eq_true (UInt8.toNat_lt _)
    rw [List.take_of_length_le hlen.le, hall] at h256
    exact h256
  have hcumulated : (cumulate32 0 d.byteCount).map UInt32.toNat =
      cumulate 0 (byteCounts (List.ofFn (numbersOf d.dbuf))) := by
    have hlt : 0 + (byteCounts (List.ofFn (numbersOf d.dbuf))).sum < 2 ^ 32 := by
      rw [Nat.zero_add, hsum]
      omega
    rw [byteCount_eq hd]
    exact cumulate32_eq hlt
  rw [hbytes, hcumulated]
  rfl

/-- **The sort stays inside of `dbuf`, and so does the walk.** -/
theorem fine_finishBlock {c : Setting} {d : Undoing} (hsize : c.dbufSize ≤ 900000) (hd : Sane c d)
    {old : List UInt32} (hold : old.length = c.dbufSize) (origPtr headerCRC : ℕ) :
    Fine (finishBlock d old origPtr headerCRC) fun b =>
      (∃ text, b.Holds text) ∧ b.dbuf.length = c.dbufSize := by
  have hl (k : Fin d.dbuf.length) : numbersOf d.dbuf k < 256 := UInt8.toNat_lt _
  have hfits := hd.fits
  have hn : d.dbuf.length ≤ 2 ^ 23 := by omega
  choose next hnext using fun k : Fin d.dbuf.length =>
    BurrowsWheeler.exists_place_eq (numbersOf d.dbuf) k.isLt
  have hsort : sortRounds (d.dbuf.map UInt8.toUInt32 ++ old.drop d.dbuf.length)
      ((cumulate32 0 d.byteCount).map UInt32.toNat) d.dbuf.length =
        some ((List.ofFn fun k => entry (numbersOf d.dbuf k) (next k)) ++
          old.drop d.dbuf.length) := by
    rw [sortRounds_eq hsize hd]
    exact sortBlock_eq hl (by omega) hnext
  unfold finishBlock
  rw [hsort]
  dsimp only
  by_cases horig : d.dbuf.length ≠ 0 ∧ d.dbuf.length ≤ origPtr
  · rw [if_pos horig]
    exact Or.inr (Or.inl ⟨-5, by decide, rfl⟩)
  · rw [if_neg horig]
    refine Or.inl ⟨_, rfl, ?_, ?_⟩
    · by_cases hnil : d.dbuf.length = 0
      · exact ⟨[], Or.inl ⟨hnil, rfl⟩⟩
      · have hlt : origPtr < d.dbuf.length := by omega
        have hentry : ((List.ofFn fun k => entry (numbersOf d.dbuf k) (next k)) ++
            old.drop d.dbuf.length)[origPtr]? =
              some (entry (numbersOf d.dbuf ⟨origPtr, hlt⟩) (next ⟨origPtr, hlt⟩)) := by
          rw [List.getElem?_append_left (by rw [List.length_ofFn]; exact hlt),
            List.getElem?_eq_getElem (by rw [List.length_ofFn]; exact hlt), List.getElem_ofFn]
        have hpos : (next ⟨origPtr, hlt⟩ : ℕ) < 2 ^ 24 :=
          (next ⟨origPtr, hlt⟩).isLt.trans (by omega)
        have hwalk := @walk_eq _ _ next (old.drop d.dbuf.length) hl hn d.dbuf.length
          (next ⟨origPtr, hlt⟩)
        rw [← placeOf_entry (hl ⟨origPtr, hlt⟩) hpos] at hwalk
        exact ⟨_, Or.inr ⟨hnil, _, _, hentry, hwalk, rfl⟩⟩
    · dsimp only
      rw [List.length_append, List.length_ofFn, List.length_drop, hold]
      omega

/-! ### Blocks -/

/-- What is known of what `get_next_block` returns. -/
def Next.Sound (dbufSize : ℕ) : Next → Prop
  | .block b => (∃ text, b.Holds text) ∧ b.dbuf.length = dbufSize
  | .last _ => True

section Blocks

variable {bits : List Bool} {fuel dbufSize : ℕ} (hfuel : bits.length < fuel)
  (hsize : dbufSize ≤ 900000)

include hfuel hsize

theorem safe_readBlock {old : List UInt32} (hold : old.length = dbufSize) (headerCRC : ℕ) :
    Safe (readBlock (bitReader bits) true fuel dbufSize old headerCRC) (Next.Sound dbufSize) := by
  unfold readBlock
  refine (safe_getBits 1).bind fun randomised _ => Safe.ite (fun _ => Safe.code (by decide)) fun _ => ?_
  refine (safe_getBits 24).bind fun origPtr _ => Safe.ite (fun _ => Safe.code (by decide)) fun _ => ?_
  refine (safe_getBits 16).bind fun t _ => (safe_readSymToByte t _).bind fun symToByte hsym => ?_
  refine (safe_getBits 3).bind fun groupCount _ => Safe.ite (fun _ => Safe.code (by decide)) fun _ => ?_
  refine (safe_getBits 15).bind fun nSelectors _ => Safe.ite (fun _ => Safe.code (by decide)) fun _ => ?_
  refine (safe_readSelectors nSelectors List.length_range).bind fun selectors _ => ?_
  rw [List.length_range] at hsym
  refine (safe_readGroups hfuel (Nat.succ_pos _) (by omega) groupCount).bind
    fun groups hgroups => ?_
  have hc : Setting.Sane ⟨true, dbufSize, symToByte⟩ := ⟨rfl, hsize, hsym⟩
  exact (safe_readSymbols hc hgroups selectors (sane_start _)).bind fun d hd =>
    (fine_finishBlock hsize hd hold origPtr headerCRC).lift.bind fun b hb => Safe.pure hb

theorem safe_getNextBlock {old : List UInt32} (hold : old.length = dbufSize) (pos : ℕ) :
    (∃ next pos', getNextBlock (bitReader bits) true fuel dbufSize old pos = .ok (next, pos') ∧
        pos < pos' ∧ pos < bits.length ∧ next.Sound dbufSize) ∨
      (∃ c < -1, getNextBlock (bitReader bits) true fuel dbufSize old pos = .error (.code c)) ∨
        getNextBlock (bitReader bits) true fuel dbufSize old pos = .error .longRun := by
  unfold getNextBlock
  refine safe_getBits_bind (by decide) (fun i => ?_) pos
  refine (safe_getBits 24).bind fun j _ => (safe_getBits 32).bind fun headerCRC _ => ?_
  exact Safe.ite (fun _ => Safe.pure trivial) fun _ => Safe.ite (fun _ => Safe.code (by decide))
    fun _ => safe_readBlock hfuel hsize hold headerCRC

end Blocks

/-! ### The register and the bits -/

/-- Runs are tested by both programs or by none, or, which is an excuse, only by the second one. -/
def Tested (excuse : Prop) (checked checked' : Bool) : Prop :=
  checked = checked' ∨ excuse ∧ checked = false ∧ checked' = true

section Agree

variable {bits : List Bool} {excuse : Prop} {α β : Type}

theorem Agree.bind_safe {x : Reading Inbuf α} {y : Reading ℕ α} {P : α → Prop}
    {f : α → Reading Inbuf β} {g : α → Reading ℕ β} (h : Agree bits excuse x y) (hy : Safe y P)
    (hf : ∀ a, P a → Agree bits excuse (f a) (g a)) : Agree bits excuse (x >>= f) (y >>= g) := by
  refine h.bind_of fun a pos pos' hok => hf a ?_
  rcases hy pos with ⟨b, pos'', hb, -, hP⟩ | ⟨c, -, hc⟩ | hlong
  · rw [hok] at hb
    obtain ⟨rfl, -⟩ := Prod.mk.inj (Except.ok.inj hb)
    exact hP
  · rw [hok] at hc
    cases hc
  · rw [hok] at hlong
    cases hlong

theorem readSymToByte_agree (t : ℕ) (ks : List ℕ) :
    Agree bits excuse (readSymToByte inbufReader t ks) (readSymToByte (bitReader bits) t ks) := by
  induction ks with
  | nil => exact Agree.pure _
  | cons k ks ih =>
    rw [readSymToByte, readSymToByte]
    exact Agree.ite ((agree_getBits (by decide)).bind fun _ => ih.bind fun _ => Agree.pure _) ih

theorem readUnary_agree (left n : ℕ) :
    Agree bits excuse (readUnary inbufReader left n) (readUnary (bitReader bits) left n) := by
  induction left generalizing n with
  | zero => exact Agree.throw _
  | succ left ih =>
    rw [readUnary, readUnary]
    exact (agree_getBits (by decide)).bind fun _ => Agree.ite (ih (n + 1)) (Agree.pure _)

theorem readSelectors_agree (groupCount left : ℕ) (mtfSymbol : List ℕ) :
    Agree bits excuse (readSelectors inbufReader groupCount left mtfSymbol)
      (readSelectors (bitReader bits) groupCount left mtfSymbol) := by
  induction left generalizing mtfSymbol with
  | zero => exact Agree.pure _
  | succ left ih =>
    rw [readSelectors, readSelectors]
    refine (readUnary_agree groupCount 0).bind fun n => ?_
    cases toFront n mtfSymbol with
    | none => exact Agree.throw _
    | some r => exact (ih r.2).bind fun _ => Agree.pure _

theorem readLength_agree (fuel : ℕ) (lenM1 : ℤ) :
    Agree bits excuse (readLength inbufReader fuel lenM1)
      (readLength (bitReader bits) fuel lenM1) := by
  induction fuel generalizing lenM1 with
  | zero => exact Agree.throw _
  | succ fuel ih =>
    have hextra (v : ℕ) : (if v < 2 then 1 else 0) ≤ 2 := by split <;> decide
    rw [readLength, readLength]
    exact Agree.ite (Agree.throw _) ((agree_getBits_unget (by decide) hextra).bind fun _ =>
      Agree.ite (Agree.pure _) (ih _))

theorem readLengths_agree (fuel left : ℕ) (lenM1 : ℤ) :
    Agree bits excuse (readLengths inbufReader fuel left lenM1)
      (readLengths (bitReader bits) fuel left lenM1) := by
  induction left generalizing lenM1 with
  | zero => exact Agree.pure _
  | succ left ih =>
    rw [readLengths, readLengths]
    exact (readLength_agree fuel lenM1).bind fun l => (ih l).bind fun _ => Agree.pure _

theorem readGroups_agree (fuel symCount left : ℕ) :
    Agree bits excuse (readGroups inbufReader fuel symCount left)
      (readGroups (bitReader bits) fuel symCount left) := by
  induction left with
  | zero => exact Agree.pure _
  | succ left ih =>
    rw [readGroups, readGroups]
    exact (agree_getBits (by decide)).bind fun _ => (readLengths_agree fuel symCount _).bind
      fun _ => ih.bind fun _ => Agree.pure _

theorem readSymbol_agree {symCount : ℕ} {g : Group} (hg : IsGroup symCount g) :
    Agree bits excuse (readSymbol inbufReader g) (readSymbol (bitReader bits) g) := by
  obtain ⟨lengths, h, -, rfl⟩ := hg
  have hmax : (makeGroup lengths).maxLen ≤ 24 := h.hi_le.trans (by decide)
  exact (agree_getCode_unget hmax fun v => Nat.sub_le _ _).bind fun _ => Agree.lift (Or.inl rfl)

/-- What is behind the signature of a block is no end. -/
theorem readBlock_block {σ : Type} {r : Reader σ} {checked : Bool} {fuel dbufSize headerCRC : ℕ}
    {old : List UInt32} {next : Next} {s s' : σ}
    (h : readBlock r checked fuel dbufSize old headerCRC s = .ok (next, s')) :
    ∃ b, next = .block b := by
  unfold readBlock at h
  obtain ⟨_, s₁, -, h⟩ := of_bind_ok h
  split at h
  · cases h
  obtain ⟨_, s₂, -, h⟩ := of_bind_ok h
  split at h
  · cases h
  obtain ⟨_, s₃, -, h⟩ := of_bind_ok h
  obtain ⟨symToByte, s₄, -, h⟩ := of_bind_ok h
  obtain ⟨_, s₅, -, h⟩ := of_bind_ok h
  split at h
  · cases h
  obtain ⟨_, s₆, -, h⟩ := of_bind_ok h
  split at h
  · cases h
  obtain ⟨selectors, s₇, -, h⟩ := of_bind_ok h
  obtain ⟨groups, s₈, -, h⟩ := of_bind_ok h
  obtain ⟨d, s₉, -, h⟩ := of_bind_ok h
  obtain ⟨b, s₁₀, -, h⟩ := of_bind_ok h
  exact ⟨b, (Prod.mk.inj (Except.ok.inj h)).1.symm⟩

section Tested

variable {checked checked' : Bool} (hchecked : Tested excuse checked checked') (n : ℕ)
  (symToByte : List UInt8)

include hchecked

/-- The program without the test does the same, unless the test fails. -/
theorem undoSymbol_tested (d : Undoing) (nextSym : ℕ) :
    undoSymbol ⟨checked, n, symToByte⟩ d nextSym = undoSymbol ⟨checked', n, symToByte⟩ d nextSym ∨
      excuse ∧ undoSymbol ⟨checked', n, symToByte⟩ d nextSym = .error .longRun := by
  rcases hchecked with rfl | ⟨hexcuse, rfl, rfl⟩
  · exact Or.inl rfl
  unfold undoSymbol
  by_cases hrun : nextSym ≤ 1
  · rw [if_pos hrun, if_pos hrun]
    unfold runSymbol
    dsimp only
    obtain ⟨runCnt, hrunCnt⟩ : ∃ runCnt, runCnt = (if d.runPos = 0 then 0 else d.runCnt) +
        (if d.runPos = 0 then 1 else d.runPos) <<< UInt32.ofNat nextSym := ⟨_, rfl⟩
    rw [← hrunCnt]
    by_cases hlong : n < runCnt.toNat
    · refine Or.inr ⟨hexcuse, ?_⟩
      rw [if_pos ⟨rfl, hlong⟩]
      rfl
    · have hfalse : ¬ (false = true ∧ n < runCnt.toNat) := fun h => hlong h.2
      have htrue : ¬ (true = true ∧ n < runCnt.toNat) := fun h => hlong h.2
      refine Or.inl ?_
      rw [if_neg hfalse, if_neg htrue]
  · rw [if_neg hrun, if_neg hrun]
    exact Or.inl rfl

theorem readGroupSymbols_agree {symCount : ℕ} {g : Group} (hg : IsGroup symCount g) (left : ℕ)
    (d : Undoing) :
    Agree bits excuse (readGroupSymbols inbufReader ⟨checked, n, symToByte⟩ g left d)
      (readGroupSymbols (bitReader bits) ⟨checked', n, symToByte⟩ g left d) := by
  induction left generalizing d with
  | zero => exact Agree.pure _
  | succ left ih =>
    rw [readGroupSymbols, readGroupSymbols]
    exact (readSymbol_agree hg).bind fun nextSym =>
      (Agree.lift (undoSymbol_tested hchecked n symToByte d nextSym)).bind fun r =>
        Agree.ite (Agree.pure _) (ih r.1)

theorem readSymbols_agree {symCount : ℕ} {groups : List Group}
    (hgroups : ∀ g ∈ groups, IsGroup symCount g) (selectors : List ℕ) (d : Undoing) :
    Agree bits excuse (readSymbols inbufReader ⟨checked, n, symToByte⟩ groups selectors d)
      (readSymbols (bitReader bits) ⟨checked', n, symToByte⟩ groups selectors d) := by
  induction selectors generalizing d with
  | nil => exact Agree.throw _
  | cons selector selectors ih =>
    rw [readSymbols, readSymbols]
    cases hg : groups[selector]? with
    | none => exact Agree.throw _
    | some g =>
      exact (readGroupSymbols_agree hchecked n symToByte (hgroups g (List.mem_of_getElem? hg)) 50
        d).bind fun r => Agree.ite (Agree.pure _) (ih r.1)

omit symToByte in
theorem getNextBlock_agree {fuel : ℕ} (hfuel : bits.length < fuel) (old : List UInt32) :
    Agree bits excuse (getNextBlock inbufReader checked fuel n old)
      (getNextBlock (bitReader bits) checked' fuel n old) := by
  unfold getNextBlock
  refine (agree_getBits (by decide)).bind fun i => (agree_getBits (by decide)).bind fun j =>
    (agree_getBits (by decide)).bind fun headerCRC => Agree.ite (Agree.pure _) <|
      Agree.ite (Agree.throw _) ?_
  unfold readBlock
  refine (agree_getBits (by decide)).bind fun _ => Agree.ite (Agree.throw _) ?_
  refine (agree_getBits (by decide)).bind fun _ => Agree.ite (Agree.throw _) ?_
  refine (agree_getBits (by decide)).bind fun t => ?_
  refine (readSymToByte_agree t _).bind_safe (safe_readSymToByte t _) fun symToByte hsym => ?_
  refine (agree_getBits (by decide)).bind fun groupCount => Agree.ite (Agree.throw _) ?_
  refine (agree_getBits (by decide)).bind fun _ => Agree.ite (Agree.throw _) ?_
  refine (readSelectors_agree _ _ _).bind fun selectors => ?_
  rw [List.length_range] at hsym
  refine (readGroups_agree fuel _ groupCount).bind_safe
    (safe_readGroups hfuel (Nat.succ_pos _) (by omega) groupCount) fun groups hgroups => ?_
  exact (readSymbols_agree hchecked n symToByte hgroups selectors _).bind fun d =>
    (Agree.lift (Or.inl rfl)).bind fun b => Agree.pure _

omit symToByte in
theorem readBlocks_agree {fuel : ℕ} (hfuel : bits.length < fuel) (left : ℕ) (old : List UInt32)
    {bd : Inbuf} {pos : ℕ} (h : Cached bits pos 0 bd) :
    readBlocks inbufReader checked fuel n left old bd =
        readBlocks (bitReader bits) checked' fuel n left old pos ∨
      excuse ∧ readBlocks (bitReader bits) checked' fuel n left old pos = .error .longRun := by
  induction left generalizing old bd pos with
  | zero => exact Or.inl rfl
  | succ left ih =>
    rw [readBlocks, readBlocks]
    rcases getNextBlock_agree hchecked n hfuel old bd pos h with
      ⟨next, bd', pos', hx, hy, h'⟩ | ⟨e, hx, hy⟩ | ⟨hexcuse, hy⟩
    · rw [hx, hy]
      cases next with
      | last headerCRC => exact Or.inl rfl
      | block b =>
        dsimp only
        rcases ih b.dbuf h' with heq | ⟨hexcuse, hlong⟩
        · rw [heq]
          exact Or.inl rfl
        · rw [hlong]
          exact Or.inr ⟨hexcuse, rfl⟩
    · rw [hx, hy]
      cases e <;> exact Or.inl rfl
    · rw [hy]
      exact Or.inr ⟨hexcuse, rfl⟩

omit hchecked in
/-- Behind the last block no more is read than its 80 bits. -/
theorem getNextBlock_last {old : List UInt32} {fuel headerCRC : ℕ} {bd bd' : Inbuf}
    (h : getNextBlock inbufReader checked fuel n old bd = .ok (.last headerCRC, bd'))
    (hcount : bd.inbufBitCount ≤ 32) : bd'.inbufBitCount < 8 := by
  unfold getNextBlock at h
  obtain ⟨i, bd₁, hi, h⟩ := of_bind_ok h
  obtain ⟨j, bd₂, hj, h⟩ := of_bind_ok h
  obtain ⟨crc, bd₃, hcrc, h⟩ := of_bind_ok h
  have h₁ := getBits_count hi
  have h₂ := getBits_count hj
  have h₃ := getBits_count hcrc
  split at h
  · obtain ⟨-, rfl⟩ := Prod.mk.inj (Except.ok.inj h)
    omega
  · split at h
    · cases h
    · obtain ⟨b, hb⟩ := readBlock_block h
      cases hb

omit symToByte in
/-- Both are at the same place behind the stream, and less than a byte is in the register. -/
theorem behindBlocks_agree {fuel : ℕ} (hfuel : bits.length < fuel) (left : ℕ) (old : List UInt32)
    {bd : Inbuf} {pos : ℕ} (h : Cached bits pos 0 bd) :
    Option.Rel (fun bd pos => Cached bits pos 0 bd ∧ bd.inbufBitCount < 8)
        (behindBlocks inbufReader checked fuel n left old bd)
        (behindBlocks (bitReader bits) checked' fuel n left old pos) ∨
      excuse ∧ readBlocks (bitReader bits) checked' fuel n left old pos = .error .longRun := by
  induction left generalizing old bd pos with
  | zero => exact Or.inl Option.Rel.none
  | succ left ih =>
    rw [behindBlocks, behindBlocks, readBlocks]
    rcases getNextBlock_agree hchecked n hfuel old bd pos h with
      ⟨next, bd', pos', hx, hy, h'⟩ | ⟨e, hx, hy⟩ | ⟨hexcuse, hy⟩
    · rw [hx, hy]
      cases next with
      | last headerCRC =>
        exact Or.inl (Option.Rel.some ⟨h', getNextBlock_last n hx h.count_le⟩)
      | block b =>
        dsimp only
        rcases ih b.dbuf h' with hrel | ⟨hexcuse, hlong⟩
        · exact Or.inl hrel
        · rw [hlong]
          exact Or.inr ⟨hexcuse, rfl⟩
    · rw [hx, hy]
      exact Or.inl Option.Rel.none
    · rw [hy]
      exact Or.inr ⟨hexcuse, rfl⟩

end Tested

theorem startBunzip_agree :
    Agree bits excuse (startBunzip inbufReader) (startBunzip (bitReader bits)) :=
  (agree_getBits (by decide)).bind fun _ => Agree.ite (Agree.throw _) (Agree.pure _)

end Agree

/-! ### The stream -/

/-- `start_bunzip` and the calls of `get_next_block` behind it.  `old` is what a new `dbuf` holds. -/
def readStream {σ : Type} (r : Reader σ) (checked : Bool) (fuel : ℕ) (old : ℕ → List UInt32)
    (s : σ) : Except Fail Stream :=
  match startBunzip r s with
  | .error (.code c) => .ok ⟨c, [], -1, 0⟩
  | .error e => .error e
  | .ok (dbufSize, s) =>
    (readBlocks r checked fuel dbufSize fuel (old dbufSize) s).map fun (blocks, stop, stopCRC) =>
      ⟨0, blocks, stop, stopCRC⟩

/-- What is left of the input behind the end of the stream. -/
def behindStream {σ : Type} (r : Reader σ) (checked : Bool) (fuel : ℕ) (old : ℕ → List UInt32)
    (s : σ) : Option σ :=
  match startBunzip r s with
  | .error _ => none
  | .ok (dbufSize, s) => behindBlocks r checked fuel dbufSize fuel (old dbufSize) s

/-- `readStream` behind the signature of a file. -/
def readInput (checked : Bool) (fuel : ℕ) (old : ℕ → List UInt32) (input : Input) :
    Except Fail Stream :=
  readStream inbufReader checked fuel old ⟨0, 0, input⟩

/-- The bytes that have been read and not used, and the reads behind them, when the stream has come
to its end.  What is left in the register is dropped. -/
def behindInput (checked : Bool) (fuel : ℕ) (old : ℕ → List UInt32) (input : Input) :
    Option Input :=
  (behindStream inbufReader checked fuel old ⟨0, 0, input⟩).map Inbuf.input

theorem cached_zero (input : Input) : Cached input.bits 0 0 ⟨0, 0, input⟩ :=
  ⟨[], [], [], rfl, rfl, rfl, le_rfl, Nat.zero_le _, rfl⟩

theorem readInput_agree {excuse : Prop} {checked checked' : Bool}
    (hchecked : Tested excuse checked checked') {fuel : ℕ} (old : ℕ → List UInt32) {input : Input}
    (hfuel : input.bits.length < fuel) :
    readInput checked fuel old input = readStream (bitReader input.bits) checked' fuel old 0 ∨
      excuse ∧ readStream (bitReader input.bits) checked' fuel old 0 = .error .longRun := by
  unfold readInput readStream
  rcases startBunzip_agree _ _ (cached_zero input) with
    ⟨n, bd, pos, hx, hy, h⟩ | ⟨e, hx, hy⟩ | ⟨hexcuse, hy⟩
  · rw [hx, hy]
    dsimp only
    rcases readBlocks_agree hchecked n hfuel fuel (old n) h with heq | ⟨hexcuse, hlong⟩
    · rw [heq]
      exact Or.inl rfl
    · rw [hlong]
      exact Or.inr ⟨hexcuse, rfl⟩
  · rw [hx, hy]
    cases e <;> exact Or.inl rfl
  · rw [hy]
    exact Or.inr ⟨hexcuse, rfl⟩

theorem readInput_eq (checked : Bool) {fuel : ℕ} (old : ℕ → List UInt32) {input : Input}
    (hfuel : input.bits.length < fuel) :
    readInput checked fuel old input = readStream (bitReader input.bits) checked fuel old 0 :=
  (readInput_agree (Or.inl rfl) old hfuel).resolve_right fun h => (h.1 : False)

/-- **How `read` cuts the file makes no difference.** -/
theorem readInput_congr (checked : Bool) {fuel : ℕ} (old : ℕ → List UInt32) {input input' : Input}
    (hbytes : input.bytes = input'.bytes) (hfuel : input.bits.length < fuel) :
    readInput checked fuel old input = readInput checked fuel old input' := by
  have hbits : input.bits = input'.bits := congrArg (List.flatMap highBits) hbytes
  rw [readInput_eq checked old hfuel, hbits, readInput_eq checked old (hbits ▸ hfuel)]

/-- A file for "banana", behind "BZ". -/
def bananaFile : List UInt8 :=
  [104, 57, 49, 65, 89, 38, 83, 89, 239, 182, 236, 1, 0, 0, 1, 129, 0, 48, 1, 32, 0, 48, 204, 12,
    122, 136, 94, 46, 228, 138, 112, 161, 33, 223, 109, 216, 2]

/-- In two ways. -/
theorem readInput_congr_two :
    readInput false 297 (fun n => List.replicate n 0)
        ⟨bananaFile.take 3, [(bananaFile.drop 3).take 20, bananaFile.drop 23]⟩ =
      readInput false 297 (fun n => List.replicate n 0) ⟨[], [bananaFile]⟩ :=
  readInput_congr false _ rfl (by rw [Input.length_bits]; decide)

/-! ### Whatever the bytes are -/

section Safe

variable {bits : List Bool} {fuel dbufSize : ℕ} (hfuel : bits.length < fuel)
  (hsize : dbufSize ≤ 900000)

include hfuel hsize

/-- The blocks that are read, and the code behind them. -/
theorem readBlocks_safe {left : ℕ} {old : List UInt32} (hold : old.length = dbufSize) {pos : ℕ}
    (hpos : 0 < left) (hleft : bits.length < pos + left) :
    (∃ (rest : List (Block × List UInt8)) (stop : ℤ) (stopCRC : UInt32),
        (stop = -1 ∧ (behindBlocks (bitReader bits) true fuel dbufSize left old pos).isSome ∨
          stop < -1 ∧ behindBlocks (bitReader bits) true fuel dbufSize left old pos = none) ∧
        (∀ b ∈ rest, b.1.Holds b.2) ∧
        readBlocks (bitReader bits) true fuel dbufSize left old pos =
          .ok (rest.map Prod.fst, stop, stopCRC)) ∨
      readBlocks (bitReader bits) true fuel dbufSize left old pos = .error .longRun := by
  induction left generalizing old pos with
  | zero => cases hpos
  | succ left ih =>
    rw [readBlocks, behindBlocks]
    rcases safe_getNextBlock hfuel hsize hold pos with
      ⟨next, pos', hnext, hlt, hlen, hsound⟩ | ⟨c, hc, hcode⟩ | hlong
    · rw [hnext]
      cases next with
      | last headerCRC =>
        exact Or.inl ⟨[], -1, UInt32.ofNat headerCRC, Or.inl ⟨rfl, rfl⟩,
          fun b hb => absurd hb List.not_mem_nil, rfl⟩
      | block b =>
        obtain ⟨⟨text, htext⟩, hb⟩ := hsound
        dsimp only
        have hleft' : bits.length < pos' + left := by omega
        rcases ih hb (by omega) hleft' with ⟨rest, stop, stopCRC, hstop, hholds, hread⟩ | hlong
        · rw [hread]
          refine Or.inl ⟨(b, text) :: rest, stop, stopCRC, hstop, fun b' hb' => ?_, rfl⟩
          rcases List.mem_cons.mp hb' with rfl | hb'
          · exact htext
          · exact hholds b' hb'
        · rw [hlong]
          exact Or.inr rfl
    · rw [hcode]
      exact Or.inl ⟨[], c, 0, Or.inr ⟨hc, rfl⟩, fun b hb => absurd hb List.not_mem_nil, rfl⟩
    · rw [hlong]
      exact Or.inr rfl

end Safe

/-- The size of `dbuf` is from 100000 to 900000. -/
theorem safe_startBunzip (bits : List Bool) :
    Safe (startBunzip (bitReader bits)) fun dbufSize => dbufSize ≤ 900000 := by
  unfold startBunzip
  refine (safe_getBits 16).bind fun i _ => Safe.ite (fun _ => Safe.code (by decide)) fun h => ?_
  exact Safe.pure (by omega)

/-- What the codes of a stream say: that the end of it has been found, or what is wrong. -/
def Stream.Coded (s : Stream) (found : Bool) : Prop :=
  if found then s.started = 0 ∧ s.stop = -1
  else s.started < -1 ∨ s.started = 0 ∧ s.stop < -1

theorem readStream_safe {bits : List Bool} {fuel : ℕ} (hfuel : bits.length < fuel)
    {old : ℕ → List UInt32} (hold : ∀ n, (old n).length = n) :
    (∃ s rest, readStream (bitReader bits) true fuel old 0 = .ok s ∧ s.Holds rest ∧
        s.Coded (behindStream (bitReader bits) true fuel old 0).isSome) ∨
      readStream (bitReader bits) true fuel old 0 = .error .longRun := by
  unfold readStream behindStream
  rcases safe_startBunzip bits 0 with ⟨n, pos, hstart, -, hn⟩ | ⟨c, hc, hcode⟩ | hlong
  · rw [hstart]
    dsimp only
    have hpos : 0 < fuel := Nat.zero_lt_of_lt hfuel
    rcases readBlocks_safe hfuel hn (hold n) hpos (Nat.lt_add_left pos hfuel) with
      ⟨rest, stop, stopCRC, hstop, hholds, hread⟩ | hlong
    · rw [hread]
      refine Or.inl ⟨_, rest, rfl, ⟨Or.inl rfl, rfl, hholds, ?_⟩, ?_⟩
      · dsimp only
        omega
      · rcases hstop with ⟨rfl, hfound⟩ | ⟨hstop, hfound⟩
        · rw [hfound]
          exact ⟨rfl, rfl⟩
        · rw [hfound]
          exact Or.inr ⟨rfl, hstop⟩
    · rw [hlong]
      exact Or.inr rfl
  · rw [hcode]
    have hneg : (-1 : ℤ) < 0 := by decide
    exact Or.inl ⟨_, [], rfl, ⟨Or.inr hc, rfl, fun b hb => absurd hb List.not_mem_nil, hneg⟩,
      Or.inl hc⟩
  · rw [hlong]
    exact Or.inr rfl

theorem rel_map {α β γ : Type} {R : α → β → Prop} {S : γ → β → Prop} {f : α → γ} {x : Option α}
    {y : Option β} (h : Option.Rel R x y) (hf : ∀ a b, R a b → S (f a) b) :
    Option.Rel S (x.map f) y := by
  cases h with
  | none => exact Option.Rel.none
  | some h => exact Option.Rel.some (hf _ _ h)

theorem isSome_of_rel {α β : Type} {R : α → β → Prop} {x : Option α} {y : Option β}
    (h : Option.Rel R x y) : x.isSome = y.isSome := by
  cases h <;> rfl

theorem exists_of_rel {α β : Type} {R : α → β → Prop} {a : α} {y : Option β}
    (h : Option.Rel R (some a) y) : ∃ b, y = some b ∧ R a b := by
  cases h with
  | some h => exact ⟨_, rfl, h⟩

theorem exists_of_rel_some {α β : Type} {R : α → β → Prop} {x : Option α} {b : β}
    (h : Option.Rel R x (some b)) : ∃ a, x = some a ∧ R a b := by
  cases h with
  | some h => exact ⟨_, rfl, h⟩

theorem behindInput_agree {excuse : Prop} {checked checked' : Bool}
    (hchecked : Tested excuse checked checked') {fuel : ℕ} (old : ℕ → List UInt32) {input : Input}
    (hfuel : input.bits.length < fuel) :
    Option.Rel (fun behind pos => ∃ cur, input.bits.drop pos = cur ++ behind.bits ∧ cur.length < 8)
        (behindInput checked fuel old input)
        (behindStream (bitReader input.bits) checked' fuel old 0) ∨
      excuse ∧ readStream (bitReader input.bits) checked' fuel old 0 = .error .longRun := by
  unfold behindInput behindStream readStream
  rcases startBunzip_agree _ _ (cached_zero input) with
    ⟨n, bd, pos, hx, hy, h⟩ | ⟨e, hx, hy⟩ | ⟨hexcuse, hy⟩
  · rw [hx, hy]
    dsimp only
    rcases behindBlocks_agree hchecked n hfuel fuel (old n) h with hrel | ⟨hexcuse, hlong⟩
    · refine Or.inl (rel_map hrel fun bd' pos' h' => ?_)
      obtain ⟨⟨pre, old, cur, hbits, rfl, hcur, -⟩, hcount⟩ := h'
      refine ⟨cur, ?_, hcur.trans_lt hcount⟩
      rw [hbits, drop_register]
    · rw [hlong]
      exact Or.inr ⟨hexcuse, rfl⟩
  · rw [hx, hy]
    exact Or.inl Option.Rel.none
  · rw [hy]
    exact Or.inr ⟨hexcuse, rfl⟩

/-- **Any bytes are a stream**: there is no access outside of the arrays, what is read can be
written, and the codes say whether the end has been found, unless the test of runs that the source
does not make would fail. -/
theorem readInput_safe (input : Input) {fuel : ℕ} (hfuel : input.bits.length < fuel)
    {old : ℕ → List UInt32} (hold : ∀ n, (old n).length = n) :
    readInput true fuel old input = .error .longRun ∨
      ∃ s rest, readInput false fuel old input = .ok s ∧ s.Holds rest ∧
        s.Coded (behindInput false fuel old input).isSome := by
  have htested : Tested True false true := Or.inr ⟨trivial, rfl, rfl⟩
  rw [readInput_eq true old hfuel]
  rcases readStream_safe hfuel hold with ⟨s, rest, hread, hholds, hcoded⟩ | hlong
  · rcases readInput_agree htested old hfuel with heq | ⟨-, hlong⟩
    · rcases behindInput_agree htested old hfuel with hrel | ⟨-, hlong⟩
      · refine Or.inr ⟨s, rest, heq.trans hread, hholds, ?_⟩
        rwa [isSome_of_rel hrel]
      · exact Or.inl hlong
    · exact Or.inl hlong
  · exact Or.inl hlong

/-- In one piece. -/
theorem readInput_safe_banana :
    readInput true 297 (fun n => List.replicate n 0) ⟨[], [bananaFile]⟩ = .error .longRun ∨
      ∃ s rest, readInput false 297 (fun n => List.replicate n 0) ⟨[], [bananaFile]⟩ = .ok s ∧
        s.Holds rest ∧
        s.Coded (behindInput false 297 (fun n => List.replicate n 0) ⟨[], [bananaFile]⟩).isSome :=
  readInput_safe _ (by rw [Input.length_bits]; decide) fun n => List.length_replicate

end Rustybox.Bunzip2
