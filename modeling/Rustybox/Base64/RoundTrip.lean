import Mathlib.Tactic.Common
import Rustybox.Base64.Uuencode

/-!
# base64 round trip

`decodeBase64` can be stopped anywhere: what it leaves undecoded of `a` is what it needs to go on
with `c` (`decodeBase64_append`).  So a reader that carries it over decodes a text in pieces
as it would in one, wherever the pieces end.  The text of `bb_uuencode` itself is decoded in one
piece by induction on the groups of three bytes.
-/

namespace Rustybox.Base64

/-! ### Going on -/

theorem nextValid_append_of_some {a a' : List UInt8} {i : ℕ} (h : nextValid a = some (i, a'))
    (c : List UInt8) : nextValid (a ++ c) = some (i, a' ++ c) := by
  induction a with
  | nil => cases h
  | cons ch a ih =>
    rw [nextValid] at h
    rw [List.cons_append, nextValid]
    cases hch : bbUuencTblBase64.idxOf? ch with
    | some k => rw [hch] at h; cases h; rfl
    | none => rw [hch] at h; exact ih h

/-- Only characters of the table. -/
def Valid (a : List UInt8) : Prop := ∀ ch ∈ a, ch ∈ bbUuencTblBase64

theorem Valid.eq_nil {a : List UInt8} (ha : Valid a) (h : nextValid a = none) : a = [] := by
  cases a with
  | nil => rfl
  | cons ch a =>
    rw [nextValid] at h
    cases hch : bbUuencTblBase64.idxOf? ch with
    | some k => rw [hch] at h; cases h
    | none => exact absurd (ha ch List.mem_cons_self) (List.idxOf?_eq_none_iff.mp hch)

theorem fetch_append_of_some : ∀ (n : ℕ) (sixBit sixBit' : List ℕ) (a a' c : List UInt8),
    fetch n sixBit a = (sixBit', some a') → fetch n sixBit (a ++ c) = (sixBit', some (a' ++ c)) := by
  intro n
  induction n with
  | zero => intro sixBit sixBit' a a' c h; cases h; rfl
  | succ n ih =>
    intro sixBit sixBit' a a' c h
    rw [fetch] at h ⊢
    cases hnext : nextValid a with
    | none => rw [hnext] at h; cases h
    | some r =>
      obtain ⟨ch, rest⟩ := r
      rw [hnext] at h
      rw [nextValid_append_of_some hnext]
      dsimp only at h ⊢
      by_cases h64 : ch = 64
      · rw [if_pos h64] at h ⊢
        cases h
        rfl
      · rw [if_neg h64] at h ⊢
        exact ih _ _ _ _ _ h

theorem length_le_fetch : ∀ (n : ℕ) (sixBit : List ℕ) (a : List UInt8),
    sixBit.length ≤ (fetch n sixBit a).1.length := by
  intro n
  induction n with
  | zero => intro sixBit a; exact le_refl _
  | succ n ih =>
    intro sixBit a
    rw [fetch]
    cases nextValid a with
    | none => exact le_refl _
    | some r =>
      dsimp only
      by_cases h64 : r.1 = 64
      · rw [if_pos h64]
      · rw [if_neg h64]
        refine le_trans ?_ (ih _ _)
        rw [List.length_append]
        exact Nat.le_add_right _ _

theorem nextValid_of_fetch {n : ℕ} {a : List UInt8} (h : fetch (n + 1) [] a = ([], none)) :
    nextValid a = none := by
  rw [fetch] at h
  cases hnext : nextValid a with
  | none => rfl
  | some r =>
    obtain ⟨ch, rest⟩ := r
    rw [hnext] at h
    dsimp only at h
    by_cases h64 : ch = 64
    · rw [if_pos h64] at h
      cases h
    · rw [if_neg h64] at h
      have hle := length_le_fetch n ([] ++ [ch]) rest
      rw [h] at hle
      exact absurd hle (Nat.not_succ_le_zero 0)

theorem decodeBase64_of_none {a : List UInt8} {sixBit : List ℕ}
    (h : fetch 4 [] a = (sixBit, none)) :
    decodeBase64 a = ([], if sixBit = [] then [] else a) := by
  rw [decodeBase64]
  split
  · rename_i six' h'
    rw [h] at h'
    cases h'
    rfl
  · rename_i h'
    rw [h] at h'
    cases h'

theorem decodeBase64_of_some {a a' : List UInt8} {sixBit : List ℕ}
    (h : fetch 4 [] a = (sixBit, some a')) :
    decodeBase64 a = (groupBytes sixBit ++ (decodeBase64 a').1, (decodeBase64 a').2) := by
  rw [decodeBase64]
  split
  · rename_i h'
    rw [h] at h'
    cases h'
  · rename_i six' a'' h'
    rw [h] at h'
    cases h'
    rfl

theorem nextValid_mem {a a' : List UInt8} {i : ℕ} (h : nextValid a = some (i, a')) :
    a' ⊆ a := by
  induction a with
  | nil => cases h
  | cons ch a ih =>
    rw [nextValid] at h
    cases hch : bbUuencTblBase64.idxOf? ch with
    | some k => rw [hch] at h; cases h; exact List.subset_cons_self _ _
    | none => rw [hch] at h; exact List.subset_cons_of_subset _ (ih h)

theorem fetch_subset : ∀ (n : ℕ) (sixBit sixBit' : List ℕ) (a a' : List UInt8),
    fetch n sixBit a = (sixBit', some a') → a' ⊆ a := by
  intro n
  induction n with
  | zero => intro sixBit sixBit' a a' h; cases h; exact List.Subset.refl _
  | succ n ih =>
    intro sixBit sixBit' a a' h
    rw [fetch] at h
    cases hnext : nextValid a with
    | none => rw [hnext] at h; cases h
    | some r =>
      obtain ⟨ch, rest⟩ := r
      rw [hnext] at h
      dsimp only at h
      by_cases h64 : ch = 64
      · rw [if_pos h64] at h
        cases h
        exact nextValid_mem hnext
      · rw [if_neg h64] at h
        exact List.Subset.trans (ih _ _ _ _ h) (nextValid_mem hnext)

/-- **Decoding goes on with what it has left undecoded.** -/
theorem decodeBase64_append (a c : List UInt8) (ha : Valid a) :
    decodeBase64 (a ++ c) =
      ((decodeBase64 a).1 ++ (decodeBase64 ((decodeBase64 a).2 ++ c)).1,
        (decodeBase64 ((decodeBase64 a).2 ++ c)).2) := by
  induction hn : a.length using Nat.strong_induction_on generalizing a with
  | _ n ih =>
    cases hf : fetch 4 [] a with
    | mk sixBit rest =>
      cases rest with
      | none =>
        rw [decodeBase64_of_none hf]
        by_cases h0 : sixBit = []
        · subst h0
          rw [ha.eq_nil (nextValid_of_fetch hf)]
          rfl
        · rw [if_neg h0]
          rfl
      | some a' =>
        have hlt : a'.length < n := hn ▸ fetch_length hf
        rw [decodeBase64_of_some hf, decodeBase64_of_some (fetch_append_of_some _ _ _ _ _ c hf),
          ih a'.length hlt a' (fun ch hch => ha ch (fetch_subset _ _ _ _ _ hf hch)) rfl,
          List.append_assoc]

/-- Where the string ends in a group, all of the group is six-bit values. -/
theorem length_of_fetch : ∀ (n : ℕ) (sixBit sixBit' : List ℕ) (a : List UInt8), Valid a →
    fetch n sixBit a = (sixBit', none) → a.length < n := by
  intro n
  induction n with
  | zero => intro sixBit sixBit' a _ h; cases h
  | succ n ih =>
    intro sixBit sixBit' a ha h
    rw [fetch] at h
    cases hnext : nextValid a with
    | none => rw [ha.eq_nil hnext]; exact Nat.succ_pos n
    | some r =>
      obtain ⟨ch, rest⟩ := r
      rw [hnext] at h
      dsimp only at h
      by_cases h64 : ch = 64
      · rw [if_pos h64] at h
        cases h
      · rw [if_neg h64] at h
        cases a with
        | nil => cases hnext
        | cons c a =>
          rw [nextValid] at hnext
          cases hc : bbUuencTblBase64.idxOf? c with
          | none => exact absurd (ha c List.mem_cons_self) (List.idxOf?_eq_none_iff.mp hc)
          | some k =>
            rw [hc] at hnext
            cases hnext
            exact Nat.succ_lt_succ
              (ih _ _ _ (fun ch hch => ha ch (List.mem_cons_of_mem _ hch)) h)

/-- **Less than a group is carried over.** -/
theorem length_carry_le : ∀ a : List UInt8, Valid a → (decodeBase64 a).2.length ≤ 3 := by
  intro a
  induction hn : a.length using Nat.strong_induction_on generalizing a with
  | _ n ih =>
    intro ha
    cases hf : fetch 4 [] a with
    | mk sixBit rest =>
      cases rest with
      | none =>
        rw [decodeBase64_of_none hf]
        by_cases h0 : sixBit = []
        · rw [if_pos h0]
          exact Nat.zero_le 3
        · rw [if_neg h0]
          exact Nat.le_of_lt_succ (length_of_fetch _ _ _ _ ha hf)
      | some a' =>
        have hlt : a'.length < n := hn ▸ fetch_length hf
        rw [decodeBase64_of_some hf]
        exact ih a'.length hlt a' rfl fun ch hch => ha ch (fetch_subset _ _ _ _ _ hf hch)

theorem carry_subset : ∀ a : List UInt8, (decodeBase64 a).2 ⊆ a := by
  intro a
  induction hn : a.length using Nat.strong_induction_on generalizing a with
  | _ n ih =>
    cases hf : fetch 4 [] a with
    | mk sixBit rest =>
      cases rest with
      | none =>
        rw [decodeBase64_of_none hf]
        by_cases h0 : sixBit = []
        · rw [if_pos h0]
          exact List.nil_subset _
        · rw [if_neg h0]
          exact List.Subset.refl _
      | some a' =>
        have hlt : a'.length < n := hn ▸ fetch_length hf
        rw [decodeBase64_of_some hf]
        exact List.Subset.trans (ih a'.length hlt a' rfl) (fetch_subset _ _ _ _ _ hf)

/-! ### Reading a folded text -/

/-- A blank, a tab or a newline. -/
def Blank (ch : UInt8) : Prop := ch = 32 ∨ ch = 9 ∨ ch = 10

instance (ch : UInt8) : Decidable (Blank ch) := inferInstanceAs (Decidable (_ ∨ _))

/-- The text without its blanks, tabs and newlines. -/
def unfold (t : List UInt8) : List UInt8 := t.filter fun ch => ¬Blank ch

theorem Blank.le {ch : UInt8} (h : Blank ch) : ch ≤ 32 := by
  rcases h with rfl | rfl | rfl <;> decide

theorem lt_of_mem_table {ch : UInt8} (h : ch ∈ bbUuencTblBase64) : ch = 0 ∨ ¬ch ≤ 32 := by
  have hall : (bbUuencTblBase64.all fun ch => ch = 0 ∨ ¬ch ≤ 32) = true := by decide
  exact of_decide_eq_true (List.all_eq_true.mp hall ch h)

theorem fill_noStopChar : ∀ (t inBuf : List UInt8), (∀ ch ∈ t, Blank ch ∨ ¬ch ≤ 32) →
    fill noStopChar inBuf t = .term (inBuf ++ unfold t) ∨
      ∃ p rest, fill noStopChar inBuf t = .part (inBuf ++ p) rest ∧ unfold t = p ++ unfold rest ∧
        rest <:+ t ∧ (inBuf.length < bufferSize → rest.length < t.length) := by
  intro t
  induction t with
  | nil =>
    intro inBuf _
    rw [fill]
    by_cases hlen : inBuf.length < bufferSize
    · rw [if_pos hlen, if_neg (fun h => absurd h.1 (by decide))]
      exact Or.inl (by rw [unfold, List.filter_nil, List.append_nil])
    · rw [if_neg hlen]
      exact Or.inr ⟨[], [], by rw [List.append_nil], rfl, List.suffix_refl _,
        fun h => absurd h hlen⟩
  | cons ch t ih =>
    intro inBuf ht
    rw [fill]
    by_cases hlen : inBuf.length < bufferSize
    · have hstop : ¬(ch.toNat : ℤ) = stopChar noStopChar := by
        have : stopChar noStopChar = -128 := by decide
        omega
      rw [if_pos hlen, if_neg hstop]
      by_cases hctl : ch ≤ 32
      · have hb : Blank ch := (ht ch List.mem_cons_self).resolve_right fun h => h hctl
        rw [if_pos hctl]
        refine Or.inr ⟨[], t, by rw [List.append_nil], ?_, List.suffix_cons _ _,
          fun _ => Nat.lt_succ_self _⟩
        rw [unfold, List.filter_cons_of_neg (by simpa using hb)]
        rfl
      · have hb : ¬Blank ch := fun h => hctl h.le
        have hcons : unfold (ch :: t) = ch :: unfold t :=
          List.filter_cons_of_pos (by simpa using hb)
        rw [if_neg hctl, hcons]
        rcases ih (inBuf ++ [ch]) (fun c hc => ht c (List.mem_cons_of_mem _ hc)) with h | h
        · left
          rw [h, List.append_assoc]
          rfl
        · right
          obtain ⟨p, rest, hfill, hp, hsuf, -⟩ := h
          refine ⟨ch :: p, rest, ?_, by rw [hp]; rfl, hsuf.trans (List.suffix_cons _ _),
            fun _ => Nat.lt_succ_of_le hsuf.length_le⟩
          rw [hfill, List.append_assoc]
          rfl
    · rw [if_neg hlen]
      exact Or.inr ⟨[], ch :: t, by rw [List.append_nil], rfl, List.suffix_refl _,
        fun h => absurd h hlen⟩

/-- **The loop writes what the rest of the text decodes to.**  What is carried over and what is
still to come are a text together, and less than a group is carried over, so that every window has
room for more. -/
theorem readLoop_spec : ∀ (n : ℕ) (t inBuf dst out : List UInt8), t.length < n →
    (∀ ch ∈ t, Blank ch ∨ ¬ch ≤ 32) → Valid (inBuf ++ unfold t) → inBuf.length ≤ 3 →
    decodeBase64 (inBuf ++ unfold t) = (out, []) →
    readLoop noStopChar n inBuf t dst = some (dst ++ out, .returned) := by
  intro n
  induction n with
  | zero => intro t inBuf dst out hn; exact absurd hn (Nat.not_lt_zero _)
  | succ n ih =>
    intro t inBuf dst out hn ht hvalid hlen hdec
    have huu (b : List UInt8) : uuStops noStopChar b = false := rfl
    rw [readLoop]
    rcases fill_noStopChar t inBuf ht with hfill | ⟨p, rest, hfill, hp, hsuf, hlt⟩
    · rw [hfill]
      dsimp only
      rw [huu, if_neg Bool.false_ne_true, hdec]
      rfl
    · have hvalid' : Valid (inBuf ++ p) := fun ch hch => hvalid ch (by
        rw [hp, ← List.append_assoc]
        exact List.mem_append_left _ hch)
      rw [hp, ← List.append_assoc, decodeBase64_append _ _ hvalid', Prod.mk.injEq] at hdec
      rw [hfill]
      dsimp only
      rw [huu, if_neg Bool.false_ne_true, ← hdec.1, ← List.append_assoc]
      have hrest : rest.length < t.length :=
        hlt (Nat.lt_of_le_of_lt hlen (by decide))
      refine ih rest _ _ _ (by omega) (fun ch hch => ht ch (hsuf.subset hch)) ?_
        (length_carry_le _ hvalid') (Prod.ext rfl hdec.2)
      intro ch hch
      refine hvalid ch ?_
      rw [hp, ← List.append_assoc]
      rcases List.mem_append.mp hch with h | h
      · exact List.mem_append_left _ (carry_subset _ h)
      · exact List.mem_append_right _ h

/-! ### The text of bb_uuencode -/

/-- The character of a six-bit value. -/
def digit (i : ℕ) : UInt8 := bbUuencTblBase64.getD i 0

/-- The text of a byte string, by groups of three bytes. -/
def text : List UInt8 → List UInt8
  | [] => []
  | [a] => (uuencodeGroup bbUuencTblBase64 a.toNat 0 0).take 2 ++ [61, 61]
  | [a, b] => (uuencodeGroup bbUuencTblBase64 a.toNat b.toNat 0).take 3 ++ [61]
  | a :: b :: c :: s => uuencodeGroup bbUuencTblBase64 a.toNat b.toNat c.toNat ++ text s

theorem uuencodeLoop_of_nonpos {tbl s p : List UInt8} {length : ℤ} (h : length ≤ 0) (n : ℕ) :
    uuencodeLoop tbl n s length p = (p, length) := by
  cases n with
  | zero => rfl
  | succ n => rw [uuencodeLoop, if_neg (by omega)]

theorem padLoop_append : ∀ (k : ℕ) (a m rest : List UInt8), m.length = k →
    padLoop bbUuencTblBase64 k (a ++ m).length (a ++ m ++ rest) =
      a ++ List.replicate k 61 ++ rest := by
  intro k
  induction k with
  | zero =>
    intro a m rest hm
    rw [List.eq_nil_of_length_eq_zero hm]
    rfl
  | succ k ih =>
    intro a m rest hm
    obtain ⟨m', x, rfl⟩ : ∃ m' x, m = m' ++ [x] :=
      ⟨_, _, (List.dropLast_append_getLast (List.ne_nil_of_length_eq_add_one hm)).symm⟩
    have hlen : (a ++ (m' ++ [x])).length - 1 = (a ++ m').length := by simp
    have hset : (a ++ (m' ++ [x]) ++ rest).set (a ++ m').length 61 = a ++ m' ++ (61 :: rest) := by
      rw [← List.append_assoc, List.append_assoc, List.set_append_right _ _ (le_refl _),
        Nat.sub_self]
      rfl
    rw [padLoop, hlen, show bbUuencTblBase64.getD 64 0 = 61 from rfl, hset,
      ih a m' (61 :: rest) (by simpa using hm), List.replicate_succ', List.append_assoc,
      List.append_assoc, List.append_assoc]
    rfl

theorem padLoop_uuencodeLoop : ∀ (n : ℕ) (s p : List UInt8), s.length ≤ n →
    padLoop bbUuencTblBase64 (-(uuencodeLoop bbUuencTblBase64 n s s.length p).2).toNat
        (uuencodeLoop bbUuencTblBase64 n s s.length p).1.length
        (uuencodeLoop bbUuencTblBase64 n s s.length p).1 = p ++ text s := by
  intro n
  induction n with
  | zero =>
    intro s p h
    rw [List.eq_nil_of_length_eq_zero (Nat.le_zero.mp h)]
    exact (List.append_nil p).symm
  | succ n ih =>
    intro s p h
    match s with
    | [] =>
      rw [uuencodeLoop_of_nonpos (show (([] : List UInt8).length : ℤ) ≤ 0 from Int.le_refl 0)]
      exact (List.append_nil p).symm
    | [a] =>
      have hlen : (([a] : List UInt8).length : ℤ) - 3 = -2 := rfl
      rw [uuencodeLoop, if_pos (by simp)]
      dsimp only
      rw [hlen, uuencodeLoop_of_nonpos (by decide), if_neg (by decide), if_neg (by decide)]
      have hpad := padLoop_append 2 (p ++ (uuencodeGroup bbUuencTblBase64 a.toNat 0 0).take 2)
        ((uuencodeGroup bbUuencTblBase64 a.toNat 0 0).drop 2) [] rfl
      rw [List.append_nil, List.append_assoc, List.take_append_drop] at hpad
      exact hpad.trans (by rw [List.append_nil, List.append_assoc]; rfl)
    | [a, b] =>
      have hlen : (([a, b] : List UInt8).length : ℤ) - 3 = -1 := rfl
      rw [uuencodeLoop, if_pos (by simp)]
      dsimp only
      rw [hlen, uuencodeLoop_of_nonpos (by decide), if_pos (by decide), if_neg (by decide)]
      have hpad := padLoop_append 1 (p ++ (uuencodeGroup bbUuencTblBase64 a.toNat b.toNat 0).take 3)
        ((uuencodeGroup bbUuencTblBase64 a.toNat b.toNat 0).drop 3) [] rfl
      rw [List.append_nil, List.append_assoc, List.take_append_drop] at hpad
      exact hpad.trans (by rw [List.append_nil, List.append_assoc]; rfl)
    | a :: b :: c :: s =>
      have hlen : ((a :: b :: c :: s).length : ℤ) - 3 = s.length := by
        rw [List.length_cons, List.length_cons, List.length_cons]
        omega
      rw [uuencodeLoop, if_pos (by rw [List.length_cons]; omega)]
      dsimp only
      rw [hlen, if_pos (by omega), if_pos (by omega)]
      have hn : s.length ≤ n := by
        rw [List.length_cons, List.length_cons, List.length_cons] at h
        omega
      exact (ih s _ hn).trans (List.append_assoc _ _ _)

theorem bbUuencode_eq (s : List UInt8) : bbUuencode s s.length bbUuencTblBase64 = text s :=
  padLoop_uuencodeLoop s.length s [] (le_refl _)

/-! ### Decoding it -/

theorem idxOf_digit {i : ℕ} (h : i < 64) : bbUuencTblBase64.idxOf? (digit i) = some i := by
  have hall : ∀ i : Fin 64, bbUuencTblBase64.idxOf? (digit i) = some i.1 := by decide
  exact hall ⟨i, h⟩

theorem fetch_digit {i n : ℕ} (h : i < 64) (sixBit : List ℕ) (src : List UInt8) :
    fetch (n + 1) sixBit (digit i :: src) = fetch n (sixBit ++ [i]) src := by
  rw [fetch, nextValid, idxOf_digit h]
  exact if_neg (Nat.ne_of_lt h)

theorem decodeBase64_nil : decodeBase64 [] = ([], []) :=
  decodeBase64_of_none (show fetch 4 [] [] = ([], none) from rfl)

theorem decodeBase64_pad : decodeBase64 [61] = ([], []) := by
  rw [decodeBase64_of_some rfl, decodeBase64_nil]
  rfl

theorem uuencodeGroup_eq (a b c : ℕ) : uuencodeGroup bbUuencTblBase64 a b c =
    [digit (a / 4), digit (a % 4 * 16 + b / 16), digit (b % 16 * 4 + c / 64), digit (c % 64)] := by
  have h3 : a &&& 3 = a % 4 := Nat.and_two_pow_sub_one_eq_mod a 2
  have h15 : b &&& 0xf = b % 16 := Nat.and_two_pow_sub_one_eq_mod b 4
  have h63 : c &&& 0x3f = c % 64 := Nat.and_two_pow_sub_one_eq_mod c 6
  rw [uuencodeGroup, h3, h15, h63, Nat.shiftLeft_eq, Nat.shiftLeft_eq, Nat.shiftRight_eq_div_pow,
    Nat.shiftRight_eq_div_pow, Nat.shiftRight_eq_div_pow]
  rfl

theorem or_pieces (x : UInt8) {h l k : ℕ} (hl : l < 2 ^ k) (heq : (h * 2 ^ k + l) % 256 = x.toNat) :
    UInt8.ofNat (h <<< k ||| l) = x := by
  rw [← Nat.shiftLeft_add_eq_or_of_lt hl, Nat.shiftLeft_eq]
  exact UInt8.toNat_inj.mp (by rw [UInt8.toNat_ofNat', heq])

section

variable (a b c : UInt8)

theorem first_byte : UInt8.ofNat
    ((a.toNat / 4) <<< 2 ||| (a.toNat % 4 * 16 + b.toNat / 16) >>> 4) = a := by
  have ha := a.toNat_lt
  have hb := b.toNat_lt
  rw [Nat.shiftRight_eq_div_pow]
  exact or_pieces a (by omega) (by omega)

theorem second_byte : UInt8.ofNat
    ((a.toNat % 4 * 16 + b.toNat / 16) <<< 4 ||| (b.toNat % 16 * 4 + c.toNat / 64) >>> 2) = b := by
  have hb := b.toNat_lt
  have hc := c.toNat_lt
  rw [Nat.shiftRight_eq_div_pow]
  exact or_pieces b (by omega) (by omega)

theorem third_byte : UInt8.ofNat
    ((b.toNat % 16 * 4 + c.toNat / 64) <<< 6 ||| c.toNat % 64) = c := by
  have hc := c.toNat_lt
  exact or_pieces c (by omega) (by omega)

end

theorem decodeBase64_text : ∀ s : List UInt8, decodeBase64 (text s) = (s, []) := by
  intro s
  induction s using text.induct with
  | case1 => exact decodeBase64_nil
  | case2 a =>
    have ha := a.toNat_lt
    have hf : fetch 4 [] (text [a]) = ([a.toNat / 4, a.toNat % 4 * 16], some [61]) := by
      rw [text, uuencodeGroup_eq, List.take_succ_cons, List.take_succ_cons, List.take_zero,
        List.cons_append, fetch_digit (by omega), List.cons_append, fetch_digit (by omega)]
      rfl
    rw [decodeBase64_of_some hf, decodeBase64_pad]
    exact Prod.ext (congrArg (fun x => [x]) (first_byte a 0)) rfl
  | case3 a b =>
    have ha := a.toNat_lt
    have hb := b.toNat_lt
    have hf : fetch 4 [] (text [a, b]) =
        ([a.toNat / 4, a.toNat % 4 * 16 + b.toNat / 16, b.toNat % 16 * 4], some []) := by
      rw [text, uuencodeGroup_eq, List.take_succ_cons, List.take_succ_cons, List.take_succ_cons,
        List.take_zero, List.cons_append, fetch_digit (by omega), List.cons_append,
        fetch_digit (by omega), List.cons_append, fetch_digit (by omega)]
      rfl
    rw [decodeBase64_of_some hf, decodeBase64_nil]
    exact Prod.ext (congrArg₂ (fun x y => [x, y]) (first_byte a b) (second_byte a b 0)) rfl
  | case4 a b c s ih =>
    have ha := a.toNat_lt
    have hb := b.toNat_lt
    have hc := c.toNat_lt
    have hf : fetch 4 [] (text (a :: b :: c :: s)) =
        ([a.toNat / 4, a.toNat % 4 * 16 + b.toNat / 16, b.toNat % 16 * 4 + c.toNat / 64,
          c.toNat % 64], some (text s)) := by
      rw [text, uuencodeGroup_eq, List.cons_append, fetch_digit (by omega), List.cons_append,
        fetch_digit (by omega), List.cons_append, fetch_digit (by omega), List.cons_append,
        fetch_digit (by omega)]
      rfl
    rw [decodeBase64_of_some hf, ih, groupBytes, first_byte, second_byte, third_byte]
    rfl

theorem digit_mem {i : ℕ} (h : i < 64) : digit i ∈ bbUuencTblBase64 ∧ digit i ≠ 0 := by
  have hall : ∀ i : Fin 64, digit i ∈ bbUuencTblBase64 ∧ digit i ≠ 0 := by decide
  exact hall ⟨i, h⟩

theorem mem_group {a b c : UInt8} {ch : UInt8}
    (h : ch ∈ uuencodeGroup bbUuencTblBase64 a.toNat b.toNat c.toNat) :
    ch ∈ bbUuencTblBase64 ∧ ch ≠ 0 := by
  have ha := a.toNat_lt
  have hb := b.toNat_lt
  have hc := c.toNat_lt
  rw [uuencodeGroup_eq, List.mem_cons, List.mem_cons, List.mem_cons, List.mem_singleton] at h
  rcases h with rfl | rfl | rfl | rfl <;> exact digit_mem (by omega)

theorem mem_text : ∀ (s : List UInt8), ∀ ch ∈ text s, ch ∈ bbUuencTblBase64 ∧ ch ≠ 0 := by
  intro s
  have hpad : (61 : UInt8) ∈ bbUuencTblBase64 ∧ (61 : UInt8) ≠ 0 := by decide
  induction s using text.induct with
  | case1 => intro ch h; cases h
  | case2 a =>
    intro ch h
    rcases List.mem_append.mp h with h | h
    · exact mem_group (a := a) (b := 0) (c := 0) (List.mem_of_mem_take h)
    · rw [List.eq_of_mem_replicate (n := 2) h]
      exact hpad
  | case3 a b =>
    intro ch h
    rcases List.mem_append.mp h with h | h
    · exact mem_group (a := a) (b := b) (c := 0) (List.mem_of_mem_take h)
    · rw [List.mem_singleton.mp h]
      exact hpad
  | case4 a b c s ih =>
    intro ch h
    rcases List.mem_append.mp h with h | h
    · exact mem_group h
    · exact ih ch h

/-- **base64 round trip, however the text is folded.**  `t` is the text with blanks, tabs and
newlines put in anywhere. -/
theorem base64_round_trip (s : List UInt8) :
    (∀ t, unfold t = bbUuencode s s.length bbUuencTblBase64 →
      readBase64 t noStopChar = some (s, .returned)) ∧
      decodeBase64 (bbUuencode s s.length bbUuencTblBase64) = (s, []) := by
  rw [bbUuencode_eq]
  refine ⟨?_, decodeBase64_text s⟩
  intro t ht
  refine readLoop_spec (t.length + 2) t [] [] s (by omega) ?_ ?_ (Nat.zero_le 3) ?_
  · intro ch hch
    by_cases hb : Blank ch
    · exact Or.inl hb
    · have hmem := mem_text s ch (ht ▸ List.mem_filter.mpr ⟨hch, by simpa using hb⟩)
      exact Or.inr ((lt_of_mem_table hmem.1).resolve_left hmem.2)
  · rw [List.nil_append, ht]
    exact fun ch hch => (mem_text s ch hch).1
  · rw [List.nil_append, ht]
    exact decodeBase64_text s

/-- `QUJDRA==`, with a newline between the two padding characters. -/
theorem base64_round_trip_folded :
    readBase64 [81, 85, 32, 74, 68, 10, 10, 82, 9, 65, 61, 10, 61] noStopChar =
        some ([65, 66, 67, 68], .returned) ∧
      decodeBase64 (bbUuencode [65, 66, 67, 68] 4 bbUuencTblBase64) = ([65, 66, 67, 68], []) :=
  ⟨(base64_round_trip [65, 66, 67, 68]).1 _ (by decide), (base64_round_trip [65, 66, 67, 68]).2⟩

end Rustybox.Base64
