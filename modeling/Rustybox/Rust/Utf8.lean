import Mathlib.Data.List.Basic

/-!
# UTF-8 in the standard library

A path is a list of bytes, a `str` the list of its characters.  `asBytes` goes from a
`str` to its bytes and `fromUtf8Lossy` back, with a replacement character for each piece
of the input that is not UTF-8.

* `fromUtf8Lossy_asBytes`: every `str` survives the way over its bytes.
* `asBytes_fromUtf8Lossy_iff`: the bytes survive the way over a `str` exactly when they are
  UTF-8.
-/

namespace Rustybox.Rust

def asBytes (s : List Char) : List UInt8 := s.flatMap String.utf8EncodeChar

/-- The bytes of some `str`. -/
def IsUtf8 (bytes : List UInt8) : Prop := ∃ s, asBytes s = bytes

def replacementCharacter : Char := Char.ofNat 0xFFFD

/-- `safe_get` of `Utf8Chunks::next`: past the end there is a zero, which no test accepts. -/
def safeGet (source : List UInt8) (i : ℕ) : ℕ := (source.getD i 0).toNat

/-- `byte & 192 == TAG_CONT_U8`. -/
def isCont (byte : ℕ) : Bool := 0x80 ≤ byte && byte ≤ 0xBF

/-- The second bytes that may follow the first byte of a character of three. -/
def secondOfThree (byte next : ℕ) : Bool :=
  (byte == 0xE0 && 0xA0 ≤ next && next ≤ 0xBF) ||
  (0xE1 ≤ byte && byte ≤ 0xEC && 0x80 ≤ next && next ≤ 0xBF) ||
  (byte == 0xED && 0x80 ≤ next && next ≤ 0x9F) ||
  (0xEE ≤ byte && byte ≤ 0xEF && 0x80 ≤ next && next ≤ 0xBF)

/-- The second bytes that may follow the first byte of a character of four. -/
def secondOfFour (byte next : ℕ) : Bool :=
  (byte == 0xF0 && 0x90 ≤ next && next ≤ 0xBF) ||
  (0xF1 ≤ byte && byte ≤ 0xF3 && 0x80 ≤ next && next ≤ 0xBF) ||
  (byte == 0xF4 && 0x80 ≤ next && next ≤ 0x8F)

/-- One turn of the loop of `Utf8Chunks::next`: the character at the front and what is left,
or `none` when the turn breaks off, with the bytes it has looked at and refused taken away. -/
def nextChar (first : UInt8) (source : List UInt8) : Option Char × List UInt8 :=
  let byte := first.toNat
  if byte < 0x80 then (some (Char.ofNat byte), source)
  else if 0xC2 ≤ byte ∧ byte ≤ 0xDF then
    if !isCont (safeGet source 0) then (none, source)
    else (some (Char.ofNat (byte % 0x20 * 0x40 + safeGet source 0 % 0x40)), source.drop 1)
  else if 0xE0 ≤ byte ∧ byte ≤ 0xEF then
    if !secondOfThree byte (safeGet source 0) then (none, source)
    else if !isCont (safeGet source 1) then (none, source.drop 1)
    else
      (some (Char.ofNat (byte % 0x10 * 0x1000 + safeGet source 0 % 0x40 * 0x40 +
        safeGet source 1 % 0x40)), source.drop 2)
  else if 0xF0 ≤ byte ∧ byte ≤ 0xF4 then
    if !secondOfFour byte (safeGet source 0) then (none, source)
    else if !isCont (safeGet source 1) then (none, source.drop 1)
    else if !isCont (safeGet source 2) then (none, source.drop 2)
    else
      (some (Char.ofNat (byte % 0x08 * 0x40000 + safeGet source 0 % 0x40 * 0x1000 +
        safeGet source 1 % 0x40 * 0x40 + safeGet source 2 % 0x40)), source.drop 3)
  else (none, source)

theorem nextChar_length_le (first : UInt8) (source : List UInt8) :
    (nextChar first source).2.length ≤ source.length := by
  simp only [nextChar]
  repeat' split
  all_goals simp only [List.length_drop]; omega

def fromUtf8Lossy : List UInt8 → List Char
  | [] => []
  | first :: source =>
    (nextChar first source).1.getD replacementCharacter ::
      fromUtf8Lossy (nextChar first source).2
termination_by source => source.length
decreasing_by
  have h := nextChar_length_le first source
  simp only [List.length_cons]
  omega

/-! ### The way from characters to bytes and back -/

theorem toNat_ofNat_of_lt {n : ℕ} (h : n < 256) : (UInt8.ofNat n).toNat = n := by
  simp only [UInt8.toNat_ofNat']
  omega

theorem ofNat_val_toNat (c : Char) : Char.ofNat c.val.toNat = c := Char.ofNat_toNat c

/-- The numbers a `char` may have. -/
theorem val_toNat_range (c : Char) :
    c.val.toNat < 0xD800 ∨ (0xDFFF < c.val.toNat ∧ c.val.toNat < 0x110000) := c.valid

theorem isCont_mod_add (n : ℕ) : isCont (n % 0x40 + 0x80) = true := by
  simp only [isCont, Bool.and_eq_true, decide_eq_true_eq]
  omega

/-- A character is read off the front of its own bytes, whatever follows. -/
theorem nextChar_utf8EncodeChar (c : Char) (source : List UInt8) :
    ∃ first tail, String.utf8EncodeChar c = first :: tail ∧
      nextChar first (tail ++ source) = (some c, source) := by
  have hr := val_toNat_range c
  have hc := ofNat_val_toNat c
  unfold String.utf8EncodeChar
  generalize hv : c.val.toNat = v at hr hc
  dsimp only
  have hcont : ∀ n, (UInt8.ofNat (n % 0x40 + 0x80)).toNat = n % 0x40 + 0x80 :=
    fun n => toNat_ofNat_of_lt (by omega)
  split
  · refine ⟨_, _, rfl, ?_⟩
    have h0 : (UInt8.ofNat v).toNat = v := toNat_ofNat_of_lt (by omega)
    simp only [nextChar, h0, List.nil_append]
    rw [if_pos (by omega), hc]
  split
  · refine ⟨_, _, rfl, ?_⟩
    have h0 := toNat_ofNat_of_lt (n := v / 64 % 0x20 + 0xc0) (by omega)
    simp only [nextChar, h0, List.cons_append, List.nil_append, safeGet, List.getD_cons_zero,
      hcont, isCont_mod_add, Bool.not_true, Bool.false_eq_true, if_false, List.drop_succ_cons,
      List.drop_zero]
    rw [if_neg (by omega), if_pos (by omega), ← hc]
    congr 3
    omega
  split
  · refine ⟨_, _, rfl, ?_⟩
    have h0 := toNat_ofNat_of_lt (n := v / 4096 % 0x10 + 0xe0) (by omega)
    have h1 : secondOfThree (v / 4096 % 0x10 + 0xe0) (v / 64 % 0x40 + 0x80) = true := by
      simp only [secondOfThree, Bool.or_eq_true, Bool.and_eq_true, decide_eq_true_eq,
        beq_iff_eq]
      omega
    simp only [nextChar, h0, List.cons_append, List.nil_append, safeGet, List.getD_cons_zero,
      List.getD_cons_succ, hcont, isCont_mod_add, h1, Bool.not_true, Bool.false_eq_true, if_false,
      List.drop_succ_cons, List.drop_zero]
    rw [if_neg (by omega), if_neg (by omega), if_pos (by omega), ← hc]
    congr 3
    omega
  · refine ⟨_, _, rfl, ?_⟩
    have h0 := toNat_ofNat_of_lt (n := v / 262144 % 0x08 + 0xf0) (by omega)
    have h1 : secondOfFour (v / 262144 % 0x08 + 0xf0) (v / 4096 % 0x40 + 0x80) = true := by
      simp only [secondOfFour, Bool.or_eq_true, Bool.and_eq_true, decide_eq_true_eq,
        beq_iff_eq]
      omega
    simp only [nextChar, h0, List.cons_append, List.nil_append, safeGet, List.getD_cons_zero,
      List.getD_cons_succ, hcont, isCont_mod_add, h1, Bool.not_true, Bool.false_eq_true, if_false,
      List.drop_succ_cons, List.drop_zero]
    rw [if_neg (by omega), if_neg (by omega), if_neg (by omega), if_pos (by omega), ← hc]
    congr 3
    omega

/-- **Text survives its bytes.** -/
theorem fromUtf8Lossy_asBytes (s : List Char) : fromUtf8Lossy (asBytes s) = s := by
  induction s with
  | nil => rw [asBytes, List.flatMap_nil, fromUtf8Lossy]
  | cons c s ih =>
    obtain ⟨first, tail, hc, hn⟩ := nextChar_utf8EncodeChar c (asBytes s)
    have hb : asBytes (c :: s) = first :: (tail ++ asBytes s) := by
      simp only [asBytes, List.flatMap_cons, hc, List.cons_append]
    rw [hb, fromUtf8Lossy, hn, ih]
    rfl

theorem asBytes_injective {s t : List Char} (h : asBytes s = asBytes t) : s = t := by
  rw [← fromUtf8Lossy_asBytes s, h, fromUtf8Lossy_asBytes]

/-- **Only UTF-8 survives a `str`.**  What is not UTF-8 comes back with replacement
characters in it. -/
theorem asBytes_fromUtf8Lossy_iff (bytes : List UInt8) :
    asBytes (fromUtf8Lossy bytes) = bytes ↔ IsUtf8 bytes := by
  refine ⟨fun h => ⟨_, h⟩, ?_⟩
  rintro ⟨s, rfl⟩
  rw [fromUtf8Lossy_asBytes]

/-! ### ASCII -/

theorem asBytes_append (s t : List Char) : asBytes (s ++ t) = asBytes s ++ asBytes t :=
  List.flatMap_append

/-- The bytes of a character: one for ASCII, and none of ASCII for others. -/
theorem utf8EncodeChar_ascii (ch : Char) :
    (ch.val.toNat < 128 ∧ String.utf8EncodeChar ch = [UInt8.ofNat ch.val.toNat]) ∨
      (128 ≤ ch.val.toNat ∧ ∀ b ∈ String.utf8EncodeChar ch, 128 ≤ b.toNat) := by
  have hr := val_toNat_range ch
  unfold String.utf8EncodeChar
  generalize ch.val.toNat = v at hr
  dsimp only
  split
  · next h => exact Or.inl ⟨by omega, rfl⟩
  · next h =>
    refine Or.inr ⟨by omega, ?_⟩
    split
    · simp only [List.mem_cons, List.not_mem_nil, or_false, forall_eq_or_imp, forall_eq,
        UInt8.toNat_ofNat']
      omega
    split
    · simp only [List.mem_cons, List.not_mem_nil, or_false, forall_eq_or_imp, forall_eq,
        UInt8.toNat_ofNat']
      omega
    · simp only [List.mem_cons, List.not_mem_nil, or_false, forall_eq_or_imp, forall_eq,
        UInt8.toNat_ofNat']
      omega

/-- A text can be cut at a byte of ASCII. -/
theorem exists_asBytes_of_ascii {s : List Char} {front rest : List UInt8} {b : UInt8}
    (hb : b.toNat < 128) (h : asBytes s = front ++ b :: rest) :
    IsUtf8 front ∧ IsUtf8 rest := by
  induction s generalizing front with
  | nil => exact absurd (congrArg List.length h) (by simp [asBytes])
  | cons c s ih =>
    have hcons : asBytes (c :: s) = String.utf8EncodeChar c ++ asBytes s := List.flatMap_cons
    rw [hcons] at h
    rcases List.append_eq_append_iff.mp h with ⟨mid, hfront, hrest⟩ | ⟨mid, hchar, hrest⟩
    · -- the byte is behind the character
      obtain ⟨⟨t, ht⟩, hback⟩ := ih hrest
      refine ⟨⟨c :: t, ?_⟩, hback⟩
      rw [hfront, ← ht]
      exact List.flatMap_cons
    · cases mid with
      | nil =>
        obtain ⟨⟨t, ht⟩, hback⟩ := @ih [] hrest.symm
        refine ⟨⟨[c], ?_⟩, hback⟩
        rw [List.append_nil] at hchar
        rw [← hchar]
        exact List.flatMap_singleton _ _
      | cons b' mid =>
        -- the byte is the character
        obtain ⟨rfl, hmid⟩ := List.cons.inj hrest
        rcases utf8EncodeChar_ascii c with ⟨-, henc⟩ | ⟨-, hall⟩
        · rw [henc] at hchar
          obtain ⟨rfl, hnil⟩ : front = [] ∧ mid = [] := by
            cases front with
            | nil => exact ⟨rfl, (List.cons.inj hchar).2.symm⟩
            | cons _ _ => exact absurd (congrArg List.length hchar) (by simp)
          rw [hnil] at hmid
          exact ⟨⟨[], rfl⟩, ⟨s, hmid.symm⟩⟩
        · have hmem : b ∈ String.utf8EncodeChar c := by
            rw [hchar]
            exact List.mem_append_right _ List.mem_cons_self
          have hge := hall b hmem
          omega

end Rustybox.Rust
