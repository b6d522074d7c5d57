import Rustybox.Rust.CStr
import Mathlib.Data.Nat.Bitwise

/-!
# The extended header

`process_pax_hdr` reads an extended header into a buffer of its own and goes through its records.
The numbers in front of the records are the archive's, and the pointers move by them.  Every byte
that is looked at or written is in the buffer all the same, and the loop ends
(`paxLoop_inside`).
-/

namespace Rustybox.Archive

open Rustybox.Rust

/-- What ends the decoding of a header. -/
inductive Stop where
  /-- The program dies with this message. -/
  | die (msg : String)
  /-- A byte outside of a buffer is read or written. -/
  | outside
  /-- The fuel ran out. -/
  | spin
  deriving DecidableEq, Repr

/-! ### The buffer -/

/-- The byte at `i`. -/
def readAt (buf : Str) (i : ℕ) : Except Stop UInt8 :=
  match buf[i]? with
  | some c => .ok c
  | none => .error .outside

/-- Write the byte at `i`. -/
def writeAt (buf : Str) (i : ℕ) (c : UInt8) : Except Stop Str :=
  if i < buf.length then .ok (buf.set i c) else .error .outside

/-- The digits from `i` on, with the number `v` in front of them: the number, and the position
behind. -/
def scanDigits (buf : Str) : ℕ → ℕ → ℕ → Except Stop (ℕ × ℕ)
  | 0, _, _ => .error .spin
  | fuel + 1, i, v => do
    let c ← readAt buf i
    if isDigit c then scanDigits buf fuel (i + 1) (v * 10 + (c.toNat - 48)) else .ok (v, i)

/-- `bb_strtou` in base 10: the number, the position behind it, and whether `errno` is `EINVAL`. -/
def bbStrtou10 (buf : Str) (p : ℕ) : Except Stop (ℕ × ℕ × Bool) := do
  let c ← readAt buf p
  if isAlnum c = false then .ok (0xffffffff, p, false)
  else do
    let (v, e) ← scanDigits buf (buf.length + 1) p 0
    if v > 0xffffffff then .ok (0xffffffff, e, false)
    else do
      let next ← readAt buf e
      if next = 0 then .ok (v, e, false)
      else if isAlnum next then .ok (0xffffffff, e, false)
      else .ok (v, e, true)

/-- `is_prefixed_with`: the position behind the key. -/
def prefixedAt (buf : Str) : Str → ℕ → Except Stop (Option ℕ)
  | [], i => .ok (some i)
  | k :: key, i => do
    let c ← readAt buf i
    if k ≠ c then .ok none else prefixedAt buf key (i + 1)

/-- `xstrdup`: the bytes from `i` on up to a NUL. -/
def strdupAt (buf : Str) : ℕ → ℕ → Except Stop Str
  | 0, _ => .error .spin
  | fuel + 1, i => do
    let c ← readAt buf i
    if c = 0 then .ok []
    else do
      let s ← strdupAt buf fuel (i + 1)
      .ok (c :: s)

/-! ### The records -/

/-- `tar__longname` and `tar__linkname`. -/
structure LongNames where
  longname : Option Str
  linkname : Option Str

/-- What a record `path=` or `linkpath=` sets. -/
def paxRecord (buf : Str) (value : ℕ) (names : LongNames) : Except Stop LongNames := do
  match ← prefixedAt buf (bytes "path=") value with
  | some i => do
    let s ← strdupAt buf (buf.length + 1) i
    .ok { names with longname := some s }
  | none =>
    match ← prefixedAt buf (bytes "linkpath=") value with
    | none => .ok names
    | some i => do
      let s ← strdupAt buf (buf.length + 1) i
      .ok { names with linkname := some s }

/-- Is the record malformed?  It has `len` bytes, `sz` are left behind it, and the position behind
the number is `e`. -/
def malformed (buf : Str) (sz len e : ℕ) (einval : Bool) : Except Stop Bool :=
  if 2 ^ 31 ≤ sz ||| len ∨ len = 0 ∨ einval = false then .ok true
  else do
    let c ← readAt buf e
    .ok (c ≠ 32)

/-- The loop of `process_pax_hdr`: `sz` bytes are left at `p`. -/
def paxLoop (isGlobal : Bool) : ℕ → ℕ → ℕ → Str → LongNames → Except Stop LongNames
  | 0, sz, _, _, names => if sz = 0 then .ok names else .error .spin
  | fuel + 1, sz, p, buf, names =>
    if sz = 0 then .ok names
    else do
      let (len, e, einval) ← bbStrtou10 buf p
      let p := p + len
      let sz := (sz + 2 ^ 32 - len) % 2 ^ 32
      -- "malformed extended header, skipped"
      if ← malformed buf sz len e einval then .ok names
      else do
        let buf ← writeAt buf (p - 1) 0
        let names ← (if isGlobal then .ok names else paxRecord buf (e + 1) names)
        paxLoop isGlobal fuel sz p buf names

def blkSz (sz : ℕ) : ℕ := (sz + 511) / 512 * 512

/-- The rest of `process_pax_hdr` once `blk_sz` bytes are read: `fill` is what `xmalloc` left in the
last one. -/
def processPaxHdr (isGlobal : Bool) (sz : ℕ) (block : Str) (fill : UInt8) (names : LongNames) :
    Except Stop LongNames := do
  let buf ← writeAt (block ++ [fill]) sz 0
  paxLoop isGlobal sz sz 0 buf names

/-! ### Inside the buffer -/

/-- The buffer has a NUL at `n`. -/
def Closed (buf : Str) (n : ℕ) : Prop := buf[n]? = some 0

/-- Neither is a byte outside of a buffer touched, nor does the fuel run out. -/
def Inside {α : Type} (x : Except Stop α) (Q : α → Prop) : Prop :=
  match x with
  | .ok a => Q a
  | .error (.die _) => True
  | .error _ => False

theorem Inside.bind {α β : Type} {x : Except Stop α} {f : α → Except Stop β} {Q : α → Prop}
    {R : β → Prop} (hx : Inside x Q) (hf : ∀ a, Q a → Inside (f a) R) : Inside (x >>= f) R := by
  cases x with
  | ok a => exact hf a hx
  | error e => cases e <;> exact hx

theorem Closed.lt {buf : Str} {n : ℕ} (h : Closed buf n) : n < buf.length :=
  (List.getElem?_eq_some_iff.mp h).1

theorem readAt_inside {buf : Str} {n i : ℕ} (h : Closed buf n) (hi : i ≤ n) :
    Inside (readAt buf i) (fun c => c ≠ 0 → i < n) := by
  have hlt := h.lt
  obtain ⟨b, hget⟩ : ∃ b, buf[i]? = some b := ⟨_, List.getElem?_eq_getElem (by omega)⟩
  rw [readAt, hget]
  intro hc
  rcases Nat.lt_or_eq_of_le hi with hlt | rfl
  · exact hlt
  · exact absurd (Option.some.inj (hget.symm.trans h)) hc

theorem writeAt_inside {buf : Str} {n i : ℕ} (h : Closed buf n) (hi : i ≤ n) :
    Inside (writeAt buf i 0) (fun buf' => Closed buf' n) := by
  have hlt := h.lt
  rw [writeAt, if_pos (by omega)]
  show (buf.set i 0)[n]? = some 0
  by_cases hin : i = n
  · rw [hin, List.getElem?_set_self hlt]
  · rw [List.getElem?_set_ne hin]
    exact h

theorem isDigit_ne_zero {c : UInt8} (h : isDigit c = true) : c ≠ 0 := by
  rintro rfl
  cases h

theorem scanDigits_inside {buf : Str} {n : ℕ} (h : Closed buf n) : ∀ {fuel i v : ℕ}, i ≤ n →
    n - i < fuel → Inside (scanDigits buf fuel i v) (fun r => r.2 ≤ n) := by
  intro fuel
  induction fuel with
  | zero =>
    intro i v _ hfuel
    omega
  | succ fuel ih =>
    intro i v hi hfuel
    refine (readAt_inside h hi).bind fun c hc => ?_
    by_cases hd : isDigit c = true
    · rw [if_pos hd]
      have := hc (isDigit_ne_zero hd)
      exact ih (by omega) (by omega)
    · rw [if_neg hd]
      exact hi

theorem bbStrtou10_inside {buf : Str} {n p : ℕ} (h : Closed buf n) (hp : p ≤ n) :
    Inside (bbStrtou10 buf p) (fun r => r.1 < 2 ^ 32 ∧ r.2.1 ≤ n) := by
  have hlt := h.lt
  have hmax : 0xffffffff < 2 ^ 32 := by decide
  refine (readAt_inside h hp).bind fun c _ => ?_
  split
  · exact ⟨hmax, hp⟩
  refine (scanDigits_inside h hp (by omega)).bind ?_
  rintro ⟨v, e⟩ (he : e ≤ n)
  dsimp only
  split
  · exact ⟨hmax, he⟩
  rename_i hv
  refine (readAt_inside h he).bind fun next _ => ?_
  split
  · exact ⟨by omega, he⟩
  · split
    · exact ⟨hmax, he⟩
    · exact ⟨by omega, he⟩

theorem prefixedAt_inside {buf : Str} {n : ℕ} (h : Closed buf n) : ∀ {key : Str} {i : ℕ},
    0 ∉ key → i ≤ n → Inside (prefixedAt buf key i) (fun r => ∀ j ∈ r, j ≤ n) := by
  intro key
  induction key with
  | nil =>
    intro i _ hi j hj
    rw [← Option.some.inj hj]
    exact hi
  | cons k key ih =>
    intro i hkey hi
    refine (readAt_inside h hi).bind fun c hc => ?_
    by_cases hk : k ≠ c
    · rw [if_pos hk]
      exact fun j hj => nomatch hj
    · rw [if_neg hk]
      have hk0 : c ≠ 0 := by
        rintro rfl
        exact hkey (List.mem_cons.mpr (Or.inl (not_not.mp hk).symm))
      exact ih (fun h => hkey (List.mem_cons_of_mem k h)) (hc hk0)

theorem strdupAt_inside {buf : Str} {n : ℕ} (h : Closed buf n) : ∀ {fuel i : ℕ}, i ≤ n →
    n - i < fuel → Inside (strdupAt buf fuel i) (fun _ => True) := by
  intro fuel
  induction fuel with
  | zero =>
    intro i _ hfuel
    omega
  | succ fuel ih =>
    intro i hi hfuel
    refine (readAt_inside h hi).bind fun c hc => ?_
    by_cases h0 : c = 0
    · rw [if_pos h0]
      trivial
    · rw [if_neg h0]
      have := hc h0
      exact (ih (by omega) (by omega)).bind fun _ _ => trivial

theorem paxRecord_inside {buf : Str} {n value : ℕ} (h : Closed buf n) (hvalue : value ≤ n)
    (names : LongNames) : Inside (paxRecord buf value names) (fun _ => True) := by
  have hlt := h.lt
  have hdup : ∀ i ≤ n, Inside (strdupAt buf (buf.length + 1) i) (fun _ => True) :=
    fun i hi => strdupAt_inside h hi (by omega)
  refine (prefixedAt_inside h (by decide) hvalue).bind ?_
  rintro (_ | i) hi
  · refine (prefixedAt_inside h (by decide) hvalue).bind ?_
    rintro (_ | i) hi
    · trivial
    · exact (hdup i (hi i rfl)).bind fun _ _ => trivial
  · exact (hdup i (hi i rfl)).bind fun _ _ => trivial

/-- A record that is not malformed has a length that is left, and a blank behind its number. -/
theorem malformed_inside {buf : Str} {n sz len e : ℕ} {einval : Bool} (h : Closed buf n)
    (he : e ≤ n) : Inside (malformed buf sz len e einval)
      (fun bad => bad = false → sz < 2 ^ 31 ∧ len < 2 ^ 31 ∧ len ≠ 0 ∧ e < n) := by
  rw [malformed]
  split
  · rintro ⟨⟩
  rename_i hrange
  refine (readAt_inside h he).bind fun c hc => ?_
  intro (hblank : decide (c ≠ 32) = false)
  have hc32 : c = 32 := by simpa using hblank
  have hor : sz ||| len < 2 ^ 31 := by omega
  have h1 : sz < 2 ^ 31 := Nat.lt_of_le_of_lt Nat.left_le_or hor
  have h2 : len < 2 ^ 31 := Nat.lt_of_le_of_lt Nat.right_le_or hor
  exact ⟨h1, h2, by omega, hc (by rw [hc32]; decide)⟩

theorem paxLoop_inside (isGlobal : Bool) {n : ℕ} (hn : n < 2 ^ 31) : ∀ {fuel sz p : ℕ} {buf : Str}
    {names : LongNames}, Closed buf n → p + sz = n → sz ≤ fuel →
      Inside (paxLoop isGlobal fuel sz p buf names) (fun _ => True) := by
  intro fuel
  induction fuel with
  | zero =>
    intro sz p buf names h hp hfuel
    rw [paxLoop, if_pos (by omega)]
    trivial
  | succ fuel ih =>
    intro sz p buf names h hp hfuel
    rw [paxLoop]
    split
    · trivial
    refine (bbStrtou10_inside h (by omega)).bind ?_
    rintro ⟨len, e, einval⟩ ⟨hlen32, he⟩
    refine (malformed_inside h he).bind ?_
    rintro (_ | _) hgood
    · obtain ⟨hsz31, hlen31, hlen0, hen⟩ := hgood rfl
      dsimp only at hlen32 hsz31 hen ⊢
      have hle : len ≤ sz := by omega
      have hsz : (sz + 2 ^ 32 - len) % 2 ^ 32 = sz - len := by omega
      rw [hsz]
      refine (writeAt_inside h (by omega)).bind fun buf' h' => ?_
      refine Inside.bind (Q := fun _ => True) ?_ fun names' _ => ih h' (by omega) (by omega)
      split
      · trivial
      · exact paxRecord_inside h' (by omega) names
    · trivial

/-- `process_pax_hdr` reads and writes only inside its buffer, and comes to an end. -/
theorem processPaxHdr_inside (isGlobal : Bool) {sz : ℕ} (hsz : sz ≤ 0xfffff) {block : Str}
    (hblock : block.length = blkSz sz) (fill : UInt8) (names : LongNames) :
    Inside (processPaxHdr isGlobal sz block fill names) (fun _ => True) := by
  have hle : sz ≤ blkSz sz := by
    rw [blkSz]
    omega
  have hlt : sz < (block ++ [fill]).length := by
    rw [List.length_append, hblock]
    exact Nat.lt_succ_of_le hle
  rw [processPaxHdr, writeAt, if_pos hlt]
  exact paxLoop_inside isGlobal (by omega) (List.getElem?_set_self hlt) (Nat.zero_add sz) le_rfl

end Rustybox.Archive
