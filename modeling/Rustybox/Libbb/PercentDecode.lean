import Rustybox.Httpd.Request
import Rustybox.Lib.InPlace
import Mathlib.Data.Fintype.Basic

/-!
# Decoding a URL in place

`percent_decode_in_place`, with its two pointers into one buffer, and the escapes that a scan of the
string from left to right meets.
-/

namespace Rustybox.Libbb

open Rustybox.Rust
open InPlace

def percent : UInt8 := 37
def plus : UInt8 := 43
def blank : UInt8 := 32

/-! ### The function -/

/-- `hex_to_bin`: all ones if the byte is no hex digit. -/
def hexToBin (c : UInt8) : UInt32 :=
  let v := c.toUInt32 - 48
  if v ≤ 9 then v
  else
    -- letters to lower case, non-letters to (potentially different) non-letters
    let v := (c ||| 0x20).toUInt32 - 97
    if v ≤ 5 then v + 10 else 0xffffffff

/-- The variables of the loop; the pointers are offsets from `str`.  `writes` notes where the bytes
were written, and where `src` was then. -/
structure Decoder where
  buf : Str
  src : ℕ
  dst : ℕ
  writes : List (ℕ × ℕ)

/-- Write to `dst`.  There is no result outside the buffer. -/
def Decoder.store (d : Decoder) (b : UInt8) : Option Decoder :=
  if d.dst < d.buf.length then
    some { d with buf := d.buf.set d.dst b, writes := d.writes ++ [(d.dst, d.src)] }
  else none

/-- Write to `dst`, and advance it. -/
def Decoder.put (d : Decoder) (b : UInt8) : Option Decoder :=
  (d.store b).map fun d => { d with dst := d.dst + 1 }

/-- The value of the escape whose digits are at `src`, if it has two.  The second digit is looked at
when the first one is good. -/
def escapeAt (buf : Str) (src : ℕ) : Option (Option UInt32) := do
  let v := hexToBin (← buf[src]?)
  if v > 15 then return none
  let v := v * 16 ||| hexToBin (← buf[src + 1]?)
  if v > 255 then return none else return some v

/-- What `percent_decode_in_place` returns: `str`, `str + 1` or NULL. -/
inductive Returned where
  | str
  | strPlusOne
  | null
  deriving DecidableEq

/-- One turn of the loop; it ends with what is returned. -/
def decodeTurn (strict : Bool) (d : Decoder) : Option (Decoder × Option Returned) := do
  let c ← d.buf[d.src]?
  let d := { d with src := d.src + 1 }
  if c = 0 then return (← d.store 0, some .str)
  if strict = false ∧ c = plus then return (← d.put blank, none)
  if c ≠ percent then return (← d.put c, none)
  match ← escapeAt d.buf d.src with
  | some v =>
    -- caller takes it as indication of invalid (dangerous wrt exploits) chars
    if strict ∧ (v = slash.toUInt32 ∨ v = 0) then return (d, some .strPlusOne)
    let d ← d.put v.toUInt8
    return ({ d with src := d.src + 2 }, none)
  | none =>
    if strict then return (d, some .null)
    return (← d.put percent, none)

def decodeLoop (strict : Bool) : ℕ → Decoder → Option (Decoder × Returned)
  | 0, _ => none
  | n + 1, d => do
    match ← decodeTurn strict d with
    | (d, some r) => return (d, r)
    | (d, none) => decodeLoop strict n d

/-- `percent_decode_in_place`: what it leaves, and what it returns. -/
def percentDecodeInPlace (strict : Bool) (str : Str) : Option (Decoder × Returned) :=
  decodeLoop strict str.length ⟨str, 0, 0, []⟩

/-! ### What it is for -/

def hexDigit? (b : UInt8) : Option ℕ :=
  if 48 ≤ b ∧ b ≤ 57 then some (b.toNat - 48)
  else if 65 ≤ b ∧ b ≤ 70 then some (b.toNat - 55)
  else if 97 ≤ b ∧ b ≤ 102 then some (b.toNat - 87)
  else none

/-- The byte that two hex digits at the start stand for. -/
def escapeValue : Str → Option UInt8
  | h :: l :: _ => do return UInt8.ofNat (16 * (← hexDigit? h) + (← hexDigit? l))
  | _ => none

/-- What a scan from left to right meets. -/
inductive Piece where
  | plain (b : UInt8)
  | escape (v : UInt8)
  /-- A `%` without two hex digits. -/
  | malformed
  deriving DecidableEq

/-- The scan; it goes on behind an escape, and behind the `%` of a malformed one. -/
def pieces : Str → List Piece
  | [] => []
  | b :: s =>
    if b = percent then
      match escapeValue s with
      | some v => .escape v :: pieces (s.drop 2)
      | none => .malformed :: pieces s
    else .plain b :: pieces s
termination_by s => s.length
decreasing_by all_goals (simp only [List.length_cons, List.length_drop]; omega)

/-- The byte that a piece stands for. -/
def Piece.text (strict : Bool) : Piece → UInt8
  | .plain b => if strict = false ∧ b = plus then blank else b
  | .escape v => v
  | .malformed => percent

/-- What is returned for a piece that must not be there. -/
def Piece.offence : Piece → Option Returned
  | .plain _ => none
  | .escape v => if v = slash ∨ v = 0 then some .strPlusOne else none
  | .malformed => some .null

/-- A piece that strict mode lets through: no malformed escape, and none of a slash or NUL. -/
def Piece.Allowed (p : Piece) : Prop := p ≠ .malformed ∧ p ≠ .escape slash ∧ p ≠ .escape 0

/-- The reference decoding. -/
def decoded (strict : Bool) (s : Str) : Str := (pieces s).map (Piece.text strict)

theorem pieces_nil : pieces [] = [] := by
  rw [pieces]

theorem pieces_cons (b : UInt8) (s : Str) :
    pieces (b :: s) =
      if b = percent then
        match escapeValue s with
        | some v => .escape v :: pieces (s.drop 2)
        | none => .malformed :: pieces s
      else .plain b :: pieces s := by
  rw [pieces]

theorem pieces_escape {s : Str} {v : UInt8} (h : escapeValue s = some v) :
    pieces (percent :: s) = .escape v :: pieces (s.drop 2) := by
  rw [pieces_cons, if_pos rfl, h]

theorem pieces_malformed {s : Str} (h : escapeValue s = none) :
    pieces (percent :: s) = .malformed :: pieces s := by
  rw [pieces_cons, if_pos rfl, h]

theorem pieces_plain {b : UInt8} (h : b ≠ percent) (s : Str) :
    pieces (b :: s) = .plain b :: pieces s := by
  rw [pieces_cons, if_neg h]

/-! ### Digits -/

/-- All ones survive what is done to them. -/
theorem hexToBin_eq (c : UInt8) :
    hexToBin c = match hexDigit? c with
      | some n => UInt32.ofNat n
      | none => 0xffffffff := by
  have hall : ∀ n : Fin 256, hexToBin (UInt8.ofFin n) = match hexDigit? (UInt8.ofFin n) with
      | some n => UInt32.ofNat n
      | none => 0xffffffff := by decide +kernel
  exact hall c.toFin

theorem hexDigit?_lt {c : UInt8} {n : ℕ} (h : hexDigit? c = some n) : n < 16 := by
  have hall : ∀ c : Fin 256, ∀ n ∈ hexDigit? (UInt8.ofFin c), n < 16 := by decide +kernel
  exact hall c.toFin n h

theorem or_hexToBin {hi : ℕ} (hlt : hi < 16) (c : UInt8) :
    (match hexDigit? c with
      | some lo => UInt32.ofNat hi * 16 ||| hexToBin c = UInt32.ofNat (16 * hi + lo)
      | none => UInt32.ofNat hi * 16 ||| hexToBin c = 0xffffffff) := by
  have hbad : ∀ hi : Fin 16, UInt32.ofNat hi * 16 ||| 0xffffffff = 0xffffffff := by decide
  have hgood : ∀ hi lo : Fin 16,
      UInt32.ofNat hi * 16 ||| UInt32.ofNat lo = UInt32.ofNat (16 * hi + lo) := by decide
  rw [hexToBin_eq]
  cases hlo : hexDigit? c with
  | none => exact hbad ⟨hi, hlt⟩
  | some lo => exact hgood ⟨hi, hlt⟩ ⟨lo, hexDigit?_lt hlo⟩

/-! ### One turn -/

/-- The buffer while the loop runs: `out` is written and `r` is left of the string, whose NUL is at
`len`. -/
structure Decoding (len : ℕ) (d : Decoder) (out r tail : Str) : Prop where
  rewriting : Rewriting d.buf out (r ++ 0 :: tail) d.dst d.src
  text : 0 ∉ r
  nul : d.src + r.length = len
  writes : ∀ w ∈ d.writes, w.1 < w.2 ∧ w.2 ≤ len + 1

variable {len : ℕ} {d : Decoder} {out r tail : Str} {b : UInt8}

/-- The byte at offset `i` from the read pointer is one of the string, or its NUL. -/
theorem Decoding.read (h : Decoding len d out r tail) {i : ℕ} (hi : i ≤ r.length) :
    d.buf[d.src + i]? = some (r.getD i 0) := by
  rw [h.rewriting.read, List.getD_eq_getElem?_getD]
  rcases Nat.lt_or_eq_of_le hi with hlt | rfl
  · rw [List.getElem?_append_left hlt, List.getElem?_eq_getElem hlt]
    rfl
  · simp

/-- The digits of an escape are read inside the string: a first one that is good is not its NUL. -/
theorem escapeAt_eq (h : Decoding len d out (b :: r) tail) :
    escapeAt d.buf (d.src + 1) = some ((escapeValue r).map UInt8.toUInt32) := by
  have h1 : d.buf[d.src + 1]? = some (r.getD 0 0) := h.read (i := 1) (by simp)
  rw [escapeAt, h1, Option.bind_eq_bind, Option.bind_some]
  cases r with
  | nil => rfl
  | cons c r =>
    rw [List.getD_cons_zero]
    cases hc : hexDigit? c with
    | none =>
      have hnone : escapeValue (c :: r) = none := by
        cases r with
        | nil => rfl
        | cons l r => simp [escapeValue, hc]
      rw [hexToBin_eq, hc, hnone]
      rfl
    | some hi =>
      have hlt := hexDigit?_lt hc
      have h2 : d.buf[d.src + 1 + 1]? = some (r.getD 0 0) := h.read (i := 2) (by simp)
      have hsmall : ¬ UInt32.ofNat hi > 15 := by
        have hall : ∀ hi : Fin 16, ¬ UInt32.ofNat hi > 15 := by decide
        exact hall ⟨hi, hlt⟩
      rw [hexToBin_eq c, hc, h2]
      simp only [if_neg hsmall, Option.bind_some]
      cases r with
      | nil =>
        have hor := or_hexToBin hlt 0
        rw [show hexDigit? 0 = none from rfl] at hor
        rw [List.getD_nil, hor]
        rfl
      | cons l r =>
        have hor := or_hexToBin hlt l
        rw [List.getD_cons_zero]
        cases hl : hexDigit? l with
        | none =>
          rw [hl] at hor
          rw [hor]
          simp [escapeValue, hc, hl]
        | some lo =>
          have hlo := hexDigit?_lt hl
          rw [hl] at hor
          simp only at hor
          have hbyte : ¬ UInt32.ofNat (16 * hi + lo) > 255 := by
            have hall : ∀ hi lo : Fin 16, ¬ UInt32.ofNat (16 * hi + lo) > 255 := by decide
            exact hall ⟨hi, hlt⟩ ⟨lo, hlo⟩
          have hval : UInt32.ofNat (16 * hi + lo) = (UInt8.ofNat (16 * hi + lo)).toUInt32 := by
            have hall : ∀ hi lo : Fin 16, UInt32.ofNat (16 * hi + lo) =
              (UInt8.ofNat (16 * hi + lo)).toUInt32 := by decide
            exact hall ⟨hi, hlt⟩ ⟨lo, hlo⟩
          rw [hor, if_neg hbyte, hval]
          simp [escapeValue, hc, hl]

/-- The bytes `l` were read and `b` is written for them, when the first one is read. -/
theorem Decoding.put {l : Str} (h : Decoding len d out (l ++ r) tail) (hl : l ≠ []) :
    ({ d with src := d.src + 1 }).put b =
        some ⟨d.buf.set d.dst b, d.src + 1, d.dst + 1, d.writes ++ [(d.dst, d.src + 1)]⟩ ∧
      Decoding len ⟨d.buf.set d.dst b, d.src + l.length, d.dst + 1,
        d.writes ++ [(d.dst, d.src + 1)]⟩ (out ++ [b]) r tail := by
  have hpos := List.length_pos_iff.mpr hl
  have hle := h.rewriting.le
  have hbuf := h.rewriting.length
  have hnul := h.nul
  simp only [List.length_append, List.length_cons] at hbuf hnul
  have hroom : d.dst < d.buf.length := by omega
  refine ⟨by simp [Decoder.put, Decoder.store, hroom], ?_, ?_, ?_, ?_⟩
  · have hadv : Rewriting d.buf out (r ++ 0 :: tail) d.dst (d.src + l.length) :=
      Rewriting.advance (by simpa using h.rewriting)
    exact hadv.put (by omega) b
  · exact fun hr => h.text (List.mem_append_right _ hr)
  · simp only
    omega
  · intro w hw
    rcases List.mem_append.mp hw with hw | hw
    · exact h.writes w hw
    · rw [List.mem_singleton.mp hw]
      simp only
      omega

/-- **A turn of the loop** reads the next piece. -/
theorem decodeTurn_piece (strict : Bool) (h : Decoding len d out (b :: r) tail) :
    ∃ p r', pieces (b :: r) = p :: pieces r' ∧ r'.length ≤ r.length ∧
      match if strict then p.offence else none with
      | some ret => ∃ d', decodeTurn strict d = some (d', some ret) ∧ d'.buf = d.buf ∧
          d'.writes = d.writes
      | none => ∃ d', decodeTurn strict d = some (d', none) ∧
          Decoding len d' (out ++ [p.text strict]) r' tail := by
  have hread : d.buf[d.src]? = some b := h.read (Nat.zero_le _)
  have hb : b ≠ 0 := fun he => h.text (by simp [he])
  have hone := fun x => h.put (b := x) (l := [b]) (by simp)
  by_cases hpercent : b = percent
  · subst hpercent
    have hplus : percent ≠ plus := by decide
    have hescape := escapeAt_eq h
    cases hv : escapeValue r with
    | some v =>
      obtain ⟨c, l, r', rfl⟩ : ∃ c l r', r = c :: l :: r' := by
        match r, hv with
        | c :: l :: r', _ => exact ⟨c, l, r', rfl⟩
      have hthree := h.put (b := v) (l := [percent, c, l]) (by simp)
      have hwide : v.toUInt32 = slash.toUInt32 ∨ v.toUInt32 = 0 ↔ v = slash ∨ v = 0 := by
        rw [show (0 : UInt32) = (0 : UInt8).toUInt32 from rfl, UInt8.toUInt32_inj,
          UInt8.toUInt32_inj]
      rw [hv, Option.map_some] at hescape
      refine ⟨.escape v, r', pieces_escape hv, by simp only [List.length_cons]; omega, ?_⟩
      cases strict with
      | false =>
        refine ⟨_, ?_, hthree.2⟩
        simp [decodeTurn, hread, hb, hplus, hescape, hthree.1]
      | true =>
        by_cases hbad : v = slash ∨ v = 0
        · rw [if_pos rfl, Piece.offence, if_pos hbad]
          refine ⟨{ d with src := d.src + 1 }, ?_, rfl, rfl⟩
          simp [decodeTurn, hread, hb, hescape, hwide.mpr hbad]
        · rw [if_pos rfl, Piece.offence, if_neg hbad]
          refine ⟨_, ?_, hthree.2⟩
          simp [decodeTurn, hread, hb, hescape, mt hwide.mp hbad, hthree.1]
    | none =>
      refine ⟨.malformed, r, pieces_malformed hv, Nat.le_refl _, ?_⟩
      rw [hv] at hescape
      cases strict with
      | true =>
        refine ⟨{ d with src := d.src + 1 }, ?_, rfl, rfl⟩
        simp [decodeTurn, hread, hb, hescape]
      | false =>
        refine ⟨_, ?_, (hone percent).2⟩
        simp [decodeTurn, hread, hb, hplus, hescape, (hone percent).1]
  · refine ⟨.plain b, r, pieces_plain hpercent r, Nat.le_refl _, ?_⟩
    rw [Piece.offence, ite_self]
    by_cases hspace : strict = false ∧ b = plus
    · rw [Piece.text, if_pos hspace]
      refine ⟨_, ?_, (hone blank).2⟩
      obtain ⟨rfl, rfl⟩ := hspace
      simp [decodeTurn, hread, hb, (hone blank).1]
    · rw [Piece.text, if_neg hspace]
      refine ⟨_, ?_, (hone b).2⟩
      simp [decodeTurn, hread, hb, hspace, hpercent, (hone b).1]

/-! ### The loop -/

theorem Decoding.drop (h : Decoding len d out r tail) : d.buf.drop (len + 1) = tail := by
  rw [← h.nul, Nat.add_assoc, ← List.drop_drop, h.rewriting.drop, ← List.drop_drop,
    List.drop_left' rfl]
  rfl

theorem decodeTurn_nul (strict : Bool) (h : Decoding len d out [] tail) :
    ∃ d', decodeTurn strict d = some (d', some .str) ∧ d'.buf.take out.length = out ∧
      d'.buf[out.length]? = some 0 ∧ d'.buf.drop (len + 1) = tail ∧
      ∀ w ∈ d'.writes, w.1 < w.2 ∧ w.2 ≤ len + 1 := by
  have hread : d.buf[d.src]? = some 0 := h.read (Nat.zero_le _)
  have hnul : d.src = len := h.nul
  have hle := h.rewriting.le
  have hbuf : d.buf.length = d.src + (tail.length + 1) := h.rewriting.length
  have hdst : d.dst = out.length := by
    obtain ⟨gap, -, hdst, -⟩ := h.rewriting
    exact hdst
  have hroom : d.dst < d.buf.length := by omega
  refine ⟨⟨d.buf.set d.dst 0, d.src + 1, d.dst, d.writes ++ [(d.dst, d.src + 1)]⟩,
    ?_, ?_, ?_, ?_, ?_⟩
  · simp [decodeTurn, hread, Decoder.store, hroom]
  · rw [← hdst, List.take_set_of_le (Nat.le_refl _), h.rewriting.take]
  · rw [← hdst, List.getElem?_set_self hroom]
  · rw [List.drop_set_of_lt (by omega), h.drop]
  · intro w hw
    rcases List.mem_append.mp hw with hw | hw
    · exact h.writes w hw
    · rw [List.mem_singleton.mp hw]
      simp only
      omega

/-- What is returned: what the first bad piece asks for, in strict mode. -/
def returned (strict : Bool) (ps : List Piece) : Returned :=
  ((if strict then ps.findSome? Piece.offence else none)).getD .str

theorem returned_cons (strict : Bool) (p : Piece) (ps : List Piece) :
    returned strict (p :: ps) =
      match if strict then p.offence else none with
      | some ret => ret
      | none => returned strict ps := by
  cases strict with
  | false => rfl
  | true =>
    rw [returned, if_pos rfl, if_pos rfl, List.findSome?_cons, returned, if_pos rfl]
    cases p.offence <;> rfl

theorem offence_ne_str (p : Piece) : p.offence ≠ some .str := by
  cases p with
  | plain b => simp [Piece.offence]
  | escape v => by_cases hv : v = slash ∨ v = 0 <;> simp [Piece.offence, hv]
  | malformed => simp [Piece.offence]

theorem decodeLoop_pieces (strict : Bool) {n : ℕ} (h : Decoding len d out r tail)
    (hn : r.length < n) : ∃ d', decodeLoop strict n d = some (d', returned strict (pieces r)) ∧
      (returned strict (pieces r) = .str →
        d'.buf.take (out ++ decoded strict r).length = out ++ decoded strict r ∧
        d'.buf[(out ++ decoded strict r).length]? = some 0) ∧
      d'.buf.drop (len + 1) = tail ∧ ∀ w ∈ d'.writes, w.1 < w.2 ∧ w.2 ≤ len + 1 := by
  induction n generalizing d out r with
  | zero => exact absurd hn (Nat.not_lt_zero _)
  | succ n ih =>
    cases r with
    | nil =>
      obtain ⟨d', hturn, htake, hnul, hdrop, hwrites⟩ := decodeTurn_nul strict h
      have hret : returned strict (pieces []) = .str := by
        rw [pieces_nil, returned]
        cases strict <;> rfl
      have hdec : out ++ decoded strict [] = out := by
        rw [decoded, pieces_nil, List.map_nil, List.append_nil]
      rw [hret, hdec]
      exact ⟨d', by simp [decodeLoop, hturn], fun _ => ⟨htake, hnul⟩, hdrop, hwrites⟩
    | cons b r =>
      obtain ⟨p, r', hpieces, hlen, hturn⟩ := decodeTurn_piece strict h
      have hdec : out ++ decoded strict (b :: r) =
          out ++ [p.text strict] ++ decoded strict r' := by
        rw [decoded, hpieces, List.map_cons, decoded, List.append_assoc, List.singleton_append]
      rw [hpieces, hdec, returned_cons]
      cases hoff : if strict then p.offence else none with
      | some ret =>
        rw [hoff] at hturn
        obtain ⟨d', hturn, hbuf, hwrites⟩ := hturn
        have hret : ret ≠ .str := by
          rintro rfl
          cases strict with
          | false => cases hoff
          | true => exact offence_ne_str p hoff
        refine ⟨d', by simp [decodeLoop, hturn], fun he => absurd he hret, ?_, ?_⟩
        · rw [hbuf, h.drop]
        · rw [hwrites]
          exact h.writes
      | none =>
        rw [hoff] at hturn
        obtain ⟨d', hturn, hdec'⟩ := hturn
        obtain ⟨d'', hloop, hrest⟩ := ih hdec' (by simp only [List.length_cons] at hn; omega)
        exact ⟨d'', by simpa [decodeLoop, hturn] using hloop, hrest⟩

/-- **Decoding in place.**  In strict mode the first bad piece decides what is returned.  Without
one, and always when not strict, `str` is returned and the buffer holds the reference decoding and
its NUL. -/
theorem percentDecodeInPlace_eq (strict : Bool) {s : Str} (htext : 0 ∉ s) (tail : Str) : ∃ d,
    percentDecodeInPlace strict (s ++ 0 :: tail) = some (d, returned strict (pieces s)) ∧
      (returned strict (pieces s) = .str →
        d.buf.take (decoded strict s).length = decoded strict s ∧
        d.buf[(decoded strict s).length]? = some 0) ∧
      d.buf.drop (s.length + 1) = tail ∧ ∀ w ∈ d.writes, w.1 < w.2 ∧ w.2 ≤ s.length + 1 := by
  have hstart : Decoding s.length ⟨s ++ 0 :: tail, 0, 0, []⟩ [] s tail :=
    ⟨Rewriting.start _, htext, Nat.zero_add _, by simp⟩
  exact decodeLoop_pieces strict hstart (by simp)

/-! ### What is returned -/

theorem offence_eq_none {p : Piece} : p.offence = none ↔ p.Allowed := by
  cases p with
  | plain b => simp [Piece.offence, Piece.Allowed]
  | escape v =>
    by_cases hv : v = slash ∨ v = 0 <;> simp [Piece.offence, Piece.Allowed, hv] <;> tauto
  | malformed => simp [Piece.offence, Piece.Allowed]

theorem returned_true_eq_str {ps : List Piece} : returned true ps = .str ↔ ∀ p ∈ ps, p.Allowed := by
  rw [returned, if_pos rfl]
  cases hfind : ps.findSome? Piece.offence with
  | none =>
    have hnone := List.findSome?_eq_none_iff.mp hfind
    exact iff_of_true rfl fun p hp => offence_eq_none.mp (hnone p hp)
  | some ret =>
    obtain ⟨p, hp, hoff⟩ := List.exists_of_findSome?_eq_some hfind
    refine iff_of_false (fun he => offence_ne_str p ?_) fun hall => ?_
    · rw [hoff]
      exact congrArg some he
    · rw [offence_eq_none.mpr (hall p hp)] at hoff
      cases hoff

/-- The first piece that is not allowed decides. -/
theorem returned_true_eq {ps : List Piece} {ret : Returned} (hret : ret ≠ .str) :
    returned true ps = ret ↔ ∃ before p after, ps = before ++ p :: after ∧ p.offence = some ret ∧
      ∀ q ∈ before, q.Allowed := by
  have hsome : returned true ps = ret ↔ ps.findSome? Piece.offence = some ret := by
    rw [returned, if_pos rfl]
    cases ps.findSome? Piece.offence with
    | none => simpa using fun he => hret he.symm
    | some r => simp
  rw [hsome, List.findSome?_eq_some_iff]
  simp only [offence_eq_none]

theorem offence_eq_strPlusOne {p : Piece} :
    p.offence = some .strPlusOne ↔ p = .escape slash ∨ p = .escape 0 := by
  cases p with
  | plain b => simp [Piece.offence]
  | escape v => by_cases hv : v = slash ∨ v = 0 <;> simp [Piece.offence, hv]
  | malformed => simp [Piece.offence]

theorem offence_eq_null {p : Piece} : p.offence = some .null ↔ p = .malformed := by
  cases p with
  | plain b => simp [Piece.offence]
  | escape v => by_cases hv : v = slash ∨ v = 0 <;> simp [Piece.offence, hv]
  | malformed => simp [Piece.offence]

theorem escapeValue_some {s : Str} {v : UInt8} (hv : escapeValue s = some v) :
    ∃ c l r, s = c :: l :: r ∧ c ≠ slash ∧ l ≠ slash := by
  match s, hv with
  | c :: l :: r, hv =>
    refine ⟨c, l, r, rfl, ?_, ?_⟩
    · rintro rfl
      simp [escapeValue, show hexDigit? slash = none from rfl] at hv
    · rintro rfl
      simp [escapeValue, show hexDigit? slash = none from rfl] at hv

/-- Allowed pieces keep the slashes of the string, and add none. -/
theorem count_slash_decoded {s : Str} (h : ∀ p ∈ pieces s, p.Allowed) :
    (decoded true s).count slash = s.count slash := by
  induction s using pieces.induct with
  | case1 => rw [decoded, pieces_nil, List.map_nil]
  | case2 s v hv ih =>
    rw [pieces_escape hv] at h
    have hrest := ih fun p hp => h p (List.mem_cons_of_mem _ hp)
    obtain ⟨-, hslash, -⟩ := h _ List.mem_cons_self
    have hne : v ≠ slash := fun he => hslash (congrArg _ he)
    obtain ⟨c, l, s, rfl, hdigits⟩ := escapeValue_some hv
    rw [decoded, pieces_escape hv, List.map_cons, ← decoded, Piece.text,
      List.count_cons_of_ne hne, hrest, List.count_cons_of_ne (by decide),
      List.count_cons_of_ne hdigits.1, List.count_cons_of_ne hdigits.2]
    rfl
  | case3 s hv ih =>
    rw [pieces_malformed hv] at h
    exact absurd rfl (h _ List.mem_cons_self).1
  | case4 b s hb ih =>
    rw [pieces_plain hb] at h
    have hrest := ih fun p hp => h p (List.mem_cons_of_mem _ hp)
    rw [decoded, pieces_plain hb, List.map_cons, ← decoded, List.count_cons, hrest, List.count_cons]
    rfl

/-- **`percent_decode_in_place`.**  In strict mode it succeeds when all pieces are allowed;
otherwise it returns `str + 1` or NULL, for what the first other piece is.  The buffer may end right
after the NUL of the string: nothing behind it is read or written, and every byte is written before
the read position. -/
theorem percentDecodeInPlace_decodes {s : Str} (htext : 0 ∉ s) (tail : Str) :
    (∃ d ret, percentDecodeInPlace true (s ++ 0 :: tail) = some (d, ret) ∧
      (ret = .str ↔ ∀ p ∈ pieces s, p.Allowed) ∧
      (ret = .strPlusOne ↔ ∃ before v after, pieces s = before ++ .escape v :: after ∧
        (v = slash ∨ v = 0) ∧ ∀ p ∈ before, p.Allowed) ∧
      (ret = .null ↔ ∃ before after, pieces s = before ++ .malformed :: after ∧
        ∀ p ∈ before, p.Allowed) ∧
      (ret = .str → d.buf.take (decoded true s).length = decoded true s ∧
        d.buf[(decoded true s).length]? = some 0 ∧
        (decoded true s).count slash = s.count slash) ∧
      d.buf.drop (s.length + 1) = tail ∧ ∀ w ∈ d.writes, w.1 < w.2 ∧ w.2 ≤ s.length + 1) ∧
    ∃ d, percentDecodeInPlace false (s ++ 0 :: tail) = some (d, .str) ∧
      d.buf.take (decoded false s).length = decoded false s ∧
      d.buf[(decoded false s).length]? = some 0 ∧
      d.buf.drop (s.length + 1) = tail ∧ ∀ w ∈ d.writes, w.1 < w.2 ∧ w.2 ≤ s.length + 1 := by
  constructor
  · obtain ⟨d, hrun, hbuf, hrest⟩ := percentDecodeInPlace_eq true htext tail
    refine ⟨d, _, hrun, returned_true_eq_str, ?_, ?_, fun hret => ?_, hrest⟩
    · rw [returned_true_eq (by decide)]
      constructor
      · rintro ⟨before, p, after, hps, hoff, hall⟩
        rcases offence_eq_strPlusOne.mp hoff with rfl | rfl
        · exact ⟨before, slash, after, hps, Or.inl rfl, hall⟩
        · exact ⟨before, 0, after, hps, Or.inr rfl, hall⟩
      · rintro ⟨before, v, after, hps, hv, hall⟩
        refine ⟨before, .escape v, after, hps, offence_eq_strPlusOne.mpr ?_, hall⟩
        exact hv.imp (congrArg _) (congrArg _)
    · rw [returned_true_eq (by decide)]
      constructor
      · rintro ⟨before, p, after, hps, hoff, hall⟩
        rw [offence_eq_null.mp hoff] at hps
        exact ⟨before, after, hps, hall⟩
      · rintro ⟨before, after, hps, hall⟩
        exact ⟨before, .malformed, after, hps, rfl, hall⟩
    · exact ⟨(hbuf hret).1, (hbuf hret).2, count_slash_decoded (returned_true_eq_str.mp hret)⟩
  · obtain ⟨d, hrun, hbuf, hrest⟩ := percentDecodeInPlace_eq false htext tail
    exact ⟨d, hrun, (hbuf rfl).1, (hbuf rfl).2, hrest⟩

theorem percentDecodeInPlace_decodes_plus :
    ∃ d, percentDecodeInPlace false (bytes "a+%2f%" ++ 0 :: []) = some (d, .str) ∧
      d.buf.take 4 = bytes "a /%" := by
  obtain ⟨-, d, hrun, htake, -⟩ :=
    percentDecodeInPlace_decodes (s := bytes "a+%2f%") (by decide) []
  have hdec : decoded false (bytes "a+%2f%") = bytes "a /%" := by decide +kernel
  rw [hdec] at htake
  exact ⟨d, hrun, htake⟩

/-! ### In httpd -/

theorem httpd_hexToBin (b : UInt8) : Httpd.hexToBin b = hexDigit? b := by
  have hall : ∀ n : Fin 256, Httpd.hexToBin (UInt8.ofFin n) = hexDigit? (UInt8.ofFin n) := by
    decide +kernel
  exact hall b.toFin

/-- What the server makes of a decoded URL. -/
def Returned.reply (text : Str) : Returned → Except ℕ Str
  | .str => .ok text
  | .strPlusOne => .error 404
  | .null => .error 400

theorem reply_cons {p : Piece} {dst s r : Str} (h : pieces s = p :: pieces r)
    (hoff : p.offence = none) :
    (returned true (pieces s)).reply (dst ++ decoded true s) =
      (returned true (pieces r)).reply (dst ++ [p.text true] ++ decoded true r) := by
  rw [h, returned_cons, if_pos rfl, hoff, decoded, h, List.map_cons, decoded, List.append_assoc,
    List.singleton_append]

/-- The decoding of a URL in httpd is `percent_decode_in_place`, strict. -/
theorem httpd_percentDecode (s dst : Str) : Httpd.percentDecode s dst =
    (returned true (pieces s)).reply (dst ++ decoded true s) := by
  have hplain : ∀ {b : UInt8} (_ : ¬ b = 37) (s dst : Str),
      (returned true (pieces (b :: s))).reply (dst ++ decoded true (b :: s)) =
        (returned true (pieces s)).reply (dst ++ [b] ++ decoded true s) := by
    intro b hb s dst
    exact reply_cons (pieces_plain hb s) rfl
  have hmalformed : ∀ {s : Str} (_ : escapeValue s = none) (dst : Str),
      (returned true (pieces (37 :: s))).reply (dst ++ decoded true (37 :: s)) = .error 400 := by
    intro s hs dst
    have hps : pieces (37 :: s) = .malformed :: pieces s := pieces_malformed hs
    rw [hps, returned_cons]
    rfl
  have hescape : ∀ {b1 b2 : UInt8} {hi lo : ℕ} (_ : Httpd.hexToBin b1 = some hi)
      (_ : Httpd.hexToBin b2 = some lo) (src : Str),
      escapeValue (b1 :: b2 :: src) = some (UInt8.ofNat (hi * 16 + lo)) ∧
        (hi * 16 + lo = 0 ↔ UInt8.ofNat (hi * 16 + lo) = 0) := by
    intro b1 b2 hi lo h1 h2 src
    rw [httpd_hexToBin] at h1 h2
    have hhi := hexDigit?_lt h1
    have hlo := hexDigit?_lt h2
    refine ⟨by simp [escapeValue, h1, h2, Nat.mul_comm], ?_⟩
    rw [← UInt8.toNat_inj, UInt8.toNat_ofNat', UInt8.toNat_zero]
    omega
  induction s, dst using Httpd.percentDecode.induct with
  | case1 dst => simp [Httpd.percentDecode, returned, pieces_nil, decoded, Returned.reply]
  | case2 dst => rw [hmalformed rfl, Httpd.percentDecode, if_pos rfl]
  | case3 b dst hb =>
    rw [hplain hb, Httpd.percentDecode, if_neg hb]
    simp [returned, pieces_nil, decoded, Returned.reply]
  | case4 b1 dst => rw [hmalformed rfl, Httpd.percentDecode, if_pos rfl]
  | case5 b b1 dst hb ih => rw [hplain hb, Httpd.percentDecode, if_neg hb, ih]
  | case6 b1 b2 src dst hi lo hlo hhi hbad =>
    obtain ⟨hs, hzero⟩ := hescape hhi hlo src
    have hps : pieces (37 :: b1 :: b2 :: src) = _ := pieces_escape hs
    rw [hzero] at hbad
    rw [Httpd.percentDecode, if_pos rfl, hhi, hlo]
    simp only [hzero]
    rw [if_pos hbad, hps, returned_cons, if_pos rfl, Piece.offence, if_pos hbad]
    rfl
  | case7 b1 b2 src dst hi lo hlo hhi hgood ih =>
    obtain ⟨hs, hzero⟩ := hescape hhi hlo src
    rw [hzero] at hgood
    rw [Httpd.percentDecode, if_pos rfl, hhi, hlo]
    simp only [hzero]
    rw [if_neg hgood, ih]
    have hps : pieces (37 :: b1 :: b2 :: src) =
        .escape (UInt8.ofNat (hi * 16 + lo)) :: pieces src := pieces_escape hs
    exact (reply_cons hps (by rw [Piece.offence, if_neg hgood])).symm
  | case8 b1 b2 src dst hnone =>
    have hs : escapeValue (b1 :: b2 :: src) = none := by
      simp only [httpd_hexToBin] at hnone
      cases h1 : hexDigit? b1 with
      | none => simp [escapeValue, h1]
      | some hi =>
        cases h2 : hexDigit? b2 with
        | none => simp [escapeValue, h1, h2]
        | some lo => exact (hnone hi lo h1 h2).elim
    rw [hmalformed hs, Httpd.percentDecode, if_pos rfl]
    split
    · rename_i hi lo h1 h2
      exact (hnone hi lo h1 h2).elim
    · rfl
  | case9 b b1 b2 src dst hb ih => rw [hplain hb, Httpd.percentDecode, if_neg hb, ih]

end Rustybox.Libbb
