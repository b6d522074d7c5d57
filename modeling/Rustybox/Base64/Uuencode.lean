import Mathlib.Algebra.Ring.Nat
import Mathlib.Data.Int.Basic
import Mathlib.Data.List.Basic
import Mathlib.Order.Basic

/-!
# base64 in libbb

`bb_uuencode` writes a text, `decode_base64` reads a string, and `read_base64` reads a stream
through a window of 64 characters.  A string is the list of its characters before the NUL.
-/

namespace Rustybox.Base64

/-- `bb_uuenc_tbl_base64`: the digits, the padding character and NUL. -/
def bbUuencTblBase64 : List UInt8 :=
  (List.range 26).map (fun i => UInt8.ofNat (65 + i)) ++
    (List.range 26).map (fun i => UInt8.ofNat (97 + i)) ++
    (List.range 10).map (fun i => UInt8.ofNat (48 + i)) ++ [43, 47, 61, 0]

/-! ### bb_uuencode -/

/-- The characters of three bytes. -/
def uuencodeGroup (tbl : List UInt8) (s0 s1 s2 : ℕ) : List UInt8 :=
  [tbl.getD (s0 >>> 2) 0, tbl.getD ((s0 &&& 3) <<< 4 + s1 >>> 4) 0,
    tbl.getD ((s1 &&& 0xf) <<< 2 + s2 >>> 6) 0, tbl.getD (s2 &&& 0x3f) 0]

/-- The first loop: transform the 3x8 bits to 4x6 bits.  It leaves 0, -1 or -2 of the length. -/
def uuencodeLoop (tbl : List UInt8) : ℕ → List UInt8 → ℤ → List UInt8 → List UInt8 × ℤ
  | 0, _, length, p => (p, length)
  | n + 1, s, length, p =>
    if length > 0 then
      let length := length - 3
      -- are s[1], s[2] valid or should be assumed 0?
      let s1 := if length ≥ -1 then (s.getD 1 0).toNat else 0
      let s2 := if length ≥ 0 then (s.getD 2 0).toNat else 0
      uuencodeLoop tbl n (s.drop 3) length (p ++ uuencodeGroup tbl (s.getD 0 0).toNat s1 s2)
    else (p, length)

/-- The second loop: pad the last `n` characters before `p`. -/
def padLoop (tbl : List UInt8) : ℕ → ℕ → List UInt8 → List UInt8
  | 0, _, out => out
  | n + 1, p, out => padLoop tbl n (p - 1) (out.set (p - 1) (tbl.getD 64 0))

/-- `bb_uuencode`: the string it leaves at `p`. -/
def bbUuencode (src : List UInt8) (length : ℤ) (tbl : List UInt8) : List UInt8 :=
  let (out, length) := uuencodeLoop tbl length.toNat src length []
  padLoop tbl (-length).toNat out.length out

/-! ### decode_base64 -/

/-- Get the next valid character: its place in the table, and the rest. -/
def nextValid : List UInt8 → Option (ℕ × List UInt8)
  | [] => none
  | ch :: src =>
    match bbUuencTblBase64.idxOf? ch with
    | some i => some (i, src)
    | none => nextValid src

/-- Fetch up to `n` six-bit values.  There is no rest where the string ends before that. -/
def fetch : ℕ → List ℕ → List UInt8 → List ℕ × Option (List UInt8)
  | 0, sixBit, src => (sixBit, some src)
  | n + 1, sixBit, src =>
    match nextValid src with
    | none => (sixBit, none)
    | some (ch, src) =>
      if ch = 64 then (sixBit, some src) else fetch n (sixBit ++ [ch]) src

/-- Transform 6-bit values to 8-bit ones. -/
def groupBytes : List ℕ → List UInt8
  | [a, b] => [UInt8.ofNat (a <<< 2 ||| b >>> 4)]
  | [a, b, c] => [UInt8.ofNat (a <<< 2 ||| b >>> 4), UInt8.ofNat (b <<< 4 ||| c >>> 2)]
  | [a, b, c, d] => [UInt8.ofNat (a <<< 2 ||| b >>> 4), UInt8.ofNat (b <<< 4 ||| c >>> 2),
      UInt8.ofNat (c <<< 6 ||| d)]
  | _ => []

theorem nextValid_length {src src' : List UInt8} {i : ℕ} (h : nextValid src = some (i, src')) :
    src'.length < src.length := by
  induction src with
  | nil => cases h
  | cons ch src ih =>
    rw [nextValid] at h
    cases hch : bbUuencTblBase64.idxOf? ch with
    | some k =>
      rw [hch] at h
      cases h
      exact Nat.lt_succ_self _
    | none =>
      rw [hch] at h
      exact Nat.lt_succ_of_lt (ih h)

theorem fetch_length_le : ∀ (n : ℕ) (sixBit sixBit' : List ℕ) (src src' : List UInt8),
    fetch n sixBit src = (sixBit', some src') → src'.length ≤ src.length := by
  intro n
  induction n with
  | zero => intro sixBit sixBit' src src' h; cases h; exact le_refl _
  | succ n ih =>
    intro sixBit sixBit' src src' h
    rw [fetch] at h
    cases hnext : nextValid src with
    | none => rw [hnext] at h; cases h
    | some r =>
      obtain ⟨ch, rest⟩ := r
      have hlt := nextValid_length hnext
      rw [hnext] at h
      dsimp only at h
      by_cases h64 : ch = 64
      · rw [if_pos h64] at h
        cases h
        exact hlt.le
      · rw [if_neg h64] at h
        exact (ih _ _ _ _ h).trans hlt.le

theorem fetch_length {n : ℕ} {sixBit sixBit' : List ℕ} {src src' : List UInt8}
    (h : fetch (n + 1) sixBit src = (sixBit', some src')) : src'.length < src.length := by
  rw [fetch] at h
  cases hnext : nextValid src with
  | none => rw [hnext] at h; cases h
  | some r =>
    obtain ⟨ch, rest⟩ := r
    have hlt := nextValid_length hnext
    rw [hnext] at h
    dsimp only at h
    by_cases h64 : ch = 64
    · rw [if_pos h64] at h
      cases h
      exact hlt
    · rw [if_neg h64] at h
      exact (fetch_length_le _ _ _ _ _ h).trans_lt hlt

/-- `decode_base64`: the bytes that it writes, and the undecoded part of the source. -/
def decodeBase64 (src : List UInt8) : List UInt8 × List UInt8 :=
  match h : fetch 4 [] src with
  | (sixBit, none) => ([], if sixBit = [] then [] else src)
  | (sixBit, some src') =>
    have := fetch_length h
    let r := decodeBase64 src'
    (groupBytes sixBit ++ r.1, r.2)
termination_by src.length

/-! ### read_base64 -/

def noStopChar : ℤ := 128
def uuStop : ℤ := 256
def bufferSize : ℕ := 64

/-- `flags as c_schar`. -/
def stopChar (flags : ℤ) : ℤ := (flags + 128) % 256 - 128

/-- What the inner loop of `read_base64` ends with: it returns at once, or it has seen the end of
the input, or it stops before the rest of the stream. -/
inductive Filled where
  | back
  | term (inBuf : List UInt8)
  | part (inBuf src : List UInt8)

/-- The inner loop of `read_base64`. -/
def fill (flags : ℤ) : List UInt8 → List UInt8 → Filled
  | inBuf, [] =>
    if inBuf.length < bufferSize then
      if stopChar flags = -1 ∧ inBuf = [] then .back else .term inBuf
    else .part inBuf []
  | inBuf, ch :: src =>
    if inBuf.length < bufferSize then
      if (ch.toNat : ℤ) = stopChar flags then
        if inBuf = [] then .back else .term inBuf
      -- we can also skip other whitespace by stopping on any control char or space
      else if ch ≤ 32 then .part inBuf src
      else fill flags (inBuf ++ [ch]) src
    else .part inBuf (ch :: src)

inductive Outcome where
  | returned
  /-- "truncated base64 input" -/
  | truncated
  deriving DecidableEq

/-- `flags & BASE64_FLAG_UU_STOP != 0 && strcmp(in_buf, "====") == 0` -/
def uuStops (flags : ℤ) (inBuf : List UInt8) : Bool :=
  flags / uuStop % 2 = 1 && inBuf = [61, 61, 61, 61]

/-- The outer loop of `read_base64`.  There is no result where it does not end. -/
def readLoop (flags : ℤ) : ℕ → List UInt8 → List UInt8 → List UInt8 →
    Option (List UInt8 × Outcome)
  | 0, _, _, _ => none
  | n + 1, inBuf, src, dst =>
    match fill flags inBuf src with
    | .back => some (dst, .returned)
    | .term inBuf =>
      if uuStops flags inBuf then some (dst, .returned)
      else
        let (out, inTail) := decodeBase64 inBuf
        -- did we consume ALL characters?
        if inTail = [] then some (dst ++ out, .returned) else some (dst ++ out, .truncated)
    | .part inBuf src =>
      if uuStops flags inBuf then some (dst, .returned)
      else
        let (out, inTail) := decodeBase64 inBuf
        readLoop flags n inTail src (dst ++ out)

def readBase64 (src : List UInt8) (flags : ℤ) : Option (List UInt8 × Outcome) :=
  readLoop flags (src.length + 2) [] src []

end Rustybox.Base64
