import Rustybox.Lib.Guarded
import Rustybox.Rust.CStr
import Mathlib.Algebra.Ring.Nat
import Mathlib.Algebra.Ring.Int.Defs

/-!
# Unpacking lzma

`unpack_lzma_stream`.  Every access of the probabilities and of the output buffer is checked: one
outside of them ends the run with `Stop.outside`.
-/

namespace Rustybox.Unlzma

open Rustybox.Rust
open Guarded (Prog fail)

/-! ### The header -/

/-- `lzma_header_t`, with a dictionary size that is not 0. -/
structure Header where
  pos : ℕ
  dictSize : ℕ
  dstSize : ℕ
  pos_lt : pos < 9 * 5 * 5
  dictSize_pos : 0 < dictSize
  dictSize_lt : dictSize < 2 ^ 32
  deriving DecidableEq

namespace Header

variable (header : Header)

def lc : ℕ := header.pos % 9
def pb : ℕ := header.pos / 9 / 5
def lp : ℕ := header.pos / 9 % 5

def bufferSize : ℕ :=
  (if header.dstSize < header.dictSize then header.dstSize else header.dictSize) % 2 ^ 32

def numProbs : ℕ := 1846 + 768 * 2 ^ (header.lc + header.lp)

end Header

/-- A number with its lowest byte first. -/
def littleEndian (s : Str) : ℕ := s.foldr (fun c v => c.toNat + 256 * v) 0

theorem littleEndian_lt (s : Str) : littleEndian s < 256 ^ s.length := by
  induction s with
  | nil => exact Nat.one_pos
  | cons c s ih =>
    have hc : c.toNat < 256 := c.toNat_lt
    have hstep : littleEndian (c :: s) = c.toNat + 256 * littleEndian s := rfl
    rw [hstep, List.length_cons, Nat.pow_succ']
    omega

theorem dictSize_lt (file : Str) : max (littleEndian ((file.drop 1).take 4)) 1 < 2 ^ 32 := by
  have hlen : ((file.drop 1).take 4).length ≤ 4 := List.length_take_le _ _
  have hpow : 256 ^ ((file.drop 1).take 4).length ≤ 256 ^ 4 :=
    Nat.pow_le_pow_right (by decide) hlen
  have hlt := littleEndian_lt ((file.drop 1).take 4)
  omega

/-- The header and what follows it; a dictionary size of 0 is made 1. -/
def readHeader (file : Str) : Option (Header × Str) :=
  if h : (file.headD 0).toNat < 9 * 5 * 5 then
    if file.length < 13 then none
    else some ({
      pos := (file.headD 0).toNat
      dictSize := max (littleEndian ((file.drop 1).take 4)) 1
      dstSize := littleEndian ((file.drop 5).take 8)
      pos_lt := h
      dictSize_pos := Nat.lt_of_lt_of_le Nat.one_pos (Nat.le_max_right _ _)
      dictSize_lt := dictSize_lt file }, file.drop 13)
  else none

/-! ### The range coder -/

/-- A literal after a match, with where it is and the distance of the match. -/
structure Matched where
  header : Header
  bufferPos : ℕ
  rep0 : ℕ
  deriving DecidableEq

/-- The memory: `rc_t` with what is left of the file, the probabilities, the output buffer, what was
written, and the literals after a match so far. -/
structure Mem where
  input : Str
  code : ℕ
  range : ℕ
  probs : ℕ → ℕ
  buffer : ℕ → UInt8
  written : List Str
  matched : List Matched

/-- Why a run ends early. -/
inductive Stop where
  | die (msg : String)
  /-- "corrupted data" -/
  | bad
  /-- An index is too large. -/
  | outside
  /-- The fuel ran out. -/
  | spin
  deriving DecidableEq

/-- A part of `unpack_lzma_stream`. -/
abbrev Action (α : Type) := Prog Mem Stop α

def rcDoNormalize : Action Unit := fun m =>
  match m.input with
  | [] => (.error (.die "unexpected EOF"), m)
  | byte :: input => (.ok (), { m with
      input := input
      range := m.range * 2 ^ 8 % 2 ^ 32
      code := (m.code * 2 ^ 8 % 2 ^ 32) ||| byte.toNat })

def rcNormalize : Action Unit := fun m => if m.range < 2 ^ 24 then rcDoNormalize m else (.ok (), m)

/-- What becomes of a probability after a 0. -/
def probUp (p : ℕ) : ℕ := (((p : ℤ) + ((2 ^ 11 : ℤ) - p) / 2 ^ 5) % 2 ^ 16).toNat

/-- What becomes of a probability after a 1. -/
def probDown (p : ℕ) : ℕ := p - p / 2 ^ 5

/-- Decode a bit with the probability `p`, which is at `i`. -/
def decideBit (i p : ℕ) : Action Bool := fun m =>
  let bound := p * (m.range / 2 ^ 11) % 2 ^ 32
  if m.code < bound then
    (.ok false, { m with range := bound, probs := fun j => if j = i then probUp p else m.probs j })
  else
    (.ok true, { m with
      range := (m.range + 2 ^ 32 - bound) % 2 ^ 32
      code := (m.code + 2 ^ 32 - bound) % 2 ^ 32
      probs := fun j => if j = i then probDown p else m.probs j })

def rcDirectBit : Action ℕ := do
  rcNormalize
  fun m =>
    let range := m.range / 2
    if range ≤ m.code then (.ok 1, { m with range := range, code := m.code - range })
    else (.ok 0, { m with range := range })

section

variable (header : Header)

def readProb (i : ℕ) : Action ℕ := fun m =>
  if i < header.numProbs then (.ok (m.probs i), m) else (.error .outside, m)

def rcIsBit1 (i : ℕ) : Action Bool := do
  rcNormalize
  let p ← readProb header i
  decideBit i p

/-- The bit, and the symbol with the bit added. -/
def rcGetBit (i symbol : ℕ) : Action (Bool × ℕ) := do
  let ret ← rcIsBit1 header i
  pure (ret, symbol * 2 + ret.toNat)

/-- The loop of `rc_bit_tree_decode`. -/
def bitTree (p : ℕ) : ℕ → ℕ → Action ℕ
  | 0, symbol => pure symbol
  | i + 1, symbol => do
    let (_, symbol) ← rcGetBit header (p + symbol) symbol
    bitTree p i symbol

def rcBitTreeDecode (p numLevels : ℕ) : Action ℕ := do
  let symbol ← bitTree header p numLevels 1
  pure (symbol - 2 ^ numLevels)

/-! ### The output buffer -/

def readBuffer (i : ℕ) : Action UInt8 := fun m =>
  if i < header.bufferSize then (.ok (m.buffer i), m) else (.error .outside, m)

def writeBuffer (i : ℕ) (c : UInt8) : Action Unit := fun m =>
  if i < header.bufferSize then
    (.ok (), { m with buffer := fun j => if j = i then c else m.buffer j })
  else (.error .outside, m)

-- `transformer_write`, of what was written before and what is to be written
variable (transformerWrite : List Str → Str → ℤ)

/-- Write the first `size` bytes of the output buffer. -/
def flush (size : ℕ) : Action Unit := fun m =>
  let bytes := (List.range size).map m.buffer
  if header.bufferSize < size then (.error .outside, m)
  else if transformerWrite m.written bytes = size then
    (.ok (), { m with written := m.written ++ [bytes] })
  else (.error .bad, m)

/-! ### unpack_lzma_stream -/

/-- The variables of the loop. -/
structure Vars where
  state : ℕ
  rep0 : ℕ
  rep1 : ℕ
  rep2 : ℕ
  rep3 : ℕ
  bufferPos : ℕ
  globalPos : ℕ
  totalWritten : ℕ
  previousByte : UInt8

/-- The position in all of the output. -/
def Vars.position (v : Vars) : ℕ := (v.bufferPos + v.globalPos) % 2 ^ 64

/-- `buffer_pos - rep0`, in 32 bits. -/
def Vars.distancePos (v : Vars) : ℕ := (v.bufferPos + 2 ^ 64 - v.rep0) % 2 ^ 64 % 2 ^ 32

/-- Where the byte is that a match copies, around the end of the dictionary. -/
def Vars.matchPos (v : Vars) : ℕ :=
  if 2 ^ 31 ≤ v.distancePos then (v.distancePos + header.dictSize) % 2 ^ 32 else v.distancePos

/-- Store `previous_byte`, and write the buffer when it is full. -/
def storeByte (v : Vars) : Action Vars := do
  writeBuffer header v.bufferPos v.previousByte
  if v.bufferPos + 1 = header.dictSize then do
    flush header transformerWrite header.dictSize
    pure { v with
      bufferPos := 0
      globalPos := (v.globalPos + header.dictSize) % 2 ^ 64
      totalWritten := v.totalWritten + header.dictSize }
  else pure { v with bufferPos := v.bufferPos + 1 }

def nextState : List ℕ := [0, 0, 0, 0, 1, 2, 3, 4, 5, 6, 4, 5]

/-- The bits of a literal as long as they are those of the byte that a match would copy: there are
no more than eight. -/
def matchedBits (prob : ℕ) : ℕ → ℕ → ℕ → Action ℕ
  | 0, _, mi => pure mi
  | n + 1, matchByte, mi => do
    let bit := (matchByte * 2) &&& 0x100
    let (ret, mi) ← rcGetBit header (prob + 0x100 + bit + mi) mi
    if bit ^^^ (ret.toNat * 2 ^ 8) ≠ 0 ∨ ¬ mi < 0x100 then pure mi
    else matchedBits prob n (matchByte * 2) mi

/-- The other bits of a literal. -/
def literalBits (prob : ℕ) : ℕ → ℕ → Action ℕ
  | 0, mi => pure mi
  | n + 1, mi =>
    if mi < 0x100 then do
      let (_, mi) ← rcGetBit header (prob + mi) mi
      literalBits prob n mi
    else pure mi

/-- Where the probabilities of a literal are. -/
def literalProb (v : Vars) : ℕ :=
  1846 + 768 * ((v.position &&& (2 ^ header.lp - 1)) * 2 ^ header.lc +
    v.previousByte.toNat / 2 ^ (8 - header.lc))

def note (v : Vars) : Action Unit := Guarded.change fun m =>
  ((), { m with matched := m.matched ++ [⟨header, v.bufferPos, v.rep0⟩] })

/-- The first bits of a literal after a match. -/
def matchedLiteral (v : Vars) : Action ℕ := do
  note header v
  let matchByte ← readBuffer header (v.matchPos header)
  matchedBits header (literalProb header v) 8 matchByte.toNat 1

def decodeLiteral (v : Vars) : Action Vars := do
  let mi ← (if 7 ≤ v.state then matchedLiteral header v else pure 1)
  let mi ← literalBits header (literalProb header v) 8 mi
  storeByte header transformerWrite { v with
    state := nextState.getD v.state 0
    previousByte := UInt8.ofNat mi }

/-- The length of a match, with the probabilities at `prob`. -/
def decodeLen (prob posState : ℕ) : Action ℕ := do
  if ← rcIsBit1 header prob then do
    if ← rcIsBit1 header (prob + 1) then do
      let len ← rcBitTreeDecode header (prob + 258) 8
      pure (len + 16)
    else do
      let len ← rcBitTreeDecode header (prob + 130 + posState * 2 ^ 3) 3
      pure (len + 8)
  else rcBitTreeDecode header (prob + 2 + posState * 2 ^ 3) 3

/-- Bits of a distance that are equally likely. -/
def directBits : ℕ → ℕ → Action ℕ
  | 0, rep0 => pure rep0
  | n + 1, rep0 => do
    let bit ← rcDirectBit
    directBits n ((rep0 * 2 % 2 ^ 32) ||| bit)

/-- The lowest bits of a distance, the lowest one first. -/
def reverseBits (prob : ℕ) : ℕ → ℕ → ℕ → ℕ → Action ℕ
  | 0, _, _, rep0 => pure rep0
  | n + 1, i2, mi2, rep0 => do
    let (ret, mi2) ← rcGetBit header (prob + mi2) mi2
    reverseBits prob n (i2 * 2) mi2 (if ret then rep0 ||| i2 else rep0)

def decodeDistance (len : ℕ) : Action ℕ := do
  let posSlot ← rcBitTreeDecode header (432 + (if len < 4 then len else 3) * 2 ^ 6) 6
  let numBits2 := posSlot / 2 - 1
  let rep0 := 2 ||| (posSlot &&& 1)
  if posSlot < 4 then pure posSlot
  else if posSlot < 14 then
    let rep0 := rep0 * 2 ^ numBits2 % 2 ^ 32
    reverseBits header (688 + rep0 - posSlot - 1) numBits2 1 1 rep0
  else do
    let rep0 ← directBits (numBits2 - 4) rep0
    reverseBits header 802 4 1 1 (rep0 * 2 ^ 4 % 2 ^ 32)

/-- A match whose length is at `prob`, with a new distance in the states below 4; there is none at
the end of the data. -/
def finishMatch (v : Vars) (prob posState : ℕ) : Action (Option (Vars × ℕ)) := do
  let len ← decodeLen header prob posState
  if v.state < 4 then do
    let rep0 ← decodeDistance header len
    let rep0 := (rep0 + 1) % 2 ^ 32
    if rep0 = 0 then pure none
    else if 2 ^ 31 ≤ rep0 then fail .bad
    else pure (some ({ v with state := v.state + 7, rep0 := rep0 }, len + 2))
  else pure (some (v, len + 2))

/-- One of the other distances is made the first one. -/
def otherRep (v : Vars) : Action Vars := do
  if ← rcIsBit1 header (216 + v.state) then do
    if ← rcIsBit1 header (228 + v.state) then
      pure { v with rep0 := v.rep3, rep1 := v.rep0, rep2 := v.rep1, rep3 := v.rep2 }
    else pure { v with rep0 := v.rep2, rep1 := v.rep0, rep2 := v.rep1 }
  else pure { v with rep0 := v.rep1, rep1 := v.rep0 }

/-- A match: the variables and its length. -/
def decodeMatch (v : Vars) (posState : ℕ) : Action (Option (Vars × ℕ)) := do
  let repeated (v : Vars) : Vars := { v with state := if v.state < 7 then 8 else 11 }
  if ← rcIsBit1 header (192 + v.state) then do
    if ← rcIsBit1 header (204 + v.state) then do
      let v ← otherRep header v
      finishMatch header (repeated v) 1332 posState
    else do
      if ← rcIsBit1 header (240 + v.state * 2 ^ 4 + posState) then
        finishMatch header (repeated v) 1332 posState
      else pure (some ({ v with state := if v.state < 7 then 9 else 11 }, 1))
  else finishMatch header { v with
    rep1 := v.rep0
    rep2 := v.rep1
    rep3 := v.rep2
    state := if v.state < 7 then 0 else 3 } 818 posState

def copyByte (v : Vars) : Action Vars :=
  if 2 ^ 31 ≤ v.distancePos ∧ header.bufferSize ≤ v.matchPos header then fail .bad
  else do
    let c ← readBuffer header (v.matchPos header)
    pure { v with previousByte := c }

/-- Copy `len` bytes one by one, up to the size of the output. -/
def copyWhile (copy : Vars → Action Vars) (dstSize : ℕ) : ℕ → Vars → Action Vars
  | 0, v => pure v
  | len + 1, v => do
    let v ← copy v
    if len ≠ 0 ∧ v.bufferPos < dstSize then copyWhile copy dstSize len v else pure v

/-- Copy a match of some length. -/
def copyMatch (len : ℕ) (v : Vars) : Action Vars :=
  copyWhile (fun v => do
    let v ← copyByte header v
    storeByte header transformerWrite v) header.dstSize len v

/-- A literal or a match, and whether it was the end of the data. -/
def packet (v : Vars) : Action (Vars × Bool) := do
  let posState := v.position &&& (2 ^ header.pb - 1)
  if ← rcIsBit1 header (v.state * 2 ^ 4 + posState) then do
    match ← decodeMatch header v posState with
    | none => pure (v, true)
    | some (v, len) => do
      let v ← copyMatch header transformerWrite len v
      pure (v, false)
  else do
    let v ← decodeLiteral header transformerWrite v
    pure (v, false)

/-- The main loop over packets, up to the size of the output. -/
def packetsWhile (packet : Vars → Action (Vars × Bool)) (dstSize : ℕ) : ℕ → Vars → Action Vars
  | 0, _ => fail .spin
  | fuel + 1, v =>
    if v.position < dstSize then do
      let (v, ended) ← packet v
      if ended then pure v else packetsWhile packet dstSize fuel v
    else pure v

def rcInit : Action Unit := do
  rcDoNormalize
  rcDoNormalize
  rcDoNormalize
  rcDoNormalize
  rcDoNormalize
  Guarded.change fun m => ((), { m with range := 0xffffffff })

def start : Vars := ⟨0, 1, 1, 1, 1, 0, 0, 0, 0⟩

/-- All but the header: how many bytes were written. -/
def unpack (fuel : ℕ) : Action ℤ := do
  rcInit
  let v ← packetsWhile (packet header transformerWrite) header.dstSize fuel start
  flush header transformerWrite v.bufferPos
  pure (v.totalWritten + v.bufferPos)

end

/-- `unpack_lzma_stream` of a file, with what is in the memory of the buffer: its result, and the
literals after a match. -/
def unpackLzmaStream (transformerWrite : List Str → Str → ℤ) (mem : ℕ → UInt8) (fuel : ℕ)
    (file : Str) : Except Stop ℤ × List Matched :=
  match readHeader file with
  | none => (.ok (-1), [])
  | some (header, input) =>
    match unpack header transformerWrite fuel ⟨input, 0, 0, fun _ => 2 ^ 10, mem, [], []⟩ with
    | (.error .bad, m) => (.ok (-1), m.matched)
    | (r, m) => (r, m.matched)

end Rustybox.Unlzma
