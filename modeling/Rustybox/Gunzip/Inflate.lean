import Rustybox.Gunzip.Huft
import Mathlib.Data.Int.Basic

/-!
# inflate

The decoder of `decompress_gunzip`, from the bit buffer up to `inflate_unzip_internal`.

There is one bit buffer here: `gunzip_bb` and `gunzip_bk`, and the copies of them that
`inflate_codes` and `inflate_stored` keep from window to window, are never alive together.  It
holds at most 24 bits, so a natural number does for it.  Loops take fuel, and one that runs out of
it says so (`spin`).
-/

namespace Rustybox.Gunzip

/-- What ends `inflate_unzip_internal` before it is done. -/
inductive Stop where
  /-- It returns -1 and leaves this message. -/
  | fail (errorMsg : String)
  /-- The program crashes: it frees, or reads through, a pointer that points nowhere. -/
  | fault
  /-- The fuel ran out. -/
  | spin
  deriving DecidableEq, Repr

/-! ### The input -/

/-- The input: `buf` is what of `bytebuffer` is not used yet, `rest` what the file still holds.
Read number `i` gives at most `script i + 1` bytes, or fails where that is `none`. -/
structure Input where
  buf : List UInt8
  rest : List UInt8
  script : ℕ → Option ℕ
  reads : ℕ
  toRead : ℤ

/-- What is still to be used of the input. -/
def Input.unread (inp : Input) : List UInt8 := inp.buf ++ inp.rest

/-- `safe_read` of at most `sz` bytes: what it read.  An error reads nothing. -/
def Input.safeRead (inp : Input) (sz : ℕ) : List UInt8 × Input :=
  let n := match inp.script inp.reads with
    | some size => min (size + 1) sz
    | none => 0
  (inp.rest.take n, { inp with rest := inp.rest.drop n, reads := inp.reads + 1 })

/-- What `fill_bitbuffer` asks for: the buffer, or less for unzip. -/
def Input.askFor (inp : Input) : ℕ :=
  if 0 ≤ inp.toRead ∧ inp.toRead < 0x3ffc then inp.toRead.toNat else 0x3ffc

/-- Fill an empty `bytebuffer`. -/
def Input.refill (inp : Input) : Input :=
  let (chunk, next) := inp.safeRead inp.askFor
  { next with
    buf := chunk
    -- unzip only
    toRead := if 0 ≤ inp.toRead then inp.toRead - chunk.length else inp.toRead }

def Input.readByte (inp : Input) : Except Stop (UInt8 × Input) :=
  let inp := if inp.buf.isEmpty then inp.refill else inp
  match inp.buf with
  | [] => .error (.fail "unexpected end of file")
  | byte :: buf => .ok (byte, { inp with buf := buf })

/-- The bit buffer `bb` with its `bk` bits. -/
structure Bits where
  input : Input
  bb : ℕ
  bk : ℕ

def fillLoop (required : ℕ) : ℕ → Bits → Except Stop Bits
  | 0, b => .ok b
  | fuel + 1, b =>
    if b.bk < required then do
      let (byte, input) ← b.input.readByte
      fillLoop required fuel ⟨input, b.bb ||| byte.toNat <<< b.bk, b.bk + 8⟩
    else .ok b

def fillBitbuffer (b : Bits) (required : ℕ) : Except Stop Bits := fillLoop required required b

def Bits.dump (b : Bits) (n : ℕ) : Bits := { b with bb := b.bb >>> n, bk := b.bk - n }

/-- Fill up to `n` bits and take them. -/
def takeBits (n : ℕ) (b : Bits) : Except Stop (ℕ × Bits) := do
  let b ← fillBitbuffer b n
  .ok (b.bb &&& maskBits n, b.dump n)

/-! ### Codes -/

/-- The entry that the next `n` bits select in table `t`. -/
def entryAt (tables : List (List Huft)) (t n : ℕ) (b : Bits) : Except Stop Huft :=
  match (tables.getD t []).drop (b.bb &&& maskBits n) with
  | [] => .error .fault
  | entry :: _ => .ok entry

/-- From the entry `t` on through the tables below it: an entry with `e > 16` leads to a table of
`e - 16` bits. -/
def descend (tables : List (List Huft)) : ℕ → Huft → Bits → Except Stop (Huft × Bits)
  | 0, _, _ => .error .spin
  | fuel + 1, t, b =>
    if t.e > 16 then
      if t.e = 99 then .error (.fail "corrupted data")
      else do
        let b ← fillBitbuffer (b.dump t.b) (t.e - 16)
        let below ← entryAt tables t.v (t.e - 16) b
        descend tables fuel below b
    else .ok (t, b.dump t.b)

def lookUp (tables : List (List Huft)) (width : ℕ) (b : Bits) : Except Stop (Huft × Bits) := do
  let b ← fillBitbuffer b width
  let t ← entryAt tables 0 width b
  descend tables (tables.length + 1) t b

/-! ### The state -/

/-- `GUNZIP_WSIZE`. -/
def wsize : ℕ := 32768

/-- `gunzip_window`. -/
abbrev Window := ℕ → UInt8

/-- `inflate_block` returns -1 for a stored block and -2 for a block of codes. -/
inductive Method where
  | stored
  | codes
  deriving DecidableEq, Repr

/-- A match that was decoded: how far back it starts, how long it is, and how much had been
decoded before it. -/
structure Match where
  distance : ℕ
  length : ℕ
  decoded : ℕ
  deriving DecidableEq, Repr

/-- `state_t`.  `copies` is a history: no function reads it. -/
structure State where
  bits : Bits
  window : Window
  outbufCount : ℕ
  bytesOut : ℕ
  crc : ℕ
  w : ℕ
  tl : List (List Huft)
  td : List (List Huft)
  bl : ℕ
  bd : ℕ
  nn : ℕ
  dd : ℕ
  resumeCopy : Bool
  method : Method
  needAnotherBlock : Bool
  endReached : Bool
  storedN : ℕ
  copies : List Match

/-- What a round of `inflate_codes` came to. -/
inductive Round where
  | more
  | full
  | endOfBlock
  deriving DecidableEq, Repr

def Window.put (win : Window) (w : ℕ) (byte : UInt8) : Window :=
  fun i => if i = w then byte else win i

/-- The window is full: it is the block to write. -/
def State.windowFull (s : State) : State := { s with outbufCount := s.w, w := 0 }

def State.emit (s : State) (byte : UInt8) : Round × State :=
  let s := { s with window := s.window.put s.w byte, w := s.w + 1 }
  if s.w = wsize then (.full, s.windowFull) else (.more, s)

/-! ### inflate_codes -/

/-- Do it slow to avoid `memcpy` overlap: copy `e` bytes from `dd` to `w`. -/
def copySlow : ℕ → ℕ → ℕ → Window → Window
  | 0, _, _, win => win
  | e + 1, dd, w, win => copySlow e (dd + 1) (w + 1) (win.put w (win dd))

/-- `memcpy` inside the window. -/
def copyFast (e dd w : ℕ) (win : Window) : Window :=
  fun i => if w ≤ i ∧ i < w + e then win (dd + (i - w)) else win i

/-- One piece of a copy, which ends where the source or the target reaches the window's end. -/
def copyPiece (s : State) : State :=
  let dd := s.dd &&& (wsize - 1)
  let e := min (wsize - max dd s.w) s.nn
  let delta := if s.w > dd then s.w - dd else dd - s.w
  { s with
    window := if delta ≥ e then copyFast e dd s.w s.window else copySlow e dd s.w s.window,
    nn := s.nn - e, dd := dd + e, w := s.w + e }

/-- Do the copy. -/
def copyLoop : ℕ → State → Except Stop (Round × State)
  | 0, _ => .error .spin
  | fuel + 1, s =>
    let s := copyPiece s
    if s.w = wsize then .ok (.full, { s.windowFull with resumeCopy := decide (s.nn ≠ 0) })
    else if s.nn = 0 then .ok (.more, { s with resumeCopy := false })
    else copyLoop fuel s

/-- How far back the copy from `dd` to `w` starts. -/
def ringDistance (dd w : ℕ) : ℕ :=
  let dd := dd &&& (wsize - 1)
  if dd < w then w - dd else w + wsize - dd

/-- Where the copy to `w` starts: `w - n - extra`, in 32 bits. -/
def copyFrom (w n extra : ℕ) : ℕ := (w + 2 ^ 32 - n - extra) % 2 ^ 32

/-- Get the length of the block to copy, and decode its distance. -/
def decodeMatch (t : Huft) (s : State) : Except Stop State := do
  let (extra, b) ← takeBits t.e s.bits
  let nn := t.v + extra
  let (t, b) ← lookUp s.td s.bd b
  let (extra, b) ← takeBits t.e b
  let dd := copyFrom s.w t.v extra
  .ok { s with
    bits := b, nn := nn, dd := dd,
    copies := s.copies ++ [⟨ringDistance dd s.w, nn, s.bytesOut + s.w⟩] }

/-- Decode a match and copy it. -/
def copyMatch (t : Huft) (s : State) : Except Stop (Round × State) := do
  let s ← decodeMatch t s
  copyLoop (s.nn + 1) s

/-- One round of `inflate_codes`. -/
def codesRound (s : State) : Except Stop (Round × State) :=
  if s.resumeCopy then copyLoop (s.nn + 1) s
  else do
    let (t, b) ← lookUp s.tl s.bl s.bits
    let s := { s with bits := b }
    if t.e = 16 then .ok (s.emit (UInt8.ofNat t.v))
    else if t.e = 15 then .ok (.endOfBlock, { s with outbufCount := s.w, tl := [], td := [] })
    else copyMatch t s

/-- `inflate_codes`: `true` when the window is full, `false` at the end of the block. -/
def inflateCodes : ℕ → State → Except Stop (Bool × State)
  | 0, _ => .error .spin
  | fuel + 1, s => do
    let (round, s) ← codesRound s
    match round with
    | .more => inflateCodes fuel s
    | .full => .ok (true, s)
    | .endOfBlock => .ok (false, s)

/-! ### inflate_stored -/

/-- Read and output one byte; `n` are to go after it. -/
def storedRound (n : ℕ) (s : State) : Except Stop (Round × State) := do
  let (byte, b) ← takeBits 8 s.bits
  .ok ({ s with bits := b, storedN := n }.emit (UInt8.ofNat byte))

/-- `inflate_stored`, with `inflate_stored_n` bytes to go. -/
def inflateStored : ℕ → State → Except Stop (Bool × State)
  | 0, s => .ok (false, { s with outbufCount := s.w, storedN := 0 })
  | n + 1, s => do
    let (round, s) ← storedRound n s
    match round with
    | .full => .ok (true, s)
    | _ => inflateStored n s

/-! ### inflate_block -/

/-- The lengths of the fixed literal codes. -/
def fixedLengths : List ℕ :=
  List.replicate 144 8 ++ List.replicate 112 9 ++ List.replicate 24 7 ++ List.replicate 8 8

/-- `border`: the order of the bit length code lengths. -/
def border : List ℕ := [16, 17, 18, 0, 8, 7, 9, 6, 10, 5, 11, 4, 12, 3, 13, 2, 14, 1, 15]

def inflateCodesSetup (s : State) (b : Bits) (tl td : Built) : State :=
  { s with
    bits := b, tl := tl.tables, td := td.tables, bl := tl.m, bd := td.m, w := s.outbufCount,
    method := .codes }

/-- Inflate stored: the length, its complement, and the byte boundary before them. -/
def storedBlock (s : State) (b : Bits) : Except Stop State := do
  let (n, b) ← takeBits 16 (b.dump (b.bk &&& 7))
  let b ← fillBitbuffer b 16
  -- error in compressed data
  if n ≠ 0xffff - (b.bb &&& 0xffff) then .error (.fail "corrupted data")
  else .ok { s with bits := b.dump 16, storedN := n, w := s.outbufCount, method := .stored }

/-- Inflate fixed.  The distance codes are an incomplete set, and the error bit is cleared. -/
def fixedBlock (s : State) (b : Bits) : State :=
  inflateCodesSetup s b (huftBuild fixedLengths 257 lit 7) (huftBuild (List.replicate 30 5) 0 dist 5)

/-- Read in bit-length-code lengths. -/
def bitLengths : List ℕ → List ℕ → Bits → Except Stop (List ℕ × Bits)
  | [], ll, b => .ok (ll, b)
  | place :: places, ll, b => do
    let (l, b) ← takeBits 3 b
    bitLengths places (ll.set place l) b

/-- Repeat `l` `base` times and as often as the next `n` bits say. -/
def repeatLength (total n base l : ℕ) (ll : List ℕ) (b : Bits) :
    Except Stop (List ℕ × Bits) := do
  let (extra, b) ← takeBits n b
  if ll.length + (base + extra) > total then .error (.fail "corrupted data")
  else .ok (ll ++ List.replicate (base + extra) l, b)

/-- What the bit length code `j` adds to the lengths; `l` is the last length. -/
def codeLength (total j l : ℕ) (ll : List ℕ) (b : Bits) : Except Stop (List ℕ × Bits) :=
  if j < 16 then .ok (ll ++ [j], b)
  else if j = 16 then repeatLength total 2 3 l ll b
  else if j = 17 then repeatLength total 3 3 0 ll b
  else repeatLength total 7 11 0 ll b

/-- Read in literal and distance code lengths, `total` of them. -/
def codeLengths (total bl : ℕ) (tl : List (List Huft)) :
    ℕ → ℕ → List ℕ → Bits → Except Stop (List ℕ × Bits)
  | 0, _, ll, b => .ok (ll, b)
  | fuel + 1, l, ll, b =>
    if ll.length < total then do
      let b ← fillBitbuffer b bl
      let td ← entryAt tl 0 bl b
      let (ll, b) ← codeLength total td.v l ll (b.dump td.b)
      codeLengths total bl tl fuel (if td.v < 16 then td.v else if td.v = 16 then l else 0) ll b
    else .ok (ll, b)

/-- The decoding tables for literal/length and distance codes.  `abort_unzip` frees both tables,
and a pointer with the error bit set is none that can be freed. -/
def dynamicTables (nl : ℕ) (ll : List ℕ) (s : State) (b : Bits) : Except Stop State :=
  let tl := huftBuild (ll.take nl) 257 lit 9
  let td := huftBuild (ll.drop nl) 0 dist 6
  if tl.flagged then .error .fault
  else if td.flagged then .error .fault
  else .ok (inflateCodesSetup s b tl td)

/-- Inflate dynamic. -/
def dynamicBlock (s : State) (b : Bits) : Except Stop State := do
  let (n, b) ← takeBits 5 b
  let nl := 257 + n
  let (n, b) ← takeBits 5 b
  let nd := 1 + n
  let (n, b) ← takeBits 4 b
  let nb := 4 + n
  if nl > 286 ∨ nd > 30 then .error (.fail "corrupted data")
  else do
    let (ll, b) ← bitLengths (border.take nb) (List.replicate 19 0) b
    let tl := huftBuild ll 19 ⟨[], []⟩ 7
    if tl.flagged then .error .fault
    else do
      let (ll, b) ← codeLengths (nl + nd) tl.m tl.tables (nl + nd) 0 [] b
      dynamicTables nl ll s b

def inflateBlock (s : State) : Except Stop State := do
  let (e, b) ← takeBits 1 s.bits
  let (t, b) ← takeBits 2 b
  let s := { s with bits := b, endReached := decide (e = 1) }
  if t = 0 then storedBlock s b
  else if t = 1 then .ok (fixedBlock s b)
  else if t = 2 then dynamicBlock s b
  else .error (.fail "corrupted data")

/-! ### Windows -/

/-- One entry of the table that `crc32_filltable` makes. -/
def crcEntry : ℕ → ℕ → ℕ
  | 0, v => v
  | j + 1, v => crcEntry j (if v &&& 1 ≠ 0 then v >>> 1 ^^^ 0xedb88320 else v >>> 1)

/-- `crc32_block_endian0`. -/
def crc32Block (val : ℕ) (buf : List UInt8) : ℕ :=
  buf.foldl (fun val byte => crcEntry 8 (val % 256 ^^^ byte.toNat) ^^^ val >>> 8) val

/-- The bytes of the window that are to be written. -/
def State.outbuf (s : State) : List UInt8 := (List.range s.outbufCount).map s.window

def calculateGunzipCrc (s : State) : State :=
  { s with crc := crc32Block s.crc s.outbuf, bytesOut := s.bytesOut + s.outbufCount }

/-- Inflate a block if another one is needed. -/
def nextBlock (s : State) : Except Stop State :=
  if s.needAnotherBlock then do
    let s ← inflateBlock s
    .ok { s with needAnotherBlock := false }
  else .ok s

/-- The block that the window goes on with. -/
def inflateMethod (fuel : ℕ) (s : State) : Except Stop (Bool × State) :=
  match s.method with
  | .stored => inflateStored s.storedN s
  | .codes => inflateCodes fuel s

/-- The loop of `inflate_get_next_window`. -/
def windowLoop (fuel : ℕ) : ℕ → State → Except Stop (Bool × State)
  | 0, _ => .error .spin
  | rounds + 1, s =>
    if s.needAnotherBlock ∧ s.endReached then
      -- last block
      .ok (false, { calculateGunzipCrc s with endReached := false })
    else do
      let s ← nextBlock s
      let (full, s) ← inflateMethod fuel s
      if full then .ok (true, calculateGunzipCrc s)
      else windowLoop fuel rounds { s with needAnotherBlock := true }

/-- `inflate_get_next_window`: whether there is more data left. -/
def inflateGetNextWindow (fuel : ℕ) (s : State) : Except Stop (Bool × State) :=
  windowLoop fuel fuel { s with outbufCount := 0 }

/-! ### inflate_unzip_internal -/

/-- The transformer's output: what was written, and how many writes there were. -/
structure Output where
  written : List UInt8
  writes : ℕ

/-- `transformer_write`, where write number `i` succeeds if `takes i`. -/
def transformerWrite (takes : ℕ → Bool) (out : Output) (buf : List UInt8) : Except Stop Output :=
  if takes out.writes then .ok ⟨out.written ++ buf, out.writes + 1⟩ else .error (.fail "write")

/-- The loop of `inflate_unzip_internal`, with `n` bytes written so far. -/
def unzipLoop (takes : ℕ → Bool) (fuel : ℕ) :
    ℕ → ℕ → State → Output → Except Stop (ℕ × State × Output)
  | 0, _, _, _ => .error .spin
  | rounds + 1, n, s, out => do
    let (r, s) ← inflateGetNextWindow fuel s
    let out ← transformerWrite takes out s.outbuf
    if r then unzipLoop takes fuel rounds (n + s.outbufCount) s out
    else .ok (n + s.outbufCount, s, out)

/-- The state as `inflate_unzip_internal` sets it up, with what the new window holds. -/
def freshState (window : Window) (input : Input) : State where
  bits := ⟨input, 0, 0⟩
  window := window
  outbufCount := 0
  bytesOut := 0
  crc := 0xffffffff
  w := 0
  tl := []
  td := []
  bl := 0
  bd := 0
  nn := 0
  dd := 0
  resumeCopy := false
  method := .stored
  needAnotherBlock := true
  endReached := false
  storedN := 0
  copies := []

/-- Undo too much lookahead. -/
def putBack (b : Bits) : Bits :=
  if b.bk ≥ 8 then
    ⟨{ b.input with buf := UInt8.ofNat (b.bb &&& 0xff) :: b.input.buf }, b.bb >>> 8, b.bk - 8⟩
  else b

/-- `inflate_unzip_internal`: the bytes written, and the state.  An error is -1. -/
def inflateUnzipInternal (takes : ℕ → Bool) (fuel : ℕ) (window : Window) (input : Input)
    (out : Output) : Except Stop (ℕ × State × Output) := do
  let (n, s, out) ← unzipLoop takes fuel fuel 0 (freshState window input) out
  .ok (n, { s with bits := putBack s.bits }, out)

end Rustybox.Gunzip
