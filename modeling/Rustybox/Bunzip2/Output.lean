import Rustybox.Bunzip2.Block
import Rustybox.Libbb.Crc32

/-!
# What bunzip2 writes

`read_bunzip` takes the bytes of a block one after the other, expands the runs and adds up the CRC,
until its buffer is full; the next call goes on from there.  `unpack_bz2_stream` calls it until the
stream ends or a write fails.

The blocks are what `get_next_block` is going to deliver; behind them it returns `stop`, and the CRC
that it has read by then is `stopCRC`.  What the source keeps in registers is kept in the structure
here.
-/

namespace Rustybox.Bunzip2

open Rustybox.Libbb

/-- A block, as `get_next_block` leaves it. -/
structure Block where
  dbuf : List UInt32
  origPtr : ℕ
  dbufCount : ℕ
  headerCRC : UInt32

/-- `bunzip_data`. -/
structure Data where
  blocks : List Block
  stop : ℤ
  stopCRC : UInt32
  dbuf : List UInt32
  writeCopies : ℕ
  writePos : ℕ
  writeRunCountdown : ℕ
  writeCount : ℤ
  writeCurrent : UInt8
  headerCRC : UInt32
  totalCRC : UInt32
  writeCRC : UInt32

/-- What `start_bunzip` leaves. -/
def start (blocks : List Block) (stop : ℤ) (stopCRC : UInt32) : Data :=
  ⟨blocks, stop, stopCRC, [], 0, 0, 0, 0, 0, 0, 0, 0⟩

/-- The end of `get_next_block`: decode first byte by hand to initialize "previous" byte. -/
def load (b : Block) (bd : Data) : Option Data :=
  let bd := { bd with dbuf := b.dbuf, headerCRC := b.headerCRC, writeCount := b.dbufCount }
  if b.dbufCount ≠ 0 then do
    let tmp ← b.dbuf[b.origPtr]?
    return { bd with writeCurrent := byteOf tmp, writePos := placeOf tmp, writeRunCountdown := 5 }
  else some bd

/-- The entry has a byte of the text; `n` bytes of the block are left. -/
def literal (bd : Data) (n : ℕ) (entry : UInt32) : Data :=
  { bd with
    writeCount := n
    writePos := posOf entry
    writeCurrent := byteOf entry
    writeRunCountdown :=
      if byteOf entry ≠ bd.writeCurrent then 4 else bd.writeRunCountdown - 1 }

/-- We have a repeated run, this byte indicates the count. -/
def repeated (bd : Data) (n : ℕ) (entry : UInt32) : Data :=
  { bd with
    writeCount := n
    writePos := posOf entry
    writeCopies := (byteOf entry).toNat - 1
    writeRunCountdown := 5 }

/-- The next byte to be written, with the copies of it, unless the block is consumed; `n` bytes of
it are left. -/
def decode : ℕ → Data → Option (Bool × Data)
  | 0, bd => some (false, { bd with writeCount := -1 })
  | n + 1, bd => do
    let entry ← bd.dbuf[bd.writePos]?
    if bd.writeRunCountdown - 1 ≠ 0 then return (true, literal bd n entry)
    -- Sometimes there are just 3 bytes (run length 0)
    else if byteOf entry = 0 then decode n (repeated bd n entry)
    else return (true, repeated bd n entry)

/-- What is written before the buffer is full or the block consumed; then `left` bytes of the buffer
are free. -/
structure Filled where
  out : List UInt8
  bd : Data
  left : Option ℕ

def crcByte (crc : UInt32) (c : UInt8) : UInt32 :=
  (crc <<< 8) ^^^ (crc32Filltable true).getD (((crc >>> 24) ^^^ c.toUInt32).toNat) 0

/-- One byte more, written before. -/
def Filled.cons (c : UInt8) (f : Filled) : Filled := { f with out := c :: f.out }

/-- Write next byte into output buffer, updating CRC. -/
def put (bd : Data) : Data := { bd with writeCRC := crcByte bd.writeCRC bd.writeCurrent }

/-- One of the extra copies is taken. -/
def takeCopy (bd : Data) : Data := { bd with writeCopies := bd.writeCopies - 1 }

/-- Loop outputting bytes. -/
def fill : ℕ → Data → Option Filled
  -- Output buffer is full, save cached state and return
  | 0, bd => some ⟨[], { bd with writeCopies := bd.writeCopies + 1 }, none⟩
  | len + 1, bd =>
    -- Loop now if we're outputting multiple copies of this byte
    (if (put bd).writeCopies ≠ 0 then fill len (takeCopy (put bd))
    else
      (decode (put bd).writeCount.toNat (put bd)).bind fun r =>
        if r.1 then fill len r.2 else some ⟨[], r.2, some len⟩).map (Filled.cons bd.writeCurrent)

/-- The block's data is in `dbuf`: write it. -/
def startBlock (b : Block) (bd : Data) (len : ℕ) : Option Filled :=
  (load b bd).bind fun bd =>
    (decode b.dbufCount { bd with writeCRC := 0xffffffff }).bind fun r =>
      if r.1 then fill len r.2 else some ⟨[], r.2, some len⟩

/-- The CRC of the stream so far, with that of one block more. -/
def addCRC (totalCRC crc : UInt32) : UInt32 := (totalCRC <<< 1 ||| totalCRC >>> 31) ^^^ crc

/-- Decompression of this input block completed. -/
def addBlock (bd : Data) : Data :=
  { bd with writeCRC := ~~~ bd.writeCRC, totalCRC := addCRC bd.totalCRC (~~~ bd.writeCRC) }

/-- If this block had a CRC error, force file level CRC error. -/
def spoil (bd : Data) : Data := { bd with totalCRC := bd.headerCRC + 1 }

/-- What `read_bunzip` returns, and what it has written into the buffer. -/
structure Ret where
  ret : ℤ
  bd : Data
  out : List UInt8

/-- What comes after the bytes of a block: `next` is what is done when it is consumed. -/
def onward (next : Data → ℕ → Option Ret) (f : Filled) : Option Ret :=
  match f.left with
  | none => some ⟨0, f.bd, f.out⟩
  | some len =>
    if (addBlock f.bd).writeCRC ≠ f.bd.headerCRC then some ⟨-1, spoil (addBlock f.bd), f.out⟩
    else (next (addBlock f.bd) len).map fun r => { r with out := f.out ++ r.out }

/-- Refill the intermediate buffer by Huffman-decoding next block of input, and go on. -/
def refill : List Block → Data → ℕ → Option Ret
  | [], bd, len =>
    some ⟨if bd.stop ≠ -1 then bd.stop else len,
      { bd with blocks := [], writeCount := bd.stop, headerCRC := bd.stopCRC }, []⟩
  | b :: blocks, bd, len =>
    (startBlock b { bd with blocks := blocks } len).bind (onward (refill blocks))

def readBunzip (bd : Data) (len : ℕ) : Option Ret :=
  -- If we already have error/end indicator, return it
  if bd.writeCount < 0 then some ⟨bd.writeCount, bd, []⟩
  else if bd.writeCopies ≠ 0 then
    (fill len (takeCopy bd)).bind (onward (refill bd.blocks))
  else refill bd.blocks bd len

/-! ### Runs -/

/-- The text that the bytes of a block stand for.  After four equal bytes, counted down from
`countdown`, comes a count. -/
def expand : ℕ → UInt8 → List UInt8 → List UInt8
  | _, _, [] => []
  | countdown, previous, current :: bytes =>
    if countdown - 1 ≠ 0 then
      current :: expand (if current ≠ previous then 4 else countdown - 1) current bytes
    else List.replicate current.toNat previous ++ expand 5 previous bytes

def crcOf (crc : UInt32) (text : List UInt8) : UInt32 := text.foldl crcByte crc

/-- `text` is what a block stands for. -/
def Block.Holds (b : Block) (text : List UInt8) : Prop :=
  (b.dbufCount = 0 ∧ text = []) ∨
    (b.dbufCount ≠ 0 ∧ ∃ tmp bytes, b.dbuf[b.origPtr]? = some tmp ∧
      walk b.dbuf b.dbufCount (placeOf tmp) = some bytes ∧ text = expand 5 (byteOf tmp) bytes)

theorem Block.Holds.unique {b : Block} {text text' : List UInt8} (h : b.Holds text)
    (h' : b.Holds text') : text = text' := by
  rcases h with ⟨hcount, rfl⟩ | ⟨hcount, tmp, bytes, htmp, hwalk, rfl⟩
  · rcases h' with ⟨-, rfl⟩ | ⟨hcount', -⟩
    · rfl
    · exact absurd hcount hcount'
  · rcases h' with ⟨hcount', -⟩ | ⟨-, tmp', bytes', htmp', hwalk', rfl⟩
    · exact absurd hcount' hcount
    · obtain rfl := Option.some.inj (htmp.symm.trans htmp')
      obtain rfl := Option.some.inj (hwalk.symm.trans hwalk')
      rfl

/-! ### Bytes of a block -/

/-- What stays as it is while a block is written. -/
structure Kept (bd bd' : Data) : Prop where
  blocks : bd'.blocks = bd.blocks
  stop : bd'.stop = bd.stop
  stopCRC : bd'.stopCRC = bd.stopCRC
  headerCRC : bd'.headerCRC = bd.headerCRC
  totalCRC : bd'.totalCRC = bd.totalCRC

theorem Kept.trans {bd bd' bd'' : Data} (h : Kept bd bd') (h' : Kept bd' bd'') : Kept bd bd'' :=
  ⟨h'.blocks.trans h.blocks, h'.stop.trans h.stop, h'.stopCRC.trans h.stopCRC,
    h'.headerCRC.trans h.headerCRC, h'.totalCRC.trans h.totalCRC⟩

/-- `text` is what is left of a block whose next byte is about to be written. -/
structure Writing (bd : Data) (text : List UInt8) : Prop where
  count : 0 ≤ bd.writeCount
  text_eq : ∃ bytes, walk bd.dbuf bd.writeCount.toNat bd.writePos = some bytes ∧
    text = bd.writeCurrent :: List.replicate bd.writeCopies bd.writeCurrent ++
      expand bd.writeRunCountdown bd.writeCurrent bytes

theorem walk_succ {dbuf : List UInt32} {n pos : ℕ} {bytes : List UInt8}
    (h : walk dbuf (n + 1) pos = some bytes) :
    ∃ tmp rest, dbuf[pos]? = some tmp ∧ walk dbuf n (posOf tmp) = some rest ∧
      bytes = byteOf tmp :: rest := by
  simp only [walk, Option.bind_eq_bind, Option.pure_def, Option.bind_eq_some_iff,
    Option.some.injEq] at h
  obtain ⟨tmp, htmp, rest, hrest, rfl⟩ := h
  exact ⟨tmp, rest, htmp, hrest, rfl⟩

/-- The next byte of a block is the next one of its text, and the block is consumed with it. -/
theorem decode_spec {n : ℕ} (bd : Data) {bytes : List UInt8} (h0 : bd.writeCopies = 0)
    (hwalk : walk bd.dbuf n bd.writePos = some bytes) :
    ∃ bd', Kept bd bd' ∧ bd'.writeCRC = bd.writeCRC ∧
      ((decode n bd = some (true, bd') ∧
          Writing bd' (expand bd.writeRunCountdown bd.writeCurrent bytes)) ∨
        (decode n bd = some (false, bd') ∧ bd'.writeCount = -1 ∧ bd'.writeCopies = 0 ∧
          expand bd.writeRunCountdown bd.writeCurrent bytes = [])) := by
  induction n generalizing bd bytes with
  | zero =>
    obtain rfl := Option.some.inj hwalk
    exact ⟨{ bd with writeCount := -1 }, ⟨rfl, rfl, rfl, rfl, rfl⟩, rfl,
      Or.inr ⟨rfl, rfl, h0, rfl⟩⟩
  | succ n ih =>
    obtain ⟨tmp, rest, htmp, hrest, rfl⟩ := walk_succ hwalk
    have hdecode : decode (n + 1) bd =
        if bd.writeRunCountdown - 1 ≠ 0 then some (true, literal bd n tmp)
        else if byteOf tmp = 0 then decode n (repeated bd n tmp)
        else some (true, repeated bd n tmp) := by
      rw [decode, htmp]
      rfl
    rw [hdecode, expand]
    by_cases hcount : bd.writeRunCountdown - 1 ≠ 0
    · rw [if_pos hcount, if_pos hcount]
      refine ⟨literal bd n tmp, ⟨rfl, rfl, rfl, rfl, rfl⟩, rfl, Or.inl ⟨rfl, ?_, rest, hrest, ?_⟩⟩
      · exact Int.natCast_nonneg n
      · change _ = byteOf tmp :: List.replicate bd.writeCopies (byteOf tmp) ++ _
        rw [h0]
        rfl
    · rw [if_neg hcount, if_neg hcount]
      by_cases hzero : byteOf tmp = 0
      · have hcopies : (repeated bd n tmp).writeCopies = 0 := by
          change (byteOf tmp).toNat - 1 = 0
          rw [hzero]
          rfl
        obtain ⟨bd', hkept, hcrc, hnext⟩ := ih _ hcopies hrest
        rw [if_pos hzero, hzero]
        have hkept' : Kept bd (repeated bd n tmp) := ⟨rfl, rfl, rfl, rfl, rfl⟩
        exact ⟨bd', hkept'.trans hkept, hcrc, hnext⟩
      · rw [if_neg hzero]
        refine ⟨repeated bd n tmp, ⟨rfl, rfl, rfl, rfl, rfl⟩, rfl,
          Or.inl ⟨rfl, ?_, rest, hrest, ?_⟩⟩
        · exact Int.natCast_nonneg n
        · have hpos : 0 < (byteOf tmp).toNat := by
            by_contra h
            exact hzero (UInt8.toNat_inj.mp (Nat.eq_zero_of_not_pos h))
          change _ = bd.writeCurrent ::
            List.replicate ((byteOf tmp).toNat - 1) bd.writeCurrent ++ _
          rw [← List.replicate_succ, Nat.sub_add_cancel hpos]
          rfl

/-- Writing `text` stops in the text when the buffer is full, and else with the block consumed. -/
def Fills (len : ℕ) (bd : Data) (text : List UInt8) (f : Option Filled) : Prop :=
  (len < text.length ∧ ∃ bd', f = some ⟨text.take len, bd', none⟩ ∧ Kept bd bd' ∧
      bd'.writeCRC = crcOf bd.writeCRC (text.take len) ∧ bd'.writeCopies ≠ 0 ∧
      Writing (takeCopy bd') (text.drop len)) ∨
    (text.length ≤ len ∧ ∃ bd', f = some ⟨text, bd', some (len - text.length)⟩ ∧ Kept bd bd' ∧
      bd'.writeCRC = crcOf bd.writeCRC text ∧ bd'.writeCopies = 0 ∧ bd'.writeCount = -1)

theorem Fills.cons {len : ℕ} {bd bd' : Data} {c : UInt8} {text : List UInt8} {f : Option Filled}
    (hkept : Kept bd bd') (hcrc : bd'.writeCRC = crcByte bd.writeCRC c)
    (h : Fills len bd' text f) :
    Fills (len + 1) bd (c :: text) (f.map (Filled.cons c)) := by
  rcases h with ⟨hlt, bd'', rfl, hk, hcrc', hcopies, hw⟩ | ⟨hle, bd'', rfl, hk, hcrc', hdone⟩
  · refine Or.inl ⟨Nat.succ_lt_succ hlt, bd'', rfl, hkept.trans hk, ?_, hcopies, hw⟩
    rw [hcrc', hcrc]
    rfl
  · refine Or.inr ⟨Nat.succ_le_succ hle, bd'', ?_, hkept.trans hk, ?_, hdone⟩
    · rw [List.length_cons, Nat.add_sub_add_right]
      rfl
    · rw [hcrc', hcrc]
      rfl

theorem fills_decode {len n : ℕ} (bd : Data) {bytes : List UInt8} (h0 : bd.writeCopies = 0)
    (hwalk : walk bd.dbuf n bd.writePos = some bytes)
    (hfill : ∀ bd' text, Writing bd' text → Fills len bd' text (fill len bd')) :
    Fills len bd (expand bd.writeRunCountdown bd.writeCurrent bytes)
      ((decode n bd).bind fun r => if r.1 then fill len r.2 else some ⟨[], r.2, some len⟩) := by
  obtain ⟨bd', hkept, hcrc, ⟨hdecode, hw⟩ | ⟨hdecode, hdone, hcopies, hend⟩⟩ :=
    decode_spec bd h0 hwalk
  · rw [hdecode]
    rcases hfill bd' _ hw with ⟨hlt, bd'', hf, hk, hcrc', h⟩ | ⟨hle, bd'', hf, hk, hcrc', h⟩
    · exact Or.inl ⟨hlt, bd'', hf, hkept.trans hk, hcrc ▸ hcrc', h⟩
    · exact Or.inr ⟨hle, bd'', hf, hkept.trans hk, hcrc ▸ hcrc', h⟩
  · rw [hdecode, hend]
    exact Or.inr ⟨Nat.zero_le len, bd', rfl, hkept, hcrc, hcopies, hdone⟩

theorem fills {len : ℕ} {bd : Data} {text : List UInt8} (h : Writing bd text) :
    Fills len bd text (fill len bd) := by
  induction len generalizing bd text with
  | zero =>
    obtain ⟨hcount, bytes, hwalk, rfl⟩ := h
    exact Or.inl ⟨Nat.succ_pos _, _, rfl, ⟨rfl, rfl, rfl, rfl, rfl⟩, rfl, Nat.succ_ne_zero _,
      hcount, bytes, hwalk, rfl⟩
  | succ len ih =>
    obtain ⟨hcount, bytes, hwalk, rfl⟩ := h
    rw [List.cons_append, fill]
    by_cases hcopies : (put bd).writeCopies ≠ 0
    · -- one of the copies
      have hpos := Nat.pos_of_ne_zero hcopies
      have hw : Writing (takeCopy (put bd)) (List.replicate bd.writeCopies bd.writeCurrent ++
          expand bd.writeRunCountdown bd.writeCurrent bytes) := by
        refine ⟨hcount, bytes, hwalk, ?_⟩
        change _ = bd.writeCurrent :: List.replicate (bd.writeCopies - 1) bd.writeCurrent ++ _
        rw [← List.replicate_succ]
        exact congrArg (List.replicate · bd.writeCurrent ++ _) (Nat.sub_add_cancel hpos).symm
      have hkept : Kept bd (takeCopy (put bd)) := ⟨rfl, rfl, rfl, rfl, rfl⟩
      rw [if_pos hcopies]
      exact Fills.cons hkept rfl (ih hw)
    · -- the next byte of the block
      have h0 : bd.writeCopies = 0 := not_not.mp hcopies
      rw [if_neg hcopies, h0, List.replicate_zero, List.nil_append]
      have hdecode : Fills len (put bd) (expand bd.writeRunCountdown bd.writeCurrent bytes) _ :=
        fills_decode (put bd) h0 hwalk fun _ _ => ih
      have hkept : Kept bd (put bd) := ⟨rfl, rfl, rfl, rfl, rfl⟩
      exact Fills.cons hkept rfl hdecode

/-! ### Bytes of a stream -/

/-- What is still to come of a stream: its text; what is returned behind it, where `whole` says that
all blocks were right; the CRC that was read last and the one that was computed. -/
structure Ending where
  text : List UInt8
  code : ℤ
  whole : Bool
  headerCRC : UInt32
  totalCRC : UInt32

/-- A block of which `text` is still to come, and what comes behind the block. -/
def Ending.block (text : List UInt8) (writeCRC headerCRC totalCRC : UInt32)
    (behind : UInt32 → Ending) : Ending :=
  if ~~~ crcOf writeCRC text ≠ headerCRC then ⟨text, -1, false, headerCRC, headerCRC + 1⟩
  else
    let e := behind (addCRC totalCRC (~~~ crcOf writeCRC text))
    { e with text := text ++ e.text }

/-- Blocks with their texts. -/
def ending (stop : ℤ) (stopCRC : UInt32) : List (Block × List UInt8) → UInt32 → Ending
  | [], totalCRC => ⟨[], stop, true, stopCRC, totalCRC⟩
  | (b, text) :: blocks, totalCRC =>
    Ending.block text 0xffffffff b.headerCRC totalCRC (ending stop stopCRC blocks)

/-- What the call returns that comes to the end and leaves `len` bytes of the buffer free. -/
def Ending.ret (e : Ending) (len : ℕ) : ℤ := if e.whole = true ∧ e.code = -1 then len else e.code

structure Ended (bd : Data) (e : Ending) : Prop where
  code : bd.writeCount = e.code
  neg : e.code < 0
  headerCRC : bd.headerCRC = e.headerCRC
  totalCRC : bd.totalCRC = e.totalCRC

/-- The blocks that are still to be read. -/
structure Behind (bd : Data) (rest : List (Block × List UInt8)) : Prop where
  blocks : bd.blocks = rest.map Prod.fst
  holds : ∀ b ∈ rest, b.1.Holds b.2
  stop : bd.stop < 0

theorem Behind.of_same {bd bd' : Data} {rest : List (Block × List UInt8)} (h : Behind bd rest)
    (hblocks : bd'.blocks = bd.blocks) (hstop : bd'.stop = bd.stop) : Behind bd' rest :=
  ⟨hblocks.trans h.blocks, h.holds, hstop ▸ h.stop⟩

/-- The reader waits in the middle of a block, because the buffer is full. -/
structure Waiting (bd : Data) (e : Ending) : Prop where
  copies : bd.writeCopies ≠ 0
  ending_eq : ∃ text rest, Writing (takeCopy bd) text ∧
    Behind bd rest ∧ e = Ending.block text bd.writeCRC bd.headerCRC bd.totalCRC
      (ending bd.stop bd.stopCRC rest)

/-- A call with a buffer of `len` bytes: it waits if that is not enough for all that is to come. -/
def Reads (len : ℕ) (e : Ending) (r : Option Ret) : Prop :=
  (len < e.text.length ∧ ∃ bd, r = some ⟨0, bd, e.text.take len⟩ ∧
      Waiting bd { e with text := e.text.drop len }) ∨
    (e.text.length ≤ len ∧ ∃ bd, r = some ⟨e.ret (len - e.text.length), bd, e.text⟩ ∧ Ended bd e)

theorem Reads.prepend {len : ℕ} {e : Ending} {r : Option Ret} (out : List UInt8)
    (h : Reads len e r) :
    Reads (out.length + len) { e with text := out ++ e.text }
      (r.map fun r => { r with out := out ++ r.out }) := by
  rcases h with ⟨hlt, bd, rfl, hw⟩ | ⟨hle, bd, rfl, hend⟩
  · refine Or.inl ⟨?_, bd, ?_, ?_⟩
    · rw [List.length_append]
      exact Nat.add_lt_add_left hlt _
    · rw [List.take_length_add_append]
      rfl
    · dsimp only
      rw [List.drop_length_add_append]
      exact hw
  · refine Or.inr ⟨?_, bd, ?_, ⟨hend.code, hend.neg, hend.headerCRC, hend.totalCRC⟩⟩
    · rw [List.length_append]
      exact Nat.add_le_add_left hle _
    · rw [List.length_append, Nat.add_sub_add_left]
      rfl

theorem crcOf_append (crc : UInt32) (text text' : List UInt8) :
    crcOf crc (text ++ text') = crcOf (crcOf crc text) text' := List.foldl_append

theorem Ending.exists_block_text (text : List UInt8) (writeCRC headerCRC totalCRC : UInt32)
    (behind : UInt32 → Ending) :
    ∃ more, (Ending.block text writeCRC headerCRC totalCRC behind).text = text ++ more := by
  unfold Ending.block
  split
  · exact ⟨[], (List.append_nil text).symm⟩
  · exact ⟨_, rfl⟩

theorem Ending.block_drop {len : ℕ} {text : List UInt8} (hlen : len ≤ text.length)
    (writeCRC headerCRC totalCRC : UInt32) (behind : UInt32 → Ending) :
    { Ending.block text writeCRC headerCRC totalCRC behind with
      text := (Ending.block text writeCRC headerCRC totalCRC behind).text.drop len } =
      Ending.block (text.drop len) (crcOf writeCRC (text.take len)) headerCRC totalCRC behind := by
  unfold Ending.block
  rw [← crcOf_append, List.take_append_drop]
  split
  · rfl
  · dsimp only
    rw [List.drop_append_of_le_length hlen]

/-- The rest of a block, and then what comes behind it. -/
theorem Fills.reads {len : ℕ} {bd : Data} {text : List UInt8} {rest : List (Block × List UInt8)}
    {f : Option Filled} (hbehind : Behind bd rest)
    (hnext : ∀ bd' len', Behind bd' rest → bd'.writeCopies = 0 →
      Reads len' (ending bd'.stop bd'.stopCRC rest bd'.totalCRC)
        (refill (rest.map Prod.fst) bd' len'))
    (h : Fills len bd text f) :
    Reads len (Ending.block text bd.writeCRC bd.headerCRC bd.totalCRC
      (ending bd.stop bd.stopCRC rest)) (f.bind (onward (refill (rest.map Prod.fst)))) := by
  rcases h with ⟨hlt, bd', rfl, hk, hcrc, hcopies, hw⟩ | ⟨hle, bd', rfl, hk, hcrc, hcopies, hdone⟩
  · -- the buffer is full
    obtain ⟨more, hmore⟩ := Ending.exists_block_text text bd.writeCRC bd.headerCRC bd.totalCRC
      (ending bd.stop bd.stopCRC rest)
    refine Or.inl ⟨?_, bd', ?_, hcopies, text.drop len, rest, hw,
      hbehind.of_same hk.blocks hk.stop, ?_⟩
    · rw [hmore, List.length_append]
      exact Nat.lt_add_right _ hlt
    · rw [hmore, List.take_append_of_le_length hlt.le]
      rfl
    · rw [Ending.block_drop hlt.le, hcrc, hk.headerCRC, hk.totalCRC, hk.stop, hk.stopCRC]
  · -- the block is consumed
    rw [Option.bind_some, onward]
    unfold Ending.block
    have hwrite : (addBlock bd').writeCRC = ~~~ crcOf bd.writeCRC text := congrArg (~~~ ·) hcrc
    dsimp only
    rw [hwrite, hk.headerCRC]
    by_cases hbad : ~~~ crcOf bd.writeCRC text ≠ bd.headerCRC
    · have hneg : (-1 : ℤ) < 0 := by decide
      rw [if_pos hbad, if_pos hbad]
      exact Or.inr ⟨hle, _, rfl, hdone, hneg, hk.headerCRC, congrArg (· + 1) hk.headerCRC⟩
    · have hbehind' : Behind (addBlock bd') rest := hbehind.of_same hk.blocks hk.stop
      have htotal : (addBlock bd').totalCRC =
          addCRC bd.totalCRC (~~~ crcOf bd.writeCRC text) := by
        rw [← hcrc, ← hk.totalCRC]
        rfl
      have hreads := (hnext (addBlock bd') (len - text.length) hbehind' hcopies).prepend text
      have hstop : (addBlock bd').stop = bd.stop := hk.stop
      have hstopCRC : (addBlock bd').stopCRC = bd.stopCRC := hk.stopCRC
      rw [Nat.add_sub_cancel' hle, htotal, hstop, hstopCRC] at hreads
      rw [if_neg hbad, if_neg hbad]
      exact hreads

theorem fills_startBlock {b : Block} {text : List UInt8} (bd : Data) (len : ℕ)
    (hb : b.Holds text) (hcopies : bd.writeCopies = 0) :
    ∃ bd', Fills len bd' text (startBlock b bd len) ∧ bd'.blocks = bd.blocks ∧
      bd'.stop = bd.stop ∧ bd'.stopCRC = bd.stopCRC ∧ bd'.totalCRC = bd.totalCRC ∧
      bd'.headerCRC = b.headerCRC ∧ bd'.writeCRC = 0xffffffff := by
  rcases hb with ⟨hcount, rfl⟩ | ⟨hcount, tmp, bytes, htmp, hwalk, rfl⟩
  · have hload : load b bd = some { bd with
        dbuf := b.dbuf, headerCRC := b.headerCRC, writeCount := b.dbufCount } :=
      if_neg (not_not.mpr hcount)
    refine ⟨{ bd with
      dbuf := b.dbuf, headerCRC := b.headerCRC, writeCount := b.dbufCount,
      writeCRC := 0xffffffff }, ?_, rfl, rfl, rfl, rfl, rfl, rfl⟩
    have hwalk : walk b.dbuf 0 bd.writePos = some [] := rfl
    rw [startBlock, hload, hcount]
    exact fills_decode { bd with
      dbuf := b.dbuf, headerCRC := b.headerCRC, writeCount := 0,
      writeCRC := 0xffffffff } hcopies hwalk fun _ _ => fills
  · have hload : load b bd = some { bd with
        dbuf := b.dbuf, headerCRC := b.headerCRC, writeCount := b.dbufCount,
        writeCurrent := byteOf tmp, writePos := placeOf tmp, writeRunCountdown := 5 } := by
      refine (if_pos hcount).trans ?_
      dsimp only
      rw [htmp]
      rfl
    refine ⟨{ bd with
      dbuf := b.dbuf, headerCRC := b.headerCRC, writeCount := b.dbufCount,
      writeCurrent := byteOf tmp, writePos := placeOf tmp, writeRunCountdown := 5,
      writeCRC := 0xffffffff }, ?_, rfl, rfl, rfl, rfl, rfl, rfl⟩
    rw [startBlock, hload]
    exact fills_decode { bd with
      dbuf := b.dbuf, headerCRC := b.headerCRC, writeCount := b.dbufCount,
      writeCurrent := byteOf tmp, writePos := placeOf tmp, writeRunCountdown := 5,
      writeCRC := 0xffffffff } hcopies hwalk fun _ _ => fills

theorem reads_refill {rest : List (Block × List UInt8)} {bd : Data} {len : ℕ}
    (hbehind : Behind bd rest) (hcopies : bd.writeCopies = 0) :
    Reads len (ending bd.stop bd.stopCRC rest bd.totalCRC) (refill (rest.map Prod.fst) bd len) := by
  induction rest generalizing bd len with
  | nil =>
    refine Or.inr ⟨Nat.zero_le len,
      { bd with blocks := [], writeCount := bd.stop, headerCRC := bd.stopCRC }, ?_,
      rfl, hbehind.stop, rfl, rfl⟩
    change some (Ret.mk (if bd.stop ≠ -1 then bd.stop else len) _ _) =
      some (Ret.mk (if true = true ∧ bd.stop = -1 then len else bd.stop) _ _)
    by_cases hstop : bd.stop = -1
    · rw [if_neg (not_not.mpr hstop), if_pos ⟨rfl, hstop⟩]
      rfl
    · rw [if_pos hstop, if_neg fun h => hstop h.2]
      rfl
  | cons b rest ih =>
    have hb : b.1.Holds b.2 := hbehind.holds b (List.mem_cons_self ..)
    obtain ⟨bd', hfills, hblocks, hstop, hstopCRC, htotal, hheader, hcrc⟩ :=
      fills_startBlock { bd with blocks := rest.map Prod.fst } len hb hcopies
    have hbehind' : Behind bd' rest :=
      ⟨hblocks, fun b hb => hbehind.holds b (List.mem_cons_of_mem _ hb), hstop ▸ hbehind.stop⟩
    have hreads := hfills.reads hbehind' fun _ _ h h0 => ih h h0
    rw [hcrc, hheader, htotal, hstop, hstopCRC] at hreads
    exact hreads

/-! ### Calls -/

/-- `e` is to come. -/
def Pending (bd : Data) (e : Ending) : Prop :=
  (bd.writeCount = 0 ∧ bd.writeCopies = 0 ∧
      ∃ rest, Behind bd rest ∧ e = ending bd.stop bd.stopCRC rest bd.totalCRC) ∨
    Waiting bd e

theorem pending_start {rest : List (Block × List UInt8)} (hholds : ∀ b ∈ rest, b.1.Holds b.2)
    {stop : ℤ} (hstop : stop < 0) (stopCRC : UInt32) :
    Pending (start (rest.map Prod.fst) stop stopCRC) (ending stop stopCRC rest 0) :=
  Or.inl ⟨rfl, rfl, rest, ⟨rfl, hholds, hstop⟩, rfl⟩

theorem Pending.reads {bd : Data} {e : Ending} (h : Pending bd e) (len : ℕ) :
    Reads len e (readBunzip bd len) := by
  unfold readBunzip
  rcases h with ⟨hcount, hcopies, rest, hbehind, rfl⟩ | ⟨hcopies, text, rest, hw, hbehind, rfl⟩
  · have hneg : ¬ bd.writeCount < 0 := not_lt.mpr hcount.ge
    rw [if_neg hneg, if_neg (not_not.mpr hcopies), hbehind.blocks]
    exact reads_refill hbehind hcopies
  · have hneg : ¬ bd.writeCount < 0 := not_lt.mpr hw.count
    have hbehind' : Behind (takeCopy bd) rest := hbehind.of_same rfl rfl
    rw [if_neg hneg, if_pos hcopies, hbehind.blocks]
    have hfills : Fills len (takeCopy bd) text (fill len (takeCopy bd)) := fills hw
    have hreads := hfills.reads hbehind' fun _ _ h h0 => reads_refill h h0
    exact hreads

theorem Ended.readBunzip_eq {bd : Data} {e : Ending} (h : Ended bd e) (len : ℕ) :
    readBunzip bd len = some ⟨e.code, bd, []⟩ := by
  have hneg : bd.writeCount < 0 := h.code ▸ h.neg
  rw [readBunzip, if_pos hneg, h.code]

/-- One call after the other, with buffers of these lengths: all that they write. -/
def calls : List ℕ → Data → Option (List UInt8 × Data)
  | [], bd => some ([], bd)
  | len :: lens, bd => do
    let r ← readBunzip bd len
    let (out, bd) ← calls lens r.bd
    return (r.out ++ out, bd)

theorem Ended.calls_eq {bd : Data} {e : Ending} (h : Ended bd e) (lens : List ℕ) :
    calls lens bd = some ([], bd) := by
  induction lens with
  | nil => rfl
  | cons len lens ih =>
    rw [calls, h.readBunzip_eq]
    simp only [Option.bind_eq_bind, Option.bind_some, ih]
    rfl

/-- **However the buffers are cut**, the calls write the same text. -/
theorem calls_text {bd : Data} {e : Ending} (h : Pending bd e) (lens : List ℕ) :
    ∃ bd', calls lens bd = some (e.text.take lens.sum, bd') ∧
      (lens.sum < e.text.length → Pending bd' { e with text := e.text.drop lens.sum }) ∧
      (e.text.length ≤ lens.sum → lens ≠ [] → Ended bd' e) := by
  induction lens generalizing bd e with
  | nil => exact ⟨bd, rfl, fun _ => h, fun _ hne => absurd rfl hne⟩
  | cons len lens ih =>
    rw [calls, List.sum_cons]
    rcases h.reads len with ⟨hlt, bd', hread, hw⟩ | ⟨hle, bd', hread, hend⟩
    · obtain ⟨bd'', hcalls, hpending, hended⟩ := ih (Or.inr hw)
      simp only [hread, hcalls, Option.bind_eq_bind, Option.bind_some]
      dsimp only at hpending hended
      rw [List.length_drop] at hpending hended
      refine ⟨bd'', ?_, fun hlt' => ?_, fun hle' _ => ?_⟩
      · rw [← List.take_add]
        rfl
      · rw [← List.drop_drop]
        exact hpending (by omega)
      · have hne : lens ≠ [] := by
          rintro rfl
          exact absurd hle' (not_le.mpr hlt)
        have hend := hended (by omega) hne
        exact ⟨hend.code, hend.neg, hend.headerCRC, hend.totalCRC⟩
    · simp only [hread, hend.calls_eq, Option.bind_eq_bind, Option.bind_some]
      refine ⟨bd', ?_, fun hlt' => ?_, fun _ _ => hend⟩
      · rw [List.append_nil, List.take_of_length_le (Nat.le_add_right_of_le hle)]
        rfl
      · omega

/-! ### The stream -/

/-- What the loop has of a stream when it is done with it. -/
structure Pumped where
  i : ℤ
  bd : Data
  out : List UInt8

/-- Produce some output bytes, until there are no more; what is in the buffer when there is an
error is not written.  `writes` tells whether `transformer_write` can write what comes behind so many
bytes. -/
def pump (writes : ℕ → Bool) : ℕ → ℕ → Data → Option Pumped
  | 0, _, _ => none
  | fuel + 1, written, bd => do
    let r ← readBunzip bd 4096
    if r.ret < 0 then return ⟨r.ret, r.bd, []⟩
    else if 4096 - r.ret = 0 then return ⟨0, r.bd, []⟩
    else if writes written = false then return ⟨-4, r.bd, []⟩
    else
      let out := r.out.take (4096 - r.ret).toNat
      let p ← pump writes fuel (written + out.length) r.bd
      return { p with out := out ++ p.out }

/-- One "BZ..." stream: what `start_bunzip` returns for it, the blocks and what is behind them.  A
read error jumps out of `get_next_block` with its code, to the same place as `stop`. -/
structure Stream where
  started : ℤ
  blocks : List Block
  stop : ℤ
  stopCRC : UInt32

/-- What is done with one stream. -/
def pumpStream (writes : ℕ → Bool) (fuel written : ℕ) (s : Stream) : Option Pumped :=
  let bd := start s.blocks s.stop s.stopCRC
  if s.started = 0 then pump writes fuel written bd else some ⟨s.started, bd, []⟩

/-- What the loop makes of what is to come.  Only whole buffers are written before an error. -/
structure Pumps (e : Ending) (p : Pumped) : Prop where
  whole : e.whole = true → e.code = -1 → p.out = e.text ∧ p.i = if e.text = [] then 0 else -1
  broken : ¬ (e.whole = true ∧ e.code = -1) →
    p.i = e.code ∧ p.out = e.text.take ((e.text.length - 1) / 4096 * 4096)
  headerCRC : p.bd.headerCRC = e.headerCRC
  totalCRC : p.bd.totalCRC = e.totalCRC

/-- A write has failed, before all of the text is written. -/
structure Failed (writes : ℕ → Bool) (written : ℕ) (text : List UInt8) (p : Pumped) : Prop where
  i : p.i = -4
  lt : p.out.length < text.length
  write : writes (written + p.out.length) = false

theorem Failed.prepend {writes : ℕ → Bool} {written n : ℕ} {text : List UInt8} {p : Pumped}
    (h : Failed writes (written + (text.take n).length) (text.drop n) p) :
    Failed writes written text { p with out := text.take n ++ p.out } where
  i := h.i
  lt := by
    have hlt := Nat.add_lt_add_left h.lt (text.take n).length
    rwa [← List.length_append, ← List.length_append, List.take_append_drop] at hlt
  write := by
    rw [List.length_append, ← Nat.add_assoc]
    exact h.write

theorem Ended.pump_eq {bd : Data} {e : Ending} (h : Ended bd e) (writes : ℕ → Bool)
    (fuel written : ℕ) : pump writes (fuel + 1) written bd = some ⟨e.code, bd, []⟩ := by
  rw [pump, h.readBunzip_eq]
  exact if_pos h.neg

theorem Pumps.prepend {e : Ending} {p : Pumped} (hlt : 4096 < e.text.length)
    (h : Pumps { e with text := e.text.drop 4096 } p) :
    Pumps e { p with out := e.text.take 4096 ++ p.out } where
  whole hwhole hcode := by
    obtain ⟨hout, hi⟩ := h.whole hwhole hcode
    have hne : e.text ≠ [] := by
      intro hnil
      rw [hnil] at hlt
      cases hlt
    have hne' : e.text.drop 4096 ≠ [] := fun hnil => not_le.mpr hlt (List.drop_eq_nil_iff.mp hnil)
    refine ⟨?_, ?_⟩
    · change _ ++ p.out = _
      rw [hout, List.take_append_drop]
    · change p.i = _
      rw [hi, if_neg hne, if_neg hne']
  broken hbroken := by
    obtain ⟨hi, hout⟩ := h.broken hbroken
    refine ⟨hi, ?_⟩
    have hlen : 4096 + (e.text.length - 4096 - 1) / 4096 * 4096 =
        (e.text.length - 1) / 4096 * 4096 := by omega
    change _ ++ p.out = _
    rw [hout, List.length_drop, ← List.take_add, hlen]
  headerCRC := h.headerCRC
  totalCRC := h.totalCRC

theorem pump_spec {writes : ℕ → Bool} {fuel written : ℕ} {bd : Data} {e : Ending}
    (h : Pending bd e) (hfuel : e.text.length / 4096 + 1 < fuel) :
    ∃ p, pump writes fuel written bd = some p ∧ (Pumps e p ∨ Failed writes written e.text p) := by
  induction fuel generalizing bd e written with
  | zero => cases hfuel
  | succ fuel ih =>
    rw [pump]
    rcases h.reads 4096 with ⟨hlt, bd', hread, hw⟩ | ⟨hle, bd', hread, hend⟩
    · -- a whole buffer
      have hlen : (e.text.take 4096).take (4096 - 0 : ℤ).toNat = e.text.take 4096 := by
        rw [List.take_take]
        rfl
      have hret : ¬ (0 : ℤ) < 0 ∧ ¬ (4096 - 0 : ℤ) = 0 := by decide
      simp only [hread, Option.bind_eq_bind, Option.bind_some, hlen]
      rw [if_neg hret.1, if_neg hret.2]
      by_cases hwrite : writes written = false
      · rw [if_pos hwrite]
        exact ⟨_, rfl, Or.inr ⟨rfl, Nat.zero_lt_of_lt hlt, hwrite⟩⟩
      · have hfuel' : (e.text.drop 4096).length / 4096 + 1 < fuel := by
          rw [List.length_drop]
          omega
        obtain ⟨p, hpump, hpumps⟩ :=
          @ih (written + (e.text.take 4096).length) _ _ (Or.inr hw) hfuel'
        rw [if_neg hwrite, hpump]
        refine ⟨{ p with out := e.text.take 4096 ++ p.out }, rfl, ?_⟩
        rcases hpumps with hpumps | hfailed
        · exact Or.inl (hpumps.prepend hlt)
        · exact Or.inr hfailed.prepend
    · have hret : e.ret (4096 - e.text.length) =
          if e.whole = true ∧ e.code = -1 then ((4096 - e.text.length : ℕ) : ℤ) else e.code := rfl
      simp only [hread, Option.bind_eq_bind, Option.bind_some, hret]
      by_cases hwhole : e.whole = true ∧ e.code = -1
      · have hnonneg : ¬ ((4096 - e.text.length : ℕ) : ℤ) < 0 := not_lt.mpr (Int.natCast_nonneg _)
        rw [if_pos hwhole, if_neg hnonneg]
        by_cases hnil : e.text = []
        · -- nothing at all has been written by this call
          refine ⟨⟨0, bd', []⟩, ?_, Or.inl ⟨fun _ _ => ⟨hnil.symm, ?_⟩, fun h => absurd hwhole h,
            hend.headerCRC, hend.totalCRC⟩⟩
          · rw [hnil]
            rfl
          · rw [if_pos hnil]
        · have hpos : 0 < e.text.length := List.length_pos_iff.mpr hnil
          have hcount : ¬ (4096 - ((4096 - e.text.length : ℕ) : ℤ) = 0) := by omega
          have hlen : (4096 - ((4096 - e.text.length : ℕ) : ℤ)).toNat = e.text.length := by omega
          rw [if_neg hcount]
          by_cases hwrite : writes written = false
          · rw [if_pos hwrite]
            exact ⟨_, rfl, Or.inr ⟨rfl, hpos, hwrite⟩⟩
          · obtain ⟨fuel, rfl⟩ : ∃ n, fuel = n + 1 := ⟨fuel - 1, by omega⟩
            refine ⟨⟨e.code, bd', e.text⟩, ?_, Or.inl ⟨fun _ _ => ⟨rfl, ?_⟩,
              fun h => absurd hwhole h, hend.headerCRC, hend.totalCRC⟩⟩
            · rw [if_neg hwrite, hend.pump_eq, hlen, List.take_length]
              simp only [Option.bind_some, List.append_nil]
              rfl
            · rw [if_neg hnil]
              exact hwhole.2
      · -- what is in the buffer is lost
        have hlen : (e.text.length - 1) / 4096 * 4096 = 0 := by omega
        rw [if_neg hwhole, if_pos hend.neg]
        refine ⟨⟨e.code, bd', []⟩, rfl, Or.inl ⟨fun h h' => absurd ⟨h, h'⟩ hwhole,
          fun _ => ⟨rfl, ?_⟩, hend.headerCRC, hend.totalCRC⟩⟩
        rw [hlen]
        rfl

/-- More fuel makes no difference. -/
theorem pump_mono {writes : ℕ → Bool} {fuel fuel' written : ℕ} {bd : Data} {p : Pumped}
    (h : pump writes fuel written bd = some p) (hle : fuel ≤ fuel') :
    pump writes fuel' written bd = some p := by
  induction fuel generalizing fuel' written bd p with
  | zero => cases h
  | succ fuel ih =>
    obtain ⟨fuel', rfl⟩ : ∃ n, fuel' = n + 1 := ⟨fuel' - 1, by omega⟩
    rw [pump] at h ⊢
    obtain ⟨r, hread, h⟩ := Option.bind_eq_some_iff.mp h
    rw [hread]
    change (if r.ret < 0 then _ else _) = _ at h
    change (if r.ret < 0 then _ else _) = _
    split at h
    · exact (if_pos ‹_›).trans h
    rw [if_neg ‹_›]
    split at h
    · exact (if_pos ‹_›).trans h
    rw [if_neg ‹_›]
    split at h
    · exact (if_pos ‹_›).trans h
    rw [if_neg ‹_›]
    obtain ⟨p', hpump, h⟩ := Option.bind_eq_some_iff.mp h
    have hpump' := ih hpump (Nat.le_of_succ_le_succ hle)
    dsimp only
    rw [hpump']
    exact h

/-- The blocks of a stream hold texts; `get_next_block` and `start_bunzip` return what they can. -/
structure Stream.Holds (s : Stream) (rest : List (Block × List UInt8)) : Prop where
  started : s.started = 0 ∨ s.started < -1
  blocks : s.blocks = rest.map Prod.fst
  holds : ∀ b ∈ rest, b.1.Holds b.2
  stop : s.stop < 0

theorem Stream.Holds.unique {s : Stream} {rest rest' : List (Block × List UInt8)}
    (h : s.Holds rest) (h' : s.Holds rest') : rest = rest' := by
  have hall : ∀ {rest rest' : List (Block × List UInt8)}, (∀ b ∈ rest, b.1.Holds b.2) →
      (∀ b ∈ rest', b.1.Holds b.2) → rest.map Prod.fst = rest'.map Prod.fst → rest = rest' := by
    intro rest
    induction rest with
    | nil =>
      intro rest' _ _ hmap
      exact (List.map_eq_nil_iff.mp hmap.symm).symm
    | cons b rest ih =>
      intro rest' hr hr' hmap
      cases rest' with
      | nil => cases hmap
      | cons b' rest' =>
        obtain ⟨hfst, hmap⟩ := List.cons.inj hmap
        have hb := hr b (List.mem_cons_self ..)
        have hb' := hr' b' (List.mem_cons_self ..)
        rw [← hfst] at hb'
        rw [ih (fun c hc => hr c (List.mem_cons_of_mem _ hc))
          (fun c hc => hr' c (List.mem_cons_of_mem _ hc)) hmap, Prod.ext hfst (hb.unique hb')]
  exact hall h.holds h'.holds (h.blocks.symm.trans h'.blocks)

def textOf (rest : List (Block × List UInt8)) : List UInt8 := (rest.map Prod.snd).flatten

/-- The CRC of each block is the CRC of its text. -/
def Right (rest : List (Block × List UInt8)) : Prop :=
  ∀ b ∈ rest, b.1.headerCRC = ~~~ crcOf 0xffffffff b.2

/-- The CRC of the blocks together, after `totalCRC`. -/
def streamCRC (totalCRC : UInt32) (rest : List (Block × List UInt8)) : UInt32 :=
  (rest.map fun b => b.1.headerCRC).foldl addCRC totalCRC

/-- All is right with a stream. -/
structure Stream.Sound (s : Stream) (rest : List (Block × List UInt8)) : Prop where
  started : s.started = 0
  right : Right rest
  stop : s.stop = -1
  stopCRC : s.stopCRC = streamCRC 0 rest

theorem ending_of_right {rest : List (Block × List UInt8)} (h : Right rest) (stop : ℤ)
    (stopCRC totalCRC : UInt32) :
    ending stop stopCRC rest totalCRC =
      ⟨textOf rest, stop, true, stopCRC, streamCRC totalCRC rest⟩ := by
  induction rest generalizing totalCRC with
  | nil => rfl
  | cons b rest ih =>
    have hb : b.1.headerCRC = ~~~ crcOf 0xffffffff b.2 := h b (List.mem_cons_self ..)
    have hrest : Right rest := fun b' hb' => h b' (List.mem_cons_of_mem _ hb')
    rw [ending, Ending.block, if_neg (not_not.mpr hb.symm), ih hrest, ← hb]
    rfl

theorem ending_of_not_right {rest : List (Block × List UInt8)} (h : ¬ Right rest) (stop : ℤ)
    (stopCRC totalCRC : UInt32) :
    (ending stop stopCRC rest totalCRC).whole = false ∧
      (ending stop stopCRC rest totalCRC).code = -1 ∧
      (ending stop stopCRC rest totalCRC).headerCRC ≠
        (ending stop stopCRC rest totalCRC).totalCRC := by
  induction rest generalizing totalCRC with
  | nil => exact absurd (fun _ hb => absurd hb List.not_mem_nil) h
  | cons b rest ih =>
    rw [ending, Ending.block]
    by_cases hb : b.1.headerCRC = ~~~ crcOf 0xffffffff b.2
    · have hrest : ¬ Right rest := by
        intro hrest
        refine h fun b' hb' => ?_
        rcases List.mem_cons.mp hb' with rfl | hb'
        · exact hb
        · exact hrest b' hb'
      rw [if_neg (not_not.mpr hb.symm)]
      exact ih hrest _
    · rw [if_pos fun heq => hb heq.symm]
      refine ⟨rfl, rfl, ?_⟩
      exact fun heq => absurd (UInt32.left_eq_add.mp heq) (by decide)

/-- Behind a block that is not right nothing is read any more. -/
theorem length_ending_le (stop : ℤ) (stopCRC totalCRC : UInt32)
    (rest : List (Block × List UInt8)) :
    (ending stop stopCRC rest totalCRC).text.length ≤ (textOf rest).length := by
  induction rest generalizing totalCRC with
  | nil => exact le_rfl
  | cons b rest ih =>
    have htext : textOf (b :: rest) = b.2 ++ textOf rest := rfl
    rw [ending, Ending.block, htext, List.length_append]
    split
    · exact Nat.le_add_right _ _
    · dsimp only
      rw [List.length_append]
      exact Nat.add_le_add_left (ih _) _

/-- A stream that is right is written, and the next one is looked for. -/
theorem pumpStream_of_sound {writes : ℕ → Bool} {fuel : ℕ} (written : ℕ) {s : Stream}
    {rest : List (Block × List UInt8)} (h : s.Holds rest) (hsound : s.Sound rest)
    (hfuel : (textOf rest).length / 4096 + 1 < fuel) :
    ∃ p, pumpStream writes fuel written s = some p ∧
      ((¬ (p.i ≠ -1 ∧ p.i ≠ 0) ∧ p.bd.headerCRC = p.bd.totalCRC ∧ p.out = textOf rest) ∨
        Failed writes written (textOf rest) p) := by
  have hpending := pending_start h.holds h.stop s.stopCRC
  rw [ending_of_right hsound.right, ← h.blocks] at hpending
  obtain ⟨p, hpump, hpumps | hfailed⟩ := @pump_spec writes _ written _ _ hpending hfuel
  · obtain ⟨hout, hi⟩ := hpumps.whole rfl hsound.stop
    refine ⟨p, (if_pos hsound.started).trans hpump, Or.inl ⟨?_, ?_, hout⟩⟩
    · rw [hi]
      split <;> decide
    · rw [hpumps.headerCRC, hpumps.totalCRC]
      exact hsound.stopCRC
  · exact ⟨p, (if_pos hsound.started).trans hpump, Or.inr hfailed⟩

theorem pumpStream_mono {writes : ℕ → Bool} {fuel fuel' written : ℕ} {s : Stream} {p : Pumped}
    (h : pumpStream writes fuel written s = some p) (hle : fuel ≤ fuel') :
    pumpStream writes fuel' written s = some p := by
  unfold pumpStream at h ⊢
  split at h
  · exact (if_pos ‹_›).trans (pump_mono h hle)
  · exact (if_neg ‹_›).trans h

/-- One that is not right is the last one, and the result is negative, but for the one whose end is
wrong and which holds nothing. -/
theorem pumpStream_of_not_sound {writes : ℕ → Bool} {fuel : ℕ} (written : ℕ) {s : Stream}
    {rest : List (Block × List UInt8)} (h : s.Holds rest) (hsound : ¬ s.Sound rest)
    (hfuel : (textOf rest).length / 4096 + 1 < fuel) :
    ∃ p, pumpStream writes fuel written s = some p ∧
      ((p.i ≠ -1 ∧ p.i ≠ 0) ∨ p.bd.headerCRC ≠ p.bd.totalCRC) ∧
      (p.i < 0 ∨ p.i = 0 ∧ p.out = [] ∧ textOf rest = []) := by
  rcases h.started with hstarted | hstarted
  · have hpending := pending_start h.holds h.stop s.stopCRC
    rw [← h.blocks] at hpending
    have hlen := length_ending_le s.stop s.stopCRC 0 rest
    have hfuel' : (ending s.stop s.stopCRC rest 0).text.length / 4096 + 1 < fuel := by omega
    obtain ⟨p, hpump, hpumps | hfailed⟩ := @pump_spec writes _ written _ _ hpending hfuel'
    · refine ⟨p, (if_pos hstarted).trans hpump, ?_⟩
      by_cases hright : Right rest
      · have heq := ending_of_right hright s.stop s.stopCRC 0
        rw [heq] at hpumps
        by_cases hstop : s.stop = -1
        · -- the CRC at the end is wrong
          have hcrc : s.stopCRC ≠ streamCRC 0 rest :=
            fun hcrc => hsound ⟨hstarted, hright, hstop, hcrc⟩
          obtain ⟨hout, hi⟩ := hpumps.whole rfl hstop
          refine ⟨Or.inr ?_, ?_⟩
          · rw [hpumps.headerCRC, hpumps.totalCRC]
            exact hcrc
          · dsimp only at hout hi
            by_cases hnil : textOf rest = []
            · rw [if_pos hnil] at hi
              rw [hnil] at hout
              exact Or.inr ⟨hi, hout, hnil⟩
            · rw [if_neg hnil] at hi
              refine Or.inl ?_
              rw [hi]
              decide
        · obtain ⟨hi, -⟩ := hpumps.broken fun h => hstop h.2
          have hneg : p.i < 0 := hi ▸ h.stop
          exact ⟨Or.inl ⟨hi ▸ hstop, hneg.ne⟩, Or.inl hneg⟩
      · -- a block is not right
        obtain ⟨hwhole, hcode, hcrc⟩ := ending_of_not_right hright s.stop s.stopCRC 0
        have hbroken : ¬ ((ending s.stop s.stopCRC rest 0).whole = true ∧
            (ending s.stop s.stopCRC rest 0).code = -1) := by
          rw [hwhole]
          exact fun h => absurd h.1 (by decide)
        obtain ⟨hi, -⟩ := hpumps.broken hbroken
        rw [← hpumps.headerCRC, ← hpumps.totalCRC] at hcrc
        refine ⟨Or.inr hcrc, Or.inl ?_⟩
        rw [hi, hcode]
        decide
    · have hi := hfailed.i
      exact ⟨p, (if_pos hstarted).trans hpump, Or.inl (by omega), Or.inl (by omega)⟩
  · have hne : ¬ s.started = 0 := by omega
    refine ⟨_, if_neg hne, Or.inl ⟨?_, ?_⟩, Or.inl ?_⟩ <;> dsimp only <;> omega

/-! ### Squeezing runs -/

/-- The bytes of a block for a text: after four equal bytes the number of further copies is
written, of which there have been `copies`. -/
def squeeze : ℕ → ℕ → UInt8 → List UInt8 → List UInt8
  | countdown, copies, _, [] => if countdown = 1 then [UInt8.ofNat copies] else []
  | countdown, copies, previous, c :: text =>
    if countdown = 1 then
      if c = previous ∧ copies < 255 then squeeze 1 (copies + 1) previous text
      else UInt8.ofNat copies :: c :: squeeze 4 0 c text
    else c :: squeeze (if c ≠ previous then 4 else countdown - 1) 0 c text

theorem expand_squeeze {countdown copies : ℕ} (hcountdown : 0 < countdown) (hcopies : copies < 256)
    (h0 : countdown ≠ 1 → copies = 0) (previous : UInt8) (text : List UInt8) :
    expand countdown previous (squeeze countdown copies previous text) =
      List.replicate copies previous ++ text := by
  induction text generalizing countdown copies previous with
  | nil =>
    rw [squeeze]
    by_cases h1 : countdown = 1
    · subst h1
      rw [if_pos rfl, expand, if_neg (not_not.mpr rfl), UInt8.toNat_ofNat_of_lt' hcopies]
      rfl
    · rw [if_neg h1, h0 h1]
      rfl
  | cons c text ih =>
    have h4 : 0 < 4 := by decide
    have h4' : (4 : ℕ) ≠ 1 → (0 : ℕ) = 0 := fun _ => rfl
    rw [squeeze]
    by_cases h1 : countdown = 1
    · subst h1
      rw [if_pos rfl]
      by_cases hrun : c = previous ∧ copies < 255
      · -- one copy more
        obtain ⟨rfl, hlt⟩ := hrun
        rw [if_pos ⟨rfl, hlt⟩, ih Nat.one_pos (Nat.succ_lt_succ hlt) (fun h => absurd rfl h),
          List.replicate_succ', List.append_assoc]
        rfl
      · -- the count, and the next byte as the first one of a run
        have hnext : (if c ≠ previous then 4 else 5 - 1) = 4 := by split <;> rfl
        have h5 : 5 - 1 ≠ 0 := by decide
        rw [if_neg hrun, expand, if_neg (not_not.mpr rfl), UInt8.toNat_ofNat_of_lt' hcopies, expand,
          if_pos h5, hnext, ih h4 (by decide) h4']
        rfl
    · have hpos : 0 < (if c ≠ previous then 4 else countdown - 1) := by
        split <;> omega
      have hsub : countdown - 1 ≠ 0 := by omega
      rw [if_neg h1, expand, if_pos hsub, ih hpos (by decide) fun _ => rfl, h0 h1]
      rfl

/-- What `get_next_block` leaves for the block of a text, as it is before the CRC is looked at: the
sort is that of the table of its squeezed bytes. -/
def Encodes (b : Block) (text : List UInt8) : Prop :=
  let word := (squeeze 5 0 0 text).map UInt8.toNat
  b.dbufCount = word.length ∧ word.length ≤ 2 ^ 23 ∧
    (word ≠ [] → ∃ rows last, BurrowsWheeler.IsTable word rows last ∧
      ∃ orig : Fin word.length, rows orig = word ∧ b.origPtr = orig ∧
        ∃ rest, sortBlock ((List.ofFn last).map UInt32.ofNat ++ rest) (byteCounts (List.ofFn last))
          word.length = some b.dbuf)

/-- The first byte of a text is never a repetition. -/
theorem squeeze_five (previous previous' : UInt8) (text : List UInt8) :
    squeeze 5 0 previous text = squeeze 5 0 previous' text := by
  cases text with
  | nil => rfl
  | cons c text =>
    have h (p : UInt8) : (if c ≠ p then 4 else 5 - 1) = 4 := by split <;> rfl
    have h5 : ¬ (5 = 1) := by decide
    rw [squeeze, squeeze, if_neg h5, if_neg h5, h, h]

theorem expand_squeeze_five (previous : UInt8) (text : List UInt8) :
    expand 5 previous (squeeze 5 0 0 text) = text := by
  have h5 : 0 < 5 := by decide
  rw [squeeze_five 0 previous, expand_squeeze h5 (by decide) fun _ => rfl]
  rfl

theorem map_toNat_lt (bytes : List UInt8) : ∀ w ∈ bytes.map UInt8.toNat, w < 256 := by
  intro w hw
  obtain ⟨c, -, rfl⟩ := List.mem_map.mp hw
  exact c.toNat_lt

theorem Encodes.holds {b : Block} {text : List UInt8} (h : Encodes b text) : b.Holds text := by
  obtain ⟨hcount, hlen, htable⟩ := h
  by_cases hnil : (squeeze 5 0 0 text).map UInt8.toNat = []
  · have hsqueeze : squeeze 5 0 0 text = [] := List.map_eq_nil_iff.mp hnil
    refine Or.inl ⟨?_, ?_⟩
    · rw [hcount, hnil]
      rfl
    · rw [← expand_squeeze_five 0 text, hsqueeze]
      rfl
  · obtain ⟨rows, last, ht, orig, horig, hptr, rest, hsort⟩ := htable hnil
    have hbytes : ((squeeze 5 0 0 text).map UInt8.toNat).map UInt8.ofNat = squeeze 5 0 0 text := by
      rw [List.map_map]
      exact List.map_id'' (fun c => UInt8.ofNat_toNat) _
    have hwalk := walk_sortBlock (map_toNat_lt _) hlen ht horig rest
    rw [hsort, Option.bind_some, walkFrom, ← hptr, ← hcount, hbytes] at hwalk
    obtain ⟨tmp, htmp, hwalk'⟩ := Option.bind_eq_some_iff.mp hwalk
    refine Or.inr ⟨?_, tmp, _, htmp, hwalk', (expand_squeeze_five _ text).symm⟩
    rw [hcount]
    exact fun h => hnil (List.length_eq_zero_iff.mp h)

/-- Every text that is not too long has a block. -/
theorem exists_encodes (text : List UInt8) (hlen : (squeeze 5 0 0 text).length ≤ 2 ^ 23)
    (headerCRC : UInt32) : ∃ b, Encodes b text ∧ b.headerCRC = headerCRC := by
  obtain ⟨word, hword⟩ : ∃ word, word = (squeeze 5 0 0 text).map UInt8.toNat := ⟨_, rfl⟩
  have hlen' : word.length ≤ 2 ^ 23 := by rwa [hword, List.length_map]
  have hbytes : ∀ w ∈ word, w < 256 := hword ▸ map_toNat_lt _
  by_cases hnil : word = []
  · refine ⟨⟨[], 0, 0, headerCRC⟩, ⟨?_, hword ▸ hlen', fun h => absurd (hword ▸ hnil) h⟩, rfl⟩
    rw [← hword, hnil]
    rfl
  · suffices h : ∃ dbuf orig, Encodes ⟨dbuf, orig, word.length, headerCRC⟩ text by
      obtain ⟨dbuf, orig, h⟩ := h
      exact ⟨_, h, rfl⟩
    obtain ⟨orig, horig⟩ := BurrowsWheeler.exists_row_eq hnil
    choose next hnext using fun k : Fin word.length =>
      BurrowsWheeler.exists_place_eq (BurrowsWheeler.column word) k.isLt
    have hl (k : Fin word.length) : BurrowsWheeler.column word k < 256 := by
      have hmem : BurrowsWheeler.column word k ∈ BurrowsWheeler.row word k :=
        List.getLast_mem _
      rw [BurrowsWheeler.row, List.mem_rotate] at hmem
      exact hbytes _ hmem
    have hsort := @sortBlock_eq _ _ next [] hl (by omega) hnext
    refine ⟨(List.ofFn fun k => entry (BurrowsWheeler.column word k) (next k)) ++ [], orig, ?_⟩
    unfold Encodes
    rw [← hword]
    exact ⟨rfl, hlen', fun _ => ⟨_, _, BurrowsWheeler.isTable word, orig, horig, rfl, [], hsort⟩⟩

/-- **The calls undo the encoding**: whatever the lengths of the buffers, they are filled with the
texts of the blocks. -/
theorem calls_encoded (blocks : List (Block × List UInt8))
    (hencodes : ∀ b ∈ blocks, Encodes b.1 b.2) (hright : Right blocks) (stopCRC : UInt32)
    (lens : List ℕ) :
    ∃ bd, calls lens (start (blocks.map Prod.fst) (-1) stopCRC) =
      some ((textOf blocks).take lens.sum, bd) := by
  have hneg : (-1 : ℤ) < 0 := by decide
  have hpending := pending_start (fun b hb => (hencodes b hb).holds) hneg stopCRC
  rw [ending_of_right hright] at hpending
  obtain ⟨bd, hcalls, -⟩ := calls_text hpending lens
  exact ⟨bd, hcalls⟩

/-- "bananaaaaa", into buffers of 4 and of 5 bytes. -/
theorem calls_encoded_banana : ∃ b bd, calls [4, 5] (start [b] (-1) 0) =
    some ([98, 97, 110, 97, 110, 97, 97, 97, 97], bd) := by
  obtain ⟨b, hb, hcrc⟩ := exists_encodes [98, 97, 110, 97, 110, 97, 97, 97, 97, 97]
    (by decide) (~~~ crcOf 0xffffffff [98, 97, 110, 97, 110, 97, 97, 97, 97, 97])
  obtain ⟨bd, hcalls⟩ := calls_encoded
    [(b, [98, 97, 110, 97, 110, 97, 97, 97, 97, 97])]
    (fun b' hb' => List.mem_singleton.mp hb' ▸ hb)
    (fun b' hb' => List.mem_singleton.mp hb' ▸ hcrc) 0 [4, 5]
  exact ⟨b, bd, hcalls⟩

end Rustybox.Bunzip2
