import Rustybox.Bunzip2.Decodes
import Rustybox.Bunzip2.Unpack

/-!
# Written blocks

The bits of a block and of a stream, for any codes, any choice of them and any map of the bytes that
has those of the block.

`decodes_getNextBlock`: `get_next_block` undoes the bits of a block.  `unpackBz2Stream_pack`: a file
is unpacked to the texts of its blocks.  `exists_written`: there is a block for every text.
-/

namespace Rustybox.Bunzip2

open BitString CanonicalCode
open Rustybox.Libbb

/-! ### Blocks -/

/-- The bytes of the alphabet of a block. -/
def alphabet (used : ℕ → Bool) : List UInt8 := usedBytes used (List.range 16)

/-- The symbols of the bytes of a block. -/
def symbolsFor (used : ℕ → Bool) (last : List UInt8) : List ℕ :=
  symbolsOf (alphabet used).length (List.range 256) 0 (last.map (alphabet used).idxOf)

/-- A block that can be written: `last` is the last column. -/
structure Written (dbufSize : ℕ) where
  headerCRC : UInt32
  origPtr : ℕ
  used : ℕ → Bool
  groups : List (List ℕ)
  selectors : List ℕ
  last : List UInt8
  fits : last.length ≤ dbufSize
  origPtr_lt : origPtr < last.length
  used_last : ∀ c ∈ last, used c.toNat = true
  two_le : 2 ≤ groups.length
  le_six : groups.length ≤ 6
  lengths : ∀ lengths ∈ groups, Lengths lengths ∧ lengths.length = (alphabet used).length + 2
  codes : ∀ lengths ∈ groups, Fits lengths (extremes lengths).2
  selectors_lt : ∀ s ∈ selectors, s < groups.length
  few : selectors.length < 2 ^ 15
  enough : (symbolsFor used last).length ≤ 50 * selectors.length

variable {dbufSize : ℕ}

/-- The bits of a block, with its signature. -/
def Written.bits (b : Written dbufSize) : List Bool :=
  ofNat 24 0x314159 ++ (ofNat 24 0x265359 ++ (ofNat 32 b.headerCRC.toNat ++ ([false] ++
    (ofNat 24 b.origPtr ++ (rowsBits b.used (List.range 16) ++ (rowsUsed b.used (List.range 16) ++
      (ofNat 3 b.groups.length ++ (ofNat 15 b.selectors.length ++
        (selectorBits (List.range b.groups.length) b.selectors ++ (b.groups.flatMap lengthsBits ++
          codedBits b.groups b.selectors (symbolsFor b.used b.last)))))))))))

theorem mem_alphabet {used : ℕ → Bool} {c : UInt8} (hc : used c.toNat = true) :
    c ∈ alphabet used := by
  have hlt := c.toNat_lt
  have hsplit : 16 * (c.toNat / 16) + c.toNat % 16 = c.toNat := Nat.div_add_mod _ _
  rw [alphabet, usedBytes, List.mem_flatMap]
  refine ⟨c.toNat / 16, List.mem_range.mpr (by omega), List.mem_map.mpr ⟨c.toNat % 16, ?_, ?_⟩⟩
  · rw [List.mem_filter, List.mem_range, hsplit]
    exact ⟨Nat.mod_lt _ (by decide), hc⟩
  · rw [hsplit]
    exact UInt8.ofNat_toNat

theorem length_alphabet_le (used : ℕ → Bool) : (alphabet used).length ≤ 256 := by
  have hrow (ks : List ℕ) : (usedBytes used ks).length ≤ 16 * ks.length := by
    induction ks with
    | nil => exact le_rfl
    | cons k ks ih =>
      have hle := List.length_filter_le (fun i => used (16 * k + i)) (List.range 16)
      rw [List.length_range] at hle
      rw [usedBytes, List.flatMap_cons, List.length_append, List.length_map, List.length_cons]
      rw [usedBytes] at ih
      omega
  exact hrow (List.range 16)

section Block

variable (b : Written dbufSize) (hsize : dbufSize ≤ 900000)

theorem Written.idxOf_lt : ∀ i ∈ b.last.map (alphabet b.used).idxOf, i < (alphabet b.used).length := by
  intro i hi
  obtain ⟨c, hc, rfl⟩ := List.mem_map.mp hi
  exact List.idxOf_lt_length_of_mem (mem_alphabet (b.used_last c hc))

theorem Written.alphabet_pos : 0 < (alphabet b.used).length := by
  have hlt : 0 < b.last.length := Nat.zero_lt_of_lt b.origPtr_lt
  obtain ⟨c, hc⟩ := List.exists_mem_of_length_pos hlt
  exact List.length_pos_of_mem (mem_alphabet (b.used_last c hc))

theorem Written.range_eq :
    List.range 256 = List.range (alphabet b.used).length ++
      (List.range 256).drop (alphabet b.used).length := by
  have htake := List.take_append_drop (alphabet b.used).length (List.range 256)
  rw [List.take_range, Nat.min_eq_left (length_alphabet_le b.used)] at htake
  exact htake.symm

theorem Written.symbols_lt {s : ℕ} (hs : s ∈ symbolsFor b.used b.last) {lengths : List ℕ}
    (hlengths : lengths ∈ b.groups) : s < lengths.length := by
  rw [symbolsFor, b.range_eq] at hs
  have hle := le_of_mem_symbolsOf (List.Perm.refl _) b.idxOf_lt hs
  have hlen := (b.lengths lengths hlengths).2
  omega

include hsize

theorem Written.undoes :
    ∃ d, Undoes ⟨true, dbufSize, alphabet b.used⟩ Undoing.start (symbolsFor b.used b.last) d ∧
      Sane ⟨true, dbufSize, alphabet b.used⟩ d ∧ d.dbuf = b.last := by
  have hmtf : Undoing.start.mtfSymbol = List.range 256 := by rw [Undoing.start]
  have hdbuf : Undoing.start.dbuf = [] := by rw [Undoing.start]
  have hrunPos : Undoing.start.runPos = 0 := by rw [Undoing.start]
  have hc : Setting.Sane ⟨true, dbufSize, alphabet b.used⟩ :=
    ⟨rfl, hsize, length_alphabet_le b.used⟩
  have hle : Undoing.start.dbuf.length + 0 + (b.last.map (alphabet b.used).idxOf).length ≤ dbufSize := by
    rw [hdbuf, List.length_map, List.length_nil, Nat.zero_add]
    exact b.fits
  obtain ⟨d, hundoes, hd⟩ := @undoes_symbolsOf ⟨true, dbufSize, alphabet b.used⟩ hsize b.alphabet_pos
    _ _ _ _ _ hrunPos (hmtf.trans b.range_eq) (List.Perm.refl _) b.idxOf_lt hle
  rw [hmtf] at hundoes
  refine ⟨d, hundoes, hundoes.sane hc (sane_start _), ?_⟩
  rw [hd, hdbuf, List.map_map]
  refine (List.map_congr_left fun c hc => ?_).trans (List.map_id b.last)
  have hlt := List.idxOf_lt_length_of_mem (mem_alphabet (b.used_last c hc))
  rw [Function.comp_apply, List.getD_eq_getElem?_getD, List.getElem?_eq_getElem hlt,
    List.getElem_idxOf hlt]
  rfl

/-- The sort of a block that has been undone. -/
theorem Written.finishBlock_eq {d : Undoing} (hd : Sane ⟨true, dbufSize, alphabet b.used⟩ d)
    (hlast : d.dbuf = b.last) {old : List UInt32} (hold : old.length = dbufSize) :
    ∃ dbuf rest, dbuf.length = dbufSize ∧
      sortBlock ((b.last.map UInt8.toNat).map UInt32.ofNat ++ rest)
        (byteCounts (b.last.map UInt8.toNat)) b.last.length = some dbuf ∧
      finishBlock d old b.origPtr b.headerCRC.toNat =
        .ok ⟨dbuf, b.origPtr, b.last.length, b.headerCRC⟩ := by
  have hfine := fine_finishBlock hsize hd hold b.origPtr b.headerCRC.toNat
  have hrounds := sortRounds_eq hsize hd (old.drop d.dbuf.length)
  have horig : ¬ (d.dbuf.length ≠ 0 ∧ d.dbuf.length ≤ b.origPtr) := by
    rw [hlast]
    exact fun h => not_lt.mpr h.2 b.origPtr_lt
  unfold finishBlock at hfine ⊢
  rw [hrounds, ofFn_numbersOf] at hfine ⊢
  rw [hlast] at hfine horig ⊢
  cases hsort : sortBlock ((b.last.map UInt8.toNat).map UInt32.ofNat ++ old.drop b.last.length)
      (byteCounts (b.last.map UInt8.toNat)) b.last.length with
  | none =>
    rw [hsort] at hfine
    rcases hfine with ⟨a, ha, -⟩ | ⟨c, -, hc⟩ | hlong
    · cases ha
    · cases hc
    · cases hlong
  | some dbuf =>
    rw [hsort] at hfine
    dsimp only at hfine ⊢
    rw [if_neg horig, UInt32.ofNat_toNat] at hfine ⊢
    rcases hfine with ⟨a, ha, -, hlen⟩ | ⟨c, -, hc⟩ | hlong
    · obtain rfl := Except.ok.inj ha
      exact ⟨dbuf, _, hlen, hsort, rfl⟩
    · cases hc
    · cases hlong

/-- **A block that is written is read.** -/
theorem decodes_getNextBlock (bits : List Bool) {spare fuel : ℕ} (hspare : 20 ≤ spare)
    (hfuel : 20 ≤ fuel) {old : List UInt32} (hold : old.length = dbufSize) :
    ∃ dbuf rest, dbuf.length = dbufSize ∧
      sortBlock ((b.last.map UInt8.toNat).map UInt32.ofNat ++ rest)
        (byteCounts (b.last.map UInt8.toNat)) b.last.length = some dbuf ∧
      Decodes bits spare (getNextBlock (bitReader bits) true fuel dbufSize old) b.bits
        (.block ⟨dbuf, b.origPtr, b.last.length, b.headerCRC⟩) := by
  obtain ⟨d, hundoes, hd, hlast⟩ := b.undoes hsize
  obtain ⟨dbuf, rest, hlen, hsort, hfinish⟩ := b.finishBlock_eq hsize hd hlast hold
  refine ⟨dbuf, rest, hlen, hsort, ?_⟩
  have hspare' : 1 ≤ spare := le_trans (by decide) hspare
  have horig : b.origPtr < dbufSize := b.origPtr_lt.trans_le b.fits
  have hgroups := b.two_le
  have hgroups' := b.le_six
  have hselectors : ¬ b.selectors.length = 0 := by
    intro hzero
    have henough := b.enough
    rw [hzero, Nat.mul_zero, Nat.le_zero, List.length_eq_zero_iff] at henough
    exact hundoes.ne_nil henough
  have hlast' : ¬ (0x314159 = 0x177245 ∧ 0x265359 = 0x385090) := by decide
  have hsignature : ¬ (0x314159 ≠ 0x314159 ∨ 0x265359 ≠ 0x265359) := by decide
  have hrows : (rowsBits b.used (List.range 16)).length = 16 := by
    rw [rowsBits, List.length_map, List.length_range]
  have hrow := decodes_bits bits spare (rowsBits b.used (List.range 16)) (by omega)
  rw [hrows] at hrow
  have ht : ∀ k ∈ List.range 16, (value (rowsBits b.used (List.range 16))).testBit (15 - k) =
      (rowBits b.used k).any id := fun k hk =>
    testBit_map_range (fun k => (rowBits b.used k).any id) (List.mem_range.mp hk)
  unfold getNextBlock Written.bits
  refine (decodes_ofNat bits spare (by decide) (by decide)).bind ?_
  refine (decodes_ofNat bits spare (by decide) (by decide)).bind ?_
  refine (decodes_ofNat bits spare (by decide) b.headerCRC.toNat_lt).bind ?_
  rw [if_neg hlast', if_neg hsignature]
  unfold readBlock
  refine (decodes_bits bits spare [false] Nat.one_pos).bind ?_
  have hzero : ¬ value [false] ≠ 0 := by decide
  rw [if_neg hzero]
  have horig24 : b.origPtr < 2 ^ 24 := by omega
  refine (decodes_ofNat bits spare (by decide) horig24).bind ?_
  rw [if_neg (not_lt.mpr horig.le)]
  refine hrow.bind ?_
  refine (decodes_readSymToByte b.used _ _ ht).bind ?_
  have hgroups8 : b.groups.length < 2 ^ 3 := by omega
  have hcount : ¬ (b.groups.length < 2 ∨ b.groups.length > 6) := by omega
  refine (decodes_ofNat bits spare (by decide) hgroups8).bind ?_
  rw [if_neg hcount]
  refine (decodes_ofNat bits spare (by decide) b.few).bind ?_
  rw [if_neg hselectors]
  refine (decodes_readSelectors List.length_range fun s hs =>
    List.mem_range.mpr (b.selectors_lt s hs)).bind ?_
  refine (decodes_readGroups hspare' hfuel b.lengths).bind ?_
  refine (decodes_readSymbols hspare (fun l hl => ⟨(b.lengths l hl).1, b.codes l hl⟩)
    b.selectors_lt hundoes (fun s hs l hl => b.symbols_lt hs hl) b.enough).map ?_
  exact (Decodes.lift hfinish).bind (Decodes.pure _)

end Block

/-! ### Streams -/

/-- The bytes of a block are the last column for a text, and its CRC is that of the text. -/
def Written.For (b : Written dbufSize) (text : List UInt8) : Prop :=
  let word := (squeeze 5 0 0 text).map UInt8.toNat
  b.headerCRC = ~~~ crcOf 0xffffffff text ∧
    ∃ rows last, BurrowsWheeler.IsTable word rows last ∧ b.last.map UInt8.toNat = List.ofFn last ∧
      ∃ orig : Fin word.length, rows orig = word ∧ b.origPtr = orig

def trailerBits (crc : UInt32) : List Bool :=
  ofNat 24 0x177245 ++ (ofNat 24 0x385090 ++ ofNat 32 crc.toNat)

theorem decodes_trailer (dbufSize : ℕ) {bits : List Bool} (crc : UInt32) (checked : Bool) (fuel : ℕ)
    (old : List UInt32) :
    Decodes bits 0 (getNextBlock (bitReader bits) checked fuel dbufSize old) (trailerBits crc)
      (.last crc.toNat) := by
  unfold getNextBlock trailerBits
  refine (decodes_ofNat bits 0 (by decide) (by decide)).bind ?_
  refine (decodes_ofNat bits 0 (by decide) (by decide)).bind ?_
  refine (decodes_ofNat bits 0 (by decide) crc.toNat_lt).map ?_
  rw [if_pos ⟨rfl, rfl⟩]
  exact Decodes.pure _

/-- The block that is read for a text encodes it. -/
theorem Written.For.encodes {b : Written dbufSize} {text : List UInt8} (h : b.For text)
    (hsize : dbufSize ≤ 900000) {dbuf rest : List UInt32}
    (hsort : sortBlock ((b.last.map UInt8.toNat).map UInt32.ofNat ++ rest)
      (byteCounts (b.last.map UInt8.toNat)) b.last.length = some dbuf) :
    Encodes ⟨dbuf, b.origPtr, b.last.length, b.headerCRC⟩ text := by
  obtain ⟨-, rows, last, ht, hlast, orig, horig, hptr⟩ := h
  have hlen : b.last.length = ((squeeze 5 0 0 text).map UInt8.toNat).length := by
    rw [← List.length_map UInt8.toNat, hlast, List.length_ofFn]
  have hfits := b.fits
  rw [hlast, hlen] at hsort
  refine ⟨hlen, by omega, fun _ => ⟨rows, last, ht, orig, horig, hptr, rest, hsort⟩⟩

theorem readBlocks_written {bits : List Bool} {fuel : ℕ} (hsize : dbufSize ≤ 900000)
    (hfuel : 20 ≤ fuel) {blocks : List (Written dbufSize × List UInt8)}
    (hblocks : ∀ b ∈ blocks, b.1.For b.2) (crc : UInt32) {left : ℕ} (hleft : blocks.length < left)
    {old : List UInt32} (hold : old.length = dbufSize) {pos : ℕ} {rest : List Bool}
    (hbits : bits.drop pos = blocks.flatMap (fun b => b.1.bits) ++ (trailerBits crc ++ rest)) :
    ∃ read : List (Block × List UInt8), readBlocks (bitReader bits) true fuel dbufSize left old pos =
        .ok (read.map Prod.fst, -1, crc) ∧
      behindBlocks (bitReader bits) true fuel dbufSize left old pos =
        some (pos + (blocks.flatMap (fun b => b.1.bits) ++ trailerBits crc).length) ∧
      (∀ b ∈ read, Encodes b.1 b.2) ∧
      (∀ b ∈ read, b.1.headerCRC = ~~~ crcOf 0xffffffff b.2) ∧
      read.map Prod.snd = blocks.map Prod.snd ∧
      (read.map fun b => b.1.headerCRC) = blocks.map fun b => b.1.headerCRC := by
  induction blocks generalizing left old pos with
  | nil =>
    obtain ⟨left, rfl⟩ : ∃ m, left = m + 1 := ⟨left - 1, by omega⟩
    have hread := decodes_trailer dbufSize crc true fuel old pos rest hbits
      (Nat.zero_le _)
    rw [readBlocks, behindBlocks, hread]
    refine ⟨[], ?_, rfl, fun _ hb => absurd hb List.not_mem_nil,
      fun _ hb => absurd hb List.not_mem_nil, rfl, rfl⟩
    dsimp only
    rw [UInt32.ofNat_toNat]
    rfl
  | cons b blocks ih =>
    obtain ⟨left, rfl⟩ : ∃ m, left = m + 1 := ⟨left - 1, by omega⟩
    obtain ⟨b, text⟩ := b
    have hb := hblocks (b, text) (List.mem_cons_self ..)
    rw [List.flatMap_cons, List.append_assoc] at hbits
    obtain ⟨dbuf, rest', hlen, hsort, hdec⟩ :=
      decodes_getNextBlock b hsize bits (le_refl 20) hfuel hold
    have hspare : 20 ≤ (blocks.flatMap (fun b => b.1.bits) ++ (trailerBits crc ++ rest)).length := by
      simp only [trailerBits, List.length_append, length_ofNat]
      omega
    have hread := hdec pos _ hbits hspare
    rw [readBlocks, behindBlocks, hread]
    dsimp only
    obtain ⟨read, hrun, hbehind, hencodes, hright, htexts, hcrcs⟩ :=
      ih (fun b' hb' => hblocks b' (List.mem_cons_of_mem _ hb')) (Nat.lt_of_succ_lt_succ hleft) hlen
        (drop_append hbits)
    rw [hrun, hbehind]
    refine ⟨(⟨dbuf, b.origPtr, b.last.length, b.headerCRC⟩, text) :: read, rfl, ?_,
      fun b' hb' => ?_, fun b' hb' => ?_, ?_, ?_⟩
    · rw [List.flatMap_cons, List.append_assoc, @List.length_append _ b.bits, Nat.add_assoc]
    · rcases List.mem_cons.mp hb' with rfl | hb'
      · exact hb.encodes hsize hsort
      · exact hencodes b' hb'
    · rcases List.mem_cons.mp hb' with rfl | hb'
      · exact hb.1
      · exact hright b' hb'
    · rw [List.map_cons, List.map_cons, htexts]
    · rw [List.map_cons, List.map_cons, hcrcs]

/-! ### Every text -/

theorem length_usedBytes (ks : List ℕ) : (usedBytes (fun _ => true) ks).length = 16 * ks.length := by
  induction ks with
  | nil => rfl
  | cons k ks ih =>
    have hrow : ((List.range 16).filter fun _ => true).length = 16 := rfl
    rw [usedBytes, List.flatMap_cons, List.length_append, List.length_map, hrow, List.length_cons]
    rw [usedBytes] at ih
    rw [ih, Nat.mul_succ, Nat.add_comm]

/-- All codes may have nine bits. -/
theorem nine_bits : Lengths (List.replicate 258 9) ∧
    Fits (List.replicate 258 9) (extremes (List.replicate 258 9)).2 := by
  have hall : ∀ l ∈ List.replicate 258 9, l = 9 := fun l hl => (List.mem_replicate.mp hl).2
  have hne : List.replicate 258 9 ≠ [] := by
    intro h
    have hlen := congrArg List.length h
    rw [List.length_replicate] at hlen
    cases hlen
  have hmax : (extremes (List.replicate 258 9)).2 = 9 := hall _ (extremes_le hne).2.2
  refine ⟨⟨hne, ?_, fun l hl => ?_, fun l hl => ?_⟩, ?_⟩
  · rw [List.length_replicate]
  · rw [hall l hl]
    decide
  · rw [hall l hl]
    decide
  · have hfirst := firstCode_eq_zero (fun l hl => (hall l hl).ge) (le_refl 9)
    rw [hmax, Fits, hfirst, List.count_replicate_self]
    decide

/-- There is a block for every text that is not too long. -/
theorem exists_written (hsize : dbufSize ≤ 900000) {text : List UInt8} (hne : text ≠ [])
    (hlen : (squeeze 5 0 0 text).length ≤ dbufSize) : ∃ b : Written dbufSize, b.For text := by
  obtain ⟨word, hword⟩ : ∃ word, word = (squeeze 5 0 0 text).map UInt8.toNat := ⟨_, rfl⟩
  have hbytes : ∀ w ∈ word, w < 256 := hword ▸ map_toNat_lt _
  have hnil : word ≠ [] := by
    obtain ⟨c, text, rfl⟩ := List.exists_cons_of_ne_nil hne
    rw [hword, squeeze]
    exact List.cons_ne_nil _ _
  obtain ⟨orig, horig⟩ := BurrowsWheeler.exists_row_eq hnil
  obtain ⟨last, hlast⟩ : ∃ last, last = (List.ofFn (BurrowsWheeler.column word)).map UInt8.ofNat :=
    ⟨_, rfl⟩
  have hnumbers : last.map UInt8.toNat = List.ofFn (BurrowsWheeler.column word) := by
    rw [hlast, List.map_map]
    refine (List.map_congr_left fun c hc => ?_).trans (List.map_id _)
    obtain ⟨k, rfl⟩ := List.mem_ofFn.mp hc
    have hmem : BurrowsWheeler.column word k ∈ BurrowsWheeler.row word k := List.getLast_mem _
    rw [BurrowsWheeler.row, List.mem_rotate] at hmem
    exact UInt8.toNat_ofNat_of_lt' (hbytes _ hmem)
  have hlength : last.length = word.length := by
    rw [hlast, List.length_map, List.length_ofFn]
  have hfits : last.length ≤ dbufSize := by
    rw [hlength, hword, List.length_map]
    exact hlen
  have horig_lt : (orig : ℕ) < last.length := by
    rw [hlength]
    exact orig.isLt
  have halphabet : (alphabet fun _ => true).length = 256 := length_usedBytes _
  obtain ⟨n, hn⟩ : ∃ n, n = ((symbolsFor (fun _ => true) last).length + 49) / 50 := ⟨_, rfl⟩
  have hsymbols : (symbolsFor (fun _ => true) last).length ≤ last.length + 1 := by
    have hle := length_symbolsOf_le (alphabet fun _ => true).length (List.range 256) 0
      (last.map (alphabet fun _ => true).idxOf)
    rwa [List.length_map, Nat.zero_add] at hle
  refine ⟨⟨~~~ crcOf 0xffffffff text, orig, fun _ => true,
    List.replicate 2 (List.replicate 258 9), List.replicate n 0, last, hfits, horig_lt,
    fun _ _ => rfl, ?_, ?_, fun l hl => ?_, fun l hl => ?_, fun k hk => ?_, ?_, ?_⟩, rfl, ?_⟩
  · exact le_rfl
  · decide
  · rw [(List.mem_replicate.mp hl).2, halphabet, List.length_replicate]
    exact ⟨nine_bits.1, rfl⟩
  · rw [(List.mem_replicate.mp hl).2]
    exact nine_bits.2
  · rw [(List.mem_replicate.mp hk).2, List.length_replicate]
    decide
  · rw [List.length_replicate]
    omega
  · rw [List.length_replicate]
    omega
  · rw [← hword]
    exact ⟨_, _, BurrowsWheeler.isTable word, hnumbers, orig, horig, rfl⟩

/-- The bits of a stream, behind the signature of the file; the CRC at the end is that of the
blocks. -/
def streamBits (level : ℕ) (blocks : List (Written dbufSize)) : List Bool :=
  ofNat 16 (26672 + level) ++ (blocks.flatMap Written.bits ++
    trailerBits ((blocks.map Written.headerCRC).foldl addCRC 0))

theorem length_le_flatMap (blocks : List (Written dbufSize)) :
    blocks.length ≤ (blocks.flatMap Written.bits).length := by
  induction blocks with
  | nil => exact Nat.zero_le _
  | cons b blocks ih =>
    have hbits : 1 ≤ b.bits.length := by
      rw [Written.bits, List.length_append, length_ofNat]
      omega
    rw [List.flatMap_cons, List.length_append, List.length_cons]
    omega

theorem decodes_startBunzip {bits : List Bool} {level : ℕ} (hlevel : 1 ≤ level ∧ level ≤ 9) :
    Decodes bits 0 (startBunzip (bitReader bits)) (ofNat 16 (26672 + level)) (100000 * level) := by
  have hlt : 26672 + level < 2 ^ 16 := by omega
  have hin : ¬ (26672 + level < 26672 + 1 ∨ 26672 + 1 + 9 ≤ 26672 + level) := by omega
  refine (decodes_ofNat bits 0 (by decide) hlt).map ?_
  rw [if_neg hin, Nat.add_sub_cancel_left]
  exact Decodes.pure _

theorem readStream_written {bits : List Bool} {level fuel : ℕ} (hlevel : 1 ≤ level ∧ level ≤ 9)
    {blocks : List (Written (100000 * level) × List UInt8)} (hblocks : ∀ b ∈ blocks, b.1.For b.2)
    {rest : List Bool} (hbits : bits = streamBits level (blocks.map Prod.fst) ++ rest)
    (hfuel : bits.length < fuel) {old : ℕ → List UInt32} (hold : ∀ n, (old n).length = n) :
    ∃ s read, readStream (bitReader bits) true fuel old 0 = .ok s ∧
      behindStream (bitReader bits) true fuel old 0 =
        some (streamBits level (blocks.map Prod.fst)).length ∧
      s.Holds read ∧ s.Sound read ∧ textOf read = (blocks.map Prod.snd).flatten := by
  obtain ⟨crc, hcrc⟩ : ∃ crc, crc = ((blocks.map Prod.fst).map Written.headerCRC).foldl addCRC 0 :=
    ⟨_, rfl⟩
  have hflat : (blocks.map Prod.fst).flatMap Written.bits = blocks.flatMap fun b => b.1.bits :=
    List.flatMap_map ..
  have hmany := length_le_flatMap (blocks.map Prod.fst)
  rw [streamBits, ← hcrc]
  rw [streamBits, ← hcrc, List.append_assoc, List.append_assoc] at hbits
  have hlen : 80 + blocks.length ≤ bits.length := by
    rw [List.length_map] at hmany
    rw [hbits]
    simp only [trailerBits, List.length_append, length_ofNat]
    omega
  rw [hflat] at hbits ⊢
  have hstart := decodes_startBunzip hlevel 0 _ hbits (Nat.zero_le _)
  have hdrop : bits.drop (0 + (ofNat 16 (26672 + level)).length) = _ := drop_append hbits
  have hsize : 100000 * level ≤ 900000 := by omega
  have hfuel' : 20 ≤ fuel := by omega
  have hleft : blocks.length < fuel := by omega
  obtain ⟨read, hrun, hbehind, hencodes, hright, htexts, hcrcs⟩ :=
    readBlocks_written hsize hfuel' hblocks crc hleft (hold _) hdrop
  unfold readStream behindStream
  rw [hstart]
  dsimp only
  rw [hrun, hbehind, Nat.zero_add, ← List.length_append]
  have hneg : (-1 : ℤ) < 0 := by decide
  refine ⟨_, read, rfl, rfl, ⟨Or.inl rfl, rfl, fun b hb => (hencodes b hb).holds, hneg⟩,
    ⟨rfl, hright, rfl, ?_⟩, ?_⟩
  · change crc = streamCRC 0 read
    rw [streamCRC, hcrcs, hcrc, List.map_map]
    rfl
  · rw [textOf, htexts]

/-! ### Bytes -/

/-- Bits as bytes, with zeros behind them. -/
def pack : List Bool → List UInt8
  | [] => []
  | b :: bits =>
    UInt8.ofNat (value (((b :: bits) ++ List.replicate 8 false).take 8)) :: pack (bits.drop 7)
termination_by bits => bits.length
decreasing_by
  rw [List.length_drop, List.length_cons]
  omega

theorem highBits_ofNat (bits : List Bool) (hlen : bits.length = 8) :
    highBits (UInt8.ofNat (value bits)) = bits := by
  have hlt := value_lt bits
  rw [hlen] at hlt
  apply eq_of_value_eq
  · rw [length_highBits, hlen]
  · rw [value_highBits, UInt8.toNat_ofNat_of_lt' hlt]

theorem exists_bits_pack (bits : List Bool) :
    ∃ rest, (pack bits).flatMap highBits = bits ++ rest ∧ rest.length < 8 := by
  induction hm : bits.length using Nat.strong_induction_on generalizing bits with
  | _ m ih =>
    subst hm
    cases bits with
    | nil =>
      rw [pack]
      exact ⟨[], rfl, by decide⟩
    | cons b bits =>
      have hlt : (bits.drop 7).length < (b :: bits).length := by
        rw [List.length_drop, List.length_cons]
        omega
      obtain ⟨rest, hrest, hlt8⟩ := ih _ hlt (bits.drop 7) rfl
      have hlen : (((b :: bits) ++ List.replicate 8 false).take 8).length = 8 := by
        rw [List.length_take, List.length_append, List.length_replicate]
        exact Nat.min_eq_left (Nat.le_add_left 8 _)
      have hdrop : bits.drop 7 = (b :: bits).drop 8 := rfl
      rcases Nat.le_total 8 (b :: bits).length with h | h
      · refine ⟨rest, ?_, hlt8⟩
        rw [pack, List.flatMap_cons, hrest, highBits_ofNat _ hlen, hdrop, List.take_append,
          Nat.sub_eq_zero_of_le h, List.take_zero, List.append_nil, ← List.append_assoc,
          List.take_append_drop]
      · -- the last byte
        have hnil : bits.drop 7 = [] := hdrop.trans (List.drop_of_length_le h)
        refine ⟨(List.replicate 8 false).take (8 - (b :: bits).length), ?_, ?_⟩
        · rw [pack, List.flatMap_cons, highBits_ofNat _ hlen, hnil, pack, List.take_append,
            List.take_of_length_le h]
          exact List.append_nil _
        · rw [List.length_take, List.length_replicate, List.length_cons]
          omega

theorem behindInput_pack {word rest : List Bool} {tail : List UInt8} {fuel : ℕ}
    {old : ℕ → List UInt32} {input : Input} (hfuel : input.bits.length < fuel)
    (hbits : input.bits = word ++ (rest ++ tail.flatMap highBits)) (hrest : rest.length < 8)
    (hbehind : behindStream (bitReader input.bits) true fuel old 0 = some word.length) {s : Stream}
    (hread : readStream (bitReader input.bits) true fuel old 0 = .ok s) :
    ∃ behind, behindInput false fuel old input = some behind ∧ behind.bytes = tail := by
  have htested : Tested True false true := Or.inr ⟨trivial, rfl, rfl⟩
  rcases behindInput_agree htested old hfuel with hrel | ⟨-, hlong⟩
  · rw [hbehind] at hrel
    obtain ⟨behind, hsome, cur, hdrop, hcur⟩ := exists_of_rel_some hrel
    refine ⟨behind, hsome, eq_of_flatMap_highBits_eq ?_⟩
    rw [hbits, List.drop_left] at hdrop
    -- both are whole bytes, and less than a byte is before them
    have hlen := congrArg List.length hdrop
    rw [List.length_append, List.length_append, length_flatMap_highBits, Input.length_bits] at hlen
    exact (List.append_inj_right hdrop (by omega)).symm
  · rw [hread] at hlong
    cases hlong

/-- **A file that is written is unpacked** to the texts of its blocks, however it is read and
whatever is behind it, but for another "BZ". -/
theorem unpackBz2Stream_pack {level fuel : ℕ} (hlevel : 1 ≤ level ∧ level ≤ 9)
    {blocks : List (Written (100000 * level) × List UInt8)} (hblocks : ∀ b ∈ blocks, b.1.For b.2)
    {input : Input} {tail : List UInt8} (htail : ¬ [66, 90] <+: tail)
    (hinput : input.bytes = pack (streamBits level (blocks.map Prod.fst)) ++ tail)
    (hfuel : input.bits.length < fuel) {old : ℕ → List UInt32} (hold : ∀ n, (old n).length = n)
    {writes : ℕ → Bool} (hwrites : ∀ k, writes k = true) {fuel' : ℕ}
    (hfuel' : ((blocks.map Prod.snd).flatten).length / 4096 + 1 < fuel') :
    unpackBz2Stream writes fuel fuel' old input =
      .ok (((blocks.map Prod.snd).flatten.length : ℤ), (blocks.map Prod.snd).flatten) := by
  obtain ⟨rest, hrest, hlt8⟩ := exists_bits_pack (streamBits level (blocks.map Prod.fst))
  have hbits : input.bits =
      streamBits level (blocks.map Prod.fst) ++ (rest ++ tail.flatMap highBits) := by
    rw [Input.bits, hinput, List.flatMap_append, hrest, List.append_assoc]
  obtain ⟨s, read, hread, hbehind, hholds, hsound, htext⟩ :=
    readStream_written hlevel hblocks hbits hfuel hold
  rw [← htext] at hfuel' ⊢
  have htested : Tested True false true := Or.inr ⟨trivial, rfl, rfl⟩
  have hinput' : readInput false fuel old input = .ok s := by
    rcases readInput_agree htested old hfuel with heq | ⟨-, hlong⟩
    · exact heq.trans hread
    · rw [hread] at hlong
      cases hlong
  have hnext : nextInput fuel old input = none := by
    obtain ⟨behind, hsome, hbytes⟩ := behindInput_pack hfuel hbits hlt8 hbehind hread
    cases hmagic : behind.behindMagic with
    | none => rw [nextInput, hsome, Option.bind_some, hmagic]
    | some next =>
      have hprefix := Input.behindMagic_some hmagic
      rw [hbytes] at hprefix
      exact absurd ⟨next.bytes, hprefix.symm⟩ htail
  obtain ⟨p, hpump, ⟨hi, hcrc, hout⟩ | hfailed⟩ :=
    @pumpStream_of_sound writes _ 0 s read hholds hsound hfuel'
  · rw [unpackBz2Stream, unpackStreams_of_written hinput' hpump hi hcrc, hnext, hout]
    rfl
  · have hwrite := hfailed.write
    rw [hwrites] at hwrite
    cases hwrite

/-- "banana" in a file, the first byte of which has been read already, with zeros behind it. -/
theorem unpackBz2Stream_pack_banana : ∃ (bytes : List UInt8) (fuel : ℕ),
    unpackBz2Stream (fun _ => true) fuel 2 (fun n => List.replicate n 0)
        ⟨bytes.take 1, [bytes.drop 1 ++ [0, 0]]⟩ = .ok (6, [98, 97, 110, 97, 110, 97]) := by
  have hne : [98, 97, 110, 97, 110, 97] ≠ ([] : List UInt8) := List.cons_ne_nil _ _
  have hsize : 100000 * 1 ≤ 900000 := by decide
  obtain ⟨b, hb⟩ := exists_written hsize hne (by decide)
  obtain ⟨bytes, hbytes⟩ : ∃ bytes, bytes = pack (streamBits 1 [b]) := ⟨_, rfl⟩
  have hchunk : (!(bytes.drop 1 ++ [0, 0]).isEmpty) = true := by
    cases bytes.drop 1 <;> rfl
  have hfile : (Input.mk (bytes.take 1) [bytes.drop 1 ++ [0, 0]]).bytes =
      pack (streamBits 1 [b]) ++ [0, 0] := by
    rw [Input.bytes, List.takeWhile_cons, if_pos hchunk, List.takeWhile_nil,
      List.flatten_singleton, ← List.append_assoc, List.take_append_drop, hbytes]
  have hlevel : 1 ≤ 1 ∧ 1 ≤ 9 := by decide
  have hfuel' : 6 / 4096 + 1 < 2 := by decide
  exact ⟨bytes, _, unpackBz2Stream_pack hlevel
    (fun b' hb' => List.mem_singleton.mp hb' ▸ hb : ∀ b' ∈ [(b, [98, 97, 110, 97, 110, 97])],
      b'.1.For b'.2)
    (by decide) hfile (Nat.lt_succ_self _) (fun n => List.length_replicate) (fun _ => rfl) hfuel'⟩

end Rustybox.Bunzip2
