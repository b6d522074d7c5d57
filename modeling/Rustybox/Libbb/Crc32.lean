import Rustybox.Lib.Crc
import Mathlib.Data.List.Basic

/-!
# CRC-32

`crc32_filltable` and the two loops that use its table, the big-endian one of `cksum` and `bunzip2`
and the little-endian one of `gunzip`.

`crc32_blocks`: with the table they divide a byte at a time what is defined a bit at a time; the
little-endian loop does it in a mirror.
-/

namespace Rustybox.Libbb

/-- The polynomial, for both byte orders. -/
def polynomial (endian : Bool) : UInt32 := if endian then 0x4c11db7 else 0xedb88320

/-- One round of the loop over `j`. -/
def crcRound (endian : Bool) (c : UInt32) : UInt32 :=
  if endian then
    if c &&& 0x80000000 ≠ 0 then (c <<< 1) ^^^ polynomial true else c <<< 1
  else if c &&& 1 ≠ 0 then (c >>> 1) ^^^ polynomial false else c >>> 1

/-- The entry for `i`. -/
def crcEntry (endian : Bool) (i : UInt32) : UInt32 :=
  (crcRound endian)^[8] (if endian then i <<< 24 else i)

def crc32Filltable (endian : Bool) : List UInt32 :=
  (List.range 256).map fun i => crcEntry endian (UInt32.ofNat i)

def crc32BlockEndian1 (val : UInt32) (buf : List UInt8) (crcTable : List UInt32) : UInt32 :=
  buf.foldl (fun val b =>
    (val <<< 8) ^^^ crcTable.getD (((val >>> 24) ^^^ b.toUInt32).toNat) 0) val

def crc32BlockEndian0 (val : UInt32) (buf : List UInt8) (crcTable : List UInt32) : UInt32 :=
  buf.foldl (fun val b =>
    crcTable.getD ((val.toUInt8 ^^^ b).toNat) 0 ^^^ (val >>> 8)) val

/-! ### Bits -/

/-- The bits of a byte, the highest first. -/
def highBits (b : UInt8) : List Bool := List.ofFn fun i : Fin 8 => b.toBitVec.getMsbD i

/-- The bits of a byte, the lowest first. -/
def lowBits (b : UInt8) : List Bool := List.ofFn fun i : Fin 8 => b.toBitVec.getLsbD i

/-- The polynomial as the bits below the highest one. -/
def poly : BitVec 32 := 0x4c11db7#32

/-! ### The table -/

theorem and_high_ne_zero (c : UInt32) : c &&& 0x80000000 ≠ 0 ↔ c.toBitVec.msb = true := by
  have hand : (c &&& 0x80000000).toBitVec =
      if c.toBitVec.getLsbD 31 then BitVec.twoPow 32 31 else 0#32 := by
    rw [UInt32.toBitVec_and]
    exact BitVec.and_twoPow c.toBitVec 31
  rw [BitVec.msb_eq_getLsbD_last, Ne, ← UInt32.toBitVec_inj, hand]
  cases c.toBitVec.getLsbD 31 <;> decide

theorem and_one_ne_zero (c : UInt32) : c &&& 1 ≠ 0 ↔ c.toBitVec.getLsbD 0 = true := by
  have hand : (c &&& 1).toBitVec = if c.toBitVec.getLsbD 0 then BitVec.twoPow 32 0 else 0#32 := by
    rw [UInt32.toBitVec_and]
    exact BitVec.and_twoPow c.toBitVec 0
  rw [Ne, ← UInt32.toBitVec_inj, hand]
  cases c.toBitVec.getLsbD 0 <;> decide

theorem crcRound_toBitVec (c : UInt32) :
    (crcRound true c).toBitVec = Crc.bitStep poly c.toBitVec false := by
  have hshift : (c <<< 1).toBitVec = c.toBitVec <<< 1 := UInt32.toBitVec_shiftLeft ..
  unfold crcRound Crc.bitStep
  rw [if_pos rfl, Bool.bne_false]
  by_cases h : c &&& 0x80000000 ≠ 0
  · rw [if_pos h, if_pos ((and_high_ne_zero c).mp h), UInt32.toBitVec_xor, hshift]
    rfl
  · rw [if_neg h, if_neg (mt (and_high_ne_zero c).mpr h), hshift]

theorem reverse_ushiftRight (c : BitVec 32) (n : ℕ) : (c >>> n).reverse = c.reverse <<< n := by
  apply BitVec.eq_of_getMsbD_eq
  intro i hi
  rw [BitVec.getMsbD_reverse, BitVec.getLsbD_ushiftRight, BitVec.getMsbD_shiftLeft,
    BitVec.getMsbD_reverse, Nat.add_comm]

theorem reverse_xor {w : ℕ} (c d : BitVec w) : (c ^^^ d).reverse = c.reverse ^^^ d.reverse := by
  apply BitVec.eq_of_getMsbD_eq
  intro i hi
  rw [BitVec.getMsbD_xor, BitVec.getMsbD_reverse, BitVec.getMsbD_reverse, BitVec.getMsbD_reverse,
    BitVec.getLsbD_xor]

/-- The little-endian round is the other one, seen in a mirror. -/
theorem crcRound_reverse (c : UInt32) :
    (crcRound false c).toBitVec.reverse = Crc.bitStep poly c.toBitVec.reverse false := by
  have hshift : (c >>> 1).toBitVec = c.toBitVec >>> 1 := UInt32.toBitVec_shiftRight ..
  have hpoly : (polynomial false).toBitVec.reverse = poly := by decide +kernel
  have hmsb : c.toBitVec.reverse.msb = c.toBitVec.getLsbD 0 := BitVec.getMsbD_reverse
  unfold crcRound Crc.bitStep
  rw [if_neg Bool.false_ne_true, Bool.bne_false, hmsb]
  by_cases h : c &&& 1 ≠ 0
  · rw [if_pos h, if_pos ((and_one_ne_zero c).mp h), UInt32.toBitVec_xor, hshift, reverse_xor,
      reverse_ushiftRight, hpoly]
  · rw [if_neg h, if_neg (mt (and_one_ne_zero c).mpr h), hshift, reverse_ushiftRight]

theorem iterate_crcRound (n : ℕ) (c : UInt32) :
    ((crcRound true)^[n] c).toBitVec = Crc.shifts poly n c.toBitVec := by
  induction n generalizing c with
  | zero => rfl
  | succ n ih =>
    rw [Function.iterate_succ_apply, ih, crcRound_toBitVec, ← Crc.shifts_succ]

theorem iterate_crcRound_reverse (n : ℕ) (c : UInt32) :
    ((crcRound false)^[n] c).toBitVec.reverse = Crc.shifts poly n c.toBitVec.reverse := by
  induction n generalizing c with
  | zero => rfl
  | succ n ih =>
    rw [Function.iterate_succ_apply, ih, crcRound_reverse, ← Crc.shifts_succ]

theorem getD_crc32Filltable (endian : Bool) {i : ℕ} (hi : i < 256) :
    (crc32Filltable endian).getD i 0 = crcEntry endian (UInt32.ofNat i) := by
  rw [crc32Filltable, List.getD_eq_getElem?_getD, List.getElem?_map, List.getElem?_range hi]
  rfl

/-! ### Bytes -/

theorem length_highBits (b : UInt8) : (highBits b).length = 8 := List.length_ofFn

theorem length_lowBits (b : UInt8) : (lowBits b).length = 8 := List.length_ofFn

theorem getD_highBits (b : UInt8) (i : ℕ) : (highBits b).getD i false = b.toBitVec.getMsbD i := by
  rw [highBits, List.getD_eq_getElem?_getD, List.getElem?_ofFn]
  split
  · rfl
  · rename_i hi
    rw [BitVec.getMsbD_of_ge _ _ (not_lt.mp hi)]
    rfl

theorem getD_lowBits (b : UInt8) (i : ℕ) : (lowBits b).getD i false = b.toBitVec.getLsbD i := by
  rw [lowBits, List.getD_eq_getElem?_getD, List.getElem?_ofFn]
  split
  · rfl
  · rename_i hi
    rw [BitVec.getLsbD_of_ge _ _ (not_lt.mp hi)]
    rfl

/-- A byte at the top of the register. -/
def topByte (b : BitVec 8) : BitVec 32 := b.setWidth 32 <<< 24

theorem getMsbD_topByte (b : BitVec 8) (i : ℕ) : (topByte b).getMsbD i = b.getMsbD i := by
  have hle : 32 - 8 ≤ i + 24 := by omega
  have hsub : i + 24 + 8 - 32 = i := by omega
  rw [topByte, BitVec.getMsbD_shiftLeft, BitVec.getMsbD_setWidth, decide_eq_true hle,
    Bool.true_and, hsub]

theorem getLsbD_topByte (b : BitVec 8) (i : ℕ) :
    (topByte b).getLsbD i = (decide (24 ≤ i) && b.getLsbD (i - 24)) := by
  rw [topByte, BitVec.getLsbD_shiftLeft, BitVec.getLsbD_setWidth]
  by_cases h : i - 24 < 8
  · have hi : i < 32 := by omega
    have hlt : i - 24 < 32 := by omega
    rw [decide_eq_true hi, decide_eq_true hlt, Bool.true_and, Bool.true_and]
    by_cases h' : 24 ≤ i
    · rw [decide_eq_true h', decide_eq_false (not_lt.mpr h')]
      rfl
    · rw [decide_eq_false h', decide_eq_true (not_le.mp h')]
      rfl
  · rw [BitVec.getLsbD_of_ge b _ (not_lt.mp h), Bool.and_false, Bool.and_false, Bool.and_false]

/-- The register with a byte added at its top, in two parts: what the table knows, and what only
moves. -/
theorem add_topByte (c : BitVec 32) (b : BitVec 8) :
    c ^^^ topByte b = topByte (c.extractLsb' 24 8 ^^^ b) ^^^ (c <<< 8) >>> 8 := by
  apply BitVec.eq_of_getLsbD_eq
  intro i hi
  rw [BitVec.getLsbD_xor, BitVec.getLsbD_xor, getLsbD_topByte, getLsbD_topByte,
    BitVec.getLsbD_xor, BitVec.getLsbD_extractLsb', BitVec.getLsbD_ushiftRight,
    BitVec.getLsbD_shiftLeft]
  by_cases h : 24 ≤ i
  · have hi' : i - 24 < 8 := by omega
    have hi'' : ¬ 8 + i < 32 := by omega
    have hsum : 24 + (i - 24) = i := by omega
    simp [h, hi', hi'', hsum]
  · have hi'' : 8 + i < 32 := by omega
    simp [h, hi'']

theorem shifts_topByte (c : BitVec 32) (b : BitVec 8) :
    Crc.shifts poly 8 (c ^^^ topByte b) =
      c <<< 8 ^^^ Crc.shifts poly 8 (topByte (c.extractLsb' 24 8 ^^^ b)) := by
  have hlow : ∀ i < 8, ((c <<< 8) >>> 8).getMsbD i = false := by
    intro i hi
    rw [BitVec.getMsbD_ushiftRight]
    simp [hi]
  have hback : ((c <<< 8) >>> 8) <<< 8 = c <<< 8 := by
    apply BitVec.eq_of_getLsbD_eq
    intro i hi
    rw [BitVec.getLsbD_shiftLeft, BitVec.getLsbD_ushiftRight, BitVec.getLsbD_shiftLeft,
      BitVec.getLsbD_shiftLeft]
    by_cases h : i < 8
    · simp [h]
    · have hsum : 8 + (i - 8) = i := by omega
      simp [h, hsum]
  rw [add_topByte, Crc.shifts_split poly 8 _ _ hlow, hback]

theorem crcEntry_byte (x : BitVec 8) :
    (crcEntry true (UInt32.ofNat x.toNat)).toBitVec = Crc.shifts poly 8 (topByte x) := by
  have hshift : (UInt32.ofNat x.toNat <<< 24).toBitVec = x.setWidth 32 <<< 24 := by
    rw [← BitVec.ofNat_toNat]
    exact UInt32.toBitVec_shiftLeft ..
  unfold crcEntry
  rw [if_pos rfl, iterate_crcRound, hshift]
  rfl

theorem byte_step (val : UInt32) (b : UInt8) :
    ((val <<< 8) ^^^ (crc32Filltable true).getD (((val >>> 24) ^^^ b.toUInt32).toNat) 0).toBitVec =
      Crc.bits poly val.toBitVec (highBits b) := by
  have hindex : ((val >>> 24) ^^^ b.toUInt32).toBitVec =
      (val.toBitVec.extractLsb' 24 8 ^^^ b.toBitVec).setWidth 32 := by
    have hval : (val >>> 24).toBitVec = val.toBitVec >>> 24 := UInt32.toBitVec_shiftRight ..
    rw [UInt32.toBitVec_xor, hval, UInt8.toBitVec_toUInt32]
    apply BitVec.eq_of_getLsbD_eq
    intro i hi
    rw [BitVec.getLsbD_xor, BitVec.getLsbD_ushiftRight, BitVec.getLsbD_setWidth,
      BitVec.getLsbD_setWidth, BitVec.getLsbD_xor, BitVec.getLsbD_extractLsb']
    by_cases h : i < 8
    · simp [hi, h]
    · simp [h, BitVec.getLsbD_of_ge val.toBitVec (24 + i) (by omega)]
  have htoNat : ((val >>> 24) ^^^ b.toUInt32).toNat =
      (val.toBitVec.extractLsb' 24 8 ^^^ b.toBitVec).toNat := by
    have h := congrArg BitVec.toNat hindex
    rw [BitVec.toNat_setWidth, Nat.mod_eq_of_lt (by omega)] at h
    exact h
  have hval : (val <<< 8).toBitVec = val.toBitVec <<< 8 := UInt32.toBitVec_shiftLeft ..
  rw [htoNat, getD_crc32Filltable _ (BitVec.isLt _), UInt32.toBitVec_xor, crcEntry_byte, hval,
    Crc.bits_eq_shifts poly (fun i => (getMsbD_topByte _ i).trans (getD_highBits b i).symm),
    length_highBits, shifts_topByte]

/-- **The big-endian CRC, a byte at a time.** -/
theorem crc32BlockEndian1_eq (val : UInt32) (buf : List UInt8) :
    (crc32BlockEndian1 val buf (crc32Filltable true)).toBitVec =
      Crc.bits poly val.toBitVec (buf.flatMap highBits) := by
  induction buf generalizing val with
  | nil => rfl
  | cons b buf ih =>
    rw [List.flatMap_cons, Crc.bits_append, ← byte_step]
    exact ih _

/-! ### The other byte order -/

theorem reverse_setWidth (x : BitVec 8) : (x.setWidth 32).reverse = topByte x.reverse := by
  apply BitVec.eq_of_getMsbD_eq
  intro i hi
  rw [BitVec.getMsbD_reverse, getMsbD_topByte, BitVec.getMsbD_reverse, BitVec.getLsbD_setWidth,
    decide_eq_true hi, Bool.true_and]

theorem reverse_low (c : BitVec 32) : (c.setWidth 8).reverse = c.reverse.extractLsb' 24 8 := by
  apply BitVec.eq_of_getLsbD_eq
  intro i hi
  rw [BitVec.getLsbD_reverse, BitVec.getLsbD_extractLsb', BitVec.getLsbD_reverse,
    BitVec.getMsbD_eq_getLsbD, BitVec.getMsbD_eq_getLsbD, BitVec.getLsbD_setWidth]
  have hi' : 24 + i < 32 := by omega
  have hlt : 8 - 1 - i < 8 := by omega
  have hsub : 32 - 1 - (24 + i) = 8 - 1 - i := by omega
  rw [hsub, decide_eq_true hi, decide_eq_true hi', decide_eq_true hlt]

theorem crcEntry_reverse (x : BitVec 8) :
    (crcEntry false (UInt32.ofNat x.toNat)).toBitVec.reverse =
      Crc.shifts poly 8 (topByte x.reverse) := by
  have hx : (UInt32.ofNat x.toNat).toBitVec = x.setWidth 32 := BitVec.ofNat_toNat 32 x
  unfold crcEntry
  rw [if_neg Bool.false_ne_true, iterate_crcRound_reverse, hx, reverse_setWidth]

theorem byte_step_reverse (val : UInt32) (b : UInt8) :
    ((crc32Filltable false).getD ((val.toUInt8 ^^^ b).toNat) 0 ^^^ (val >>> 8)).toBitVec.reverse =
      Crc.bits poly val.toBitVec.reverse (lowBits b) := by
  have hval : (val >>> 8).toBitVec = val.toBitVec >>> 8 := UInt32.toBitVec_shiftRight ..
  have hlow : (val.toUInt8 ^^^ b).toBitVec = val.toBitVec.setWidth 8 ^^^ b.toBitVec := by
    rw [UInt8.toBitVec_xor, UInt32.toBitVec_toUInt8]
  have hbits (i : ℕ) : (topByte b.toBitVec.reverse).getMsbD i = (lowBits b).getD i false := by
    rw [getMsbD_topByte, BitVec.getMsbD_reverse, getD_lowBits]
  have htoNat : (val.toUInt8 ^^^ b).toNat = (val.toBitVec.setWidth 8 ^^^ b.toBitVec).toNat :=
    congrArg BitVec.toNat hlow
  rw [htoNat, getD_crc32Filltable _ (BitVec.isLt _), UInt32.toBitVec_xor, reverse_xor,
    crcEntry_reverse, hval, reverse_ushiftRight, reverse_xor, reverse_low,
    Crc.bits_eq_shifts poly hbits, length_lowBits, shifts_topByte, BitVec.xor_comm]

/-- **The little-endian CRC, a byte at a time.** -/
theorem crc32BlockEndian0_eq (val : UInt32) (buf : List UInt8) :
    (crc32BlockEndian0 val buf (crc32Filltable false)).toBitVec.reverse =
      Crc.bits poly val.toBitVec.reverse (buf.flatMap lowBits) := by
  induction buf generalizing val with
  | nil => rfl
  | cons b buf ih =>
    rw [List.flatMap_cons, Crc.bits_append, ← byte_step_reverse]
    exact ih _

/-- **A byte at a time is a bit at a time**, in both orders. -/
theorem crc32_blocks (val : UInt32) (buf : List UInt8) :
    (crc32BlockEndian1 val buf (crc32Filltable true)).toBitVec =
        Crc.bits poly val.toBitVec (buf.flatMap highBits) ∧
      (crc32BlockEndian0 val buf (crc32Filltable false)).toBitVec.reverse =
        Crc.bits poly val.toBitVec.reverse (buf.flatMap lowBits) :=
  ⟨crc32BlockEndian1_eq val buf, crc32BlockEndian0_eq val buf⟩

end Rustybox.Libbb
