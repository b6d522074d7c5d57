import Rustybox.Libbb.Crc32

/-!
# cksum

The checksum of a file: the CRC of its bytes and of the bytes of its size.

`cksum_eq`: it does not depend on how the file is read.  `cksum_ne_of_burst`: files of one size that
differ in at most 32 bits in a row have different checksums.
-/

namespace Rustybox.Coreutils

open Rustybox.Libbb

def sizeBytes (t : ℕ) : List UInt8 := if t = 0 then [] else UInt8.ofNat t :: sizeBytes (t / 256)

/-- The loop of reads, which may each give fewer than the 1024 bytes that are asked for: `pace` says
how many more than one it is from a place in the file. -/
def cksumLoop (file : List UInt8) (pace : ℕ → ℕ) (crc : UInt32) (filesize : ℕ) : UInt32 × ℕ :=
  let buf := (file.drop filesize).take (min 1024 (pace filesize + 1))
  -- Checksum filesize bytes, LSB first, and exit
  if buf = [] then (crc32BlockEndian1 crc (sizeBytes filesize) (crc32Filltable true), filesize)
  else
    cksumLoop file pace (crc32BlockEndian1 crc buf (crc32Filltable true)) (filesize + buf.length)
termination_by file.length - filesize
decreasing_by
  have hbuf : 0 < ((file.drop filesize).take (min 1024 (pace filesize + 1))).length :=
    List.length_pos_iff.mpr ‹_›
  have hlen := hbuf
  rw [List.length_take, List.length_drop] at hlen
  change file.length - (filesize + ((file.drop filesize).take _).length) < file.length - filesize
  omega

/-- What is printed for a file: the checksum and the size. -/
def cksum (file : List UInt8) (pace : ℕ → ℕ) : UInt32 × ℕ :=
  let r := cksumLoop file pace 0 0
  (~~~ r.1, r.2)

/-- The bits that are divided: those of the file, and those of its size. -/
def checkedBits (file : List UInt8) : List Bool :=
  file.flatMap highBits ++ (sizeBytes file.length).flatMap highBits

theorem crc32BlockEndian1_append (val : UInt32) (buf buf' : List UInt8) (table : List UInt32) :
    crc32BlockEndian1 val (buf ++ buf') table =
      crc32BlockEndian1 (crc32BlockEndian1 val buf table) buf' table :=
  List.foldl_append

theorem cksumLoop_eq (file : List UInt8) (pace : ℕ → ℕ) (crc : UInt32) {filesize : ℕ}
    (h : filesize ≤ file.length) :
    cksumLoop file pace crc filesize =
      (crc32BlockEndian1 crc (file.drop filesize ++ sizeBytes file.length) (crc32Filltable true),
        file.length) := by
  induction crc, filesize using cksumLoop.induct file pace with
  | case1 crc filesize buf hnil =>
    have hend : filesize = file.length := by
      have hlen := congrArg List.length hnil
      rw [List.length_take, List.length_drop, List.length_nil] at hlen
      omega
    rw [cksumLoop, if_pos hnil, hend, List.drop_length, List.nil_append]
  | case2 crc filesize buf hne ih =>
    have hbuf : buf = (file.drop filesize).take buf.length := by
      rw [List.length_take, ← List.take_eq_take_min]
    have hle : filesize + buf.length ≤ file.length := by
      have hlen : buf.length ≤ (file.drop filesize).length := List.length_take_le' _ _
      rw [List.length_drop] at hlen
      omega
    have happ := List.take_append_drop buf.length (file.drop filesize)
    rw [← hbuf, List.drop_drop] at happ
    rw [cksumLoop, if_neg hne]
    refine (ih hle).trans ?_
    rw [← crc32BlockEndian1_append, ← List.append_assoc, happ]

/-- **The checksum is the remainder of the file and its size**, however the file is read. -/
theorem cksum_eq (file : List UInt8) (pace : ℕ → ℕ) :
    (cksum file pace).1.toBitVec = ~~~ Crc.bits poly 0 (checkedBits file) ∧
      (cksum file pace).2 = file.length := by
  have hloop := cksumLoop_eq file pace 0 (Nat.zero_le _)
  rw [List.drop_zero] at hloop
  unfold cksum
  rw [hloop]
  refine ⟨?_, rfl⟩
  rw [UInt32.toBitVec_not, crc32BlockEndian1_eq, List.flatMap_append]
  rfl

/-- **A burst of errors is found.** -/
theorem cksum_ne_of_burst {file file' : List UInt8} (pace pace' : ℕ → ℕ)
    {pre as bs post : List Bool} (h : file.flatMap highBits = pre ++ as ++ post)
    (h' : file'.flatMap highBits = pre ++ bs ++ post) (hlen : as.length = bs.length)
    (h32 : as.length ≤ 32) (hne : as ≠ bs) :
    (cksum file pace).1 ≠ (cksum file' pace').1 := by
  have hbits (l : List UInt8) : (l.flatMap highBits).length = 8 * l.length := by
    induction l with
    | nil => rfl
    | cons b l ih =>
      rw [List.flatMap_cons, List.length_append, length_highBits, ih, List.length_cons]
      omega
  have hsize : file.length = file'.length := by
    have hfile := hbits file
    have hfile' := hbits file'
    rw [h] at hfile
    rw [h'] at hfile'
    simp only [List.length_append] at hfile hfile'
    omega
  have hchecked : checkedBits file =
      pre ++ as ++ (post ++ (sizeBytes file.length).flatMap highBits) := by
    rw [checkedBits, h, List.append_assoc]
  have hchecked' : checkedBits file' =
      pre ++ bs ++ (post ++ (sizeBytes file.length).flatMap highBits) := by
    rw [checkedBits, h', hsize, List.append_assoc]
  have hodd : poly.getLsbD 0 = true := by decide
  intro heq
  have hcrc := congrArg UInt32.toBitVec heq
  rw [(cksum_eq file pace).1, (cksum_eq file' pace').1, BitVec.not_inj, hchecked, hchecked'] at hcrc
  exact Crc.bits_ne_of_burst hodd hlen h32 hne pre _ hcrc

/-- One bit of one byte. -/
theorem cksum_ne_of_burst_one :
    (cksum [0x41] fun _ => 0).1 ≠ (cksum [0x40] fun _ => 7).1 := by
  have h : [0x41].flatMap highBits =
      [false, true, false, false, false, false, false] ++ [true] ++ [] := by decide
  have h' : [0x40].flatMap highBits =
      [false, true, false, false, false, false, false] ++ [false] ++ [] := by decide
  exact cksum_ne_of_burst (fun _ => 0) (fun _ => 7) h h' rfl (by decide) (by decide)

end Rustybox.Coreutils
