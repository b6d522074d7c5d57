import Rustybox.Archive.TarHeader
import Mathlib.Data.Fintype.Basic
import Mathlib.Data.List.TakeWhile
import Mathlib.Tactic.Ring

/-!
# Sizes in a tar archive

A size is read from 12 bytes as an octal number, which may have a sign, or as a binary number of
which the lowest 64 bits are kept, and it ends up in an `off_t`.  Either way it can be negative
(`toSigned_neg_iff`).  A header with such a size is not refused, and for a long name of size -1
nothing is allocated and as much as possible is read.  With any other size the buffers are large
enough (`oneHeader_sound_iff`), also in a run over many headers (`headerLoop_stays`).
-/

namespace Rustybox.Archive

open Rustybox.Rust
open Guarded (Stays)

/-! ### Negative numbers -/

/-- The 12 bytes of a size stand for a negative number: a binary one with the highest bit of the
lowest 64 set, or an octal one with a minus sign that is not 0. -/
def Negative (field : Str) : Prop :=
  if 0x80 ≤ field.headD 0 then 0x80 ≤ field.getD 4 0
  else ∃ t, (field.takeWhile (· ≠ 0)).dropWhile isSpace = 45 :: t ∧
    ∃ d ∈ t.takeWhile isOctal, d ≠ 48

/-- A binary number, the highest byte first. -/
def bigEndian (str : Str) : ℕ := str.foldl (fun v c => v * 256 + c.toNat) 0

theorem foldl_bigEndian (str : Str) (v : ℕ) :
    str.foldl (fun v c => v * 256 + c.toNat) v = v * 256 ^ str.length + bigEndian str := by
  induction str generalizing v with
  | nil => simp [bigEndian]
  | cons c str ih =>
    have hhead : bigEndian (c :: str) = c.toNat * 256 ^ str.length + bigEndian str := by
      rw [bigEndian, List.foldl_cons, ih]
      simp
    rw [List.foldl_cons, ih, hhead, List.length_cons, Nat.pow_succ']
    ring

theorem bigEndian_cons (c : UInt8) (str : Str) :
    bigEndian (c :: str) = c.toNat * 256 ^ str.length + bigEndian str := by
  rw [bigEndian, List.foldl_cons, foldl_bigEndian]
  simp

theorem bigEndian_lt (str : Str) : bigEndian str < 256 ^ str.length := by
  induction str with
  | nil => decide
  | cons c str ih =>
    have hc : c.toNat ≤ 255 := Nat.le_of_lt_succ c.toNat_lt
    have hmul : c.toNat * 256 ^ str.length ≤ 255 * 256 ^ str.length := Nat.mul_le_mul_right _ hc
    rw [bigEndian_cons, List.length_cons, Nat.pow_succ']
    omega

/-- One more byte, in 64 bits. -/
def shiftIn (v : ℕ) (c : UInt8) : ℕ := (v * 256 + c.toNat) % 2 ^ 64

theorem foldl_shiftIn_lt (str : Str) {v : ℕ} (hv : v < 2 ^ 64) : str.foldl shiftIn v < 2 ^ 64 := by
  induction str generalizing v with
  | nil => exact hv
  | cons c str ih => exact ih (Nat.mod_lt _ (Nat.two_pow_pos 64))

theorem foldl_shiftIn (str : Str) (v : ℕ) :
    str.foldl shiftIn v % 2 ^ 64 = (v * 256 ^ str.length + bigEndian str) % 2 ^ 64 := by
  induction str generalizing v with
  | nil => simp [bigEndian]
  | cons c str ih =>
    have hval : (v * 256 + c.toNat) * 256 ^ str.length + bigEndian str =
        v * 256 ^ (c :: str).length + bigEndian (c :: str) := by
      rw [bigEndian_cons, List.length_cons, Nat.pow_succ']
      ring
    rw [List.foldl_cons, ih, shiftIn, ← hval, Nat.add_mod, Nat.mod_mul_mod, ← Nat.add_mod]

theorem signExtend7_lt (c : UInt8) : signExtend7 c < 2 ^ 64 := by
  rw [signExtend7]
  split <;> omega

theorem base256_lt (field : Str) : base256 field < 2 ^ 64 :=
  foldl_shiftIn_lt field.tail (signExtend7_lt (field.headD 0))

/-- Of a size only the lowest eight bytes are kept. -/
theorem base256_size {field : Str} (hlen : field.length = 12) :
    base256 field = bigEndian (field.drop 4) := by
  have hlow : (field.drop 4).length = 8 := by
    rw [List.length_drop, hlen]
  have hlt := bigEndian_lt (field.drop 4)
  rw [hlow] at hlt
  have hdrop : field.drop 4 = field.tail.drop 3 := by
    rw [← List.drop_one, List.drop_drop]
  have hsplit : field.tail = field.tail.take 3 ++ field.drop 4 := by
    rw [hdrop, List.take_append_drop]
  have hfold : base256 field = (field.drop 4).foldl shiftIn
      ((field.tail.take 3).foldl shiftIn (signExtend7 (field.headD 0))) := by
    rw [← List.foldl_append, ← hsplit]
    rfl
  have hfirst := foldl_shiftIn_lt (field.tail.take 3) (signExtend7_lt (field.headD 0))
  have hall := foldl_shiftIn_lt (field.drop 4) hfirst
  have hmod := foldl_shiftIn (field.drop 4)
    ((field.tail.take 3).foldl shiftIn (signExtend7 (field.headD 0)))
  rw [hlow] at hmod
  rw [hfold]
  omega

/-- The sign is the highest bit of the lowest eight bytes. -/
theorem base256_neg_iff {field : Str} (hlen : field.length = 12) :
    2 ^ 63 ≤ base256 field ↔ 0x80 ≤ field.getD 4 0 := by
  rw [base256_size hlen]
  obtain ⟨c, hc⟩ : ∃ c, field[4]? = some c := ⟨_, List.getElem?_eq_getElem (by omega)⟩
  have hdrop : field.drop 4 = c :: field.drop 5 := by
    rw [← List.getElem?_eq_some_iff.mp hc |>.2]
    exact List.drop_eq_getElem_cons (by omega)
  have hlow : (field.drop 5).length = 7 := by
    rw [List.length_drop, hlen]
  have hlt := bigEndian_lt (field.drop 5)
  rw [hlow] at hlt
  rw [hdrop, bigEndian_cons, hlow, List.getD_eq_getElem?_getD, hc, Option.getD_some,
    UInt8.le_iff_toNat_le]
  show 2 ^ 63 ≤ c.toNat * 256 ^ 7 + bigEndian (field.drop 5) ↔ 128 ≤ c.toNat
  omega

/-! ### Octal numbers -/

/-- One more octal digit. -/
def shiftOctal (v : ℕ) (c : UInt8) : ℕ := v * 8 + (c.toNat - 48)

theorem isOctal_toNat {c : UInt8} (h : isOctal c = true) : 48 ≤ c.toNat ∧ c.toNat ≤ 55 := by
  rw [isOctal, Bool.and_eq_true, decide_eq_true_iff, decide_eq_true_iff] at h
  exact h

theorem foldl_shiftOctal_lt {digits : Str} (h : ∀ d ∈ digits, isOctal d = true) (v : ℕ) :
    digits.foldl shiftOctal v < (v + 1) * 8 ^ digits.length := by
  induction digits generalizing v with
  | nil => simp
  | cons d digits ih =>
    have hd := isOctal_toNat (h d List.mem_cons_self)
    have hrest := ih (fun c hc => h c (List.mem_cons_of_mem d hc)) (shiftOctal v d)
    have hstep : shiftOctal v d + 1 ≤ (v + 1) * 8 := by
      rw [shiftOctal]
      omega
    refine Nat.lt_of_lt_of_le hrest ?_
    rw [List.length_cons, Nat.pow_succ', ← Nat.mul_assoc]
    exact Nat.mul_le_mul_right _ hstep

theorem foldl_shiftOctal_ne_zero {digits : Str} (h : ∀ d ∈ digits, isOctal d = true) (v : ℕ) :
    digits.foldl shiftOctal v ≠ 0 ↔ v ≠ 0 ∨ ∃ d ∈ digits, d ≠ 48 := by
  induction digits generalizing v with
  | nil => simp
  | cons d digits ih =>
    have hd := isOctal_toNat (h d List.mem_cons_self)
    have hzero : d.toNat - 48 = 0 ↔ d = 48 := by
      rw [← UInt8.toNat_inj]
      show d.toNat - 48 = 0 ↔ d.toNat = 48
      omega
    have hstep : shiftOctal v d ≠ 0 ↔ v ≠ 0 ∨ d ≠ 48 := by
      rw [shiftOctal, Ne, Ne, Ne, ← hzero]
      omega
    rw [List.foldl_cons, ih (fun c hc => h c (List.mem_cons_of_mem d hc)), hstep, or_assoc]
    refine or_congr_right ?_
    simp

theorem octalValue_digits {t : Str} (ht : t.length ≤ 12) :
    octalValue (t.takeWhile isOctal) < 2 ^ 63 ∧
      (octalValue (t.takeWhile isOctal) ≠ 0 ↔ ∃ d ∈ t.takeWhile isOctal, d ≠ 48) := by
  have hall : ∀ d ∈ t.takeWhile isOctal, isOctal d = true := fun d hd => List.mem_takeWhile_imp hd
  have hlen : (t.takeWhile isOctal).length ≤ 12 :=
    Nat.le_trans (List.takeWhile_sublist _).length_le ht
  have hlt := foldl_shiftOctal_lt hall 0
  have hpow : 8 ^ (t.takeWhile isOctal).length ≤ 8 ^ 12 := Nat.pow_le_pow_right (by decide) hlen
  refine ⟨?_, ?_⟩
  · show (t.takeWhile isOctal).foldl shiftOctal 0 < 2 ^ 63
    omega
  · have hzero := foldl_shiftOctal_ne_zero hall 0
    rw [or_iff_right (fun h => h rfl)] at hzero
    exact hzero

theorem wrapSign_lt (minus : Bool) (v : ℕ) : wrapSign minus v < 2 ^ 64 := by
  rw [wrapSign]
  split
  · decide
  · split <;> omega

theorem strtoull8_lt (s : Str) : (strtoull8 s).1 < 2 ^ 64 := by
  rw [strtoull8]
  split
  · exact Nat.two_pow_pos 64
  · exact wrapSign_lt _ _

/-- `strtoull` makes a number with a minus sign a large one. -/
theorem strtoull8_neg_iff {s : Str} (hs : s.length ≤ 12) :
    2 ^ 63 ≤ (strtoull8 s).1 ↔
      ∃ t, s.dropWhile isSpace = 45 :: t ∧ ∃ d ∈ t.takeWhile isOctal, d ≠ 48 := by
  have hlen : (s.dropWhile isSpace).length ≤ 12 :=
    Nat.le_trans (List.dropWhile_sublist _).length_le hs
  rw [strtoull8]
  by_cases hminus : (s.dropWhile isSpace).head? = some 45
  · obtain ⟨t, ht⟩ := List.head?_eq_some_iff.mp hminus
    have hafter : afterSign (s.dropWhile isSpace) = t := by
      rw [afterSign, if_pos (Or.inl hminus), ht, List.tail_cons]
    have hiff : (∃ t', s.dropWhile isSpace = 45 :: t' ∧ ∃ d ∈ t'.takeWhile isOctal, d ≠ 48) ↔
        ∃ d ∈ t.takeWhile isOctal, d ≠ 48 := by
      rw [ht]
      simp
    rw [ht, List.length_cons] at hlen
    obtain ⟨hlt, hzero⟩ := octalValue_digits (t := t) (by omega)
    rw [hiff, ← hzero, hafter]
    by_cases hdigits : t.takeWhile isOctal = []
    · rw [if_pos hdigits, hdigits]
      have hzero : ¬ 2 ^ 63 ≤ 0 := by decide
      exact iff_of_false hzero fun h => h rfl
    · rw [if_neg hdigits]
      dsimp only
      rw [wrapSign, if_neg (by omega), if_pos (decide_eq_true hminus)]
      omega
  · have hnot : ¬ ∃ t, s.dropWhile isSpace = 45 :: t ∧ ∃ d ∈ t.takeWhile isOctal, d ≠ 48 := by
      rintro ⟨t, ht, -⟩
      exact hminus (by rw [ht]; rfl)
    have hafter : (afterSign (s.dropWhile isSpace)).length ≤ 12 := by
      rw [afterSign]
      split
      · rw [List.length_tail]
        omega
      · exact hlen
    obtain ⟨hlt, -⟩ := octalValue_digits hafter
    refine iff_of_false ?_ hnot
    split
    · show ¬ 2 ^ 63 ≤ 0
      decide
    · dsimp only
      rw [wrapSign, if_neg (by omega), if_neg (by simpa using hminus)]
      omega

/-- A byte with the highest bit set is no part of an octal number. -/
theorem marker_byte {c : UInt8} (h : 0x80 ≤ c) : c ≠ 0 ∧ isSpace c = false ∧ isOctal c = false ∧
    c ≠ 45 ∧ c ≠ 43 ∧ c ≠ 32 ∧ c &&& 0x80 ≠ 0 := by
  have hall : ∀ n : Fin 256, 0x80 ≤ UInt8.ofFin n → UInt8.ofFin n ≠ 0 ∧
      isSpace (UInt8.ofFin n) = false ∧ isOctal (UInt8.ofFin n) = false ∧ UInt8.ofFin n ≠ 45 ∧
      UInt8.ofFin n ≠ 43 ∧ UInt8.ofFin n ≠ 32 ∧ UInt8.ofFin n &&& 0x80 ≠ 0 := by
    decide +kernel
  exact hall c.toFin h

theorem not_marker_byte {c : UInt8} (h : ¬ 0x80 ≤ c) : c &&& 0x80 = 0 := by
  have hall : ∀ n : Fin 256, ¬ 0x80 ≤ UInt8.ofFin n → UInt8.ofFin n &&& 0x80 = 0 := by
    decide +kernel
  exact hall c.toFin h

theorem getOctal_binary {c : UInt8} {str : Str} (h : 0x80 ≤ c) :
    getOctal (c :: str) = some (base256 (c :: str)) := by
  obtain ⟨h0, hspace, hoctal, hminus, hplus, hblank, hbit⟩ := marker_byte h
  have hs : (c :: str).takeWhile (· ≠ 0) = c :: str.takeWhile (· ≠ 0) :=
    List.takeWhile_cons_of_pos (by simpa using h0)
  have hafter : afterSign (c :: str.takeWhile (· ≠ 0)) = c :: str.takeWhile (· ≠ 0) := by
    rw [afterSign, List.head?_cons, if_neg (by simp [hminus, hplus])]
  have hnone : strtoull8 (c :: str.takeWhile (· ≠ 0)) = (0, c :: str.takeWhile (· ≠ 0)) := by
    rw [strtoull8]
    rw [List.dropWhile_cons_of_neg (by simp [hspace]), hafter,
      List.takeWhile_cons_of_neg (by simp [hoctal]), if_pos rfl]
  rw [getOctal, hs, hnone]
  dsimp only
  rw [if_neg (by simp [hblank]), List.headD_cons, if_neg hbit]

theorem getOctal_text {c : UInt8} {str : Str} (h : ¬ 0x80 ≤ c) {v : ℕ}
    (hv : getOctal (c :: str) = some v) : v = (strtoull8 ((c :: str).takeWhile (· ≠ 0))).1 := by
  rw [getOctal] at hv
  dsimp only at hv
  split at hv
  · exact (Option.some.inj hv).symm
  · rw [List.headD_cons, if_pos (not_marker_byte h)] at hv
    cases hv

theorem getOctal_lt {field : Str} {v : ℕ} (h : getOctal field = some v) : v < 2 ^ 64 := by
  rw [getOctal] at h
  dsimp only at h
  split at h
  · rw [← Option.some.inj h]
    exact strtoull8_lt _
  · split at h
    · cases h
    · rw [← Option.some.inj h]
      exact base256_lt field

theorem toSigned_neg {v : ℕ} (h : v < 2 ^ 64) : toSigned v < 0 ↔ 2 ^ 63 ≤ v := by
  rw [toSigned]
  split <;> omega

theorem toSigned_neg_iff {field : Str} (hlen : field.length = 12) {v : ℕ}
    (hv : getOctal field = some v) : toSigned v < 0 ↔ Negative field := by
  cases field with
  | nil => cases hlen
  | cons c str =>
    rw [Negative, List.headD_cons]
    by_cases hc : 0x80 ≤ c
    · rw [getOctal_binary hc] at hv
      obtain rfl := Option.some.inj hv
      rw [if_pos hc, toSigned_neg (base256_lt _), base256_neg_iff hlen]
    · obtain rfl := getOctal_text hc hv
      have hle : ((c :: str).takeWhile (· ≠ 0)).length ≤ 12 :=
        hlen ▸ (List.takeWhile_sublist _).length_le
      rw [if_neg hc, toSigned_neg (strtoull8_lt _), strtoull8_neg_iff hle]

theorem TarHeader.size_length (tar : TarHeader) : tar.size.length = 12 := by
  rw [TarHeader.size, TarHeader.slice, List.length_take, List.length_drop, tar.length_eq]
  rfl

/-! ### Events -/

/-- The size is not negative, and the buffer has room for what is read into it and a NUL. -/
def Event.Ok : Event → Prop
  | .decoded size => 0 ≤ size
  | .filled allocated asked => asked + 1 ≤ allocated

/-- All went well: every event is all right, and no byte outside of a buffer was touched and no loop
of `process_pax_hdr` went on forever. -/
def Sound {α : Type} (x : Action α) : Prop :=
  (∀ e ∈ (x []).2, e.Ok) ∧ ∀ e, (x []).1 = .error e → ∃ msg, e = .die msg

/-- The numbers in front of the size are read, and so is the size. -/
structure TarHeader.SizeRead (tar : TarHeader) : Prop where
  sum : ∃ v, getOctal tar.chksum = some v ∧ tar.sumAgrees v = true
  device : tar.devmajor.headD 0 ≠ 0 →
    (getOctal tar.devminor).isSome ∧ (getOctal tar.devmajor).isSome
  mtime : (getOctal tar.mtime).isSome
  size : (getOctal tar.size).isSome

/-- Where another header follows, it is read from what was left of the archive. -/
def GoesOnBehind (handle : Handle) (next : Next) : Prop :=
  ∀ h align, next = .again h align → h.rest <:+ handle.rest

theorem GoesOnBehind.again {handle h : Handle} {align : Bool} (hrest : h.rest <:+ handle.rest) :
    GoesOnBehind handle (.again h align) := by
  rintro _ _ ⟨⟩
  exact hrest

def Dies (e : Stop) : Prop := ∃ msg, e = .die msg

section

/-! What is true of the events stays true when one of the `allowed` ones is noted. -/

variable {good : List Event → Prop} {allowed : Event → Prop}
  (hnote : ∀ log e, allowed e → good log → good (log ++ [e]))

theorem die_stays {α : Type} (msg : String) {S : α → Prop} : Stays good Dies (die msg) S :=
  Stays.fail ⟨msg, rfl⟩

theorem number_stays (field : Str) :
    Stays good Dies (number field) (fun v => getOctal field = some v) := by
  rw [number]
  cases h : getOctal field with
  | none => exact die_stays _
  | some v => exact Stays.pure rfl

theorem deviceOf_stays (tar : TarHeader) :
    Stays good Dies (deviceOf tar) (fun _ => tar.devmajor.headD 0 ≠ 0 →
      (getOctal tar.devminor).isSome ∧ (getOctal tar.devmajor).isSome) := by
  refine Stays.ite (fun _ => ?_) fun h => Stays.pure fun h' => absurd h' h
  refine (number_stays tar.devminor).bind fun minor hminor => ?_
  refine (number_stays tar.devmajor).bind fun major hmajor => ?_
  exact Stays.pure fun _ => ⟨by rw [hminor]; rfl, by rw [hmajor]; rfl⟩

theorem skipData_stays (size : ℤ) (handle : Handle) :
    Stays good Dies (skipData size handle) (fun next => next.rest <:+ handle.rest) :=
  Stays.ite (fun _ => die_stays _) fun _ => Stays.pure (List.drop_suffix _ _)

theorem owner_stays {α : Type} (tar : TarHeader) {f : ℕ → ℕ → ℕ → α} {S : α → Prop}
    (hf : ∀ gid uid mode, S (f gid uid mode)) :
    Stays good Dies (do
      let gid ← number tar.gid
      let uid ← number tar.uid
      let mode ← number tar.mode
      pure (f gid uid mode)) S := by
  refine (number_stays tar.gid).bind fun gid _ => ?_
  refine (number_stays tar.uid).bind fun uid _ => ?_
  refine (number_stays tar.mode).bind fun mode _ => ?_
  exact Stays.pure (hf gid uid mode)

include hnote

theorem note_stays {e : Event} (h : allowed e) :
    Stays good Dies (note e) (fun _ => True) :=
  fun log hlog => ⟨hnote log e h hlog, by rintro _ ⟨⟩, by rintro _ -; trivial⟩

theorem readInto_stays (mallocs : ℕ → Bool) {allocated asked : ℕ}
    (h : allowed (.filled allocated asked)) (handle : Handle) :
    Stays good Dies (readInto mallocs allocated asked handle)
      (fun r => (asked ≠ 2 ^ 64 - 1 → r.1.length = asked) ∧ r.2.rest <:+ handle.rest) := by
  refine Stays.ite (fun _ => die_stays _) fun _ => ?_
  refine (note_stays hnote h).bind fun _ _ => ?_
  refine Stays.ite (fun hall => Stays.pure ⟨absurd hall, List.suffix_refl _⟩) fun _ => ?_
  refine Stays.ite (fun _ => die_stays _) fun hlen => Stays.pure ⟨fun _ => ?_, List.drop_suffix _ _⟩
  rw [List.length_take]
  omega

theorem readName_stays (mallocs : ℕ → Bool) {size : ℤ}
    (h : allowed (.filled ((size + 1) % 2 ^ 64).toNat (size % 2 ^ 64).toNat)) (handle : Handle) :
    Stays good Dies (readName mallocs size handle) (fun r => r.2.rest <:+ handle.rest) :=
  (readInto_stays hnote mallocs h handle).bind fun _ hr => Stays.pure hr.2

theorem readPax_stays (mallocs : ℕ → Bool) (hpax : ∀ n, allowed (.filled (n + 1) n))
    (isGlobal : Bool) {size : ℕ} (hsize : size ≤ 0xfffff) (handle : Handle) :
    Stays good Dies (readPax mallocs isGlobal size handle) (fun next => next.rest <:+ handle.rest) := by
  refine (readInto_stays hnote mallocs (hpax _) handle).bind ?_
  rintro ⟨block, next⟩ ⟨hblock, hrest⟩
  have hle : blkSz size ≤ 0xfffff + 511 := by
    rw [blkSz]
    omega
  have hinside := processPaxHdr_inside isGlobal hsize (hblock (by omega)) 0 next.names
  refine Stays.bind (S := fun _ => True) ?_ fun _ _ => Stays.pure hrest
  cases hrun : processPaxHdr isGlobal size block 0 next.names with
  | ok names => exact Stays.pure trivial
  | error e =>
    rw [hrun] at hinside
    cases e with
    | die msg => exact die_stays msg
    | outside => cases hinside
    | spin => cases hinside

theorem afterHeader_stays (mallocs : ℕ → Bool) (hpax : ∀ n, allowed (.filled (n + 1) n))
    (tar : TarHeader) (handle : Handle) {header : FileHeader}
    (hname : allowed (.filled ((header.size + 1) % 2 ^ 64).toNat (header.size % 2 ^ 64).toNat)) :
    Stays good Dies (afterHeader mallocs tar handle header) (GoesOnBehind handle) := by
  have hread := readName_stays hnote mallocs hname handle
  refine Stays.ite (fun _ => Stays.pure nofun) fun _ => ?_
  refine Stays.ite (fun _ => hread.bind fun _ hr => Stays.pure (.again hr)) fun _ => ?_
  refine Stays.ite (fun _ => hread.bind fun _ hr => Stays.pure (.again hr)) fun _ => ?_
  refine Stays.ite (fun h => ?_) fun _ => ?_
  · exact (readPax_stays hnote mallocs hpax _ h.2 handle).bind fun _ hr => Stays.pure (.again hr)
  refine Stays.ite (fun _ => ?_) fun _ => die_stays _
  exact (skipData_stays header.size handle).bind fun _ hr => Stays.pure (.again hr)

theorem decodeRest_stays (tar : TarHeader) (names : LongNames) (device : Option (ℕ × ℕ))
    (mtime : ℕ) {size : ℕ} (h : allowed (.decoded (toSigned size))) :
    Stays good Dies (decodeRest tar names device mtime size)
      (fun header => header.size = toSigned size) :=
  (note_stays hnote h).bind fun _ _ => owner_stays tar fun _ _ _ => rfl

/-- The size is noted when all in front of it is read. -/
theorem decodeHeader_stays {tar : TarHeader} (h : ∀ v, tar.SizeRead → getOctal tar.size = some v →
    allowed (.decoded (toSigned v))) (names : LongNames) :
    Stays good Dies (decodeHeader tar names) (fun header =>
      tar.SizeRead ∧ ∃ v, getOctal tar.size = some v ∧ header.size = toSigned v) := by
  refine (number_stays tar.chksum).bind fun sum hsum => ?_
  refine Stays.ite (fun hagrees => ?_) fun _ => die_stays _
  refine (deviceOf_stays tar).bind fun device hdevice => ?_
  refine (number_stays tar.mtime).bind fun mtime hmtime => ?_
  refine (number_stays tar.size).bind fun size hsize => ?_
  have hread : tar.SizeRead :=
    ⟨⟨sum, hsum, hagrees⟩, hdevice, by rw [hmtime]; rfl, by rw [hsize]; rfl⟩
  refine (decodeRest_stays hnote tar names device mtime (h size hread hsize)).weaken ?_
  exact fun header hheader => ⟨hread, size, hsize, hheader⟩

end

/-! ### Which headers are sound -/

theorem number_run {field : Str} {v : ℕ} (h : getOctal field = some v) (log : List Event) :
    number field log = (.ok v, log) := by
  rw [number, h]
  rfl

theorem deviceOf_run {tar : TarHeader} (h : tar.SizeRead) (log : List Event) :
    ∃ device, deviceOf tar log = (.ok device, log) := by
  rw [deviceOf]
  by_cases hmajor : tar.devmajor.headD 0 ≠ 0
  · obtain ⟨hminor, hmajor'⟩ := h.device hmajor
    obtain ⟨minor, hminor⟩ := Option.isSome_iff_exists.mp hminor
    obtain ⟨major, hmajor'⟩ := Option.isSome_iff_exists.mp hmajor'
    rw [if_pos hmajor, Guarded.bind_ok (number_run hminor log),
      Guarded.bind_ok (number_run hmajor' log)]
    exact ⟨_, rfl⟩
  · rw [if_neg hmajor]
    exact ⟨none, rfl⟩

/-- A header whose numbers are read up to the size comes to the note of that. -/
theorem decodeHeader_run {tar : TarHeader} (h : tar.SizeRead) {v : ℕ}
    (hv : getOctal tar.size = some v) (names : LongNames) (log : List Event) :
    ∃ device mtime, decodeHeader tar names log = decodeRest tar names device mtime v log := by
  obtain ⟨sum, hsum, hagrees⟩ := h.sum
  obtain ⟨device, hdevice⟩ := deviceOf_run h log
  obtain ⟨mtime, hmtime⟩ := Option.isSome_iff_exists.mp h.mtime
  refine ⟨device, mtime, ?_⟩
  rw [decodeHeader, Guarded.bind_ok (number_run hsum log), if_pos hagrees, decodeFields,
    Guarded.bind_ok hdevice, Guarded.bind_ok (number_run hmtime log),
    Guarded.bind_ok (number_run hv log)]

theorem mem_stays (e : Event) (log : List Event) (e' : Event) (_ : True) (h : e ∈ log) :
    e ∈ log ++ [e'] := List.mem_append_left _ h

theorem decodeRest_notes (tar : TarHeader) (names : LongNames) (device : Option (ℕ × ℕ))
    (mtime size : ℕ) (log : List Event) :
    Event.decoded (toSigned size) ∈ (decodeRest tar names device mtime size log).2 := by
  have hnote : note (.decoded (toSigned size)) log =
      (.ok (), log ++ [.decoded (toSigned size)]) := rfl
  have hmem : Event.decoded (toSigned size) ∈ log ++ [.decoded (toSigned size)] :=
    List.mem_append_right _ List.mem_cons_self
  rw [decodeRest, Guarded.bind_ok hnote]
  have hrest : ∀ f : ℕ → ℕ → ℕ → FileHeader,
      Stays (fun log => Event.decoded (toSigned size) ∈ log) Dies _ (fun _ => True) :=
    fun f => owner_stays tar (f := f) fun _ _ _ => trivial
  exact (hrest _ _ hmem).1

section

variable (mallocs : ℕ → Bool) (tar : TarHeader) (h : Handle)

theorem afterHeader_keeps {good : List Event → Prop}
    (hnote : ∀ log e, True → good log → good (log ++ [e])) (header : FileHeader) :
    Stays good Dies (afterHeader mallocs tar h header) (fun _ => True) :=
  (afterHeader_stays hnote mallocs (fun _ => trivial) tar h trivial).weaken fun _ _ => trivial

theorem oneHeader_notes {tar : TarHeader} (hread : tar.SizeRead) {v : ℕ}
    (hv : getOctal tar.size = some v) (log : List Event) :
    Event.decoded (toSigned v) ∈ (oneHeader mallocs tar h log).2 := by
  obtain ⟨device, mtime, hrun⟩ := decodeHeader_run hread hv h.names log
  have hmem := decodeRest_notes tar h.names device mtime v log
  rw [← hrun] at hmem
  rw [oneHeader]
  cases hdecode : decodeHeader tar h.names log with
  | mk r log' =>
    rw [hdecode] at hmem
    cases r with
    | error e =>
      rw [Guarded.bind_error hdecode]
      exact hmem
    | ok header =>
      rw [Guarded.bind_ok hdecode]
      exact (afterHeader_keeps mallocs tar h (mem_stays (.decoded (toSigned v))) header log' hmem).1

/-- A size that is not negative leaves room for one more in 64 bits. -/
theorem filled_ok {v : ℕ} (hlt : v < 2 ^ 64) (h : 0 ≤ toSigned v) :
    Event.Ok (.filled ((toSigned v + 1) % 2 ^ 64).toNat (toSigned v % 2 ^ 64).toNat) := by
  have hsmall : v < 2 ^ 63 := by
    have hneg := toSigned_neg hlt
    omega
  have hval : toSigned v = v := if_pos hsmall
  rw [Event.Ok, hval]
  omega

theorem oneHeader_stays {tar : TarHeader} (hsize : ¬ (tar.SizeRead ∧ Negative tar.size)) :
    Stays (fun log => ∀ e ∈ log, e.Ok) Dies (oneHeader mallocs tar h) (GoesOnBehind h) := by
  have hnote : ∀ (log : List Event) e, e.Ok → (∀ e ∈ log, e.Ok) → ∀ e' ∈ log ++ [e], e'.Ok := by
    intro log e he hlog e' he'
    rcases List.mem_append.mp he' with he' | he'
    · exact hlog e' he'
    · rw [List.mem_singleton.mp he']
      exact he
  have hnonneg : ∀ v, tar.SizeRead → getOctal tar.size = some v → 0 ≤ toSigned v := by
    intro v hread hv
    refine Int.not_lt.mp fun hneg => hsize ⟨hread, ?_⟩
    exact (toSigned_neg_iff tar.size_length hv).mp hneg
  refine (decodeHeader_stays hnote (fun v hread hv => hnonneg v hread hv) h.names).bind ?_
  rintro header ⟨hread, v, hv, hheader⟩
  refine afterHeader_stays hnote mallocs (fun n => Nat.le_refl _) tar h ?_
  rw [hheader]
  exact filled_ok (getOctal_lt hv) (hnonneg v hread hv)

/-- A header goes well unless its size is read and is negative. -/
theorem oneHeader_sound_iff :
    Sound (oneHeader mallocs tar h) ↔ ¬ (tar.SizeRead ∧ Negative tar.size) := by
  constructor
  · rintro ⟨hlog, -⟩ ⟨hread, hneg⟩
    obtain ⟨v, hv⟩ := Option.isSome_iff_exists.mp hread.size
    have hnonneg : 0 ≤ toSigned v := hlog _ (oneHeader_notes mallocs h hread hv [])
    have hlt := (toSigned_neg_iff tar.size_length hv).mpr hneg
    omega
  · intro hsize
    obtain ⟨hlog, hfail, -⟩ := oneHeader_stays mallocs h hsize [] (by simp)
    exact ⟨hlog, hfail⟩

end

/-- The header of a long name with -1 as its size. -/
def minusOne : TarHeader where
  block := bytes "././@LongLink" ++ List.replicate 87 0 ++ bytes "0000644" ++ [0] ++
    bytes "0000000" ++ [0] ++ bytes "0000000" ++ [0] ++ List.replicate 12 255 ++
    bytes "00000000000" ++ [0] ++ bytes "0014725" ++ [0] ++ bytes "L" ++ List.replicate 100 0 ++
    bytes "ustar  " ++ List.replicate 248 0
  length_eq := by decide +kernel

/-- The checksum of the header agrees, and all of memory is to be filled with the archive. -/
theorem oneHeader_minusOne : (getOctal minusOne.chksum).any minusOne.sumAgrees = true ∧
    ¬ Sound (oneHeader (fun _ => true) minusOne ⟨⟨none, none⟩, false, 512, bytes "name"⟩) := by
  have hlog : (oneHeader (fun _ => true) minusOne ⟨⟨none, none⟩, false, 512, bytes "name"⟩ []).2 =
      [.decoded (-1), .filled 0 (2 ^ 64 - 1)] := by decide +kernel
  refine ⟨by decide +kernel, fun h => ?_⟩
  have hfilled := h.1 (.filled 0 (2 ^ 64 - 1)) (by rw [hlog]; simp)
  cases hfilled

/-! ### Runs over many headers -/

/-- No 512 bytes of the archive are a header whose size is read and is negative. -/
def NoNegative (archive : Str) : Prop :=
  ∀ block, block <:+: archive → ∀ tar : TarHeader, tar.block = block →
    ¬ (tar.SizeRead ∧ Negative tar.size)

theorem NoNegative.suffix {s t : Str} (h : NoNegative s) (ht : t <:+ s) : NoNegative t :=
  fun block hblock => h block (hblock.trans ht.isInfix)

/-- **In an archive without negative sizes all headers are sound.**  The loops over the headers keep
every size and every buffer as they should be, also in an archive that is unpacked on the way, and
end with an error message, or have more headers to read than there is fuel for. -/
theorem headerLoop_stays (mallocs : ℕ → Bool) {unzip : Handle → Option Str}
    (hunzip : ∀ h s, unzip h = some s → NoNegative s) (fuel : ℕ) (align : Bool) {h : Handle}
    (hrest : NoNegative h.rest) :
    Stays (fun log => ∀ e ∈ log, e.Ok) (fun e => Dies e ∨ e = .spin)
      (headerLoop mallocs unzip fuel align h) (fun _ => True) := by
  induction fuel generalizing align h with
  | zero => exact Stays.fail (.inr rfl)
  | succ fuel ih =>
    have hdie : ∀ msg, Stays (fun log => ∀ e ∈ log, e.Ok) (fun e => Dies e ∨ e = .spin)
        (die msg : Action Result) (fun _ => True) := fun msg => Stays.fail (.inl ⟨msg, rfl⟩)
    have haligned : (if align then dataAlign h else h).rest <:+ h.rest := by
      split
      · exact List.drop_suffix _ _
      · exact List.suffix_refl _
    have hclean := hrest.suffix haligned
    rw [headerLoop]
    dsimp only
    generalize (if align then dataAlign h else h) = h at hclean
    refine Stays.ite (fun _ => Stays.pure trivial) fun _ => ?_
    split
    · next hlen =>
      refine Stays.ite (fun _ => Stays.ite (fun _ => Stays.pure trivial) fun _ => Stays.pure trivial)
        fun _ => Stays.ite (fun _ => ?_) fun _ => ?_
      rotate_left
      · generalize Handle.mk h.names h.tarEnd (h.offset + 512) (h.rest.drop 512) = behind
        cases hz : unzip behind with
        | none => exact hdie _
        | some rest => exact ih false (h := ⟨h.names, false, 0, rest⟩) (hunzip behind rest hz)
      -- a header, and the headers behind it
      have hsize : ¬ ((⟨h.rest.take 512, hlen⟩ : TarHeader).SizeRead ∧
          Negative (⟨h.rest.take 512, hlen⟩ : TarHeader).size) :=
        hclean _ (List.take_prefix 512 h.rest).isInfix _ rfl
      refine ((oneHeader_stays mallocs _ hsize).excuse fun _ => .inl).bind fun next hnext => ?_
      cases next with
      | entry header typeflag => exact Stays.pure trivial
      | again handle align =>
        exact ih align ((hclean.suffix (List.drop_suffix 512 _)).suffix (hnext handle align rfl))
    · cases hz : unzip h with
      | none => exact hdie _
      | some rest => exact ih false (h := ⟨h.names, h.tarEnd, 0, rest⟩) (hunzip h rest hz)

end Rustybox.Archive
