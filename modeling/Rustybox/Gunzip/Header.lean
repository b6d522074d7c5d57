import Rustybox.Gunzip.TopUp
import Mathlib.Data.List.TakeDrop

/-!
# The member header

`check_header_gzip` of `decompress_gunzip`.

The extra field is asked for from `top_up` as one piece, and `bytebuffer` holds 16 KiB.  So a header
with a longer one is refused with "corrupted data".  Every other header is read, wherever the
refills fall (`checkHeaderGzip_iff`).
-/

namespace Rustybox.Gunzip

/-! ### check_header_gzip -/

def leNat (bytes : List UInt8) : ℕ := bytes.foldr (fun byte n => byte.toNat + 256 * n) 0

def ignoreExtra (flags : UInt8) (s : Buffered) : Option Buffered :=
  if flags &&& 0x4 ≠ 0 then do
    let ⟨s, h⟩ ← topUp 2 s
    let extraShort := leNat (s.peek 2)
    let ⟨s, h⟩ ← topUp extraShort (s.advance 2 h)
    some (s.advance extraShort h)
  else some s

/-- Discard one string.  Every turn uses a byte. -/
def discardString : ℕ → Buffered → Option Buffered
  | 0, _ => none
  | fuel + 1, s => do
    let ⟨s, h⟩ ← topUp 1 s
    if s.peek 1 ≠ [0] then discardString fuel (s.advance 1 h) else some (s.advance 1 h)

/-- Discard original name and file comment: when both are there, the second turn finds the flags
cleared. -/
def discardLoop : ℕ → UInt8 → Buffered → Option (UInt8 × Buffered)
  | 0, _, _ => none
  | fuel + 1, flags, s => do
    let s ← discardString (s.unread.length + 1) s
    if flags &&& 0x18 ≠ 0x18 then some (flags, s) else discardLoop fuel (flags &&& ~~~0x18) s

/-- Discard original name and file comment if any. -/
def discardNames (flags : UInt8) (s : Buffered) : Option (UInt8 × Buffered) :=
  if flags &&& 0x18 ≠ 0 then discardLoop 2 flags s else some (flags, s)

def readChecksum (flags : UInt8) (s : Buffered) : Option Buffered :=
  if flags &&& 0x2 ≠ 0 then do
    let ⟨s, h⟩ ← topUp 2 s
    some (s.advance 2 h)
  else some s

/-- `check_header_gzip`: `mtime` and what is left.  `none` is 0. -/
def checkHeaderGzip (s : Buffered) : Option (ℕ × Buffered) := do
  let ⟨s, h⟩ ← topUp 8 s.rewind
  let raw := s.peek 8
  let gzMethod := raw.getD 0 0
  let flags := raw.getD 1 0
  let mtime := leNat ((raw.drop 2).take 4)
  -- check the compression method
  if gzMethod ≠ 8 then none
  else do
    let s ← ignoreExtra flags (s.advance 8 h)
    let (flags, s) ← discardNames flags s
    let s ← readChecksum flags s
    some (mtime, s)

/-! ### The headers -/

def flagByte (ftext fhcrc fextra fname fcomment : Bool) : UInt8 :=
  ftext.toUInt8 ||| fhcrc.toUInt8 <<< 1 ||| fextra.toUInt8 <<< 2 ||| fname.toUInt8 <<< 3 |||
    fcomment.toUInt8 <<< 4

/-- The `n` bytes of a little-endian number. -/
def leBytes : ℕ → ℕ → List UInt8
  | 0, _ => []
  | n + 1, k => UInt8.ofNat k :: leBytes n (k / 256)

/-- A member header with method 8. -/
structure GzHeader where
  text : Bool
  mtime : UInt32
  xtraFlags : UInt8
  osFlags : UInt8
  extra : Option (List UInt8)
  name : Option (List UInt8)
  comment : Option (List UInt8)
  checksum : Option UInt16
  extra_length : ∀ field ∈ extra, field.length < 2 ^ 16
  name_nul : ∀ s ∈ name, 0 ∉ s
  comment_nul : ∀ s ∈ comment, 0 ∉ s

/-- The flags of a header. -/
def GzHeader.flags (h : GzHeader) : UInt8 :=
  flagByte h.text h.checksum.isSome h.extra.isSome h.name.isSome h.comment.isSome

/-- The first bytes, behind the magic. -/
def GzHeader.raw (h : GzHeader) : List UInt8 :=
  [8, h.flags] ++ leBytes 4 h.mtime.toNat ++ [h.xtraFlags, h.osFlags]

/-- The extra field with its length. -/
def extraBytes (field : List UInt8) : List UInt8 := leBytes 2 field.length ++ field

def nulTerminated (s : List UInt8) : List UInt8 := s ++ [0]

/-- The bytes of a header, behind the magic, which the caller has read. -/
def GzHeader.bytes (h : GzHeader) : List UInt8 :=
  h.raw ++ ((h.extra.map extraBytes).getD [] ++ ((h.name.map nulTerminated).getD [] ++
    ((h.comment.map nulTerminated).getD [] ++ (h.checksum.map (leBytes 2 ·.toNat)).getD [])))

/-! ### The parts of a header -/

theorem leNat_leBytes (n : ℕ) : ∀ {k : ℕ}, k < 256 ^ n → leNat (leBytes n k) = k := by
  induction n with
  | zero =>
    intro k hk
    obtain rfl : k = 0 := by simpa using hk
    rfl
  | succ n ih =>
    intro k hk
    have hdiv : k / 256 < 256 ^ n := Nat.div_lt_of_lt_mul (by rwa [Nat.pow_succ'] at hk)
    have hrest : leNat (leBytes n (k / 256)) = k / 256 := ih hdiv
    have hbyte : (UInt8.ofNat k).toNat = k % 256 := UInt8.toNat_ofNat'
    show (UInt8.ofNat k).toNat + 256 * leNat (leBytes n (k / 256)) = k
    rw [hbyte, hrest, Nat.mod_add_div]

theorem flags_extra (h : GzHeader) : h.flags &&& 0x4 ≠ 0 ↔ h.extra.isSome = true := by
  have : ∀ t c e n m, flagByte t c e n m &&& 0x4 ≠ 0 ↔ e = true := by decide
  exact this ..

theorem flags_checksum (h : GzHeader) : h.flags &&& 0x2 ≠ 0 ↔ h.checksum.isSome = true := by
  have : ∀ t c e n m, flagByte t c e n m &&& 0x2 ≠ 0 ↔ c = true := by decide
  exact this ..

theorem ignoreExtra_spec (h : GzHeader) {s : Buffered} {bytes : List UInt8}
    (hs : s.Serves ((h.extra.map extraBytes).getD [] ++ bytes))
    (hfit : ∀ field ∈ h.extra, field.length ≤ 0x4000) :
    ∃ s', ignoreExtra h.flags s = some s' ∧ s'.Serves bytes := by
  have hflags := flags_extra h
  have hlong := h.extra_length
  cases hextra : h.extra with
  | none =>
    rw [hextra] at hs hflags
    exact ⟨s, if_neg (by simpa using hflags), hs⟩
  | some field =>
    rw [hextra] at hs hflags hlong hfit
    have hfield : s.Serves (leBytes 2 field.length ++ (field ++ bytes)) := by
      simpa [extraBytes] using hs
    obtain ⟨s1, h1, htop1, hpeek, hs1⟩ := topUp_field (n := 2) rfl (by decide) hfield
    have hshort : leNat (s1.peek 2) = field.length := by
      rw [hpeek]
      exact leNat_leBytes 2 (hlong field rfl)
    obtain ⟨s2, h2, htop2, -, hs2⟩ := topUp_field hshort.symm (hshort ▸ hfit field rfl) hs1
    refine ⟨_, ?_, hs2⟩
    rw [ignoreExtra, if_pos (by simpa using hflags), htop1, Option.bind_eq_bind, Option.bind_some]
    simp only [htop2]
    rfl

theorem ignoreExtra_eq_none (h : GzHeader) {s : Buffered} {bytes field : List UInt8}
    (hs : s.Serves ((h.extra.map extraBytes).getD [] ++ bytes)) (hextra : h.extra = some field)
    (hlong : 0x4000 < field.length) : ignoreExtra h.flags s = none := by
  have hflags := (flags_extra h).mpr (by simp [hextra])
  have hfield : s.Serves (leBytes 2 field.length ++ (field ++ bytes)) := by
    simpa [hextra, extraBytes] using hs
  obtain ⟨s1, h1, htop1, hpeek, -⟩ := topUp_field (n := 2) rfl (by decide) hfield
  have hshort : leNat (s1.peek 2) = field.length := by
    rw [hpeek]
    exact leNat_leBytes 2 (h.extra_length field hextra)
  have hnone := topUp_eq_none (hshort.symm ▸ hlong) (s1.advance 2 h1)
  rw [ignoreExtra, if_pos hflags, htop1, Option.bind_eq_bind, Option.bind_some]
  simp only [hnone]
  rfl

theorem discardString_spec (str : List UInt8) (hnul : 0 ∉ str) {bytes : List UInt8} :
    ∀ {fuel : ℕ} {s : Buffered}, s.Serves (nulTerminated str ++ bytes) → str.length < fuel →
      ∃ s', discardString fuel s = some s' ∧ s'.Serves bytes := by
  induction str with
  | nil =>
    intro fuel s hs hfuel
    obtain ⟨fuel, rfl⟩ := Nat.exists_eq_succ_of_ne_zero (by omega : fuel ≠ 0)
    obtain ⟨s1, h1, htop, hpeek, hs1⟩ := topUp_field (n := 1) rfl (by decide) hs
    refine ⟨_, ?_, hs1⟩
    rw [discardString, htop]
    exact if_neg (not_not.mpr hpeek)
  | cons c str ih =>
    intro fuel s hs hfuel
    obtain ⟨fuel, rfl⟩ := Nat.exists_eq_succ_of_ne_zero (by omega : fuel ≠ 0)
    have hs' : s.Serves ([c] ++ (nulTerminated str ++ bytes)) := by simpa [nulTerminated] using hs
    obtain ⟨s1, h1, htop, hpeek, hs1⟩ := topUp_field (n := 1) rfl (by decide) hs'
    have hc : s1.peek 1 ≠ [0] := by
      rw [hpeek]
      rintro h
      exact hnul (List.mem_cons.mpr (Or.inl (List.cons.inj h).1.symm))
    obtain ⟨s', hs', hserves⟩ := ih (fun h => hnul (List.mem_cons_of_mem c h)) hs1
      (Nat.lt_of_succ_lt_succ hfuel)
    refine ⟨s', ?_, hserves⟩
    rw [discardString, htop]
    exact (if_pos hc).trans hs'

theorem discardString_unread {str bytes : List UInt8} {s : Buffered} (hnul : 0 ∉ str)
    (hs : s.Serves (nulTerminated str ++ bytes)) :
    ∃ s', discardString (s.unread.length + 1) s = some s' ∧ s'.Serves bytes := by
  refine discardString_spec str hnul hs ?_
  rw [hs.unread, nulTerminated, List.append_assoc, List.length_append]
  omega

theorem discardLoop_last {fuel : ℕ} {flags : UInt8} {s s' : Buffered}
    (hs' : discardString (s.unread.length + 1) s = some s') (hflags : flags &&& 0x18 ≠ 0x18) :
    discardLoop (fuel + 1) flags s = some (flags, s') := by
  rw [discardLoop, hs']
  exact if_pos hflags

theorem discardLoop_more {fuel : ℕ} {flags : UInt8} {s s' : Buffered}
    (hs' : discardString (s.unread.length + 1) s = some s') (hflags : flags &&& 0x18 = 0x18) :
    discardLoop (fuel + 1) flags s = discardLoop fuel (flags &&& ~~~0x18) s' := by
  rw [discardLoop, hs']
  exact if_neg (not_not.mpr hflags)

/-- As many strings as the flags tell of are discarded, and the flag of the checksum stays. -/
theorem discardNames_spec (h : GzHeader) {s : Buffered} {bytes : List UInt8}
    (hs : s.Serves ((h.name.map nulTerminated).getD [] ++
      ((h.comment.map nulTerminated).getD [] ++ bytes))) :
    ∃ flags s', discardNames h.flags s = some (flags, s') ∧ flags &&& 0x2 = h.flags &&& 0x2 ∧
      s'.Serves bytes := by
  have hnone : ∀ t c e, flagByte t c e false false &&& 0x18 = 0 := by decide
  have hone : ∀ t c e n, flagByte t c e n (!n) &&& 0x18 ≠ 0 ∧
      flagByte t c e n (!n) &&& 0x18 ≠ 0x18 := by decide
  have hboth : ∀ t c e, flagByte t c e true true &&& 0x18 = 0x18 ∧
      flagByte t c e true true &&& ~~~0x18 &&& 0x18 ≠ 0x18 ∧
      flagByte t c e true true &&& ~~~0x18 &&& 0x2 = flagByte t c e true true &&& 0x2 := by
    decide
  have hname := h.name_nul
  have hcomment := h.comment_nul
  unfold GzHeader.flags
  cases hn : h.name with
  | none =>
    cases hc : h.comment with
    | none =>
      rw [hn, hc] at hs
      exact ⟨_, s, if_neg (not_not.mpr (hnone ..)), rfl, hs⟩
    | some comment =>
      rw [hn, hc] at hs
      obtain ⟨s', hs', hserves⟩ := discardString_unread (hcomment comment hc) hs
      exact ⟨_, s', (if_pos (hone _ _ _ false).1).trans (discardLoop_last hs' (hone _ _ _ false).2),
        rfl, hserves⟩
  | some name =>
    cases hc : h.comment with
    | none =>
      rw [hn, hc] at hs
      obtain ⟨s', hs', hserves⟩ := discardString_unread (hname name hn) hs
      exact ⟨_, s', (if_pos (hone _ _ _ true).1).trans (discardLoop_last hs' (hone _ _ _ true).2),
        rfl, hserves⟩
    | some comment =>
      rw [hn, hc] at hs
      obtain ⟨s1, hs1, hserves1⟩ := discardString_unread (hname name hn) hs
      obtain ⟨s2, hs2, hserves2⟩ := discardString_unread (hcomment comment hc) hserves1
      obtain ⟨h18, hcleared, hkept⟩ := hboth h.text h.checksum.isSome h.extra.isSome
      refine ⟨_, s2, ?_, hkept, hserves2⟩
      have hany : flagByte h.text h.checksum.isSome h.extra.isSome true true &&& 0x18 ≠ 0 := by
        rw [h18]
        decide
      exact (if_pos hany).trans ((discardLoop_more hs1 h18).trans (discardLoop_last hs2 hcleared))

theorem readChecksum_spec (h : GzHeader) {flags : UInt8} {s : Buffered} {bytes : List UInt8}
    (hflags : flags &&& 0x2 = h.flags &&& 0x2)
    (hs : s.Serves ((h.checksum.map (leBytes 2 ·.toNat)).getD [] ++ bytes)) :
    ∃ s', readChecksum flags s = some s' ∧ s'.Serves bytes := by
  have hset := flags_checksum h
  rw [← hflags] at hset
  cases hc : h.checksum with
  | none =>
    rw [hc] at hs hset
    exact ⟨s, if_neg (by simpa using hset), hs⟩
  | some checksum =>
    rw [hc] at hs hset
    obtain ⟨s1, h1, htop, -, hs1⟩ := topUp_field (n := 2) rfl (by decide) hs
    refine ⟨_, ?_, hs1⟩
    rw [readChecksum, if_pos (hset.mpr rfl), htop]
    rfl

/-! ### Which headers are read -/

/-- The extra field fits into `bytebuffer`. -/
def GzHeader.Fits (h : GzHeader) : Prop := ∀ field ∈ h.extra, field.length ≤ 0x4000

/-- The first eight bytes are read, and the method is the right one. -/
theorem checkHeaderGzip_raw (h : GzHeader) {s : Buffered} {bytes : List UInt8}
    (hs : s.Serves (h.raw ++ bytes)) :
    ∃ s' : Buffered, s'.Serves bytes ∧ checkHeaderGzip s = (do
      let s ← ignoreExtra h.flags s'
      let (flags, s) ← discardNames h.flags s
      let s ← readChecksum flags s
      some (h.mtime.toNat, s)) := by
  have hrewind : s.rewind.Serves (h.raw ++ bytes) :=
    ⟨hs.readable, (unread_rewind s).trans hs.unread⟩
  obtain ⟨s1, h1, htop, hpeek, hs1⟩ := topUp_field (n := 8) rfl (by decide) hrewind
  have hmtime : leNat ((h.raw.drop 2).take 4) = h.mtime.toNat :=
    leNat_leBytes 4 h.mtime.toNat_lt
  refine ⟨s1.advance 8 h1, hs1, ?_⟩
  rw [checkHeaderGzip, htop, Option.bind_eq_bind, Option.bind_some]
  simp only [hpeek, hmtime]
  rfl

/-- What the parts of a header ask of the input. -/
theorem serves_parts {h : GzHeader} {data : List UInt8} {s : Buffered} (hread : s.input.Readable)
    (hs : s.unread = h.bytes ++ data) :
    s.Serves (h.raw ++ ((h.extra.map extraBytes).getD [] ++ ((h.name.map nulTerminated).getD [] ++
      ((h.comment.map nulTerminated).getD [] ++
        ((h.checksum.map (leBytes 2 ·.toNat)).getD [] ++ data))))) := by
  refine ⟨hread, ?_⟩
  simpa only [GzHeader.bytes, List.append_assoc] using hs

theorem checkHeaderGzip_eq_none {h : GzHeader} {data : List UInt8} {s : Buffered}
    (hread : s.input.Readable) (hs : s.unread = h.bytes ++ data) {field : List UInt8}
    (hextra : h.extra = some field) (hlong : 0x4000 < field.length) :
    checkHeaderGzip s = none := by
  obtain ⟨s1, hs1, heq⟩ := checkHeaderGzip_raw h (serves_parts hread hs)
  rw [heq, ignoreExtra_eq_none h hs1 hextra hlong]
  rfl

/-- Where no read fails, `check_header_gzip` takes a header and leaves `bytebuffer_offset` at the
bytes behind it exactly if the extra field is not longer than `bytebuffer`.  It does not matter
where in the header a refill falls and how much each read brings. -/
theorem checkHeaderGzip_iff (h : GzHeader) (data : List UInt8) (s : Buffered)
    (hread : s.input.Readable) (hs : s.unread = h.bytes ++ data) :
    (∃ s', checkHeaderGzip s = some (h.mtime.toNat, s') ∧ s'.unread = data) ↔ h.Fits := by
  constructor
  · rintro ⟨s', hs', -⟩ field hfield
    by_contra hlong
    rw [checkHeaderGzip_eq_none hread hs hfield (by omega)] at hs'
    cases hs'
  · intro hfits
    obtain ⟨s1, hs1, heq⟩ := checkHeaderGzip_raw h (serves_parts hread hs)
    obtain ⟨s2, hextra, hs2⟩ := ignoreExtra_spec h hs1 hfits
    obtain ⟨flags, s3, hnames, hflags, hs3⟩ := discardNames_spec h hs2
    obtain ⟨s4, hsum, hs4⟩ := readChecksum_spec h hflags hs3
    refine ⟨s4, ?_, hs4.unread⟩
    rw [heq, hextra]
    simp [hnames, hsum]

/-- What `unpack_gz_stream` starts with, over a file of which every read brings one byte. -/
def Buffered.byByte (file : List UInt8) : Buffered where
  bytebuffer := List.replicate 0x4000 0
  bytebufferOffset := 0
  bytebufferSize := 0
  rest := file
  script := fun _ => some 0
  reads := 0
  length_eq := List.length_replicate
  offset_le := le_rfl
  size_le := Nat.zero_le _

theorem unread_byByte (file : List UInt8) : (Buffered.byByte file).unread = file := by
  have hlive : (Buffered.byByte file).live = [] := List.take_zero
  show (Buffered.byByte file).live ++ file = file
  rw [hlive, List.nil_append]

theorem readable_byByte (file : List UInt8) : (Buffered.byByte file).input.Readable := by
  rintro i ⟨⟩

/-- A header with everything in it. -/
def fullHeader : GzHeader where
  text := true
  mtime := 1000000000
  xtraFlags := 2
  osFlags := 3
  extra := some [65, 80, 1, 0, 7]
  name := some [97, 46, 116, 120, 116]
  comment := some []
  checksum := some 4660
  extra_length := by decide
  name_nul := by decide
  comment_nul := by decide

theorem checkHeaderGzip_iff_full :
    ∃ s', checkHeaderGzip (.byByte (fullHeader.bytes ++ [3, 0])) = some (1000000000, s') ∧
      s'.unread = [3, 0] :=
  (checkHeaderGzip_iff fullHeader [3, 0] _ (readable_byByte _) (unread_byByte _)).mpr
    (by unfold GzHeader.Fits; decide)

/-- A header with an extra field of one byte more than `bytebuffer` holds. -/
def crowdedHeader : GzHeader where
  text := false
  mtime := 0
  xtraFlags := 0
  osFlags := 3
  extra := some (List.replicate 0x4001 0)
  name := none
  comment := none
  checksum := none
  extra_length := by
    rintro field ⟨⟩
    rw [List.length_replicate]
    decide
  name_nul := by rintro s ⟨⟩
  comment_nul := by rintro s ⟨⟩

/-- That header is refused. -/
theorem checkHeaderGzip_crowded :
    (Buffered.byByte (crowdedHeader.bytes ++ [3, 0])).unread = crowdedHeader.bytes ++ [3, 0] ∧
      checkHeaderGzip (.byByte (crowdedHeader.bytes ++ [3, 0])) = none := by
  refine ⟨unread_byByte _, ?_⟩
  apply checkHeaderGzip_eq_none (readable_byByte _) (unread_byByte _) rfl
  rw [List.length_replicate]
  decide

end Rustybox.Gunzip
