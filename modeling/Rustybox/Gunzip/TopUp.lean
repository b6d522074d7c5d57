import Rustybox.Gunzip.Inflate
import Mathlib.Data.List.TakeDrop

/-!
# top_up

`top_up` of `decompress_gunzip` refills `bytebuffer` with `full_read` until a number of bytes is in
it.  The bytes that are still to be used stay the same (`topUp_spec`), but `bytebuffer` holds
16 KiB and more than that `top_up` never brings (`topUp_eq_none`).
-/

namespace Rustybox.Gunzip

/-! ### full_read -/

/-- The loop of `full_read`: `len` bytes are still to be read, `total` are.  `none` is -1. -/
def fullReadLoop : ℕ → ℕ → List UInt8 → Input → Option (List UInt8) × Input
  | 0, _, total, inp => (some total, inp)
  | fuel + 1, len, total, inp =>
    if len = 0 then (some total, inp)
    else
      let (chunk, next) := inp.safeRead len
      match inp.script inp.reads with
      -- an error: there may be some bytes already
      | none => (if total.isEmpty then none else some total, next)
      | some _ =>
        if chunk.isEmpty then (some total, next)
        else fullReadLoop fuel (len - chunk.length) (total ++ chunk) next

/-- `full_read`: every turn reads a byte or is the last one. -/
def Input.fullRead (inp : Input) (len : ℕ) : Option (List UInt8) × Input :=
  fullReadLoop len len [] inp

theorem length_safeRead (inp : Input) (len : ℕ) : (inp.safeRead len).1.length ≤ len := by
  cases h : inp.script inp.reads with
  | none => simp [Input.safeRead, h]
  | some size =>
    simp only [Input.safeRead, h]
    exact Nat.le_trans (List.length_take_le _ _) (Nat.min_le_right _ _)

theorem length_fullReadLoop (fuel : ℕ) : ∀ (len : ℕ) (total : List UInt8) (inp : Input)
    {chunk : List UInt8}, (fullReadLoop fuel len total inp).1 = some chunk →
    chunk.length ≤ total.length + len := by
  induction fuel with
  | zero =>
    intro len total inp chunk h
    obtain rfl := Option.some.inj h
    exact Nat.le_add_right _ _
  | succ fuel ih =>
    intro len total inp chunk h
    rw [fullReadLoop] at h
    split at h
    · obtain rfl := Option.some.inj h
      exact Nat.le_add_right _ _
    · have hread := length_safeRead inp len
      dsimp only at h
      split at h
      · split at h
        · cases h
        · obtain rfl := Option.some.inj h
          exact Nat.le_add_right _ _
      · split at h
        · obtain rfl := Option.some.inj h
          exact Nat.le_add_right _ _
        · have := ih _ _ _ h
          rw [List.length_append] at this
          omega

theorem length_fullRead {inp : Input} {len : ℕ} {chunk : List UInt8}
    (h : (inp.fullRead len).1 = some chunk) : chunk.length ≤ len := by
  have := length_fullReadLoop len len [] inp h
  simpa using this

/-- No read fails. -/
def Input.Readable (inp : Input) : Prop := ∀ i, inp.script i ≠ none

theorem fullReadLoop_readable (fuel : ℕ) : ∀ (len : ℕ) (total : List UInt8) (inp : Input),
    inp.Readable → len ≤ fuel → ∃ reads, fullReadLoop fuel len total inp =
      (some (total ++ inp.rest.take len),
        { inp with rest := inp.rest.drop len, reads := reads }) := by
  induction fuel with
  | zero =>
    intro len total inp _ hlen
    obtain rfl : len = 0 := by omega
    exact ⟨inp.reads, by simp [fullReadLoop]⟩
  | succ fuel ih =>
    intro len total inp hinp hlen
    by_cases h0 : len = 0
    · subst h0
      exact ⟨inp.reads, by simp [fullReadLoop]⟩
    obtain ⟨size, hsize⟩ := Option.ne_none_iff_exists'.mp (hinp inp.reads)
    rw [fullReadLoop, if_neg h0]
    simp only [Input.safeRead, hsize, List.isEmpty_iff, List.length_take]
    by_cases hend : inp.rest = []
    · exact ⟨inp.reads + 1, by simp [hend]⟩
    -- a read brings at least one byte
    have hpos : 0 < inp.rest.length := List.length_pos_iff.mpr hend
    have hchunk : inp.rest.take (min (size + 1) len) ≠ [] := by
      apply List.ne_nil_of_length_pos
      rw [List.length_take]
      omega
    obtain ⟨reads, hreads⟩ := ih (len - min (min (size + 1) len) inp.rest.length)
      (total ++ inp.rest.take (min (size + 1) len))
      { inp with rest := inp.rest.drop (min (size + 1) len), reads := inp.reads + 1 } hinp
      (by omega)
    refine ⟨reads, ?_⟩
    rw [if_neg hchunk, hreads]
    by_cases hall : min (size + 1) len ≤ inp.rest.length
    · have hmin : min (min (size + 1) len) inp.rest.length = min (size + 1) len := by omega
      have hlen : min (size + 1) len + (len - min (size + 1) len) = len := by omega
      simp only [hmin, List.append_assoc, List.drop_drop, ← List.take_add, hlen]
    · have h1 : inp.rest.take (min (size + 1) len) = inp.rest :=
        List.take_of_length_le (by omega)
      have h2 : inp.rest.drop (min (size + 1) len) = [] := List.drop_of_length_le (by omega)
      have h3 : inp.rest.take len = inp.rest := List.take_of_length_le (by omega)
      have h4 : inp.rest.drop len = [] := List.drop_of_length_le (by omega)
      simp [h1, h2, h3, h4]

theorem fullRead_readable {inp : Input} (h : inp.Readable) (len : ℕ) :
    ∃ reads, inp.fullRead len =
      (some (inp.rest.take len), { inp with rest := inp.rest.drop len, reads := reads }) := by
  have := fullReadLoop_readable len len [] inp h le_rfl
  simpa [Input.fullRead] using this

/-! ### top_up -/

/-- `bytebuffer`, of which the bytes from `bytebuffer_offset` up to `bytebuffer_size` are to be
used, and the file it is filled from. -/
structure Buffered where
  bytebuffer : List UInt8
  bytebufferOffset : ℕ
  bytebufferSize : ℕ
  rest : List UInt8
  script : ℕ → Option ℕ
  reads : ℕ
  length_eq : bytebuffer.length = 0x4000
  offset_le : bytebufferOffset ≤ bytebufferSize
  size_le : bytebufferSize ≤ 0x4000

/-- The bytes of `bytebuffer` to be used. -/
def Buffered.live (s : Buffered) : List UInt8 :=
  (s.bytebuffer.drop s.bytebufferOffset).take (s.bytebufferSize - s.bytebufferOffset)

/-- What the decoder has of it. -/
def Buffered.input (s : Buffered) : Input := ⟨s.live, s.rest, s.script, s.reads, -1⟩

/-- What is still to be used of the input. -/
def Buffered.unread (s : Buffered) : List UInt8 := s.input.unread

/-- How many bytes are to be used. -/
def Buffered.count (s : Buffered) : ℕ := s.bytebufferSize - s.bytebufferOffset

/-- `memmove` of the bytes to be used to the start of `bytebuffer`. -/
def Buffered.rewind (s : Buffered) : Buffered where
  bytebuffer := s.live ++ s.bytebuffer.drop s.count
  bytebufferOffset := 0
  bytebufferSize := s.count
  rest := s.rest
  script := s.script
  reads := s.reads
  length_eq := by
    have := s.length_eq
    have := s.size_le
    simp only [live, count, List.length_append, List.length_take, List.length_drop]
    omega
  offset_le := Nat.zero_le _
  size_le := Nat.le_trans (Nat.sub_le _ _) s.size_le

/-- `full_read` of `chunk` into `bytebuffer` behind the bytes to be used. -/
def Buffered.store (s : Buffered) (chunk : List UInt8) (file : Input)
    (h : s.bytebufferSize + chunk.length ≤ 0x4000) : Buffered where
  bytebuffer := s.bytebuffer.take s.bytebufferSize ++ chunk ++
    s.bytebuffer.drop (s.bytebufferSize + chunk.length)
  bytebufferOffset := s.bytebufferOffset
  bytebufferSize := s.bytebufferSize + chunk.length
  rest := file.rest
  script := file.script
  reads := file.reads
  length_eq := by
    have := s.length_eq
    simp only [List.length_append, List.length_take, List.length_drop]
    omega
  offset_le := Nat.le_trans s.offset_le (Nat.le_add_right _ _)
  size_le := h

/-- `top_up`: at least `n` bytes in `bytebuffer`.  `none` is 0. -/
def topUp (n : ℕ) (s : Buffered) : Option { s : Buffered // n ≤ s.count } :=
  if h : n ≤ s.count then some ⟨s, h⟩
  else
    let s := s.rewind
    match hread : s.input.fullRead (0x4000 - s.bytebufferSize) with
    -- "read error"
    | (none, _) => none
    | (some chunk, file) =>
      have hroom : s.bytebufferSize + chunk.length ≤ 0x4000 := by
        have := length_fullRead (congrArg Prod.fst hread)
        have := s.size_le
        omega
      let s := s.store chunk file hroom
      if h : n ≤ s.count then some ⟨s, h⟩ else none

/-- `bytebuffer_offset` goes on by `n`. -/
def Buffered.advance (s : Buffered) (n : ℕ) (h : n ≤ s.count) : Buffered where
  bytebuffer := s.bytebuffer
  bytebufferOffset := s.bytebufferOffset + n
  bytebufferSize := s.bytebufferSize
  rest := s.rest
  script := s.script
  reads := s.reads
  length_eq := s.length_eq
  offset_le := by
    have := s.offset_le
    have : n ≤ s.bytebufferSize - s.bytebufferOffset := h
    omega
  size_le := s.size_le

/-- The `n` bytes at `bytebuffer_offset`. -/
def Buffered.peek (s : Buffered) (n : ℕ) : List UInt8 :=
  (s.bytebuffer.drop s.bytebufferOffset).take n

theorem length_live (s : Buffered) : s.live.length = s.count := by
  have := s.length_eq
  have := s.size_le
  simp only [Buffered.live, Buffered.count, List.length_take, List.length_drop]
  omega

theorem count_le (s : Buffered) : s.count ≤ 0x4000 := Nat.le_trans (Nat.sub_le _ _) s.size_le

theorem live_rewind (s : Buffered) : s.rewind.live = s.live := by
  show ((s.live ++ s.bytebuffer.drop s.count).drop 0).take (s.count - 0) = s.live
  rw [List.drop_zero, Nat.sub_zero, ← length_live, List.take_left]

@[simp] theorem unread_rewind (s : Buffered) : s.rewind.unread = s.unread :=
  congrArg (· ++ s.rest) (live_rewind s)

theorem live_store (s : Buffered) (chunk : List UInt8) (file : Input)
    (h : s.bytebufferSize + chunk.length ≤ 0x4000) :
    (s.store chunk file h).live = s.live ++ chunk := by
  have hle := s.offset_le
  have hlen := s.length_eq
  have htake : (s.bytebuffer.take s.bytebufferSize).length = s.bytebufferSize := by
    rw [List.length_take]
    omega
  have hlive : (s.bytebuffer.take s.bytebufferSize).drop s.bytebufferOffset = s.live :=
    List.drop_take ..
  have hsize : s.bytebufferSize + chunk.length - s.bytebufferOffset =
      (s.live ++ chunk).length := by
    rw [List.length_append, length_live, Buffered.count]
    omega
  show ((s.bytebuffer.take s.bytebufferSize ++ chunk ++ _).drop s.bytebufferOffset).take
    (s.bytebufferSize + chunk.length - s.bytebufferOffset) = s.live ++ chunk
  rw [List.append_assoc, List.drop_append_of_le_length (by omega), hlive, ← List.append_assoc,
    hsize, List.take_left]

theorem live_advance (s : Buffered) (n : ℕ) (h : n ≤ s.count) :
    (s.advance n h).live = s.live.drop n := by
  show (s.bytebuffer.drop (s.bytebufferOffset + n)).take
    (s.bytebufferSize - (s.bytebufferOffset + n)) = s.live.drop n
  rw [Buffered.live, List.drop_take, List.drop_drop, Nat.sub_sub]

theorem peek_eq (s : Buffered) {n : ℕ} (h : n ≤ s.count) : s.peek n = s.live.take n := by
  have hmin : min n (s.bytebufferSize - s.bytebufferOffset) = n := Nat.min_eq_left h
  rw [Buffered.peek, Buffered.live, List.take_take, hmin]

/-! ### What is served -/

/-- `bytes` are to come, and no read fails. -/
structure Buffered.Serves (s : Buffered) (bytes : List UInt8) : Prop where
  readable : s.input.Readable
  unread : s.unread = bytes

/-- `top_up` cannot bring more than `bytebuffer` holds. -/
theorem topUp_eq_none {n : ℕ} (h : 0x4000 < n) (s : Buffered) : topUp n s = none := by
  have hno : ∀ t : Buffered, ¬ n ≤ t.count := by
    intro t ht
    have := count_le t
    omega
  rw [topUp, dif_neg (hno s)]
  dsimp only
  split
  · rfl
  · rw [dif_neg (hno _)]

theorem Buffered.Serves.store {s : Buffered} {bytes chunk : List UInt8} {file : Input}
    (hs : s.Serves bytes) (hrest : chunk ++ file.rest = s.rest) (hscript : file.script = s.script)
    (h : s.bytebufferSize + chunk.length ≤ 0x4000) : (s.store chunk file h).Serves bytes where
  readable := by
    intro i
    show file.script i ≠ none
    rw [hscript]
    exact hs.readable i
  unread := by
    show (s.store chunk file h).live ++ file.rest = bytes
    rw [live_store, List.append_assoc, hrest]
    exact hs.unread

theorem topUp_spec {n : ℕ} (hn : n ≤ 0x4000) {s : Buffered} {bytes : List UInt8}
    (hs : s.Serves bytes) (h : n ≤ bytes.length) :
    ∃ s', topUp n s = some s' ∧ s'.1.Serves bytes := by
  by_cases hcount : n ≤ s.count
  · exact ⟨⟨s, hcount⟩, by rw [topUp, dif_pos hcount], hs⟩
  have hrewind : s.rewind.Serves bytes := ⟨hs.readable, (unread_rewind s).trans hs.unread⟩
  obtain ⟨reads, hread⟩ := fullRead_readable hrewind.readable (0x4000 - s.rewind.bytebufferSize)
  rw [topUp, dif_neg hcount]
  dsimp only
  split
  · rename_i hnone
    rw [hread] at hnone
    cases hnone
  · rename_i chunk file hsome
    obtain ⟨hchunk, hfile⟩ := Prod.mk.inj (hread.symm.trans hsome)
    have hchunk : s.rest.take (0x4000 - s.count) = chunk := Option.some.inj hchunk
    have hrest : chunk ++ file.rest = s.rest := by
      rw [← hchunk, ← hfile]
      exact List.take_append_drop _ _
    have hbytes : s.count + s.rest.length = bytes.length := by
      rw [← hs.unread, ← length_live, ← List.length_append]
      rfl
    have henough : n ≤ s.count + chunk.length - 0 := by
      rw [← hchunk, List.length_take]
      omega
    exact ⟨_, dif_pos henough, hrewind.store hrest (congrArg Input.script hfile).symm _⟩

/-- A field of `n` bytes: `top_up` brings it, it is there to be looked at, and behind it comes the
rest. -/
theorem topUp_field {n : ℕ} {field bytes : List UInt8} {s : Buffered} (hlen : field.length = n)
    (hn : n ≤ 0x4000) (hs : s.Serves (field ++ bytes)) :
    ∃ s' h, topUp n s = some ⟨s', h⟩ ∧ s'.peek n = field ∧ (s'.advance n h).Serves bytes := by
  subst hlen
  obtain ⟨⟨s', h⟩, htop, hs'⟩ := topUp_spec hn hs (by simp)
  have hunread : s'.live ++ s'.rest = field ++ bytes := hs'.unread
  have hle : field.length ≤ s'.live.length := (length_live s').symm ▸ h
  refine ⟨s', h, htop, ?_, hs'.readable, ?_⟩
  · rw [peek_eq s' h, ← List.take_append_of_le_length hle, hunread, List.take_left]
  · show (s'.advance field.length h).live ++ s'.rest = bytes
    rw [live_advance, ← List.drop_append_of_le_length hle, hunread, List.drop_left]

end Rustybox.Gunzip
