import Rustybox.Rust.Strtol
import Mathlib.Data.List.Basic
import Mathlib.Algebra.Ring.Nat

/-!
# tail

`tail_main` on an input that cannot be sought in.  `read` may return any part of what is asked for,
and memory that has not been written holds anything.

`full_read` returns as much as there is, in whatever parts `read` does.  The loop of `tail` then
sees the input chunk by chunk.
-/

namespace Rustybox.Tail

open Rust

/-- What the options say: `-c`, the plus sign, and the number, a `c_uint`. -/
structure Options where
  bytes : Bool
  fromTop : Bool
  count : ℕ
  fits : count < 2 ^ 32

/-- `sizes` bounds what each call of `read` returns, and `junk` is what fresh memory holds. -/
structure Env where
  sizes : ℕ → ℕ
  junk : ℕ → UInt8

inductive Die
  | outOfMemory
  /-- A pointer leaves what is allocated. -/
  | outside
deriving DecidableEq

/-- The input: what has not been read, after so many calls of `read`. -/
structure Input where
  rest : Str
  calls : ℕ

structure State where
  fd : Input
  tailbuf : Str
  tailbufsize : ℕ
  taillen : ℤ
  newlinesSeen : ℤ
  seen : ℕ
  out : Str

abbrev Result (α : Type) := Except Die α

section

variable (o : Options) (env : Env)

/-! ### Reading -/

/-- Some of the bytes asked for, and none only at the end. -/
def safeRead (len : ℕ) (fd : Input) : Str × Input :=
  let n := min len (env.sizes fd.calls + 1)
  (fd.rest.take n, ⟨fd.rest.drop n, fd.calls + 1⟩)

/-- The loop of `full_read`, with at most so many turns. -/
def fullReadLoop : ℕ → ℕ → Input → Str × Input
  | 0, _, fd => ([], fd)
  | turns + 1, len, fd =>
    if len = 0 then ([], fd)
    else
      let (data, fd) := safeRead env len fd
      if data = [] then ([], fd)
      else
        let (more, fd) := fullReadLoop turns (len - data.length) fd
        (data ++ more, fd)

/-- `full_read`: a turn of its loop reads a byte at least. -/
def fullRead (len : ℕ) (fd : Input) : Str × Input := fullReadLoop env len len fd

/-! ### Memory -/

/-- A block of memory is at most `PTRDIFF_MAX` bytes long. -/
def xrealloc (buf : Str) (size : ℕ) : Result Str :=
  if size < 2 ^ 63 then .ok ((buf ++ (List.range size).map env.junk).take size)
  else .error .outOfMemory

def store (buf : Str) (offset : ℤ) (data : Str) : Result Str :=
  if 0 ≤ offset ∧ offset + data.length ≤ buf.length then
    .ok (buf.take offset.toNat ++ data ++ buf.drop (offset.toNat + data.length))
  else .error .outside

def load (buf : Str) (offset len : ℤ) : Result Str :=
  if 0 ≤ offset ∧ 0 ≤ len ∧ offset + len ≤ buf.length then
    .ok ((buf.drop offset.toNat).take len.toNat)
  else .error .outside

/-- `memmove` to the start of the block. -/
def moveDown (buf : Str) (offset len : ℤ) : Result Str := do
  let data ← load buf offset len
  store buf 0 data

/-- A signed number as a `size_t`. -/
def sizeT (n : ℤ) : ℕ := (n % 2 ^ 64).toNat

/-! ### From the top -/

/-- The loop that skips lines: how many bytes are left of what was read, and `seen`. -/
def skipLines : Str → ℕ → ℕ × ℕ
  | [], seen => (0, seen)
  | c :: cs, seen =>
    if c = newline then
      if seen + 1 = o.count then (cs.length, seen + 1) else skipLines cs (seen + 1)
    else skipLines cs seen

/-- How many of the bytes read are to be written, and `seen`. -/
def afterSkip (nread : ℤ) (data : Str) (seen : ℕ) : ℤ × ℕ :=
  if seen < o.count then
    -- We need to skip a few more bytes or lines.
    if o.bytes then (cInt (nread - (o.count - seen)), ((seen + nread) % 2 ^ 32).toNat)
    else
      let (left, seen) := skipLines o data seen
      (left, seen)
  else (nread, seen)

def writeFrom (nread : ℤ) (data : Str) (s : State) : Result State :=
  let (nwrite, seen) := afterSkip o nread data s.seen
  if 0 < nwrite then do
    let written ← load s.tailbuf (nread - nwrite) nwrite
    return { s with seen, out := s.out ++ written }
  else .ok { s with seen }

/-! ### The tail -/

def keepBytes (nread : ℤ) (s : State) : Result State :=
  let taillen := cInt (s.taillen + nread)
  if cInt o.count < taillen then do
    let tailbuf ← moveDown s.tailbuf (taillen - o.count) o.count
    return { s with tailbuf, taillen := cInt o.count }
  else .ok { s with taillen }

/-- How far the pointer goes until it is behind `k` newlines. -/
def scan : ℤ → Str → Result ℕ
  | k, [] => if k = 0 then .ok 0 else .error .outside
  | k, c :: cs =>
    if k = 0 then .ok 0
    else do
      let offset ← scan (if c = newline then k - 1 else k) cs
      return offset + 1

/-- Count the newlines of what was read, and drop lines from the front. -/
def dropLines (nread : ℤ) (data : Str) (s : State) : Result State :=
  let newlinesInBuf : ℤ := data.count newline
  if cInt (s.newlinesSeen + newlinesInBuf) < cInt o.count then
    .ok { s with
      newlinesSeen := cInt (s.newlinesSeen + newlinesInBuf)
      taillen := cInt (s.taillen + nread) }
  else do
    let extra : ℤ := if data.getLast? = some newline then 0 else 1
    let offset ← scan (cInt (s.newlinesSeen + newlinesInBuf + extra - o.count)) s.tailbuf
    let taillen := cInt (s.taillen + (nread - offset))
    let tailbuf ← moveDown s.tailbuf offset taillen
    return { s with tailbuf, taillen, newlinesSeen := cInt (o.count - extra) }

/-- Make room for the next read. -/
def grow (s : State) : Result State :=
  if s.tailbufsize < sizeT (sizeT s.taillen + 8192) then do
    let tailbufsize := sizeT (cInt (s.taillen + 8192))
    let tailbuf ← xrealloc env s.tailbuf tailbufsize
    return { s with tailbuf, tailbufsize }
  else .ok s

/-! ### The main loop -/

/-- What is done with the bytes read, and whether the loop goes on. -/
def handle (nread : ℤ) (data : Str) (s : State) : Result (Bool × State) :=
  if nread ≤ 0 then .ok (false, s)
  else if o.fromTop then do
    let s ← writeFrom o nread data s
    return (true, s)
  else if o.count = 0 then .ok (true, s)
  else if o.bytes then do
    let s ← keepBytes o nread s
    return (true, s)
  else do
    let s ← dropLines o nread data s
    let s ← grow env s
    return (true, s)

def turn (s : State) : Result (Bool × State) := do
  let (data, fd) := fullRead env (sizeT (s.tailbufsize - s.taillen)) s.fd
  let tailbuf ← store s.tailbuf s.taillen data
  handle o env (cInt data.length) data { s with fd, tailbuf }

/-- The loop over the reads, with at most so many turns. -/
def loop : ℕ → State → Option (Result State)
  | 0, _ => none
  | turns + 1, s =>
    match turn o env s with
    | .error die => some (.error die)
    | .ok (false, s) => some (.ok s)
    | .ok (true, s) => loop turns s

def bufferSize : ℕ :=
  if o.fromTop = false ∧ o.bytes then max 8192 ((o.count + 8192) % 2 ^ 32) else 8192

def start (input tailbuf : Str) : State :=
  ⟨⟨input, 0⟩, tailbuf, bufferSize o, 0, 0, 1, []⟩

/-- What is left to write at the end. -/
def finish (s : State) : Result Str :=
  if o.fromTop then .ok s.out
  else do
    let written ← load s.tailbuf 0 s.taillen
    return s.out ++ written

/-- What `tail_main` writes of an input.  A turn reads a byte at least, and the last one none. -/
def tailMain (input : Str) : Option (Result Str) :=
  match xrealloc env [] (bufferSize o) with
  | .error die => some (.error die)
  | .ok tailbuf =>
    match loop o env (input.length + 1) (start o input tailbuf) with
    | none => none
    | some (.error die) => some (.error die)
    | some (.ok s) => some (finish o s)


end

/-! ## What is read and where it goes -/

variable {o : Options} {env : Env}

theorem safeRead_spec (len : ℕ) (fd : Input) :
    let data := (safeRead env len fd).1
    fd.rest = data ++ (safeRead env len fd).2.rest ∧ data.length ≤ len ∧
      (data = [] → len = 0 ∨ fd.rest = []) := by
  dsimp only
  rw [safeRead]
  refine ⟨(List.take_append_drop _ _).symm, ?_, ?_⟩
  · refine Nat.le_trans (List.length_take_le _ _) ?_
    exact Nat.min_le_left _ _
  · intro hnone
    rcases List.take_eq_nil_iff.mp hnone with hzero | hnil
    · exact Or.inl (by omega)
    · exact Or.inr hnil

theorem fullReadLoop_spec {turns len : ℕ} (hturns : len ≤ turns) (fd : Input) :
    let data := (fullReadLoop env turns len fd).1
    fd.rest = data ++ (fullReadLoop env turns len fd).2.rest ∧
      data.length = min len fd.rest.length := by
  induction turns generalizing len fd with
  | zero =>
    obtain rfl : len = 0 := Nat.le_zero.mp hturns
    exact ⟨rfl, (Nat.zero_min _).symm⟩
  | succ turns ih =>
    dsimp only
    rw [fullReadLoop]
    by_cases hlen : len = 0
    · rw [if_pos hlen, hlen]
      exact ⟨rfl, (Nat.zero_min _).symm⟩
    · rw [if_neg hlen]
      obtain ⟨hsplit, hle, hnone⟩ := @safeRead_spec env len fd
      generalize safeRead env len fd = p at hsplit hle hnone
      obtain ⟨data, fd'⟩ := p
      dsimp only at hsplit hle hnone ⊢
      by_cases hdata : data = []
      · have hempty : fd.rest = [] := (hnone hdata).resolve_left hlen
        rw [if_pos hdata]
        rw [hdata, List.nil_append] at hsplit
        rw [← hsplit, hempty]
        exact ⟨rfl, (Nat.min_zero _).symm⟩
      · rw [if_neg hdata]
        have hpos : 0 < data.length := List.length_pos_iff.mpr hdata
        obtain ⟨hmore, hlength⟩ := @ih (len - data.length) (by omega) fd'
        refine ⟨?_, ?_⟩
        · dsimp only
          rw [List.append_assoc, ← hmore]
          exact hsplit
        · dsimp only
          rw [List.length_append, hlength, hsplit, List.length_append]
          omega

/-- The parts in which `read` returns the input make no difference. -/
theorem fullRead_eq (len : ℕ) (fd : Input) :
    ∃ calls, fullRead env len fd = (fd.rest.take len, ⟨fd.rest.drop len, calls⟩) := by
  obtain ⟨hsplit, hlength⟩ := @fullReadLoop_spec env len len (Nat.le_refl len) fd
  refine ⟨(fullRead env len fd).2.calls, ?_⟩
  rw [fullRead]
  generalize fullReadLoop env len len fd = p at hsplit hlength
  obtain ⟨data, rest, calls⟩ := p
  dsimp only at hsplit hlength ⊢
  have htake : fd.rest.take len = data := by
    rw [hsplit] at hlength ⊢
    rw [List.length_append] at hlength
    by_cases hle : len ≤ data.length + rest.length
    · rw [Nat.min_eq_left hle] at hlength
      rw [← hlength, List.take_left]
    · have hrest : rest = [] := List.eq_nil_of_length_eq_zero (by omega)
      rw [hrest, List.append_nil]
      exact List.take_of_length_le (by omega)
  have hdrop : fd.rest.drop len = rest := by
    have hboth := List.take_append_drop len fd.rest
    rw [htake] at hboth
    exact List.append_cancel_left (hboth.trans hsplit)
  rw [htake, hdrop]

/-! ### Memory -/

theorem xrealloc_ok {size : ℕ} (hsize : size < 2 ^ 63) (buf : Str) :
    ∃ buf', xrealloc env buf size = .ok buf' ∧ buf'.length = size ∧
      ∀ n, n ≤ buf.length → n ≤ size → buf'.take n = buf.take n := by
  refine ⟨_, by rw [xrealloc, if_pos hsize], ?_, ?_⟩
  · rw [List.length_take, List.length_append, List.length_map, List.length_range]
    omega
  · intro n hbuf hn
    rw [List.take_take, Nat.min_eq_left hn, List.take_append_of_le_length hbuf]

theorem store_ok {buf kept : Str} (hkept : buf.take kept.length = kept) {data : Str}
    (hroom : kept.length + data.length ≤ buf.length) :
    ∃ buf', store buf kept.length data = .ok buf' ∧ buf'.length = buf.length ∧
      buf'.take (kept ++ data).length = kept ++ data := by
  refine ⟨_, by rw [store, if_pos (by omega)], ?_, ?_⟩
  · simp only [List.length_append, List.length_take, List.length_drop, Int.toNat_natCast]
    omega
  · rw [Int.toNat_natCast, hkept]
    exact List.take_left

theorem load_ok {buf data rest : Str} (front : Str) (h : buf = front ++ data ++ rest) :
    load buf front.length data.length = .ok data := by
  rw [load, if_pos]
  · rw [Int.toNat_natCast, Int.toNat_natCast, h, List.append_assoc, List.drop_left, List.take_left]
  · rw [h]
    simp only [List.length_append]
    omega

theorem moveDown_ok {buf : Str} (front : Str) {data : Str}
    (h : buf.take (front ++ data).length = front ++ data) :
    ∃ buf', moveDown buf front.length data.length = .ok buf' ∧ buf'.length = buf.length ∧
      buf'.take data.length = data := by
  have hsplit : buf = front ++ data ++ buf.drop (front ++ data).length := by
    rw [← List.take_append_drop (front ++ data).length buf, h]
    simp
  have hlength : data.length ≤ buf.length := by
    rw [hsplit]
    simp only [List.length_append]
    omega
  obtain ⟨buf', hstore, hsize, htake⟩ := @store_ok buf [] rfl data (by simpa using hlength)
  refine ⟨buf', ?_, hsize, htake⟩
  rw [moveDown, load_ok front hsplit]
  exact hstore

/-! ### The loop -/

theorem sizeT_of_nonneg {n : ℤ} (hn : 0 ≤ n) (hlt : n < 2 ^ 64) : sizeT n = n.toNat := by
  rw [sizeT, Int.emod_eq_of_lt hn hlt]

theorem ok_bind {α β : Type} (a : α) (f : α → Result β) : (Except.ok a >>= f) = f a := rfl

/-- The buffer starts with what is kept, and it has room. -/
structure Holds (kept : Str) (s : State) : Prop where
  taken : s.tailbuf.take kept.length = kept
  taillen : s.taillen = kept.length
  size : s.tailbuf.length = s.tailbufsize
  room : kept.length < s.tailbufsize
  bound : s.tailbufsize < 2 ^ 63

/-- What a read returns: as much as there is room for. -/
def chunk (kept : Str) (s : State) : Str := s.fd.rest.take (s.tailbufsize - kept.length)

theorem Holds.turn {kept : Str} {s : State} (h : Holds kept s) :
    ∃ fd tailbuf, s.fd.rest = chunk kept s ++ fd.rest ∧ tailbuf.length = s.tailbufsize ∧
      tailbuf.take (kept ++ chunk kept s).length = kept ++ chunk kept s ∧
      turn o env s = handle o env (cInt (chunk kept s).length) (chunk kept s)
        { s with fd, tailbuf } := by
  have hroom := h.room
  have hasked : sizeT (s.tailbufsize - s.taillen) = s.tailbufsize - kept.length := by
    have hbound := h.bound
    rw [h.taillen, sizeT_of_nonneg (by omega) (by omega)]
    omega
  obtain ⟨calls, hread⟩ := @fullRead_eq env (s.tailbufsize - kept.length) s.fd
  have hlength : kept.length + (chunk kept s).length ≤ s.tailbuf.length := by
    rw [chunk, List.length_take, h.size]
    omega
  obtain ⟨tailbuf, hstore, hsize, htake⟩ := store_ok h.taken hlength
  refine ⟨⟨s.fd.rest.drop (s.tailbufsize - kept.length), calls⟩, tailbuf,
    (List.take_append_drop _ _).symm, hsize.trans h.size, htake, ?_⟩
  rw [Tail.turn, hasked, hread, h.taillen]
  dsimp only
  rw [← chunk, hstore, ok_bind]

theorem Holds.chunk_ne_nil {kept : Str} {s : State} (h : Holds kept s) (hrest : s.fd.rest ≠ []) :
    chunk kept s ≠ [] := by
  intro hnone
  rcases List.take_eq_nil_iff.mp hnone with hzero | hnil
  · have hroom := h.room
    omega
  · exact hrest hnil

theorem Holds.turn_end {kept : Str} {s : State} (h : Holds kept s) (hrest : s.fd.rest = []) :
    ∃ s', Tail.turn o env s = .ok (false, s') ∧ s'.taillen = s.taillen ∧ s'.out = s.out ∧
      s'.tailbuf.length = s.tailbufsize ∧ s'.tailbuf.take kept.length = kept := by
  obtain ⟨fd, tailbuf, _, hsize, htake, hturn⟩ := @Holds.turn o env kept s h
  have hnone : chunk kept s = [] := by rw [chunk, hrest, List.take_nil]
  rw [hnone, List.append_nil] at htake
  refine ⟨{ s with fd, tailbuf }, ?_, rfl, rfl, hsize, htake⟩
  rw [hturn, hnone, handle, if_pos (by decide)]

/-- What a run keeps: `I` is about what has been read, what of it is kept, and the state. -/
structure Goes (o : Options) (env : Env) (I : Str → Str → State → Prop) : Prop where
  holds : ∀ {done kept s}, I done kept s → Holds kept s
  turns : ∀ {done kept s}, I done kept s → s.fd.rest ≠ [] →
    ∃ s' kept', turn o env s = .ok (true, s') ∧ s.fd.rest = chunk kept s ++ s'.fd.rest ∧
      I (done ++ chunk kept s) kept' s'

/-- What has been written, and what is kept if it is the tail that is wanted. -/
def outcome (o : Options) (kept : Str) (s : State) : Str :=
  if o.fromTop then s.out else s.out ++ kept

theorem finish_eq {kept : Str} {s s' : State} (hlen : s'.taillen = kept.length)
    (hout : s'.out = s.out) (htake : s'.tailbuf.take kept.length = kept) :
    finish o s' = .ok (outcome o kept s) := by
  rw [finish, outcome]
  split
  · rw [hout]
  · have hsplit : s'.tailbuf = [] ++ kept ++ s'.tailbuf.drop kept.length := by
      rw [List.nil_append]
      exact (List.take_append_drop _ _).symm.trans (congrArg (· ++ _) htake)
    have hload := load_ok [] hsplit
    rw [List.length_nil, Int.natCast_zero] at hload
    rw [hlen, hload, hout, ok_bind]
    rfl

theorem Goes.loop {I : Str → Str → State → Prop} (hgoes : Goes o env I) {turns : ℕ}
    {done kept : Str} {s : State} (h : I done kept s) (hturns : s.fd.rest.length < turns) :
    ∃ kept' s₁ s', I (done ++ s.fd.rest) kept' s₁ ∧ loop o env turns s = some (.ok s') ∧
      finish o s' = .ok (outcome o kept' s₁) := by
  induction turns generalizing done kept s with
  | zero => exact absurd hturns (Nat.not_lt_zero _)
  | succ turns ih =>
    have hholds := hgoes.holds h
    rw [Tail.loop]
    by_cases hrest : s.fd.rest = []
    · obtain ⟨s', hturn, hlen, hout, _, htake⟩ := @Holds.turn_end o env kept s hholds hrest
      refine ⟨kept, s, s', ?_, ?_, finish_eq (hlen.trans hholds.taillen) hout htake⟩
      · rw [hrest, List.append_nil]
        exact h
      · rw [hturn]
    · obtain ⟨s', kept', hturn, hsplit, hI⟩ := hgoes.turns h hrest
      have hpos := List.length_pos_iff.mpr (hholds.chunk_ne_nil hrest)
      have hlength := congrArg List.length hsplit
      rw [List.length_append] at hlength
      have hmore := ih hI (by omega)
      rw [List.append_assoc, ← hsplit] at hmore
      rw [hturn]
      exact hmore

theorem bufferSize_lt (o : Options) : 8192 ≤ bufferSize o ∧ bufferSize o < 2 ^ 32 := by
  rw [bufferSize]
  split <;> omega

/-- What is written is the outcome of a state in which everything has been read. -/
theorem Goes.tailMain {I : Str → Str → State → Prop} (hgoes : Goes o env I) {input : Str}
    (hstart : ∀ tailbuf, tailbuf.length = bufferSize o → I [] [] (start o input tailbuf)) :
    ∃ kept s, I input kept s ∧ tailMain o env input = some (.ok (outcome o kept s)) := by
  have hsize := bufferSize_lt o
  obtain ⟨tailbuf, hbuf, hlength, _⟩ := @xrealloc_ok env (bufferSize o) (by omega) []
  obtain ⟨kept, s₁, s', hI, hloop, hfinish⟩ :=
    hgoes.loop (hstart tailbuf hlength) (Nat.lt_succ_self input.length)
  refine ⟨kept, s₁, hI, ?_⟩
  rw [Tail.tailMain, hbuf]
  dsimp only
  rw [hloop]
  dsimp only
  rw [hfinish]

end Rustybox.Tail
