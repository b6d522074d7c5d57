import Rustybox.Hash.Stream
import Rustybox.Lib.Blocks

/-!
# Hashing in pieces is hashing at once

The digest of a message is the fold of the block function over the blocks of the padded
message.  The contexts of `Stream` compute it from the pieces of the message, for every way
to cut it.

Over a run of updates the invariant is `Buffered` (`Absorbed` for SHA3): the blocks that
were full have been processed and the rest of the message lies at the front of the buffer.
-/

namespace Rustybox.Hash

open Blocks Rustybox.Rust

/-! ### What the standards prescribe -/

/-- The number of zeros that take a length to the next multiple of `n`. -/
def zeros (n len : ℕ) : ℕ := (n - len % n) % n

/-- A message followed by `0x80`, by zeros up to the end of a block and by its bit count. -/
def pad (n : ℕ) (count message : List UInt8) : List UInt8 :=
  message ++ 0x80 :: (List.replicate (zeros n (message.length + 1 + count.length)) 0 ++ count)

/-- The bytes that end a message of SHA3 with `q` bytes of its last block to fill. -/
def sha3Suffix : ℕ → List UInt8
  | 0 => []
  | 1 => [0x86]
  | q + 2 => 0x06 :: (List.replicate q 0 ++ [0x80])

/-- A message of SHA3 with its padding. -/
def sha3Pad (n : ℕ) (message : List UInt8) : List UInt8 :=
  message ++ sha3Suffix (n - message.length % n)

/-- MD5 of a whole message. -/
def md5 (message : List UInt8) : List UInt8 :=
  bytes32 ((whole 64 (pad 64 (leBytes 8 (8 * message.length)) message)).foldl md5ProcessBlock64
    initMd5).toList

/-- SHA-256 of a whole message. -/
def sha256 (message : List UInt8) : List UInt8 :=
  bytes32 (((whole 64 (pad 64 (beBytes 8 (8 * message.length)) message)).foldl
    sha256ProcessBlock64 init256).map swap32).toList

def sha512 (message : List UInt8) : List UInt8 :=
  bytes64 (((whole 128 (pad 128 (beBytes 16 (8 * message.length)) message)).foldl
    sha512ProcessBlock128
    (init256.zipWith (fun hi lo => hi.toUInt64 <<< (32 : UInt64) + lo.toUInt64) init512Lo)).map
      swap64).toList

/-- SHA3-512 of a whole message: a block goes into the state by exclusive or. -/
def sha3_512 (message : List UInt8) : List UInt8 :=
  (bytes64 ((whole 72 (sha3Pad 72 message)).foldl
    (fun state block => sha3ProcessBlock72 (xorBytes state 0 block))
    (Vector.replicate 25 0)).toList).take 64

/-! ### Copying into the buffer -/

theorem take_memcpy {dst : List UInt8} (src : List UInt8) {pos : ℕ} (h : pos ≤ dst.length) :
    (memcpy dst pos src).take (pos + src.length) = dst.take pos ++ src := by
  have hl : (dst.take pos ++ src).length = pos + src.length := by
    rw [List.length_append, List.length_take, Nat.min_eq_left h]
  rw [memcpy, ← hl, List.take_left]

theorem memcpy_of_full {dst src : List UInt8} {pos : ℕ} (h : pos + src.length = dst.length) :
    memcpy dst pos src = dst.take pos ++ src := by
  rw [memcpy, h, List.drop_length, List.append_nil]

/-! ### MD5 and SHA-2: one update -/

section Buffered

variable {H : Type} (process : H → List UInt8 → H)

/-- **The update loop.**  It processes the whole blocks of what the buffer held and of the
new bytes, and leaves the rest at the front of the buffer. -/
theorem hashLoop_spec (w : Width) (hash : H) (wbuffer : List UInt8) (bufpos : ℕ)
    (buffer : List UInt8) (hw : wbuffer.length = w.bytes) (hpos : bufpos < w.bytes) :
    (hashLoop process w hash wbuffer bufpos buffer).1 =
        (whole w.bytes (wbuffer.take bufpos ++ buffer)).foldl process hash ∧
      (hashLoop process w hash wbuffer bufpos buffer).2.take
          ((bufpos + buffer.length) % w.bytes) =
        rest w.bytes (wbuffer.take bufpos ++ buffer) := by
  have hlt := w.lt
  have hwpos := w.pos
  fun_induction hashLoop process w hash wbuffer bufpos buffer with
  | case1 hash wbuffer bufpos buffer remaining wbuffer' bufpos' h =>
    -- the buffer does not fill up: all of the new bytes go into it
    have hsub : wrappingSub w.bytes bufpos = w.bytes - bufpos :=
      wrappingSub_of_le (by omega) hlt
    have hlen : bufpos + buffer.length < w.bytes := by
      have := (full_iff (by omega) hlt).mp h
      omega
    have hall : buffer.take remaining = buffer := List.take_of_length_le (by omega)
    have hql : (wbuffer.take bufpos ++ buffer).length < w.bytes := by
      rw [List.length_append, List.length_take]
      omega
    refine ⟨?_, ?_⟩
    · rw [whole_of_length_lt hql, List.foldl_nil]
    · show (memcpy wbuffer bufpos (buffer.take remaining)).take _ = _
      rw [hall, rest_of_length_lt hql, Nat.mod_eq_of_lt hlen, take_memcpy _ (by omega)]
  | case2 hash wbuffer bufpos buffer remaining wbuffer' bufpos' h ih =>
    have hsub : wrappingSub w.bytes bufpos = w.bytes - bufpos :=
      wrappingSub_of_le (by omega) hlt
    have hfull : bufpos + remaining = w.bytes := by
      have := mt (full_iff (by omega) hlt).mpr h
      omega
    have h0 : bufpos' = 0 := not_not.mp h
    have htake : (buffer.take remaining).length = remaining := by
      rw [List.length_take]
      omega
    have hblock : wbuffer' = wbuffer.take bufpos ++ buffer.take remaining :=
      memcpy_of_full (by omega)
    have hbl : wbuffer'.length = w.bytes := by
      rw [hblock, List.length_append, List.length_take, htake]
      omega
    have hsplit : wbuffer.take bufpos ++ buffer = wbuffer' ++ buffer.drop remaining := by
      rw [hblock, List.append_assoc, List.take_append_drop]
    have ih := ih hbl (by omega)
    rw [h0, List.take_zero, List.nil_append, Nat.zero_add, List.length_drop] at ih
    have hmod : (bufpos + buffer.length) % w.bytes = (buffer.length - remaining) % w.bytes := by
      rw [show bufpos + buffer.length = buffer.length - remaining + w.bytes by omega,
        Nat.add_mod_right]
    rw [hsplit, whole_cons hwpos hbl, rest_cons hwpos hbl, hmod, List.foldl_cons]
    rw [h0]
    exact ih

/-- What a context holds after `message`, when it began with `iv`. -/
structure Buffered (w : Width) (iv hash : H) (wbuffer message : List UInt8) : Prop where
  hash_eq : hash = (whole w.bytes message).foldl process iv
  length_eq : wbuffer.length = w.bytes
  front : wbuffer.take (message.length % w.bytes) = rest w.bytes message

variable {process} {w : Width} {iv hash : H} {wbuffer message : List UInt8}

theorem Buffered.begin (h : wbuffer.length = w.bytes) : Buffered process w iv iv wbuffer [] where
  hash_eq := by rw [whole_of_length_lt (l := ([] : List UInt8)) w.pos, List.foldl_nil]
  length_eq := h
  front := by
    rw [List.length_nil, Nat.zero_mod, List.take_zero,
      rest_of_length_lt (l := ([] : List UInt8)) w.pos]

theorem Buffered.update (h : Buffered process w iv hash wbuffer message) (buffer : List UInt8) :
    Buffered process w iv
      (hashLoop process w hash wbuffer (message.length % w.bytes) buffer).1
      (hashLoop process w hash wbuffer (message.length % w.bytes) buffer).2
      (message ++ buffer) := by
  have hpos := Nat.mod_lt message.length w.pos
  obtain ⟨h1, h2⟩ := hashLoop_spec process w hash wbuffer (message.length % w.bytes) buffer
    h.length_eq hpos
  rw [h.front] at h1 h2
  refine ⟨?_, length_hashLoop process w _ _ _ _ h.length_eq hpos, ?_⟩
  · rw [h1, whole_append w.pos message, List.foldl_append, ← h.hash_eq]
  · rw [rest_append w.pos message, ← h2, List.length_append, Nat.mod_add_mod]

/-! ### MD5 and SHA-2: the end -/

theorem zeros_of_room {n bufpos count : ℕ} (h : bufpos + count ≤ n) (hpos : 0 < bufpos + count) :
    zeros n (bufpos + count) = n - bufpos - count := by
  unfold zeros
  by_cases he : bufpos + count = n
  · rw [he, Nat.mod_self, Nat.sub_zero, Nat.mod_self]
    omega
  · rw [Nat.mod_eq_of_lt (by omega : bufpos + count < n), Nat.mod_eq_of_lt (by omega)]
    omega

theorem zeros_of_no_room {n bufpos count : ℕ} (hb : bufpos ≤ n) (hc : count ≤ n)
    (h : n < bufpos + count) : zeros n (bufpos + count) = (n - bufpos) + zeros n count := by
  have hcount : zeros n (0 + count) = n - 0 - count := zeros_of_room (by omega) (by omega)
  rw [Nat.zero_add] at hcount
  have hmod : (bufpos + count) % n = (bufpos + count - n) % n := Nat.mod_eq_sub_mod (Nat.le_of_lt h)
  rw [hcount, zeros, hmod]
  by_cases he : bufpos + count - n = n
  · rw [he, Nat.mod_self, Nat.sub_zero, Nat.mod_self]
    omega
  · rw [Nat.mod_eq_of_lt (by omega : bufpos + count - n < n), Nat.mod_eq_of_lt (by omega)]
    omega

/-- **The closing loop.**  Zeros and the bit count follow what the buffer holds, and the one
or two blocks they make are processed. -/
theorem endLoop_spec (w : Width) (count : List UInt8) (hcount : count.length ≤ w.bytes)
    (hne : 0 < count.length) (hash : H) (wbuffer : List UInt8) (bufpos : ℕ)
    (hw : wbuffer.length = w.bytes) (hpos : bufpos ≤ w.bytes) :
    endLoop process w count hcount hash wbuffer bufpos =
      (whole w.bytes (wbuffer.take bufpos ++
        (List.replicate (zeros w.bytes (bufpos + count.length)) 0 ++ count))).foldl
        process hash := by
  have hlt := w.lt
  have hwpos := w.pos
  fun_induction endLoop process w count hcount hash wbuffer bufpos with
  | case1 hash wbuffer bufpos remaining wbuffer₁ wbuffer₂ hash' h =>
    have hsub : remaining = w.bytes - bufpos := wrappingSub_of_le hpos hlt
    have h₁ : wbuffer₁ = wbuffer.take bufpos ++ List.replicate remaining 0 :=
      memcpy_of_full (by rw [List.length_replicate]; omega)
    have h₁l : wbuffer₁.length = w.bytes := by
      rw [h₁, List.length_append, List.length_take, List.length_replicate]
      omega
    have h₂ : wbuffer₂ = wbuffer.take bufpos ++
        (List.replicate (zeros w.bytes (bufpos + count.length)) 0 ++ count) := by
      show (if count.length ≤ remaining then memcpy wbuffer₁ (w.bytes - count.length) count
        else wbuffer₁) = _
      rw [if_pos h, memcpy_of_full (by omega), zeros_of_room (by omega) (by omega), h₁,
        List.take_append, List.take_of_length_le (by rw [List.length_take]; omega),
        List.take_replicate, List.length_take, List.append_assoc]
      congr 3
      omega
    have h₂l : wbuffer₂.length = w.bytes := by
      rw [h₂, zeros_of_room (by omega) (by omega), List.length_append, List.length_append,
        List.length_take, List.length_replicate]
      omega
    rw [← h₂, whole_self hwpos h₂l]
    rfl
  | case2 hash wbuffer bufpos remaining wbuffer₁ wbuffer₂ hash' h ih =>
    -- no room for the count: this block ends with zeros and the next one starts with them
    have hsub : remaining = w.bytes - bufpos := wrappingSub_of_le hpos hlt
    have h₂ : wbuffer₂ = wbuffer.take bufpos ++ List.replicate remaining 0 := by
      show (if count.length ≤ remaining then memcpy wbuffer₁ (w.bytes - count.length) count
        else wbuffer₁) = _
      rw [if_neg h]
      exact memcpy_of_full (by rw [List.length_replicate]; omega)
    have h₂l : wbuffer₂.length = w.bytes := by
      rw [h₂, List.length_append, List.length_take, List.length_replicate]
      omega
    have ih := ih h₂l (by omega)
    rw [List.take_zero, List.nil_append, Nat.zero_add] at ih
    rw [ih, zeros_of_no_room hpos hcount (by omega), ← hsub, ← List.replicate_append_replicate,
      List.append_assoc, ← List.append_assoc (wbuffer.take bufpos), ← h₂, whole_cons hwpos h₂l,
      List.foldl_cons]

theorem Buffered.finish (h : Buffered process w iv hash wbuffer message) (count : List UInt8)
    (hcount : count.length ≤ w.bytes) (hne : 0 < count.length) :
    endLoop process w count hcount hash
        (memcpy wbuffer (message.length % w.bytes) [0x80])
        (wrappingAdd (message.length % w.bytes) 1) =
      (whole w.bytes (pad w.bytes count message)).foldl process iv := by
  have hlt := w.lt
  have hmod := Nat.mod_lt message.length w.pos
  have hadd : wrappingAdd (message.length % w.bytes) 1 = message.length % w.bytes + 1 := by
    simp only [wrappingAdd]
    omega
  have hlen := h.length_eq
  have hzeros : zeros w.bytes (message.length % w.bytes + 1 + count.length) =
      zeros w.bytes (message.length + 1 + count.length) := by
    rw [zeros, zeros, Nat.add_assoc, Nat.mod_add_mod, ← Nat.add_assoc]
  have htake : (memcpy wbuffer (message.length % w.bytes) [0x80]).take
      (message.length % w.bytes + 1) = rest w.bytes message ++ [0x80] := by
    have := take_memcpy [0x80] (by omega : message.length % w.bytes ≤ wbuffer.length)
    rwa [h.front] at this
  rw [hadd, endLoop_spec w count hcount hne hash _ _
    (by rw [length_memcpy (by simp only [List.length_singleton]; omega), hlen]) (by omega),
    htake, hzeros, pad, whole_append w.pos message, List.foldl_append, ← h.hash_eq,
    List.append_assoc, List.singleton_append]

end Buffered

/-! ### SHA3 -/

theorem xorBytes_append (state : Vector UInt64 25) (pos : ℕ) (a b : List UInt8) :
    xorBytes state pos (a ++ b) = xorBytes (xorBytes state pos a) (pos + a.length) b := by
  induction a generalizing state pos with
  | nil => rfl
  | cons x a ih =>
    rw [List.cons_append, xorBytes, ih, xorBytes, List.length_cons, Nat.add_right_comm,
      Nat.add_assoc]

theorem setIfInBounds_lane (state : Vector UInt64 25) (i : ℕ) :
    state.setIfInBounds i (lane state i) = state := by
  ext j hj
  by_cases h : i = j
  · subst h
    simp [lane, hj]
  · rw [Vector.getElem_setIfInBounds_ne hj h]

theorem xorByte_zero (state : Vector UInt64 25) (pos : ℕ) : xorByte state pos 0 = state := by
  rw [xorByte, show (0 : UInt8).toUInt64 = 0 from rfl, UInt64.zero_shiftLeft, UInt64.xor_zero,
    setIfInBounds_lane]

theorem xorBytes_zeros (state : Vector UInt64 25) (pos k : ℕ) :
    xorBytes state pos (List.replicate k 0) = state := by
  induction k generalizing pos with
  | zero => rfl
  | succ k ih => rw [List.replicate_succ, xorBytes, xorByte_zero, ih]

/-- Two bytes for one place. -/
theorem xorByte_xorByte (state : Vector UInt64 25) (pos : ℕ) (a b : UInt8) :
    xorByte (xorByte state pos a) pos b = xorByte state pos (a ^^^ b) := by
  simp only [xorByte]
  ext j hj
  by_cases h : pos / 8 = j
  · subst h
    simp [lane, hj, UInt64.xor_assoc, UInt64.shiftLeft_xor]
  · rw [Vector.getElem_setIfInBounds_ne hj h, Vector.getElem_setIfInBounds_ne hj h,
      Vector.getElem_setIfInBounds_ne hj h]

/-- A block goes into the state. -/
def absorb (state : Vector UInt64 25) (block : List UInt8) : Vector UInt64 25 :=
  sha3ProcessBlock72 (xorBytes state 0 block)

/-- **The update loop of SHA3**, from a state that has taken in `queued` already. -/
theorem sha3Loop_spec (w : Width) (data : List UInt8) {s state : Vector UInt64 25}
    {queued : List UInt8} {bufpos : ℕ} (hs : state = xorBytes s 0 queued)
    (hb : bufpos = queued.length)
    (hq : queued.length < w.bytes) :
    (sha3Loop w state bufpos data).1 =
        xorBytes ((whole w.bytes (queued ++ data)).foldl absorb s) 0
          (rest w.bytes (queued ++ data)) ∧
      wrappingAdd (sha3Loop w state bufpos data).2 w.bytes =
        (queued ++ data).length % w.bytes := by
  have hlt := w.lt
  have hwpos := w.pos
  fun_induction sha3Loop w state bufpos data generalizing s queued with
  | case1 state bufpos data remaining state' =>
    rename_i bufpos' h
    have hsub : wrappingSub w.bytes bufpos = w.bytes - bufpos :=
      wrappingSub_of_le (by omega) hlt
    have hlen : bufpos + data.length < w.bytes := by
      have := (full_iff (by omega) hlt).mp h
      omega
    have hr : remaining = data.length := by omega
    have hall : data.take remaining = data := List.take_of_length_le (by omega)
    have hql : (queued ++ data).length < w.bytes := by
      rw [List.length_append]
      omega
    refine ⟨?_, ?_⟩
    · show xorBytes state bufpos (data.take remaining) = _
      rw [whole_of_length_lt hql, rest_of_length_lt hql, hall, List.foldl_nil, xorBytes_append,
        ← hs, hb, Nat.zero_add]
    · show wrappingAdd (wrappingSub (wrappingAdd bufpos remaining) w.bytes) w.bytes = _
      rw [Nat.mod_eq_of_lt hql, List.length_append, ← hb, hr]
      simp only [wrappingAdd, wrappingSub]
      omega
  | case2 state bufpos data remaining state' bufpos' =>
    rename_i h ih
    have hsub : wrappingSub w.bytes bufpos = w.bytes - bufpos :=
      wrappingSub_of_le (by omega) hlt
    have hfull : bufpos + remaining = w.bytes := by
      have := mt (full_iff (by omega) hlt).mpr h
      omega
    have h0 : bufpos' = 0 := not_not.mp h
    have hbl : (queued ++ data.take remaining).length = w.bytes := by
      rw [List.length_append, List.length_take]
      omega
    have hsplit : queued ++ data = (queued ++ data.take remaining) ++ data.drop remaining := by
      rw [List.append_assoc, List.take_append_drop]
    have hstate : sha3ProcessBlock72 state' = absorb s (queued ++ data.take remaining) := by
      rw [absorb, xorBytes_append, ← hs, Nat.zero_add, ← hb]
    have ih := @ih (sha3ProcessBlock72 state') [] rfl h0 hwpos
    rw [List.nil_append] at ih
    rw [hsplit, whole_cons hwpos hbl, rest_cons hwpos hbl, List.foldl_cons, List.length_append,
      hbl, Nat.add_mod_left, ← hstate]
    exact ih

/-- What a context of SHA3 holds after `message`. -/
structure Absorbed (ctx : Sha3Ctx) (message : List UInt8) : Prop where
  state_eq : ctx.state = xorBytes
    ((whole ctx.inputBlockBytes.bytes message).foldl absorb (Vector.replicate 25 0)) 0
    (rest ctx.inputBlockBytes.bytes message)
  queued_eq : ctx.bytesQueued = message.length % ctx.inputBlockBytes.bytes

theorem Absorbed.begin : Absorbed sha3Begin [] where
  state_eq := by
    rw [whole_of_length_lt (l := ([] : List UInt8)) sha3Begin.inputBlockBytes.pos,
      rest_of_length_lt (l := ([] : List UInt8)) sha3Begin.inputBlockBytes.pos]
    rfl
  queued_eq := rfl

theorem Absorbed.update {ctx : Sha3Ctx} {message : List UInt8} (h : Absorbed ctx message)
    (data : List UInt8) : Absorbed (sha3Hash ctx data) (message ++ data) := by
  have hpos := ctx.inputBlockBytes.pos
  have hr := length_rest ctx.inputBlockBytes.bytes message
  obtain ⟨h1, h2⟩ := sha3Loop_spec ctx.inputBlockBytes data h.state_eq
    (h.queued_eq.trans hr.symm) (by rw [hr]; exact Nat.mod_lt _ hpos)
  refine ⟨?_, ?_⟩
  · show (sha3Loop ctx.inputBlockBytes ctx.state ctx.bytesQueued data).1 =
      xorBytes ((whole ctx.inputBlockBytes.bytes (message ++ data)).foldl absorb _) 0
        (rest ctx.inputBlockBytes.bytes (message ++ data))
    rw [h1, whole_append hpos message, rest_append hpos message, List.foldl_append]
  · show wrappingAdd (sha3Loop ctx.inputBlockBytes ctx.state ctx.bytesQueued data).2 _ =
      (message ++ data).length % ctx.inputBlockBytes.bytes
    rw [h2, List.length_append, hr, List.length_append, Nat.mod_add_mod]

theorem xorBytes_sha3Suffix (state : Vector UInt64 25) {n pos : ℕ} (h : pos < n) :
    xorBytes state pos (sha3Suffix (n - pos)) = xorByte (xorByte state pos 6) (n - 1) 0x80 := by
  obtain ⟨q, rfl⟩ := Nat.exists_eq_add_of_lt h
  rw [show pos + q + 1 - pos = q + 1 by omega, Nat.add_sub_cancel]
  cases q with
  | zero => exact (xorByte_xorByte state pos 6 0x80).symm
  | succ q =>
    rw [sha3Suffix, xorBytes, xorBytes_append, xorBytes_zeros, List.length_replicate,
      show pos + 1 + q = pos + (q + 1) by omega]
    rfl

theorem length_sha3Suffix (q : ℕ) : (sha3Suffix q).length = q := by
  match q with
  | 0 => rfl
  | 1 => rfl
  | q + 2 => simp [sha3Suffix]

theorem Absorbed.finish {ctx : Sha3Ctx} {message : List UInt8} (h : Absorbed ctx message) :
    sha3End ctx = (bytes64 ((whole ctx.inputBlockBytes.bytes
      (sha3Pad ctx.inputBlockBytes.bytes message)).foldl absorb
        (Vector.replicate 25 0)).toList).take 64 := by
  have hpos := ctx.inputBlockBytes.pos
  have hlt := ctx.inputBlockBytes.lt
  have hmod := Nat.mod_lt message.length hpos
  have hr := length_rest ctx.inputBlockBytes.bytes message
  have hbl : (rest ctx.inputBlockBytes.bytes message ++
      sha3Suffix (ctx.inputBlockBytes.bytes - message.length % ctx.inputBlockBytes.bytes)).length =
      ctx.inputBlockBytes.bytes := by
    rw [List.length_append, length_sha3Suffix, hr]
    omega
  have hsub : wrappingSub ctx.inputBlockBytes.bytes 1 = ctx.inputBlockBytes.bytes - 1 :=
    wrappingSub_of_le hpos hlt
  rw [sha3Pad, whole_append hpos message, whole_self hpos hbl, List.foldl_append, List.foldl_cons,
    List.foldl_nil, absorb, xorBytes_append, ← h.state_eq, hr, Nat.zero_add,
    xorBytes_sha3Suffix _ hmod]
  simp only [sha3End, hsub, h.queued_eq]

/-! ### The bit count in memory -/

theorem sha512Count_eq {len : ℕ} (h : len < 2 ^ 61) :
    sha512Count (len, 0) = beBytes 16 (8 * len) := by
  have hlow : len * 2 ^ 3 % 2 ^ 64 = 8 * len := by omega
  have hhigh : len / 2 ^ 61 = 0 := Nat.div_eq_of_lt h
  have hdiv : 8 * len / 256 ^ 8 = 0 := Nat.div_eq_of_lt (by omega)
  rw [sha512Count, leBytes_swapBytes, leBytes_swapBytes, hlow, hhigh, Nat.zero_mul, Nat.zero_mod,
    Nat.zero_or, beBytes, beBytes, beBytes, show 16 = 8 + 8 from rfl, leBytes_add 8 8, hdiv,
    List.reverse_append]

/-! ### Whole runs -/

section Runs

variable {H : Type} {process : H → List UInt8 → H} {iv : H}

/-- A context of `common64_hash` after `message`. -/
structure Common64 (process : H → List UInt8 → H) (iv : H) (ctx : Ctx H)
    (message : List UInt8) : Prop where
  buffered : Buffered process width64 iv ctx.hash ctx.wbuffer message
  total_eq : ctx.total64 = message.length % 2 ^ 64

theorem Common64.update {ctx : Ctx H} {message : List UInt8} (h : Common64 process iv ctx message)
    (buffer : List UInt8) :
    Common64 process iv (common64Hash process ctx buffer) (message ++ buffer) := by
  have hmod : ctx.total64 % 64 = message.length % 64 := by
    rw [h.total_eq]
    omega
  refine ⟨?_, ?_⟩
  · have hb := h.buffered.update buffer
    rw [show message.length % width64.bytes = ctx.total64 % 64 from hmod.symm] at hb
    exact hb
  · show (ctx.total64 + buffer.length) % 2 ^ 64 = (message ++ buffer).length % 2 ^ 64
    rw [h.total_eq, List.length_append, Nat.mod_add_mod]

theorem Common64.run {ctx : Ctx H} {message : List UInt8} (h : Common64 process iv ctx message)
    (chunks : List (List UInt8)) :
    Common64 process iv (chunks.foldl (common64Hash process) ctx) (message ++ chunks.flatten) := by
  induction chunks generalizing ctx message with
  | nil => rwa [List.flatten_nil, List.append_nil]
  | cons chunk chunks ih =>
    rw [List.foldl_cons, List.flatten_cons, ← List.append_assoc]
    exact ih (h.update chunk)

theorem Common64.finish {ctx : Ctx H} {message : List UInt8} (h : Common64 process iv ctx message)
    (hlen : message.length < 2 ^ 61) (swapNeeded : Bool) :
    common64End process ctx swapNeeded = (whole 64 (pad 64
      (if swapNeeded then beBytes 8 (8 * message.length) else leBytes 8 (8 * message.length))
      message)).foldl process iv := by
  have htotal : ctx.total64 = message.length := by
    rw [h.total_eq]
    omega
  have ht : message.length * 2 ^ 3 % 2 ^ 64 = 8 * message.length := by omega
  have hcount : leBytes 8 (if swapNeeded then swapBytes 8 (8 * message.length)
      else 8 * message.length) =
      if swapNeeded then beBytes 8 (8 * message.length) else leBytes 8 (8 * message.length) := by
    cases swapNeeded
    · rfl
    · exact leBytes_swapBytes 8 _
  have hf := h.buffered.finish
    (leBytes 8 (if swapNeeded then swapBytes 8 (8 * message.length) else 8 * message.length))
    (by rw [length_leBytes]; decide) (by rw [length_leBytes]; decide)
  rw [← hcount]
  simp only [common64End, htotal, ht]
  exact hf

end Runs

/-- A context of `sha512_hash` after `message`. -/
structure Sha512 (iv : Vector UInt64 8) (ctx : Sha512Ctx) (message : List UInt8) : Prop where
  buffered : Buffered sha512ProcessBlock128 width128 iv ctx.hash ctx.wbuffer message
  total_eq : ctx.total64 = (message.length, 0)

theorem Sha512.update {iv : Vector UInt64 8} {ctx : Sha512Ctx} {message buffer : List UInt8}
    (h : Sha512 iv ctx message) (hlen : (message ++ buffer).length < 2 ^ 61) :
    Sha512 iv (sha512Hash ctx buffer) (message ++ buffer) := by
  rw [List.length_append] at hlen
  refine ⟨?_, ?_⟩
  · have hb := h.buffered.update buffer
    rw [show message.length % width128.bytes = ctx.total64.1 % 128 by rw [h.total_eq]; rfl] at hb
    exact hb
  · have hsum : (message.length + buffer.length) % 2 ^ 64 = message.length + buffer.length := by
      omega
    simp only [sha512Hash, h.total_eq, hsum, List.length_append]
    rw [if_neg (by omega)]

theorem Sha512.run {iv : Vector UInt64 8} {ctx : Sha512Ctx} {message : List UInt8}
    (h : Sha512 iv ctx message) (chunks : List (List UInt8))
    (hlen : (message ++ chunks.flatten).length < 2 ^ 61) :
    Sha512 iv (chunks.foldl sha512Hash ctx) (message ++ chunks.flatten) := by
  induction chunks generalizing ctx message with
  | nil => rwa [List.flatten_nil, List.append_nil]
  | cons chunk chunks ih =>
    rw [List.flatten_cons, ← List.append_assoc] at hlen
    rw [List.foldl_cons, List.flatten_cons, ← List.append_assoc]
    have hchunk : (message ++ chunk).length < 2 ^ 61 := by
      rw [List.length_append] at hlen
      omega
    exact ih (h.update hchunk) hlen

theorem Sha512.finish {iv : Vector UInt64 8} {ctx : Sha512Ctx} {message : List UInt8}
    (h : Sha512 iv ctx message) (hlen : message.length < 2 ^ 61) :
    sha512End ctx = bytes64 (((whole 128 (pad 128 (beBytes 16 (8 * message.length))
      message)).foldl sha512ProcessBlock128 iv).map swap64).toList := by
  have hcount : sha512Count ctx.total64 = beBytes 16 (8 * message.length) := by
    rw [h.total_eq, sha512Count_eq hlen]
  have hlen16 : (sha512Count ctx.total64).length = 16 := by
    rw [hcount, beBytes, List.length_reverse, length_leBytes]
  have hf := h.buffered.finish (sha512Count ctx.total64)
    (by rw [hlen16]; decide) (by rw [hlen16]; decide)
  have hmod : message.length % width128.bytes = ctx.total64.1 % 128 := by
    rw [h.total_eq]
    rfl
  rw [hmod] at hf
  rw [← hcount]
  exact congrArg (fun hash : Vector UInt64 8 => bytes64 (hash.map swap64).toList) hf

theorem Absorbed.run {ctx : Sha3Ctx} {message : List UInt8} (h : Absorbed ctx message)
    (chunks : List (List UInt8)) :
    Absorbed (chunks.foldl sha3Hash ctx) (message ++ chunks.flatten) := by
  induction chunks generalizing ctx message with
  | nil => rwa [List.flatten_nil, List.append_nil]
  | cons chunk chunks ih =>
    rw [List.foldl_cons, List.flatten_cons, ← List.append_assoc]
    exact ih (h.update chunk)

theorem inputBlockBytes_run (chunks : List (List UInt8)) (ctx : Sha3Ctx) :
    (chunks.foldl sha3Hash ctx).inputBlockBytes = ctx.inputBlockBytes := by
  induction chunks generalizing ctx with
  | nil => rfl
  | cons chunk chunks ih =>
    rw [List.foldl_cons, ih]
    rfl

/-- **Hashing in pieces is hashing at once.**  Whatever the contexts held before, and however
a message of less than `2^61` bytes is cut, begin, the updates and end give the digest that
the standards prescribe for the message. -/
theorem stream_eq_oneShot (md5Ctx : Ctx (Vector UInt32 4)) (sha256Ctx : Ctx (Vector UInt32 8))
    (sha512Ctx : Sha512Ctx) (chunks : List (List UInt8)) (hlen : chunks.flatten.length < 2 ^ 61) :
    md5End (chunks.foldl md5Hash (md5Begin md5Ctx)) = md5 chunks.flatten ∧
      sha256End (chunks.foldl sha256Hash (sha256Begin sha256Ctx)) = sha256 chunks.flatten ∧
      sha512End (chunks.foldl sha512Hash (sha512Begin sha512Ctx)) = sha512 chunks.flatten ∧
      sha3End (chunks.foldl sha3Hash sha3Begin) = sha3_512 chunks.flatten := by
  refine ⟨?_, ?_, ?_, ?_⟩
  · have hbegin : Common64 md5ProcessBlock64 (md5Begin md5Ctx).hash (md5Begin md5Ctx) [] :=
      ⟨Buffered.begin md5Ctx.wbuffer_length, rfl⟩
    have hrun := hbegin.run chunks
    rw [List.nil_append] at hrun
    exact congrArg (fun hash : Vector UInt32 4 => bytes32 hash.toList) (hrun.finish hlen false)
  · have hbegin : Common64 sha256ProcessBlock64 init256 (sha256Begin sha256Ctx) [] :=
      ⟨Buffered.begin sha256Ctx.wbuffer_length, rfl⟩
    have hrun := hbegin.run chunks
    rw [List.nil_append] at hrun
    exact congrArg (fun hash : Vector UInt32 8 => bytes32 (hash.map swap32).toList)
      (hrun.finish hlen true)
  · have hbegin : Sha512 (sha512Begin sha512Ctx).hash (sha512Begin sha512Ctx) [] :=
      ⟨Buffered.begin sha512Ctx.wbuffer_length, rfl⟩
    have hrun := hbegin.run chunks hlen
    rw [List.nil_append] at hrun
    exact hrun.finish hlen
  · have hrun := Absorbed.begin.run chunks
    rw [List.nil_append] at hrun
    have hf := hrun.finish
    rw [inputBlockBytes_run] at hf
    exact hf

/-- One empty piece in the middle, and garbage in the contexts. -/
theorem stream_eq_oneShot_three_pieces :
    md5End (([[0x61], [], [0x62]] : List (List UInt8)).foldl md5Hash
        (md5Begin ⟨List.replicate 64 7, 1, Vector.replicate 4 3, by decide⟩)) =
      md5 [0x61, 0x62] :=
  (stream_eq_oneShot ⟨List.replicate 64 7, 1, Vector.replicate 4 3, by decide⟩
    ⟨List.replicate 64 7, 1, Vector.replicate 8 3, by decide⟩
    ⟨(5, 6), Vector.replicate 8 3, List.replicate 128 7, by decide⟩ [[0x61], [], [0x62]]
    (by decide)).1

end Rustybox.Hash
