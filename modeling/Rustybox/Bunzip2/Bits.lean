import Rustybox.Lib.BitString
import Rustybox.Libbb.Crc32

/-!
# Reading bits

`get_bits` takes bits out of a register of 32 bits, which it fills a byte at a time from a buffer,
which it fills with `read`.  What is read with it is written here over any `Reader`, and there are
two: the one of the source, `inbufReader`, and `bitReader`, which is a place in a string of bits.

`getBits_spec`: both read the same, whatever the sizes of the reads; and what was read can be put
back.
-/

namespace Rustybox.Bunzip2

open BitString
open Rustybox.Libbb

/-- Why reading stops: with a code, because of an access outside of an array or of what was written
to it, because a run was tested and is too long, or because the model has no fuel left. -/
inductive Fail where
  | code (c : ℤ)
  | fault
  | longRun
  | fuel
  deriving DecidableEq

/-- What is done with the input. -/
structure Reader (σ : Type) where
  getBits : ℕ → StateT σ (Except Fail) ℕ
  /-- The read of the longest code, which the source has inline. -/
  getCode : ℕ → StateT σ (Except Fail) ℕ
  unget : ℕ → σ → σ

/-- Bits are read, and some of them put back. -/
def Reader.thenUnget {σ : Type} (r : Reader σ) (x : StateT σ (Except Fail) ℕ) (extra : ℕ → ℕ) :
    StateT σ (Except Fail) ℕ := fun s => do
  let (v, s) ← x s
  return (v, r.unget (extra v) s)

/-! ### A string of bits -/

/-- The next bits behind a place. -/
def bitsAt (bits : List Bool) (wanted : ℕ) : StateT ℕ (Except Fail) ℕ := fun pos =>
  if pos + wanted ≤ bits.length then .ok (value ((bits.drop pos).take wanted), pos + wanted)
  else .error (.code (-3))

/-- A place in a string of bits. -/
def bitReader (bits : List Bool) : Reader ℕ where
  getBits := bitsAt bits
  getCode := bitsAt bits
  unget n pos := pos - n

/-! ### The buffers -/

/-- The bytes that have been read and not used, and what the next calls of `read` are going to
give. -/
structure Input where
  inbuf : List UInt8
  reads : List (List UInt8)

/-- If we need to read more data from file into byte buffer, do so; then grab a byte. -/
def Input.next : Input → Option (UInt8 × Input)
  | ⟨c :: inbuf, reads⟩ => some (c, ⟨inbuf, reads⟩)
  | ⟨[], (c :: inbuf) :: reads⟩ => some (c, ⟨inbuf, reads⟩)
  | ⟨[], _⟩ => none

/-- The bytes up to the end of the file. -/
def Input.bytes (input : Input) : List UInt8 :=
  input.inbuf ++ (input.reads.takeWhile fun chunk => !chunk.isEmpty).flatten

/-- The part of `bunzip_data` that has the input. -/
structure Inbuf where
  inbufBitCount : ℕ
  inbufBits : ℕ
  input : Input

/-- The next 8 bits are put into the register. -/
def shiftIn (inbufBits : ℕ) (c : UInt8) : ℕ := (inbufBits <<< 8 ||| c.toNat) % 2 ^ 32

/-- The loop of `get_bits`: the bits that were dumped, how many more are wanted, and the rest of the
state. -/
def getBitsLoop (bits wanted : ℕ) (bd : Inbuf) : Except Fail (ℕ × ℕ × Inbuf) :=
  if bd.inbufBitCount < wanted then
    match bd.input.next with
    | none => .error (.code (-3))
    | some (c, input) =>
      -- Avoid 32-bit overflow (dump bit buffer to top of output)
      if 24 ≤ bd.inbufBitCount then
        getBitsLoop
          (((bd.inbufBits &&& (2 ^ bd.inbufBitCount - 1)) <<< (wanted - bd.inbufBitCount)) % 2 ^ 32)
          (wanted - bd.inbufBitCount) ⟨8, shiftIn bd.inbufBits c, input⟩
      else getBitsLoop bits wanted ⟨bd.inbufBitCount + 8, shiftIn bd.inbufBits c, input⟩
  else .ok (bits, wanted, bd)
termination_by wanted - bd.inbufBitCount

def getBits (wanted : ℕ) : StateT Inbuf (Except Fail) ℕ := fun bd => do
  let (bits, wanted, bd) ← getBitsLoop 0 wanted bd
  let count := bd.inbufBitCount - wanted
  return (bits ||| ((bd.inbufBits >>> count) &&& (2 ^ wanted - 1)),
    { bd with inbufBitCount := count })

/-- The read of a code.  We fall back to a call to `get_bits` if the buffer runs dry. -/
def getCode (maxLen : ℕ) : StateT Inbuf (Except Fail) ℕ := fun bd =>
  if bd.inbufBitCount < maxLen then
    match h : bd.input.inbuf with
    | [] => getBits maxLen bd
    | c :: inbuf =>
      getCode maxLen ⟨bd.inbufBitCount + 8, shiftIn bd.inbufBits c, ⟨inbuf, bd.input.reads⟩⟩
  else
    let count := bd.inbufBitCount - maxLen
    .ok ((bd.inbufBits >>> count) &&& (2 ^ maxLen - 1), { bd with inbufBitCount := count })
termination_by bd => maxLen - bd.inbufBitCount

/-- The reader of the source. -/
def inbufReader : Reader Inbuf where
  getBits := getBits
  getCode := getCode
  unget n bd := { bd with inbufBitCount := bd.inbufBitCount + n }

/-! ### The register -/

theorem value_highBits (c : UInt8) : value (highBits c) = c.toNat := by
  have h : ∀ c : BitVec 8, value (List.ofFn fun i : Fin 8 => c.getMsbD i) = c.toNat := by
    decide +kernel
  exact h c.toBitVec

def Input.bits (input : Input) : List Bool := input.bytes.flatMap highBits

theorem length_flatMap_highBits (bytes : List UInt8) :
    (bytes.flatMap highBits).length = 8 * bytes.length := by
  induction bytes with
  | nil => rfl
  | cons c bytes ih =>
    rw [List.flatMap_cons, List.length_append, length_highBits, ih, List.length_cons, Nat.mul_succ,
      Nat.add_comm]

theorem eq_of_flatMap_highBits_eq {bytes bytes' : List UInt8}
    (h : bytes.flatMap highBits = bytes'.flatMap highBits) : bytes = bytes' := by
  have hlen := congrArg List.length h
  rw [length_flatMap_highBits, length_flatMap_highBits] at hlen
  induction bytes generalizing bytes' with
  | nil => exact (List.length_eq_zero_iff.mp (by rw [List.length_nil] at hlen; omega)).symm
  | cons c bytes ih =>
    cases bytes' with
    | nil => cases hlen
    | cons d bytes' =>
      rw [List.flatMap_cons, List.flatMap_cons] at h
      obtain ⟨hc, hrest⟩ := List.append_inj h (by rw [length_highBits, length_highBits])
      have hvalue := congrArg value hc
      rw [value_highBits, value_highBits] at hvalue
      rw [UInt8.toNat_inj.mp hvalue, ih hrest (by simp only [List.length_cons] at hlen; omega)]

theorem Input.length_bits (input : Input) : input.bits.length = 8 * input.bytes.length :=
  length_flatMap_highBits _

theorem Input.next_none {input : Input} (h : input.next = none) : input.bits = [] := by
  obtain ⟨inbuf, reads⟩ := input
  cases inbuf with
  | cons c inbuf => cases h
  | nil =>
    cases reads with
    | nil => rfl
    | cons chunk reads =>
      cases chunk with
      | nil => rfl
      | cons c chunk => cases h

theorem Input.next_some {input input' : Input} {c : UInt8} (h : input.next = some (c, input')) :
    input.bits = highBits c ++ input'.bits := by
  obtain ⟨inbuf, reads⟩ := input
  cases inbuf with
  | cons d inbuf =>
    obtain ⟨rfl, rfl⟩ := Prod.mk.inj (Option.some.inj h)
    rfl
  | nil =>
    cases reads with
    | nil => cases h
    | cons chunk reads =>
      cases chunk with
      | nil => cases h
      | cons d chunk =>
        obtain ⟨rfl, rfl⟩ := Prod.mk.inj (Option.some.inj h)
        rfl

/-- The low bits of the register. -/
theorem shiftIn_mod (inbufBits : ℕ) (c : UInt8) {k : ℕ} (hk : k ≤ 24) :
    shiftIn inbufBits c % 2 ^ (k + 8) = inbufBits % 2 ^ k * 2 ^ 8 + c.toNat := by
  have hc : c.toNat < 2 ^ 8 := c.toNat_lt
  have hdvd : (2 : ℕ) ^ (k + 8) ∣ 2 ^ 32 := Nat.pow_dvd_pow 2 (by omega)
  have hlt : inbufBits % 2 ^ k * 2 ^ 8 + c.toNat < 2 ^ (k + 8) := by
    have hmod : inbufBits % 2 ^ k + 1 ≤ 2 ^ k := Nat.mod_lt _ (Nat.two_pow_pos k)
    have hmul := Nat.mul_le_mul_right (2 ^ 8) hmod
    rw [pow_add]
    omega
  have hsplit : inbufBits * 2 ^ 8 + c.toNat =
      2 ^ (k + 8) * (inbufBits / 2 ^ k) + (inbufBits % 2 ^ k * 2 ^ 8 + c.toNat) := by
    have hdiv : (2 ^ k * (inbufBits / 2 ^ k) + inbufBits % 2 ^ k) * 2 ^ 8 = inbufBits * 2 ^ 8 :=
      congrArg (· * 2 ^ 8) (Nat.div_add_mod inbufBits (2 ^ k))
    rw [← hdiv, pow_add, Nat.add_mul, Nat.mul_right_comm, Nat.add_assoc]
  rw [shiftIn, Nat.mod_mod_of_dvd _ hdvd, ← Nat.shiftLeft_add_eq_or_of_lt hc, Nat.shiftLeft_eq,
    hsplit, Nat.mul_add_mod, Nat.mod_eq_of_lt hlt]

/-- The place in the string of bits that the register and the input stand for.  At least `spare`
bits in front of it are still in the register. -/
def Cached (bits : List Bool) (pos spare : ℕ) (bd : Inbuf) : Prop :=
  ∃ pre old cur, bits = pre ++ (old ++ cur) ++ bd.input.bits ∧ pos = pre.length + old.length ∧
    cur.length = bd.inbufBitCount ∧ spare ≤ old.length ∧ (old ++ cur).length ≤ 32 ∧
    bd.inbufBits % 2 ^ (old ++ cur).length = value (old ++ cur)

variable {bits : List Bool} {pos spare : ℕ} {bd : Inbuf}

theorem Cached.mono (h : Cached bits pos spare bd) {n : ℕ} (hn : n ≤ spare) :
    Cached bits pos n bd := by
  obtain ⟨pre, old, cur, hbits, hpos, hcur, hspare, hlen⟩ := h
  exact ⟨pre, old, cur, hbits, hpos, hcur, hn.trans hspare, hlen⟩

theorem Cached.le (h : Cached bits pos spare bd) : pos + bd.inbufBitCount ≤ bits.length := by
  obtain ⟨pre, old, cur, rfl, rfl, hcur, -⟩ := h
  simp only [List.length_append]
  omega

theorem drop_register (pre old cur rest : List Bool) :
    (pre ++ (old ++ cur) ++ rest).drop (pre.length + old.length) = cur ++ rest := by
  rw [← List.append_assoc, List.append_assoc, ← List.length_append, List.drop_left]

theorem Cached.low (h : Cached bits pos spare bd) :
    bd.inbufBits % 2 ^ bd.inbufBitCount = value ((bits.drop pos).take bd.inbufBitCount) := by
  obtain ⟨pre, old, cur, rfl, rfl, hcur, -, -, hvalue⟩ := h
  have hpow : (2 : ℕ) ^ cur.length ∣ 2 ^ (old ++ cur).length := by
    rw [List.length_append, pow_add]
    exact Nat.dvd_mul_left _ _
  have hmod : bd.inbufBits % 2 ^ (old ++ cur).length % 2 ^ cur.length =
      value (old ++ cur) % 2 ^ cur.length := congrArg (· % 2 ^ cur.length) hvalue
  rw [Nat.mod_mod_of_dvd _ hpow, value_append, Nat.mul_comm, Nat.mul_add_mod,
    Nat.mod_eq_of_lt (value_lt cur)] at hmod
  rw [drop_register, ← hcur, List.take_left', hmod]
  rfl

theorem Cached.take (h : Cached bits pos spare bd) {n : ℕ} (hn : n ≤ bd.inbufBitCount) :
    Cached bits (pos + n) (spare + n) { bd with inbufBitCount := bd.inbufBitCount - n } := by
  obtain ⟨pre, old, cur, rfl, rfl, hcur, hspare, hlen, hvalue⟩ := h
  have hsplit : (old ++ cur.take n) ++ cur.drop n = old ++ cur := by
    rw [List.append_assoc, List.take_append_drop]
  have htake : (cur.take n).length = n := by
    rw [List.length_take]
    omega
  refine ⟨pre, old ++ cur.take n, cur.drop n, ?_, ?_, ?_, ?_, ?_, ?_⟩
  · rw [hsplit]
  · rw [List.length_append, htake, Nat.add_assoc]
  · rw [List.length_drop, hcur]
  · rw [List.length_append, htake]
    exact Nat.add_le_add_right hspare n
  · rwa [hsplit]
  · rwa [hsplit]

theorem Cached.unget (h : Cached bits pos spare bd) {n : ℕ} (hn : n ≤ spare) :
    Cached bits (pos - n) 0 { bd with inbufBitCount := bd.inbufBitCount + n } := by
  obtain ⟨pre, old, cur, rfl, rfl, hcur, hspare, hlen, hvalue⟩ := h
  have hsplit : old.take (old.length - n) ++ (old.drop (old.length - n) ++ cur) = old ++ cur := by
    rw [← List.append_assoc, List.take_append_drop]
  refine ⟨pre, old.take (old.length - n), old.drop (old.length - n) ++ cur, ?_, ?_, ?_,
    Nat.zero_le _, ?_, ?_⟩
  · rw [hsplit]
  · rw [List.length_take]
    omega
  · rw [List.length_append, List.length_drop, hcur]
    dsimp only
    omega
  · rwa [hsplit]
  · rwa [hsplit]

theorem Cached.shiftIn (h : Cached bits pos spare bd) {c : UInt8} {input : Input}
    (hinput : bd.input.bits = highBits c ++ input.bits) (hcount : bd.inbufBitCount ≤ 24) :
    Cached bits pos 0 ⟨bd.inbufBitCount + 8, Bunzip2.shiftIn bd.inbufBits c, input⟩ := by
  have hlow := h.low
  obtain ⟨pre, old, cur, rfl, rfl, hcur, hspare, hlen, hvalue⟩ := h
  have hbyte : (highBits c).length = 8 := List.length_ofFn
  rw [drop_register, ← hcur, List.take_left] at hlow
  refine ⟨pre ++ old, [], cur ++ highBits c, ?_, ?_, ?_, Nat.zero_le _, ?_, ?_⟩
  · change _ = pre ++ old ++ ([] ++ (cur ++ highBits c)) ++ input.bits
    rw [hinput]
    simp only [List.append_assoc, List.nil_append]
  · rw [List.length_append]
    rfl
  · rw [List.length_append, hbyte, hcur]
  · rw [List.nil_append, List.length_append, hbyte]
    omega
  · rw [List.nil_append, value_append, value_highBits, List.length_append, hbyte,
      shiftIn_mod _ _ (by omega), hlow]

theorem Cached.length_eq (h : Cached bits pos spare bd) (hinput : bd.input.bits = []) :
    bits.length = pos + bd.inbufBitCount := by
  obtain ⟨pre, old, cur, rfl, rfl, hcur, -⟩ := h
  rw [hinput, List.append_nil, List.length_append, List.length_append, hcur, Nat.add_assoc]

theorem Cached.high (h : Cached bits pos spare bd) {n : ℕ} (hn : n ≤ bd.inbufBitCount) :
    (bd.inbufBits >>> (bd.inbufBitCount - n)) &&& (2 ^ n - 1) = value ((bits.drop pos).take n) := by
  have hle := h.le
  have hlow := h.low
  have htake : (bits.drop pos).take n = ((bits.drop pos).take bd.inbufBitCount).take n := by
    rw [List.take_take, Nat.min_eq_left hn]
  have hlen : ((bits.drop pos).take bd.inbufBitCount).length = bd.inbufBitCount := by
    rw [List.length_take, List.length_drop]
    omega
  have hpow : (2 : ℕ) ^ bd.inbufBitCount = 2 ^ (bd.inbufBitCount - n) * 2 ^ n := by
    rw [← pow_add, Nat.sub_add_cancel hn]
  rw [htake, value_take, hlen, ← hlow, Nat.and_two_pow_sub_one_eq_mod, Nat.shiftRight_eq_div_pow,
    hpow, Nat.mod_mul_right_div_self]

/-! ### The loops -/

theorem getBitsLoop_of_le {acc wanted : ℕ} (h : wanted ≤ bd.inbufBitCount) :
    getBitsLoop acc wanted bd = .ok (acc, wanted, bd) := by
  rw [getBitsLoop, if_neg (not_lt.mpr h)]

/-- The bits of the register, dumped in front of those that are still wanted, are 32 at most. -/
theorem Cached.dumped_lt {wanted : ℕ} (h : Cached bits pos spare bd)
    (hle : bd.inbufBitCount ≤ wanted) (hwanted : wanted ≤ 32) :
    value ((bits.drop pos).take bd.inbufBitCount) * 2 ^ (wanted - bd.inbufBitCount) < 2 ^ 32 := by
  have hlen : ((bits.drop pos).take bd.inbufBitCount).length = bd.inbufBitCount := by
    have hbits := h.le
    rw [List.length_take, List.length_drop]
    omega
  have hlt := value_mul_lt (hlen.trans_le hle)
  rw [hlen] at hlt
  exact lt_of_lt_of_le hlt (Nat.pow_le_pow_right (by decide) hwanted)

/-- What the loop comes to: `k` bits have been dumped, and the register has the others. -/
theorem getBitsLoop_spec {wanted : ℕ} (hwanted : wanted ≤ 32) (h : Cached bits pos spare bd) :
    (pos + wanted ≤ bits.length ∧ ∃ k bd',
      getBitsLoop 0 wanted bd =
        .ok (value ((bits.drop pos).take k) * 2 ^ (wanted - k), wanted - k, bd') ∧
      k ≤ wanted ∧ wanted - k ≤ bd'.inbufBitCount ∧ Cached bits (pos + k) 0 bd' ∧
      (wanted ≤ 24 → k = 0)) ∨
    (bits.length < pos + wanted ∧ getBitsLoop 0 wanted bd = .error (.code (-3))) := by
  induction hm : wanted - bd.inbufBitCount using Nat.strong_induction_on generalizing bd spare with
  | _ m ih =>
    subst hm
    by_cases hcount : bd.inbufBitCount < wanted
    · cases hnext : bd.input.next with
      | none =>
        refine Or.inr ⟨?_, ?_⟩
        · rw [h.length_eq (Input.next_none hnext)]
          omega
        · rw [getBitsLoop, if_pos hcount, hnext]
      | some r =>
        obtain ⟨c, input⟩ := r
        have hinput := Input.next_some hnext
        have hle := h.le
        by_cases hdump : 24 ≤ bd.inbufBitCount
        · -- the register is dumped, and one byte is enough for the rest
          have hrest : wanted - bd.inbufBitCount ≤ 8 := by omega
          have hloop : getBitsLoop 0 wanted bd = .ok
              (value ((bits.drop pos).take bd.inbufBitCount) * 2 ^ (wanted - bd.inbufBitCount),
                wanted - bd.inbufBitCount, ⟨8, shiftIn bd.inbufBits c, input⟩) := by
            rw [getBitsLoop, if_pos hcount, hnext]
            dsimp only
            rw [if_pos hdump, getBitsLoop_of_le hrest, Nat.and_two_pow_sub_one_eq_mod, h.low,
              Nat.shiftLeft_eq, Nat.mod_eq_of_lt (h.dumped_lt hcount.le hwanted)]
          have hcached : Cached bits (pos + bd.inbufBitCount) 0
              ⟨8, shiftIn bd.inbufBits c, input⟩ := by
            have htake := h.take le_rfl
            rw [Nat.sub_self] at htake
            exact htake.shiftIn hinput (Nat.zero_le _)
          have hle' := hcached.le
          refine Or.inl ⟨?_, bd.inbufBitCount, _, hloop, hcount.le, hrest, hcached, fun h24 => ?_⟩
          · dsimp only at hle'
            omega
          · omega
        · -- one byte more
          have hloop : getBitsLoop 0 wanted bd =
              getBitsLoop 0 wanted ⟨bd.inbufBitCount + 8, shiftIn bd.inbufBits c, input⟩ := by
            rw [getBitsLoop, if_pos hcount, hnext]
            dsimp only
            rw [if_neg hdump]
          have hcached := h.shiftIn hinput (by omega)
          rw [hloop]
          exact ih _ (by dsimp only; omega) hcached rfl
    · have hle := not_lt.mp hcount
      refine Or.inl ⟨le_trans (Nat.add_le_add_left hle pos) h.le, 0, bd, ?_, Nat.zero_le _, hle, ?_,
        fun _ => rfl⟩
      · rw [getBitsLoop_of_le hle, List.take_zero, value_nil, Nat.zero_mul]
        rfl
      · exact h.mono (Nat.zero_le _)

/-- **`get_bits` reads the next bits.** -/
theorem getBits_spec {wanted : ℕ} (hwanted : wanted ≤ 32) (h : Cached bits pos spare bd) :
    (∃ bd', getBits wanted bd = .ok (value ((bits.drop pos).take wanted), bd') ∧
      bitsAt bits wanted pos = .ok (value ((bits.drop pos).take wanted), pos + wanted) ∧
      Cached bits (pos + wanted) (if wanted ≤ 24 then wanted else 0) bd') ∨
    (getBits wanted bd = .error (.code (-3)) ∧ bitsAt bits wanted pos = .error (.code (-3))) := by
  rcases getBitsLoop_spec hwanted h with
    ⟨hle, k, bd', hloop, hk, hcount, hcached, h24⟩ | ⟨hlt, hloop⟩
  · refine Or.inl ⟨{ bd' with inbufBitCount := bd'.inbufBitCount - (wanted - k) }, ?_,
      if_pos hle, ?_⟩
    · have hhigh := hcached.high hcount
      have hlen : ((bits.drop (pos + k)).take (wanted - k)).length = wanted - k := by
        rw [List.length_take, List.length_drop]
        omega
      have hsplit : (bits.drop pos).take wanted =
          (bits.drop pos).take k ++ (bits.drop (pos + k)).take (wanted - k) := by
        rw [← List.drop_drop, ← List.take_add, Nat.add_sub_cancel' hk]
      have hlt := value_lt ((bits.drop (pos + k)).take (wanted - k))
      rw [hlen] at hlt
      have hor := Nat.shiftLeft_add_eq_or_of_lt hlt (value ((bits.drop pos).take k))
      rw [getBits, hloop]
      change Except.ok (_ ||| ((_ >>> (_ - (wanted - k))) &&& _), _) = _
      rw [hhigh, hsplit, value_append, hlen, ← Nat.shiftLeft_eq, hor]
    · have htake := hcached.take hcount
      rw [Nat.zero_add, Nat.add_assoc, Nat.add_sub_cancel' hk] at htake
      by_cases hle24 : wanted ≤ 24
      · rw [if_pos hle24]
        rw [h24 hle24, Nat.sub_zero] at htake ⊢
        exact htake
      · rw [if_neg hle24]
        exact htake.mono (Nat.zero_le _)
  · refine Or.inr ⟨?_, if_neg (not_le.mpr hlt)⟩
    rw [getBits, hloop]
    rfl

theorem Cached.count_le (h : Cached bits pos spare bd) : bd.inbufBitCount ≤ 32 := by
  obtain ⟨pre, old, cur, -, -, hcur, -, hlen, -⟩ := h
  rw [List.length_append] at hlen
  omega

theorem getBitsLoop_count {acc wanted : ℕ} {r : ℕ × ℕ × Inbuf} (h : getBitsLoop acc wanted bd = .ok r)
    (hcount : bd.inbufBitCount < wanted + 8) : r.2.2.inbufBitCount < r.2.1 + 8 := by
  induction hm : wanted - bd.inbufBitCount using Nat.strong_induction_on
    generalizing acc wanted bd with
  | _ m ih =>
    subst hm
    rw [getBitsLoop] at h
    by_cases hwanted : bd.inbufBitCount < wanted
    · rw [if_pos hwanted] at h
      cases hnext : bd.input.next with
      | none =>
        rw [hnext] at h
        cases h
      | some next =>
        rw [hnext] at h
        dsimp only at h
        by_cases hdump : 24 ≤ bd.inbufBitCount
        · rw [if_pos hdump] at h
          exact ih _ (by dsimp only; omega) h (by dsimp only; omega) rfl
        · rw [if_neg hdump] at h
          exact ih _ (by dsimp only; omega) h (by dsimp only; omega) rfl
    · rw [if_neg hwanted] at h
      obtain rfl := Except.ok.inj h
      exact hcount

/-- The register keeps less than a byte, unless it had all the bits. -/
theorem getBits_count {wanted v : ℕ} {bd' : Inbuf} (h : getBits wanted bd = .ok (v, bd')) :
    bd'.inbufBitCount < 8 ∨ bd'.inbufBitCount + wanted = bd.inbufBitCount := by
  rw [getBits] at h
  cases hloop : getBitsLoop 0 wanted bd with
  | error e =>
    rw [hloop] at h
    cases h
  | ok r =>
    obtain ⟨acc, rest, bd₁⟩ := r
    rw [hloop] at h
    obtain ⟨-, rfl⟩ := Prod.mk.inj (Except.ok.inj h)
    by_cases hwanted : wanted ≤ bd.inbufBitCount
    · rw [getBitsLoop_of_le hwanted] at hloop
      obtain ⟨-, hpair⟩ := Prod.mk.inj (Except.ok.inj hloop)
      obtain ⟨rfl, rfl⟩ := Prod.mk.inj hpair
      exact Or.inr (Nat.sub_add_cancel hwanted)
    · have hcount := getBitsLoop_count hloop (by omega)
      dsimp only at hcount ⊢
      exact Or.inl (by omega)

theorem getCode_spec {maxLen : ℕ} (hmax : maxLen ≤ 24) (h : Cached bits pos spare bd) :
    (∃ bd', getCode maxLen bd = .ok (value ((bits.drop pos).take maxLen), bd') ∧
      bitsAt bits maxLen pos = .ok (value ((bits.drop pos).take maxLen), pos + maxLen) ∧
      Cached bits (pos + maxLen) maxLen bd') ∨
    (getCode maxLen bd = .error (.code (-3)) ∧ bitsAt bits maxLen pos = .error (.code (-3))) := by
  induction hm : maxLen - bd.inbufBitCount using Nat.strong_induction_on generalizing bd spare with
  | _ m ih =>
    subst hm
    by_cases hcount : bd.inbufBitCount < maxLen
    · obtain ⟨count, register, ⟨inbuf, reads⟩⟩ := bd
      cases inbuf with
      | nil =>
        have hcode : getCode maxLen ⟨count, register, ⟨[], reads⟩⟩ =
            getBits maxLen ⟨count, register, ⟨[], reads⟩⟩ := by
          rw [getCode, if_pos hcount]
        rw [hcode]
        have hbits := getBits_spec (hmax.trans (by decide)) h
        rwa [if_pos hmax] at hbits
      | cons c inbuf =>
        have hcode : getCode maxLen ⟨count, register, ⟨c :: inbuf, reads⟩⟩ =
            getCode maxLen ⟨count + 8, shiftIn register c, ⟨inbuf, reads⟩⟩ := by
          rw [getCode, if_pos hcount]
        have hinput : (Input.mk (c :: inbuf) reads).bits =
            highBits c ++ (Input.mk inbuf reads).bits := rfl
        dsimp only at hcount
        have hcached := h.shiftIn hinput (by dsimp only; omega)
        rw [hcode]
        exact ih _ (by dsimp only; omega) hcached rfl
    · have hle := not_lt.mp hcount
      refine Or.inl ⟨{ bd with inbufBitCount := bd.inbufBitCount - maxLen }, ?_, ?_, ?_⟩
      · rw [getCode, if_neg hcount, ← h.high hle]
      · exact if_pos (le_trans (Nat.add_le_add_left hle pos) h.le)
      · exact (h.take hle).mono (Nat.le_add_left _ _)

/-! ### Programs -/

section Programs

variable {σ α β : Type}

theorem bind_ok {x : StateT σ (Except Fail) α} {f : α → StateT σ (Except Fail) β} {s s' : σ} {a : α}
    (h : x s = .ok (a, s')) : (x >>= f) s = f a s' := by
  change (x s >>= fun r => f r.1 r.2) = _
  rw [h]
  rfl

theorem bind_error {x : StateT σ (Except Fail) α} {f : α → StateT σ (Except Fail) β} {s : σ}
    {e : Fail} (h : x s = .error e) : (x >>= f) s = .error e := by
  change (x s >>= fun r => f r.1 r.2) = _
  rw [h]
  rfl

theorem of_bind_ok {x : StateT σ (Except Fail) α} {f : α → StateT σ (Except Fail) β} {s s' : σ}
    {b : β} (h : (x >>= f) s = .ok (b, s')) :
    ∃ a s₁, x s = .ok (a, s₁) ∧ f a s₁ = .ok (b, s') := by
  cases hx : x s with
  | error e =>
    rw [bind_error hx] at h
    cases h
  | ok r =>
    rw [bind_ok hx] at h
    exact ⟨r.1, r.2, rfl, h⟩

/-- Two programs, one over the register and one over the string of bits, that come to the same.
With an `excuse` the second one may find a run too long instead. -/
def Agree (bits : List Bool) (excuse : Prop) (x : StateT Inbuf (Except Fail) α)
    (y : StateT ℕ (Except Fail) α) : Prop :=
  ∀ bd pos, Cached bits pos 0 bd →
    (∃ a bd' pos', x bd = .ok (a, bd') ∧ y pos = .ok (a, pos') ∧ Cached bits pos' 0 bd') ∨
      (∃ e, x bd = .error e ∧ y pos = .error e) ∨ excuse ∧ y pos = .error .longRun

variable {excuse : Prop} {x x' : StateT Inbuf (Except Fail) α} {y y' : StateT ℕ (Except Fail) α}

theorem Agree.pure (a : α) : Agree bits excuse (pure a) (pure a) :=
  fun bd pos h => Or.inl ⟨a, bd, pos, rfl, rfl, h⟩

theorem Agree.throw (e : Fail) : Agree (α := α) bits excuse (throw e) (throw e) :=
  fun _ _ _ => Or.inr (Or.inl ⟨e, rfl, rfl⟩)

theorem Agree.lift {z z' : Except Fail α} (h : z = z' ∨ excuse ∧ z' = .error .longRun) :
    Agree bits excuse (liftM z) (liftM z') := by
  intro bd pos hcached
  rcases h with rfl | ⟨hexcuse, rfl⟩
  · cases z with
    | error e => exact Or.inr (Or.inl ⟨e, rfl, rfl⟩)
    | ok a => exact Or.inl ⟨a, bd, pos, rfl, rfl, hcached⟩
  · exact Or.inr (Or.inr ⟨hexcuse, rfl⟩)

theorem Agree.bind_of {f : α → StateT Inbuf (Except Fail) β} {g : α → StateT ℕ (Except Fail) β}
    (h : Agree bits excuse x y)
    (hf : ∀ a pos pos', y pos = .ok (a, pos') → Agree bits excuse (f a) (g a)) :
    Agree bits excuse (x >>= f) (y >>= g) := by
  intro bd pos hcached
  rcases h bd pos hcached with ⟨a, bd', pos', hx, hy, hcached'⟩ | ⟨e, hx, hy⟩ | ⟨hexcuse, hy⟩
  · rw [bind_ok hx, bind_ok hy]
    exact hf a pos pos' hy bd' pos' hcached'
  · exact Or.inr (Or.inl ⟨e, bind_error hx, bind_error hy⟩)
  · exact Or.inr (Or.inr ⟨hexcuse, bind_error hy⟩)

theorem Agree.bind {f : α → StateT Inbuf (Except Fail) β} {g : α → StateT ℕ (Except Fail) β}
    (h : Agree bits excuse x y) (hf : ∀ a, Agree bits excuse (f a) (g a)) :
    Agree bits excuse (x >>= f) (y >>= g) :=
  h.bind_of fun a _ _ _ => hf a

theorem Agree.ite {p : Prop} [Decidable p] (h : Agree bits excuse x y)
    (h' : Agree bits excuse x' y') :
    Agree bits excuse (if p then x else x') (if p then y else y') := by
  by_cases hp : p
  · rw [if_pos hp, if_pos hp]
    exact h
  · rw [if_neg hp, if_neg hp]
    exact h'

theorem agree_getBits {n : ℕ} (hn : n ≤ 32) :
    Agree bits excuse (inbufReader.getBits n) ((bitReader bits).getBits n) := by
  intro bd pos hcached
  rcases getBits_spec hn hcached with ⟨bd', hx, hy, hcached'⟩ | ⟨hx, hy⟩
  · exact Or.inl ⟨_, bd', _, hx, hy, hcached'.mono (Nat.zero_le _)⟩
  · exact Or.inr (Or.inl ⟨_, hx, hy⟩)

theorem agree_thenUnget {z : StateT Inbuf (Except Fail) ℕ} {n : ℕ} {extra : ℕ → ℕ}
    (hz : ∀ bd pos, Cached bits pos 0 bd →
      (∃ bd', z bd = .ok (value ((bits.drop pos).take n), bd') ∧
        bitsAt bits n pos = .ok (value ((bits.drop pos).take n), pos + n) ∧
        Cached bits (pos + n) n bd') ∨
      (z bd = .error (.code (-3)) ∧ bitsAt bits n pos = .error (.code (-3))))
    (hextra : ∀ v, extra v ≤ n) :
    Agree bits excuse (inbufReader.thenUnget z extra)
      ((bitReader bits).thenUnget (bitsAt bits n) extra) := by
  intro bd pos hcached
  unfold Reader.thenUnget
  rcases hz bd pos hcached with ⟨bd', hx, hy, hcached'⟩ | ⟨hx, hy⟩
  · rw [hx, hy]
    exact Or.inl ⟨value ((bits.drop pos).take n), _, _, rfl, rfl,
      hcached'.unget (hextra (value ((bits.drop pos).take n)))⟩
  · rw [hx, hy]
    exact Or.inr (Or.inl ⟨.code (-3), rfl, rfl⟩)

theorem agree_getBits_unget {n : ℕ} (hn : n ≤ 24) {extra : ℕ → ℕ} (hextra : ∀ v, extra v ≤ n) :
    Agree bits excuse (inbufReader.thenUnget (inbufReader.getBits n) extra)
      ((bitReader bits).thenUnget ((bitReader bits).getBits n) extra) := by
  refine agree_thenUnget (fun bd pos h => ?_) hextra
  have hspec := getBits_spec (hn.trans (by decide)) h
  rwa [if_pos hn] at hspec

theorem agree_getCode_unget {n : ℕ} (hn : n ≤ 24) {extra : ℕ → ℕ} (hextra : ∀ v, extra v ≤ n) :
    Agree bits excuse (inbufReader.thenUnget (inbufReader.getCode n) extra)
      ((bitReader bits).thenUnget ((bitReader bits).getCode n) extra) :=
  agree_thenUnget (fun _ _ h => getCode_spec hn h) hextra

end Programs

end Rustybox.Bunzip2
