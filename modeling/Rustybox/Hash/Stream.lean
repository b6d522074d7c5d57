import Rustybox.Rust.Bytes

/-!
# The block functions of the hashes, and their contexts

Arrays of words are vectors.  The SHA-2 functions swap the bytes of the words they read and
write, so that the high byte comes first.

The callers of these functions hand over a message piece by piece.  A context keeps the
bytes of a block that is not full yet, either in `wbuffer` (MD5 and the SHA-2 functions, by
`hashLoop`) or already mixed into the state (SHA3, by `sha3Loop`).

Positions in a block are machine words of 32 bits; both loops end on a subtraction that
wraps around.
-/

namespace Rustybox.Hash

open Rustybox.Rust

/-! ### Words in memory -/

def word32 (buf : List UInt8) (i : ℕ) : UInt32 :=
  UInt32.ofNat (ofLeBytes ((buf.drop (4 * i)).take 4))

def word64 (buf : List UInt8) (i : ℕ) : UInt64 :=
  UInt64.ofNat (ofLeBytes ((buf.drop (8 * i)).take 8))

def swap32 (x : UInt32) : UInt32 := UInt32.ofNat (swapBytes 4 x.toNat)

def swap64 (x : UInt64) : UInt64 := UInt64.ofNat (swapBytes 8 x.toNat)

/-- An array of words of four bytes as it lies in memory. -/
def bytes32 (words : List UInt32) : List UInt8 := words.flatMap (fun w => leBytes 4 w.toNat)

/-- An array of words of eight bytes as it lies in memory. -/
def bytes64 (words : List UInt64) : List UInt8 := words.flatMap (fun w => leBytes 8 w.toNat)

def rotl32 (x n : UInt32) : UInt32 := x <<< n ||| x >>> (32 - n)

def rotr32 (x n : UInt32) : UInt32 := x >>> n ||| x <<< (32 - n)

def rotr64 (x n : UInt64) : UInt64 := x >>> n ||| x <<< (64 - n)

def rotl64 (x n : UInt64) : UInt64 := x <<< n ||| x >>> (64 - n)

/-! ### MD5 -/

def cArray : List UInt32 :=
  [0xd76aa478, 0xe8c7b756, 0x242070db, 0xc1bdceee, 0xf57c0faf, 0x4787c62a, 0xa8304613,
   0xfd469501, 0x698098d8, 0x8b44f7af, 0xffff5bb1, 0x895cd7be, 0x6b901122, 0xfd987193,
   0xa679438e, 0x49b40821, 0xf61e2562, 0xc040b340, 0x265e5a51, 0xe9b6c7aa, 0xd62f105d,
   0x02441453, 0xd8a1e681, 0xe7d3fbc8, 0x21e1cde6, 0xc33707d6, 0xf4d50d87, 0x455a14ed,
   0xa9e3e905, 0xfcefa3f8, 0x676f02d9, 0x8d2a4c8a, 0xfffa3942, 0x8771f681, 0x6d9d6122,
   0xfde5380c, 0xa4beea44, 0x4bdecfa9, 0xf6bb4b60, 0xbebfbc70, 0x289b7ec6, 0xeaa127fa,
   0xd4ef3085, 0x04881d05, 0xd9d4d039, 0xe6db99e5, 0x1fa27cf8, 0xc4ac5665, 0xf4292244,
   0x432aff97, 0xab9423a7, 0xfc93a039, 0x655b59c3, 0x8f0ccc92, 0xffeff47d, 0x85845dd1,
   0x6fa87e4f, 0xfe2ce6e0, 0xa3014314, 0x4e0811a1, 0xf7537e82, 0xbd3af235, 0x2ad7d2bb,
   0xeb86d391]

/-- `P_array`: the words the rounds 2 to 4 take. -/
def pArray : List ℕ :=
  [1, 6, 11, 0, 5, 10, 15, 4, 9, 14, 3, 8, 13, 2, 7, 12, 5, 8, 11, 14, 1, 4, 7, 10,
   13, 0, 3, 6, 9, 12, 15, 2, 0, 7, 14, 5, 12, 3, 10, 1, 8, 15, 6, 13, 4, 11, 2, 9]

/-- The variables `A`, `B`, `C`, `D` of `md5_process_block64`. -/
abbrev Md5Vars := UInt32 × UInt32 × UInt32 × UInt32

/-- One line of a round. -/
def md5Op (f : UInt32 → UInt32 → UInt32 → UInt32) (a b c d word const rot : UInt32) : UInt32 :=
  rotl32 (a + (f b c d + word + const)) rot + b

/-- One turn of the loop of a round, which takes four words and four constants. -/
def md5Turn (f : UInt32 → UInt32 → UInt32 → UInt32) (r : ℕ → UInt32) (word const : ℕ → UInt32)
    (v : Md5Vars) : Md5Vars :=
  let (a, b, c, d) := v
  let a := md5Op f a b c d (word 0) (const 0) (r 0)
  let d := md5Op f d a b c (word 1) (const 1) (r 1)
  let c := md5Op f c d a b (word 2) (const 2) (r 2)
  let b := md5Op f b c d a (word 3) (const 3) (r 3)
  (a, b, c, d)

/-- A round: `word` and `const` give its sixteen words and constants, `r` the rotations. -/
def md5Round (f : UInt32 → UInt32 → UInt32 → UInt32) (r : List UInt32)
    (word const : ℕ → UInt32) (v : Md5Vars) : Md5Vars :=
  (List.range 4).foldl
    (fun v i => md5Turn f (r.getD · 0) (fun j => word (4 * i + j)) (fun j => const (4 * i + j)) v)
    v

/-- The end of `md5_process_block64`: the variables are added to the `hash`. -/
def md5Add (hash : Vector UInt32 4) (v : Md5Vars) : Vector UInt32 4 :=
  #v[hash[0] + v.1, hash[1] + v.2.1, hash[2] + v.2.2.1, hash[3] + v.2.2.2]

/-- `md5_process_block64`: the new `hash`. -/
def md5ProcessBlock64 (hash : Vector UInt32 4) (wbuffer : List UInt8) : Vector UInt32 4 :=
  let const (round i : ℕ) := cArray.getD (16 * round + i) 0
  let word (round i : ℕ) := word32 wbuffer (pArray.getD (16 * (round - 1) + i) 0)
  let v := (hash[0], hash[1], hash[2], hash[3])
  let v := md5Round (fun b c d => d ^^^ (b &&& (c ^^^ d))) [7, 12, 17, 22] (word32 wbuffer)
    (const 0) v
  let v := md5Round (fun b c d => c ^^^ (d &&& (b ^^^ c))) [5, 9, 14, 20] (word 1) (const 1) v
  let v := md5Round (fun b c d => b ^^^ c ^^^ d) [4, 11, 16, 23] (word 2) (const 2) v
  let v := md5Round (fun b c d => c ^^^ (b ||| ~~~d)) [6, 10, 15, 21] (word 3) (const 3) v
  md5Add hash v

/-! ### SHA-256 and SHA-512 -/

/-- `sha_K`; SHA-256 uses the upper halves. -/
def shaK : List UInt64 :=
  [0x428a2f98d728ae22, 0x7137449123ef65cd, 0xb5c0fbcfec4d3b2f, 0xe9b5dba58189dbbc,
   0x3956c25bf348b538, 0x59f111f1b605d019, 0x923f82a4af194f9b, 0xab1c5ed5da6d8118,
   0xd807aa98a3030242, 0x12835b0145706fbe, 0x243185be4ee4b28c, 0x550c7dc3d5ffb4e2,
   0x72be5d74f27b896f, 0x80deb1fe3b1696b1, 0x9bdc06a725c71235, 0xc19bf174cf692694,
   0xe49b69c19ef14ad2, 0xefbe4786384f25e3, 0x0fc19dc68b8cd5b5, 0x240ca1cc77ac9c65,
   0x2de92c6f592b0275, 0x4a7484aa6ea6e483, 0x5cb0a9dcbd41fbd4, 0x76f988da831153b5,
   0x983e5152ee66dfab, 0xa831c66d2db43210, 0xb00327c898fb213f, 0xbf597fc7beef0ee4,
   0xc6e00bf33da88fc2, 0xd5a79147930aa725, 0x06ca6351e003826f, 0x142929670a0e6e70,
   0x27b70a8546d22ffc, 0x2e1b21385c26c926, 0x4d2c6dfc5ac42aed, 0x53380d139d95b3df,
   0x650a73548baf63de, 0x766a0abb3c77b2a8, 0x81c2c92e47edaee6, 0x92722c851482353b,
   0xa2bfe8a14cf10364, 0xa81a664bbc423001, 0xc24b8b70d0f89791, 0xc76c51a30654be30,
   0xd192e819d6ef5218, 0xd69906245565a910, 0xf40e35855771202a, 0x106aa07032bbd1b8,
   0x19a4c116b8d2d0c8, 0x1e376c085141ab53, 0x2748774cdf8eeb99, 0x34b0bcb5e19b48a8,
   0x391c0cb3c5c95a63, 0x4ed8aa4ae3418acb, 0x5b9cca4f7763e373, 0x682e6ff3d6b2b8a3,
   0x748f82ee5defb2fc, 0x78a5636f43172f60, 0x84c87814a1f0ab72, 0x8cc702081a6439ec,
   0x90befffa23631e28, 0xa4506cebde82bde9, 0xbef9a3f7b2c67915, 0xc67178f2e372532b,
   0xca273eceea26619c, 0xd186b8c721c0c207, 0xeada7dd6cde0eb1e, 0xf57d4f7fee6ed178,
   0x06f067aa72176fba, 0x0a637dc5a2c898a6, 0x113f9804bef90dae, 0x1b710b35131c471b,
   0x28db77f523047d84, 0x32caab7b40c72493, 0x3c9ebe0a15c9bebc, 0x431d67c49c100d4c,
   0x4cc5d4becb3e42b6, 0x597f299cfc657e2a, 0x5fcb6fab3ad6faec, 0x6c44198c4a475817]

/-- The message schedule `W` of SHA-256, extended by `n` words. -/
def schedule256 : ℕ → List UInt32 → List UInt32
  | 0, w => w
  | n + 1, w =>
    let prev (k : ℕ) := w.getD (w.length - k) 0
    schedule256 n (w ++
      [(rotr32 (prev 2) 17 ^^^ rotr32 (prev 2) 19 ^^^ prev 2 >>> 10) + prev 7 +
        (rotr32 (prev 15) 7 ^^^ rotr32 (prev 15) 18 ^^^ prev 15 >>> 3) + prev 16])

/-- One turn of the main loop of SHA-256. -/
def sha256Turn (v : Vector UInt32 8) (k w : UInt32) : Vector UInt32 8 :=
  let t1 := v[7] + (rotr32 v[4] 6 ^^^ rotr32 v[4] 11 ^^^ rotr32 v[4] 25) +
    ((v[4] &&& v[5]) ^^^ (~~~v[4] &&& v[6])) + k + w
  let t2 := (rotr32 v[0] 2 ^^^ rotr32 v[0] 13 ^^^ rotr32 v[0] 22) +
    ((v[0] &&& v[1]) ^^^ (v[0] &&& v[2]) ^^^ (v[1] &&& v[2]))
  #v[t1 + t2, v[0], v[1], v[2], v[3] + t1, v[4], v[5], v[6]]

/-- `sha256_process_block64`: the new `hash`. -/
def sha256ProcessBlock64 (hash : Vector UInt32 8) (wbuffer : List UInt8) : Vector UInt32 8 :=
  let w := schedule256 48 ((List.range 16).map (fun t => swap32 (word32 wbuffer t)))
  let v := (List.range 64).foldl
    (fun v t => sha256Turn v (shaK.getD t 0 >>> 32).toUInt32 (w.getD t 0)) hash
  hash.zipWith (· + ·) v

/-- The message schedule `W` of SHA-512, extended by `n` words. -/
def schedule512 : ℕ → List UInt64 → List UInt64
  | 0, w => w
  | n + 1, w =>
    let prev (k : ℕ) := w.getD (w.length - k) 0
    schedule512 n (w ++
      [(rotr64 (prev 2) 19 ^^^ rotr64 (prev 2) 61 ^^^ prev 2 >>> 6) + prev 7 +
        (rotr64 (prev 15) 1 ^^^ rotr64 (prev 15) 8 ^^^ prev 15 >>> 7) + prev 16])

/-- One turn of the main loop of SHA-512. -/
def sha512Turn (v : Vector UInt64 8) (k w : UInt64) : Vector UInt64 8 :=
  let t1 := v[7] + (rotr64 v[4] 14 ^^^ rotr64 v[4] 18 ^^^ rotr64 v[4] 41) +
    ((v[4] &&& v[5]) ^^^ (~~~v[4] &&& v[6])) + k + w
  let t2 := (rotr64 v[0] 28 ^^^ rotr64 v[0] 34 ^^^ rotr64 v[0] 39) +
    ((v[0] &&& v[1]) ^^^ (v[0] &&& v[2]) ^^^ (v[1] &&& v[2]))
  #v[t1 + t2, v[0], v[1], v[2], v[3] + t1, v[4], v[5], v[6]]

/-- `sha512_process_block128`: the new `hash`. -/
def sha512ProcessBlock128 (hash : Vector UInt64 8) (wbuffer : List UInt8) : Vector UInt64 8 :=
  let w := schedule512 64 ((List.range 16).map (fun t => swap64 (word64 wbuffer t)))
  let v := (List.range 80).foldl (fun v t => sha512Turn v (shaK.getD t 0) (w.getD t 0)) hash
  hash.zipWith (· + ·) v

/-! ### SHA3 -/

def iotaConst : List UInt64 :=
  [0x0001, 0x8082, 0x808a, 0x8000, 0x808b, 0x0001, 0x8081, 0x8009, 0x008a, 0x0088, 0x8009, 0x000a,
   0x808b, 0x008b, 0x8089, 0x8003, 0x8002, 0x0080, 0x800a, 0x000a, 0x8081, 0x8080, 0x0001, 0x8008]

def rotConst : List UInt64 :=
  [1, 3, 6, 10, 15, 21, 28, 36, 45, 55, 2, 14, 27, 41, 56, 8, 25, 43, 62, 18, 39, 61, 20, 44]

def piLane : List ℕ :=
  [10, 7, 11, 17, 18, 3, 5, 16, 8, 21, 24, 4, 15, 23, 19, 13, 12, 2, 20, 14, 22, 9, 6, 1]

/-- The `state` of SHA3, read at any index. -/
def lane (state : Vector UInt64 25) (i : ℕ) : UInt64 := state[i]?.getD 0

def theta (state : Vector UInt64 25) : Vector UInt64 25 :=
  let bc (x : ℕ) := lane state x ^^^ lane state (x + 5) ^^^ lane state (x + 10) ^^^
    lane state (x + 15) ^^^ lane state (x + 20)
  state.mapIdx (fun i s => s ^^^ (bc ((i + 4) % 5) ^^^ rotl64 (bc ((i + 1) % 5)) 1))

/-- The steps Rho and Pi: each lane goes, rotated, to the place of the next one on the way
`PI_LANE`; the second component is `t1`. -/
def rhoPi (state : Vector UInt64 25) : Vector UInt64 25 :=
  ((List.range 24).foldl
    (fun (p : Vector UInt64 25 × UInt64) x =>
      let j := piLane.getD x 0
      (p.1.setIfInBounds j (rotl64 p.2 (rotConst.getD x 0)), lane p.1 j))
    (state, lane state 1)).1

/-- The step Chi, row by row. -/
def chi (state : Vector UInt64 25) : Vector UInt64 25 :=
  state.mapIdx (fun i s =>
    let row := i / 5 * 5
    s ^^^ (~~~(lane state (row + (i + 1) % 5)) &&& lane state (row + (i + 2) % 5)))

def iota (round : ℕ) (state : Vector UInt64 25) : Vector UInt64 25 :=
  let bit31 : UInt32 := (0x16381b00 <<< UInt32.ofNat round) &&& 0x80000000
  let bit63 : UInt32 := (0x3307dd00 <<< UInt32.ofNat round) &&& 0x80000000
  state.setIfInBounds 0 (lane state 0 ^^^
    (iotaConst.getD round 0 ||| bit31.toUInt64 ||| bit63.toUInt64 <<< 32))

def sha3ProcessBlock72 (state : Vector UInt64 25) : Vector UInt64 25 :=
  (List.range 24).foldl (fun s round => iota round (chi (rhoPi (theta s)))) state

/-- `buf[pos] ^= byte` for the bytes of the state. -/
def xorByte (state : Vector UInt64 25) (pos : ℕ) (byte : UInt8) : Vector UInt64 25 :=
  state.setIfInBounds (pos / 8)
    (lane state (pos / 8) ^^^ byte.toUInt64 <<< UInt64.ofNat (8 * (pos % 8)))

/-! ## Contexts: begin, hash, end -/

/-- `wrapping_add` of `u32`. -/
def wrappingAdd (a b : ℕ) : ℕ := (a + b) % 2 ^ 32

/-- `wrapping_sub` of `u32`. -/
def wrappingSub (a b : ℕ) : ℕ := (a % 2 ^ 32 + (2 ^ 32 - b % 2 ^ 32)) % 2 ^ 32

/-- `memcpy` into a buffer. -/
def memcpy (dst : List UInt8) (pos : ℕ) (src : List UInt8) : List UInt8 :=
  dst.take pos ++ src ++ dst.drop (pos + src.length)

/-- The number of bytes in a block: not zero, and a `u32`. -/
structure Width where
  bytes : ℕ
  pos : 0 < bytes
  lt : bytes < 2 ^ 32

/-- A turn of a loop that ends with a full block has read something, unless the block was
full before it. -/
theorem turn_decreases (w : Width) {bufpos bufpos' len : ℕ}
    (h : wrappingSub (wrappingAdd bufpos (min (wrappingSub w.bytes bufpos) len)) w.bytes = bufpos')
    (h0 : bufpos' = 0) :
    Prod.Lex (· < ·) (· < ·) (len - min (wrappingSub w.bytes bufpos) len, bufpos')
      (len, bufpos) := by
  have hpos := w.pos
  have hlt := w.lt
  simp only [wrappingSub, wrappingAdd] at h
  simp only [Prod.lex_def, wrappingSub]
  omega

/-- With no room for the bit count the position is not the start of a block. -/
theorem bufpos_pos_of_no_room (w : Width) {bufpos count : ℕ} (hcount : count ≤ w.bytes)
    (h : ¬ count ≤ wrappingSub w.bytes bufpos) : 0 < bufpos := by
  have hlt := w.lt
  simp only [wrappingSub] at h
  omega

theorem length_memcpy {dst src : List UInt8} {pos : ℕ} (h : pos + src.length ≤ dst.length) :
    (memcpy dst pos src).length = dst.length := by
  simp only [memcpy, List.length_append, List.length_take, List.length_drop]
  omega

theorem wrappingSub_of_le {a b : ℕ} (hb : b ≤ a) (ha : a < 2 ^ 32) : wrappingSub a b = a - b := by
  simp only [wrappingSub]
  omega

theorem full_iff {n bufpos remaining : ℕ} (h : bufpos + remaining ≤ n) (hn : n < 2 ^ 32) :
    wrappingSub (wrappingAdd bufpos remaining) n ≠ 0 ↔ bufpos + remaining < n := by
  simp only [wrappingSub, wrappingAdd]
  omega

section Buffered

variable {H : Type} (process : H → List UInt8 → H)

/-- The loop of `common64_hash` and of `sha512_hash`: the new `hash` and `wbuffer`. -/
def hashLoop (w : Width) (hash : H) (wbuffer : List UInt8) (bufpos : ℕ) (buffer : List UInt8) :
    H × List UInt8 :=
  let remaining := min (wrappingSub w.bytes bufpos) buffer.length
  let wbuffer := memcpy wbuffer bufpos (buffer.take remaining)
  let bufpos' := wrappingSub (wrappingAdd bufpos remaining) w.bytes
  if bufpos' ≠ 0 then (hash, wbuffer)
  else hashLoop w (process hash wbuffer) wbuffer bufpos' (buffer.drop remaining)
termination_by (buffer.length, bufpos)
decreasing_by
  rename_i h
  rw [List.length_drop]
  exact turn_decreases w rfl (not_not.mp h)

theorem length_hashLoop (w : Width) (hash : H) (wbuffer : List UInt8) (bufpos : ℕ)
    (buffer : List UInt8) (hw : wbuffer.length = w.bytes) (hpos : bufpos < w.bytes) :
    (hashLoop process w hash wbuffer bufpos buffer).2.length = w.bytes := by
  have hlt := w.lt
  have hwpos := w.pos
  fun_induction hashLoop process w hash wbuffer bufpos buffer with
  | case1 hash wbuffer bufpos buffer remaining wbuffer' bufpos' h =>
    have hsub : wrappingSub w.bytes bufpos = w.bytes - bufpos :=
      wrappingSub_of_le (by omega) hlt
    show (memcpy wbuffer bufpos (buffer.take remaining)).length = w.bytes
    rw [length_memcpy (by rw [List.length_take]; omega), hw]
  | case2 hash wbuffer bufpos buffer remaining wbuffer' bufpos' h ih =>
    have hsub : wrappingSub w.bytes bufpos = w.bytes - bufpos :=
      wrappingSub_of_le (by omega) hlt
    have hw' : wbuffer'.length = w.bytes := by
      show (memcpy wbuffer bufpos (buffer.take remaining)).length = w.bytes
      rw [length_memcpy (by rw [List.length_take]; omega), hw]
    exact ih hw' (by omega)

/-- The loop of `common64_end` and of `sha512_end`, which runs once or twice: the new `hash`.
The last bytes of the last block are the bit count. -/
def endLoop (w : Width) (count : List UInt8) (hcount : count.length ≤ w.bytes) (hash : H)
    (wbuffer : List UInt8) (bufpos : ℕ) : H :=
  let remaining := wrappingSub w.bytes bufpos
  let wbuffer := memcpy wbuffer bufpos (List.replicate remaining 0)
  let wbuffer :=
    if count.length ≤ remaining then memcpy wbuffer (w.bytes - count.length) count else wbuffer
  let hash := process hash wbuffer
  if count.length ≤ remaining then hash else endLoop w count hcount hash wbuffer 0
termination_by bufpos
decreasing_by
  rename_i h
  exact bufpos_pos_of_no_room w hcount h

end Buffered

/-! ### MD5 and SHA-256 -/

/-- `md5_ctx_t`, which SHA-256 uses too, without the pointer to the block function. -/
structure Ctx (H : Type) where
  wbuffer : List UInt8
  total64 : ℕ
  hash : H
  wbuffer_length : wbuffer.length = 64

def width64 : Width := ⟨64, by decide, by decide⟩

def common64Hash {H : Type} (process : H → List UInt8 → H) (ctx : Ctx H) (buffer : List UInt8) :
    Ctx H :=
  let r := hashLoop process width64 ctx.hash ctx.wbuffer (ctx.total64 % 64) buffer
  { wbuffer := r.2
    total64 := (ctx.total64 + buffer.length) % 2 ^ 64
    hash := r.1
    wbuffer_length := length_hashLoop process width64 _ _ _ _ ctx.wbuffer_length
      (Nat.mod_lt _ (by decide)) }

/-- `common64_end`: the `hash` at its end. -/
def common64End {H : Type} (process : H → List UInt8 → H) (ctx : Ctx H) (swapNeeded : Bool) : H :=
  let bufpos := ctx.total64 % 64
  let t := ctx.total64 * 2 ^ 3 % 2 ^ 64
  let t := if swapNeeded then swapBytes 8 t else t
  endLoop process width64 (leBytes 8 t) (by rw [length_leBytes]; decide) ctx.hash
    (memcpy ctx.wbuffer bufpos [0x80]) (wrappingAdd bufpos 1)

/-- The words that `md5_begin` starts with. -/
def initMd5 : Vector UInt32 4 := #v[0x67452301, 0xefcdab89, 0x98badcfe, 0x10325476]

/-- `md5_begin`; `wbuffer` keeps whatever it holds. -/
def md5Begin (ctx : Ctx (Vector UInt32 4)) : Ctx (Vector UInt32 4) :=
  { ctx with hash := initMd5, total64 := 0 }

def md5Hash : Ctx (Vector UInt32 4) → List UInt8 → Ctx (Vector UInt32 4) :=
  common64Hash md5ProcessBlock64

/-- `md5_end`: the bytes stored in `resbuf`. -/
def md5End (ctx : Ctx (Vector UInt32 4)) : List UInt8 :=
  bytes32 (common64End md5ProcessBlock64 ctx false).toList

/-- `init256` without the two zeros for `total64`. -/
def init256 : Vector UInt32 8 :=
  #v[0x6a09e667, 0xbb67ae85, 0x3c6ef372, 0xa54ff53a, 0x510e527f, 0x9b05688c, 0x1f83d9ab,
    0x5be0cd19]

/-- `init512_lo` without the two zeros for `total64`. -/
def init512Lo : Vector UInt32 8 :=
  #v[0xf3bcc908, 0x84caa73b, 0xfe94f82b, 0x5f1d36f1, 0xade682d1, 0x2b3e6c1f, 0xfb41bd6b,
    0x137e2179]

def sha256Begin (ctx : Ctx (Vector UInt32 8)) : Ctx (Vector UInt32 8) :=
  { ctx with hash := init256, total64 := 0 }

/-- `md5_hash` as SHA-256 uses it. -/
def sha256Hash : Ctx (Vector UInt32 8) → List UInt8 → Ctx (Vector UInt32 8) :=
  common64Hash sha256ProcessBlock64

/-- `sha1_end` as SHA-256 uses it. -/
def sha256End (ctx : Ctx (Vector UInt32 8)) : List UInt8 :=
  bytes32 ((common64End sha256ProcessBlock64 ctx true).map swap32).toList

/-! ### SHA-512 -/

/-- `sha512_ctx_t`. -/
structure Sha512Ctx where
  total64 : ℕ × ℕ
  hash : Vector UInt64 8
  wbuffer : List UInt8
  wbuffer_length : wbuffer.length = 128

def width128 : Width := ⟨128, by decide, by decide⟩

def sha512Begin (ctx : Sha512Ctx) : Sha512Ctx :=
  { ctx with
    total64 := (0, 0)
    hash := init256.zipWith (fun hi lo => hi.toUInt64 <<< (32 : UInt64) + lo.toUInt64) init512Lo }

def sha512Hash (ctx : Sha512Ctx) (buffer : List UInt8) : Sha512Ctx :=
  let total := (ctx.total64.1 + buffer.length) % 2 ^ 64
  let r := hashLoop sha512ProcessBlock128 width128 ctx.hash ctx.wbuffer (ctx.total64.1 % 128)
    buffer
  { total64 :=
      (total, if total < buffer.length then (ctx.total64.2 + 1) % 2 ^ 64 else ctx.total64.2)
    hash := r.1
    wbuffer := r.2
    wbuffer_length := length_hashLoop sha512ProcessBlock128 width128 _ _ _ _ ctx.wbuffer_length
      (Nat.mod_lt _ (by decide)) }

/-- The bit count of `sha512_end`, upper half first. -/
def sha512Count (total64 : ℕ × ℕ) : List UInt8 :=
  leBytes 8 (swapBytes 8 (total64.2 * 2 ^ 3 % 2 ^ 64 ||| total64.1 / 2 ^ 61)) ++
    leBytes 8 (swapBytes 8 (total64.1 * 2 ^ 3 % 2 ^ 64))

def sha512End (ctx : Sha512Ctx) : List UInt8 :=
  let bufpos := ctx.total64.1 % 128
  let hash := endLoop sha512ProcessBlock128 width128 (sha512Count ctx.total64)
    (by simp only [sha512Count, List.length_append, length_leBytes]; decide) ctx.hash
    (memcpy ctx.wbuffer bufpos [0x80]) (wrappingAdd bufpos 1)
  bytes64 (hash.map swap64).toList

/-! ### SHA3 -/

/-- `sha3_ctx_t`. -/
structure Sha3Ctx where
  state : Vector UInt64 25
  bytesQueued : ℕ
  inputBlockBytes : Width

/-- `sha3_begin`: the block of SHA3-512. -/
def sha3Begin : Sha3Ctx :=
  { state := Vector.replicate 25 0, bytesQueued := 0, inputBlockBytes := ⟨72, by decide, by decide⟩ }

/-- The inner loop of `sha3_hash`. -/
def xorBytes (state : Vector UInt64 25) (pos : ℕ) : List UInt8 → Vector UInt64 25
  | [] => state
  | byte :: data => xorBytes (xorByte state pos byte) (pos + 1) data

/-- The outer loop of `sha3_hash`: the new `state` and `bufpos`. -/
def sha3Loop (w : Width) (state : Vector UInt64 25) (bufpos : ℕ) (data : List UInt8) :
    Vector UInt64 25 × ℕ :=
  let remaining := min (wrappingSub w.bytes bufpos) data.length
  let state := xorBytes state bufpos (data.take remaining)
  let bufpos' := wrappingSub (wrappingAdd bufpos remaining) w.bytes
  if bufpos' ≠ 0 then (state, bufpos')
  else sha3Loop w (sha3ProcessBlock72 state) bufpos' (data.drop remaining)
termination_by (data.length, bufpos)
decreasing_by
  rename_i h
  rw [List.length_drop]
  exact turn_decreases w rfl (not_not.mp h)

def sha3Hash (ctx : Sha3Ctx) (data : List UInt8) : Sha3Ctx :=
  let r := sha3Loop ctx.inputBlockBytes ctx.state ctx.bytesQueued data
  { ctx with state := r.1, bytesQueued := wrappingAdd r.2 ctx.inputBlockBytes.bytes }

def sha3End (ctx : Sha3Ctx) : List UInt8 :=
  let state := xorByte ctx.state ctx.bytesQueued 6
  let state := xorByte state (wrappingSub ctx.inputBlockBytes.bytes 1) 0x80
  (bytes64 (sha3ProcessBlock72 state).toList).take 64

end Rustybox.Hash
