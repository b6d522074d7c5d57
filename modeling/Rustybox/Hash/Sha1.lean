import Rustybox.Hash.OneShot

/-!
# SHA-1

The block function keeps its schedule in the 32 words of `W`: a word that is made in round
`cnt` goes to `cnt` and to `cnt + 16`.  For that `cnt` has to stay below 16, but what the
code adds to it in each round is `1 & 15`, which is one.  So the index of the seventeenth
round is not in `W` and the program panics there, whatever the block holds.

An array is a vector, and an access behind its end is `none`.
-/

namespace Rustybox.Hash

open Blocks Rustybox.Rust

/-! ### The code -/

def rconsts : Vector UInt32 4 := #v[0x5a827999, 0x6ed9eba1, 0x8f1bbcdc, 0xca62c1d6]

/-- The variables of the main loop of `sha1_process_block64`. -/
structure Sha1Vars where
  W : Vector UInt32 32
  cnt : ℕ
  a : UInt32
  b : UInt32
  c : UInt32
  d : UInt32
  e : UInt32

/-- `W[i] = x`. -/
def setWord (W : Vector UInt32 32) (i : ℕ) (x : UInt32) : Option (Vector UInt32 32) :=
  if h : i < 32 then some (W.set i x h) else none

/-- The first loop: the words of the block, twice. -/
def blockWords (wbuffer : List UInt8) : Vector UInt32 32 :=
  Vector.ofFn (fun i => swap32 (word32 wbuffer (i % 16)))

/-- The next word of the schedule goes into `W`. -/
def extendWords (W : Vector UInt32 32) (cnt : ℕ) : Option (Vector UInt32 32) := do
  let w13 ← W[cnt + 13]?
  let w8 ← W[cnt + 8]?
  let w2 ← W[cnt + 2]?
  let w0 ← W[cnt]?
  let W ← setWord W (cnt + 16) (rotl32 (w13 ^^^ w8 ^^^ w2 ^^^ w0) 1)
  let w16 ← W[cnt + 16]?
  setWord W cnt w16

/-- One turn of the inner loop. -/
def sha1Turn (i j : ℕ) (s : Sha1Vars) : Option Sha1Vars := do
  let work := s.c ^^^ s.d
  let work :=
    if i = 0 then (work &&& s.b) ^^^ s.d
    else if i = 2 then ((s.b ||| s.c) &&& s.d) ||| (s.b &&& s.c)
    else work ^^^ s.b
  let W ← if i = 0 ∧ 3 < j then some s.W else extendWords s.W s.cnt
  let w ← W[s.cnt]?
  let work := work + w
  let rconst ← rconsts[i]?
  let work := work + (s.e + rotl32 s.a 5 + rconst)
  return { W, cnt := s.cnt + (1 &&& 15), a := work, b := s.a, c := rotl32 s.b 30, d := s.c,
           e := s.d }

/-- The inner loop, where `j` goes from `n - 1` down to 0. -/
def sha1Loop (i : ℕ) : ℕ → Sha1Vars → Option Sha1Vars
  | 0, s => some s
  | j + 1, s => (sha1Turn i j s).bind (sha1Loop i j)

/-- `sha1_process_block64`: the new `hash`, or `none` when it panics. -/
def sha1ProcessBlock64 (hash : Vector UInt32 5) (wbuffer : List UInt8) :
    Option (Vector UInt32 5) := do
  let s := { W := blockWords wbuffer, cnt := 0, a := hash[0], b := hash[1], c := hash[2],
             d := hash[3], e := hash[4] }
  let s ← sha1Loop 0 20 s
  let s ← sha1Loop 1 20 s
  let s ← sha1Loop 2 20 s
  let s ← sha1Loop 3 20 s
  return #v[hash[0] + s.a, hash[1] + s.b, hash[2] + s.c, hash[3] + s.d, hash[4] + s.e]

/-- The words that `sha1_begin` starts with. -/
def initSha1 : Vector UInt32 5 := #v[0x67452301, 0xefcdab89, 0x98badcfe, 0x10325476, 0xc3d2e1f0]

/-- `process_block` after `sha1_begin`: after a panic nothing is processed any more. -/
def sha1Process (hash : Option (Vector UInt32 5)) (wbuffer : List UInt8) :
    Option (Vector UInt32 5) :=
  hash.bind (sha1ProcessBlock64 · wbuffer)

/-- `sha1_begin`; `wbuffer` keeps whatever it holds. -/
def sha1Begin (ctx : Ctx (Option (Vector UInt32 5))) : Ctx (Option (Vector UInt32 5)) :=
  { ctx with hash := some initSha1, total64 := 0 }

/-- `sha1_hash`, which is `common64_hash`. -/
def sha1Hash : Ctx (Option (Vector UInt32 5)) → List UInt8 → Ctx (Option (Vector UInt32 5)) :=
  common64Hash sha1Process

/-- `sha1_end`: the bytes stored in `resbuf`. -/
def sha1End (ctx : Ctx (Option (Vector UInt32 5))) : Option (List UInt8) :=
  (common64End sha1Process ctx true).map (fun hash => bytes32 (hash.map swap32).toList)

/-! ### What the standard prescribes -/

/-- The message schedule of FIPS 180, extended by `n` words. -/
def schedule1 : ℕ → List UInt32 → List UInt32
  | 0, w => w
  | n + 1, w =>
    let prev (k : ℕ) := w.getD (w.length - k) 0
    schedule1 n (w ++ [rotl32 (prev 3 ^^^ prev 8 ^^^ prev 14 ^^^ prev 16) 1])

def sha1F (t : ℕ) (b c d : UInt32) : UInt32 :=
  if t < 20 then (b &&& c) ^^^ (~~~b &&& d)
  else if t < 40 then b ^^^ c ^^^ d
  else if t < 60 then (b &&& c) ^^^ (b &&& d) ^^^ (c &&& d)
  else b ^^^ c ^^^ d

def sha1K (t : ℕ) : UInt32 :=
  if t < 20 then 0x5a827999 else if t < 40 then 0x6ed9eba1 else if t < 60 then 0x8f1bbcdc
  else 0xca62c1d6

/-- Round `t` of FIPS 180. -/
def sha1Round (w : List UInt32) (v : Vector UInt32 5) (t : ℕ) : Vector UInt32 5 :=
  #v[rotl32 v[0] 5 + sha1F t v[1] v[2] v[3] + v[4] + sha1K t + w.getD t 0, v[0], rotl32 v[1] 30,
    v[2], v[3]]

def sha1Words (block : List UInt8) : List UInt32 :=
  schedule1 64 ((List.range 16).map (fun t => swap32 (word32 block t)))

/-- The compression function of FIPS 180. -/
def sha1Compress (hash : Vector UInt32 5) (block : List UInt8) : Vector UInt32 5 :=
  hash.zipWith (· + ·) ((List.range 80).foldl (sha1Round (sha1Words block)) hash)

def sha1 (message : List UInt8) : List UInt8 :=
  bytes32 (((whole 64 (pad 64 (beBytes 8 (8 * message.length)) message)).foldl sha1Compress
    initSha1).map swap32).toList

/-- FIPS 180: the digest of `abc`. -/
example : sha1 [0x61, 0x62, 0x63] =
    [0xa9, 0x99, 0x3e, 0x36, 0x47, 0x06, 0x81, 0x6a, 0xba, 0x3e, 0x25, 0x71, 0x78, 0x50, 0xc2,
     0x6c, 0x9c, 0xd0, 0xd8, 0x9d] := by decide +kernel

/-! ### Rounds that are right -/

/-- The function of the first rounds, as the code computes it. -/
theorem choose_eq (b c d : UInt32) : ((c ^^^ d) &&& b) ^^^ d = (b &&& c) ^^^ (~~~b &&& d) := by
  apply UInt32.eq_of_toBitVec_eq
  ext i hi
  simp only [UInt32.toBitVec_xor, UInt32.toBitVec_and, UInt32.toBitVec_not, BitVec.getElem_xor,
    BitVec.getElem_and, BitVec.getElem_not]
  cases b.toBitVec[i] <;> cases c.toBitVec[i] <;> cases d.toBitVec[i] <;> rfl

theorem getD_schedule1 (n : ℕ) {w : List UInt32} {t : ℕ} (h : t < w.length) :
    (schedule1 n w).getD t 0 = w.getD t 0 := by
  induction n generalizing w with
  | zero => rfl
  | succ n ih =>
    rw [schedule1, ih (by rw [List.length_append]; omega), List.getD, List.getD,
      List.getElem?_append_left h]

theorem getD_sha1Words (block : List UInt8) {t : ℕ} (h : t < 16) :
    (sha1Words block).getD t 0 = swap32 (word32 block t) := by
  rw [sha1Words, getD_schedule1 64 (by rw [List.length_map, List.length_range]; exact h)]
  simp [List.getD, h]

theorem getElem?_blockWords (block : List UInt8) {t : ℕ} (h : t < 16) :
    (blockWords block)[t]? = some (swap32 (word32 block t)) := by
  have h32 : t < 32 := by omega
  simp [blockWords, h32, Nat.mod_eq_of_lt h]

/-- The variables in round `t` of the first sixteen. -/
def earlyVars (block : List UInt8) (t : ℕ) (v : Vector UInt32 5) : Sha1Vars :=
  { W := blockWords block, cnt := t, a := v[0], b := v[1], c := v[2], d := v[3], e := v[4] }

/-- **One of the first sixteen rounds** is the round of the standard. -/
theorem sha1Turn_early (block : List UInt8) (v : Vector UInt32 5) {t j : ℕ} (ht : t < 16)
    (hj : 3 < j) :
    sha1Turn 0 j (earlyVars block t v) =
      some (earlyVars block (t + 1) (sha1Round (sha1Words block) v t)) := by
  have hf : sha1F t v[1] v[2] v[3] = ((v[2] ^^^ v[3]) &&& v[1]) ^^^ v[3] := by
    rw [sha1F, if_pos (by omega), choose_eq]
  have hk : rconsts[0]? = some (sha1K t) := by
    rw [sha1K, if_pos (by omega)]
    rfl
  have hw := getElem?_blockWords block ht
  have hnext : t + (1 &&& 15) = t + 1 := rfl
  have hsum (f w e r k : UInt32) : f + w + (e + r + k) = r + f + e + k + w := by ac_rfl
  rw [sha1Turn, if_pos ⟨rfl, hj⟩]
  simp only [earlyVars, Option.bind_eq_bind, Option.bind_some, hw, hk, hnext, sha1Round, hf,
    getD_sha1Words block ht, if_true, hsum]
  rfl

theorem sha1Loop_early (block : List UInt8) (hash : Vector UInt32 5) {t : ℕ} (ht : t ≤ 16) :
    sha1Loop 0 20 (earlyVars block 0 hash) =
      sha1Loop 0 (20 - t)
        (earlyVars block t ((List.range t).foldl (sha1Round (sha1Words block)) hash)) := by
  induction t with
  | zero => rfl
  | succ t ih =>
    have hstep : 20 - t = 20 - (t + 1) + 1 := by omega
    rw [ih (by omega), hstep, sha1Loop, sha1Turn_early block _ (by omega) (by omega),
      Option.bind_some, List.range_succ, List.foldl_append, List.foldl_cons, List.foldl_nil]

/-! ### The seventeenth round -/

theorem extendWords_eq_none (W : Vector UInt32 32) {cnt : ℕ} (h : 16 ≤ cnt) :
    extendWords W cnt = none := by
  have hset (x : UInt32) : setWord W (cnt + 16) x = none := dif_neg (by omega)
  simp only [extendWords, hset, Option.bind_eq_bind, Option.bind_none, Option.bind_fun_none]

/-- **The block function panics**, on every chaining value and on every block. -/
theorem sha1ProcessBlock64_eq_none (hash : Vector UInt32 5) (wbuffer : List UInt8) :
    sha1ProcessBlock64 hash wbuffer = none := by
  have hloop := sha1Loop_early wbuffer hash (Nat.le_refl 16)
  have hturn (v : Vector UInt32 5) : sha1Turn 0 3 (earlyVars wbuffer 16 v) = none := by
    rw [sha1Turn, if_neg (by decide)]
    simp only [earlyVars, extendWords_eq_none _ (Nat.le_refl 16), Option.bind_eq_bind,
      Option.bind_none]
  have hlast (s : Sha1Vars) (h : sha1Turn 0 3 s = none) : sha1Loop 0 (20 - 16) s = none := by
    show (sha1Turn 0 3 s).bind (sha1Loop 0 3) = none
    rw [h, Option.bind_none]
  rw [hlast _ (hturn _), earlyVars] at hloop
  simp only [sha1ProcessBlock64, Option.bind_eq_bind, hloop, Option.bind_none]

theorem sha1Process_eq_none (hash : Option (Vector UInt32 5)) (wbuffer : List UInt8) :
    sha1Process hash wbuffer = none := by
  cases hash with
  | none => rfl
  | some hash => exact sha1ProcessBlock64_eq_none hash wbuffer

theorem sha1End_eq_none (ctx : Ctx (Option (Vector UInt32 5))) : sha1End ctx = none := by
  have hend (w : Width) (count : List UInt8) (hcount : count.length ≤ w.bytes)
      (hash : Option (Vector UInt32 5)) (wbuffer : List UInt8) (bufpos : ℕ) :
      endLoop sha1Process w count hcount hash wbuffer bufpos = none := by
    fun_induction endLoop sha1Process w count hcount hash wbuffer bufpos with
    | case1 => exact sha1Process_eq_none _ _
    | case2 _ _ _ _ _ _ _ _ ih => exact ih
  rw [sha1End, common64End, hend, Option.map_none]

/-- **SHA-1 is never computed**: on no chaining value and block does the block function
compress, and no context has a digest at its end, however the message is cut. -/
theorem sha1_never (ctx : Ctx (Option (Vector UInt32 5))) (chunks : List (List UInt8))
    (hash : Vector UInt32 5) (wbuffer : List UInt8) :
    sha1ProcessBlock64 hash wbuffer ≠ some (sha1Compress hash wbuffer) ∧
      sha1End (chunks.foldl sha1Hash (sha1Begin ctx)) ≠ some (sha1 chunks.flatten) := by
  constructor
  · rw [sha1ProcessBlock64_eq_none]
    exact Option.some_ne_none _ |>.symm
  · rw [sha1End_eq_none]
    exact Option.some_ne_none _ |>.symm

/-- A block of zeros, and the empty message. -/
theorem sha1_of_nothing :
    ¬ (sha1ProcessBlock64 initSha1 (List.replicate 64 0) =
        some (sha1Compress initSha1 (List.replicate 64 0)) ∧
      sha1End (([] : List (List UInt8)).foldl sha1Hash
        (sha1Begin ⟨List.replicate 64 0, 0, none, by decide⟩)) = some (sha1 [])) := by
  intro h
  rw [sha1ProcessBlock64_eq_none] at h
  exact Option.some_ne_none _ h.1.symm

end Rustybox.Hash
