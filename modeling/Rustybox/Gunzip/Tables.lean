import Rustybox.Gunzip.Inflate
import Rustybox.Lib.Chain
import Rustybox.Lib.Guarded

/-!
# The tables in memory

`inflate_codes_tl` and `inflate_codes_td` are pointers to tables that `huft_build` allocates, linked
one to the next through a dummy first entry, and `huft_free` frees.  `huft_build` tells of a bad set
of codes in the lowest bit of the pointer it returns, and `inflate_block` stores the pointer before
it looks at that bit.

The functions here are those of the decoder again, with the pointers in place of the tables.  What
`abort_unzip` is called for ends the run after `huft_free_all`.
-/

namespace Rustybox.Gunzip

open Guarded (Prog)

/-- A call of `huft_free_all`: the pointers it frees, and those from `huft_build` that are not freed
yet. -/
structure FreeAll where
  tl : ℕ
  td : ℕ
  live : List ℕ
  deriving DecidableEq, Repr

/-- Each of the two pointers is NULL or one from `huft_build` that is not freed yet, and they are
not the same one. -/
def FreeAll.Real (e : FreeAll) : Prop :=
  (e.tl = 0 ∨ e.tl ∈ e.live) ∧ (e.td = 0 ∨ e.td ∈ e.live) ∧ (e.tl = 0 ∨ e.tl ≠ e.td)

/-- The heap with the tables, `inflate_codes_tl`, `inflate_codes_td`, and the pointers from
`huft_build` that are not freed yet.  `frees` and `sets` are a history, of the calls of
`huft_free_all` and of the lengths of the dynamic blocks: no function reads it. -/
structure Mem where
  heap : Chain.Heap
  mallocs : ℕ
  tl : ℕ
  td : ℕ
  live : List ℕ
  frees : List FreeAll
  sets : List (List ℕ)

/-- Into the history: a call of `huft_free_all`. -/
def Mem.logFree (m : Mem) : Mem := { m with frees := m.frees ++ [⟨m.tl, m.td, m.live⟩] }

/-- Into the history: the lengths of a set of codes. -/
def Mem.logSet (ll : List ℕ) (m : Mem) : Mem := { m with sets := m.sets ++ [ll] }

/-- A part of the decoder. -/
abbrev Action (α : Type) := Prog Mem Stop α

/-! ### Freeing -/

/-- `huft_free`, which crashes (`none`) where a pointer leads to no table. -/
def huftFree (p : ℕ) (m : Mem) : Option Mem :=
  (Chain.free p m.heap).map fun heap => { m with heap := heap, live := m.live.filter (· ≠ p) }

/-- The two tables are freed. -/
def freeBoth (m : Mem) : Option Mem := (huftFree m.tl m).bind (huftFree m.td)

def huftFreeAll : Action Unit := fun m =>
  match freeBoth m.logFree with
  | none => (.error .fault, m.logFree)
  | some m => (.ok (), { m with tl := 0, td := 0 })

def abortUnzip {α : Type} (errorMsg : String) : Action α := do
  huftFreeAll
  Guarded.fail (.fail errorMsg)

/-- A part of the decoder that leaves the pointers alone: what makes it fail calls
`abort_unzip`. -/
def run {α : Type} : Except Stop α → Action α
  | .ok a => pure a
  | .error (.fail errorMsg) => abortUnzip errorMsg
  | .error e => Guarded.fail e

/-! ### Building -/

section

variable (alloc : Chain.Malloc)

/-- The pointer that `huft_build` returns: the first table's, or 1 where there is none, with the
lowest bit set for a bad set of codes.  Every table is linked to the next. -/
def allocTables (built : Built) (m : Mem) : ℕ × Mem :=
  let as := alloc.addrs built.tables.length m.mallocs (m.heap.map Prod.fst)
  let result := as.headD 1
  (if built.flagged then result ||| 1 else result,
    { m with
      heap := Chain.link as ++ m.heap, mallocs := m.mallocs + as.length,
      live := as.take 1 ++ m.live })

/-- Store the tables of the lengths `ll` in `inflate_codes_tl`: whether the mark is set. -/
def storeTl (ll : List ℕ) (built : Built) : Action Bool := Guarded.change fun m =>
  let (p, m) := allocTables alloc built (m.logSet ll)
  (decide (p &&& 1 ≠ 0), { m with tl := p })

/-- Store the tables of the lengths `ll` in `inflate_codes_td`: whether the mark is set. -/
def storeTd (ll : List ℕ) (built : Built) : Action Bool := Guarded.change fun m =>
  let (p, m) := allocTables alloc built (m.logSet ll)
  (decide (p &&& 1 ≠ 0), { m with td := p })

/-- `huft_free` of the bit length tables.  `inflate_codes_tl` keeps the pointer. -/
def freeTl : Action Unit := fun m =>
  match huftFree m.tl m with
  | none => (.error .fault, m)
  | some m => (.ok (), m)

/-! ### inflate_block -/

/-- Inflate fixed: the mark of the distance codes is cleared. -/
def fixedBlockMem (s : State) (b : Bits) : Action State := Guarded.change fun m =>
  let tl := huftBuild fixedLengths 257 lit 7
  let td := huftBuild (List.replicate 30 5) 0 dist 5
  let (p, m) := allocTables alloc tl m
  let m := { m with tl := p }
  let (p, m) := allocTables alloc td m
  (inflateCodesSetup s b tl td, { m with td := p - (p &&& 1) })

/-- The decoding tables for literal/length and distance codes. -/
def dynamicTablesMem (nl : ℕ) (ll : List ℕ) (s : State) (b : Bits) : Action State := do
  let tl := huftBuild (ll.take nl) 257 lit 9
  let td := huftBuild (ll.drop nl) 0 dist 6
  let bad ← storeTl alloc (ll.take nl) tl
  if bad then abortUnzip "corrupted data"
  else do
    let bad ← storeTd alloc (ll.drop nl) td
    if bad then abortUnzip "corrupted data"
    else pure (inflateCodesSetup s b tl td)

/-- Read in the code lengths with the table of the bit lengths `ll`, and free it. -/
def codeLengthsMem (total : ℕ) (ll : List ℕ) (b : Bits) : Action (List ℕ × Bits) := do
  let tl := huftBuild ll 19 ⟨[], []⟩ 7
  let bad ← storeTl alloc ll tl
  if bad then abortUnzip "corrupted data"
  else do
    let lengths ← run (codeLengths total tl.m tl.tables total 0 [] b)
    freeTl
    pure lengths

/-- Inflate dynamic. -/
def dynamicBlockMem (s : State) (b : Bits) : Action State := do
  let (n, b) ← run (takeBits 5 b)
  let nl := 257 + n
  let (n, b) ← run (takeBits 5 b)
  let nd := 1 + n
  let (n, b) ← run (takeBits 4 b)
  let nb := 4 + n
  if nl > 286 ∨ nd > 30 then abortUnzip "corrupted data"
  else do
    let (ll, b) ← run (bitLengths (border.take nb) (List.replicate 19 0) b)
    let (ll, b) ← codeLengthsMem alloc (nl + nd) ll b
    dynamicTablesMem alloc nl ll s b

/-- `inflate_block`. -/
def inflateBlockMem (s : State) : Action State := do
  let (e, b) ← run (takeBits 1 s.bits)
  let (t, b) ← run (takeBits 2 b)
  let s := { s with bits := b, endReached := decide (e = 1) }
  if t = 0 then run (storedBlock s b)
  else if t = 1 then fixedBlockMem alloc s b
  else if t = 2 then dynamicBlockMem alloc s b
  else abortUnzip "corrupted data"

/-! ### Windows -/

/-- Inflate a block if another one is needed. -/
def nextBlockMem (s : State) : Action State :=
  if s.needAnotherBlock then do
    let s ← inflateBlockMem alloc s
    pure { s with needAnotherBlock := false }
  else pure s

/-- `inflate_codes`, which frees the tables at the end of the block. -/
def inflateCodesMem (fuel : ℕ) (s : State) : Action (Bool × State) := do
  let (full, s) ← run (inflateCodes fuel s)
  if full then pure (full, s)
  else do
    huftFreeAll
    pure (full, s)

/-- The block that the window goes on with. -/
def inflateMethodMem (fuel : ℕ) (s : State) : Action (Bool × State) :=
  match s.method with
  | .stored => run (inflateStored s.storedN s)
  | .codes => inflateCodesMem fuel s

/-- The loop of `inflate_get_next_window`. -/
def windowLoopMem (fuel : ℕ) : ℕ → State → Action (Bool × State)
  | 0, _ => Guarded.fail .spin
  | rounds + 1, s =>
    if s.needAnotherBlock ∧ s.endReached then
      pure (false, { calculateGunzipCrc s with endReached := false })
    else do
      let s ← nextBlockMem alloc s
      let (full, s) ← inflateMethodMem fuel s
      if full then pure (true, calculateGunzipCrc s)
      else windowLoopMem fuel rounds { s with needAnotherBlock := true }

/-- The loop of `inflate_unzip_internal`.  A failed write is no call of `abort_unzip`. -/
def unzipLoopMem (takes : ℕ → Bool) (fuel : ℕ) :
    ℕ → ℕ → State → Output → Action (ℕ × State × Output)
  | 0, _, _, _ => Guarded.fail .spin
  | rounds + 1, n, s, out => do
    let (r, s) ← windowLoopMem alloc fuel fuel { s with outbufCount := 0 }
    match transformerWrite takes out s.outbuf with
    | .error e => Guarded.fail e
    | .ok out =>
      if r then unzipLoopMem takes fuel rounds (n + s.outbufCount) s out
      else pure (n + s.outbufCount, s, out)

/-- `inflate_unzip_internal`. -/
def inflateUnzipInternalMem (takes : ℕ → Bool) (fuel : ℕ) (window : Window) (input : Input)
    (out : Output) : Action (ℕ × State × Output) := do
  let (n, s, out) ← unzipLoopMem alloc takes fuel fuel 0 (freshState window input) out
  pure (n, { s with bits := putBack s.bits }, out)

/-! ### Runs -/

/-- A call of `inflate_unzip_internal`: the writes that succeed, the fuel, what the new window
holds, the input and the output. -/
structure Member where
  takes : ℕ → Bool
  fuel : ℕ
  window : Window
  input : Input
  out : Output

/-- `inflate_unzip_internal` for one member after the other, until it fails.  `inflate_unzip` has
one, and `unpack_gz_stream` reads the next header in between, which leaves the tables alone. -/
def inflateMembers : List Member → Mem → Mem
  | [], m => m
  | c :: cs, m =>
    match inflateUnzipInternalMem alloc c.takes c.fuel c.window c.input c.out m with
    | (.ok _, m) => inflateMembers cs m
    | (.error _, m) => m

end

/-- The state from `xzalloc`. -/
def Mem.fresh : Mem := ⟨[], 0, 0, 0, [], [], []⟩

end Rustybox.Gunzip
