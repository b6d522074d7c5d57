import Mathlib.Algebra.Group.Nat.Defs
import Mathlib.Data.List.Basic

/-!
# The decoding tables of gunzip

`huft_build` makes the tables by which the codes of one set are looked up.  A table is a list of
entries, a pointer to a table is its number in the order in which the tables are made, and table 0
is the one the decoder starts from.
-/

namespace Rustybox.Gunzip

/-- `huft_t`.  Of the union, `v` is the value `n`, or the number of the table `t`. -/
structure Huft where
  e : ℕ
  b : ℕ
  v : ℕ
  deriving DecidableEq, Repr

/-- An entry that `xzalloc` leaves. -/
def Huft.zero : Huft := ⟨0, 0, 0⟩

/-- `cp_ext`: lengths or offsets, and their extra bits. -/
structure CpExt where
  cp : List ℕ
  ext : List ℕ

/-- `lit`: copy lengths and extra bits for literal codes 257..285. -/
def lit : CpExt where
  cp := [3, 4, 5, 6, 7, 8, 9, 10, 11, 13, 15, 17, 19, 23, 27, 31, 35, 43, 51, 59, 67, 83, 99,
    115, 131, 163, 195, 227, 258, 0, 0]
  ext := [0, 0, 0, 0, 0, 0, 0, 0, 1, 1, 1, 1, 2, 2, 2, 2, 3, 3, 3, 3, 4, 4, 4, 4, 5, 5, 5, 5, 0,
    99, 99]

/-- `dist`: copy offsets and extra bits for distance codes 0..29. -/
def dist : CpExt where
  cp := [1, 2, 3, 4, 5, 7, 9, 13, 17, 25, 33, 49, 65, 97, 129, 193, 257, 385, 513, 769, 1025,
    1537, 2049, 3073, 4097, 6145, 8193, 12289, 16385, 24577, 0]
  ext := [0, 0, 0, 0, 1, 1, 2, 2, 3, 3, 4, 4, 5, 5, 6, 6, 7, 7, 8, 8, 9, 9, 10, 10, 11, 11, 12,
    12, 13, 13, 0]

/-- `BMAX`: maximum bit length of any code. -/
def bmax : ℕ := 16

def maskBits (n : ℕ) : ℕ := 2 ^ n - 1

/-! ### The lengths -/

/-- The counts for each bit length. -/
def countLengths (b : List ℕ) : List ℕ :=
  b.foldl (fun cnt l => cnt.set l (cnt.getD l 0 + 1)) (List.replicate 17 0)

/-- The shortest length from `j` on that some code has. -/
def minLength (cnt : List ℕ) : ℕ → ℕ → ℕ
  | 0, j => j
  | fuel + 1, j => if j ≤ bmax ∧ cnt.getD j 0 = 0 then minLength cnt fuel (j + 1) else j

/-- The longest length up to `i` that some code has. -/
def maxLength (cnt : List ℕ) : ℕ → ℕ
  | 0 => 0
  | i + 1 => if cnt.getD (i + 1) 0 = 0 then maxLength cnt i else i + 1

/-- The patterns that the lengths `j`, ..., `j + n` leave of `y`, where there are enough of
them. -/
def patternsLeft (cnt : List ℕ) : ℕ → ℕ → ℕ → Option ℕ
  | 0, j, y => if y < cnt.getD j 0 then none else some (y - cnt.getD j 0)
  | n + 1, j, y =>
    if y < cnt.getD j 0 then none else patternsLeft cnt n (j + 1) ((y - cnt.getD j 0) <<< 1)

/-- The starting offsets into the value table: `x[j]`, ..., from `x[j] = start` on. -/
def offsets (cnt : List ℕ) : ℕ → ℕ → ℕ → List ℕ → List ℕ
  | 0, _, _, x => x
  | n + 1, j, start, x =>
    offsets cnt n (j + 1) (start + cnt.getD j 0) (x.set (j + 1) (start + cnt.getD j 0))

/-- The values in order of bit lengths: `i` is the value whose length comes next.  An unused
place is `none` (`UINT_MAX`). -/
def fillValues : List ℕ → ℕ → List ℕ → List (Option ℕ) → List (Option ℕ)
  | [], _, _, v => v
  | l :: b, i, x, v =>
    if l ≠ 0 then
      fillValues b (i + 1) (x.set l (x.getD l 0 + 1)) (v.set (x.getD l 0) (some i))
    else fillValues b (i + 1) x v

/-! ### The tables -/

/-- One level of the table stack: `ws[htl]` bits come before it, `ws[htl + 1]` with it, it was
made for the pattern `x[htl]`, and its table is `u[htl]`. -/
structure Level where
  w : ℕ
  wNext : ℕ
  x : ℕ
  u : ℕ

/-- The tables while they are made: the stack, its top first, the code `i`, the place `p` in the
value table, and the entry `r`. -/
structure Build where
  tables : List (List Huft)
  stack : List Level
  i : ℕ
  p : ℕ
  r : Huft

/-- `ws[htl + 1]`. -/
def Build.wNext (s : Build) : ℕ := (s.stack.head?.map Level.wNext).getD 0

/-- What all codes of a set share: the counts, the values, the longest length `g`, the length
`eobLen` of the end-of-block code, and the arguments `s`, `cp_ext` and `*m`. -/
structure CodeSet where
  cnt : List ℕ
  v : List (Option ℕ)
  g : ℕ
  eobLen : ℕ
  s : ℕ
  cpExt : CpExt
  m : ℕ

/-- Try smaller tables up to `z` bits. -/
def tryTables (cnt : List ℕ) (z : ℕ) : ℕ → ℕ → ℕ → ℕ → ℕ
  | 0, j, _, _ => j
  | fuel + 1, j, f, xp =>
    if j + 1 < z then
      if f <<< 1 ≤ cnt.getD (xp + 1) 0 then j + 1
      else tryTables cnt z fuel (j + 1) (f <<< 1 - cnt.getD (xp + 1) 0) (xp + 1)
    else j + 1

/-- The bits of a table after the first `w` bits, for a code of `k` bits with `a` more codes of
its length to come. -/
def tableBits (c : CodeSet) (k a w : ℕ) : ℕ :=
  let z := min (c.g - w) c.m
  let j := k - w
  -- too few codes for k-w bit table?
  let j := if 1 <<< j > a + 1 then tryTables c.cnt z z j (1 <<< j - (a + 1)) k else j
  -- make EOB code end at table
  if w + j > c.eobLen ∧ w < c.eobLen then c.eobLen - w else j

/-- Connect the table `q` of `j` bits, which starts after `w` bits, to the last table. -/
def linkTable (s : Build) (w j q : ℕ) : Build :=
  match s.stack with
  | [] => s
  | parent :: _ =>
    let r : Huft := { e := 16 + j, b := w - parent.w, v := q }
    { s with
      r := r,
      tables := s.tables.modify parent.u
        (fun table => table.set ((s.i &&& maskBits w) >>> parent.w) r) }

/-- Make one more level. -/
def makeTable (c : CodeSet) (k a : ℕ) (s : Build) : Build :=
  let w := s.wNext
  let j := tableBits c k a w
  let q := s.tables.length
  let linked := linkTable { s with tables := s.tables ++ [List.replicate (1 <<< j) Huft.zero] } w j q
  { linked with
    stack := { w := w, wNext := w + j, x := if s.stack.isEmpty then 0 else s.i, u := q } ::
      s.stack }

/-- Make tables up to the level that a code of `k` bits needs. -/
def makeTables (c : CodeSet) (k a : ℕ) : ℕ → Build → Build
  | 0, s => s
  | fuel + 1, s => if k > s.wNext then makeTables c k a fuel (makeTable c k a s) else s

/-- Set up the table entry `r` for a code that ends `b` bits into its table. -/
def setEntry (c : CodeSet) (b : ℕ) (s : Build) : Build :=
  match c.v.getD s.p none with
  -- out of values: invalid code
  | none => { s with r := { s.r with b := b, e := 99 } }
  | some value =>
    if value < c.s then
      -- 256 is EOB code
      { s with p := s.p + 1, r := { e := if value < 256 then 16 else 15, b := b, v := value } }
    else
      { s with
        p := s.p + 1
        r := { e := c.cpExt.ext.getD (value - c.s) 0, b := b,
               v := c.cpExt.cp.getD (value - c.s) 0 } }

/-- Fill code-like entries with `r`: every `f`-th one from `j` on. -/
def fillEntries (r : Huft) (f : ℕ) : ℕ → ℕ → List Huft → List Huft
  | 0, _, table => table
  | fuel + 1, j, table =>
    if j < table.length then fillEntries r f fuel (j + f) (table.set j r) else table

/-- Backwards increment the code `i`, from its bit `j` on. -/
def increment : ℕ → ℕ → ℕ → ℕ
  | 0, i, j => i ^^^ j
  | fuel + 1, i, j => if i &&& j ≠ 0 then increment fuel (i ^^^ j) (j >>> 1) else i ^^^ j

/-- Backup over finished tables. -/
def backUp (i : ℕ) (stack : List Level) : List Level :=
  stack.dropWhile fun l => decide (i &&& maskBits l.w ≠ l.x)

/-- One code of `k` bits, with `a` more of its length to come. -/
def addCode (c : CodeSet) (k a : ℕ) (s : Build) : Build :=
  let s := makeTables c k a k s
  match s.stack with
  | [] => s
  | top :: _ =>
    let s := setEntry c (k - top.w) s
    let i := increment k s.i (1 <<< (k - 1))
    { s with
      tables := s.tables.modify top.u
        (fun table => fillEntries s.r (1 <<< (k - top.w)) table.length (s.i >>> top.w) table),
      i := i,
      stack := backUp i s.stack }

/-- The `a` codes of `k` bits. -/
def addCodes (c : CodeSet) (k : ℕ) : ℕ → Build → Build
  | 0, s => s
  | a + 1, s => addCodes c k a (addCode c k a s)

/-- Go through the bit lengths, `n` of them from `k` on. -/
def addLengths (c : CodeSet) : ℕ → ℕ → Build → Build
  | 0, _, s => s
  | n + 1, k, s => addLengths c n (k + 1) (addCodes c k (c.cnt.getD k 0) s)

/-- What `huft_build` returns: the tables, whether the lowest bit of the pointer is set, and
`*m`. -/
structure Built where
  tables : List (List Huft)
  flagged : Bool
  m : ℕ

def huftBuild (b : List ℕ) (s : ℕ) (cpExt : CpExt) (m : ℕ) : Built :=
  let n := b.length
  let cnt := countLengths b
  if cnt.getD 0 0 = n then
    -- null input: all zero length codes
    { tables := [[⟨99, 1, 0⟩, ⟨99, 1, 0⟩]], flagged := false, m := 1 }
  else
    let j := minLength cnt bmax 1
    let g := maxLength cnt bmax
    let m := if m < j then j else if m > g then g else m
    match patternsLeft cnt (g - j) j (1 <<< j) with
    -- bad input: more codes than bits
    | none => { tables := [], flagged := true, m := m }
    | some y =>
      let x := offsets cnt (g - 1) 1 0 (List.replicate 17 0)
      let c : CodeSet :=
        { cnt := cnt.set g (cnt.getD g 0 + y), v := fillValues b 0 x (List.replicate 289 none),
          g := g, eobLen := if n > 256 then b.getD 256 0 else bmax, s := s, cpExt := cpExt,
          m := m }
      let built := addLengths c (g + 1 - j) j ⟨[], [], 0, 0, .zero⟩
      -- `*m` becomes `ws[1]`, and an incomplete table has the lowest bit of `result` set
      { tables := built.tables, flagged := decide (y ≠ 0 ∧ g ≠ 1),
        m := (built.stack.getLast?.map Level.wNext).getD 0 }

end Rustybox.Gunzip
