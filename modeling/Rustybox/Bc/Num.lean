import Mathlib.Data.List.DropRight
import Mathlib.Data.Nat.Digits.Defs
import Mathlib.Data.Int.Basic

/-!
# Numbers of bc

A number of `bc` and `dc` is a string of decimal digits, the last one first, with the number of
digits behind the point and a sign.  Loops over the digits are recursions over lists here: a
pointer into the digits is what is left of the list from there on.

A number whose result goes to one of the operands is copied first (`zbc_num_binary`), so that
the operations are functions from numbers to numbers.  What is allocated is not modelled, and no
signal arrives while they run.
-/

namespace Rustybox.Bc

/-- The error messages, and the loops that have not come to their end. -/
inductive Err where
  | overflow | negativeNumber | numberTooLong | divideByZero | notInteger | badNumberString
  | memoryExhausted
  | badCharacter (c : Char)
  | notText
  | unfinished
  deriving DecidableEq

def Err.message : Err → String
  | .overflow => "overflow"
  | .negativeNumber => "negative number"
  | .numberTooLong => "number too long: must be [1,4294967294]"
  | .divideByZero => "divide by zero"
  | .notInteger => "not an integer"
  | .badNumberString => "bad number string"
  | .memoryExhausted => "out of memory"
  | .badCharacter c => if c = '\x00' then "NUL character" else "bad character '" ++ c.toString ++ "'"
  | .notText => "file is not text"
  | .unfinished => ""

/-- `BcNum`: the digits (`BcDig`, a signed char), how many of them are behind the point, and
the sign.  The field `len` of the source is the length of the list. -/
structure BcNum where
  num : List ℤ
  rdx : ℕ := 0
  neg : Bool := false
  deriving DecidableEq

def BcNum.len (n : BcNum) : ℕ := n.num.length

/-- `bc_num_setToZero`. -/
def setToZero (scale : ℕ) : BcNum := { num := [], rdx := scale }

/-- `bc_num_zero`. -/
def zero : BcNum := setToZero 0

/-- `bc_num_one`. -/
def one : BcNum := { num := [1] }

/-- Whether a number is just the digit one. -/
def isOne (n : BcNum) : Bool := n.len = 1 && n.rdx = 0 && n.num.getD 0 0 = 1

/-! ### Machine numbers -/

/-- The loop of `zbc_num_ulong_abs` over the digits before the point, from the first. -/
def ulongLoop : ℕ → List ℤ → Except Err ℕ
  | result, [] => .ok result
  | prev, d :: ds =>
    let result := (prev * 10 + d.toNat) % 2 ^ 64
    if result / 8 < prev then .error .overflow else ulongLoop result ds

/-- `zbc_num_ulong_abs`. -/
def ulongAbs (n : BcNum) : Except Err ℕ := ulongLoop 0 (n.num.drop n.rdx).reverse

/-- `zbc_num_ulong`. -/
def ulong (n : BcNum) : Except Err ℕ := if n.neg then .error .negativeNumber else ulongAbs n

/-- `bc_num_ulong2num`. -/
def ulong2num (val : ℕ) : BcNum := { num := (Nat.digits 10 val).map Int.ofNat }

/-! ### Digits -/

/-- The loop of `bc_num_subArrays` that borrows from the next digits. -/
def borrow : ℤ → List ℤ → List ℤ
  | d, [] => if d < 0 then [d + 10] else [d]
  | d, e :: ds => if d < 0 then (d + 10) :: borrow (e - 1) ds else d :: e :: ds

/-- `bc_num_subArrays`: the digits of `b` are subtracted one by one. -/
def subArrays : List ℤ → List ℤ → List ℤ
  | a, [] => a
  | [], _ :: _ => []
  | x :: a, y :: b =>
    match borrow (x - y) a with
    | [] => []
    | d :: a => d :: subArrays a b

/-- `bc_num_compare`: the first digit that differs, with its position. -/
def compare (a b : List ℤ) : ℕ → ℤ
  | 0 => 0
  | i + 1 =>
    let c := a.getD i 0 - b.getD i 0
    if c ≠ 0 then if c < 0 then -(i + 1) else i + 1
    else compare a b i

/-- The number of digits before the point. -/
def BcNum.int (n : BcNum) : ℕ := n.len - n.rdx

def negateIf (neg : Bool) (x : ℤ) : ℤ := if neg then -x else x

/-- `bc_num_cmp`. -/
def cmp (a b : BcNum) : ℤ :=
  if a.len = 0 then negateIf (!b.neg) (if b.len ≠ 0 then 1 else 0)
  else if b.len = 0 then negateIf a.neg 1
  else if a.neg ≠ b.neg then (if b.neg then 1 else 0) - (if a.neg then 1 else 0)
  else if a.int ≠ b.int then (a.int : ℤ) - b.int
  else
    let aMax := decide (b.rdx < a.rdx)
    let min := if aMax then b.rdx else a.rdx
    let diff := if aMax then a.rdx - b.rdx else b.rdx - a.rdx
    let maxNum := if aMax then a.num else b.num
    let minNum := if aMax then b.num else a.num
    let neg := if aMax then a.neg else !a.neg
    let cmp := compare (maxNum.drop diff) minNum (b.int + min)
    if cmp ≠ 0 then negateIf neg cmp
    else if (maxNum.take diff).any (· ≠ 0) then negateIf neg 1
    else 0

/-! ### Scales -/

/-- `bc_num_truncate`. -/
def truncate (n : BcNum) (places : ℕ) : BcNum :=
  { n with num := n.num.drop places, rdx := n.rdx - places }

/-- `bc_num_extend`. -/
def extend (n : BcNum) (places : ℕ) : BcNum :=
  { n with num := List.replicate places 0 ++ n.num, rdx := n.rdx + places }

/-- `bc_num_clean`.  Where zeros have to come back before the digits behind the point, they are
those that have just gone. -/
def clean (n : BcNum) : BcNum :=
  let num := n.num.rdropWhile (· = 0)
  if num = [] then { n with num := [], neg := false }
  else { n with num := num ++ List.replicate (n.rdx - num.length) 0 }

/-- `bc_num_retireMul`. -/
def retireMul (n : BcNum) (scale : ℕ) (neg1 neg2 : Bool) : BcNum :=
  let n := clean (if n.rdx < scale then extend n (scale - n.rdx) else truncate n (n.rdx - scale))
  if n.len ≠ 0 then { n with neg := neg1 != neg2 } else n

/-- `bc_num_split`: the digits up to `idx` and those behind. -/
def split (n : BcNum) (idx : ℕ) : BcNum × BcNum :=
  if idx < n.len then (clean { num := n.num.take idx }, clean { num := n.num.drop idx })
  else (clean n, clean zero)

/-- `zbc_num_shift`. -/
def shift (n : BcNum) (places : ℕ) : Except Err BcNum :=
  if places = 0 ∨ n.len = 0 then .ok n
  else if 4294967294 < places + n.len then .error .numberTooLong
  else .ok (clean (if places ≤ n.rdx then { n with rdx := n.rdx - places }
    else { extend n (places - n.rdx) with rdx := 0 }))

/-! ### Sums and differences -/

/-- The loop of `zbc_num_a` over the digits of both numbers: the digits, and the carry. -/
def addLoop : ℤ → List ℤ → List ℤ → List ℤ × ℤ
  | carry, x :: xs, y :: ys =>
    let rest := addLoop ((x + y + carry) / 10) xs ys
    ((x + y + carry) % 10 :: rest.1, rest.2)
  | carry, _, _ => ([], carry)

/-- The loop over the digits of the longer number. -/
def carryLoop : ℤ → List ℤ → List ℤ × ℤ
  | carry, x :: xs =>
    let rest := carryLoop ((x + carry) / 10) xs
    ((x + carry) % 10 :: rest.1, rest.2)
  | carry, [] => ([], carry)

/-- `zbc_num_a`; with `sub` the second number is subtracted. -/
def numA (a b : BcNum) (sub : Bool) : BcNum :=
  if a.len = 0 then if sub ∧ b.len ≠ 0 then { b with neg := !b.neg } else b
  else if b.len = 0 then a
  else
    let minRdx := min a.rdx b.rdx
    let diff := max a.rdx b.rdx - minRdx
    let low := (if b.rdx < a.rdx then a.num else b.num).take diff
    let ptrA := if b.rdx < a.rdx then a.num.drop diff else a.num
    let ptrB := if b.rdx < a.rdx then b.num else b.num.drop diff
    let minInt := if b.int < a.int then b.int else a.int
    let maxInt := if b.int < a.int then a.int else b.int
    let ptr := if b.int < a.int then ptrA else ptrB
    let both := addLoop 0 (ptrA.take (minRdx + minInt)) (ptrB.take (minRdx + minInt))
    let one := carryLoop both.2 ((ptr.take (maxInt + minRdx)).drop (minRdx + minInt))
    { num := low ++ both.1 ++ one.1 ++ if one.2 ≠ 0 then [one.2] else []
      rdx := max a.rdx b.rdx
      neg := a.neg }

/-- `zbc_num_s`; with `sub` the second number is subtracted.  The signs are put aside for the
comparison. -/
def numS (a b : BcNum) (sub : Bool) : BcNum :=
  if a.len = 0 then if sub ∧ b.len ≠ 0 then { b with neg := !b.neg } else b
  else if b.len = 0 then a
  else
    let c := cmp { a with neg := false } { b with neg := false }
    if c = 0 then setToZero (max a.rdx b.rdx)
    else
      let neg := if 0 < c then a.neg else if sub then !b.neg else b.neg
      let minuend := if 0 < c then a else b
      let subtrahend := if 0 < c then b else a
      let c :=
        if minuend.rdx < subtrahend.rdx then extend minuend (subtrahend.rdx - minuend.rdx)
        else minuend
      let start := c.rdx - subtrahend.rdx
      clean { c with
        num := c.num.take start ++ subArrays (c.num.drop start) subtrahend.num, neg := neg }

def add (a b : BcNum) : BcNum := if a.neg = b.neg then numA a b false else numS a b false

def sub (a b : BcNum) : BcNum := if a.neg = b.neg then numS a b true else numA a b true

/-! ### Products -/

/-- A row of the product: the digits from here on, and the carry that went into the last of
them. -/
def mulRow (y : ℤ) : ℤ → List ℤ → List ℤ → List ℤ × ℤ
  | carry, x :: xs, c :: cs =>
    let rest := mulRow y ((c + x * y + carry) / 10) xs cs
    ((c + x * y + carry) % 10 :: rest.1, rest.2)
  | carry, [], c :: cs => ((c + carry) :: cs, carry)
  | carry, _, [] => ([], carry)

/-- The rows of the product: its digits, and how many of them count, when `i` digits have been
passed. -/
def mulRows (a : List ℤ) : ℕ → ℕ → List ℤ → List ℤ → List ℤ × ℕ
  | _, len, [], c => (c, len)
  | i, len, y :: b, c =>
    let row := mulRow y 0 a c
    let rest := mulRows a (i + 1) (max len (i + a.length + if row.2 ≠ 0 then 1 else 0)) b
      (row.1.drop 1)
    (row.1.take 1 ++ rest.1, rest.2)

/-- `zbc_num_k`, Karatsuba's product where both numbers are long. -/
def numK : ℕ → BcNum → BcNum → Except Err BcNum
  | 0, _, _ => .error .unfinished
  | fuel + 1, a, b =>
    let max2 := (max a.len b.len + 1) / 2
    if a.len = 0 ∨ b.len = 0 then .ok zero
    else if isOne a || isOne b then .ok (if isOne a then b else a)
    else if a.len + b.len < 32 ∨ a.len < 32 ∨ b.len < 32 then
      let c := mulRows a.num 0 0 b.num (List.replicate (a.len + b.len + 1) 0)
      .ok { num := c.1.take c.2 }
    else do
      let (l1, h1) := split a max2
      let (l2, h2) := split b max2
      let m1 := add h1 l1
      let m2 := add h2 l2
      let z0 ← numK fuel h1 h2
      let z1 ← numK fuel m1 m2
      let z2 ← numK fuel l1 l2
      let temp := sub z1 z0
      let z1 := sub temp z2
      let z0 ← shift z0 (max2 * 2)
      let z1 ← shift z1 max2
      let temp := add z0 z1
      pure (add temp z2)

def numM (fuel : ℕ) (a b : BcNum) (scale : ℕ) : Except Err BcNum := do
  let scale := min (a.rdx + b.rdx) (max (max scale a.rdx) b.rdx)
  let maxrdx := max (max a.rdx b.rdx) scale
  let cpa ← shift { a with neg := false } maxrdx
  let cpb ← shift { b with neg := false } maxrdx
  let c ← numK fuel cpa cpb
  let maxrdx := maxrdx + scale
  let num := if c.len < maxrdx then c.num ++ List.replicate maxrdx 0 else c.num
  pure (retireMul { c with num := num, rdx := maxrdx } scale a.neg b.neg)

/-- `zbc_num_mul`. -/
def mul (fuel : ℕ) (a b : BcNum) (scale : ℕ) : Except Err BcNum := numM fuel a b scale

/-! ### Quotients -/

/-- The loop that finds a digit of the quotient: what is left of the dividend, and the digit. -/
def digitLoop (b : List ℤ) (len : ℕ) : ℕ → List ℤ → ℤ → Except Err (List ℤ × ℤ)
  | 0, _, _ => .error .unfinished
  | fuel + 1, n, q =>
    if n.getD len 0 ≠ 0 ∨ 0 ≤ compare n b len then
      digitLoop b len fuel (subArrays n (b.take len)) (q + 1)
    else .ok (n, q)

/-- The loop of `zbc_num_d` over the digits of the quotient, from the first. -/
def quotientLoop (fuel : ℕ) (b : List ℤ) (len : ℕ) : ℕ → List ℤ → Except Err (List ℤ)
  | 0, _ => .ok []
  | i + 1, cp => do
    let (n, q) ← digitLoop b len fuel (cp.drop i) 0
    let qs ← quotientLoop fuel b len i (cp.take i ++ n)
    pure (qs ++ [q])

/-- How many digits of the divisor count: not the zeros behind the point. -/
def divisorLen (b : BcNum) : ℕ :=
  if b.rdx = b.len then (b.num.rdropWhile (· = 0)).length - 1 + 1 else b.len

def numD (fuel : ℕ) (a b : BcNum) (scale : ℕ) : Except Err BcNum :=
  if b.len = 0 then .error .divideByZero
  else if a.len = 0 then .ok (setToZero scale)
  else if isOne b then .ok (retireMul a scale a.neg b.neg)
  else do
    let cp := if a.len < b.len then extend a (b.len - a.len) else a
    let cp := if cp.rdx < b.rdx then extend cp (b.rdx - cp.rdx) else cp
    let cp := { cp with rdx := cp.rdx - b.rdx }
    let cp := if cp.rdx < scale then extend cp (scale - cp.rdx) else cp
    let len := divisorLen b
    let cp := { cp with num := cp.num ++ [0] }
    let qs ← quotientLoop fuel b.num len (cp.len - len) cp.num
    pure (retireMul { num := qs ++ List.replicate len 0, rdx := cp.rdx } scale a.neg b.neg)

/-- `zbc_num_div`. -/
def div (fuel : ℕ) (a b : BcNum) (scale : ℕ) : Except Err BcNum := numD fuel a b scale

/-- `zbc_num_r`: the quotient and the remainder. -/
def numR (fuel : ℕ) (a b : BcNum) (scale ts : ℕ) : Except Err (BcNum × BcNum) :=
  if b.len = 0 then .error .divideByZero
  else if a.len = 0 then .ok (zero, setToZero ts)
  else do
    let c ← numD fuel a b scale
    let temp ← numM fuel c b (if scale ≠ 0 then ts else scale)
    let d := sub a temp
    let d := if d.rdx < ts ∧ d.len ≠ 0 then extend d (ts - d.rdx) else d
    pure (c, { retireMul d ts a.neg b.neg with neg := d.neg })

/-- `zbc_num_divmod`. -/
def divmod (fuel : ℕ) (a b : BcNum) (scale : ℕ) : Except Err (BcNum × BcNum) :=
  numR fuel a b scale (max (scale + b.rdx) a.rdx)

end Rustybox.Bc
