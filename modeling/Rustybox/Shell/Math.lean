import Mathlib.Data.BitVec
import Mathlib.Data.List.TakeWhile

/-!
# Shell arithmetic

Operators, numbers and names as `evaluate_string` reads them off its string, and the evaluation with
a stack of numbers and a stack of operators.  A C string is the list of its characters, without the
NUL.

Numbers are read by `strtoull` with base 0 (the prefix decides about octal and hexadecimal) and
by the loop of `strto_arith_t` for `base#digits`.  Neither wants a separator behind the number:
in `08a` the octal number ends before the `8`, the decimal number behind it before the `a`.

A variable on the number stack is looked up when it is needed, and its value is evaluated as an
expression of its own, on stacks of its own: `evaluateString` calls itself through `arithLookupVal`
and `arithApply`, which take the evaluator as an argument.  By then the buffer with the name has been
freed, so that what is looked up is what the memory holds there (`Env.freed`).

The evaluator has fuel, for the turns of its loop and for the depth of the calls.  What happens
in a run of the program happens with enough fuel; `Stop.unfinished` says that it ran out.

`points` is not part of the source: it records how high the two stacks are whenever one of them
has grown.
-/

namespace Rustybox.Shell

/-- The operators, with the names of the `TOK_` constants. -/
inductive Op where
  | lparen | comma
  | assign | andAssign | orAssign | xorAssign | plusAssign | minusAssign | lshiftAssign
  | rshiftAssign
  | mulAssign | divAssign | remAssign
  | conditional | conditionalSep
  | or | and | bor | bxor | band
  | eq | ne
  | lt | gt | ge | le
  | lshift | rshift
  | add | sub
  | mul | div | rem
  | exponent
  | bnot | not
  | uminus | uplus
  | preInc | preDec
  | postInc | postDec
  | num | rparen
  deriving DecidableEq

/-- The precedence, `op & 0x1f`. -/
def Op.prec : Op → ℕ
  | .lparen => 0
  | .comma => 1
  | .assign | .andAssign | .orAssign | .xorAssign | .plusAssign | .minusAssign | .lshiftAssign
  | .rshiftAssign => 2
  | .mulAssign | .divAssign | .remAssign => 3
  | .conditional | .conditionalSep => 4
  | .or => 5
  | .and => 6
  | .bor => 7
  | .bxor => 8
  | .band => 9
  | .eq | .ne => 10
  | .lt | .gt | .ge | .le => 11
  | .lshift | .rshift => 12
  | .add | .sub => 13
  | .mul | .div | .rem => 14
  | .exponent => 15
  | .bnot | .not => 16
  | .uminus | .uplus => 17
  | .preInc | .preDec => 18
  | .postInc | .postDec => 19
  | .num | .rparen => 20

/-- The precedence with the two kinds of assignment taken together. -/
def joinAssign (prec : ℕ) : ℕ := if prec = 3 then 2 else prec

def isAssignOp (op : Op) : Bool :=
  joinAssign op.prec = 2 || op.prec = 18 || op.prec = 19

def isRightAssociative (prec : ℕ) : Bool := prec = 2 || prec = 15 || prec = 4

def opTokens : List (List Char × Op) :=
  [(['<', '<', '='], .lshiftAssign), (['>', '>', '='], .rshiftAssign), (['<', '<'], .lshift),
   (['>', '>'], .rshift), (['|', '|'], .or), (['&', '&'], .and), (['!', '='], .ne),
   (['<', '='], .le), (['>', '='], .ge), (['=', '='], .eq), (['|', '='], .orAssign),
   (['&', '='], .andAssign), (['*', '='], .mulAssign), (['/', '='], .divAssign),
   (['%', '='], .remAssign), (['+', '='], .plusAssign), (['-', '='], .minusAssign),
   (['-', '-'], .postDec), (['^', '='], .xorAssign), (['+', '+'], .postInc),
   (['*', '*'], .exponent), (['!'], .not), (['<'], .lt), (['>'], .gt), (['='], .assign),
   (['|'], .bor), (['&'], .band), (['*'], .mul), (['/'], .div), (['%'], .rem), (['+'], .add),
   (['-'], .sub), (['^'], .bxor), (['~'], .bnot), ([','], .comma), (['?'], .conditional),
   ([':'], .conditionalSep), ([')'], .rparen), (['('], .lparen)]

/-- The search in a table of tokens: the first one the string starts with, and what comes
behind it. -/
def matchToken : List (List Char × Op) → List Char → Option (Op × List Char)
  | [], _ => none
  | (text, op) :: table, expr =>
    if text.isPrefixOf expr then some (op, expr.drop text.length) else matchToken table expr

/-! ### Characters -/

/-- The blanks of `skip_whitespace`. -/
def isBlank (c : Char) : Bool := c = ' ' || (9 ≤ c.toNat && c.toNat ≤ 13)

def skipWhitespace (s : List Char) : List Char := s.dropWhile isBlank

def isDigit (c : Char) : Bool := 48 ≤ c.toNat && c.toNat ≤ 57

def isLetter (c : Char) : Bool :=
  (65 ≤ c.toNat && c.toNat ≤ 90) || (97 ≤ c.toNat && c.toNat ≤ 122)

def isNameStart (c : Char) : Bool := c = '_' || isLetter c

def isNameChar (c : Char) : Bool := c = '_' || isLetter c || isDigit c

/-! ### Numbers -/

/-- The value of a character as a digit of `strtoull`. -/
def digitValue (c : Char) : ℕ :=
  if isDigit c then c.toNat - 48
  else if 97 ≤ c.toNat ∧ c.toNat ≤ 122 then c.toNat - 87
  else if 65 ≤ c.toNat ∧ c.toNat ≤ 90 then c.toNat - 55
  else 36

/-- The digits of a number in a base up to 36, and what comes behind them. -/
def readDigits (base : ℕ) : ℕ → List Char → ℕ × List Char
  | n, [] => (n, [])
  | n, c :: s => if digitValue c < base then readDigits base (n * base + digitValue c) s
    else (n, c :: s)

/-- `strtoull` with base 0, on a string that starts with a digit; the value is not yet cut off
at 64 bits. -/
def strtoull (s : List Char) : ℕ × List Char :=
  match s with
  | '0' :: x :: d :: rest =>
    if (x = 'x' || x = 'X') && digitValue d < 16 then readDigits 16 0 (d :: rest)
    else readDigits 8 0 s
  | '0' :: _ => readDigits 8 0 s
  | _ => readDigits 10 0 s

/-- The value of a character as a digit behind `base#`. -/
def baseDigit (base : ℕ) (c : Char) : Option ℕ :=
  let c := c.toNat
  -- a difference below zero wraps around and is no digit
  let letter := if 97 - 10 ≤ c ||| 32 then some ((c ||| 32) - (97 - 10)) else none
  let digit : Option ℕ :=
    if c < 48 then none
    else if 10 ≤ c - 48 ∧ c - 48 ≤ 122 - 48 then
      if 36 < base ∧ c ≤ 95 then
        if c = 95 then some 63
        else if c = 64 then some 62
        else (letter.filter (· < 36)).map (· + 26)
      else letter
    else some (c - 48)
  digit.filter (· < base)

/-- The loop of `strto_arith_t`, with 64-bit arithmetic. -/
def readBaseDigits (base : ℕ) : BitVec 64 → List Char → BitVec 64 × List Char
  | n, [] => (n, [])
  | n, c :: s =>
    match baseDigit base c with
    | none => (n, c :: s)
    | some d => readBaseDigits base (n * BitVec.ofNat 64 base + BitVec.ofNat 64 d) s

/-- `strto_arith_t`: the value, and what comes behind the number.  A number past 64 bits sets
`errno`, for which the caller takes zero. -/
def strtoArith (s : List Char) : BitVec 64 × List Char :=
  let (n, rest) := strtoull s
  if 2 ^ 64 ≤ n then (0, rest)
  else
    match s.head?, rest with
    | some c, '#' :: digits =>
      if 49 ≤ c.toNat ∧ c.toNat ≤ 57 ∧ 2 ≤ n ∧ n ≤ 64 then readBaseDigits n 0 digits
      else (BitVec.ofNat 64 n, rest)
    | _, _ => (BitVec.ofNat 64 n, rest)

/-! ### Every token takes a character -/

theorem length_of_matchToken {table : List (List Char × Op)} (h : ∀ t ∈ table, t.1 ≠ [])
    {expr rest : List Char} {op : Op} (hm : matchToken table expr = some (op, rest)) :
    rest.length < expr.length := by
  induction table with
  | nil => cases hm
  | cons t table ih =>
    obtain ⟨text, o⟩ := t
    rw [matchToken] at hm
    split at hm
    · next hp =>
      rw [Option.some.injEq, Prod.mk.injEq] at hm
      obtain ⟨-, rfl⟩ := hm
      have hle := (List.isPrefixOf_iff_prefix.mp hp).length_le
      have hpos := List.length_pos_iff.mpr (h _ List.mem_cons_self)
      rw [List.length_drop]
      dsimp only at hpos
      omega
    · exact ih (fun t ht => h t (List.mem_cons_of_mem _ ht)) hm

theorem length_readDigits_le (base n : ℕ) (s : List Char) :
    (readDigits base n s).2.length ≤ s.length := by
  induction s generalizing n with
  | nil => exact Nat.le_refl _
  | cons c s ih =>
    rw [readDigits]
    split
    · exact Nat.le_succ_of_le (ih _)
    · exact Nat.le_refl _

theorem length_readDigits_lt {base : ℕ} {c : Char} (h : digitValue c < base) (n : ℕ)
    (s : List Char) : (readDigits base n (c :: s)).2.length < (c :: s).length := by
  rw [readDigits, if_pos h]
  exact Nat.lt_succ_of_le (length_readDigits_le _ _ _)

theorem length_readBaseDigits_le (base : ℕ) (n : BitVec 64) (s : List Char) :
    (readBaseDigits base n s).2.length ≤ s.length := by
  induction s generalizing n with
  | nil => exact Nat.le_refl _
  | cons c s ih =>
    rw [readBaseDigits]
    split
    · exact Nat.le_refl _
    · exact Nat.le_succ_of_le (ih _)

theorem digitValue_lt_of_isDigit {c : Char} (h : isDigit c = true) : digitValue c < 10 := by
  have hd := h
  simp only [isDigit, Bool.and_eq_true, decide_eq_true_eq] at hd
  rw [digitValue, if_pos h]
  omega

theorem length_strtoull_lt {c : Char} (h : isDigit c = true) (s : List Char) :
    (strtoull (c :: s)).2.length < (c :: s).length := by
  rw [strtoull.eq_def]
  split
  · next x d rest he =>
    rw [he]
    split
    · have := length_readDigits_le 16 0 (d :: rest)
      simp only [List.length_cons] at this ⊢
      omega
    · exact length_readDigits_lt (by decide) _ _
  · next he =>
    rw [he]
    exact length_readDigits_lt (by decide) _ _
  · exact length_readDigits_lt (digitValue_lt_of_isDigit h) _ _

theorem length_strtoArith_lt {c : Char} (h : isDigit c = true) (s : List Char) :
    (strtoArith (c :: s)).2.length < (c :: s).length := by
  have hlt := length_strtoull_lt h s
  unfold strtoArith
  dsimp only
  split
  · exact hlt
  split
  · next digits _ hr =>
    have hle := length_readBaseDigits_le (strtoull (c :: s)).1 0 digits
    split
    · rw [hr, List.length_cons] at hlt
      omega
    · exact hlt
  · exact hlt

/-! ### The evaluation -/

/-- The error messages. -/
inductive Err where
  | syntaxError | recursionLoop | malformedConditional | negativeExponent | divideByZero
  deriving DecidableEq

def Err.message : Err → String
  | .syntaxError => "arithmetic syntax error"
  | .recursionLoop => "expression recursion loop detected"
  | .malformedConditional => "malformed ?: operator"
  | .negativeExponent => "exponent less than 0"
  | .divideByZero => "divide by zero"

/-- Why an evaluation gives no value. -/
inductive Stop where
  | error (e : Err)
  | unfinished
  deriving DecidableEq

/-- The stacks of one call of `evaluate_string`: the length of its string, the entries on both
stacks, and how many operands so far have started right where the operand before ended. -/
structure Point where
  len : ℕ
  nums : ℕ
  ops : ℕ
  glued : ℕ
  deriving DecidableEq

/-- `expr_len`, an `unsigned`. -/
def Point.exprLen (p : Point) : ℕ := (p.len + 2) % 2 ^ 32

/-- What is around an evaluation: the variables of the shell, and the memory.  The buffer that a
name is copied to is freed at the end of the block; `freed k name` is what the read behind the next
`k` ones finds in a buffer that `name` has been written to. -/
structure Env where
  vars : List Char → Option (List Char)
  freed : ℕ → List Char → List Char

/-- A memory in which the names stay as they were written. -/
def kept : ℕ → List Char → List Char := fun _ name => name

/-- `arith_state_t`. -/
structure MathState extends Env where
  points : List Point

/-- A computation that may stop. -/
def Eval (α : Type) : Type := MathState → Except Stop α × MathState

instance : Monad Eval where
  pure a := fun st => (.ok a, st)
  bind x f := fun st =>
    match x st with
    | (.ok a, st) => f a st
    | (.error e, st) => (.error e, st)

theorem Eval.bind_ok {α β : Type} {x : Eval α} {f : α → Eval β} {st st' : MathState} {a : α}
    (h : x st = (.ok a, st')) : (x >>= f) st = f a st' := by
  simp only [Bind.bind, h]

theorem Eval.bind_error {α β : Type} {x : Eval α} {f : α → Eval β} {st st' : MathState} {e : Stop}
    (h : x st = (.error e, st')) : (x >>= f) st = (.error e, st') := by
  simp only [Bind.bind, h]

def Eval.fail {α : Type} (e : Err) : Eval α := fun st => (.error (.error e), st)

def Eval.unfinished {α : Type} : Eval α := fun st => (.error .unfinished, st)

def readName (name : List Char) : Eval (List Char) := fun st =>
  (.ok (st.freed 0 name), { st with freed := fun k => st.freed (k + 1) })

def lookupvar (name : List Char) : Eval (Option (List Char)) := fun st => (.ok (st.vars name), st)

def setvar (name value : List Char) : Eval Unit := fun st =>
  (.ok (), { st with vars := fun x => if x = name then some value else st.vars x })

def note (p : Point) : Eval Unit := fun st => (.ok (), { st with points := p :: st.points })

/-! ### Applying an operator -/

/-- `var_or_num_t`. -/
structure Num where
  var : Option (List Char) := none
  val : BitVec 64 := 0
  secondVal : Option (BitVec 64) := none
  deriving DecidableEq

/-- The evaluation of the value of a variable, with the names that are being evaluated. -/
abbrev Evaluator := List (List Char) → List Char → Eval (BitVec 64)

/-- Did we already see this name? -/
def seen (name : List Char) : List (List Char) → Eval Bool
  | [] => pure false
  | cur :: names => do
    let a ← readName cur
    let b ← readName name
    if a = b then pure true else seen name names

def arithLookupVal (ev : Evaluator) (names : List (List Char)) (t : Num) : Eval Num :=
  match t.var with
  | none => pure t
  | some var => do
    let name ← readName var
    match ← lookupvar name with
    | none => pure { t with val := 0 }
    | some p =>
      if ← seen var names then Eval.fail .recursionLoop
      else do
        let val ← ev (var :: names) p
        pure { t with val := val }

def ofBool (b : Bool) : BitVec 64 := if b then 1 else 0

/-- The unary operators; `none` for the others. -/
def unaryValue (op : Op) (rez : BitVec 64) : Option (BitVec 64) :=
  match op with
  | .uminus => some (-rez)
  | .not => some (ofBool (rez = 0))
  | .bnot => some (~~~rez)
  | .postInc | .preInc => some (rez + 1)
  | .postDec | .preDec => some (rez - 1)
  | .uplus => some rez
  | _ => none

def powLoop (rez : BitVec 64) : ℕ → BitVec 64 → BitVec 64
  | 0, c => c
  | n + 1, c => powLoop rez n (c * rez)

/-- The quotient or the remainder; the divisor `-1` is replaced where the quotient may not be
representable. -/
def divide (op : Op) (rez rhs : BitVec 64) : BitVec 64 :=
  let rhs := if rhs = -1 ∧ rez <<< 1 = 0 then 1 else rhs
  if op = .div ∨ op = .divAssign then rez.sdiv rhs else rez.srem rhs

/-- The binary operators, `?` and `:` apart.  Shifts take the low six bits of the count. -/
def binaryValue (op : Op) (rez rhs : BitVec 64) : Except Err (BitVec 64) :=
  match op with
  | .bor | .orAssign => .ok (rez ||| rhs)
  | .or => .ok (ofBool (rhs ≠ 0 ∨ rez ≠ 0))
  | .band | .andAssign => .ok (rez &&& rhs)
  | .bxor | .xorAssign => .ok (rez ^^^ rhs)
  | .and => .ok (ofBool (rez ≠ 0 ∧ rhs ≠ 0))
  | .eq => .ok (ofBool (rez = rhs))
  | .ne => .ok (ofBool (rez ≠ rhs))
  | .ge => .ok (ofBool (rhs.sle rez))
  | .rshift | .rshiftAssign => .ok (rez.sshiftRight (rhs.toNat % 64))
  | .lshift | .lshiftAssign => .ok (rez <<< (rhs.toNat % 64))
  | .gt => .ok (ofBool (rhs.slt rez))
  | .lt => .ok (ofBool (rez.slt rhs))
  | .le => .ok (ofBool (rez.sle rhs))
  | .mul | .mulAssign => .ok (rez * rhs)
  | .add | .plusAssign => .ok (rez + rhs)
  | .sub | .minusAssign => .ok (rez - rhs)
  | .assign | .comma => .ok rhs
  | .exponent =>
    if rhs.slt 0 then .error .negativeExponent else .ok (powLoop rez rhs.toNat 1)
  | .div | .divAssign | .rem | .remAssign =>
    if rhs = 0 then .error .divideByZero else .ok (divide op rez rhs)
  | _ => if rhs = 0 then .error .divideByZero else .ok rez

/-- The end of `arith_apply`: assignments go to the variable, and the entry is just a number. -/
def store (op : Op) (top : Num) (rez : BitVec 64) : Eval Num :=
  if isAssignOp op then
    match top.var with
    | none => Eval.fail .syntaxError
    | some var => do
      let name ← readName var
      setvar name (toString rez.toInt).toList
      let rez := if op = .postInc then rez - 1 else if op = .postDec then rez + 1 else rez
      pure { top with val := rez, var := none }
  else pure { top with val := rez, var := none }

/-- A binary operator on its two arguments, which have been looked up, and the entries below. -/
def applyBinary (op : Op) (left right : Num) (below : List Num) : Eval Num :=
  match op with
  | .conditional =>
    store op left (if left.val ≠ 0 then right.val else right.secondVal.getD 0)
  | .conditionalSep =>
    if below = [] then Eval.fail .malformedConditional
    else store op { left with secondVal := some right.val } left.val
  | _ =>
    match binaryValue op left.val right.val with
    | .error e => Eval.fail e
    | .ok rez => store op left rez

/-- The left argument is looked up, unless it is assigned to. -/
def lookupLeft (ev : Evaluator) (names : List (List Char)) (op : Op) (left : Num) : Eval Num :=
  if op = .assign then pure left else arithLookupVal ev names left

/-- `arith_apply`; the top of the number stack comes first. -/
def arithApply (ev : Evaluator) (names : List (List Char)) (op : Op) (nums : List Num) :
    Eval (List Num) :=
  match nums with
  | [] => Eval.fail .syntaxError
  | top :: rest => do
    let top ← arithLookupVal ev names top
    match unaryValue op top.val with
    | some rez => do
      let n ← store op top rez
      pure (n :: rest)
    | none =>
      match rest with
      | [] => Eval.fail .syntaxError
      | left :: rest =>
        if decide (op = .conditional) = top.secondVal.isNone then Eval.fail .malformedConditional
        else do
          let left ← lookupLeft ev names op left
          let n ← applyBinary op left top rest
          pure (n :: rest)

/-! ### The loop -/

/-- The variables of the loop of `evaluate_string`.  `ended` says that the closing paren has
been put behind the string.  The last two fields are for the record: whether the last token was
an operand, and `Point.glued`. -/
structure Scan where
  expr : List Char
  ended : Bool := false
  lasttok : Op := .lparen
  nums : List Num := []
  ops : List Op := [.lparen]
  afterOperand : Bool := false
  glued : ℕ := 0

/-- Whether an operator on the stack waits until the new one has been applied. -/
def stays (prev op : Op) : Bool :=
  joinAssign prev.prec < joinAssign op.prec ||
    (joinAssign prev.prec = joinAssign op.prec && isRightAssociative (joinAssign op.prec))

/-- The loop that applies what is on the operator stack; the first value says that it has come
to the left paren that the right paren closes. -/
def applyLoop (ev : Evaluator) (names : List (List Char)) (op : Op) :
    List Op → List Num → Eval (Bool × List Op × List Num)
  | [], nums => pure (false, [], nums)
  | prev :: ops, nums =>
    if op = .rparen ∧ prev = .lparen then pure (true, ops, nums)
    else if op ≠ .rparen ∧ stays prev op then pure (false, prev :: ops, nums)
    else do
      let nums ← arithApply ev names prev nums
      applyLoop ev names op ops nums

/-- A sign or `++` that does not follow a number. -/
def asUnary : Op → Op
  | .add => .uplus
  | .sub => .uminus
  | .postInc => .preInc
  | .postDec => .preDec
  | op => op

/-- The operators that need a number before them. -/
def isBinary (op : Op) : Bool := (0 < op.prec && op.prec < 16) || op.prec = 20

/-- The height of the stacks. -/
def Scan.point (s : Scan) (len : ℕ) : Point := ⟨len, s.nums.length, s.ops.length, s.glued⟩

def pushOp (len : ℕ) (s : Scan) (op : Op) : Eval Scan := do
  let s := { s with ops := op :: s.ops, lasttok := op, afterOperand := false }
  note (s.point len)
  pure s

/-- The loop, once it has read an operator. -/
def operatorStep (ev : Evaluator) (names : List (List Char)) (len : ℕ) (s : Scan) (op : Op) :
    Eval Scan :=
  let lasttok := if s.lasttok = .postInc ∨ s.lasttok = .postDec then .num else s.lasttok
  let op := if lasttok ≠ .num then asUnary op else op
  if isBinary op then
    if lasttok ≠ .num then Eval.fail .syntaxError
    else do
      let (closed, ops, nums) ← applyLoop ev names op s.ops s.nums
      let s := { s with ops := ops, nums := nums, afterOperand := false }
      if closed then pure { s with lasttok := .num }
      else if op = .rparen then Eval.fail .syntaxError
      else pushOp len s op
  else pushOp len s op

def pushNum (len : ℕ) (s : Scan) (glued : Bool) (n : Num) (rest : List Char) : Eval Scan := do
  let s := { s with
    expr := rest, nums := n :: s.nums, lasttok := .num, afterOperand := true,
    glued := if glued then s.glued + 1 else s.glued }
  note (s.point len)
  pure s

/-- The operator at the start of the string.  `NUM++` is not one token where `NUM` is a
literal. -/
def readOp (s : Scan) (expr : List Char) : Option (Op × List Char) :=
  match expr with
  | '+' :: '+' :: rest =>
    if s.lasttok = .num ∧ (s.nums.head?.bind Num.var) = none then some (.add, '+' :: rest)
    else matchToken opTokens expr
  | '-' :: '-' :: rest =>
    if s.lasttok = .num ∧ (s.nums.head?.bind Num.var) = none then some (.sub, '-' :: rest)
    else matchToken opTokens expr
  | _ => matchToken opTokens expr

/-- One turn of the loop: it goes on, or the value of the expression is there. -/
def scanStep (ev : Evaluator) (names : List (List Char)) (len : ℕ) (s : Scan) :
    Eval (Scan ⊕ BitVec 64) :=
  let expr := skipWhitespace s.expr
  match expr with
  | [] =>
    if !s.ended then pure (.inl { s with expr := [')'], ended := true })
    else
      match s.nums with
      | [n] => do
        let n ← arithLookupVal ev names n
        pure (.inr n.val)
      | _ => Eval.fail .syntaxError
  | c :: cs =>
    let glued := s.afterOperand && expr.length = s.expr.length
    if isNameStart c then do
      let s ← pushNum len s glued { var := some (c :: cs.takeWhile isNameChar) }
        (cs.dropWhile isNameChar)
      pure (.inl s)
    else if isDigit c then do
      let s ← pushNum len s glued { val := (strtoArith expr).1 } (strtoArith expr).2
      pure (.inl s)
    else
      match readOp s expr with
      | none => Eval.fail .syntaxError
      | some (op, rest) => do
        let s ← operatorStep ev names len { s with expr := rest } op
        pure (.inl s)

def scanLoop (ev : Evaluator) (names : List (List Char)) (len : ℕ) :
    ℕ → Scan → Eval (BitVec 64)
  | 0, _ => Eval.unfinished
  | n + 1, s => do
    match ← scanStep ev names len s with
    | .inl s => scanLoop ev names len n s
    | .inr val => pure val

def evaluateString : ℕ → Evaluator
  | 0 => fun _ _ => Eval.unfinished
  | n + 1 => fun names expr => do
    let start := skipWhitespace expr
    note ⟨start.length, 0, 1, 0⟩
    if start = [] then pure 0
    else scanLoop (evaluateString n) names start.length n { expr := start }

/-- `arith`: the value or why there is none, and the variables it leaves. -/
def arith (fuel : ℕ) (env : Env) (expr : List Char) : Except Stop (BitVec 64) × MathState :=
  evaluateString fuel [] expr ⟨env, []⟩

end Rustybox.Shell
