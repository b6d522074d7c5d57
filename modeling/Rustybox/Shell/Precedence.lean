import Rustybox.Shell.Reading

/-!
# Shell arithmetic respects precedence

An expression is printed with a blank between its tokens and with the parentheses that the
precedence table of C asks for, and `arith` is to give the value of the tree.
-/

namespace Rustybox.Shell

/-! ### Trees -/

inductive UnOp where
  | plus | minus | not | bnot

inductive BinOp where
  | pow | mul | div | rem | add | sub | shl | shr | lt | le | gt | ge | eq | ne | band | bxor
  | bor | and | or | comma
  deriving DecidableEq

/-- An expression of literals, unary and binary operators. -/
inductive Expr where
  | lit (n : Fin (2 ^ 63))
  | un (u : UnOp) (e : Expr)
  | bin (b : BinOp) (l r : Expr)

/-- The precedence table of C, from the comma upwards, with `**` between the multiplicative and
the unary operators. -/
def BinOp.level : BinOp → ℕ
  | .comma => 1
  | .or => 2
  | .and => 3
  | .bor => 4
  | .bxor => 5
  | .band => 6
  | .eq | .ne => 7
  | .lt | .le | .gt | .ge => 8
  | .shl | .shr => 9
  | .add | .sub => 10
  | .mul | .div | .rem => 11
  | .pow => 12

def unaryLevel : ℕ := 13

def Expr.level : Expr → ℕ
  | .lit _ => 14
  | .un _ _ => unaryLevel
  | .bin b _ _ => b.level

/-- What the left operand has to bind at least; only `**` groups from the right. -/
def BinOp.leftLevel (b : BinOp) : ℕ := if b = .pow then b.level + 1 else b.level

/-- What the right operand has to bind at least. -/
def BinOp.rightLevel (b : BinOp) : ℕ := if b = .pow then b.level else b.level + 1

def UnOp.text : UnOp → List Char
  | .plus => ['+']
  | .minus => ['-']
  | .not => ['!']
  | .bnot => ['~']

def BinOp.text : BinOp → List Char
  | .pow => ['*', '*']
  | .mul => ['*']
  | .div => ['/']
  | .rem => ['%']
  | .add => ['+']
  | .sub => ['-']
  | .shl => ['<', '<']
  | .shr => ['>', '>']
  | .lt => ['<']
  | .le => ['<', '=']
  | .gt => ['>']
  | .ge => ['>', '=']
  | .eq => ['=', '=']
  | .ne => ['!', '=']
  | .band => ['&']
  | .bxor => ['^']
  | .bor => ['|']
  | .and => ['&', '&']
  | .or => ['|', '|']
  | .comma => [',']

def inParens (p : Bool) (ts : List (List Char)) : List (List Char) :=
  if p then ['('] :: ts ++ [[')']] else ts

def Expr.tokens : Expr → List (List Char)
  | .lit n => [Nat.toDigits 10 n]
  | .un u e => u.text :: inParens (e.level < unaryLevel) e.tokens
  | .bin b l r => inParens (l.level < b.leftLevel) l.tokens ++
      b.text :: inParens (r.level < b.rightLevel) r.tokens

/-- The expression as a string. -/
def Expr.print (e : Expr) : List Char := [' '].intercalate e.tokens

/-! ### Values -/

def UnOp.value : UnOp → BitVec 64 → BitVec 64
  | .plus, x => x
  | .minus, x => -x
  | .not, x => ofBool (x = 0)
  | .bnot, x => ~~~x

/-- The operators on numbers of 64 bits in two's complement. -/
def BinOp.value (b : BinOp) (x y : BitVec 64) : Except Err (BitVec 64) :=
  match b with
  | .pow => if y.toInt < 0 then .error .negativeExponent else .ok (x ^ y.toNat)
  | .mul => .ok (x * y)
  | .div => if y = 0 then .error .divideByZero else .ok (BitVec.ofInt 64 (x.toInt.tdiv y.toInt))
  | .rem => if y = 0 then .error .divideByZero else .ok (BitVec.ofInt 64 (x.toInt.tmod y.toInt))
  | .add => .ok (x + y)
  | .sub => .ok (x - y)
  | .shl => .ok (x <<< y.toNat)
  | .shr => .ok (x.sshiftRight y.toNat)
  | .lt => .ok (ofBool (x.toInt < y.toInt))
  | .le => .ok (ofBool (x.toInt ≤ y.toInt))
  | .gt => .ok (ofBool (x.toInt > y.toInt))
  | .ge => .ok (ofBool (x.toInt ≥ y.toInt))
  | .eq => .ok (ofBool (x = y))
  | .ne => .ok (ofBool (x ≠ y))
  | .band => .ok (x &&& y)
  | .bxor => .ok (x ^^^ y)
  | .bor => .ok (x ||| y)
  | .and => .ok (ofBool (x ≠ 0 ∧ y ≠ 0))
  | .or => .ok (ofBool (x ≠ 0 ∨ y ≠ 0))
  | .comma => .ok y

/-- The value of a tree, or the error that is met first when its operands are evaluated from
left to right.  Both operands of `&&` and `||` are evaluated. -/
def Expr.value : Expr → Except Err (BitVec 64)
  | .lit n => .ok (BitVec.ofNat 64 n)
  | .un u e =>
    match e.value with
    | .error err => .error err
    | .ok x => .ok (u.value x)
  | .bin b l r =>
    match l.value with
    | .error err => .error err
    | .ok x =>
      match r.value with
      | .error err => .error err
      | .ok y => b.value x y

/-- The counts of the shifts are within `0..63`. -/
def Expr.ShiftsInRange : Expr → Prop
  | .lit _ => True
  | .un _ e => e.ShiftsInRange
  | .bin b l r => l.ShiftsInRange ∧ r.ShiftsInRange ∧
      (b = .shl ∨ b = .shr → ∀ y, r.value = .ok y → 0 ≤ y.toInt ∧ y.toInt < 64)

/-! ### Operators -/

/-- The operator of the evaluator. -/
def UnOp.op : UnOp → Op
  | .plus => .uplus
  | .minus => .uminus
  | .not => .not
  | .bnot => .bnot

def BinOp.op : BinOp → Op
  | .pow => .exponent
  | .mul => .mul
  | .div => .div
  | .rem => .rem
  | .add => .add
  | .sub => .sub
  | .shl => .lshift
  | .shr => .rshift
  | .lt => .lt
  | .le => .le
  | .gt => .gt
  | .ge => .ge
  | .eq => .eq
  | .ne => .ne
  | .band => .band
  | .bxor => .bxor
  | .bor => .bor
  | .and => .and
  | .or => .or
  | .comma => .comma

theorem level_pos (b : BinOp) : 1 ≤ b.level := by
  cases b <;> decide

/-- What the levels are in the source: above the comma there are the assignments and the
conditional. -/
def opLevel (level : ℕ) : ℕ := if level ≤ 1 then 1 else level + 3

theorem opLevel_mono {l l' : ℕ} (h : l ≤ l') : opLevel l ≤ opLevel l' := by
  rw [opLevel, opLevel]
  split <;> split <;> omega

theorem level_op (b : BinOp) : b.op.level = opLevel b.level := by
  cases b <;> rfl

theorem leftLevel_op_le (b : BinOp) : b.op.leftLevel ≤ opLevel b.leftLevel := by
  cases b <;> decide

theorem rightLevel_op_le (b : BinOp) : b.op.rightLevel ≤ opLevel b.rightLevel := by
  cases b <;> decide

theorem operandLevel_pos (b : BinOp) : 0 < b.op.leftLevel ∧ 0 < b.op.rightLevel := by
  cases b <;> decide

theorem operandLevel_le (b : BinOp) :
    b.op.leftLevel ≤ primaryLevel ∧ b.op.rightLevel ≤ primaryLevel := by
  cases b <;> decide

/-! ### Applying them -/

theorem pow_eq_powLoop (x : BitVec 64) (n : ℕ) (c : BitVec 64) :
    powLoop x n c = c * x ^ n := by
  induction n generalizing c with
  | zero =>
    rw [powLoop, BitVec.pow_zero]
    exact (BitVec.mul_one _).symm
  | succ n ih =>
    rw [powLoop, ih, BitVec.pow_succ, BitVec.mul_assoc, BitVec.mul_comm x]

/-- The dividends for which the divisor is replaced are their own negatives. -/
theorem neg_eq_of_shiftLeft {x : BitVec 64} (h : x <<< 1 = 0) : -x = x := by
  have hs := congrArg BitVec.toNat h
  rw [BitVec.toNat_shiftLeft, Nat.shiftLeft_eq] at hs
  apply BitVec.eq_of_toNat_eq
  rw [BitVec.toNat_neg]
  have h0 : (0 : BitVec 64).toNat = 0 := rfl
  have hlt := x.isLt
  omega

/-- The replaced divisor makes no difference. -/
theorem divide_div (x y : BitVec 64) :
    divide .div x y = BitVec.ofInt 64 (x.toInt.tdiv y.toInt) := by
  unfold divide
  rw [if_pos (Or.inl rfl)]
  split
  · next h =>
    have hy : y.toInt = -1 := by rw [h.1]; rfl
    rw [hy, Int.tdiv_neg, Int.tdiv_one, BitVec.ofInt_neg, BitVec.ofInt_toInt,
      neg_eq_of_shiftLeft h.2]
    exact BitVec.sdiv_one
  · exact BitVec.eq_of_toInt_eq (by rw [BitVec.toInt_sdiv, BitVec.toInt_ofInt])

theorem divide_rem (x y : BitVec 64) :
    divide .rem x y = BitVec.ofInt 64 (x.toInt.tmod y.toInt) := by
  unfold divide
  rw [if_neg (by decide)]
  split
  · next h =>
    have hy : y.toInt = -1 := by rw [h.1]; rfl
    rw [hy, Int.tmod_neg, Int.tmod_one]
    exact BitVec.srem_one
  · rw [← BitVec.toInt_srem, BitVec.ofInt_toInt]

theorem binaryValue_op (b : BinOp) (x y : BitVec 64)
    (h : b = .shl ∨ b = .shr → 0 ≤ y.toInt ∧ y.toInt < 64) :
    binaryValue b.op x y = b.value x y := by
  have hcount : 0 ≤ y.toInt ∧ y.toInt < 64 → y.toNat % 64 = y.toNat := by
    intro hy
    have := BitVec.toInt_eq_toNat_cond y
    split at this <;> omega
  cases b with
  | pow =>
    simp only [BinOp.op, binaryValue, BinOp.value, BitVec.slt_iff_toInt_lt, pow_eq_powLoop]
    have h0 : (0 : BitVec 64).toInt = 0 := rfl
    have h1 : (1 : BitVec 64) * x ^ y.toNat = x ^ y.toNat := BitVec.one_mul _
    rw [h0, h1]
  | div => simp only [BinOp.op, binaryValue, BinOp.value, divide_div]
  | rem => simp only [BinOp.op, binaryValue, BinOp.value, divide_rem]
  | shl => simp only [BinOp.op, binaryValue, BinOp.value, hcount (h (Or.inl rfl))]
  | shr => simp only [BinOp.op, binaryValue, BinOp.value, hcount (h (Or.inr rfl))]
  | or => simp only [BinOp.op, binaryValue, BinOp.value, or_comm]
  | mul | add | sub | lt | le | gt | ge | eq | ne | band | bxor | bor | and | comma => rfl

section

variable (ev : Evaluator) (names : List (List Char))

theorem arithApply_unary (u : UnOp) (x : BitVec 64) (nums : List Num) :
    arithApply ev names u.op (plain x :: nums) = pure (plain (u.value x) :: nums) := by
  cases u <;> rfl

theorem applyBinary_op (b : BinOp) (x y : BitVec 64) (nums : List Num) :
    applyBinary b.op (plain x) (plain y) nums =
      match binaryValue b.op x y with
      | .error e => Eval.fail e
      | .ok z => pure (plain z) := by
  cases b <;> rfl

theorem arithApply_binary (b : BinOp) (x y : BitVec 64) (nums : List Num)
    (h : b = .shl ∨ b = .shr → 0 ≤ y.toInt ∧ y.toInt < 64) :
    arithApply ev names b.op (plain y :: plain x :: nums) =
      match b.value x y with
      | .error e => Eval.fail e
      | .ok z => pure (plain z :: nums) := by
  have hbin : arithApply ev names b.op (plain y :: plain x :: nums) =
      applyBinary b.op (plain x) (plain y) nums >>= fun n => pure (n :: nums) := by
    cases b <;> rfl
  rw [hbin, applyBinary_op, binaryValue_op b x y h]
  cases b.value x y with
  | error e => rfl
  | ok z => rfl

end

/-! ### Reading operators -/

theorem readOp_binary (s : Scan) (b : BinOp) {rest : List Char} (h : Ends rest) :
    readOp s (b.text ++ rest) = some (b.op, rest) := by
  rcases h with rfl | ⟨r, rfl⟩
  · cases b <;> rfl
  · cases b <;> rfl

/-- The operator of a sign as it is read. -/
def UnOp.read : UnOp → Op
  | .plus => .add
  | .minus => .sub
  | .not => .not
  | .bnot => .bnot

theorem readOp_unary (s : Scan) (u : UnOp) {rest : List Char} (h : Ends rest) :
    readOp s (u.text ++ rest) = some (u.read, rest) := by
  rcases h with rfl | ⟨r, rfl⟩
  · cases u <;> rfl
  · cases u <;> rfl

theorem isBinary_binOp (b : BinOp) : IsBinary b.text b.op where
  start := by cases b <;> exact ⟨_, _, rfl, by decide⟩
  read s _ h := readOp_binary s b h
  pos := by cases b <;> decide
  lt := by cases b <;> decide

theorem isUnary_unOp (u : UnOp) : IsUnary u.text u.read u.op where
  start := by cases u <;> exact ⟨_, _, rfl, by decide⟩
  read s _ _ h := readOp_unary s u h
  unary := by cases u <;> rfl
  le := by cases u <;> decide
  lt := by cases u <;> decide

/-! ### Reading an expression -/

/-- An entry goes on the stack. -/
def onto (below : List Num) : Except Err Num → Eval (List Num)
  | .error e => Eval.fail e
  | .ok n => pure (n :: below)

section

variable {ev : Evaluator} {names : List (List Char)} {len : ℕ}
  (hev : ∀ names expr, Blind .any (ev names expr))

include hev

theorem Reads.fit {p : Bool} {ts : List (List Char)} {level asked : ℕ}
    {run : List Num → Effect (List Num)} (h : Reads ev names len ts level run)
    (hpos : 0 < asked) (hprimary : asked ≤ primaryLevel) (hle : p = false → asked ≤ level) :
    Reads ev names len (inParens p ts) asked run := by
  cases p with
  | true => exact (h.paren hev).mono hpos hprimary
  | false => exact h.mono hpos (hle rfl)

/-- **The loop reads an expression as its tree.** -/
theorem reads_tokens (e : Expr) (h : e.ShiftsInRange) :
    Reads ev names len e.tokens (opLevel e.level)
      (fun nums => effect (onto nums (e.value.map plain))) := by
  induction e with
  | lit n => exact reads_lit hev n
  | un u e ih =>
    have hread : Reads ev names len (inParens (e.level < unaryLevel) e.tokens) signLevel
        (fun nums => effect (onto nums (e.value.map plain))) :=
      (ih h).fit hev (by decide) (by decide)
        fun hlt => opLevel_mono (Nat.not_lt.mp (of_decide_eq_false hlt))
    refine (hread.unary hev (isUnary_unOp u)).congr fun nums => ?_
    rw [Expr.value]
    cases e.value with
    | error err => rfl
    | ok x =>
      show effect (pure (plain x :: nums)) >>= _ = _
      rw [effect_pure, pure_bind, arithApply_unary]
      rfl
  | bin b l r ihl ihr =>
    obtain ⟨hposl, hposr⟩ := operandLevel_pos b
    obtain ⟨hlel, hler⟩ := operandLevel_le b
    have hreadl := (ihl h.1).fit hev (p := l.level < b.leftLevel) hposl hlel fun hlt =>
      Nat.le_trans (leftLevel_op_le b) (opLevel_mono (Nat.not_lt.mp (of_decide_eq_false hlt)))
    have hreadr := (ihr h.2.1).fit hev (p := r.level < b.rightLevel) hposr hler fun hlt =>
      Nat.le_trans (rightLevel_op_le b) (opLevel_mono (Nat.not_lt.mp (of_decide_eq_false hlt)))
    have hread := hreadl.binary hev (isBinary_binOp b) hreadr
    rw [level_op] at hread
    refine hread.congr fun nums => ?_
    have hshift := h.2.2
    rw [Expr.value]
    cases hx : l.value with
    | error err => rfl
    | ok x =>
      show effect (pure (plain x :: nums)) >>= _ >>= _ = _
      rw [effect_pure, pure_bind]
      cases hy : r.value with
      | error err => rfl
      | ok y =>
        show effect (pure (plain y :: plain x :: nums)) >>= _ = _
        rw [effect_pure, pure_bind, arithApply_binary ev names b x y nums fun hb => hshift hb y hy]
        dsimp only
        cases b.value x y with
        | error err => rfl
        | ok z => rfl

end

/-! ### The value of an expression -/

theorem value_error {e : Expr} {err : Err} (h : e.value = .error err) :
    err = .divideByZero ∨ err = .negativeExponent := by
  induction e generalizing err with
  | lit n => cases h
  | un u e ih =>
    rw [Expr.value] at h
    cases he : e.value with
    | error err' =>
      rw [he] at h
      cases h
      exact ih he
    | ok x =>
      rw [he] at h
      cases h
  | bin b l r ihl ihr =>
    rw [Expr.value] at h
    cases hl : l.value with
    | error err' =>
      rw [hl] at h
      cases h
      exact ihl hl
    | ok x =>
      rw [hl] at h
      cases hr : r.value with
      | error err' =>
        rw [hr] at h
        cases h
        exact ihr hr
      | ok y =>
        simp only [hr] at h
        cases b <;> simp only [BinOp.value] at h <;> grind

/-- **Arithmetic respects precedence.**  The string of a tree is evaluated to the value of the
tree, or to the error that evaluating it from the left meets. -/
theorem arith_print (e : Expr) (h : e.ShiftsInRange) (env : Env)
    (fuel : ℕ) (hfuel : e.tokens.length + 4 ≤ fuel) :
    (arith fuel env e.print).1 = e.value.mapError Stop.error ∧
    ∀ err, e.value = .error err →
      err.message = "divide by zero" ∨ err.message = "exponent less than 0" := by
  refine ⟨?_, fun err he => ?_⟩
  · obtain ⟨n, rfl⟩ : ∃ n, fuel = n + 1 := ⟨fuel - 1, by omega⟩
    have hvalue := congrArg Prod.fst
      ((reads_tokens (blind_evaluateString n) e h).arith (by omega) env)
    refine hvalue.trans ?_
    cases e.value with
    | error err => rfl
    | ok v => rfl
  · rcases value_error he with rfl | rfl
    · exact Or.inl rfl
    · exact Or.inr rfl

theorem arith_print_powers :
    let e : Expr := .bin .shl (.bin .sub (.bin .pow (.lit 2) (.bin .pow (.lit 3) (.lit 2)))
      (.bin .sub (.lit 7) (.lit 1))) (.lit 1)
    e.print = "2 ** 3 ** 2 - ( 7 - 1 ) << 1".toList ∧
      (arith 17 ⟨fun _ => none, kept⟩ e.print).1 = .ok 1012 := by
  intro e
  have hshifts : e.ShiftsInRange := by
    refine ⟨⟨⟨trivial, ⟨trivial, trivial, nofun⟩, nofun⟩, ⟨trivial, trivial, nofun⟩, nofun⟩,
      trivial, fun _ y hy => ?_⟩
    cases hy
    decide
  have hvalue : e.value = .ok 1012 := by rfl
  refine ⟨by decide, ?_⟩
  have h := (arith_print e hshifts ⟨fun _ => none, kept⟩ 17 (by decide)).1
  rw [hvalue] at h
  exact h

end Rustybox.Shell
