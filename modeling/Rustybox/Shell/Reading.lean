import Rustybox.Shell.TokenLoop

/-!
# Reading the parts of an expression

The loop applies the operators of an expression in postfix order: first the left operand, then
the right one, then the operator.  What is on the operator stack when a part has been read depends
on its last operand, so that the stacks cannot be compared with the part at every token.  What can
be compared is what comes out in the end: reading a part and going on with a token that ends it is
the same as running the part on the stack of numbers and going on with what it leaves (`Reads`).

* `reads_lit`, `reads_place`, `reads_step`, `Reads.paren`, `Reads.unary`, `Reads.binary`: one rule
  for each way to put a part together.
* `Reads.arith`: the string of the parts is evaluated to what they leave.
-/

namespace Rustybox.Shell

/-! ### How tightly an operator binds -/

namespace Op

/-- The precedence, with the two kinds of assignment taken together. -/
def level (op : Op) : ℕ := joinAssign op.prec

def groupsRight (op : Op) : Bool := isRightAssociative op.level

/-- What the left operand has to bind at least. -/
def leftLevel (op : Op) : ℕ := if op.groupsRight then op.level + 1 else op.level

/-- What the right operand has to bind at least. -/
def rightLevel (op : Op) : ℕ := if op.groupsRight then op.level else op.level + 1

theorem level_le_leftLevel (op : Op) : op.level ≤ op.leftLevel := by
  rw [leftLevel]
  split <;> omega

theorem level_le_rightLevel (op : Op) : op.level ≤ op.rightLevel := by
  rw [rightLevel]
  split <;> omega

end Op

theorem groupsRight_of_level {o op : Op} (h : o.level = op.level) :
    o.groupsRight = op.groupsRight := by
  rw [Op.groupsRight, Op.groupsRight, h]

/-- An operator waits for the operators that come in its right operand. -/
theorem stays_iff (o op : Op) : stays o op = true ↔ o.rightLevel ≤ op.level := by
  rw [Op.rightLevel, stays, Bool.or_eq_true, Bool.and_eq_true, decide_eq_true_eq, decide_eq_true_eq]
  show o.level < op.level ∨ o.level = op.level ∧ op.groupsRight = true ↔ _
  by_cases heq : o.level = op.level
  · rw [groupsRight_of_level heq]
    cases op.groupsRight with
    | true => simp [heq]
    | false => simp [heq]
  · split <;> omega

/-- An operator does not wait for the one whose left operand it is in. -/
theorem not_stays_of_leftLevel {o op : Op} (h : op.leftLevel ≤ o.level) : stays o op = false := by
  rw [← Bool.not_eq_true, stays_iff, Op.rightLevel]
  rw [Op.leftLevel] at h
  by_cases heq : o.level = op.level
  · rw [groupsRight_of_level heq]
    split at h
    · omega
    · next hr =>
      rw [if_neg hr]
      omega
  · split at h <;> split <;> omega

/-! ### The text of operators -/

/-- The text of an operator between two operands. -/
structure IsBinary (text : List Char) (op : Op) : Prop where
  start : ∃ c cs, text = c :: cs ∧ isOpStart c = true
  read : ∀ (s : Scan) {rest : List Char}, Ends rest → readOp s (text ++ rest) = some (op, rest)
  pos : 0 < op.prec
  lt : op.prec < 16

/-- The text of an operator before its operand. -/
structure IsUnary (text : List Char) (op u : Op) : Prop where
  start : ∃ c cs, text = c :: cs ∧ isOpStart c = true
  read : ∀ (s : Scan) {rest : List Char}, s.fresh → Ends rest →
    readOp s (text ++ rest) = some (op, rest)
  unary : asUnary op = u
  le : 16 ≤ u.prec
  lt : u.prec < 19

/-- What stands above primary expressions. -/
def primaryLevel : ℕ := 17

/-- What stands above unary expressions. -/
def signLevel : ℕ := 16

namespace IsBinary

variable {text : List Char} {op : Op} (h : IsBinary text op)

include h

theorem isBinary : isBinary op = true := by
  have hpos := h.pos
  have hlt := h.lt
  rw [Shell.isBinary, Bool.or_eq_true, Bool.and_eq_true, decide_eq_true_eq, decide_eq_true_eq]
  exact .inl ⟨hpos, hlt⟩

theorem ne_of_prec {o : Op} (ho : o.prec = 0 ∨ 16 ≤ o.prec) : op ≠ o := by
  have hpos := h.pos
  have hlt := h.lt
  rintro rfl
  omega

theorem level_pos : 0 < op.level := by
  have hpos := h.pos
  rw [Op.level, joinAssign]
  split <;> omega

theorem level_lt : op.level < signLevel := by
  have hlt := h.lt
  rw [Op.level, joinAssign, signLevel]
  split <;> omega

theorem lparen_stays : stays .lparen op = true := by
  rw [stays_iff]
  exact h.level_pos

theorem not_stays {u : Op} (hu : 16 ≤ u.prec) : stays u op = false := by
  refine not_stays_of_leftLevel ?_
  have hlt := h.level_lt
  have hlevel : u.level = u.prec := if_neg (by omega)
  rw [hlevel, Op.leftLevel]
  rw [signLevel] at hlt
  split <;> omega

end IsBinary

/-! ### What ends a part -/

/-- Something ends a part that binds at least `level`. -/
inductive Follow (level : ℕ) : List Char → Prop
  | op {text rest : List Char} {op : Op} : IsBinary text op → op.leftLevel ≤ level → Ends rest →
      Follow level (' ' :: (text ++ rest))
  | rparen {rest : List Char} : Follow level (' ' :: ')' :: rest)
  | finish : Follow level []

namespace Follow

variable {level level' : ℕ} {rest : List Char}

theorem mono (h : Follow level rest) (hle : level ≤ level') : Follow level' rest := by
  cases h with
  | op hop hl hr => exact .op hop (Nat.le_trans hl hle) hr
  | rparen => exact .rparen
  | finish => exact .finish

theorem ends (h : Follow level rest) : Ends rest := by
  cases h with
  | op => exact Or.inr ⟨_, rfl⟩
  | rparen => exact Or.inr ⟨_, rfl⟩
  | finish => exact Or.inl rfl

theorem applies {o : Op} (h : Follow level rest)
    (ho : ∀ {text : List Char} {op : Op}, IsBinary text op → op.leftLevel ≤ level →
      stays o op = false) : Applies o rest := by
  cases h with
  | op hop hl hr =>
    exact .op hop.start (fun t => hop.read t hr) hop.isBinary (Or.inr (ho hop hl))
  | rparen => exact applies_rparen _ _
  | finish => exact .finish

end Follow

/-- The loop is about to read a part that binds at least `level`. -/
structure Scan.Open (s : Scan) (level : ℕ) : Prop where
  going : s.ended = false
  fresh : s.fresh
  waits : ∀ {text : List Char} {op : Op}, IsBinary text op → level ≤ op.level →
    ∀ o ∈ s.ops.head?, stays o op = true

theorem fresh_lparen : Op.lparen ≠ .num ∧ Op.lparen ≠ .postInc ∧ Op.lparen ≠ .postDec := by
  decide

theorem Scan.Open.mono {s : Scan} {level level' : ℕ} (h : s.Open level) (hle : level ≤ level') :
    s.Open level' where
  going := h.going
  fresh := h.fresh
  waits hop hl := h.waits hop (Nat.le_trans hle hl)

/-! ### Variables and their steps -/

/-- A name starts with a letter or `_`. -/
def isName : List Char → Bool
  | [] => false
  | c :: cs => isNameStart c && cs.all isNameChar

/-- The name of a variable. -/
abbrev Name : Type := {x : List Char // isName x = true}

/-- A variable, maybe in parentheses. -/
inductive Place where
  | name (x : Name)
  | paren (p : Place)

namespace Place

def var : Place → List Char
  | .name x => x.1
  | .paren p => p.var

def tokens : Place → List (List Char)
  | .name x => [x.1]
  | .paren p => ['('] :: p.tokens ++ [[')']]

/-- The entry of a variable that is not looked up yet. -/
def num (p : Place) : Num := { var := some p.var }

end Place

/-- `++` or `--`. -/
inductive Step where
  | inc | dec

def Step.text : Step → List Char
  | .inc => ['+', '+']
  | .dec => ['-', '-']

/-- Behind a variable. -/
def Step.post : Step → Op
  | .inc => .postInc
  | .dec => .postDec

/-! ### Reading -/

section

variable (ev : Evaluator) (names : List (List Char)) (len : ℕ)

/-- The tokens are read as a part that binds `level` and does `run` to the stack of numbers. -/
structure Reads (ts : List (List Char)) (level : ℕ) (run : List Num → Effect (List Num)) : Prop where
  pos : 0 < level
  start : ∃ c cs us, ts = (c :: cs) :: us ∧ isBlank c = false
  reads : ∀ (s : Scan) (rest : List Char) (n : ℕ), s.Open level → Follow level rest →
    s.expr = spaced ts ++ rest →
    effect (scanLoop ev names len (ts.length + (n + 2)) s) =
      run s.nums >>= fun nums => effect (scanLoop ev names len (n + 2) (s.behind rest nums))

variable {ev names len}

theorem Reads.congr {ts : List (List Char)} {level : ℕ} {run run' : List Num → Effect (List Num)}
    (h : Reads ev names len ts level run) (heq : ∀ nums, run nums = run' nums) :
    Reads ev names len ts level run' := funext heq ▸ h

theorem Reads.mono {ts : List (List Char)} {level level' : ℕ} {run : List Num → Effect (List Num)}
    (h : Reads ev names len ts level run) (hpos : 0 < level') (hle : level' ≤ level) :
    Reads ev names len ts level' run where
  pos := hpos
  start := h.start
  reads s rest n hs hrest hexpr := h.reads s rest n (hs.mono hle) (hrest.mono hle) hexpr

section

variable (hev : ∀ names expr, Blind .any (ev names expr))

include hev

theorem reads_lit (m : Fin (2 ^ 63)) :
    Reads ev names len [Nat.toDigits 10 m] primaryLevel
      (fun nums => pure (plain (BitVec.ofNat 64 m) :: nums)) where
  pos := by decide
  start := by
    obtain ⟨c, cs, hcs⟩ : ∃ c cs, Nat.toDigits 10 m = c :: cs :=
      List.exists_cons_of_ne_nil Nat.toDigits_ne_nil
    refine ⟨c, cs, [], by rw [hcs], ?_⟩
    exact isBlank_of_isDigit (isDigit_of_mem_toDigits (n := m) (by rw [hcs]; exact .head _))
  reads s rest n hs hrest hexpr := by
    rw [spaced_cons, spaced, List.flatMap_nil, List.append_nil] at hexpr
    rw [List.length_singleton, Nat.add_comm, scanLoop_lit ev names len hev m hrest.ends hexpr,
      pure_bind]

theorem Reads.paren {ts : List (List Char)} {level : ℕ} {run : List Num → Effect (List Num)}
    (h : Reads ev names len ts level run) :
    Reads ev names len (['('] :: ts ++ [[')']]) primaryLevel run where
  pos := by decide
  start := ⟨'(', [], _, rfl, by decide⟩
  reads s rest n hs hrest hexpr := by
    have hexpr' : s.expr = ' ' :: (['('] ++ (spaced ts ++ ' ' :: ')' :: rest)) := by
      rw [hexpr, List.cons_append, spaced_cons, spaced_append, spaced_cons]
      simp only [spaced, List.flatMap_nil, List.append_nil, List.cons_append, List.append_assoc,
        List.nil_append]
    have hlen : (['('] :: ts ++ [[')']]).length + (n + 2) = ts.length + (n + 1 + 2) + 1 := by
      rw [List.length_append, List.length_cons, List.length_singleton]
      omega
    have hopen : (s.pushed (spaced ts ++ ' ' :: ')' :: rest) .lparen).Open level :=
      ⟨hs.going, fresh_lparen, fun hop _ o ho => by
        cases ho
        exact hop.lparen_stays⟩
    rw [hlen, scanLoop_sign ev names len hev hs.fresh _ (u := .lparen) ⟨_, _, rfl, by decide⟩
      hexpr' rfl rfl (by decide), h.reads _ (' ' :: ')' :: rest) (n + 1) hopen .rparen rfl]
    refine congrArg (run s.nums >>= ·) (funext fun nums => ?_)
    exact congrArg effect (scanLoop_close ev names len rfl (.inl rfl) rfl (n + 2))

theorem Reads.unary {text : List Char} {op u : Op} {ts : List (List Char)}
    {run : List Num → Effect (List Num)} (hu : IsUnary text op u)
    (h : Reads ev names len ts signLevel run) :
    Reads ev names len (text :: ts) signLevel
      (fun nums => run nums >>= fun nums => effect (arithApply ev names u nums)) where
  pos := by decide
  start := by
    obtain ⟨c, cs, rfl, hc⟩ := hu.start
    simp only [isOpStart, Bool.and_eq_true, Bool.not_eq_true'] at hc
    exact ⟨c, cs, ts, rfl, hc.1.1⟩
  reads s rest n hs hrest hexpr := by
    have hends : Ends (spaced ts ++ rest) := ends_spaced ts hrest.ends
    have hle := hu.le
    have hlt := hu.lt
    have hne : ∀ {o : Op}, o.prec = 0 ∨ 19 ≤ o.prec → u ≠ o := by
      rintro o ho rfl
      omega
    have hnot : isBinary u = false := by
      rw [isBinary, Bool.or_eq_false_iff, Bool.and_eq_false_iff, decide_eq_false_iff_not,
        decide_eq_false_iff_not, decide_eq_false_iff_not]
      omega
    rw [spaced_cons, List.cons_append, List.append_assoc] at hexpr
    have hopen : (s.pushed (spaced ts ++ rest) u).Open signLevel :=
      ⟨hs.going, ⟨hne (by decide), hne (by decide), hne (by decide)⟩,
        fun hop hl => absurd hop.level_lt (Nat.not_lt.mpr hl)⟩
    rw [List.length_cons, Nat.add_right_comm, scanLoop_sign ev names len hev hs.fresh _ hu.start
      hexpr (hu.read s hs.fresh hends) hu.unary hnot,
      h.reads _ rest n hopen hrest rfl, bind_assoc]
    congr 1
    funext nums
    rw [scanLoop_applies ev names len (s := (s.pushed (spaced ts ++ rest) u).behind rest nums) rfl
      (hrest.applies fun hop _ => hop.not_stays hle) (hne (by decide)) hs.going (.inl rfl) rfl,
      effect_bind _ fun nums => blind_scanLoop hev names len _ _]
    rfl

theorem Reads.binary {text : List Char} {op : Op} {ts us : List (List Char)}
    {run run' : List Num → Effect (List Num)} (hop : IsBinary text op)
    (hl : Reads ev names len ts op.leftLevel run) (hr : Reads ev names len us op.rightLevel run') :
    Reads ev names len (ts ++ text :: us) op.level
      (fun nums => run nums >>= run' >>= fun nums => effect (arithApply ev names op nums)) where
  pos := hop.level_pos
  start := by
    obtain ⟨c, cs, us', hus, hc⟩ := hl.start
    exact ⟨c, cs, us' ++ text :: us, by rw [hus, List.cons_append], hc⟩
  reads s rest n hs hrest hexpr := by
    have hends : Ends (spaced us ++ rest) := ends_spaced us hrest.ends
    have hlen : (ts ++ text :: us).length + (n + 2) = ts.length + (us.length + n + 1 + 2) := by
      rw [List.length_append, List.length_cons]
      omega
    rw [spaced_append, spaced_cons, List.append_assoc, List.cons_append, List.append_assoc] at hexpr
    rw [hlen, hl.reads s _ (us.length + n + 1) (hs.mono op.level_le_leftLevel)
      (.op hop (Nat.le_refl _) hends) hexpr, bind_assoc, bind_assoc]
    congr 1
    funext nums
    have hopen : ((s.behind (' ' :: (text ++ (spaced us ++ rest))) nums).pushed
        (spaced us ++ rest) op).Open op.rightLevel :=
      ⟨hs.going, ⟨hop.ne_of_prec (by decide), hop.ne_of_prec (by decide), hop.ne_of_prec (by decide)⟩,
        fun {_ op'} _ hle o ho => by
          cases ho
          exact (stays_iff op op').mpr hle⟩
    rw [show us.length + n + 1 + 2 = us.length + (n + 2) + 1 by omega,
      scanLoop_push ev names len hev (s := s.behind (' ' :: (text ++ (spaced us ++ rest))) nums)
        hop.start rfl (hop.read _ hends) hop.isBinary
        (hop.ne_of_prec (by decide)) (.inl rfl) (hs.waits hop (Nat.le_refl _)),
      hr.reads _ rest n hopen (hrest.mono op.level_le_rightLevel) rfl]
    congr 1
    funext nums'
    have happlies : Applies op rest := hrest.applies fun _ hle => not_stays_of_leftLevel hle
    rw [scanLoop_applies ev names len (s := ((s.behind (' ' :: (text ++ (spaced us ++ rest)))
      nums).pushed (spaced us ++ rest) op).behind rest nums') rfl happlies
      (hop.ne_of_prec (by decide)) hs.going (.inl rfl) rfl, effect_bind _ fun nums => blind_scanLoop hev names len _ _]
    rfl

end

end

/-- **The string of the parts is evaluated to what they leave on the stack.** -/
theorem Reads.evaluate {n : ℕ} {names ts : List (List Char)} {level : ℕ}
    {run : List Num → Effect (List Num)}
    (h : Reads (evaluateString n) names ([' '].intercalate ts).length ts level run)
    (hn : ts.length + 3 ≤ n) :
    effect (evaluateString (n + 1) names ([' '].intercalate ts)) =
      run [] >>= fun nums => effect (lastValue (evaluateString n) names nums) := by
  obtain ⟨c, cs, us, rfl, hc⟩ := h.start
  have hopen : ({ expr := spaced ((c :: cs) :: us) } : Scan).Open level :=
    ⟨rfl, fresh_lparen, fun hop _ o ho => by
      cases ho
      exact hop.lparen_stays⟩
  have hread := h.reads _ [] (n - (us.length + 3)) hopen .finish (List.append_nil _).symm
  rw [List.length_cons] at hn
  have hlen : ((c :: cs) :: us).length + (n - (us.length + 3) + 2) = n := by
    rw [List.length_cons]
    omega
  rw [hlen] at hread
  rw [evaluateString_tokens cs us hc, hread]
  congr 1
  funext nums
  have hlast : n - (us.length + 3) + 2 = n - (us.length + 4) + 3 := by omega
  rw [hlast, scanLoop_value _ _ _ rfl rfl (.inl rfl) rfl]
  rfl

theorem Reads.arith {n : ℕ} {ts : List (List Char)} {level : ℕ} {run : List Num → Effect (List Num)}
    (h : Reads (evaluateString n) [] ([' '].intercalate ts).length ts level run)
    (hn : ts.length + 3 ≤ n) (env : Env) :
    ((arith (n + 1) env ([' '].intercalate ts)).1,
        (arith (n + 1) env ([' '].intercalate ts)).2.toEnv) =
      (run [] >>= fun nums => effect (lastValue (evaluateString n) [] nums)) env :=
  congrFun (h.evaluate hn) env

end Rustybox.Shell
