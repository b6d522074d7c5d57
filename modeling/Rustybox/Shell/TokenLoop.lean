import Rustybox.Shell.Effect

/-!
# The loop over tokens

What a turn of the loop of `evaluate_string` does with a token behind a blank: an operand goes on the
stack, an operator goes on the stack or is applied, a right paren takes the left one off.  Behind a
literal or a name the loop is settled: an operator that comes then is binary.
-/

namespace Rustybox.Shell

/-- A number that is no variable. -/
def plain (x : BitVec 64) : Num := { val := x }

/-- A token ends here. -/
def Ends (rest : List Char) : Prop := rest = [] ∨ ∃ r, rest = ' ' :: r

/-- The characters that start an operator. -/
def isOpStart (c : Char) : Bool := !isBlank c && !isNameStart c && !isDigit c

theorem skipWhitespace_blank {c : Char} (h : isBlank c = false) (cs : List Char) :
    skipWhitespace (' ' :: c :: cs) = c :: cs := by
  rw [skipWhitespace, List.dropWhile_cons_of_pos (by decide),
    List.dropWhile_cons_of_neg (by rw [h]; decide)]

/-! ### Reading literals -/

theorem isBlank_of_isDigit {c : Char} (h : isDigit c = true) : isBlank c = false := by
  have hne : c ≠ ' ' := by
    rintro rfl
    exact absurd h (by decide)
  simp only [isDigit, Bool.and_eq_true, decide_eq_true_eq] at h
  simp only [isBlank, Bool.or_eq_false_iff, decide_eq_false_iff_not, Bool.and_eq_false_iff]
  exact ⟨hne, Or.inr (by omega)⟩

theorem isNameStart_of_isDigit {c : Char} (h : isDigit c = true) : isNameStart c = false := by
  have hne : c ≠ '_' := by
    rintro rfl
    exact absurd h (by decide)
  simp only [isDigit, Bool.and_eq_true, decide_eq_true_eq] at h
  simp only [isNameStart, isLetter, Bool.or_eq_false_iff, decide_eq_false_iff_not,
    Bool.and_eq_false_iff]
  exact ⟨hne, Or.inl (by omega), Or.inl (by omega)⟩

theorem digitValue_of_isDigit {c : Char} (h : isDigit c = true) :
    digitValue c = c.toNat - '0'.toNat := if_pos h

/-- No decimal digit comes here. -/
def NoDigit (rest : List Char) : Prop := ∀ c ∈ rest.head?, 10 ≤ digitValue c

theorem Ends.noDigit {rest : List Char} (h : Ends rest) : NoDigit rest := by
  intro c hc
  rcases h with rfl | ⟨r, rfl⟩
  · cases hc
  · cases hc
    decide

theorem readDigits_append {ds : List Char} (h : ∀ c ∈ ds, isDigit c = true) (n : ℕ)
    {rest : List Char} (hr : NoDigit rest) :
    readDigits 10 n (ds ++ rest) = (Nat.ofDigitChars 10 ds n, rest) := by
  induction ds generalizing n with
  | nil =>
    cases rest with
    | nil => rfl
    | cons c r =>
      have hc := hr c rfl
      rw [List.nil_append, readDigits, if_neg (by omega), Nat.ofDigitChars_nil]
  | cons c ds ih =>
    have hc : isDigit c = true := h c List.mem_cons_self
    rw [List.cons_append, readDigits, if_pos (digitValue_lt_of_isDigit hc),
      ih (fun c hmem => h c (List.mem_cons_of_mem _ hmem)), Nat.ofDigitChars_cons,
      digitValue_of_isDigit hc, Nat.mul_comm]

theorem isDigit_of_mem_toDigits {n : ℕ} {c : Char} (h : c ∈ Nat.toDigits 10 n) :
    isDigit c = true := by
  have hd := Nat.isDigit_of_mem_toDigits (by decide) (by decide) h
  rw [Char.isDigit, Bool.and_eq_true, decide_eq_true_eq, decide_eq_true_eq] at hd
  rw [isDigit, Bool.and_eq_true, decide_eq_true_eq, decide_eq_true_eq]
  exact ⟨hd.1, hd.2⟩

/-- Only zero starts with `0`, which is where octal numbers start. -/
theorem head_toDigits {n : ℕ} (hn : 0 < n) :
    ∃ c cs, Nat.toDigits 10 n = c :: cs ∧ c ≠ '0' := by
  induction n using Nat.base_induction 10 (by decide) with
  | single m hm =>
    refine ⟨m.digitChar, [], Nat.toDigits_of_lt_base hm, fun h => ?_⟩
    have hval := Nat.toNat_digitChar_sub_48_of_lt_ten hm
    rw [h] at hval
    exact Nat.ne_of_lt hn hval
  | digit m k hk hm ih =>
    obtain ⟨c, cs, hcs, hc⟩ := ih hm
    exact ⟨c, cs ++ Nat.toDigits 10 k, by
      rw [← Nat.toDigits_append_toDigits (by decide) hm hk, hcs, List.cons_append], hc⟩

theorem strtoull_toDigits_of_pos {n : ℕ} (hn : 0 < n) {rest : List Char} (hr : NoDigit rest) :
    strtoull (Nat.toDigits 10 n ++ rest) = (n, rest) := by
  obtain ⟨c, cs, hcs, hc⟩ := head_toDigits hn
  have hread := readDigits_append (fun c h => isDigit_of_mem_toDigits (n := n) h) 0 hr
  rw [Nat.ofDigitChars_ten_toDigits, hcs] at hread
  rw [hcs, List.cons_append, strtoull.eq_def]
  split
  · next h => exact absurd (List.cons.inj h).1 hc
  · next h => exact absurd (List.cons.inj h).1 hc
  · exact hread

theorem strtoull_toDigits (n : ℕ) {rest : List Char} (hr : Ends rest) :
    strtoull (Nat.toDigits 10 n ++ rest) = (n, rest) := by
  rcases Nat.eq_zero_or_pos n with rfl | hn
  · rcases hr with rfl | ⟨r, rfl⟩
    · rfl
    · cases r with
      | nil => rfl
      | cons c r => rfl
  · exact strtoull_toDigits_of_pos hn hr.noDigit

theorem strtoArith_toDigits {n : ℕ} (hn : n < 2 ^ 63) {rest : List Char} (hr : Ends rest) :
    strtoArith (Nat.toDigits 10 n ++ rest) = (BitVec.ofNat 64 n, rest) := by
  have hlt : ¬ 2 ^ 64 ≤ n := by omega
  simp only [strtoArith, strtoull_toDigits n hr, if_neg hlt]
  generalize (Nat.toDigits 10 n ++ rest).head? = c
  rcases hr with rfl | ⟨r, rfl⟩
  · cases c <;> rfl
  · cases c <;> rfl

/-! ### Operators -/

section

variable (ev : Evaluator) (names : List (List Char)) (len : ℕ)

theorem Eval.bind_assoc {α β γ : Type} (x : Eval α) (f : α → Eval β) (g : β → Eval γ) :
    x >>= f >>= g = x >>= fun a => f a >>= g := by
  funext st
  cases hx : x st with
  | mk r st' =>
    cases r with
    | ok a =>
      rw [Eval.bind_ok hx]
      cases hf : f a st' with
      | mk r st'' =>
        have hxf : (x >>= f) st = (r, st'') := (Eval.bind_ok hx).trans hf
        cases r with
        | ok b => rw [Eval.bind_ok hxf, Eval.bind_ok hf]
        | error e => rw [Eval.bind_error hxf, Eval.bind_error hf]
    | error e => rw [Eval.bind_error hx, Eval.bind_error (Eval.bind_error hx)]

theorem Eval.bind_pure {α : Type} (x : Eval α) : (x >>= fun a => pure a) = x := by
  funext st
  cases hx : x st with
  | mk r st' =>
    cases r with
    | ok a => rw [Eval.bind_ok hx]; rfl
    | error e => rw [Eval.bind_error hx]

theorem scanLoop_operator {s : Scan} {c : Char} {cs rest : List Char} {op : Op}
    (hexpr : skipWhitespace s.expr = c :: cs) (hc : isOpStart c = true)
    (hread : readOp s (c :: cs) = some (op, rest)) (n : ℕ) :
    scanLoop ev names len (n + 1) s =
      operatorStep ev names len { s with expr := rest } op >>= scanLoop ev names len n := by
  simp only [isOpStart, Bool.and_eq_true, Bool.not_eq_true'] at hc
  have hstep : scanStep ev names len s =
      operatorStep ev names len { s with expr := rest } op >>= fun s' => pure (.inl s') := by
    simp only [scanStep, hexpr, hc.1.2, hc.2, Bool.false_eq_true, if_false, hread]
  rw [scanLoop, hstep, Eval.bind_assoc]
  rfl

theorem scanLoop_token {s : Scan} {text : List Char} (rest : List Char) {op : Op}
    (htext : ∃ c cs, text = c :: cs ∧ isOpStart c = true)
    (hexpr : s.expr = ' ' :: (text ++ rest)) (hread : readOp s (text ++ rest) = some (op, rest))
    (n : ℕ) :
    scanLoop ev names len (n + 1) s =
      operatorStep ev names len { s with expr := rest } op >>= scanLoop ev names len n := by
  obtain ⟨c, cs, rfl, hc⟩ := htext
  have hblank : isBlank c = false := by
    simp only [isOpStart, Bool.and_eq_true, Bool.not_eq_true'] at hc
    exact hc.1.1
  have hskip : skipWhitespace s.expr = c :: (cs ++ rest) := by
    rw [hexpr]
    exact skipWhitespace_blank hblank _
  exact scanLoop_operator ev names len hskip hc hread n

theorem scanLoop_end {s : Scan} (hexpr : s.expr = []) (hend : s.ended = false) (n : ℕ) :
    scanLoop ev names len (n + 1) s =
      scanLoop ev names len n { s with expr := [')'], ended := true } := by
  have hskip : skipWhitespace s.expr = [] := by rw [hexpr]; rfl
  have hstep : scanStep ev names len s = pure (.inl { s with expr := [')'], ended := true }) := by
    simp only [scanStep, hskip, hend, Bool.not_false, if_true]
  rw [scanLoop, hstep]
  rfl

/-- An operand is expected: the last token was an operator. -/
def Scan.fresh (s : Scan) : Prop := s.lasttok ≠ .num ∧ s.lasttok ≠ .postInc ∧ s.lasttok ≠ .postDec

/-- A number or a name is there, with its `++` or `--` if it has one. -/
def Scan.settled (s : Scan) : Prop := s.lasttok = .num ∨ s.lasttok = .postInc ∨ s.lasttok = .postDec

theorem operatorStep_unary {s : Scan} (h : s.fresh) {op : Op}
    (hop : isBinary (asUnary op) = false) :
    operatorStep ev names len s op = pushOp len s (asUnary op) := by
  have hl : (if s.lasttok = .postInc ∨ s.lasttok = .postDec then Op.num else s.lasttok) =
      s.lasttok := if_neg (not_or.mpr h.2)
  simp only [operatorStep, hl, ne_eq, h.1, not_false_eq_true, if_true, hop, Bool.false_eq_true,
    if_false]

theorem operatorStep_binary {s : Scan} (h : s.settled) {op : Op} (hop : isBinary op = true) :
    operatorStep ev names len s op =
      applyLoop ev names op s.ops s.nums >>= fun r =>
        if r.1 then pure { s with
          ops := r.2.1, nums := r.2.2, afterOperand := false, lasttok := .num }
        else if op = .rparen then Eval.fail .syntaxError
        else pushOp len { s with ops := r.2.1, nums := r.2.2, afterOperand := false } op := by
  have hl : (if s.lasttok = .postInc ∨ s.lasttok = .postDec then Op.num else s.lasttok) =
      .num := by
    rcases h with h | h | h <;> rw [h] <;> rfl
  simp only [operatorStep, hl, ne_eq, not_true_eq_false, if_false, hop, if_true]

/-- An operator that does not wait is applied before anything else happens. -/
theorem operatorStep_flush {s : Scan} (h : s.settled) {op o : Op} {ops : List Op}
    (hop : isBinary op = true) (hops : s.ops = o :: ops) (hl : o ≠ .lparen)
    (hs : op = .rparen ∨ stays o op = false) :
    operatorStep ev names len s op =
      arithApply ev names o s.nums >>= fun nums =>
        operatorStep ev names len { s with ops := ops, nums := nums } op := by
  have happly : applyLoop ev names op (o :: ops) s.nums =
      arithApply ev names o s.nums >>= applyLoop ev names op ops := by
    have hstay : ¬ (op ≠ .rparen ∧ stays o op = true) := by
      rintro ⟨hr, hst⟩
      rcases hs with hs | hs
      · exact hr hs
      · rw [hs] at hst
        cases hst
    rw [applyLoop, if_neg (fun he => hl he.2), if_neg hstay]
  rw [operatorStep_binary ev names len h hop, hops, happly, Eval.bind_assoc]
  congr 1
  funext nums
  exact (operatorStep_binary ev names len (s := { s with ops := ops, nums := nums }) h hop).symm

/-- A token or the end of the string before which an operator is applied. -/
inductive Applies (o : Op) : List Char → Prop
  | op {text rest : List Char} {op : Op} : (∃ c cs, text = c :: cs ∧ isOpStart c = true) →
      (∀ t, readOp t (text ++ rest) = some (op, rest)) → isBinary op = true →
      (op = .rparen ∨ stays o op = false) → Applies o (' ' :: (text ++ rest))
  | finish : Applies o []

theorem scanLoop_applies {s : Scan} {expr : List Char} {o : Op} {ops : List Op}
    (hexpr : s.expr = expr) (ha : Applies o expr) (hl : o ≠ .lparen) (hend : s.ended = false)
    (hnum : s.settled) (hops : s.ops = o :: ops) (n : ℕ) :
    scanLoop ev names len (n + 2) s =
      arithApply ev names o s.nums >>= fun nums =>
        scanLoop ev names len (n + 2) { s with ops := ops, nums := nums } := by
  cases ha with
  | @op text rest op htext hread hbinary hs =>
    rw [scanLoop_token ev names len rest htext hexpr (hread s),
      operatorStep_flush ev names len (s := { s with expr := rest }) hnum hbinary hops hl hs,
      Eval.bind_assoc]
    congr 1
    funext nums
    exact (scanLoop_token ev names len (s := { s with ops := ops, nums := nums }) rest
      htext hexpr (hread _) (n + 1)).symm
  | finish =>
    have hread : ∀ t : Scan, readOp t [')'] = some (.rparen, []) := fun _ => rfl
    rw [scanLoop_end ev names len hexpr hend,
      scanLoop_operator ev names len (s := { s with expr := [')'], ended := true }) rfl
        (by decide) (hread _),
      operatorStep_flush ev names len (s := { s with expr := [], ended := true }) hnum
        (by decide) hops hl (Or.inl rfl), Eval.bind_assoc]
    congr 1
    funext nums
    rw [scanLoop_end ev names len (s := { s with ops := ops, nums := nums }) hexpr hend,
      scanLoop_operator ev names len
        (s := { s with ops := ops, nums := nums, expr := [')'], ended := true }) rfl (by decide)
        (hread _)]

theorem applies_rparen (o : Op) (rest : List Char) : Applies o (' ' :: ')' :: rest) := by
  show Applies o (' ' :: ([')'] ++ rest))
  exact .op ⟨_, _, rfl, by decide⟩ (fun _ => rfl) (by decide) (Or.inl rfl)

/-! ### Tokens -/

/-- The tokens with a blank before each. -/
def spaced (ts : List (List Char)) : List Char := ts.flatMap (' ' :: ·)

theorem spaced_cons (t : List Char) (ts : List (List Char)) :
    spaced (t :: ts) = ' ' :: (t ++ spaced ts) := by
  rw [spaced, List.flatMap_cons, List.cons_append]
  rfl

theorem spaced_append (ts us : List (List Char)) : spaced (ts ++ us) = spaced ts ++ spaced us :=
  List.flatMap_append

theorem ends_spaced (ts : List (List Char)) {rest : List Char} (h : Ends rest) :
    Ends (spaced ts ++ rest) := by
  cases ts with
  | nil => exact h
  | cons t ts =>
    rw [spaced_cons]
    exact Or.inr ⟨_, rfl⟩

/-- The loop behind an operand, whose entry is on the stack. -/
def Scan.behind (s : Scan) (rest : List Char) (nums : List Num) : Scan :=
  { s with expr := rest, nums := nums, lasttok := .num, afterOperand := false }

/-- The loop behind an operator that went on the stack. -/
def Scan.pushed (s : Scan) (rest : List Char) (op : Op) : Scan :=
  { s with expr := rest, ops := op :: s.ops, lasttok := op, afterOperand := false }

theorem scanLoop_close {t : Scan} {rest : List Char} {ops : List Op}
    (hexpr : t.expr = ' ' :: ')' :: rest) (hnum : t.settled) (hops : t.ops = .lparen :: ops)
    (n : ℕ) :
    scanLoop ev names len (n + 1) t =
      scanLoop ev names len n ({ t with ops := ops }.behind rest t.nums) := by
  have hparen : t.expr = ' ' :: ([')'] ++ rest) := hexpr
  have happly : applyLoop ev names .rparen t.ops t.nums = pure (true, ops, t.nums) := by
    rw [hops]
    rfl
  rw [scanLoop_token ev names len rest ⟨_, _, rfl, by decide⟩ hparen rfl,
    operatorStep_binary ev names len (s := { t with expr := rest }) hnum (by decide), happly]
  rfl

/-- A blank before the first token makes no difference. -/
theorem scanLoop_blank {s : Scan} (h : s.afterOperand = false) (n : ℕ) :
    scanLoop ev names len n { s with expr := ' ' :: s.expr } = scanLoop ev names len n s := by
  cases n with
  | zero => rfl
  | succ n =>
    have hskip : skipWhitespace (' ' :: s.expr) = skipWhitespace s.expr :=
      List.dropWhile_cons_of_pos (by decide)
    have hstep : scanStep ev names len { s with expr := ' ' :: s.expr } =
        scanStep ev names len s := by
      simp only [scanStep, hskip, h, Bool.false_and]
      rfl
    rw [scanLoop, scanLoop, hstep]

/-- The value when the string ends: there must be one entry. -/
def lastValue (nums : List Num) : Eval (BitVec 64) :=
  match nums with
  | [m] => arithLookupVal ev names m >>= fun m => pure m.val
  | _ => Eval.fail .syntaxError

theorem scanLoop_value {t : Scan} (hexpr : t.expr = []) (hgoing : t.ended = false)
    (hnum : t.settled) (hops : t.ops = [.lparen]) (n : ℕ) :
    scanLoop ev names len (n + 3) t = lastValue ev names t.nums := by
  have hread : ∀ t : Scan, readOp t [')'] = some (.rparen, []) := fun _ => rfl
  have happly : applyLoop ev names .rparen [.lparen] t.nums = pure (true, [], t.nums) := rfl
  rw [scanLoop_end ev names len hexpr hgoing,
    scanLoop_operator ev names len (s := { t with expr := [')'], ended := true }) rfl (by decide)
      (hread _),
    operatorStep_binary ev names len (s := { t with expr := [], ended := true }) hnum (by decide),
    hops, happly]
  show scanLoop ev names len (n + 1)
    ({ t with ops := [], ended := true }.behind [] t.nums) = _
  have hstep : scanStep ev names len ({ t with ops := [], ended := true }.behind [] t.nums) =
      lastValue ev names t.nums >>= fun v => pure (.inr v) := by
    rw [lastValue.eq_def]
    split
    · next m hm =>
      rw [Eval.bind_assoc, hm]
      rfl
    · next hm =>
      rw [scanStep]
      show (match t.nums with | [n] => _ | _ => _) = _
      split
      · next m hm' => exact absurd hm' (hm m)
      · rfl
  rw [scanLoop, hstep, Eval.bind_assoc]
  exact Eval.bind_pure _

/-! ### Tokens that only push -/

section

variable (hev : ∀ names expr, Blind .any (ev names expr))

include hev

theorem effect_note (p : Point) {s t : Scan} (h : s.Like t) (n : ℕ) :
    effect (note p >>= fun _ => scanLoop ev names len n s) =
      effect (scanLoop ev names len n t) := by
  rw [effect_bind _ fun _ => blind_scanLoop hev names len n s]
  exact effect_of_alike (alike_scanLoop hev names len n h)

theorem effect_pushNum (s : Scan) (glued : Bool) (m : Num) (rest : List Char) (n : ℕ) :
    effect (pushNum len s glued m rest >>= scanLoop ev names len n) =
      effect (scanLoop ev names len n (s.behind rest (m :: s.nums))) := by
  rw [pushNum, Eval.bind_assoc]
  exact effect_note ev names len hev _ ⟨false, s.glued, rfl⟩ n

theorem effect_pushOp (s : Scan) (rest : List Char) (op : Op) (n : ℕ) :
    effect (pushOp len { s with expr := rest } op >>= scanLoop ev names len n) =
      effect (scanLoop ev names len n (s.pushed rest op)) := by
  rw [pushOp, Eval.bind_assoc]
  exact effect_note ev names len hev _ ⟨false, s.glued, rfl⟩ n

theorem scanLoop_lit (m : Fin (2 ^ 63)) {s : Scan} {rest : List Char} (hrest : Ends rest)
    (hexpr : s.expr = ' ' :: (Nat.toDigits 10 m ++ rest)) (n : ℕ) :
    effect (scanLoop ev names len (n + 1) s) =
      effect (scanLoop ev names len n
        (s.behind rest (plain (BitVec.ofNat 64 m) :: s.nums))) := by
  obtain ⟨c, cs, hcs⟩ : ∃ c cs, Nat.toDigits 10 m = c :: cs :=
    List.exists_cons_of_ne_nil Nat.toDigits_ne_nil
  have hc : isDigit c = true := isDigit_of_mem_toDigits (n := m) (by rw [hcs]; exact .head _)
  have hblank : isBlank c = false := isBlank_of_isDigit hc
  have hname : isNameStart c = false := isNameStart_of_isDigit hc
  have hskip : skipWhitespace s.expr = c :: (cs ++ rest) := by
    rw [hexpr, hcs, List.cons_append]
    exact skipWhitespace_blank hblank _
  have harith := strtoArith_toDigits m.isLt hrest
  rw [hcs, List.cons_append] at harith
  have hstep : ∃ g, scanStep ev names len s =
      pushNum len s g { val := BitVec.ofNat 64 m } rest >>= fun s => pure (.inl s) := by
    simp only [scanStep, hskip, hname, hc, Bool.false_eq_true, if_false, if_true, harith]
    exact ⟨_, rfl⟩
  obtain ⟨g, hstep⟩ := hstep
  rw [scanLoop, hstep, Eval.bind_assoc]
  exact effect_pushNum ev names len hev s g _ rest n

/-- Where an operand is expected, a sign or a left paren goes on the stack. -/
theorem scanLoop_sign {s : Scan} (hs : s.fresh) {text : List Char} (rest : List Char) {op u : Op}
    (htext : ∃ c cs, text = c :: cs ∧ isOpStart c = true)
    (hexpr : s.expr = ' ' :: (text ++ rest)) (hread : readOp s (text ++ rest) = some (op, rest))
    (hop : asUnary op = u) (hu : isBinary u = false) (n : ℕ) :
    effect (scanLoop ev names len (n + 1) s) =
      effect (scanLoop ev names len n (s.pushed rest u)) := by
  subst hop
  rw [scanLoop_token ev names len rest htext hexpr hread,
    operatorStep_unary ev names len (s := { s with expr := rest }) hs hu]
  exact effect_pushOp ev names len hev s rest _ n

theorem scanLoop_push {s : Scan} {text rest : List Char} {op : Op}
    (htext : ∃ c cs, text = c :: cs ∧ isOpStart c = true)
    (hexpr : s.expr = ' ' :: (text ++ rest)) (hread : readOp s (text ++ rest) = some (op, rest))
    (hbinary : isBinary op = true) (hne : op ≠ .rparen) (hnum : s.settled)
    (hwaits : ∀ o ∈ s.ops.head?, stays o op = true) (n : ℕ) :
    effect (scanLoop ev names len (n + 1) s) =
      effect (scanLoop ev names len n (s.pushed rest op)) := by
  have happly : applyLoop ev names op s.ops s.nums = pure (false, s.ops, s.nums) := by
    cases hops : s.ops with
    | nil => rfl
    | cons o ops =>
      rw [hops] at hwaits
      rw [applyLoop, if_neg (fun h => hne h.1), if_pos ⟨hne, hwaits o rfl⟩]
  rw [scanLoop_token ev names len rest htext hexpr hread,
    operatorStep_binary ev names len (s := { s with expr := rest }) hnum hbinary, happly]
  have hpush : ((pure (false, s.ops, s.nums) : Eval _) >>= fun r => if r.1 = true then
        pure { s with
          expr := rest, ops := r.2.1, nums := r.2.2, afterOperand := false, lasttok := .num }
      else if op = .rparen then Eval.fail .syntaxError
      else pushOp len { s with
        expr := rest, ops := r.2.1, nums := r.2.2, afterOperand := false } op) =
      pushOp len { s with expr := rest, afterOperand := false } op := if_neg hne
  rw [hpush]
  exact effect_pushOp ev names len hev { s with afterOperand := false } rest op n

end

end

/-! ### The string of tokens -/

theorem intercalate_blank (t : List Char) (ts : List (List Char)) :
    [' '].intercalate (t :: ts) = t ++ spaced ts := by
  induction ts generalizing t with
  | nil => rw [List.intercalate_singleton, spaced, List.flatMap_nil, List.append_nil]
  | cons u ts ih => rw [List.intercalate_cons_cons, ih, spaced_cons, List.append_assoc,
      List.singleton_append]

theorem evaluateString_tokens {c : Char} (cs : List Char) (ts : List (List Char))
    (hc : isBlank c = false) (names : List (List Char)) (n : ℕ) :
    effect (evaluateString (n + 1) names ([' '].intercalate ((c :: cs) :: ts))) =
      effect (scanLoop (evaluateString n) names ([' '].intercalate ((c :: cs) :: ts)).length n
        { expr := spaced ((c :: cs) :: ts) }) := by
  have hblank := scanLoop_blank (evaluateString n) names
    ([' '].intercalate ((c :: cs) :: ts)).length
    (s := { expr := [' '].intercalate ((c :: cs) :: ts) }) rfl n
  have hskip : skipWhitespace ([' '].intercalate ((c :: cs) :: ts)) =
      [' '].intercalate ((c :: cs) :: ts) := by
    rw [intercalate_blank, List.cons_append, skipWhitespace,
      List.dropWhile_cons_of_neg (by rw [hc]; decide)]
  have hne : [' '].intercalate ((c :: cs) :: ts) ≠ [] := by
    rw [intercalate_blank]
    exact List.cons_ne_nil _ _
  have hcons : ' ' :: [' '].intercalate ((c :: cs) :: ts) = spaced ((c :: cs) :: ts) := by
    rw [intercalate_blank, spaced_cons]
  dsimp only at hblank
  rw [hcons] at hblank
  rw [hblank]
  simp only [evaluateString, hskip, if_neg hne]
  exact effect_note _ _ _ (blind_evaluateString n) _ ⟨_, _, rfl⟩ n

end Rustybox.Shell
