import Rustybox.Shell.Math

/-!
# The size of the stacks of shell arithmetic

`evaluate_string` allocates `expr_len / 2` numbers and `expr_len` operators and never looks
whether they are used up.  Every operand takes a character, and so does what stands between two
operands, if anything does: with at most one operand glued to the one before it, the numbers fit.

`Ensures` are the rules for computations that leave a property of all recorded points alone.
-/

namespace Rustybox.Shell

/-- A computation records points with `P` only, and its value has `Q`. -/
def Ensures {α : Type} (P : Point → Prop) (x : Eval α) (Q : α → Prop) : Prop :=
  ∀ st, (∀ p ∈ st.points, P p) →
    (∀ p ∈ (x st).2.points, P p) ∧ ∀ a, (x st).1 = .ok a → Q a

section Rules

variable {α β : Type} {P : Point → Prop} {Q : α → Prop} {R : β → Prop}

theorem Ensures.pure {a : α} (h : Q a) : Ensures P (pure a) Q := by
  intro st hst
  refine ⟨hst, fun b hb => ?_⟩
  cases hb
  exact h

theorem Ensures.bind {x : Eval α} {f : α → Eval β} (hx : Ensures P x Q)
    (hf : ∀ a, Q a → Ensures P (f a) R) : Ensures P (x >>= f) R := by
  intro st hst
  obtain ⟨h1, h2⟩ := hx st hst
  cases hr : x st with
  | mk r st' =>
    rw [hr] at h1 h2
    cases r with
    | ok a =>
      rw [Eval.bind_ok hr]
      exact hf a (h2 a rfl) st' h1
    | error e =>
      rw [Eval.bind_error hr]
      exact ⟨h1, fun b hb => by cases hb⟩

theorem Ensures.fail (e : Err) : Ensures P (Eval.fail e : Eval α) Q :=
  fun _ hst => ⟨hst, fun _ h => by cases h⟩

theorem Ensures.unfinished : Ensures P (Eval.unfinished : Eval α) Q :=
  fun _ hst => ⟨hst, fun _ h => by cases h⟩

theorem Ensures.note {p : Point} (h : P p) : Ensures P (note p) (fun _ => True) := by
  refine fun st hst => ⟨fun q hq => ?_, fun _ _ => trivial⟩
  rcases List.mem_cons.mp hq with rfl | hq
  · exact h
  · exact hst q hq

theorem Ensures.readName (name : List Char) : Ensures P (readName name) (fun _ => True) :=
  fun _ hst => ⟨hst, fun _ _ => trivial⟩

theorem Ensures.lookupvar (name : List Char) : Ensures P (lookupvar name) (fun _ => True) :=
  fun _ hst => ⟨hst, fun _ _ => trivial⟩

theorem Ensures.setvar (name value : List Char) :
    Ensures P (setvar name value) (fun _ => True) :=
  fun _ hst => ⟨hst, fun _ _ => trivial⟩

end Rules

/-! ### Applying operators -/

section Apply

variable {P : Point → Prop} {ev : Evaluator} (hev : ∀ names e, Ensures P (ev names e) fun _ => True)

omit hev in
theorem ensures_seen (name : List Char) (names : List (List Char)) :
    Ensures P (seen name names) (fun _ => True) := by
  induction names with
  | nil => exact Ensures.pure trivial
  | cons cur names ih =>
    refine (Ensures.readName cur).bind fun a _ => (Ensures.readName name).bind fun b _ => ?_
    split
    · exact Ensures.pure trivial
    · exact ih

include hev

theorem ensures_arithLookupVal (names : List (List Char)) (t : Num) :
    Ensures P (arithLookupVal ev names t) (fun _ => True) := by
  unfold arithLookupVal
  split
  · exact Ensures.pure trivial
  · refine (Ensures.readName _).bind fun name _ => (Ensures.lookupvar name).bind fun p _ => ?_
    split
    · exact Ensures.pure trivial
    · refine (ensures_seen _ _).bind fun b _ => ?_
      split
      · exact Ensures.fail _
      · exact (hev _ _).bind fun _ _ => Ensures.pure trivial

theorem ensures_lookupLeft (names : List (List Char)) (op : Op) (left : Num) :
    Ensures P (lookupLeft ev names op left) (fun _ => True) := by
  unfold lookupLeft
  split
  · exact Ensures.pure trivial
  · exact ensures_arithLookupVal hev names left

omit hev in
theorem ensures_store (op : Op) (top : Num) (rez : BitVec 64) :
    Ensures P (store op top rez) (fun _ => True) := by
  unfold store
  split
  · split
    · exact Ensures.fail _
    · exact (Ensures.readName _).bind fun _ _ =>
        (Ensures.setvar _ _).bind fun _ _ => Ensures.pure trivial
  · exact Ensures.pure trivial

omit hev in
theorem ensures_applyBinary (op : Op) (left right : Num) (below : List Num) :
    Ensures P (applyBinary op left right below) (fun _ => True) := by
  unfold applyBinary
  split
  · exact ensures_store _ _ _
  · split
    · exact Ensures.fail _
    · exact ensures_store _ _ _
  · split
    · exact Ensures.fail _
    · exact ensures_store _ _ _

theorem ensures_arithApply (names : List (List Char)) (op : Op) (nums : List Num) :
    Ensures P (arithApply ev names op nums) (fun nums' => nums'.length ≤ nums.length) := by
  unfold arithApply
  split
  · exact Ensures.fail _
  · next top rest =>
    refine (ensures_arithLookupVal hev names top).bind fun top _ => ?_
    split
    · exact (ensures_store _ _ _).bind fun n _ => Ensures.pure (Nat.le_refl _)
    · split
      · exact Ensures.fail _
      · next left rest =>
        split
        · exact Ensures.fail _
        · refine (ensures_lookupLeft hev names op left).bind fun left _ => ?_
          exact (ensures_applyBinary _ _ _ _).bind fun n _ => Ensures.pure (Nat.le_succ _)

theorem ensures_applyLoop (names : List (List Char)) (op : Op) (ops : List Op) (nums : List Num) :
    Ensures P (applyLoop ev names op ops nums)
      (fun r => r.2.1.length ≤ ops.length ∧ r.2.2.length ≤ nums.length) := by
  induction ops generalizing nums with
  | nil => exact Ensures.pure ⟨Nat.le_refl _, Nat.le_refl _⟩
  | cons prev ops ih =>
    rw [applyLoop]
    split
    · exact Ensures.pure ⟨Nat.le_succ _, Nat.le_refl _⟩
    split
    · exact Ensures.pure ⟨Nat.le_refl _, Nat.le_refl _⟩
    · refine (ensures_arithApply hev names prev nums).bind fun nums' hle => ?_
      intro st hst
      obtain ⟨h1, h2⟩ := ih nums' st hst
      exact ⟨h1, fun r hr => ⟨Nat.le_succ_of_le (h2 r hr).1, Nat.le_trans (h2 r hr).2 hle⟩⟩

end Apply

/-! ### The loop -/

/-- The stacks are within their arrays, as long as the length of the string is an `unsigned` and
at most one operand has been glued. -/
def Point.Fits (p : Point) : Prop :=
  p.len + 2 < 2 ^ 32 → (p.glued ≤ 1 → p.nums ≤ p.exprLen / 2) ∧ p.ops ≤ p.exprLen

theorem Point.fits_of_le {p : Point} (hn : 2 * p.nums ≤ p.len + p.glued + 1)
    (ho : p.ops ≤ p.len + 1) : p.Fits := by
  intro h32
  have he : p.exprLen = p.len + 2 := Nat.mod_eq_of_lt h32
  rw [he]
  exact ⟨fun hg => by omega, by omega⟩

/-- The characters that have not been read. -/
def Scan.left (s : Scan) : ℕ := if s.ended then 0 else s.expr.length

/-- One more number than characters account for: right behind an operand, where the character
between it and the next one has not been read. -/
def Scan.ahead (s : Scan) : ℕ := if s.afterOperand ∨ s.ended then 1 else 0

/-- What the characters that have been read say about the stacks. -/
structure ScanOk (len : ℕ) (s : Scan) : Prop where
  nums_le : 2 * s.nums.length + s.left ≤ len + s.glued + s.ahead
  ops_le : s.ops.length + s.left ≤ len + 1
  closing : s.ended = true → s.expr = [')'] ∨ s.expr = []

section Loop

variable {ev : Evaluator} (hev : ∀ names e, Ensures Point.Fits (ev names e) fun _ => True)
variable {len : ℕ} {s : Scan}

theorem Scan.ahead_le (s : Scan) : s.ahead ≤ 1 := by
  unfold Scan.ahead
  split
  · exact Nat.le_refl _
  · exact Nat.zero_le _

theorem asUnary_eq_rparen {op : Op} : asUnary op = .rparen ↔ op = .rparen := by
  cases op <;> simp [asUnary]

/-- What an operator does to the stacks. -/
structure OpStep (s s' : Scan) (op : Op) : Prop where
  expr_eq : s'.expr = s.expr
  ended_eq : s'.ended = s.ended
  glued_eq : s'.glued = s.glued
  after_eq : s'.afterOperand = false
  nums_le : s'.nums.length ≤ s.nums.length
  ops_le : s'.ops.length ≤ s.ops.length + if op = .rparen then 0 else 1

theorem ensures_pushOp (len : ℕ) (op : Op) (hn : 2 * s.nums.length ≤ len + s.glued + 1)
    (ho : s.ops.length ≤ len) :
    Ensures Point.Fits (pushOp len s op) (fun s' => s'.expr = s.expr ∧ s'.ended = s.ended ∧
      s'.glued = s.glued ∧ s'.afterOperand = false ∧ s'.nums = s.nums ∧
      s'.ops = op :: s.ops) := by
  unfold pushOp
  refine (Ensures.note (Point.fits_of_le hn ?_)).bind fun _ _ =>
    Ensures.pure ⟨rfl, rfl, rfl, rfl, rfl, rfl⟩
  exact Nat.succ_le_succ ho

include hev

theorem ensures_operatorStep (names : List (List Char)) (op : Op)
    (hn : 2 * s.nums.length ≤ len + s.glued + 1) (ho : op ≠ .rparen → s.ops.length ≤ len) :
    Ensures Point.Fits (operatorStep ev names len s op) (fun s' => OpStep s s' op) := by
  unfold operatorStep
  dsimp only
  generalize hl : (if s.lasttok = .postInc ∨ s.lasttok = .postDec then Op.num else s.lasttok) =
    lasttok
  generalize ho' : (if lasttok ≠ .num then asUnary op else op) = op'
  have hop : op' = .rparen ↔ op = .rparen := by
    rw [← ho']
    split
    · exact asUnary_eq_rparen
    · exact Iff.rfl
  have hpush : ∀ (t : Scan), op ≠ .rparen → t.expr = s.expr → t.ended = s.ended →
      t.glued = s.glued → t.nums.length ≤ s.nums.length → t.ops.length ≤ s.ops.length →
      Ensures Point.Fits (pushOp len t op') (fun s' => OpStep s s' op) := by
    intro t hr he hd hg htn hto
    have hlen := ho hr
    intro st hst
    obtain ⟨h1, h2⟩ := ensures_pushOp len op' (s := t) (by omega) (by omega) st hst
    refine ⟨h1, fun s' hs' => ?_⟩
    obtain ⟨e1, e2, e3, e4, e5, e6⟩ := h2 s' hs'
    refine ⟨e1.trans he, e2.trans hd, e3.trans hg, e4, by rwa [e5], ?_⟩
    rw [e6, if_neg hr]
    exact Nat.succ_le_succ hto
  split
  · split
    · exact Ensures.fail _
    · refine (ensures_applyLoop hev names op' s.ops s.nums).bind fun r hle => ?_
      obtain ⟨closed, ops, nums⟩ := r
      dsimp only at hle ⊢
      split
      · refine Ensures.pure ⟨rfl, rfl, rfl, rfl, hle.2, ?_⟩
        exact Nat.le_trans hle.1 (Nat.le_add_right _ _)
      split
      · exact Ensures.fail _
      · next hr => exact hpush _ (fun h => hr (hop.mpr h)) rfl rfl rfl hle.2 hle.1
  · next hb =>
    have hr : op ≠ .rparen := by
      intro h
      rw [hop.mpr h] at hb
      exact hb rfl
    exact hpush s hr rfl rfl rfl (Nat.le_refl _) (Nat.le_refl _)

omit hev in
/-- Operands are counted: one character for the operand, and one before it unless it is glued. -/
theorem ensures_pushNum (h : ScanOk len s) (hend : s.ended = false) (n : Num)
    {rest : List Char} (hrest : rest.length < (skipWhitespace s.expr).length) :
    Ensures Point.Fits (pushNum len s (s.afterOperand &&
      (skipWhitespace s.expr).length = s.expr.length) n rest) (ScanOk len) := by
  have hskip : (skipWhitespace s.expr).length ≤ s.expr.length := List.length_dropWhile_le _ _
  have hn := h.nums_le
  have ho := h.ops_le
  simp only [Scan.left, Scan.ahead, hend, Bool.false_eq_true, if_false, or_false] at hn ho
  unfold pushNum
  generalize hg : (if (s.afterOperand && (skipWhitespace s.expr).length = s.expr.length) = true
    then s.glued + 1 else s.glued) = glued
  have hnew : 2 * (s.nums.length + 1) + rest.length ≤ len + glued + 1 := by
    rw [← hg]
    by_cases ha : s.afterOperand = true
    · by_cases he : (skipWhitespace s.expr).length = s.expr.length
      · simp only [ha, he, decide_true, Bool.and_self, if_true] at hn ⊢
        omega
      · simp only [ha, he, decide_false, Bool.and_false, Bool.false_eq_true, if_true,
          if_false] at hn ⊢
        omega
    · simp only [ha, Bool.false_and, Bool.false_eq_true, if_false] at hn ⊢
      omega
  refine (Ensures.note (Point.fits_of_le ?_ ?_)).bind fun _ _ => Ensures.pure ⟨?_, ?_, ?_⟩
  · show 2 * (s.nums.length + 1) ≤ len + glued + 1
    omega
  · show s.ops.length ≤ len + 1
    omega
  · show 2 * (s.nums.length + 1) + Scan.left _ ≤ len + glued + Scan.ahead _
    simp only [Scan.left, Scan.ahead, hend, Bool.false_eq_true, if_false, true_or, if_true]
    exact hnew
  · show s.ops.length + Scan.left _ ≤ len + 1
    simp only [Scan.left, hend, Bool.false_eq_true, if_false]
    omega
  · intro he
    exact absurd (hend.symm.trans he) (by decide)

omit hev in
theorem length_of_readOp {expr rest : List Char} {op : Op}
    (h : readOp s expr = some (op, rest)) : rest.length < expr.length := by
  have hm : ∀ {rest : List Char}, matchToken opTokens expr = some (op, rest) →
      rest.length < expr.length := length_of_matchToken (by decide)
  unfold readOp at h
  split at h
  · split at h
    · cases h
      exact Nat.lt_succ_self _
    · exact hm h
  · split at h
    · cases h
      exact Nat.lt_succ_self _
    · exact hm h
  · exact hm h

omit hev in
theorem readOp_closing (s : Scan) : readOp s [')'] = some (.rparen, []) := rfl

omit hev in
/-- An operator takes a character, which no number accounts for. -/
theorem ScanOk.operator {s' : Scan} {op : Op} {rest : List Char} (h : ScanOk len s)
    (hs' : OpStep { s with expr := rest } s' op) (hlt : rest.length < s.expr.length)
    (hclose : s.ended = true → op = .rparen ∧ rest = []) : ScanOk len s' := by
  have hn := h.nums_le
  have ho := h.ops_le
  have hn' : s'.nums.length ≤ s.nums.length := hs'.nums_le
  have ho' := hs'.ops_le
  have hexpr : s'.expr = rest := hs'.expr_eq
  have hended : s'.ended = s.ended := hs'.ended_eq
  have hglued : s'.glued = s.glued := hs'.glued_eq
  cases he : s.ended with
  | true =>
    obtain ⟨hop, hnil⟩ := hclose he
    rw [hop, if_pos rfl] at ho'
    have ho' : s'.ops.length ≤ s.ops.length := ho'
    have hahead : s'.ahead = 1 := by simp [Scan.ahead, hended, he]
    have hahead' := s.ahead_le
    simp only [Scan.left, he, if_true] at hn ho
    refine ⟨?_, ?_, fun _ => Or.inr (hexpr.trans hnil)⟩
    · rw [Scan.left, hended, he, if_pos rfl, hahead, hglued]
      omega
    · rw [Scan.left, hended, he, if_pos rfl]
      omega
  | false =>
    have ho' : s'.ops.length ≤ s.ops.length + 1 := by
      refine Nat.le_trans ho' (Nat.add_le_add_left ?_ _)
      split
      · exact Nat.zero_le _
      · exact Nat.le_refl _
    have hahead := s.ahead_le
    simp only [Scan.left, he, Bool.false_eq_true, if_false] at hn ho
    refine ⟨?_, ?_, fun h => absurd (hended.symm.trans h) (by rw [he]; decide)⟩
    · rw [Scan.left, hended, he, if_neg (by decide), hexpr, hglued]
      omega
    · rw [Scan.left, hended, he, if_neg (by decide), hexpr]
      omega

omit hev in
/-- Behind the end nothing is left but the closing paren. -/
theorem ScanOk.closing_of_skip (h : ScanOk len s) (he : s.ended = true) {c : Char} {cs : List Char}
    (hexpr : skipWhitespace s.expr = c :: cs) : c = ')' ∧ cs = [] := by
  rcases h.closing he with hc | hc
  · rw [hc] at hexpr
    have : skipWhitespace [')'] = [')'] := rfl
    rw [this, List.cons.injEq] at hexpr
    exact ⟨hexpr.1.symm, hexpr.2.symm⟩
  · rw [hc] at hexpr
    cases hexpr

omit hev in
theorem ScanOk.not_ended (h : ScanOk len s) {c : Char} {cs : List Char}
    (hexpr : skipWhitespace s.expr = c :: cs) (hc : c ≠ ')') : s.ended = false := by
  by_contra he
  exact hc (h.closing_of_skip (by simpa using he) hexpr).1

omit hev in
/-- The closing paren is put behind the string. -/
theorem ScanOk.close (h : ScanOk len s) : ScanOk len { s with expr := [')'], ended := true } := by
  have hn := h.nums_le
  have ho := h.ops_le
  have hahead := s.ahead_le
  refine ⟨?_, ?_, fun _ => Or.inl rfl⟩
  · show 2 * s.nums.length + 0 ≤ len + s.glued + Scan.ahead _
    have : Scan.ahead { s with expr := [')'], ended := true } = 1 := by simp [Scan.ahead]
    omega
  · show s.ops.length + 0 ≤ len + 1
    omega

theorem ensures_scanOperator (names : List (List Char)) (h : ScanOk len s) {c : Char}
    {cs rest : List Char} {op : Op} (hexpr : skipWhitespace s.expr = c :: cs)
    (hread : readOp s (c :: cs) = some (op, rest)) :
    Ensures Point.Fits (operatorStep ev names len { s with expr := rest } op) (ScanOk len) := by
  have hskip : (skipWhitespace s.expr).length ≤ s.expr.length := List.length_dropWhile_le _ _
  have hahead := s.ahead_le
  have hn := h.nums_le
  have ho := h.ops_le
  have hlt : rest.length < s.expr.length := by
    rw [hexpr] at hskip
    exact Nat.lt_of_lt_of_le (length_of_readOp hread) hskip
  -- behind the end there is the closing paren only, which is not pushed
  have hclose : s.ended = true → op = .rparen ∧ rest = [] := by
    intro he
    obtain ⟨rfl, rfl⟩ := h.closing_of_skip he hexpr
    rw [readOp_closing] at hread
    cases hread
    exact ⟨rfl, rfl⟩
  have hops : op ≠ .rparen → s.ops.length ≤ len := by
    intro hr
    have he : s.ended = false := by
      by_contra he
      exact hr (hclose (by simpa using he)).1
    simp only [Scan.left, he, Bool.false_eq_true, if_false] at ho
    omega
  have hstep : Ensures Point.Fits (operatorStep ev names len { s with expr := rest } op)
      (fun s' => OpStep { s with expr := rest } s' op) :=
    ensures_operatorStep hev names op (by show 2 * s.nums.length ≤ len + s.glued + 1; omega)
      hops
  exact fun st hst => ⟨(hstep st hst).1, fun s' hs' =>
    h.operator ((hstep st hst).2 s' hs') hlt hclose⟩

theorem ensures_scanStep (names : List (List Char)) (h : ScanOk len s) :
    Ensures Point.Fits (scanStep ev names len s) (fun r => ∀ s', r = .inl s' → ScanOk len s') := by
  have hgoes {x : Eval Scan} (hx : Ensures Point.Fits x (ScanOk len)) :
      Ensures Point.Fits (x >>= fun s => (pure (.inl s) : Eval (Scan ⊕ BitVec 64)))
        (fun r => ∀ s', r = .inl s' → ScanOk len s') := by
    refine hx.bind fun s' hs' => Ensures.pure fun t ht => ?_
    cases ht
    exact hs'
  unfold scanStep
  dsimp only
  split
  · split
    · refine Ensures.pure fun s' hs' => ?_
      cases hs'
      exact h.close
    · split
      · refine (ensures_arithLookupVal hev names _).bind fun _ _ => Ensures.pure fun s' hs' => ?_
        cases hs'
      · exact Ensures.fail _
  · next c cs hexpr =>
    split
    · next hname =>
      have he := h.not_ended hexpr fun hc => by
        rw [hc] at hname
        exact absurd hname (by decide)
      have hrest : (cs.dropWhile isNameChar).length < (skipWhitespace s.expr).length := by
        rw [hexpr]
        exact Nat.lt_succ_of_le (List.length_dropWhile_le _ _)
      exact hgoes (ensures_pushNum h he { var := some (c :: cs.takeWhile isNameChar) } hrest)
    split
    · next hdigit =>
      have he := h.not_ended hexpr fun hc => by
        rw [hc] at hdigit
        exact absurd hdigit (by decide)
      have hrest : (strtoArith (skipWhitespace s.expr)).2.length <
          (skipWhitespace s.expr).length := by
        rw [hexpr]
        exact length_strtoArith_lt hdigit cs
      exact hgoes (ensures_pushNum h he { val := (strtoArith (skipWhitespace s.expr)).1 } hrest)
    split
    · exact Ensures.fail _
    · next op rest hread =>
      rw [hexpr] at hread
      exact hgoes (ensures_scanOperator hev names h hexpr hread)

theorem ensures_scanLoop (names : List (List Char)) (n : ℕ) (h : ScanOk len s) :
    Ensures Point.Fits (scanLoop ev names len n s) (fun _ => True) := by
  induction n generalizing s with
  | zero => exact Ensures.unfinished
  | succ n ih =>
    rw [scanLoop]
    refine (ensures_scanStep hev names h).bind fun r hr => ?_
    cases r with
    | inl s' => exact ih (hr s' rfl)
    | inr v => exact Ensures.pure trivial

end Loop

theorem scanOk_start (start : List Char) : ScanOk start.length { expr := start } where
  nums_le := by
    show 2 * 0 + start.length ≤ start.length + 0 + 0
    omega
  ops_le := by
    show 1 + start.length ≤ start.length + 1
    omega
  closing := by
    intro h
    cases h

theorem ensures_evaluateString (n : ℕ) (names : List (List Char)) (expr : List Char) :
    Ensures Point.Fits (evaluateString n names expr) (fun _ => True) := by
  induction n generalizing names expr with
  | zero => exact Ensures.unfinished
  | succ n ih =>
    rw [evaluateString]
    have hfits : Point.Fits ⟨(skipWhitespace expr).length, 0, 1, 0⟩ :=
      Point.fits_of_le (Nat.zero_le _) (Nat.le_add_left _ _)
    refine (Ensures.note hfits).bind fun _ _ => ?_
    split
    · exact Ensures.pure trivial
    · exact ensures_scanLoop ih names n (scanOk_start _)

/-- **The stacks of shell arithmetic.**  At every point of every call, the calls for the values
of variables included, the operators fit into their array, and so do the numbers as long as at
most one operand has started right where the operand before it ended. -/
theorem stacks_fit (fuel : ℕ) (env : Env) (expr : List Char) :
    ∀ p ∈ (arith fuel env expr).2.points, p.len + 2 < 2 ^ 32 →
      (p.glued ≤ 1 → p.nums ≤ p.exprLen / 2) ∧ p.ops ≤ p.exprLen :=
  (ensures_evaluateString fuel [] expr ⟨env, []⟩ fun _ hp => absurd hp List.not_mem_nil).1

/-- Three numbers for the two entries that `08a` has room for: the octal `0`, the decimal `8`
and the variable `a`. -/
theorem not_stacks_fit :
    ¬ ∀ (fuel : ℕ) (env : Env) (expr : List Char),
      ∀ p ∈ (arith fuel env expr).2.points, p.nums ≤ p.exprLen / 2 ∧ p.ops ≤ p.exprLen := by
  intro h
  have hp : (⟨3, 3, 1, 2⟩ : Point) ∈ (arith 8 ⟨fun _ => none, kept⟩ ['0', '8', 'a']).2.points := by
    decide +kernel
  exact absurd (h 8 _ ['0', '8', 'a'] _ hp).1 (by decide)

/-- The numbers of `1 + 2` fit. -/
theorem stacks_fit_sum :
    (⟨5, 2, 2, 0⟩ : Point) ∈
        (arith 10 ⟨fun _ => none, kept⟩ ['1', ' ', '+', ' ', '2']).2.points ∧
      2 ≤ (⟨5, 2, 2, 0⟩ : Point).exprLen / 2 := by
  have hp : (⟨5, 2, 2, 0⟩ : Point) ∈
      (arith 10 ⟨fun _ => none, kept⟩ ['1', ' ', '+', ' ', '2']).2.points := by decide +kernel
  exact ⟨hp, (stacks_fit 10 _ _ _ hp (by decide)).1 (by decide)⟩

end Rustybox.Shell
