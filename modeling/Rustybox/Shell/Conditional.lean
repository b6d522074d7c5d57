import Rustybox.Shell.Grouping

/-!
# Conditional expressions

Trees of literals, binary operators and `c ? x : y`, printed with the parentheses that the grammar
of C asks for, against what `arith` makes of their tokens.

* `conditional_iff`: the value of a tree comes out exactly when no middle operand is a conditional
  without parentheses and every operand can be calculated, chosen or not.
-/

namespace Rustybox.Shell

/-! ### Trees -/

/-- An expression of literals, binary operators and conditionals, with parentheses where it has
them. -/
inductive Tree where
  | lit (n : Fin (2 ^ 63))
  | paren (e : Tree)
  | bin (b : ArithOp) (l r : Tree)
  | cond (c x y : Tree)

/-- The value of an operator; a count of a shift is taken modulo the width. -/
def ArithOp.value (b : ArithOp) (x y : BitVec 64) : Except Err (BitVec 64) :=
  match b.1 with
  | .shl => .ok (x <<< (y.toNat % 64))
  | .shr => .ok (x.sshiftRight (y.toNat % 64))
  | b => b.value x y

namespace Tree

/-- The precedence table of C from the comma upwards, with the conditional behind it. -/
def level : Tree → ℕ
  | .lit _ | .paren _ => 15
  | .bin b _ _ => b.1.level + 1
  | .cond _ _ _ => 2

/-- The condition is an operand of `||` at least, the middle operand any expression, and the last
one may be a conditional. -/
def tokens : Tree → List (List Char)
  | .lit n => [Nat.toDigits 10 n]
  | .paren e => ['('] :: e.tokens ++ [[')']]
  | .bin b l r => inParens (l.level < b.1.leftLevel + 1) l.tokens ++
      b.1.text :: inParens (r.level < b.1.rightLevel + 1) r.tokens
  | .cond c x y => inParens (c.level < 3) c.tokens ++ ['?'] :: (x.tokens ++ [':'] :: y.tokens)

/-- The expression as a string. -/
def print (e : Tree) : List Char := [' '].intercalate e.tokens

/-- The value, for which only the chosen operand of a conditional and what decides `&&` and `||` are
evaluated. -/
def value : Tree → Except Err (BitVec 64)
  | .lit n => .ok (BitVec.ofNat 64 n)
  | .paren e => e.value
  | .bin b l r =>
    match l.value with
    | .error e => .error e
    | .ok x =>
      if b.1 = .and ∧ x = 0 then .ok 0
      else if b.1 = .or ∧ x ≠ 0 then .ok 1
      else
        match r.value with
        | .error e => .error e
        | .ok y => b.value x y
  | .cond c x y =>
    match c.value with
    | .error e => .error e
    | .ok v => if v ≠ 0 then x.value else y.value

/-- No operand, chosen or not, is divided by zero or raised to a negative power. -/
def Calculated : Tree → Prop
  | .lit _ => True
  | .paren e => e.Calculated
  | .bin b l r => l.Calculated ∧ r.Calculated ∧
      (b.1 = .div ∨ b.1 = .rem → r.value ≠ .ok 0) ∧
      (b.1 = .pow → ∀ y, r.value = .ok y → 0 ≤ y.toInt)
  | .cond c x y => c.Calculated ∧ x.Calculated ∧ y.Calculated

def isCond : Tree → Bool
  | .cond _ _ _ => true
  | _ => false

/-- No middle operand is a conditional without parentheses. -/
def MiddlesClosed : Tree → Prop
  | .lit _ => True
  | .paren e => e.MiddlesClosed
  | .bin _ l r => l.MiddlesClosed ∧ r.MiddlesClosed
  | .cond c x y => x.isCond = false ∧ c.MiddlesClosed ∧ x.MiddlesClosed ∧ y.MiddlesClosed

end Tree

/-- `arith` returns a number. -/
def Returns (env : Env) (expr : List Char) (v : BitVec 64) : Prop :=
  ∃ enough, ∀ fuel, enough ≤ fuel → (arith fuel env expr).1 = .ok v

/-! ### How a tree is grouped -/

/-- In parentheses, where less than the level is bound. -/
def fit (level : ℕ) (t : Group) : Group := if t.level < level then .paren t else t

/-- A second value at the right end of a group. -/
def graft : Group → Group → Group
  | .bin .ask l r, y => .bin .ask l (graft r y)
  | .bin .sep l r, y => .bin .sep l (graft r y)
  | t, y => .bin .sep t y

/-- A `:` behind an open conditional continues it. -/
def Tree.group : Tree → Group
  | .lit n => .lit n
  | .paren e => .paren e.group
  | .bin b l r => .bin (.op b) (fit (b.1.leftLevel + 1) l.group) (fit (b.1.rightLevel + 1) r.group)
  | .cond c x y => .bin .ask (fit 3 c.group) (graft x.group y.group)

theorem level_group (e : Tree) : e.group.level = e.level := by
  cases e <;> rfl

theorem tokens_fit (level : ℕ) (t : Group) :
    (fit level t).tokens = inParens (t.level < level) t.tokens := by
  rw [fit, inParens]
  by_cases h : t.level < level
  · rw [if_pos h, if_pos (decide_eq_true h)]
    rfl
  · rw [if_neg h, if_neg (by simpa using h)]

theorem graft_of_level {t : Group} (h : t.level ≠ 2) (y : Group) : graft t y = .bin .sep t y := by
  cases t with
  | lit n => rfl
  | paren t => rfl
  | bin j l r =>
    cases j with
    | op b => rfl
    | ask => exact absurd rfl h
    | sep => exact absurd rfl h

theorem tokens_graft (t y : Group) : (graft t y).tokens = t.tokens ++ [':'] :: y.tokens := by
  induction t with
  | lit n => rfl
  | paren t ih => rfl
  | bin j l r ihl ihr =>
    cases j with
    | op b => rfl
    | ask =>
      rw [graft, Group.tokens, ihr, Group.tokens, List.append_assoc, List.cons_append]
    | sep =>
      rw [graft, Group.tokens, ihr, Group.tokens, List.append_assoc, List.cons_append]

theorem tokens_group (e : Tree) : e.group.tokens = e.tokens := by
  induction e with
  | lit n => rfl
  | paren e ih => rw [Tree.group, Group.tokens, Tree.tokens, ih]
  | bin b l r ihl ihr =>
    rw [Tree.group, Group.tokens, Tree.tokens, tokens_fit, tokens_fit, ihl, ihr, level_group,
      level_group]
    rfl
  | cond c x y ihc ihx ihy =>
    rw [Tree.group, Group.tokens, Tree.tokens, tokens_fit, tokens_graft, ihc, ihx, ihy, level_group]
    rfl

theorem level_graft (t y : Group) : (graft t y).level = 2 := by
  cases t with
  | lit n => rfl
  | paren t => rfl
  | bin j l r => cases j <;> rfl

theorem two_le_level (t : Group) : 2 ≤ t.level := by
  cases t with
  | lit n => exact Nat.le_add_left 2 13
  | paren t => exact Nat.le_add_left 2 13
  | bin j l r =>
    cases j with
    | op b => exact Nat.succ_le_succ (level_pos b.1)
    | ask => exact Nat.le_refl 2
    | sep => exact Nat.le_refl 2

theorem well_fit {level : ℕ} {t : Group} (h : t.Well) (hle : level ≤ 15) :
    (fit level t).Well ∧ level ≤ (fit level t).level := by
  rw [fit]
  split
  · exact ⟨h, hle⟩
  · next hlt => exact ⟨h, Nat.not_lt.mp hlt⟩

theorem two_le_arith (b : ArithOp) : 2 ≤ b.1.level := by
  have h : ∀ b : BinOp, b ≠ .comma → 2 ≤ b.level := by
    intro b
    cases b <;> decide
  exact h b.1 b.2

theorem well_graft {t y : Group} (ht : t.Well) (hy : y.Well) : (graft t y).Well := by
  have hsep : ∀ t : Group, t.Well → 3 ≤ t.level → (Group.bin .sep t y).Well := fun t ht hlevel =>
    ⟨ht, hy, hlevel, two_le_level y⟩
  induction t with
  | lit n => exact hsep _ ht (Nat.le_add_left 3 12)
  | paren t ih => exact hsep _ ht (Nat.le_add_left 3 12)
  | bin j l r ihl ihr =>
    obtain ⟨hl, hr, hleft, hright⟩ := id ht
    cases j with
    | op b => exact hsep _ ht (Nat.succ_le_succ (two_le_arith b))
    | ask => exact ⟨hl, ihr hr, hleft, Nat.le_of_eq (level_graft r y).symm⟩
    | sep => exact ⟨hl, ihr hr, hleft, Nat.le_of_eq (level_graft r y).symm⟩

theorem levels_op (b : ArithOp) :
    (Join.op b).leftLevel = b.1.leftLevel + 1 ∧ (Join.op b).rightLevel = b.1.rightLevel + 1 ∧
      b.1.leftLevel ≤ 14 ∧ b.1.rightLevel ≤ 14 := by
  have hle : ∀ b : BinOp, b.leftLevel ≤ 14 ∧ b.rightLevel ≤ 14 := by
    intro b
    cases b <;> decide
  have heq : (Join.op b).leftLevel = b.1.leftLevel + 1 ∧
      (Join.op b).rightLevel = b.1.rightLevel + 1 := by
    obtain ⟨b, hb⟩ := b
    cases b <;> exact ⟨rfl, rfl⟩
  exact ⟨heq.1, heq.2, hle b.1⟩

theorem well_group (e : Tree) : e.group.Well := by
  induction e with
  | lit n => trivial
  | paren e ih => exact ih
  | bin b l r ihl ihr =>
    obtain ⟨hleft, hright, hl14, hr14⟩ := levels_op b
    obtain ⟨hl, hl'⟩ := well_fit ihl (Nat.succ_le_succ hl14)
    obtain ⟨hr, hr'⟩ := well_fit ihr (Nat.succ_le_succ hr14)
    exact ⟨hl, hr, Nat.le_trans (Nat.le_of_eq hleft) hl', Nat.le_trans (Nat.le_of_eq hright) hr'⟩
  | cond c x y ihc ihx ihy =>
    obtain ⟨hc, hc'⟩ := well_fit ihc (Nat.le_add_left 3 12)
    exact ⟨hc, well_graft ihx ihy, hc', Nat.le_of_eq (level_graft _ _).symm⟩

/-! ### A second value behind a second value -/

/-- What is behind the last `:` of an open conditional is no open conditional that lacks its `:`. -/
inductive Arms : Group → Prop
  | sep {l r : Group} : (r.level = 2 → Arms r) → Arms (.bin .sep l r)
  | ask {l r : Group} : Arms r → Arms (.bin .ask l r)

theorem arms_graft {t y : Group} (ht : t.level = 2 → Arms t) (hy : y.level = 2 → Arms y) :
    Arms (graft t y) := by
  induction t with
  | lit n => exact .sep hy
  | paren t ih => exact .sep hy
  | bin j l r ihl ihr =>
    cases j with
    | op b => exact .sep hy
    | ask =>
      cases ht rfl with
      | ask hr => exact .ask (ihr fun _ => hr)
    | sep =>
      cases ht rfl with
      | sep hr => exact .sep fun _ => ihr hr

theorem arms_group (e : Tree) (h : e.group.level = 2) : Arms e.group := by
  induction e with
  | lit n => cases h
  | paren e ih => cases h
  | bin b l r ihl ihr =>
    have := two_le_arith b
    have hlevel : b.1.level + 1 = 2 := h
    omega
  | cond c x y ihc ihx ihy => exact .ask (arms_graft ihx ihy)

theorem entry_sep {l r : Group} {deep : Bool} {n : Num}
    (h : (Group.bin .sep l r).entry deep = .ok n) :
    ∃ x y, l.entry deep = .ok x ∧ r.entry true = .ok y ∧ y.secondVal = none ∧ deep = true ∧
      n = { x with secondVal := some y.val } := by
  rw [Group.entry] at h
  split at h
  · cases h
  · next x hx =>
    split at h
    · cases h
    · next y hy =>
      rw [Join.apply] at h
      split at h
      · cases h
      · next hno =>
        rw [Bool.or_eq_true, not_or, Option.not_isSome_iff_eq_none, Bool.not_eq_true',
          Bool.not_eq_false] at hno
        cases h
        exact ⟨x, y, hx, hy, hno.1, hno.2, rfl⟩

/-- **A `:` behind an open conditional is an error.** -/
theorem entry_graft {t : Group} (h : Arms t) (y : Group) (deep : Bool) (n : Num) :
    (graft t y).entry deep ≠ .ok n := by
  induction h generalizing deep n with
  | @sep l r hr ih =>
    intro hn
    obtain ⟨a, b, -, hb, hnone, -, -⟩ := entry_sep hn
    by_cases hlevel : r.level = 2
    · exact ih hlevel true b hb
    · rw [graft_of_level hlevel] at hb
      obtain ⟨_, _, _, _, _, _, heq⟩ := entry_sep hb
      rw [heq] at hnone
      cases hnone
  | @ask l r hr ih =>
    intro hn
    rw [graft, Group.entry] at hn
    split at hn
    · cases hn
    · split at hn
      · cases hn
      · next b hb => exact ih true b hb

/-! ### The value of a tree -/

theorem binaryValue_arith (b : ArithOp) (x y : BitVec 64) :
    binaryValue b.1.op x y = b.value x y := by
  obtain ⟨b, hb⟩ := b
  cases b with
  | shl => rfl
  | shr => rfl
  | pow | mul | div | rem | add | sub | lt | le | gt | ge | eq | ne | band | bxor | bor | and | or
  | comma => exact binaryValue_op _ x y (fun h => by rcases h with h | h <;> cases h)

/-- The operators that have no value on some operands. -/
theorem value_isOk_iff (b : ArithOp) (x y : BitVec 64) :
    (∃ z, b.value x y = .ok z) ↔
      (b.1 = .div ∨ b.1 = .rem → y ≠ 0) ∧ (b.1 = .pow → 0 ≤ y.toInt) := by
  obtain ⟨b, hb⟩ := b
  have hok : ∀ z : BitVec 64, ∃ z', (.ok z : Except Err (BitVec 64)) = .ok z' := fun z => ⟨z, rfl⟩
  cases b with
  | pow =>
    simp only [ArithOp.value, BinOp.value]
    split
    · next hneg => simp [hneg]
    · next hneg => simpa using hneg
  | div | rem =>
    simp only [ArithOp.value, BinOp.value]
    split
    · next hzero => simp [hzero]
    · next hzero => simpa using hzero
  | shl | shr | mul | add | sub | lt | le | gt | ge | eq | ne | band | bxor | bor | and | or
  | comma => simp [ArithOp.value, BinOp.value]

/-- What decides `&&` and `||` on the left is also their value. -/
theorem value_bin {b : ArithOp} {l r : Tree} {x y : BitVec 64} (hl : l.value = .ok x)
    (hr : r.value = .ok y) : (Tree.bin b l r).value = b.value x y := by
  rw [Tree.value, hl, hr]
  dsimp only
  split
  · next h =>
    obtain ⟨hb, rfl⟩ := h
    simp [ArithOp.value, hb, BinOp.value, ofBool]
  · split
    · next h =>
      obtain ⟨hb, hx⟩ := h
      have hor : decide (x ≠ 0 ∨ y ≠ 0) = true := decide_eq_true (.inl hx)
      simp only [ArithOp.value, hb, BinOp.value, hor]
      rfl
    · rfl

theorem entry_fit (level : ℕ) (t : Group) (deep : Bool) :
    (fit level t).entry deep = t.entry deep := by
  rw [fit]
  split <;> rfl

/-- With its middles closed and all operands calculated, a tree has a value, and its groups have
that entry. -/
theorem entry_of_calculated {e : Tree} (hclosed : e.MiddlesClosed) (hcalc : e.Calculated) :
    ∃ v, e.value = .ok v ∧ ∀ deep, e.group.entry deep = .ok (plain v) := by
  induction e with
  | lit n => exact ⟨_, rfl, fun _ => rfl⟩
  | paren e ih => exact ih hclosed hcalc
  | bin b l r ihl ihr =>
    obtain ⟨hl, hr, hzero, hneg⟩ := hcalc
    obtain ⟨x, hx, hx'⟩ := ihl hclosed.1 hl
    obtain ⟨y, hy, hy'⟩ := ihr hclosed.2 hr
    obtain ⟨z, hz⟩ := (value_isOk_iff b x y).mpr
      ⟨fun hb h0 => hzero hb (by rw [hy, h0]), fun hb => hneg hb y hy⟩
    refine ⟨z, (value_bin hx hy).trans hz, fun deep => ?_⟩
    rw [Tree.group, Group.entry, entry_fit, entry_fit, hx', hy']
    dsimp only
    rw [Join.apply.eq_def]
    dsimp only
    rw [binaryValue_arith, show (plain x).val = x from rfl, show (plain y).val = y from rfl, hz]
    rfl
  | cond c x y ihc ihx ihy =>
    obtain ⟨hopen, hc, hx, hy⟩ := hclosed
    obtain ⟨u, hu, hu'⟩ := ihc hc hcalc.1
    obtain ⟨v, hv, hv'⟩ := ihx hx hcalc.2.1
    obtain ⟨w, hw, hw'⟩ := ihy hy hcalc.2.2
    have hlevel : x.group.level ≠ 2 := by
      rw [level_group]
      cases x with
      | lit n =>
        intro h
        cases h
      | paren x =>
        intro h
        cases h
      | bin b l r =>
        have := two_le_arith b
        exact fun h => absurd (Nat.succ.inj h) (by omega)
      | cond c x y => cases hopen
    refine ⟨if u ≠ 0 then v else w, ?_, fun deep => ?_⟩
    · rw [Tree.value, hu, hv, hw]
      dsimp only
      split <;> rfl
    · rw [Tree.group, graft_of_level hlevel, Group.entry, entry_fit, hu', Group.entry, hv', hw']
      rfl

/-- Only then. -/
theorem calculated_of_entry {e : Tree} {deep : Bool} {n : Num} (h : e.group.entry deep = .ok n) :
    e.MiddlesClosed ∧ e.Calculated := by
  induction e generalizing deep n with
  | lit m => exact ⟨trivial, trivial⟩
  | paren e ih => exact ih h
  | bin b l r ihl ihr =>
    rw [Tree.group, Group.entry, entry_fit, entry_fit] at h
    split at h
    · cases h
    · next x hx =>
      split at h
      · cases h
      · next y hy =>
        obtain ⟨hl, hl'⟩ := ihl hx
        obtain ⟨hr, hr'⟩ := ihr hy
        obtain ⟨v, hv, hv'⟩ := entry_of_calculated hl hl'
        obtain ⟨w, hw, hw'⟩ := entry_of_calculated hr hr'
        obtain rfl := Except.ok.inj (hx.symm.trans (hv' deep))
        obtain rfl := Except.ok.inj (hy.symm.trans (hw' true))
        have hz : ∃ z, b.value v w = .ok z := by
          rw [← binaryValue_arith]
          cases hb : binaryValue b.1.op v w with
          | ok z => exact ⟨z, rfl⟩
          | error e =>
            rw [Join.apply.eq_def] at h
            dsimp only at h
            rw [show (plain v).val = v from rfl, show (plain w).val = w from rfl, hb] at h
            cases h
        obtain ⟨hzero, hneg⟩ := (value_isOk_iff b v w).mp hz
        refine ⟨⟨hl, hr⟩, hl', hr', fun hb h0 => ?_, fun hb y hy => ?_⟩
        · exact hzero hb (Except.ok.inj (hw.symm.trans h0))
        · obtain rfl := Except.ok.inj (hw.symm.trans hy)
          exact hneg hb
  | cond c x y ihc ihx ihy =>
    rw [Tree.group, Group.entry, entry_fit] at h
    split at h
    · cases h
    · next u hu =>
      split at h
      · cases h
      · next a ha =>
        have hlevel : x.group.level ≠ 2 := fun hlevel =>
          entry_graft (arms_group x hlevel) _ _ _ ha
        rw [graft_of_level hlevel] at ha
        obtain ⟨v, w, hv, hw, -⟩ := entry_sep ha
        obtain ⟨hc, hc'⟩ := ihc hu
        obtain ⟨hx, hx'⟩ := ihx hv
        obtain ⟨hy, hy'⟩ := ihy hw
        refine ⟨⟨?_, hc, hx, hy⟩, hc', hx', hy'⟩
        cases x with
        | cond c x y => exact absurd rfl hlevel
        | lit n => rfl
        | paren x => rfl
        | bin b l r => rfl

/-- **The value of a tree comes out exactly when its middle operands are closed and all operands can
be calculated.** -/
theorem conditional_iff (e : Tree) (env : Env) {v : BitVec 64}
    (h : e.value = .ok v) : Returns env e.print v ↔ e.MiddlesClosed ∧ e.Calculated := by
  have hrun : ∀ fuel, e.tokens.length + 4 ≤ fuel → (arith fuel env e.print).1 =
      ((e.group.entry false).map Num.val).mapError Stop.error := by
    intro fuel hfuel
    rw [Tree.print, ← tokens_group]
    exact arith_group (well_group e) env fuel (by rwa [tokens_group])
  constructor
  · rintro ⟨enough, hall⟩
    have hend := hall (max enough (e.tokens.length + 4)) (Nat.le_max_left _ _)
    rw [hrun _ (Nat.le_max_right _ _)] at hend
    cases hentry : e.group.entry false with
    | error err =>
      rw [hentry] at hend
      cases hend
    | ok n => exact calculated_of_entry hentry
  · rintro ⟨hclosed, hcalc⟩
    obtain ⟨w, hw, hentry⟩ := entry_of_calculated hclosed hcalc
    obtain rfl := Except.ok.inj (h.symm.trans hw)
    refine ⟨e.tokens.length + 4, fun fuel hfuel => ?_⟩
    rw [hrun fuel hfuel, hentry]
    rfl

/-- `1 ? 2 : 0 ? 3 : 4`. -/
theorem conditional_iff_last :
    let e : Tree := .cond (.lit 1) (.lit 2) (.cond (.lit 0) (.lit 3) (.lit 4))
    e.print = "1 ? 2 : 0 ? 3 : 4".toList ∧ Returns ⟨fun _ => none, kept⟩ e.print 2 := by
  intro e
  have hvalue : e.value = .ok 2 := by rfl
  have hclosed : e.MiddlesClosed := ⟨rfl, trivial, trivial, rfl, trivial, trivial, trivial⟩
  have hcalc : e.Calculated := ⟨trivial, trivial, trivial, trivial, trivial⟩
  exact ⟨by decide, (conditional_iff e ⟨fun _ => none, kept⟩ hvalue).mpr ⟨hclosed, hcalc⟩⟩

/-- The value of `1 ? 0 ? 2 : 3 : 4` is 3. -/
theorem conditional_in_the_middle :
    let e : Tree := .cond (.lit 1) (.cond (.lit 0) (.lit 2) (.lit 3)) (.lit 4)
    e.print = "1 ? 0 ? 2 : 3 : 4".toList ∧ e.value = .ok 3 ∧ ¬ Returns ⟨fun _ => none, kept⟩ e.print 3 ∧
      ∃ enough, ∀ fuel, enough ≤ fuel →
        (arith fuel ⟨fun _ => none, kept⟩ e.print).1 = .error (.error .malformedConditional) := by
  intro e
  have hrun : ∀ fuel, e.tokens.length + 4 ≤ fuel →
      (arith fuel ⟨fun _ => none, kept⟩ e.print).1 = .error (.error .malformedConditional) := by
    intro fuel hfuel
    rw [Tree.print, ← tokens_group, arith_group (well_group e) _ fuel (by rwa [tokens_group])]
    rfl
  refine ⟨by decide, by rfl, ?_, _, hrun⟩
  rintro ⟨enough, hall⟩
  have hend := hall (max enough (e.tokens.length + 4)) (Nat.le_max_left _ _)
  rw [hrun _ (Nat.le_max_right _ _)] at hend
  cases hend

end Rustybox.Shell
