import Rustybox.Shell.Precedence

/-!
# How the loop groups conditional expressions

The two halves of `c ? x : y` are two operators of one precedence that group from the right.  A
tree of such groups has an entry for its value, which may carry the second value of a `:`.

* `readsAs_group`: the loop reads the tokens of groups as their tree, to the entry or to the error
  that applying the operators meets.
-/

namespace Rustybox.Shell

/-- The binary operators but for the comma. -/
def ArithOp : Type := {b : BinOp // b ≠ .comma}

/-- An operator between two operands. -/
inductive Join where
  | op (b : ArithOp)
  | ask
  | sep

def Join.text : Join → List Char
  | .op b => b.1.text
  | .ask => ['?']
  | .sep => [':']

def Join.toOp : Join → Op
  | .op b => b.1.op
  | .ask => .conditional
  | .sep => .conditionalSep

/-- The halves of a conditional bind less than all operators but the comma. -/
def Join.level : Join → ℕ
  | .op b => b.1.level + 1
  | .ask | .sep => 2

def Join.groupsRight : Join → Bool
  | .op b => b.1 = .pow
  | .ask | .sep => true

def Join.leftLevel (j : Join) : ℕ := if j.groupsRight then j.level + 1 else j.level

def Join.rightLevel (j : Join) : ℕ := if j.groupsRight then j.level else j.level + 1

/-- Literals with operators between them, as the loop groups them. -/
inductive Group where
  | lit (n : Fin (2 ^ 63))
  | paren (t : Group)
  | bin (j : Join) (l r : Group)

namespace Group

def level : Group → ℕ
  | .lit _ | .paren _ => 15
  | .bin j _ _ => j.level

def tokens : Group → List (List Char)
  | .lit n => [Nat.toDigits 10 n]
  | .paren t => ['('] :: t.tokens ++ [[')']]
  | .bin j l r => l.tokens ++ j.text :: r.tokens

/-- The operands bind what their operators ask for. -/
def Well : Group → Prop
  | .lit _ => True
  | .paren t => t.Well
  | .bin j l r => l.Well ∧ r.Well ∧ j.leftLevel ≤ l.level ∧ j.rightLevel ≤ r.level

end Group

/-! ### The entry of a group -/

/-- An operator on two entries; `deep` says that there is an entry below them. -/
def Join.apply (j : Join) (deep : Bool) (left right : Num) : Except Err Num :=
  match j with
  | .ask =>
    match right.secondVal with
    | none => .error .malformedConditional
    | some second => .ok { left with val := if left.val ≠ 0 then right.val else second }
  | .sep =>
    if right.secondVal.isSome || !deep then .error .malformedConditional
    else .ok { left with secondVal := some right.val }
  | .op b =>
    if right.secondVal.isSome then .error .malformedConditional
    else
      match binaryValue b.1.op left.val right.val with
      | .error e => .error e
      | .ok z => .ok { left with val := z }

/-- The operands are taken from left to right. -/
def Group.entry : Group → Bool → Except Err Num
  | .lit n, _ => .ok (plain (BitVec.ofNat 64 n))
  | .paren t, deep => t.entry deep
  | .bin j l r, deep =>
    match l.entry deep with
    | .error e => .error e
    | .ok x =>
      match r.entry true with
      | .error e => .error e
      | .ok y => j.apply deep x y

theorem apply_var {j : Join} {deep : Bool} {left right n : Num} (hleft : left.var = none)
    (h : j.apply deep left right = .ok n) : n.var = none := by
  cases j with
  | ask =>
    rw [Join.apply] at h
    split at h
    · cases h
    · cases h
      exact hleft
  | sep =>
    rw [Join.apply] at h
    split at h
    · cases h
    · cases h
      exact hleft
  | op b =>
    rw [Join.apply] at h
    split at h
    · cases h
    · split at h
      · cases h
      · cases h
        exact hleft

theorem entry_var {t : Group} {deep : Bool} {n : Num} (h : t.entry deep = .ok n) : n.var = none := by
  induction t generalizing deep n with
  | lit m =>
    cases h
    rfl
  | paren t ih => exact ih h
  | bin j l r ihl ihr =>
    rw [Group.entry] at h
    split at h
    · cases h
    · next x hx =>
      split at h
      · cases h
      · exact apply_var (ihl hx) h

/-- The evaluator applies an operator to entries without names. -/
theorem arithApply_join (ev : Evaluator) (names : List (List Char)) (j : Join) {left right : Num}
    (hleft : left.var = none) (hright : right.var = none) (below : List Num) :
    arithApply ev names j.toOp (right :: left :: below) =
      onto below (j.apply (!below.isEmpty) left right) := by
  obtain ⟨lvar, lval, lsecond⟩ := left
  obtain ⟨rvar, rval, rsecond⟩ := right
  cases hleft
  cases hright
  cases j with
  | ask => cases rsecond <;> rfl
  | sep => cases rsecond <;> cases below <;> rfl
  | op b =>
    obtain ⟨b, hb⟩ := b
    cases rsecond with
    | some v => cases b <;> rfl
    | none =>
      have hbin : arithApply ev names b.op (⟨none, rval, none⟩ :: ⟨none, lval, lsecond⟩ :: below) =
          applyBinary b.op ⟨none, lval, lsecond⟩ ⟨none, rval, none⟩ below >>= fun n =>
            pure (n :: below) := by
        cases b <;> rfl
      refine hbin.trans ?_
      rw [Join.apply.eq_def]
      dsimp only
      cases hz : binaryValue b.op lval rval with
      | error e =>
        have happly : applyBinary b.op ⟨none, lval, lsecond⟩ ⟨none, rval, none⟩ below =
            Eval.fail e := by
          cases b <;> simp only [BinOp.op] at hz ⊢ <;> simp only [applyBinary, hz]
        rw [happly]
        rfl
      | ok z =>
        have happly : applyBinary b.op ⟨none, lval, lsecond⟩ ⟨none, rval, none⟩ below =
            store b.op ⟨none, lval, lsecond⟩ z := by
          cases b <;> simp only [BinOp.op] at hz ⊢ <;> simp only [applyBinary, hz]
        have hstore : store b.op ⟨none, lval, lsecond⟩ z = pure ⟨none, z, lsecond⟩ := by
          cases b <;> rfl
        rw [happly, hstore]
        rfl

/-! ### Reading groups -/

theorem level_toOp (j : Join) : j.toOp.level = j.level + 2 := by
  cases j with
  | op b =>
    obtain ⟨b, hb⟩ := b
    cases b <;> first | rfl | exact absurd rfl hb
  | ask => rfl
  | sep => rfl

theorem groupsRight_toOp (j : Join) : j.toOp.groupsRight = j.groupsRight := by
  cases j with
  | op b =>
    obtain ⟨b, hb⟩ := b
    cases b <;> rfl
  | ask => rfl
  | sep => rfl

theorem leftLevel_toOp (j : Join) : j.toOp.leftLevel = j.leftLevel + 2 := by
  rw [Op.leftLevel, Join.leftLevel, groupsRight_toOp, level_toOp]
  split <;> omega

theorem rightLevel_toOp (j : Join) : j.toOp.rightLevel = j.rightLevel + 2 := by
  rw [Op.rightLevel, Join.rightLevel, groupsRight_toOp, level_toOp]
  split <;> omega

theorem isBinary_join (j : Join) : IsBinary j.text j.toOp := by
  cases j with
  | op b => exact isBinary_binOp b.1
  | ask =>
    exact ⟨⟨_, _, rfl, by decide⟩, fun _ _ h => by rcases h with rfl | ⟨r, rfl⟩ <;> rfl, by decide,
      by decide⟩
  | sep =>
    exact ⟨⟨_, _, rfl, by decide⟩, fun _ _ h => by rcases h with rfl | ⟨r, rfl⟩ <;> rfl, by decide,
      by decide⟩

/-- **The loop reads the tokens of a group as its tree.** -/
theorem readsAs_group {ev : Evaluator} {names : List (List Char)} {len : ℕ}
    (hev : ∀ names expr, Blind .any (ev names expr)) {t : Group} (h : t.Well) :
    Reads ev names len t.tokens (t.level + 2)
      (fun nums => effect (onto nums (t.entry (!nums.isEmpty)))) := by
  induction t with
  | lit m => exact reads_lit hev m
  | paren t ih => exact (ih h).paren hev
  | bin j l r ihl ihr =>
    obtain ⟨hl, hr, hleft, hright⟩ := h
    have hreadl : Reads ev names len l.tokens j.toOp.leftLevel
        (fun nums => effect (onto nums (l.entry (!nums.isEmpty)))) :=
      (ihl hl).mono (by rw [leftLevel_toOp]; omega) (by rw [leftLevel_toOp]; omega)
    have hreadr : Reads ev names len r.tokens j.toOp.rightLevel
        (fun nums => effect (onto nums (r.entry (!nums.isEmpty)))) :=
      (ihr hr).mono (by rw [rightLevel_toOp]; omega) (by rw [rightLevel_toOp]; omega)
    have hread := hreadl.binary hev (isBinary_join j) hreadr
    rw [level_toOp] at hread
    refine hread.congr fun nums => ?_
    rw [Group.entry]
    cases hx : l.entry (!nums.isEmpty) with
    | error err => rfl
    | ok x =>
      show effect (pure (x :: nums)) >>= _ >>= _ = _
      rw [effect_pure, pure_bind]
      show effect (onto (x :: nums) (r.entry true)) >>= _ = _
      cases hy : r.entry true with
      | error err => rfl
      | ok y =>
        show effect (pure (y :: x :: nums)) >>= _ = _
        rw [effect_pure, pure_bind, arithApply_join ev names j (entry_var hx) (entry_var hy)]

theorem arith_group {t : Group} (h : t.Well) (env : Env) (fuel : ℕ)
    (hfuel : t.tokens.length + 4 ≤ fuel) :
    (arith fuel env ([' '].intercalate t.tokens)).1 =
      ((t.entry false).map Num.val).mapError Stop.error := by
  obtain ⟨n, rfl⟩ : ∃ n, fuel = n + 1 := ⟨fuel - 1, by omega⟩
  have hvalue := congrArg Prod.fst
    ((readsAs_group (blind_evaluateString n) h).arith (by omega) env)
  refine hvalue.trans ?_
  show ((effect (onto [] (t.entry false)) >>= _) env).1 = _
  cases hv : t.entry false with
  | error err => rfl
  | ok v =>
    show (effect (arithLookupVal (evaluateString n) [] v >>= fun m => pure m.val) env).1 = _
    rw [arithLookupVal, entry_var hv]
    rfl

end Rustybox.Shell
