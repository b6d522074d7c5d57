import Rustybox.Shell.Math

/-!
# What an evaluation does to the variables

Nothing that `evaluate_string` does depends on the record of its stacks.  Without the record an
evaluation is an `Effect`: a computation on the variables and the memory.

* `Alike`: two evaluations do the same but for the record, with related results.
* `blind_evaluateString`: an evaluation does the same whatever has been recorded, and leaves a memory
  in which names stay as they are.
* `effect_bind`: the effect of two evaluations, one after the other.
-/

namespace Rustybox.Shell

/-- The variables of the shell. -/
abbrev Vars := List Char → Option (List Char)

/-- A computation on the variables and the memory that may stop. -/
abbrev Effect (α : Type) := ExceptT Stop (StateM Env) α

/-- An evaluation without the record. -/
def effect {α : Type} (x : Eval α) : Effect α := fun v => ((x ⟨v, []⟩).1, (x ⟨v, []⟩).2.toEnv)

/-- What is known of a memory, before and behind each read. -/
structure Memory where
  holds : (ℕ → List Char → List Char) → Prop
  next : ∀ {freed}, holds freed → holds fun k => freed (k + 1)

namespace Memory

/-- Any memory. -/
def any : Memory := ⟨fun _ => True, fun _ => trivial⟩

/-- The memory in which names stay as they are. -/
def keeping : Memory where
  holds freed := freed = kept
  next h := by
    subst h
    rfl

end Memory

/-! ### Evaluations that do the same -/

/-- The same variables and memory, and related results or the same error. -/
inductive Related (M : Memory) {α β : Type} (R : α → β → Prop) :
    Except Stop α × MathState → Except Stop β × MathState → Prop
  | ok {a : α} {b : β} {st st' : MathState} : R a b → M.holds st.freed → st.toEnv = st'.toEnv →
      Related M R (.ok a, st) (.ok b, st')
  | error {e : Stop} {st st' : MathState} : M.holds st.freed → st.toEnv = st'.toEnv →
      Related M R (.error e, st) (.error e, st')

def Alike (M : Memory) {α β : Type} (R : α → β → Prop) (x : Eval α) (y : Eval β) : Prop :=
  ∀ st st' : MathState, M.holds st.freed → st.toEnv = st'.toEnv → Related M R (x st) (y st')

/-- The evaluation does not depend on the record. -/
def Blind (M : Memory) {α : Type} (x : Eval α) : Prop := Alike M Eq x x

section Rules

variable {M : Memory} {α β γ δ : Type} {R : α → β → Prop} {S : γ → δ → Prop}

theorem Alike.pure {a : α} {b : β} (h : R a b) : Alike M R (pure a : Eval α) (pure b) :=
  fun _ _ hM henv => .ok h hM henv

theorem Alike.bind {x : Eval α} {y : Eval β} {f : α → Eval γ} {g : β → Eval δ}
    (h : Alike M R x y) (hf : ∀ a b, R a b → Alike M S (f a) (g b)) :
    Alike M S (x >>= f) (y >>= g) := by
  intro st st' hM henv
  have hxy := h st st' hM henv
  cases hx : x st with
  | mk r u =>
    cases hy : y st' with
    | mk r' u' =>
      rw [hx, hy] at hxy
      cases hxy with
      | ok hab hM hu =>
        rw [Eval.bind_ok hx, Eval.bind_ok hy]
        exact hf _ _ hab _ _ hM hu
      | error hM hu =>
        rw [Eval.bind_error hx, Eval.bind_error hy]
        exact .error hM hu

theorem Alike.fail (e : Err) : Alike M R (Eval.fail e : Eval α) (Eval.fail e : Eval β) :=
  fun _ _ hM henv => .error hM henv

theorem Blind.pure (a : α) : Blind M (pure a : Eval α) := Alike.pure rfl

theorem Blind.bind {x : Eval α} {f : α → Eval γ} (h : Blind M x) (hf : ∀ a, Blind M (f a)) :
    Blind M (x >>= f) := Alike.bind h fun a _ hab => hab ▸ hf a

theorem Blind.fail (e : Err) : Blind M (Eval.fail e : Eval α) := Alike.fail e

theorem Blind.unfinished : Blind M (Eval.unfinished : Eval α) := fun _ _ hM henv => .error hM henv

theorem Blind.readName (name : List Char) : Blind M (readName name) := by
  rintro ⟨env, points⟩ ⟨env', points'⟩ hM rfl
  exact .ok rfl (M.next hM) rfl

theorem Blind.lookupvar (name : List Char) : Blind M (lookupvar name) := by
  rintro ⟨env, points⟩ ⟨env', points'⟩ hM rfl
  exact .ok rfl hM rfl

theorem Blind.setvar (name value : List Char) : Blind M (setvar name value) := by
  rintro ⟨env, points⟩ ⟨env', points'⟩ hM rfl
  exact .ok rfl hM rfl

theorem Blind.note (p : Point) : Blind M (note p) := fun _ _ hM henv => .ok rfl hM henv

end Rules

/-! ### The effect of an evaluation -/

section

variable {α β : Type}

theorem effect_of_alike {x y : Eval α} (h : Alike .any Eq x y) : effect x = effect y := by
  funext v
  have hxy := h ⟨v, []⟩ ⟨v, []⟩ trivial rfl
  rw [effect, effect]
  cases hx : x ⟨v, []⟩ with
  | mk r st =>
    cases hy : y ⟨v, []⟩ with
    | mk r' st' =>
      rw [hx, hy] at hxy
      cases hxy with
      | ok hab _ henv => rw [hab, henv]
      | error _ henv => rw [henv]

/-- Whatever has been recorded, the evaluation has its effect. -/
theorem Blind.effect_eq {x : Eval α} (h : Blind .any x) (st : MathState) :
    effect x st.toEnv = ((x st).1, (x st).2.toEnv) := by
  have hx := h ⟨st.toEnv, []⟩ st trivial rfl
  rw [effect]
  cases h₁ : x ⟨st.toEnv, []⟩ with
  | mk r u =>
    cases h₂ : x st with
    | mk r' u' =>
      rw [h₁, h₂] at hx
      cases hx with
      | ok hab _ henv => rw [hab, henv]
      | error _ henv => rw [henv]

theorem Effect.bind_ok {σ : Type} {x : ExceptT Stop (StateM σ) α}
    {f : α → ExceptT Stop (StateM σ) β} {v v' : σ} {a : α}
    (h : x v = (.ok a, v')) : (x >>= f) v = f a v' := by
  show ExceptT.bindCont f (x v).1 (x v).2 = _
  rw [h]
  rfl

theorem Effect.bind_error {σ : Type} {x : ExceptT Stop (StateM σ) α}
    {f : α → ExceptT Stop (StateM σ) β} {v v' : σ} {e : Stop}
    (h : x v = (.error e, v')) : (x >>= f) v = (.error e, v') := by
  show ExceptT.bindCont f (x v).1 (x v).2 = _
  rw [h]
  rfl

theorem effect_pure (a : α) : effect (pure a : Eval α) = pure a := rfl

theorem effect_bind (x : Eval α) {f : α → Eval β} (hf : ∀ a, Blind .any (f a)) :
    effect (x >>= f) = effect x >>= fun a => effect (f a) := by
  funext v
  cases hx : x ⟨v, []⟩ with
  | mk r st =>
    have hv : effect x v = (r, st.toEnv) := by rw [effect, hx]
    cases r with
    | ok a => rw [Effect.bind_ok hv, (hf a).effect_eq, effect, Eval.bind_ok hx]
    | error e => rw [Effect.bind_error hv, effect, Eval.bind_error hx]

end

/-! ### The functions of the evaluation -/

/-- The same but for the record. -/
def Scan.Like (s t : Scan) : Prop :=
  ∃ a g, t = { s with afterOperand := a, glued := g }

variable {M : Memory}

theorem alike_pushOp (len : ℕ) (op : Op) {s t : Scan} (h : s.Like t) :
    Alike M Scan.Like (pushOp len s op) (pushOp len t op) := by
  obtain ⟨a, g, rfl⟩ := h
  exact fun _ _ hM henv => .ok ⟨_, _, rfl⟩ hM henv

theorem alike_pushNum (len : ℕ) {s t : Scan} (h : s.Like t) (glued glued' : Bool) (n : Num)
    (rest : List Char) :
    Alike M Scan.Like (pushNum len s glued n rest) (pushNum len t glued' n rest) := by
  obtain ⟨a, g, rfl⟩ := h
  exact fun _ _ hM henv => .ok ⟨_, _, rfl⟩ hM henv

theorem blind_store (op : Op) (top : Num) (rez : BitVec 64) : Blind M (store op top rez) := by
  rw [store]
  split
  · split
    · exact .fail _
    · exact (Blind.readName _).bind fun _ => (Blind.setvar _ _).bind fun _ => .pure _
  · exact .pure _

theorem blind_applyBinary (op : Op) (left right : Num) (below : List Num) :
    Blind M (applyBinary op left right below) := by
  rw [applyBinary.eq_def]
  split
  · exact blind_store _ _ _
  · split
    · exact .fail _
    · exact blind_store _ _ _
  · split
    · exact .fail _
    · exact blind_store _ _ _

theorem blind_seen (name : List Char) (names : List (List Char)) : Blind M (seen name names) := by
  induction names with
  | nil => exact .pure _
  | cons cur names ih =>
    refine (Blind.readName cur).bind fun a => (Blind.readName name).bind fun b => ?_
    split
    · exact .pure _
    · exact ih

section Functions

variable {ev : Evaluator} (hev : ∀ names expr, Blind M (ev names expr))

include hev

theorem blind_arithLookupVal (names : List (List Char)) (t : Num) :
    Blind M (arithLookupVal ev names t) := by
  rw [arithLookupVal]
  cases t.var with
  | none => exact .pure t
  | some var =>
    refine (Blind.readName var).bind fun name => (Blind.lookupvar name).bind fun p => ?_
    cases p with
    | none => exact .pure _
    | some p =>
      refine (blind_seen var names).bind fun b => ?_
      split
      · exact .fail _
      · exact (hev _ _).bind fun val => .pure _

theorem blind_lookupLeft (names : List (List Char)) (op : Op) (left : Num) :
    Blind M (lookupLeft ev names op left) := by
  rw [lookupLeft]
  split
  · exact .pure left
  · exact blind_arithLookupVal hev names left

theorem blind_arithApply (names : List (List Char)) (op : Op) (nums : List Num) :
    Blind M (arithApply ev names op nums) := by
  cases nums with
  | nil => exact .fail _
  | cons top rest =>
    refine (blind_arithLookupVal hev names top).bind fun top => ?_
    cases unaryValue op top.val with
    | some rez => exact (blind_store _ _ _).bind fun n => .pure _
    | none =>
      cases rest with
      | nil => exact .fail _
      | cons left rest =>
        dsimp only
        split
        · exact .fail _
        · refine (blind_lookupLeft hev names op left).bind fun left => ?_
          exact (blind_applyBinary _ _ _ _).bind fun n => .pure _

theorem blind_applyLoop (names : List (List Char)) (op : Op) (ops : List Op) (nums : List Num) :
    Blind M (applyLoop ev names op ops nums) := by
  induction ops generalizing nums with
  | nil => exact .pure _
  | cons prev ops ih =>
    rw [applyLoop]
    split
    · exact .pure _
    split
    · exact .pure _
    · exact (blind_arithApply hev names prev nums).bind fun nums => ih nums

theorem alike_operatorStep (names : List (List Char)) (len : ℕ) (op : Op) {s t : Scan}
    (h : s.Like t) :
    Alike M Scan.Like (operatorStep ev names len s op) (operatorStep ev names len t op) := by
  obtain ⟨a, g, rfl⟩ := h
  rw [operatorStep, operatorStep]
  generalize (if s.lasttok = .postInc ∨ s.lasttok = .postDec then Op.num else s.lasttok) = lasttok
  generalize (if lasttok ≠ .num then asUnary op else op) = op
  dsimp only
  by_cases hbinary : isBinary op = true
  · rw [if_pos hbinary, if_pos hbinary]
    by_cases hnum : lasttok ≠ .num
    · rw [if_pos hnum, if_pos hnum]
      exact .fail _
    · rw [if_neg hnum, if_neg hnum]
      refine Alike.bind (blind_applyLoop hev names op s.ops s.nums) fun r _ hr => ?_
      subst hr
      obtain ⟨closed, ops, nums⟩ := r
      cases closed with
      | true => exact .pure ⟨_, _, rfl⟩
      | false =>
        dsimp only
        by_cases hparen : op = .rparen
        · rw [if_pos hparen, if_pos hparen]
          exact .fail _
        · rw [if_neg hparen, if_neg hparen]
          exact alike_pushOp len op ⟨_, _, rfl⟩
  · rw [if_neg hbinary, if_neg hbinary]
    exact alike_pushOp len op ⟨_, _, rfl⟩

theorem alike_scanStep (names : List (List Char)) (len : ℕ) {s t : Scan} (h : s.Like t) :
    Alike M (Sum.LiftRel Scan.Like Eq) (scanStep ev names len s) (scanStep ev names len t) := by
  have hon : ∀ {s t : Scan}, s.Like t → Alike M (Sum.LiftRel Scan.Like Eq)
      (pure (.inl s) : Eval (Scan ⊕ BitVec 64)) (pure (.inl t)) := fun h => .pure (.inl h)
  obtain ⟨a, g, rfl⟩ := h
  rw [scanStep, scanStep]
  dsimp only
  cases skipWhitespace s.expr with
  | nil =>
    dsimp only
    cases s.ended with
    | false => exact hon ⟨_, _, rfl⟩
    | true =>
      cases s.nums with
      | nil => exact .fail _
      | cons n rest =>
        cases rest with
        | nil =>
          refine Alike.bind (blind_arithLookupVal hev names n) fun n _ hn => ?_
          subst hn
          exact .pure (.inr rfl)
        | cons n' rest => exact .fail _
  | cons c cs =>
    dsimp only
    cases isNameStart c with
    | true => exact (alike_pushNum len ⟨_, _, rfl⟩ _ _ _ _).bind fun s t h => hon h
    | false =>
      cases isDigit c with
      | true => exact (alike_pushNum len ⟨_, _, rfl⟩ _ _ _ _).bind fun s t h => hon h
      | false =>
        have hread : readOp { s with afterOperand := a, glued := g } (c :: cs) =
            readOp s (c :: cs) := rfl
        rw [hread]
        cases readOp s (c :: cs) with
        | none => exact .fail _
        | some r =>
          obtain ⟨op, rest⟩ := r
          exact (alike_operatorStep hev names len op ⟨_, _, rfl⟩).bind fun s t h => hon h

theorem alike_scanLoop (names : List (List Char)) (len n : ℕ) {s t : Scan} (h : s.Like t) :
    Alike M Eq (scanLoop ev names len n s) (scanLoop ev names len n t) := by
  induction n generalizing s t with
  | zero => exact Blind.unfinished
  | succ n ih =>
    refine (alike_scanStep hev names len h).bind fun r r' hr => ?_
    cases hr with
    | inl hst => exact ih hst
    | inr hval => exact .pure hval

theorem blind_scanLoop (names : List (List Char)) (len n : ℕ) (s : Scan) :
    Blind M (scanLoop ev names len n s) := alike_scanLoop hev names len n ⟨_, _, rfl⟩

end Functions

/-- **No evaluation looks at the record.** -/
theorem blind_evaluateString (n : ℕ) (names : List (List Char)) (expr : List Char) :
    Blind M (evaluateString n names expr) := by
  induction n generalizing names expr with
  | zero => exact .unfinished
  | succ n ih =>
    refine (Blind.note _).bind fun _ => ?_
    split
    · exact .pure _
    · exact blind_scanLoop ih names _ n _

end Rustybox.Shell
