import Rustybox.Mode.Parse

/-!
# The language of symbolic modes

A mode is a list of clauses separated by commas, some of them empty.  A clause says whom it
is about and what to do, and it is written as its characters one after the other.

`parseClauses_eq_none_iff`: `parseClauses` accepts exactly the strings of this language.
`parseClauses_render`: what it returns is the fold of `codeStep`, one step for each action.
-/

namespace Rustybox.Mode

open Rustybox.Rust

/-! ### Syntax -/

/-- The classes whose bits can be copied. -/
inductive Class
  | u
  | g
  | o
deriving DecidableEq

/-- Whom a clause is about. -/
inductive Who
  | all
  | one (c : Class)
deriving DecidableEq

inductive Op
  | plus
  | minus
  | equal
deriving DecidableEq

inductive Perm
  | r
  | w
  | x
  | X
  | s
  | t
deriving DecidableEq

/-- What an action is about: a list of permissions, or the permissions of a class. -/
inductive Perms
  | list (l : List Perm)
  | copy (c : Class)

structure Action where
  op : Op
  perms : Perms

/-- A clause that is not empty. -/
structure Clause where
  who : List Who
  first : Action
  more : List Action

/-- A mode: its first clause and those after a comma. -/
structure Symbolic where
  first : Option Clause
  more : List (Option Clause)

def Class.char : Class → UInt8
  | .u => 117
  | .g => 103
  | .o => 111

def Who.char : Who → UInt8
  | .all => 97
  | .one c => c.char

def Op.char : Op → UInt8
  | .plus => plusSign
  | .minus => minusSign
  | .equal => equalSign

def Perm.char : Perm → UInt8
  | .r => 114
  | .w => 119
  | .x => 120
  | .X => letterX
  | .s => 115
  | .t => 116

def Perms.render : Perms → Str
  | .list l => l.map Perm.char
  | .copy c => [c.char]

def Action.render (a : Action) : Str := a.op.char :: a.perms.render

def Clause.actions (c : Clause) : List Action := c.first :: c.more

def Clause.render (c : Clause) : Str := c.who.map Who.char ++ c.actions.flatMap Action.render

/-- A clause that may be empty. -/
def renderClause : Option Clause → Str
  | none => []
  | some c => c.render

/-- The clauses after the first one. -/
def renderMore (l : List (Option Clause)) : Str := l.flatMap fun c => comma :: renderClause c

def Symbolic.render (m : Symbolic) : Str := renderClause m.first ++ renderMore m.more

/-- The actions of a clause, each with the wholist it stands behind. -/
def clauseSteps : Option Clause → List (List Who × Action)
  | none => []
  | some c => c.actions.map fun a => (c.who, a)

/-- All the actions of a mode, in their order. -/
def Symbolic.steps (m : Symbolic) : List (List Who × Action) :=
  clauseSteps m.first ++ m.more.flatMap clauseSteps

/-! ### What the code does with an action -/

def Class.mask : Class → ModeT
  | .u => 0o4700
  | .g => 0o2070
  | .o => 0o7

def Who.mask : Who → ModeT
  | .all => 0o7777
  | .one c => c.mask

def Perm.mask : Perm → ModeT
  | .r => 0o444
  | .w => 0o222
  | .x => 0o111
  | .X => 0o111
  | .s => 0o6000
  | .t => 0o1000

def whoBits (who : List Who) : ModeT := (who.map Who.mask).foldl (· ||| ·) 0

/-- The bits of a permission: `X` is `x` for a directory or where there is an `x` already. -/
def permBits (mode : ModeT) (p : Perm) : ModeT :=
  if p ≠ .X ∨ mode &&& 0o40111 ≠ 0 then p.mask else 0

def listBits (mode : ModeT) (l : List Perm) : ModeT := (l.map (permBits mode)).foldl (· ||| ·) 0

/-- The permlist of an action as the code computes it from `newMode`. -/
def codeBits (newMode : ModeT) : Perms → ModeT
  | .list l => listBits newMode l
  | .copy c => permCopy c.mask newMode

/-- One action of the code. -/
def codeStep (umask newMode : ModeT) (step : List Who × Action) : ModeT :=
  let wholist := whoBits step.1
  let op := step.2.op.char
  let newMode := clear op wholist newMode
  apply op wholist umask (codeBits newMode step.2.perms) newMode

/-! ### Single characters -/

theorem lookup_who (w : Who) : whoMask.lookup w.char = some w.mask := by
  cases w with
  | all => rfl
  | one c => cases c <;> rfl

theorem lookup_class (c : Class) : whoMask.tail.lookup c.char = some c.mask := by
  cases c <;> rfl

theorem lookup_perm (p : Perm) : permMask.lookup p.char = some p.mask := by
  cases p <;> rfl

theorem who_of_lookup {c : UInt8} {mask : ModeT} (h : whoMask.lookup c = some mask) :
    ∃ w : Who, w.char = c := by
  obtain ⟨l₁, l₂, hl, -⟩ := List.lookup_eq_some_iff.mp h
  have hm : (c, mask) ∈ whoMask := by simp [hl]
  simp only [whoMask, List.mem_cons, Prod.mk.injEq, List.not_mem_nil, or_false] at hm
  rcases hm with ⟨rfl, -⟩ | ⟨rfl, -⟩ | ⟨rfl, -⟩ | ⟨rfl, -⟩
  · exact ⟨.all, rfl⟩
  · exact ⟨.one .u, rfl⟩
  · exact ⟨.one .g, rfl⟩
  · exact ⟨.one .o, rfl⟩

theorem class_of_lookup {c : UInt8} {mask : ModeT} (h : whoMask.tail.lookup c = some mask) :
    ∃ k : Class, k.char = c := by
  obtain ⟨l₁, l₂, hl, -⟩ := List.lookup_eq_some_iff.mp h
  have hm : (c, mask) ∈ whoMask.tail := by simp [hl]
  simp only [whoMask, List.tail_cons, List.mem_cons, Prod.mk.injEq, List.not_mem_nil,
    or_false] at hm
  rcases hm with ⟨rfl, -⟩ | ⟨rfl, -⟩ | ⟨rfl, -⟩
  · exact ⟨.u, rfl⟩
  · exact ⟨.g, rfl⟩
  · exact ⟨.o, rfl⟩

theorem perm_of_lookup {c : UInt8} {mask : ModeT} (h : permMask.lookup c = some mask) :
    ∃ p : Perm, p.char = c := by
  obtain ⟨l₁, l₂, hl, -⟩ := List.lookup_eq_some_iff.mp h
  have hm : (c, mask) ∈ permMask := by simp [hl]
  simp only [permMask, List.mem_cons, Prod.mk.injEq, List.not_mem_nil, or_false] at hm
  rcases hm with ⟨rfl, -⟩ | ⟨rfl, -⟩ | ⟨rfl, -⟩ | ⟨rfl, -⟩ | ⟨rfl, -⟩ | ⟨rfl, -⟩
  · exact ⟨.r, rfl⟩
  · exact ⟨.w, rfl⟩
  · exact ⟨.x, rfl⟩
  · exact ⟨.X, rfl⟩
  · exact ⟨.s, rfl⟩
  · exact ⟨.t, rfl⟩

theorem op_of_char {c : UInt8} (h : ¬ (c ≠ plusSign ∧ c ≠ minusSign ∧ c ≠ equalSign)) :
    ∃ op : Op, op.char = c := by
  by_cases h1 : c = plusSign
  · exact ⟨.plus, h1.symm⟩
  · by_cases h2 : c = minusSign
    · exact ⟨.minus, h2.symm⟩
    · by_cases h3 : c = equalSign
      · exact ⟨.equal, h3.symm⟩
      · exact absurd ⟨h1, h2, h3⟩ h

theorem op_char_ne (op : Op) :
    whoMask.lookup op.char = none ∧ permMask.lookup op.char = none ∧ op.char ≠ comma := by
  cases op <;> decide

/-! ### What is accepted has been written -/

theorem parseWho_sound {s : Str} {wholist : ModeT} {r : ModeT × Str}
    (h : parseWho s wholist = some r) :
    ∃ who : List Who, s = who.map Who.char ++ r.2 := by
  induction s generalizing wholist with
  | nil =>
    obtain rfl := Option.some.inj h
    exact ⟨[], rfl⟩
  | cons c s ih =>
    rw [parseWho] at h
    split at h
    · obtain rfl := Option.some.inj h
      exact ⟨[], rfl⟩
    · rename_i mask hmask
      split at h
      · cases h
      · obtain ⟨w, rfl⟩ := who_of_lookup hmask
        obtain ⟨who, rfl⟩ := ih h
        exact ⟨w :: who, rfl⟩

theorem parsePerms_sound (newMode : ModeT) (s : Str) (permlist : ModeT) :
    ∃ l : List Perm, s = l.map Perm.char ++ (parsePerms newMode s permlist).2 := by
  induction s generalizing permlist with
  | nil => exact ⟨[], rfl⟩
  | cons c s ih =>
    rw [parsePerms]
    split
    · exact ⟨[], rfl⟩
    · rename_i mask hmask
      obtain ⟨p, rfl⟩ := perm_of_lookup hmask
      obtain ⟨l, hl⟩ := ih (if p.char ≠ letterX ∨ newMode &&& 0o40111 ≠ 0 then permlist ||| mask
        else permlist)
      refine ⟨p :: l, ?_⟩
      rw [List.map_cons, List.cons_append, ← hl]

theorem parseCopy_sound (newMode : ModeT) (s : Str) :
    ∃ p : Perms, s = p.render ++ (parseCopy newMode s).2 := by
  cases s with
  | nil => exact ⟨.list [], rfl⟩
  | cons c s =>
    rw [parseCopy]
    split
    · rename_i mask hmask
      obtain ⟨k, rfl⟩ := class_of_lookup hmask
      exact ⟨.copy k, rfl⟩
    · obtain ⟨l, hl⟩ := parsePerms_sound newMode (c :: s) 0
      exact ⟨.list l, hl⟩

theorem parseAction_sound {umask wholist newMode : ModeT} {s : Str} {r : ModeT × Str}
    (h : parseAction umask wholist newMode s = some r) : ∃ a : Action, s = a.render ++ r.2 := by
  cases s with
  | nil => cases h
  | cons op s =>
    rw [parseAction] at h
    split at h
    · cases h
    · rename_i hop
      obtain rfl := Option.some.inj h
      obtain ⟨o, rfl⟩ := op_of_char hop
      obtain ⟨p, hp⟩ := parseCopy_sound (clear o.char wholist newMode) s
      refine ⟨⟨o, p⟩, ?_⟩
      rw [Action.render, List.cons_append, ← hp]

/-- Is this what comes after a clause? -/
def AtEnd (s : Str) : Prop := s = [] ∨ s.head? = some comma

theorem parseActions_sound {umask wholist newMode : ModeT} {s : Str} {r : ModeT × Str}
    (h : parseActions umask wholist newMode s = some r) :
    AtEnd r.2 ∧ ∃ (a : Action) (l : List Action), s = (a :: l).flatMap Action.render ++ r.2 := by
  fun_induction parseActions umask wholist newMode s with
  | case1 => cases h
  | case2 newMode s r' hr _ ih =>
    obtain ⟨hend, b, l, hl⟩ := ih h
    obtain ⟨a, ha⟩ := parseAction_sound hr
    refine ⟨hend, a, b :: l, ?_⟩
    rw [List.flatMap_cons, List.append_assoc, ← hl, ← ha]
  | case3 newMode s r' hr hmore =>
    obtain rfl := Option.some.inj h
    obtain ⟨a, ha⟩ := parseAction_sound hr
    refine ⟨?_, a, [], ?_⟩
    · by_cases hnil : r'.2 = []
      · exact Or.inl hnil
      · exact Or.inr (not_not.mp fun hne => hmore ⟨hnil, hne⟩)
    · rw [List.flatMap_cons, List.flatMap_nil, List.append_nil, ← ha]

theorem parseClause_sound {umask newMode : ModeT} {s : Str} {r : ModeT × Str}
    (h : parseClause umask newMode s = some r) :
    AtEnd r.2 ∧ ∃ c : Clause, s = c.render ++ r.2 := by
  obtain ⟨q, hq, hr⟩ := Option.bind_eq_some_iff.mp h
  obtain ⟨who, hwho⟩ := parseWho_sound hq
  obtain ⟨hend, a, l, hl⟩ := parseActions_sound hr
  refine ⟨hend, ⟨who, a, l⟩, ?_⟩
  rw [Clause.render, Clause.actions, List.append_assoc, ← hl, ← hwho]

theorem parseClauses_sound {umask newMode : ModeT} {s : Str} {m : ModeT}
    (h : parseClauses umask newMode s = some m) :
    (∃ mode : Symbolic, s = mode.render) ∧ (AtEnd s → ∃ l, s = renderMore l) := by
  fun_induction parseClauses umask newMode s with
  | case1 => exact ⟨⟨⟨none, []⟩, rfl⟩, fun _ => ⟨[], rfl⟩⟩
  | case2 newMode s ih =>
    obtain ⟨⟨mode, hmode⟩, -⟩ := ih h
    have hmore : comma :: s = renderMore (mode.first :: mode.more) := by
      rw [hmode]
      rfl
    exact ⟨⟨⟨none, mode.first :: mode.more⟩, hmore⟩, fun _ => ⟨_, hmore⟩⟩
  | case3 => cases h
  | case4 newMode c s hc r hr ih =>
    obtain ⟨hend, clause, hclause⟩ := parseClause_sound hr
    obtain ⟨l, hl⟩ := (ih h).2 hend
    refine ⟨⟨⟨some clause, l⟩, ?_⟩, ?_⟩
    · rw [hclause, hl]
      rfl
    · rintro (hnil | hcomma)
      · cases hnil
      · exact absurd (Option.some.inj hcomma) hc

/-! ### What has been written is accepted -/

/-- Does no list of letters go on here? -/
def Stops (s : Str) : Prop :=
  ∀ c, s.head? = some c → whoMask.lookup c = none ∧ permMask.lookup c = none

theorem AtEnd.stops {s : Str} (h : AtEnd s) : Stops s := by
  intro c hc
  rcases h with rfl | h
  · cases hc
  · obtain rfl : comma = c := Option.some.inj (h.symm.trans hc)
    exact ⟨by decide, by decide⟩

theorem Action.stops (a : Action) (s : Str) : Stops (a.render ++ s) := by
  intro c hc
  obtain rfl : a.op.char = c := Option.some.inj hc
  exact ⟨(op_char_ne a.op).1, (op_char_ne a.op).2.1⟩

theorem parsePerms_render (newMode : ModeT) (l : List Perm) {s : Str} (hs : Stops s)
    (permlist : ModeT) :
    parsePerms newMode (l.map Perm.char ++ s) permlist =
      ((l.map (permBits newMode)).foldl (· ||| ·) permlist, s) := by
  induction l generalizing permlist with
  | nil =>
    cases s with
    | nil => rfl
    | cons c s =>
      rw [List.map_nil, List.nil_append, parsePerms, (hs c rfl).2]
      rfl
  | cons p l ih =>
    have hX : p.char ≠ letterX ↔ p ≠ .X := by cases p <;> decide
    have hbits : (if p.char ≠ letterX ∨ newMode &&& 0o40111 ≠ 0 then permlist ||| p.mask
        else permlist) = permlist ||| permBits newMode p := by
      simp only [hX, permBits]
      split
      · rfl
      · exact (BitVec.or_zero).symm
    rw [List.map_cons, List.cons_append, parsePerms, lookup_perm]
    show parsePerms newMode (l.map Perm.char ++ s) (if p.char ≠ letterX ∨ _ then _ else _) = _
    rw [hbits, ih, List.map_cons, List.foldl_cons]

theorem parseCopy_render (newMode : ModeT) (p : Perms) {s : Str} (hs : Stops s) :
    parseCopy newMode (p.render ++ s) = (codeBits newMode p, s) := by
  cases p with
  | copy c =>
    rw [Perms.render, List.singleton_append, parseCopy, lookup_class]
    rfl
  | list l =>
    have hperms := parsePerms_render newMode l hs 0
    have hnone (c : UInt8) (rest : Str) (h : whoMask.tail.lookup c = none) :
        parseCopy newMode (c :: rest) = parsePerms newMode (c :: rest) 0 := by
      rw [parseCopy, h]
    rw [Perms.render, codeBits, listBits, ← hperms]
    cases l with
    | nil =>
      cases s with
      | nil => rfl
      | cons c s =>
        refine hnone c s (List.lookup_eq_none_iff.mpr fun q hq => ?_)
        exact List.lookup_eq_none_iff.mp (hs c rfl).1 q (List.mem_of_mem_tail hq)
    | cons q l => exact hnone q.char _ (by cases q <;> decide)

theorem parseAction_render (umask newMode : ModeT) (who : List Who) (a : Action) {s : Str}
    (hs : Stops s) :
    parseAction umask (whoBits who) newMode (a.render ++ s) =
      some (codeStep umask newMode (who, a), s) := by
  have hop : ¬ (a.op.char ≠ plusSign ∧ a.op.char ≠ minusSign ∧ a.op.char ≠ equalSign) := by
    cases a.op <;> decide
  rw [Action.render, List.cons_append, parseAction, if_neg hop]
  simp only [parseCopy_render _ _ hs]
  rfl

theorem parseActions_render (umask newMode : ModeT) (who : List Who) (a : Action)
    (l : List Action) {s : Str} (hs : AtEnd s) :
    parseActions umask (whoBits who) newMode ((a :: l).flatMap Action.render ++ s) =
      some ((((a :: l).map fun a => (who, a)).foldl (codeStep umask) newMode), s) := by
  induction l generalizing a newMode with
  | nil =>
    have hmore : ¬ (s ≠ [] ∧ s.head? ≠ some comma) := by
      rintro ⟨hnil, hcomma⟩
      exact hs.elim hnil hcomma
    rw [List.flatMap_cons, List.flatMap_nil, List.append_nil, parseActions.eq_def,
      parseAction_render umask newMode who a hs.stops]
    exact if_neg hmore
  | cons b l ih =>
    have hstops : Stops ((b :: l).flatMap Action.render ++ s) := by
      rw [List.flatMap_cons, List.append_assoc]
      exact b.stops _
    have hmore : (b :: l).flatMap Action.render ++ s ≠ [] ∧
        ((b :: l).flatMap Action.render ++ s).head? ≠ some comma := by
      refine ⟨List.cons_ne_nil _ _, fun h => ?_⟩
      exact (op_char_ne b.op).2.2 (Option.some.inj h)
    rw [List.flatMap_cons, List.append_assoc, parseActions.eq_def,
      parseAction_render umask newMode who a hstops]
    exact (if_pos hmore).trans (ih (codeStep umask newMode (who, a)) b)

theorem parseWho_render (who : List Who) {s : Str} (hne : s ≠ []) (hs : Stops s)
    (wholist : ModeT) :
    parseWho (who.map Who.char ++ s) wholist =
      some ((who.map Who.mask).foldl (· ||| ·) wholist, s) := by
  induction who generalizing wholist with
  | nil =>
    cases s with
    | nil => exact absurd rfl hne
    | cons c s =>
      rw [List.map_nil, List.nil_append, parseWho, (hs c rfl).1]
      rfl
  | cons w who ih =>
    have hrest : who.map Who.char ++ s ≠ [] := List.append_ne_nil_of_right_ne_nil _ hne
    rw [List.map_cons, List.cons_append, parseWho, lookup_who]
    exact (if_neg hrest).trans (ih _)

theorem parseClause_render (umask newMode : ModeT) (c : Clause) {s : Str} (hs : AtEnd s) :
    parseClause umask newMode (c.render ++ s) =
      some ((clauseSteps (some c)).foldl (codeStep umask) newMode, s) := by
  have hne : c.actions.flatMap Action.render ++ s ≠ [] := List.cons_ne_nil _ _
  have hstops : Stops (c.actions.flatMap Action.render ++ s) := by
    rw [Clause.actions, List.flatMap_cons, List.append_assoc]
    exact c.first.stops _
  rw [parseClause, Clause.render, List.append_assoc, parseWho_render c.who hne hstops 0,
    Option.bind_some]
  exact parseActions_render umask newMode c.who c.first c.more hs

/-- A clause does not start with a comma. -/
theorem Clause.render_ne (c : Clause) (s : Str) :
    ∃ (b : UInt8) (r : Str), c.render ++ s = b :: r ∧ b ≠ comma := by
  rcases c with ⟨_ | ⟨w, who⟩, a, l⟩
  · exact ⟨a.op.char, _, rfl, (op_char_ne a.op).2.2⟩
  · refine ⟨w.char, _, rfl, ?_⟩
    cases w with
    | all => decide
    | one c => cases c <;> decide

theorem parseClauses_cons_clause (umask newMode : ModeT) (c : Clause) {s : Str} (hs : AtEnd s) :
    parseClauses umask newMode (c.render ++ s) =
      parseClauses umask ((clauseSteps (some c)).foldl (codeStep umask) newMode) s := by
  obtain ⟨b, r, hbr, hb⟩ := c.render_ne s
  have hclause := parseClause_render umask newMode c hs
  rw [hbr] at hclause
  rw [hbr, parseClauses.eq_def]
  simp only [if_neg hb]
  rw [hclause]

theorem atEnd_renderMore (l : List (Option Clause)) : AtEnd (renderMore l) := by
  cases l with
  | nil => exact Or.inl rfl
  | cons c l => exact Or.inr rfl

theorem parseClauses_renderClause (umask newMode : ModeT) (c : Option Clause) {s : Str}
    (hs : AtEnd s) :
    parseClauses umask newMode (renderClause c ++ s) =
      parseClauses umask ((clauseSteps c).foldl (codeStep umask) newMode) s := by
  cases c with
  | none => rfl
  | some c => exact parseClauses_cons_clause umask newMode c hs

theorem parseClauses_renderMore (umask newMode : ModeT) (l : List (Option Clause)) :
    parseClauses umask newMode (renderMore l) =
      some ((l.flatMap clauseSteps).foldl (codeStep umask) newMode) := by
  induction l generalizing newMode with
  | nil => exact parseClauses.eq_1 umask newMode
  | cons c l ih =>
    have hcomma (s : Str) : parseClauses umask newMode (comma :: s) =
        parseClauses umask newMode s := by
      rw [parseClauses.eq_def]
      exact if_pos rfl
    rw [renderMore, List.flatMap_cons, List.cons_append, hcomma, List.flatMap_cons,
      List.foldl_append, ← ih]
    exact parseClauses_renderClause umask newMode c (atEnd_renderMore l)

/-- A symbolic mode does what its actions do, one after the other. -/
theorem parseClauses_render (umask newMode : ModeT) (mode : Symbolic) :
    parseClauses umask newMode mode.render =
      some (mode.steps.foldl (codeStep umask) newMode) := by
  rw [Symbolic.render, parseClauses_renderClause umask newMode mode.first
    (atEnd_renderMore mode.more), parseClauses_renderMore, Symbolic.steps, List.foldl_append]

/-- **The parser accepts exactly the symbolic modes.** -/
theorem parseClauses_eq_none_iff (umask newMode : ModeT) (s : Str) :
    parseClauses umask newMode s = none ↔ ¬ ∃ mode : Symbolic, mode.render = s := by
  constructor
  · rintro h ⟨mode, rfl⟩
    rw [parseClauses_render] at h
    cases h
  · intro h
    by_contra hne
    obtain ⟨m, hm⟩ := Option.ne_none_iff_exists'.mp hne
    obtain ⟨mode, hmode⟩ := (parseClauses_sound hm).1
    exact h ⟨mode, hmode.symm⟩

/-! ### A string can be read in one way only -/

theorem Class.char_inj {c c' : Class} (h : c.char = c'.char) : c = c' := by
  revert h
  cases c <;> cases c' <;> decide

theorem Who.char_inj {w w' : Who} (h : w.char = w'.char) : w = w' := by
  cases w with
  | all =>
    cases w' with
    | all => rfl
    | one c => cases c <;> exact absurd h (by decide)
  | one c =>
    cases w' with
    | all => cases c <;> exact absurd h (by decide)
    | one c' => rw [Class.char_inj h]

theorem Op.char_inj {o o' : Op} (h : o.char = o'.char) : o = o' := by
  revert h
  cases o <;> cases o' <;> decide

theorem Perm.char_inj {p p' : Perm} (h : p.char = p'.char) : p = p' := by
  revert h
  cases p <;> cases p' <;> decide

/-- Characters that are written before something that starts with none of them. -/
theorem chars_inj {α : Type} {char : α → UInt8} (hchar : ∀ {p q}, char p = char q → p = q)
    {l l' : List α} {s s' : Str} (hs : ∀ q, s.head? ≠ some (char q))
    (hs' : ∀ q, s'.head? ≠ some (char q)) (h : l.map char ++ s = l'.map char ++ s') :
    l = l' ∧ s = s' := by
  have hno {q : α} {l : List α} {r t : Str} (hr : ∀ q, r.head? ≠ some (char q))
      (he : r = (q :: l).map char ++ t) : False := hr q (by rw [he]; rfl)
  induction l generalizing l' with
  | nil =>
    cases l' with
    | nil => exact ⟨rfl, h⟩
    | cons q l' => exact (hno hs h).elim
  | cons p l ih =>
    cases l' with
    | nil => exact (hno hs' h.symm).elim
    | cons q l' =>
      obtain ⟨hp, hrest⟩ := List.cons.inj h
      obtain ⟨hl, ht⟩ := ih hrest
      exact ⟨by rw [hchar hp, hl], ht⟩

theorem perms_inj {l l' : List Perm} {s s' : Str} (hs : Stops s) (hs' : Stops s')
    (h : l.map Perm.char ++ s = l'.map Perm.char ++ s') : l = l' ∧ s = s' := by
  have hno {r : Str} (hr : Stops r) (q : Perm) : r.head? ≠ some q.char := by
    intro he
    have hq := (hr q.char he).2
    rw [lookup_perm] at hq
    cases hq
  exact chars_inj Perm.char_inj (hno hs) (hno hs') h

theorem who_inj {l l' : List Who} {s s' : Str} (hs : Stops s) (hs' : Stops s')
    (h : l.map Who.char ++ s = l'.map Who.char ++ s') : l = l' ∧ s = s' := by
  have hno {r : Str} (hr : Stops r) (q : Who) : r.head? ≠ some q.char := by
    intro he
    have hq := (hr q.char he).1
    rw [lookup_who] at hq
    cases hq
  exact chars_inj Who.char_inj (hno hs) (hno hs') h

theorem copy_ne_list {c : Class} {l : List Perm} {s s' : Str} (hs' : Stops s')
    (h : c.char :: s = l.map Perm.char ++ s') : False := by
  cases l with
  | nil =>
    have hc := (hs' c.char (by rw [← show c.char :: s = s' from h]; rfl)).1
    have hw := lookup_who (.one c)
    rw [Who.char, hc] at hw
    cases hw
  | cons p l =>
    have hp := (List.cons.inj h).1
    revert hp
    cases c <;> cases p <;> decide

theorem Action.render_inj {a a' : Action} {s s' : Str} (hs : Stops s) (hs' : Stops s')
    (h : a.render ++ s = a'.render ++ s') : a = a' ∧ s = s' := by
  obtain ⟨op, p⟩ := a
  obtain ⟨op', p'⟩ := a'
  obtain ⟨hop, hrest⟩ := List.cons.inj h
  obtain rfl := Op.char_inj hop
  cases p with
  | list l =>
    cases p' with
    | list l' =>
      obtain ⟨rfl, rfl⟩ := perms_inj hs hs' hrest
      exact ⟨rfl, rfl⟩
    | copy c => exact (copy_ne_list hs hrest.symm).elim
  | copy c =>
    cases p' with
    | list l' => exact (copy_ne_list hs' hrest).elim
    | copy c' =>
      obtain ⟨hc, rfl⟩ := List.cons.inj hrest
      obtain rfl := Class.char_inj hc
      exact ⟨rfl, rfl⟩

theorem stops_actions (l : List Action) {s : Str} (hs : AtEnd s) :
    Stops (l.flatMap Action.render ++ s) := by
  cases l with
  | nil => exact hs.stops
  | cons a l =>
    rw [List.flatMap_cons, List.append_assoc]
    exact a.stops _

theorem actions_inj {l l' : List Action} {s s' : Str} (hs : AtEnd s) (hs' : AtEnd s')
    (h : l.flatMap Action.render ++ s = l'.flatMap Action.render ++ s') : l = l' ∧ s = s' := by
  have hno {a : Action} {l : List Action} {r t : Str} (hr : AtEnd r)
      (he : r = (a :: l).flatMap Action.render ++ t) : False := by
    rcases hr with rfl | hr
    · cases he
    · rw [he] at hr
      exact (op_char_ne a.op).2.2 (Option.some.inj hr)
  induction l generalizing l' with
  | nil =>
    cases l' with
    | nil => exact ⟨rfl, h⟩
    | cons a l' => exact (hno hs h).elim
  | cons a l ih =>
    cases l' with
    | nil => exact (hno hs' h.symm).elim
    | cons b l' =>
      rw [List.flatMap_cons, List.flatMap_cons, List.append_assoc, List.append_assoc] at h
      obtain ⟨rfl, hrest⟩ :=
        Action.render_inj (stops_actions l hs) (stops_actions l' hs') h
      obtain ⟨rfl, hse⟩ := ih hrest
      exact ⟨rfl, hse⟩

theorem renderClause_inj {c c' : Option Clause} {s s' : Str} (hs : AtEnd s) (hs' : AtEnd s')
    (h : renderClause c ++ s = renderClause c' ++ s') : c = c' ∧ s = s' := by
  have hno {k : Clause} {r t : Str} (hr : AtEnd r) (he : r = k.render ++ t) : False := by
    obtain ⟨b, q, hbq, hb⟩ := k.render_ne t
    rw [hbq] at he
    rcases hr with rfl | hr
    · cases he
    · rw [he] at hr
      exact hb (Option.some.inj hr)
  cases c with
  | none =>
    cases c' with
    | none => exact ⟨rfl, h⟩
    | some c' => exact (hno hs h).elim
  | some c =>
    cases c' with
    | none => exact (hno hs' h.symm).elim
    | some c' =>
      obtain ⟨who, first, more⟩ := c
      obtain ⟨who', first', more'⟩ := c'
      simp only [renderClause, Clause.render, List.append_assoc] at h
      obtain ⟨rfl, hacts⟩ := who_inj (stops_actions _ hs) (stops_actions _ hs') h
      obtain ⟨hl, rfl⟩ := actions_inj hs hs' hacts
      obtain ⟨rfl, rfl⟩ := List.cons.inj hl
      exact ⟨rfl, rfl⟩

theorem renderMore_inj {l l' : List (Option Clause)} (h : renderMore l = renderMore l') :
    l = l' := by
  induction l generalizing l' with
  | nil =>
    cases l' with
    | nil => rfl
    | cons c l' => cases h
  | cons c l ih =>
    cases l' with
    | nil => cases h
    | cons c' l' =>
      have hrest : renderClause c ++ renderMore l = renderClause c' ++ renderMore l' :=
        (List.cons.inj h).2
      obtain ⟨rfl, ht⟩ := renderClause_inj (atEnd_renderMore l) (atEnd_renderMore l') hrest
      rw [ih ht]

/-- **A symbolic mode is determined by its string.** -/
theorem Symbolic.render_inj {m m' : Symbolic} (h : m.render = m'.render) : m = m' := by
  obtain ⟨first, more⟩ := m
  obtain ⟨first', more'⟩ := m'
  obtain ⟨rfl, ht⟩ := renderClause_inj (atEnd_renderMore more) (atEnd_renderMore more') h
  obtain rfl := renderMore_inj ht
  rfl

end Rustybox.Mode
