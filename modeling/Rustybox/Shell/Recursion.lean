import Mathlib.Data.Set.Card
import Mathlib.Data.Set.Finite.Lattice
import Rustybox.Shell.Stacks
import Rustybox.Shell.Effect

/-!
# Variables whose values name variables

The value of a variable is evaluated as an expression, and it may name variables in turn, the same
one again among them.  `arith_lookup_val` keeps the names that are being evaluated in
`list_of_recursed_names`: it looks through the list, pushes the name, evaluates, and pops it.  Here
the list is in the state, as it is in the source; `Rustybox.Shell.evaluateString` hands it down.
The buffers of the names on the list have been freed like all others.

`calls` is not part of the source: it records the list and the variables at every call of
`evaluate_string`.

* `settled_evaluateString`: where the memory keeps the names, the evaluation with the list is the one
  that hands it down, it ends, and it leaves the list as it was.
* `recursion_ends`: this for every finite environment, with the depth of the recursion.
* `recursion_unnoticed`: a name that is not found as it was written goes on the list again.

All strings that are evaluated and all names that are looked up come out of a finite set
(`Universe`): the pieces of the expression, of the values and of the numbers of 64 bits.  Every call
takes a name off it that is not yet on the list.
-/

namespace Rustybox.Shell

/-- A call of `evaluate_string`. -/
structure Call where
  names : List (List Char)
  vars : Vars

/-- `arith_state_t` with its `list_of_recursed_names`. -/
structure ListState where
  math : MathState
  names : List (List Char)
  calls : List Call

/-- A computation with the list in its state. -/
def Listed (α : Type) : Type := ListState → Except Stop α × ListState

instance : Monad Listed where
  pure a := fun s => (.ok a, s)
  bind x f := fun s =>
    match x s with
    | (.ok a, s) => f a s
    | (.error e, s) => (.error e, s)

namespace Listed

def lift {α : Type} (x : Eval α) : Listed α := fun s =>
  ((x s.math).1, { s with math := (x s.math).2 })

abbrev Evaluator := List Char → Listed (BitVec 64)

/-- A name is pushed for an evaluation, and popped, also behind an error. -/
def recursing {α : Type} (name : List Char) (x : Listed α) : Listed α := fun s =>
  let cur := s.names
  let (r, s) := x { s with names := name :: cur }
  (r, { s with names := cur })

/-- `list_of_recursed_names`. -/
def recursedNames : Listed (List (List Char)) := fun s => (.ok s.names, s)

def noteCall : Listed Unit := fun s =>
  (.ok (), { s with calls := ⟨s.names, s.math.vars⟩ :: s.calls })

section Functions

variable (ev : Evaluator)

def arithLookupVal (t : Num) : Listed Num :=
  match t.var with
  | none => pure t
  | some var => do
    let name ← lift (readName var)
    match ← lift (lookupvar name) with
    | none => pure { t with val := 0 }
    | some p => do
      let cur ← recursedNames
      if ← lift (seen var cur) then lift (Eval.fail .recursionLoop)
      else do
        let val ← recursing var (ev p)
        pure { t with val := val }

def lookupLeft (op : Op) (left : Num) : Listed Num :=
  if op = .assign then pure left else arithLookupVal ev left

def arithApply (op : Op) (nums : List Num) : Listed (List Num) :=
  match nums with
  | [] => lift (Eval.fail .syntaxError)
  | top :: rest => do
    let top ← arithLookupVal ev top
    match unaryValue op top.val with
    | some rez => do
      let n ← lift (store op top rez)
      pure (n :: rest)
    | none =>
      match rest with
      | [] => lift (Eval.fail .syntaxError)
      | left :: rest =>
        if decide (op = .conditional) = top.secondVal.isNone then
          lift (Eval.fail .malformedConditional)
        else do
          let left ← lookupLeft ev op left
          let n ← lift (applyBinary op left top rest)
          pure (n :: rest)

def applyLoop (op : Op) : List Op → List Num → Listed (Bool × List Op × List Num)
  | [], nums => pure (false, [], nums)
  | prev :: ops, nums =>
    if op = .rparen ∧ prev = .lparen then pure (true, ops, nums)
    else if op ≠ .rparen ∧ stays prev op then pure (false, prev :: ops, nums)
    else do
      let nums ← arithApply ev prev nums
      applyLoop op ops nums

def operatorStep (len : ℕ) (s : Scan) (op : Op) : Listed Scan :=
  let lasttok := if s.lasttok = .postInc ∨ s.lasttok = .postDec then .num else s.lasttok
  let op := if lasttok ≠ .num then asUnary op else op
  if isBinary op then
    if lasttok ≠ .num then lift (Eval.fail .syntaxError)
    else do
      let (closed, ops, nums) ← applyLoop ev op s.ops s.nums
      let s := { s with ops := ops, nums := nums, afterOperand := false }
      if closed then pure { s with lasttok := .num }
      else if op = .rparen then lift (Eval.fail .syntaxError)
      else lift (pushOp len s op)
  else lift (pushOp len s op)

def scanStep (len : ℕ) (s : Scan) : Listed (Scan ⊕ BitVec 64) :=
  let expr := skipWhitespace s.expr
  match expr with
  | [] =>
    if !s.ended then pure (.inl { s with expr := [')'], ended := true })
    else
      match s.nums with
      | [n] => do
        let n ← arithLookupVal ev n
        pure (.inr n.val)
      | _ => lift (Eval.fail .syntaxError)
  | c :: cs =>
    let glued := s.afterOperand && expr.length = s.expr.length
    if isNameStart c then do
      let s ← lift (pushNum len s glued { var := some (c :: cs.takeWhile isNameChar) }
        (cs.dropWhile isNameChar))
      pure (.inl s)
    else if isDigit c then do
      let s ← lift (pushNum len s glued { val := (strtoArith expr).1 } (strtoArith expr).2)
      pure (.inl s)
    else
      match readOp s expr with
      | none => lift (Eval.fail .syntaxError)
      | some (op, rest) => do
        let s ← operatorStep ev len { s with expr := rest } op
        pure (.inl s)

def scanLoop (len : ℕ) : ℕ → Scan → Listed (BitVec 64)
  | 0, _ => lift Eval.unfinished
  | n + 1, s => do
    match ← scanStep ev len s with
    | .inl s => scanLoop len n s
    | .inr val => pure val

end Functions

def evaluateString : ℕ → Evaluator
  | 0 => fun _ => lift Eval.unfinished
  | n + 1 => fun expr => do
    noteCall
    let start := skipWhitespace expr
    lift (note ⟨start.length, 0, 1, 0⟩)
    if start = [] then pure 0
    else scanLoop (evaluateString n) start.length n { expr := start }

/-- `arith`, which starts with an empty list. -/
def arith (fuel : ℕ) (env : Env) (expr : List Char) : Except Stop (BitVec 64) × ListState :=
  evaluateString fuel expr ⟨⟨env, []⟩, [], []⟩

/-! ### The strings of an evaluation -/

/-- A finite set of strings that an evaluation cannot leave: it has the pieces of its strings, the
numbers that are assigned, and the paren that closes an expression. -/
structure Universe (U : Set (List Char)) : Prop where
  finite : U.Finite
  piece : ∀ s ∈ U, ∀ t, t <:+: s → t ∈ U
  number : ∀ x : BitVec 64, (toString x.toInt).toList ∈ U
  paren : [')'] ∈ U

theorem exists_universe {S : Set (List Char)} (hS : S.Finite) : ∃ U, Universe U ∧ S ⊆ U := by
  have hpieces : ∀ s : List Char, {t | t <:+: s}.Finite := by
    intro s
    refine (s.sublists.finite_toSet).subset fun t ht => ?_
    exact List.mem_sublists.mpr (List.IsInfix.sublist ht)
  have hbits : Finite (BitVec 64) := .of_injective BitVec.toFin fun _ _ h => BitVec.toFin_inj.mp h
  have hnum : (Set.range fun x : BitVec 64 => (toString x.toInt).toList).Finite :=
    Set.finite_range _
  let T := S ∪ Set.range (fun x : BitVec 64 => (toString x.toInt).toList) ∪ {[')']}
  have hT : T.Finite := (hS.union hnum).union (Set.finite_singleton _)
  have hmem : ∀ s ∈ T, s ∈ ⋃ s ∈ T, {t | t <:+: s} :=
    fun s hs => Set.mem_biUnion hs (List.infix_refl s)
  refine ⟨⋃ s ∈ T, {t | t <:+: s}, ⟨hT.biUnion fun s _ => hpieces s, ?_, ?_, ?_⟩, ?_⟩
  · intro s hs t ht
    simp only [Set.mem_iUnion, Set.mem_ofPred_eq] at hs ⊢
    obtain ⟨u, hu, hsu⟩ := hs
    exact ⟨u, hu, ht.trans hsu⟩
  · exact fun x => hmem _ (.inl (.inr ⟨x, rfl⟩))
  · exact hmem _ (.inr rfl)
  · exact fun s hs => hmem s (.inl (.inl hs))

theorem Universe.exists_length_le {U : Set (List Char)} (hU : Universe U) :
    ∃ m, ∀ s ∈ U, s.length ≤ m := by
  obtain ⟨m, hm⟩ := (hU.finite.image List.length).bddAbove
  exact ⟨m, fun s hs => hm ⟨s, hs, rfl⟩⟩

theorem Universe.suffix {U : Set (List Char)} (hU : Universe U) {s t : List Char} (hs : s ∈ U)
    (h : t <:+ s) : t ∈ U := hU.piece s hs t h.isInfix

/-! ### Evaluations that end -/

/-- The names on the list are those it had at first, and different names of set variables. -/
def Pushed (base : List (List Char)) (vars : Vars) (names : List (List Char)) : Prop :=
  ∃ pushed, names = pushed ++ base ∧ pushed.Nodup ∧ ∀ x ∈ pushed, vars x ≠ none

/-- What holds as long as the evaluation runs. -/
structure Inv (U : Set (List Char)) (base : List (List Char)) (s : ListState) : Prop where
  kept : s.math.freed = Shell.kept
  vars_mem : ∀ x p, s.math.vars x = some p → x ∈ U ∧ p ∈ U
  pushed : Pushed base s.math.vars s.names
  calls : ∀ c ∈ s.calls, Pushed base c.vars c.names ∧ {x | c.vars x ≠ none}.Finite

/-- What a run has come to: its result is also that with more fuel and that of the evaluation that
hands the list down, the list is as it was, and `Q` holds of the value. -/
structure Outcome {α : Type} (U : Set (List Char)) (base names : List (List Char)) (Q : α → Prop)
    (r r' : Except Stop α × ListState) (e : Except Stop α × MathState) : Prop where
  more : r' = r
  result_eq : r.1 = e.1
  math_eq : r.2.math = e.2
  names_eq : r.2.names = names
  inv : Inv U base r.2
  done : r.1 ≠ .error .unfinished
  post : ∀ a, r.1 = .ok a → Q a

/-- A computation, the same with more fuel, and the one that hands the list down. -/
def Settled {α : Type} (U : Set (List Char)) (base names : List (List Char)) (x x' : Listed α)
    (y : Eval α) (Q : α → Prop) : Prop :=
  ∀ s, Inv U base s → s.names = names → Outcome U base names Q (x s) (x' s) (y s.math)

section Rules

variable {α β : Type} {U : Set (List Char)} {base names : List (List Char)} {Q : α → Prop}
  {R : β → Prop}

theorem bind_ok {x : Listed α} (f : α → Listed β) {s s' : ListState} {a : α}
    (h : x s = (.ok a, s')) : (x >>= f) s = f a s' := by
  simp only [Bind.bind, h]

theorem bind_error {x : Listed α} (f : α → Listed β) {s s' : ListState} {e : Stop}
    (h : x s = (.error e, s')) : (x >>= f) s = (.error e, s') := by
  simp only [Bind.bind, h]

theorem Settled.pure {a : α} (h : Q a) :
    Settled U base names (pure a) (pure a) (pure a) Q := by
  intro s hs hnames
  refine ⟨rfl, rfl, rfl, hnames, hs, ?_, ?_⟩
  · intro hun
    cases hun
  · intro b hb
    cases hb
    exact h

theorem Outcome.bind {x x' : Listed α} {y : Eval α} {f f' : α → Listed β} {g : α → Eval β}
    {s : ListState} (h : Outcome U base names Q (x s) (x' s) (y s.math))
    (hf : ∀ a, Q a → Settled U base names (f a) (f' a) (g a) R) :
    Outcome U base names R ((x >>= f) s) ((x' >>= f') s) ((y >>= g) s.math) := by
  obtain ⟨hmore, hresult, hmath, hkept, hinv, hdone, hpost⟩ := h
  cases hx : x s with
  | mk r u =>
    rw [hx] at hmore hresult hmath hkept hinv hdone hpost
    cases hy : y s.math with
    | mk r' m =>
      rw [hy] at hresult hmath
      dsimp only at hresult hmath hkept hinv hdone hpost
      subst hresult hmath
      cases r with
      | ok a =>
        rw [bind_ok f hx, bind_ok f' hmore, Eval.bind_ok hy]
        exact hf a (hpost a rfl) u hinv hkept
      | error e =>
        rw [bind_error f hx, bind_error f' hmore, Eval.bind_error hy]
        refine ⟨rfl, rfl, rfl, hkept, hinv, ?_, ?_⟩
        · intro hun
          cases hun
          exact hdone rfl
        · intro b hb
          cases hb

theorem Settled.bind {x x' : Listed α} {y : Eval α} {f f' : α → Listed β} {g : α → Eval β}
    (h : Settled U base names x x' y Q)
    (hf : ∀ a, Q a → Settled U base names (f a) (f' a) (g a) R) :
    Settled U base names (x >>= f) (x' >>= f') (y >>= g) R :=
  fun s hs hnames => (h s hs hnames).bind hf

/-- Behind a lookup the variable is known to have its value. -/
theorem Settled.lookupvar (name : List Char) {f f' : Option (List Char) → Listed α}
    {g : Option (List Char) → Eval α}
    (h : ∀ s, Inv U base s → s.names = names → Outcome U base names Q (f (s.math.vars name) s)
      (f' (s.math.vars name) s) (g (s.math.vars name) s.math)) :
    Settled U base names (Listed.lift (Shell.lookupvar name) >>= f)
      (Listed.lift (Shell.lookupvar name) >>= f') (Shell.lookupvar name >>= g) Q := h

theorem lift_bind (x : Eval α) (f : α → Eval β) :
    Listed.lift (x >>= f) = Listed.lift x >>= fun a => Listed.lift (f a) := by
  funext s
  cases hx : x s.math with
  | mk r m =>
    have hlift : Listed.lift x s = (r, { s with math := m }) := by rw [Listed.lift, hx]
    cases r with
    | ok a => rw [bind_ok _ hlift, Listed.lift, Eval.bind_ok hx, Listed.lift]
    | error e => rw [bind_error _ hlift, Listed.lift, Eval.bind_error hx]

theorem recursedNames_bind (f : List (List Char) → Listed α) (s : ListState) :
    (recursedNames >>= f) s = f s.names s := rfl

theorem readName_of_kept {st : MathState} (h : st.freed = kept) (name : List Char) :
    readName name st = (.ok name, st) := by
  obtain ⟨⟨vars, freed⟩, points⟩ := st
  obtain rfl : freed = kept := h
  rfl

theorem seen_of_kept {st : MathState} (h : st.freed = kept) (name : List Char)
    (names : List (List Char)) : seen name names st = (.ok (decide (name ∈ names)), st) := by
  induction names with
  | nil => rfl
  | cons cur names ih =>
    rw [seen, Eval.bind_ok (readName_of_kept h cur), Eval.bind_ok (readName_of_kept h name)]
    by_cases heq : cur = name
    · rw [if_pos heq, heq, decide_eq_true List.mem_cons_self]
      rfl
    · have hmem : name ∈ cur :: names ↔ name ∈ names := by
        rw [List.mem_cons, or_iff_right (Ne.symm heq)]
      rw [if_neg heq, ih, decide_eq_decide.mpr hmem]

theorem Settled.readName (name : List Char) {f f' : List Char → Listed α} {g : List Char → Eval α}
    (h : Settled U base names (f name) (f' name) (g name) Q) :
    Settled U base names (Listed.lift (Shell.readName name) >>= f)
      (Listed.lift (Shell.readName name) >>= f') (Shell.readName name >>= g) Q := by
  intro s hs hnames
  have hread := readName_of_kept hs.kept name
  have hlift : Listed.lift (Shell.readName name) s = (.ok name, s) := by rw [Listed.lift, hread]
  rw [bind_ok f hlift, bind_ok f' hlift, Eval.bind_ok hread]
  exact h s hs hnames

/-- A computation that neither assigns nor runs out of fuel. -/
theorem Settled.lift {y : Eval α} (henv : ∀ st, (y st).2.toEnv = st.toEnv)
    (hdone : ∀ st, (y st).1 ≠ .error .unfinished) (hpost : ∀ st a, (y st).1 = .ok a → Q a) :
    Settled U base names (lift y) (lift y) y Q := by
  intro s hs hnames
  have hsame : (y s.math).2.vars = s.math.vars := congrArg Env.vars (henv s.math)
  refine ⟨rfl, rfl, rfl, hnames, ⟨?_, ?_, ?_, hs.calls⟩, hdone _, hpost _⟩
  · exact (congrArg Env.freed (henv s.math)).trans hs.kept
  · intro x p hp
    exact hs.vars_mem x p (hsame ▸ hp)
  · show Pushed base (y s.math).2.vars s.names
    rw [hsame]
    exact hs.pushed

theorem Settled.fail (e : Err) :
    Settled U base names (Listed.lift (Eval.fail e)) (Listed.lift (Eval.fail e))
      (Eval.fail e : Eval α) Q := by
  refine Settled.lift (fun st => rfl) (fun st hun => ?_) fun st a ha => ?_
  · cases hun
  · cases ha

theorem Settled.setvar {name value : List Char} (hname : name ∈ U) (hvalue : value ∈ U) :
    Settled U base names (Listed.lift (setvar name value)) (Listed.lift (setvar name value))
      (setvar name value) fun _ => True := by
  intro s hs hnames
  refine ⟨rfl, rfl, rfl, hnames, ⟨hs.kept, ?_, ?_, hs.calls⟩, ?_, fun _ _ => trivial⟩
  · intro x p hp
    change (if x = name then some value else s.math.vars x) = some p at hp
    split at hp
    · next hx =>
      rw [← Option.some.inj hp, hx]
      exact ⟨hname, hvalue⟩
    · exact hs.vars_mem x p hp
  · obtain ⟨pushed, hsplit, hnodup, hset⟩ := hs.pushed
    refine ⟨pushed, hsplit, hnodup, fun x hx => ?_⟩
    change (if x = name then some value else s.math.vars x) ≠ none
    split
    · exact Option.some_ne_none value
    · exact hset x hx
  · intro hun
    cases hun

theorem Settled.noteCall (hU : U.Finite) {y : Eval α} {x x' : Listed α}
    (h : Settled U base names x x' y Q) :
    Settled U base names (Listed.noteCall >>= fun _ => x) (Listed.noteCall >>= fun _ => x') y Q := by
  intro s hs hnames
  have hone : Listed.noteCall s =
      (.ok (), { s with calls := ⟨s.names, s.math.vars⟩ :: s.calls }) := rfl
  rw [bind_ok _ hone, bind_ok _ hone]
  refine h _ ⟨hs.kept, hs.vars_mem, hs.pushed, ?_⟩ hnames
  intro c hc
  rcases List.mem_cons.mp hc with rfl | hc
  · refine ⟨hs.pushed, hU.subset fun x hx => ?_⟩
    obtain ⟨p, hp⟩ := Option.ne_none_iff_exists'.mp hx
    exact (hs.vars_mem x p hp).1
  · exact hs.calls c hc

/-- A name is on the list while its value is evaluated, and off it again behind. -/
theorem Settled.recursing {name : List Char} (hname : name ∉ names) {x x' : Listed α} {y : Eval α}
    (h : Settled U base (name :: names) x x' y Q) :
    ∀ s, Inv U base s → s.names = names → s.math.vars name ≠ none →
      Outcome U base names Q (Listed.recursing name x s) (Listed.recursing name x' s)
        (y s.math) := by
  intro s hs hnames hset
  obtain ⟨pushed, hsplit, hnodup, hall⟩ := hs.pushed
  have hnew : Pushed base s.math.vars (name :: s.names) := by
    refine ⟨name :: pushed, by rw [hsplit, List.cons_append], ?_, ?_⟩
    · refine List.nodup_cons.mpr ⟨fun hmem => hname ?_, hnodup⟩
      rw [← hnames, hsplit]
      exact List.mem_append_left _ hmem
    · intro z hz
      rcases List.mem_cons.mp hz with rfl | hz
      · exact hset
      · exact hall z hz
  have hrun := h { s with names := name :: s.names } ⟨hs.kept, hs.vars_mem, hnew, hs.calls⟩
    (by rw [hnames])
  obtain ⟨hmore, hresult, hmath, hkept, hinv, hdone, hpost⟩ := hrun
  have hout : Listed.recursing name x s = ((x { s with names := name :: s.names }).1,
      { (x { s with names := name :: s.names }).2 with names := s.names }) := rfl
  have hout' : Listed.recursing name x' s = ((x' { s with names := name :: s.names }).1,
      { (x' { s with names := name :: s.names }).2 with names := s.names }) := rfl
  rw [hout, hout', hmore]
  refine ⟨rfl, hresult, hmath, hnames, ⟨hinv.kept, hinv.vars_mem, ?_, hinv.calls⟩, hdone, hpost⟩
  -- the list below the name is as it was, its names are set still
  obtain ⟨pushed', hsplit', hnodup', hall'⟩ := hinv.pushed
  rw [hkept, ← hnames, hsplit, ← List.cons_append] at hsplit'
  have heq := List.append_cancel_right hsplit'
  refine ⟨pushed, hsplit, hnodup, fun z hz => hall' z ?_⟩
  rw [← heq]
  exact List.mem_cons_of_mem _ hz

end Rules

/-! ### What a token leaves of the string -/

theorem suffix_of_matchToken {table : List (List Char × Op)} {expr rest : List Char} {op : Op}
    (h : matchToken table expr = some (op, rest)) : rest <:+ expr := by
  induction table with
  | nil => cases h
  | cons t table ih =>
    obtain ⟨text, o⟩ := t
    rw [matchToken] at h
    split at h
    · cases h
      exact List.drop_suffix _ _
    · exact ih h

theorem suffix_of_readOp {s : Scan} {expr rest : List Char} {op : Op}
    (h : readOp s expr = some (op, rest)) : rest <:+ expr := by
  rw [readOp.eq_def] at h
  split at h
  · split at h
    · cases h
      exact List.suffix_cons _ _
    · exact suffix_of_matchToken h
  · split at h
    · cases h
      exact List.suffix_cons _ _
    · exact suffix_of_matchToken h
  · exact suffix_of_matchToken h

theorem suffix_readDigits (base n : ℕ) (s : List Char) : (readDigits base n s).2 <:+ s := by
  induction s generalizing n with
  | nil => exact List.suffix_refl _
  | cons c s ih =>
    rw [readDigits]
    split
    · exact (ih _).trans (List.suffix_cons _ _)
    · exact List.suffix_refl _

theorem suffix_readBaseDigits (base : ℕ) (n : BitVec 64) (s : List Char) :
    (readBaseDigits base n s).2 <:+ s := by
  induction s generalizing n with
  | nil => exact List.suffix_refl _
  | cons c s ih =>
    rw [readBaseDigits]
    split
    · exact List.suffix_refl _
    · exact (ih _).trans (List.suffix_cons _ _)

theorem suffix_strtoull (s : List Char) : (strtoull s).2 <:+ s := by
  rw [strtoull.eq_def]
  split
  · split
    · exact (suffix_readDigits _ _ _).trans ⟨['0', _], rfl⟩
    · exact suffix_readDigits _ _ _
  · exact suffix_readDigits _ _ _
  · exact suffix_readDigits _ _ _

theorem suffix_strtoArith (s : List Char) : (strtoArith s).2 <:+ s := by
  have hs := suffix_strtoull s
  unfold strtoArith
  dsimp only
  split
  · exact hs
  split
  · next digits _ hr =>
    rw [hr] at hs
    split
    · exact (suffix_readBaseDigits _ _ _).trans ((List.suffix_cons _ _).trans hs)
    · rw [hr]
      exact hs
  · exact hs

/-! ### The functions of the evaluation -/

/-- The entry's name is in the universe. -/
def NumIn (U : Set (List Char)) (t : Num) : Prop := ∀ name, t.var = some name → name ∈ U

/-- What is left of the string is in the universe, and so are the names on the number stack. -/
structure ScanIn (U : Set (List Char)) (s : Scan) : Prop where
  expr : s.expr ∈ U
  nums : ∀ n ∈ s.nums, NumIn U n

/-- The turns that the loop can still take. -/
def turns (s : Scan) : ℕ := if s.ended then s.expr.length + 1 else s.expr.length + 3

section Steps

variable {U : Set (List Char)} (hU : Universe U) {base names : List (List Char)}

theorem numIn_of_none {t : Num} (h : t.var = none) : NumIn U t := by
  intro name hname
  rw [h] at hname
  cases hname

include hU in
theorem settled_store (op : Op) {top : Num} (htop : NumIn U top) (rez : BitVec 64) :
    Settled U base names (lift (store op top rez)) (lift (store op top rez)) (store op top rez)
      (NumIn U) := by
  rw [store]
  by_cases hassign : isAssignOp op = true
  · rw [if_pos hassign]
    cases hvar : top.var with
    | none => exact .fail _
    | some name =>
      dsimp only
      rw [lift_bind]
      refine Settled.readName name ?_
      exact (Settled.setvar (htop name hvar) (hU.number rez)).bind fun _ _ =>
        Settled.pure (a := ({ top with
          val := if op = .postInc then rez - 1 else if op = .postDec then rez + 1 else rez
          var := none } : Num)) (Q := NumIn U) (numIn_of_none rfl)
  · rw [if_neg hassign]
    exact .pure (numIn_of_none rfl)

include hU in
theorem settled_applyBinary (op : Op) {left : Num} (hleft : NumIn U left) (right : Num)
    (below : List Num) :
    Settled U base names (lift (applyBinary op left right below))
      (lift (applyBinary op left right below)) (applyBinary op left right below) (NumIn U) := by
  rw [applyBinary.eq_def]
  split
  · exact settled_store hU _ hleft _
  · split
    · exact .fail _
    · have htop : NumIn U { left with secondVal := some right.val } := hleft
      exact settled_store hU _ htop _
  · split
    · exact .fail _
    · exact settled_store hU _ hleft _

/-- A turn of the loop stays in the universe and leaves fewer turns to do. -/
structure TurnOk (U : Set (List Char)) (s s' : Scan) : Prop where
  scan : ScanIn U s'
  turns_lt : turns s' < turns s

theorem TurnOk.of_read {s s' : Scan} (hended : s'.ended = s.ended) (hexpr : s'.expr ∈ U)
    (hlt : s'.expr.length < s.expr.length) (hnums : ∀ n ∈ s'.nums, NumIn U n) : TurnOk U s s' := by
  refine ⟨⟨hexpr, hnums⟩, ?_⟩
  rw [turns, turns, hended]
  split
  · omega
  · omega

section Evaluations

variable {ev ev' : Evaluator} {evy : Shell.Evaluator}
  (hev : ∀ name p, name ∈ U → p ∈ U → name ∉ names →
    Settled U base (name :: names) (ev p) (ev' p) (evy (name :: names) p) fun _ => True)

include hev

theorem settled_arithLookupVal {t : Num} (ht : NumIn U t) :
    Settled U base names (arithLookupVal ev t) (arithLookupVal ev' t)
      (Shell.arithLookupVal evy names t) (NumIn U) := by
  rw [arithLookupVal, arithLookupVal, Shell.arithLookupVal]
  cases hvar : t.var with
  | none => exact .pure ht
  | some name =>
    have hin : ∀ val, NumIn U { t with var := some name, val := val } :=
      fun val z hz => ht z (hvar.trans hz)
    refine Settled.readName name (Settled.lookupvar name fun s hs hnames => ?_)
    cases hp : s.math.vars name with
    | none => exact Settled.pure (hin 0) s hs hnames
    | some p =>
      have hread := seen_of_kept hs.kept name names
      have hseen : lift (seen name names) s = (.ok (decide (name ∈ names)), s) := by
        rw [lift, hread]
      dsimp only
      rw [recursedNames_bind, recursedNames_bind, hnames, bind_ok _ hseen, bind_ok _ hseen,
        Eval.bind_ok hread]
      obtain ⟨hname, hvalue⟩ := hs.vars_mem name p hp
      by_cases hmem : name ∈ names
      · rw [decide_eq_true hmem]
        exact Settled.fail _ s hs hnames
      · rw [decide_eq_false hmem]
        have hset : s.math.vars name ≠ none := by
          rw [hp]
          exact Option.some_ne_none p
        refine (Settled.recursing hmem (hev name p hname hvalue hmem) s hs hnames hset).bind ?_
        exact fun val _ => .pure (hin val)

theorem settled_lookupLeft (op : Op) {left : Num} (hleft : NumIn U left) :
    Settled U base names (lookupLeft ev op left) (lookupLeft ev' op left)
      (Shell.lookupLeft evy names op left) (NumIn U) := by
  rw [lookupLeft, lookupLeft, Shell.lookupLeft]
  by_cases hop : op = .assign
  · rw [if_pos hop, if_pos hop, if_pos hop]
    exact .pure hleft
  · rw [if_neg hop, if_neg hop, if_neg hop]
    exact settled_arithLookupVal hev hleft

include hU in
theorem settled_arithApply (op : Op) {nums : List Num} (hnums : ∀ n ∈ nums, NumIn U n) :
    Settled U base names (arithApply ev op nums) (arithApply ev' op nums)
      (Shell.arithApply evy names op nums) fun nums => ∀ n ∈ nums, NumIn U n := by
  have hcons : ∀ {n : Num} {rest : List Num}, NumIn U n → (∀ n ∈ rest, NumIn U n) →
      ∀ m ∈ n :: rest, NumIn U m := fun hn hrest => List.forall_mem_cons.mpr ⟨hn, hrest⟩
  cases nums with
  | nil => exact .fail _
  | cons top rest =>
    obtain ⟨htop, hrest⟩ := List.forall_mem_cons.mp hnums
    refine (settled_arithLookupVal hev htop).bind fun top htop => ?_
    cases unaryValue op top.val with
    | some rez => exact (settled_store hU op htop rez).bind fun n hn => .pure (hcons hn hrest)
    | none =>
      cases rest with
      | nil => exact .fail _
      | cons left rest =>
        obtain ⟨hleft, hrest⟩ := List.forall_mem_cons.mp hrest
        dsimp only
        by_cases hbad : decide (op = .conditional) = top.secondVal.isNone
        · rw [if_pos hbad, if_pos hbad, if_pos hbad]
          exact .fail _
        · rw [if_neg hbad, if_neg hbad, if_neg hbad]
          refine (settled_lookupLeft hev op hleft).bind fun left hleft => ?_
          exact (settled_applyBinary hU op hleft top rest).bind fun n hn => .pure (hcons hn hrest)

include hU in
theorem settled_applyLoop (op : Op) (ops : List Op) {nums : List Num}
    (hnums : ∀ n ∈ nums, NumIn U n) :
    Settled U base names (applyLoop ev op ops nums) (applyLoop ev' op ops nums)
      (Shell.applyLoop evy names op ops nums) fun r => ∀ n ∈ r.2.2, NumIn U n := by
  induction ops generalizing nums with
  | nil => exact .pure hnums
  | cons prev ops ih =>
    rw [applyLoop, applyLoop, Shell.applyLoop]
    by_cases hparen : op = .rparen ∧ prev = .lparen
    · rw [if_pos hparen, if_pos hparen, if_pos hparen]
      exact .pure hnums
    · rw [if_neg hparen, if_neg hparen, if_neg hparen]
      by_cases hstays : op ≠ .rparen ∧ stays prev op
      · rw [if_pos hstays, if_pos hstays, if_pos hstays]
        exact .pure hnums
      · rw [if_neg hstays, if_neg hstays, if_neg hstays]
        exact (settled_arithApply hU hev prev hnums).bind fun nums hnums => ih hnums

omit hev in
theorem settled_pushOp (len : ℕ) (s : Scan) (op : Op) {Q : Scan → Prop}
    (h : Q { s with ops := op :: s.ops, lasttok := op, afterOperand := false }) :
    Settled U base names (lift (pushOp len s op)) (lift (pushOp len s op)) (pushOp len s op) Q := by
  refine .lift (fun st => rfl) (fun st hun => ?_) fun st a ha => ?_
  · cases hun
  · cases ha
    exact h

omit hev in
theorem settled_pushNum (len : ℕ) (s : Scan) (glued : Bool) (n : Num) (rest : List Char)
    {Q : Scan → Prop}
    (h : Q { s with
      expr := rest, nums := n :: s.nums, lasttok := .num, afterOperand := true,
      glued := if glued then s.glued + 1 else s.glued }) :
    Settled U base names (lift (pushNum len s glued n rest)) (lift (pushNum len s glued n rest))
      (pushNum len s glued n rest) Q := by
  refine .lift (fun st => rfl) (fun st hun => ?_) fun st a ha => ?_
  · cases hun
  · cases ha
    exact h

include hU in
theorem settled_operatorStep (len : ℕ) {s : Scan} (hs : ScanIn U s) (op : Op) :
    Settled U base names (operatorStep ev len s op) (operatorStep ev' len s op)
      (Shell.operatorStep evy names len s op) fun s' =>
        s'.expr = s.expr ∧ s'.ended = s.ended ∧ ∀ n ∈ s'.nums, NumIn U n := by
  rw [operatorStep, operatorStep, Shell.operatorStep]
  generalize (if s.lasttok = .postInc ∨ s.lasttok = .postDec then Op.num else s.lasttok) = lasttok
  generalize (if lasttok ≠ .num then asUnary op else op) = op
  dsimp only
  by_cases hbinary : isBinary op = true
  · rw [if_pos hbinary, if_pos hbinary, if_pos hbinary]
    by_cases hnum : lasttok ≠ .num
    · rw [if_pos hnum, if_pos hnum, if_pos hnum]
      exact .fail _
    · rw [if_neg hnum, if_neg hnum, if_neg hnum]
      refine (settled_applyLoop hU hev op s.ops hs.nums).bind fun r hr => ?_
      obtain ⟨closed, ops, nums⟩ := r
      cases closed with
      | true => exact .pure ⟨rfl, rfl, hr⟩
      | false =>
        dsimp only
        by_cases hparen : op = .rparen
        · rw [if_pos hparen, if_pos hparen]
          exact .fail _
        · rw [if_neg hparen, if_neg hparen]
          exact settled_pushOp len _ op ⟨rfl, rfl, hr⟩
  · rw [if_neg hbinary, if_neg hbinary, if_neg hbinary]
    exact settled_pushOp len s op ⟨rfl, rfl, hs.nums⟩

include hU in
theorem settled_scanStep (len : ℕ) {s : Scan} (hs : ScanIn U s) :
    Settled U base names (scanStep ev len s) (scanStep ev' len s)
      (Shell.scanStep evy names len s) fun r => ∀ s', r = .inl s' → TurnOk U s s' := by
  have hon : ∀ {s' : Scan}, TurnOk U s s' →
      Settled U base names (pure (.inl s')) (pure (.inl s')) (pure (.inl s'))
        fun r : Scan ⊕ BitVec 64 => ∀ s', r = .inl s' → TurnOk U s s' := by
    intro s' h
    refine .pure fun t ht => ?_
    cases ht
    exact h
  have hsuffix : skipWhitespace s.expr <:+ s.expr := List.dropWhile_suffix _
  have hle := hsuffix.length_le
  have hin := hU.suffix hs.expr hsuffix
  rw [scanStep, scanStep, Shell.scanStep]
  dsimp only
  cases hexpr : skipWhitespace s.expr with
  | nil =>
    dsimp only
    cases hended : s.ended with
    | false =>
      refine hon ⟨⟨hU.paren, hs.nums⟩, ?_⟩
      rw [turns, turns, hended]
      exact Nat.lt_add_left _ (Nat.lt_succ_self 2)
    | true =>
      cases hnums : s.nums with
      | nil => exact .fail _
      | cons n rest =>
        cases rest with
        | nil =>
          have hn : NumIn U n := hs.nums n (by rw [hnums]; exact List.mem_cons_self)
          refine (settled_arithLookupVal hev hn).bind fun n _ => .pure fun t ht => ?_
          cases ht
        | cons n' rest => exact .fail _
  | cons c cs =>
    rw [hexpr] at hle hin
    -- a token takes a character off the string
    have hread : ∀ {s' : Scan} {rest : List Char}, rest <:+ c :: cs →
        rest.length < (c :: cs).length → s'.expr = rest → s'.ended = s.ended →
        (∀ n ∈ s'.nums, NumIn U n) → TurnOk U s s' := by
      intro s' rest hrest hlt he hended hnums
      rw [← he] at hrest hlt
      exact .of_read hended (hU.suffix hin hrest) (hlt.trans_le hle) hnums
    dsimp only
    cases isNameStart c with
    | true =>
      have hname : c :: cs.takeWhile isNameChar ∈ U :=
        hU.piece _ hin _ (List.prefix_cons_inj c |>.mpr (List.takeWhile_prefix _)).isInfix
      have hdrop : cs.dropWhile isNameChar <:+ cs := List.dropWhile_suffix _
      refine (settled_pushNum len s _ _ _ (hread (hdrop.trans (List.suffix_cons _ _))
        (Nat.lt_succ_of_le hdrop.length_le) rfl rfl ?_)).bind fun s' h => hon h
      refine List.forall_mem_cons.mpr ⟨fun z hz => ?_, hs.nums⟩
      rw [← Option.some.inj hz]
      exact hname
    | false =>
      cases hdigit : isDigit c with
      | true =>
        refine (settled_pushNum len s _ _ _ (hread (suffix_strtoArith _)
          (length_strtoArith_lt hdigit cs) rfl rfl ?_)).bind fun s' h => hon h
        exact List.forall_mem_cons.mpr ⟨numIn_of_none rfl, hs.nums⟩
      | false =>
        cases hop : readOp s (c :: cs) with
        | none => exact .fail _
        | some r =>
          obtain ⟨op, rest⟩ := r
          have hsuf := suffix_of_readOp hop
          refine (settled_operatorStep hU hev len (s := { s with expr := rest })
            ⟨hU.suffix hin hsuf, hs.nums⟩ op).bind fun s' h => hon ?_
          exact hread hsuf (length_of_readOp hop) h.1 h.2.1 h.2.2

include hU in
/-- With a turn for each character and three for the end, the loop ends. -/
theorem settled_scanLoop (len : ℕ) {n m : ℕ} {s : Scan} (hs : ScanIn U s) (hn : turns s ≤ n)
    (hm : n ≤ m) :
    Settled U base names (scanLoop ev len n s) (scanLoop ev' len m s)
      (Shell.scanLoop evy names len n s) fun _ => True := by
  induction n generalizing m s with
  | zero =>
    rw [turns] at hn
    split at hn
    · omega
    · omega
  | succ n ih =>
    obtain ⟨m, rfl⟩ : ∃ m', m = m' + 1 := ⟨m - 1, by omega⟩
    refine (settled_scanStep hU hev len hs).bind fun r hr => ?_
    cases r with
    | inl s' =>
      obtain ⟨hs', hlt⟩ := hr s' rfl
      exact ih hs' (by omega) (by omega)
    | inr val => exact .pure trivial

end Evaluations

end Steps

/-- **The evaluation ends**, with fuel for the names that are not on the list and for the turns of
one loop. -/
theorem settled_evaluateString {U : Finset (List Char)} (hU : Universe (U : Set (List Char)))
    {len : ℕ} (hlen : ∀ s ∈ U, s.length ≤ len) (base : List (List Char)) {n m : ℕ}
    {names : List (List Char)} {expr : List Char} (hexpr : expr ∈ U)
    (hn : (U \ names.toFinset).card + len + 4 ≤ n) (hm : n ≤ m) :
    Settled U base names (evaluateString n expr) (evaluateString m expr)
      (Shell.evaluateString n names expr) fun _ => True := by
  induction n generalizing names expr m with
  | zero => omega
  | succ n ih =>
    obtain ⟨m, rfl⟩ : ∃ m', m = m' + 1 := ⟨m - 1, by omega⟩
    refine Settled.noteCall hU.finite ?_
    have hnote : Settled (U : Set (List Char)) base names
        (lift (note ⟨(skipWhitespace expr).length, 0, 1, 0⟩))
        (lift (note ⟨(skipWhitespace expr).length, 0, 1, 0⟩))
        (note ⟨(skipWhitespace expr).length, 0, 1, 0⟩) fun _ => True := by
      refine .lift (fun st => rfl) (fun st hun => ?_) fun st a ha => trivial
      cases hun
    refine hnote.bind fun _ _ => ?_
    have hstart : skipWhitespace expr ∈ (U : Set (List Char)) :=
      hU.suffix hexpr (List.dropWhile_suffix _)
    by_cases hempty : skipWhitespace expr = []
    · rw [if_pos hempty, if_pos hempty, if_pos hempty]
      exact .pure trivial
    · rw [if_neg hempty, if_neg hempty, if_neg hempty]
      refine settled_scanLoop hU ?_ _ (s := { expr := skipWhitespace expr })
        ⟨hstart, fun n hn => absurd hn List.not_mem_nil⟩ ?_ (by omega)
      · -- one name less is not on the list
        intro name p hname hp hnot
        have hfewer : (U \ (name :: names).toFinset).card < (U \ names.toFinset).card := by
          refine Finset.card_lt_card (Finset.ssubset_iff_of_subset ?_ |>.mpr ⟨name, ?_, ?_⟩)
          · intro z hz
            rw [Finset.mem_sdiff, List.mem_toFinset] at hz ⊢
            exact ⟨hz.1, fun h => hz.2 (List.mem_cons_of_mem _ h)⟩
          · rw [Finset.mem_sdiff, List.mem_toFinset]
            exact ⟨hname, hnot⟩
          · rw [Finset.mem_sdiff, List.mem_toFinset]
            exact fun h => h.2 List.mem_cons_self
        exact ih hp (by omega) (by omega)
      · have hle := hlen _ hstart
        show (skipWhitespace expr).length + 3 ≤ n
        omega

/-- A name that is being evaluated is not evaluated again. -/
theorem arithLookupVal_loop (ev : Evaluator) {t : Num} {name : List Char} (ht : t.var = some name)
    {s : ListState} (hkept : s.math.freed = kept) (hmem : name ∈ s.names)
    (hset : s.math.vars name ≠ none) :
    arithLookupVal ev t s = (.error (.error .recursionLoop), s) := by
  obtain ⟨p, hp⟩ := Option.ne_none_iff_exists'.mp hset
  have hname : lift (readName name) s = (.ok name, s) := by
    rw [lift, readName_of_kept hkept]
  have hseen : lift (seen name s.names) s = (.ok true, s) := by
    rw [lift, seen_of_kept hkept, decide_eq_true hmem]
  have hlookup : lift (lookupvar name) s = (.ok (some p), s) := by
    rw [← hp]
    rfl
  rw [arithLookupVal, ht]
  dsimp only
  rw [bind_ok _ hname, bind_ok _ hlookup]
  dsimp only
  rw [recursedNames_bind, bind_ok _ hseen]
  rfl

/-- The depth of the recursion, in names that have been pushed. -/
theorem Pushed.length_le {base names : List (List Char)} {vars : Vars}
    (h : Pushed base vars names) (hvars : {x | vars x ≠ none}.Finite) :
    names.length ≤ base.length + {x | vars x ≠ none}.ncard := by
  obtain ⟨pushed, rfl, hnodup, hset⟩ := h
  have hsub : (pushed.toFinset : Set (List Char)) ⊆ {x | vars x ≠ none} :=
    fun x hx => hset x (List.mem_toFinset.mp hx)
  have hcard := Set.ncard_le_ncard hsub hvars
  rw [Set.ncard_coe_finset, List.toFinset_card_of_nodup hnodup] at hcard
  rw [List.length_append]
  omega

theorem exists_settled {vars : Vars} (hvars : {x | vars x ≠ none}.Finite)
    (names : List (List Char)) (expr : List Char) :
    ∃ (U : Set (List Char)) (n : ℕ), (∀ x p, vars x = some p → x ∈ U ∧ p ∈ U) ∧
      ∀ m ≥ n, ∀ fuel ≥ m, Settled U names names (evaluateString m expr) (evaluateString fuel expr)
        (Shell.evaluateString m names expr) fun _ => True := by
  have hvalues : ((fun x => (vars x).getD []) '' {x | vars x ≠ none}).Finite := hvars.image _
  obtain ⟨U, hU, hsub⟩ := exists_universe
    ((hvars.union hvalues).union (Set.finite_singleton expr))
  obtain ⟨len, hlen⟩ := hU.exists_length_le
  obtain ⟨V, rfl⟩ := hU.finite.exists_finset_coe
  refine ⟨V, _, fun x p hp => ?_, fun m hm fuel hfuel =>
    settled_evaluateString hU hlen names (hsub (.inr rfl)) hm hfuel⟩
  have hset : vars x ≠ none := by
    rw [hp]
    exact Option.some_ne_none p
  refine ⟨hsub (.inl (.inl hset)), hsub (.inl (.inr ⟨x, hset, ?_⟩))⟩
  dsimp only
  rw [hp, Option.getD_some]

theorem inv_start {U : Set (List Char)} {math : MathState} (hkept : math.freed = kept)
    (h : ∀ x p, math.vars x = some p → x ∈ U ∧ p ∈ U) (names : List (List Char)) :
    Inv U names ⟨math, names, []⟩ :=
  ⟨hkept, h, ⟨[], rfl, List.nodup_nil, fun _ hx => absurd hx List.not_mem_nil⟩,
    fun _ hc => absurd hc List.not_mem_nil⟩

/-- With enough fuel the evaluation returns, `list_of_recursed_names` is as it was, and at each call
it has at most as many names more as variables are set. -/
def Ends (math : MathState) (names : List (List Char)) (expr : List Char) : Prop :=
  ∃ n r s, (∀ fuel ≥ n, evaluateString fuel expr ⟨math, names, []⟩ = (r, s)) ∧
    r ≠ .error .unfinished ∧ s.names = names ∧
    ∀ c ∈ s.calls, {x | c.vars x ≠ none}.Finite ∧
      c.names.length ≤ names.length + {x | c.vars x ≠ none}.ncard

/-- **Recursive variables do not hang the shell** as long as every name is found as it was written.
In a finite environment every expression is evaluated to the end, whatever names are being evaluated
already; a name on the list is the error `expression recursion loop detected`; and to hand the list
down comes to the same. -/
theorem recursion_ends {math : MathState} (hvars : {x | math.vars x ≠ none}.Finite)
    (hkept : ∀ k name, math.freed k name = name) (names : List (List Char)) (expr : List Char) :
    Ends math names expr ∧
      (∃ n, ∀ fuel ≥ n, Shell.evaluateString fuel names expr math =
        ((evaluateString fuel expr ⟨math, names, []⟩).1,
          (evaluateString fuel expr ⟨math, names, []⟩).2.math)) ∧
      ∀ (fuel : ℕ) (t : Num) (name : List Char) (s : ListState), t.var = some name →
        (∀ k name, s.math.freed k name = name) → name ∈ s.names → s.math.vars name ≠ none →
        arithLookupVal (evaluateString fuel) t s = (.error (.error .recursionLoop), s) := by
  have hkept' : math.freed = kept := funext fun k => funext fun name => hkept k name
  obtain ⟨U, n, hU, hsettled⟩ := exists_settled hvars names expr
  have hinv := inv_start hkept' hU names
  refine ⟨?_, ⟨n, fun fuel hfuel => ?_⟩, fun fuel t name s ht hs hmem hset => ?_⟩
  · have hrun := hsettled n (Nat.le_refl n) n (Nat.le_refl n) _ hinv rfl
    refine ⟨n, (evaluateString n expr ⟨math, names, []⟩).1,
      (evaluateString n expr ⟨math, names, []⟩).2, fun fuel hfuel => ?_, hrun.done, hrun.names_eq,
      fun c hc => ?_⟩
    · exact (hsettled n (Nat.le_refl n) fuel hfuel _ hinv rfl).more
    · obtain ⟨hpushed, hfinite⟩ := hrun.inv.calls c hc
      exact ⟨hfinite, hpushed.length_le hfinite⟩
  · have hrun := hsettled fuel hfuel fuel (Nat.le_refl fuel) _ hinv rfl
    exact Prod.ext hrun.result_eq.symm hrun.math_eq.symm
  · have hs' : s.math.freed = kept := funext fun k => funext fun name => hs k name
    exact arithLookupVal_loop _ ht hs' hmem hset

/-- `a=b`, `b=a`, and `c` assigns. -/
def cyclicVars : Vars := fun x =>
  if x = ['a'] then some ['b'] else if x = ['b'] then some ['a']
  else if x = ['c'] then some ['d', '=', '1'] else none

theorem cyclicVars_finite : {x | cyclicVars x ≠ none}.Finite := by
  refine (Set.toFinite {['a'], ['b'], ['c']}).subset fun x hx => ?_
  by_contra hnot
  simp only [Set.mem_insert_iff, Set.mem_singleton_iff, not_or] at hnot
  refine hx ?_
  rw [cyclicVars, if_neg hnot.1, if_neg hnot.2.1, if_neg hnot.2.2]

theorem recursion_ends_cyclic : Ends ⟨⟨cyclicVars, kept⟩, []⟩ [] ['a'] :=
  (@recursion_ends ⟨⟨cyclicVars, kept⟩, []⟩ cyclicVars_finite (fun _ _ => rfl) [] ['a']).1

example : (arith 9 ⟨cyclicVars, kept⟩ ['a']).1 = .error (.error .recursionLoop) := by
  decide +kernel

/-- `a=a`. -/
def selfVars : Vars := fun x => if x = ['a'] then some ['a'] else none

theorem ncard_selfVars : {x | selfVars x ≠ none}.ncard = 1 := by
  have hset : {x | selfVars x ≠ none} = {['a']} := by
    ext x
    by_cases hx : x = ['a']
    · simp [selfVars, hx]
    · simp [selfVars, hx]
  rw [hset, Set.ncard_singleton]

/-- The third and the fifth read of a name find memory that has been used again. -/
def usedAgain : ℕ → List Char → List Char := fun k name => if k = 2 ∨ k = 4 then [] else name

/-- With `a=a`, the name on the list is not found as it was written when it is looked for: `a` is
evaluated with `a` twice on the list, though one variable is set, and there is no error. -/
theorem recursion_unnoticed :
    (arith 9 ⟨selfVars, usedAgain⟩ ['a']).1 = .ok 0 ∧
      ∃ names ∈ (arith 9 ⟨selfVars, usedAgain⟩ ['a']).2.calls.map Call.names,
        {x | selfVars x ≠ none}.ncard < names.length := by
  refine ⟨by decide +kernel, [['a'], ['a']], by decide +kernel, ?_⟩
  rw [ncard_selfVars]
  decide

end Listed

end Rustybox.Shell
