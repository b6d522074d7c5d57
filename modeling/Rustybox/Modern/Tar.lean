import Mathlib.Data.List.Basic

/-!
# The options of tar

The loop over the words in `run` of `modern/tar.rs`, with its one place for a letter that waits for a
word, beside the reading of option clusters in which every `f` and `C` has a word of its own.

* `clusters_iff`: the two come to the same exactly when no argument is attached to a cluster and the
  words behind a bare cluster do not tell its letters apart.
-/

namespace Rustybox.Modern.Tar

inductive Mode where
  | create
  | extract
  | list
  deriving DecidableEq

inductive Comp where
  | none
  | gz
  | bz2
  | xz
  deriving DecidableEq

/-- The options of `run`. -/
structure Options where
  mode : Option Mode := none
  comp : Comp := .none
  verbose : Bool := false
  file : Option (List Char) := none
  chdir : Option (List Char) := none
  inputs : List (List Char) := []
  deriving DecidableEq

def Options.push (o : Options) (a : List Char) : Options := { o with inputs := o.inputs ++ [a] }

/-! ### The loop -/

def isDashed (a : List Char) : Bool := a.head? == some '-'

/-- `trim_start_matches('-')`. -/
def body (a : List Char) : List Char := a.dropWhile (· == '-')

def isBare (a : List Char) : Bool := !a.isEmpty && a.all ("cxtzjJvftC".toList.contains ·)

/-- The loop with `want`, the letter that waits for a word. -/
structure Scan where
  options : Options := {}
  want : Option Char := none
  first : Bool := true

def letter (s : Scan) (c : Char) : Scan :=
  match c with
  | 'c' => { s with options := { s.options with mode := some .create } }
  | 'x' => { s with options := { s.options with mode := some .extract } }
  | 't' => { s with options := { s.options with mode := some .list } }
  | 'z' => { s with options := { s.options with comp := .gz } }
  | 'j' => { s with options := { s.options with comp := .bz2 } }
  | 'J' => { s with options := { s.options with comp := .xz } }
  | 'v' => { s with options := { s.options with verbose := true } }
  | 'f' => { s with want := some 'f' }
  | 'C' => { s with want := some 'C' }
  | _ => s

/-- The word of a letter. -/
def setArg (o : Options) (w : Char) (a : List Char) : Options :=
  match w with
  | 'f' => { o with file := some a }
  | 'C' => { o with chdir := some a }
  | _ => o

/-- One word. -/
def step (s : Scan) (a : List Char) : Scan :=
  match s.want with
  | some w => { s with options := setArg s.options w a, want := none }
  | none =>
    if isDashed a || (s.first && isBare a) then (body a).foldl letter { s with first := false }
    else { s with options := s.options.push a, first := false }

/-- The options of `run`. -/
def parse (argv : List (List Char)) : Options := ((argv.drop 1).foldl step {}).options

/-- The end of a word that goes through the match on letters. -/
def scanned (s : Scan) (a : List Char) : List Char :=
  if s.want.isNone && (isDashed a || (s.first && isBare a)) then body a else []

/-! ### Every letter with its own word -/

def takesWord (c : Char) : Bool := c == 'f' || c == 'C'

/-- A letter without a word. -/
def flag (o : Options) (c : Char) : Options :=
  match c with
  | 'c' => { o with mode := some .create }
  | 'x' => { o with mode := some .extract }
  | 't' => { o with mode := some .list }
  | 'z' => { o with comp := .gz }
  | 'j' => { o with comp := .bz2 }
  | 'J' => { o with comp := .xz }
  | 'v' => { o with verbose := true }
  | _ => o

/-- The first letter of a dashed cluster that takes a word, with what is behind it. -/
def argument (a : List Char) : List Char := (body a).dropWhile (!takesWord ·)

/-- What has been read, with the letters that wait for words. -/
structure Reading where
  options : Options := {}
  owed : List Char := []
  first : Bool := true

/-- One word.  Behind its letter an argument may be attached to a dashed cluster; the letters of a
bare one are served by the words behind it. -/
def Reading.word (r : Reading) (a : List Char) : Reading :=
  match r.owed with
  | w :: owed => { r with options := setArg r.options w a, owed := owed }
  | [] =>
    if isDashed a then
      let options := ((body a).takeWhile (!takesWord ·)).foldl flag r.options
      match argument a with
      | [] => { options := options, owed := [], first := false }
      | [w] => { options := options, owed := [w], first := false }
      | w :: c :: cs => { options := setArg options w (c :: cs), owed := [], first := false }
    else if r.first && isBare a then
      { options := a.foldl flag r.options, owed := a.filter takesWord, first := false }
    else { r with options := r.options.push a, first := false }

/-- The options that the words stand for. -/
def intended (argv : List (List Char)) : Options :=
  ((argv.drop 1).foldl Reading.word {}).options

/-- The end of a word that is an argument. -/
def Reading.argument (r : Reading) (a : List Char) : List Char :=
  if r.owed ≠ [] then a else if isDashed a then (Tar.argument a).drop 1 else []

/-- No character of an argument goes through the match on letters: of two ends of a word, one is
empty. -/
def Apart (s : Scan) (r : Reading) : List (List Char) → Prop
  | [] => True
  | a :: ws => (scanned s a = [] ∨ r.argument a = []) ∧ Apart (step s a) (r.word a) ws

/-- The same mode, compression, archive, directory and operands. -/
def Options.Same (o o' : Options) : Prop :=
  o.mode = o'.mode ∧ o.comp = o'.comp ∧ o.file = o'.file ∧ o.chdir = o'.chdir ∧ o.inputs = o'.inputs

/-- The loop reads the clusters of a command line. -/
def ReadsClusters (argv : List (List Char)) : Prop :=
  (parse argv).Same (intended argv) ∧ Apart {} {} (argv.drop 1)

/-! ### What the loop reads -/

/-- An argument is attached to a cluster. -/
def attached (a : List Char) : Bool := isDashed a && decide (1 < (argument a).length)

/-- The letter of a dashed cluster that waits for a word. -/
def takesNext (a : List Char) : Option Char :=
  if isDashed a then
    match argument a with
    | [w] => some w
    | _ => none
  else none

/-- The words, each cluster with its argument. -/
def groups : List (List Char) → List (List Char × Option (List Char))
  | [] => []
  | a :: ws =>
    match takesNext a with
    | none => (a, none) :: groups ws
    | some _ =>
      match ws with
      | [] => [(a, none)]
      | w :: ws => (a, some w) :: groups ws

/-- No argument is attached. -/
def Detached (ws : List (List Char)) : Prop := ∀ g ∈ groups ws, attached g.1 = false

/-- A letter gets a word. -/
def Given (c : Char) (ws : List (List Char)) : Prop :=
  ∃ g ∈ groups ws, takesNext g.1 = some c ∧ g.2.isSome

/-- Letters served by words in their order. -/
def serve (cs : List Char) (ws : List (List Char)) (o : Options) : Options :=
  (cs.zip ws).foldl (fun o p => setArg o p.1 p.2) o

/-- A word of dashes alone. -/
def onlyDashes (a : List Char) : Bool := isDashed a && (body a).isEmpty

/-- No argument is attached.  Of the words that a bare cluster takes, all but the first are dashes
alone, and its archive and its directory are given again or are those that the first word would give
to the last letter. -/
def Plain : List (List Char) → Prop
  | [] => True
  | a :: ws =>
    if isDashed a = false ∧ isBare a = true then
      let cs := a.filter takesWord
      let taken := ws.take cs.length
      let rest := ws.drop cs.length
      Detached rest ∧ (∀ w ∈ taken.drop 1, onlyDashes w = true) ∧
        (Given 'f' rest ∨ (serve cs taken {}).file = (serve cs.getLast?.toList taken {}).file) ∧
        (Given 'C' rest ∨ (serve cs taken {}).chdir = (serve cs.getLast?.toList taken {}).chdir)
    else Detached (a :: ws)

/-! ### One word -/

theorem letter_eq (s : Scan) (c : Char) :
    letter s c =
      { s with options := flag s.options c, want := if takesWord c then some c else s.want } := by
  rw [letter.eq_def, flag.eq_def]
  split
  case h_10 => simp_all [takesWord]
  all_goals rfl

theorem foldl_letter (cs : List Char) (s : Scan) :
    cs.foldl letter s =
      { s with
        options := cs.foldl flag s.options, want := (cs.filter takesWord).getLast?.or s.want } := by
  induction cs generalizing s with
  | nil => rfl
  | cons c cs ih =>
    rw [List.foldl_cons, ih, letter_eq, List.foldl_cons, List.filter_cons]
    by_cases hc : takesWord c = true
    · rw [if_pos hc, if_pos hc]
      cases hcs : cs.filter takesWord with
      | nil => rfl
      | cons d ds => rw [List.getLast?_cons_cons]; rfl
    · rw [if_neg hc, if_neg hc]

theorem flag_rest (o : Options) (c : Char) :
    (flag o c).file = o.file ∧ (flag o c).chdir = o.chdir ∧ (flag o c).inputs = o.inputs := by
  rw [flag.eq_def]
  split <;> exact ⟨rfl, rfl, rfl⟩

theorem foldl_flag_rest (cs : List Char) (o : Options) :
    (cs.foldl flag o).file = o.file ∧ (cs.foldl flag o).chdir = o.chdir ∧
      (cs.foldl flag o).inputs = o.inputs := by
  induction cs generalizing o with
  | nil => exact ⟨rfl, rfl, rfl⟩
  | cons c cs ih =>
    obtain ⟨hfile, hchdir, hinputs⟩ := ih (flag o c)
    obtain ⟨hfile', hchdir', hinputs'⟩ := flag_rest o c
    exact ⟨hfile.trans hfile', hchdir.trans hchdir', hinputs.trans hinputs'⟩

/-- The same mode and compression. -/
def Options.Alike (o o' : Options) : Prop := o.mode = o'.mode ∧ o.comp = o'.comp

theorem Options.Alike.symm {o o' : Options} (h : o.Alike o') : o'.Alike o := ⟨h.1.symm, h.2.symm⟩

theorem Options.Alike.trans {o o' o'' : Options} (h : o.Alike o') (h' : o'.Alike o'') :
    o.Alike o'' :=
  ⟨h.1.trans h'.1, h.2.trans h'.2⟩

theorem Options.Alike.flag {o o' : Options} (h : o.Alike o') (c : Char) :
    (flag o c).Alike (flag o' c) := by
  rw [Tar.flag.eq_def, Tar.flag.eq_def]
  split <;> first | exact h | exact ⟨rfl, h.2⟩ | exact ⟨h.1, rfl⟩

theorem Options.Alike.flags {o o' : Options} (h : o.Alike o') (cs : List Char) :
    (cs.foldl Tar.flag o).Alike (cs.foldl Tar.flag o') := by
  induction cs generalizing o o' with
  | nil => exact h
  | cons c cs ih => exact ih (h.flag c)

theorem Options.Alike.push {o o' : Options} (h : o.Alike o') (a : List Char) :
    (o.push a).Alike (o'.push a) :=
  h

theorem takesWord_iff {c : Char} : takesWord c = true ↔ c = 'f' ∨ c = 'C' := by simp [takesWord]

theorem flag_of_takesWord {c : Char} (h : takesWord c = true) (o : Options) : flag o c = o := by
  rcases takesWord_iff.mp h with rfl | rfl <;> rfl

theorem setArg_alike (o : Options) (w : Char) (a : List Char) : (setArg o w a).Alike o := by
  rw [setArg.eq_def]
  split <;> exact ⟨rfl, rfl⟩

theorem setArg_inputs (o : Options) (w : Char) (a : List Char) :
    (setArg o w a).inputs = o.inputs := by
  rw [setArg.eq_def]
  split <;> rfl

/-- What an option with its word sets depends on what it was set to before, or on nothing. -/
theorem setArg_file (w : Char) (a : List Char) {o o' : Options} (h : o.file = o'.file) :
    (setArg o w a).file = (setArg o' w a).file := by
  rw [setArg.eq_def, setArg.eq_def]
  split
  · rfl
  · exact h
  · exact h

theorem setArg_chdir (w : Char) (a : List Char) {o o' : Options} (h : o.chdir = o'.chdir) :
    (setArg o w a).chdir = (setArg o' w a).chdir := by
  rw [setArg.eq_def, setArg.eq_def]
  split
  · exact h
  · rfl
  · exact h

theorem body_of_bare {a : List Char} (h : isDashed a = false) : body a = a := by
  cases a with
  | nil => rfl
  | cons c cs =>
    have hc : (c == '-') = false := by simpa [isDashed] using h
    rw [body, List.dropWhile_cons_of_neg (by rw [hc]; exact Bool.false_ne_true)]

theorem head_argument {a cs : List Char} {w : Char} (h : argument a = w :: cs) :
    takesWord w = true := by
  have := List.head?_dropWhile_not (!takesWord ·) (body a)
  rw [← argument, h] at this
  simpa using this

theorem body_eq (a : List Char) : body a = (body a).takeWhile (!takesWord ·) ++ argument a :=
  List.takeWhile_append_dropWhile.symm

theorem filter_body (a : List Char) : (body a).filter takesWord = (argument a).filter takesWord := by
  have hnone : ((body a).takeWhile (!takesWord ·)).filter takesWord = [] :=
    List.filter_eq_nil_iff.mpr fun c hc => by
      simpa using List.all_eq_true.mp List.all_takeWhile c hc
  conv_lhs => rw [body_eq, List.filter_append, hnone, List.nil_append]

section Steps

variable {a : List Char} (o : Options) (b : Bool)

theorem step_dashed (h : isDashed a = true) :
    step ⟨o, none, b⟩ a = ⟨(body a).foldl flag o, ((body a).filter takesWord).getLast?, false⟩ := by
  rw [step, h, Bool.true_or, if_pos rfl, foldl_letter, Option.or_none]

theorem step_bare (h : isDashed a = false) (hbare : isBare a = true) :
    step ⟨o, none, true⟩ a = ⟨a.foldl flag o, (a.filter takesWord).getLast?, false⟩ := by
  rw [step, h, hbare]
  show (body a).foldl letter ⟨o, none, false⟩ = _
  rw [foldl_letter, Option.or_none, body_of_bare h]

theorem step_operand (h : isDashed a = false) (hbare : b = true → isBare a = false) :
    step ⟨o, none, b⟩ a = ⟨o.push a, none, false⟩ := by
  have hneg : (b && isBare a) = false := by
    cases b with
    | false => rfl
    | true => exact hbare rfl
  rw [step, h, hneg]
  rfl

theorem word_bare (h : isDashed a = false) (hbare : isBare a = true) :
    Reading.word ⟨o, [], true⟩ a = ⟨a.foldl flag o, a.filter takesWord, false⟩ := by
  rw [Reading.word, h, hbare]
  rfl

theorem word_operand (h : isDashed a = false) (hbare : b = true → isBare a = false) :
    Reading.word ⟨o, [], b⟩ a = ⟨o.push a, [], false⟩ := by
  have hneg : (b && isBare a) = false := by
    cases b with
    | false => rfl
    | true => exact hbare rfl
  rw [Reading.word, h, hneg]
  rfl

theorem word_dashed (h : isDashed a = true) (hattached : attached a = false) :
    Reading.word ⟨o, [], b⟩ a = ⟨(body a).foldl flag o, (takesNext a).toList, false⟩ ∧
      ((body a).filter takesWord).getLast? = takesNext a := by
  have hbody := body_eq a
  rw [attached, h, Bool.true_and, decide_eq_false_iff_not] at hattached
  rw [Reading.word, filter_body, takesNext, if_pos h]
  cases harg : argument a with
  | nil =>
    rw [harg, List.append_nil] at hbody
    rw [← hbody, h]
    exact ⟨rfl, rfl⟩
  | cons w cs =>
    have hw := head_argument harg
    rw [harg, List.length_cons] at hattached
    obtain rfl : cs = [] := List.length_eq_zero_iff.mp (by omega)
    rw [harg] at hbody
    have hflags : ((body a).takeWhile (!takesWord ·)).foldl flag o = (body a).foldl flag o := by
      conv_rhs => rw [hbody, List.foldl_append, List.foldl_cons, List.foldl_nil]
      exact (flag_of_takesWord hw _).symm
    rw [h, List.filter_cons_of_pos hw, hflags]
    exact ⟨rfl, rfl⟩

end Steps

/-! ### Runs -/

theorem groups_none {a : List Char} (h : takesNext a = none) (ws : List (List Char)) :
    groups (a :: ws) = (a, none) :: groups ws := by
  rw [groups.eq_def]
  dsimp only
  rw [h]

theorem groups_some {a : List Char} {c : Char} (h : takesNext a = some c) (w : List Char)
    (ws : List (List Char)) : groups (a :: w :: ws) = (a, some w) :: groups ws := by
  rw [groups.eq_def]
  dsimp only
  rw [h]

theorem groups_last {a : List Char} {c : Char} (h : takesNext a = some c) :
    groups [a] = [(a, none)] := by
  rw [groups.eq_def]
  dsimp only
  rw [h]

theorem detached_none {a : List Char} (h : takesNext a = none) (ws : List (List Char)) :
    Detached (a :: ws) ↔ attached a = false ∧ Detached ws := by
  rw [Detached, groups_none h, List.forall_mem_cons, Detached]

theorem given_none {a : List Char} (h : takesNext a = none) (c : Char) (ws : List (List Char)) :
    Given c (a :: ws) ↔ Given c ws := by
  rw [Given, groups_none h, List.exists_mem_cons_iff, h, Given]
  simp

theorem given_some {a : List Char} {d : Char} (h : takesNext a = some d) (c : Char) (w : List Char)
    (ws : List (List Char)) : Given c (a :: w :: ws) ↔ d = c ∨ Given c ws := by
  rw [Given, groups_some h, List.exists_mem_cons_iff, h, Given]
  simp

theorem not_given_nil (c : Char) : ¬ Given c [] := by
  rintro ⟨g, hg, _⟩
  cases hg

theorem not_given_last {a : List Char} {d : Char} (h : takesNext a = some d) (c : Char) :
    ¬ Given c [a] := by
  rw [Given, groups_last h]
  simp

theorem takesNext_some {a : List Char} {c : Char} (h : takesNext a = some c) :
    isDashed a = true ∧ attached a = false ∧ (c = 'f' ∨ c = 'C') := by
  rw [takesNext] at h
  split at h
  · next hd =>
    split at h
    · next w harg =>
      cases h
      exact ⟨hd, by rw [attached, harg]; simp, takesWord_iff.mp (head_argument harg)⟩
    · cases h
  · cases h

theorem argument_ne_nil {a : List Char} (h : attached a = true) :
    (argument a).drop 1 ≠ [] ∧ body a ≠ [] := by
  rw [attached, Bool.and_eq_true, decide_eq_true_iff] at h
  refine ⟨fun hnil => ?_, fun hnil => ?_⟩
  · rw [List.drop_eq_nil_iff] at hnil
    omega
  · rw [argument, hnil] at h
    exact absurd h.2 (by simp)

theorem argument_drop {a : List Char} (h : attached a = false) (hd : isDashed a = true) :
    (argument a).drop 1 = [] := by
  rw [attached, hd, Bool.true_and, decide_eq_false_iff_not] at h
  rw [List.drop_eq_nil_iff]
  omega

/-- A run of the loop beside the reading of the words. -/
def Read (s : Scan) (r : Reading) (ws : List (List Char)) : Prop :=
  (ws.foldl step s).options.Same (ws.foldl Reading.word r).options ∧ Apart s r ws

theorem read_cons (s : Scan) (r : Reading) (a : List Char) (ws : List (List Char)) :
    Read s r (a :: ws) ↔ (scanned s a = [] ∨ r.argument a = []) ∧ Read (step s a) (r.word a) ws := by
  rw [Read, Apart, List.foldl_cons, List.foldl_cons, Read]
  tauto

theorem read_nil {o o' : Options} (h : o.Alike o') (w : Option Char) (owed : List Char) (b b' : Bool) :
    Read ⟨o, w, b⟩ ⟨o', owed, b'⟩ [] ↔
      o.inputs = o'.inputs ∧ o.file = o'.file ∧ o.chdir = o'.chdir := by
  show (o.Same o' ∧ True) ↔ _
  rw [Options.Same]
  exact ⟨fun ⟨⟨_, _, hf, hc, hi⟩, _⟩ => ⟨hi, hf, hc⟩, fun ⟨hi, hf, hc⟩ => ⟨⟨h.1, h.2, hf, hc, hi⟩, trivial⟩⟩

theorem scanned_dashed {a : List Char} (o : Options) (b : Bool) (h : isDashed a = true) :
    scanned ⟨o, none, b⟩ a = body a := by
  rw [scanned, h]
  rfl

theorem argument_dashed {a : List Char} (o : Options) (b : Bool) (h : isDashed a = true) :
    Reading.argument ⟨o, [], b⟩ a = (argument a).drop 1 := by
  rw [Reading.argument, if_neg (fun hn => hn rfl), if_pos h]

/-- While no word is owed, the two go together until an argument is attached. -/
theorem read_iff (ws : List (List Char)) {o o' : Options} (h : o.Alike o') {b : Bool}
    (hfirst : b = true → ∀ a ∈ ws.head?, isDashed a = true ∨ isBare a = false) :
    Read ⟨o, none, b⟩ ⟨o', [], b⟩ ws ↔ Detached ws ∧ o.inputs = o'.inputs ∧
      (Given 'f' ws ∨ o.file = o'.file) ∧ (Given 'C' ws ∨ o.chdir = o'.chdir) := by
  induction ws using groups.induct generalizing o o' b with
  | case1 =>
    rw [read_nil h]
    have hdetached : Detached [] := nofun
    simp [not_given_nil, hdetached]
  | case2 a ws hnone ih =>
    rw [read_cons, detached_none hnone, given_none hnone, given_none hnone]
    cases hd : isDashed a with
    | true =>
      cases hattached : attached a with
      | true =>
        obtain ⟨harg, hbody⟩ := argument_ne_nil hattached
        refine iff_of_false ?_ fun hr => absurd hr.1.1 Bool.noConfusion
        rintro ⟨hnil | hnil, _⟩
        · rw [scanned_dashed _ _ hd] at hnil
          exact hbody hnil
        · rw [argument_dashed _ _ hd] at hnil
          exact harg hnil
      | false =>
        obtain ⟨hword, hwant⟩ := word_dashed o' b hd hattached
        obtain ⟨hfile, hchdir, hinputs⟩ := foldl_flag_rest (body a) o
        obtain ⟨hfile', hchdir', hinputs'⟩ := foldl_flag_rest (body a) o'
        rw [argument_dashed _ _ hd, argument_drop hattached hd, step_dashed o b hd, hwant, hword,
          hnone]
        refine (and_iff_right (.inr rfl)).trans
          ((ih (h.flags (body a)) (b := false) fun hb => Bool.noConfusion hb).trans ?_)
        rw [hfile, hchdir, hinputs, hfile', hchdir', hinputs']
        simp
    | false =>
      have hbare : b = true → isBare a = false := fun hb =>
        (hfirst hb a rfl).resolve_left fun ht => absurd (hd.symm.trans ht) Bool.noConfusion
      have hattached : attached a = false := by rw [attached, hd, Bool.false_and]
      have harg : Reading.argument ⟨o', [], b⟩ a = [] := by
        rw [Reading.argument, if_neg (fun hn => hn rfl), hd]
        rfl
      rw [harg, step_operand o b hd hbare, word_operand o' b hd hbare, hattached]
      refine (and_iff_right (.inr rfl)).trans
        ((ih (h.push a) (b := false) fun hb => Bool.noConfusion hb).trans ?_)
      rw [Options.push, Options.push, List.append_left_inj]
      simp
  | case3 a c hc =>
    obtain ⟨hd, hattached, hfC⟩ := takesNext_some hc
    obtain ⟨hword, hwant⟩ := word_dashed o' b hd hattached
    obtain ⟨hfile, hchdir, hinputs⟩ := foldl_flag_rest (body a) o
    obtain ⟨hfile', hchdir', hinputs'⟩ := foldl_flag_rest (body a) o'
    have hdetached : Detached [a] := by
      rw [Detached, groups_last hc]
      simpa using hattached
    rw [read_cons, argument_dashed _ _ hd, argument_drop hattached hd, step_dashed o b hd, hwant,
      hword]
    refine (and_iff_right (.inr rfl)).trans ((read_nil (h.flags (body a)) _ _ _ _).trans ?_)
    rw [hfile, hchdir, hinputs, hfile', hchdir', hinputs']
    simp [hdetached, not_given_last hc]
  | case4 a c hc w ws ih =>
    obtain ⟨hd, hattached, hfC⟩ := takesNext_some hc
    obtain ⟨hword, hwant⟩ := word_dashed o' b hd hattached
    obtain ⟨hfile, hchdir, hinputs⟩ := foldl_flag_rest (body a) o
    obtain ⟨hfile', hchdir', hinputs'⟩ := foldl_flag_rest (body a) o'
    have hdetached : Detached (a :: w :: ws) ↔ Detached ws := by
      rw [Detached, groups_some hc, List.forall_mem_cons, Detached, hattached]
      simp
    have hstep : Read ⟨o, none, b⟩ ⟨o', [], b⟩ (a :: w :: ws) ↔
        Read ⟨setArg ((body a).foldl flag o) c w, none, false⟩
          ⟨setArg ((body a).foldl flag o') c w, [], false⟩ ws := by
      rw [read_cons, argument_dashed _ _ hd, argument_drop hattached hd, step_dashed o b hd, hwant,
        hword, hc]
      refine (and_iff_right (.inr rfl)).trans ?_
      rw [read_cons]
      exact and_iff_right (.inl rfl)
    have halike : (setArg ((body a).foldl flag o) c w).Alike (setArg ((body a).foldl flag o') c w) :=
      (setArg_alike _ _ _).trans ((h.flags _).trans (setArg_alike _ _ _).symm)
    rw [hstep, ih halike (b := false) (fun hb => Bool.noConfusion hb), hdetached, given_some hc, given_some hc,
      setArg_inputs, setArg_inputs, hinputs, hinputs']
    rcases hfC with rfl | rfl
    · simp [setArg, hchdir, hchdir']
    · simp [setArg, hfile, hfile']

theorem serve_nil (ws : List (List Char)) (o : Options) : serve [] ws o = o := rfl

theorem serve_cons (c : Char) (cs : List Char) (w : List Char) (ws : List (List Char)) (o : Options) :
    serve (c :: cs) (w :: ws) o = serve cs ws (setArg o c w) := rfl

theorem serve_congr (cs : List Char) (ws : List (List Char)) {o o' : Options}
    (hfile : o.file = o'.file) (hchdir : o.chdir = o'.chdir) :
    (serve cs ws o).file = (serve cs ws o').file ∧
      (serve cs ws o).chdir = (serve cs ws o').chdir := by
  induction cs generalizing ws o o' with
  | nil => exact ⟨hfile, hchdir⟩
  | cons c cs ih =>
    cases ws with
    | nil => exact ⟨hfile, hchdir⟩
    | cons w ws => exact ih ws (setArg_file c w hfile) (setArg_chdir c w hchdir)

/-- While words are owed to the letters of a bare cluster that the loop has forgotten, a word of
dashes alone is the only one that does no harm. -/
theorem owed_iff (cs : List Char) (ws : List (List Char)) {o o' : Options} (h : o.Alike o')
    (hle : o'.inputs.length ≤ o.inputs.length) :
    Read ⟨o, none, false⟩ ⟨o', cs, false⟩ ws ↔
      (∀ w ∈ ws.take cs.length, onlyDashes w = true) ∧ Detached (ws.drop cs.length) ∧
      o.inputs = o'.inputs ∧
      (Given 'f' (ws.drop cs.length) ∨ o.file = (serve cs (ws.take cs.length) o').file) ∧
      (Given 'C' (ws.drop cs.length) ∨ o.chdir = (serve cs (ws.take cs.length) o').chdir) := by
  induction cs generalizing ws o o' with
  | nil =>
    rw [read_iff ws h fun hb => Bool.noConfusion hb]
    simp [serve_nil]
  | cons c cs ih =>
    cases ws with
    | nil =>
      have hdetached : Detached [] := nofun
      rw [read_nil h]
      simp [serve, not_given_nil, hdetached]
    | cons w ws =>
      have hserved : Reading.word ⟨o', c :: cs, false⟩ w = ⟨setArg o' c w, cs, false⟩ := rfl
      have hwhole : Reading.argument ⟨o', c :: cs, false⟩ w = w := rfl
      rw [read_cons, hserved, hwhole, List.length_cons, List.take_succ_cons, List.drop_succ_cons,
        List.forall_mem_cons, serve_cons, onlyDashes]
      cases hd : isDashed w with
      | true =>
        rw [scanned_dashed _ _ hd, step_dashed o false hd]
        cases hbody : body w with
        | nil =>
          refine (and_iff_right (.inl rfl)).trans
            ((ih ws (h.trans (setArg_alike _ _ _).symm) (by rwa [setArg_inputs])).trans ?_)
          rw [setArg_inputs]
          simp
        | cons d ds =>
          refine iff_of_false ?_ fun hr => absurd hr.1.1 Bool.noConfusion
          rintro ⟨hnil | hnil, _⟩
          · cases hnil
          · rw [hnil] at hd
            cases hd
      | false =>
        -- the loop takes the word for an operand
        rw [step_operand o false hd fun hb => Bool.noConfusion hb]
        refine iff_of_false ?_ fun hr => absurd hr.1.1 Bool.noConfusion
        rintro ⟨_, hread⟩
        have halike : (o.push w).Alike (setArg o' c w) :=
          Options.Alike.trans h (setArg_alike o' c w).symm
        have hlength : (o.push w).inputs.length = o.inputs.length + 1 := List.length_append
        rw [ih ws halike (by rw [setArg_inputs]; omega)] at hread
        have hinputs := congrArg List.length hread.2.2.1
        rw [setArg_inputs] at hinputs
        omega

/-- **The clusters are read exactly on plain command lines.** -/
theorem clusters_iff (argv : List (List Char)) : ReadsClusters argv ↔ Plain (argv.drop 1) := by
  show Read {} {} (argv.drop 1) ↔ _
  cases argv.drop 1 with
  | nil => exact iff_of_true ⟨⟨rfl, rfl, rfl, rfl, rfl⟩, trivial⟩ trivial
  | cons a ws =>
    rw [Plain]
    split
    · next hbare =>
      obtain ⟨hd, hbare⟩ := hbare
      obtain ⟨hfile, hchdir, hinputs⟩ := foldl_flag_rest a {}
      have harg : Reading.argument {} a = [] := by
        rw [Reading.argument, if_neg (fun hn => hn rfl), hd]
        rfl
      rw [read_cons, harg, step_bare _ hd hbare, word_bare _ hd hbare]
      refine (and_iff_right (.inr rfl)).trans ?_
      dsimp only
      cases hcs : a.filter takesWord with
      | nil =>
        refine (read_iff ws ⟨rfl, rfl⟩ fun hb => Bool.noConfusion hb).trans ?_
        simp [serve_nil]
      | cons c cs =>
        obtain ⟨d, hlast⟩ : ∃ d, (c :: cs).getLast? = some d := ⟨_, List.getLast?_cons⟩
        rw [hlast, Option.toList_some]
        cases ws with
        | nil =>
          have hdetached : Detached [] := nofun
          refine (read_nil ⟨rfl, rfl⟩ _ _ _ _).trans ?_
          simp [serve, hdetached]
        | cons w ws =>
          obtain ⟨hserve, hserve'⟩ := serve_congr cs (ws.take cs.length)
            (setArg_file c w hfile) (setArg_chdir c w hchdir)
          rw [read_cons, List.length_cons, List.take_succ_cons, List.drop_succ_cons, List.drop_one,
            List.tail_cons, serve_cons, serve_cons, ← hserve, ← hserve']
          refine (and_iff_right (.inl rfl)).trans ?_
          refine (owed_iff cs ws ((setArg_alike _ d w).trans (setArg_alike _ c w).symm)
            (Nat.le_of_eq (by rw [setArg_inputs, setArg_inputs]))).trans ?_
          rw [setArg_inputs, setArg_inputs, setArg_file d w hfile, setArg_chdir d w hchdir, serve_nil]
          tauto
    · next hnot =>
      refine (read_iff (a :: ws) ⟨rfl, rfl⟩ ?_).trans ?_
      · intro _ b hb
        cases Option.some.inj hb
        cases hd : isDashed a with
        | true => exact .inl rfl
        | false => exact .inr ((Bool.not_eq_true _).mp fun hbare => hnot ⟨hd, hbare⟩)
      · simp

/-- `tar cfC A D` takes `A` for the directory, and `D` for an operand. -/
theorem bare_letters_share_a_word :
    ¬ ReadsClusters ["tar".toList, "cfC".toList, "A".toList, "D".toList] :=
  fun h => absurd h.1.2.2.1 (by decide)

end Rustybox.Modern.Tar
