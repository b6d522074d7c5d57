import Rustybox.Modern.Compress
import Mathlib.Data.List.Basic

/-!
# The command line of grep

The scan of `run` in `modern/grep.rs`.  An operand becomes the pattern if there is none yet, so that
a pattern operand may be taken before a `-e` behind it is seen.

* `order_free_iff`: where the options stand makes no difference exactly when there is no `-e`, no
  operand, or a `-e` with its pattern before the first operand and none without a pattern.
-/

namespace Rustybox.Modern.Grep

/-- The flags of `Opts`. -/
structure Flags where
  ignoreCase : Bool := false
  invert : Bool := false
  count : Bool := false
  lineNumber : Bool := false
  filesWithMatches : Bool := false
  quiet : Bool := false
  fixed : Bool := false
  word : Bool := false
  recursive : Bool := false
  noFilename : Bool := false
  withFilename : Bool := false
  noMessages : Bool := false
  deriving DecidableEq

structure Opts where
  flags : Flags := {}
  patterns : List (List Char) := []
  files : List (List Char) := []
  deriving DecidableEq

/-! ### One option -/

/-- Is an argument an option? -/
def isOption (arg : List Char) : Bool := arg.head? == some '-' && decide (1 < arg.length)

def isLong (arg : List Char) : Bool := "--".toList.isPrefixOf arg

def longFlag (o : Flags) (name : List Char) : Flags :=
  match String.ofList name with
  | "ignore-case" => { o with ignoreCase := true }
  | "invert-match" => { o with invert := true }
  | "count" => { o with count := true }
  | "line-number" => { o with lineNumber := true }
  | "files-with-matches" => { o with filesWithMatches := true }
  | "quiet" | "silent" => { o with quiet := true }
  | "fixed-strings" => { o with fixed := true }
  | "word-regexp" => { o with word := true }
  | "recursive" => { o with recursive := true }
  | "no-filename" => { o with noFilename := true }
  | "with-filename" => { o with withFilename := true }
  | "no-messages" => { o with noMessages := true }
  | _ => o

/-- A letter of a cluster. -/
def shortFlag (o : Flags) (c : Char) : Flags :=
  match c with
  | 'i' => { o with ignoreCase := true }
  | 'v' => { o with invert := true }
  | 'c' => { o with count := true }
  | 'n' => { o with lineNumber := true }
  | 'l' => { o with filesWithMatches := true }
  | 'q' => { o with quiet := true }
  | 'F' => { o with fixed := true }
  | 'w' => { o with word := true }
  | 'r' | 'R' => { o with recursive := true }
  | 'h' => { o with noFilename := true }
  | 'H' => { o with withFilename := true }
  | 's' => { o with noMessages := true }
  | _ => o

/-- The letters up to an `e`, and what is behind it. -/
def cluster : List Char → Flags → Flags × Option (List Char)
  | [], o => (o, none)
  | c :: cs, o => if c = 'e' then (o, some cs) else cluster cs (shortFlag o c)

/-- The texts of `--version` and `--help`. -/
def exitText (arg : List Char) : Option String :=
  match String.ofList arg with
  | "--version" => some "grep (rustybox, ripgrep engine)"
  | "--help" => some "usage: grep [-ivnclqFwrHhs] [-e PATTERN] PATTERN [FILE...]"
  | _ => none

/-! ### The scan -/

/-- What the scan comes to: the options, or a text and an exit. -/
inductive Outcome where
  | parsed (o : Opts)
  | exit (text : String)
  deriving DecidableEq

def Opts.push (o : Opts) (p : List Char) : Opts := { o with patterns := o.patterns ++ [p] }

/-- The loop over the arguments, with `pattern_from_flag` and `only_files`. -/
def scan : Opts → Bool → Bool → List (List Char) → Outcome
  | o, _, _, [] => .parsed o
  | o, fromFlag, onlyFiles, arg :: args =>
    if !onlyFiles && arg == "--".toList then scan o fromFlag true args
    else if !onlyFiles && isOption arg then
      if isLong arg then
        match exitText arg with
        | some text => .exit text
        | none =>
          if arg = "--regexp".toList then
            match args with
            | p :: args => scan (o.push p) true onlyFiles args
            | [] => .parsed o
          else scan { o with flags := longFlag o.flags (arg.drop 2) } fromFlag onlyFiles args
      else
        match cluster (arg.drop 1) o.flags with
        | (flags, none) => scan { o with flags := flags } fromFlag onlyFiles args
        | (flags, some []) =>
          match args with
          | p :: args => scan ({ o with flags := flags }.push p) true onlyFiles args
          | [] => .parsed { o with flags := flags }
        | (flags, some (c :: cs)) =>
          scan ({ o with flags := flags }.push (c :: cs)) true onlyFiles args
    -- the first operand is the pattern, unless there is one already
    else if o.patterns = [] && !fromFlag then scan (o.push arg) fromFlag onlyFiles args
    else scan { o with files := o.files ++ [arg] } fromFlag onlyFiles args

/-- The options of `run`, whose name comes first in `argv`. -/
def parseArgs (name : List Char) (argv : List (List Char)) : Outcome :=
  scan { flags := { fixed := Compress.baseName name == "fgrep".toList } } false false (argv.drop 1)

/-! ### Options and operands -/

/-- Does an option take the next word for its pattern? -/
def takesNext (arg : List Char) : Bool :=
  if isLong arg then arg == "--regexp".toList else (cluster (arg.drop 1) {}).2 == some []

/-- The pattern in a cluster. -/
def attached (arg : List Char) : Option (List Char) :=
  if isLong arg then none else (cluster (arg.drop 1) {}).2.filter (· ≠ [])

/-- An option with its pattern, or an operand. -/
inductive Item where
  | option (arg : List Char) (next : Option (List Char))
  | operand (arg : List Char)
  deriving DecidableEq

def items : List (List Char) → List Item
  | [] => []
  | arg :: args =>
    if isOption arg then
      if takesNext arg then
        match args with
        | p :: args => .option arg (some p) :: items args
        | [] => [.option arg none]
      else .option arg none :: items args
    else .operand arg :: items args

def Item.isOperand : Item → Bool
  | .option _ _ => false
  | .operand _ => true

def Item.words : Item → List (List Char)
  | .option arg next => arg :: next.toList
  | .operand arg => [arg]

/-- All options with their patterns in front of all operands. -/
def reorder (argv : List (List Char)) : List (List Char) :=
  let l := items (argv.drop 1)
  argv.take 1 ++ (l.filter (!·.isOperand)).flatMap Item.words ++ (l.filter (·.isOperand)).flatMap Item.words

/-- The pattern that an item gives. -/
def Item.value : Item → Option (List Char)
  | .option arg next => if takesNext arg then next else attached arg
  | .operand _ => none

/-- A `-e` or `--regexp`. -/
def Item.asks : Item → Bool
  | .option arg _ => takesNext arg || (attached arg).isSome
  | .operand _ => false

/-- A `-e` or `--regexp` at the end of the words. -/
def Item.Dangling : Item → Prop
  | .option arg next => takesNext arg = true ∧ next = none
  | .operand _ => False

/-- The text of an item that ends the scan. -/
def Item.text : Item → Option String
  | .option arg _ => exitText arg
  | .operand _ => none

def values (l : List Item) : List (List Char) := l.filterMap Item.value

def operands (l : List Item) : List (List Char) := (l.filter (·.isOperand)).flatMap Item.words

/-- A pattern is given before the first operand. -/
def valueFirst (l : List Item) : Bool := (l.takeWhile (!·.isOperand)).any (·.value.isSome)

/-- The order of options and operands makes no difference, and no operand is a pattern when there is
a `-e`. -/
def OrderFree (name : List Char) (argv : List (List Char)) : Prop :=
  parseArgs name argv = parseArgs name (reorder argv) ∧
    ((∃ i ∈ items (argv.drop 1), i.asks = true) → ∀ o, parseArgs name argv = .parsed o →
      o.files = operands (items (argv.drop 1)))

/-! ### The scan over items -/

def setFlags (arg : List Char) (o : Flags) : Flags :=
  if isLong arg then longFlag o (arg.drop 2) else (cluster (arg.drop 1) o).1

def scanItems : Opts → Bool → List Item → Outcome
  | o, _, [] => .parsed o
  | o, fromFlag, .operand arg :: l =>
    if o.patterns = [] && !fromFlag then scanItems (o.push arg) fromFlag l
    else scanItems { o with files := o.files ++ [arg] } fromFlag l
  | o, fromFlag, .option arg next :: l =>
    match exitText arg with
    | some text => .exit text
    | none =>
      match (Item.option arg next).value with
      | some p => scanItems ({ o with flags := setFlags arg o.flags }.push p) true l
      | none => scanItems { o with flags := setFlags arg o.flags } fromFlag l

theorem cluster_snd (cs : List Char) (o o' : Flags) : (cluster cs o).2 = (cluster cs o').2 := by
  induction cs generalizing o o' with
  | nil => rfl
  | cons c cs ih =>
    rw [cluster, cluster]
    split
    · rfl
    · exact ih _ _

theorem isLong_of_exitText {arg : List Char} {text : String} (h : exitText arg = some text) :
    isLong arg = true := by
  rw [exitText] at h
  split at h
  · next he =>
    rw [show arg = "--version".toList by rw [← he, String.toList_ofList]]
    rfl
  · next he =>
    rw [show arg = "--help".toList by rw [← he, String.toList_ofList]]
    rfl
  · cases h

theorem exitText_of_short {arg : List Char} (h : ¬ isLong arg = true) : exitText arg = none := by
  cases he : exitText arg with
  | none => rfl
  | some text => exact absurd (isLong_of_exitText he) h

/-- A cluster that takes the next word ends with its `e`. -/
theorem cluster_of_takesNext {arg : List Char} (hlong : ¬ isLong arg = true)
    (h : (cluster (arg.drop 1) {}).2 = some []) (o : Flags) :
    cluster (arg.drop 1) o = (setFlags arg o, some []) := by
  rw [setFlags, if_neg hlong]
  exact Prod.ext rfl ((cluster_snd _ _ _).trans h)

theorem items_next {arg p : List Char} {args : List (List Char)} (hopt : isOption arg = true)
    (htakes : takesNext arg = true) : items (arg :: p :: args) = .option arg (some p) :: items args :=
  (if_pos hopt).trans (if_pos htakes)

theorem items_dangling {arg : List Char} (hopt : isOption arg = true)
    (htakes : takesNext arg = true) : items [arg] = [.option arg none] :=
  (if_pos hopt).trans (if_pos htakes)

theorem items_option {arg : List Char} {args : List (List Char)} (hopt : isOption arg = true)
    (htakes : ¬ takesNext arg = true) : items (arg :: args) = .option arg none :: items args := by
  cases args <;> exact (if_pos hopt).trans (if_neg htakes)

theorem items_operand {arg : List Char} {args : List (List Char)} (hopt : ¬ isOption arg = true) :
    items (arg :: args) = .operand arg :: items args := by
  cases args <;> exact if_neg hopt

/-- Induction on what is read as one item. -/
theorem items_rec {motive : List (List Char) → Prop} (nil : motive [])
    (next : ∀ arg, isOption arg = true → takesNext arg = true → ∀ p args, motive args →
      motive (arg :: p :: args))
    (dangling : ∀ arg, isOption arg = true → takesNext arg = true → motive [arg])
    (option : ∀ arg args, isOption arg = true → ¬ takesNext arg = true → motive args →
      motive (arg :: args))
    (operand : ∀ arg args, ¬ isOption arg = true → motive args → motive (arg :: args))
    (args : List (List Char)) : motive args := by
  induction args using items.induct with
  | case1 => exact nil
  | case2 arg hopt htakes p args ih => exact next arg hopt htakes p args ih
  | case3 arg hopt htakes => exact dangling arg hopt htakes
  | case4 arg args hopt htakes ih => exact option arg args hopt htakes ih
  | case5 arg args hopt ih => exact operand arg args hopt ih

/-- The scan reads one item after the other. -/
theorem scan_eq_scanItems (o : Opts) (fromFlag : Bool) {args : List (List Char)}
    (h : "--".toList ∉ args) : scan o fromFlag false args = scanItems o fromFlag (items args) := by
  have hsep : ∀ {arg : List Char} {rest : List (List Char)}, "--".toList ∉ arg :: rest →
      (arg == "--".toList) = false := fun hm =>
    beq_eq_false_iff_ne.mpr fun he => hm (he ▸ List.mem_cons_self)
  induction args using items_rec generalizing o fromFlag with
  | nil => rfl
  | next arg hopt htakes p args ih =>
    have hrest : "--".toList ∉ args := fun hm =>
      h (List.mem_cons_of_mem _ (List.mem_cons_of_mem _ hm))
    rw [items_next hopt htakes, scan.eq_def, scanItems]
    dsimp only
    rw [hsep h]
    simp only [Bool.not_false, Bool.and_false, Bool.false_eq_true, if_false, Bool.true_and, hopt,
      if_true, Item.value, htakes]
    rw [takesNext] at htakes
    by_cases hlong : isLong arg = true
    · rw [if_pos hlong] at htakes ⊢
      obtain rfl := eq_of_beq htakes
      exact ih _ _ hrest
    · rw [if_neg hlong] at htakes ⊢
      rw [exitText_of_short hlong, cluster_of_takesNext hlong (eq_of_beq htakes)]
      exact ih _ _ hrest
  | dangling arg hopt htakes =>
    rw [items_dangling hopt htakes, scan.eq_def, scanItems]
    dsimp only
    rw [hsep h]
    simp only [Bool.not_false, Bool.and_false, Bool.false_eq_true, if_false, Bool.true_and, hopt,
      if_true, Item.value, htakes]
    rw [takesNext] at htakes
    by_cases hlong : isLong arg = true
    · rw [if_pos hlong] at htakes ⊢
      obtain rfl := eq_of_beq htakes
      rfl
    · rw [if_neg hlong] at htakes ⊢
      rw [exitText_of_short hlong, cluster_of_takesNext hlong (eq_of_beq htakes)]
      rfl
  | option arg args hopt htakes ih =>
    have hrest : "--".toList ∉ args := fun hm => h (List.mem_cons_of_mem _ hm)
    rw [items_option hopt htakes, scan.eq_def, scanItems]
    dsimp only
    rw [hsep h]
    simp only [Bool.not_false, Bool.and_false, Bool.false_eq_true, if_false, Bool.true_and, hopt,
      if_true, Item.value, htakes]
    rw [takesNext] at htakes
    by_cases hlong : isLong arg = true
    · rw [if_pos hlong] at htakes
      have hne : arg ≠ "--regexp".toList := fun he => htakes (beq_iff_eq.mpr he)
      simp only [if_pos hlong, if_neg hne, attached, setFlags]
      split
      · rfl
      · exact ih _ _ hrest
    · rw [if_neg hlong] at htakes ⊢
      rw [exitText_of_short hlong]
      dsimp only
      rw [attached, if_neg hlong, setFlags, if_neg hlong, cluster_snd _ {} o.flags]
      have hcluster : (cluster (arg.drop 1) o.flags).2 ≠ some [] := fun he =>
        htakes (beq_iff_eq.mpr ((cluster_snd _ _ _).trans he))
      cases hc : cluster (arg.drop 1) o.flags with
      | mk flags rest =>
      rw [hc] at hcluster
      cases rest with
      | none => exact ih _ _ hrest
      | some val =>
        cases val with
        | nil => exact absurd rfl hcluster
        | cons c cs => exact ih _ _ hrest
  | operand arg args hopt ih =>
    have hrest : "--".toList ∉ args := fun hm => h (List.mem_cons_of_mem _ hm)
    rw [items_operand hopt, scan.eq_def, scanItems]
    dsimp only
    rw [hsep h]
    simp only [Bool.not_false, Bool.and_false, Bool.false_eq_true, if_false, hopt]
    split
    · exact ih _ _ hrest
    · exact ih _ _ hrest

/-! ### What the scan comes to -/

def allFlags (l : List Item) (o : Flags) : Flags :=
  l.foldl (fun o i => match i with | .option arg _ => setFlags arg o | .operand _ => o) o

theorem scanItems_exit {l : List Item} {text : String} (h : l.findSome? Item.text = some text)
    (o : Opts) (fromFlag : Bool) : scanItems o fromFlag l = .exit text := by
  induction l generalizing o fromFlag with
  | nil => cases h
  | cons i l ih =>
    rw [List.findSome?_cons] at h
    cases i with
    | operand arg =>
      rw [scanItems]
      split
      · exact ih h _ _
      · exact ih h _ _
    | option arg next =>
      dsimp only [Item.text] at h
      rw [scanItems]
      cases he : exitText arg with
      | some text' =>
        rw [he] at h
        cases h
        rfl
      | none =>
        rw [he] at h
        dsimp only
        cases (Item.option arg next).value with
        | none => exact ih h _ _
        | some p => exact ih h _ _

/-- Once there is a pattern, operands are files. -/
theorem scanItems_taken {l : List Item} (h : l.findSome? Item.text = none) {o : Opts}
    {fromFlag : Bool} (ho : o.patterns ≠ [] ∨ fromFlag = true) :
    scanItems o fromFlag l =
      .parsed ⟨allFlags l o.flags, o.patterns ++ values l, o.files ++ operands l⟩ := by
  induction l generalizing o fromFlag with
  | nil => simp [scanItems, values, operands, allFlags]
  | cons i l ih =>
    rw [List.findSome?_cons] at h
    cases i with
    | operand arg =>
      have hfile : ¬ (decide (o.patterns = []) && !fromFlag) = true := by
        rcases ho with ho | ho <;> simp [ho]
      rw [scanItems, if_neg hfile]
      have hops : operands (.operand arg :: l) = arg :: operands l := rfl
      have hvalues : values (.operand arg :: l) = values l := rfl
      refine (ih (o := { o with files := o.files ++ [arg] }) h ho).trans ?_
      rw [hops, hvalues, List.append_assoc]
      rfl
    | option arg next =>
      dsimp only [Item.text] at h
      rw [scanItems]
      cases he : exitText arg with
      | some text =>
        rw [he] at h
        cases h
      | none =>
        rw [he] at h
        dsimp only
        cases hv : (Item.option arg next).value with
        | none =>
          refine (ih (o := { o with flags := setFlags arg o.flags }) h ho).trans ?_
          simp [values, operands, allFlags, hv, Item.isOperand]
        | some p =>
          refine (ih h (.inr rfl)).trans ?_
          simp [values, operands, allFlags, hv, Item.isOperand, Opts.push]

/-- Up to then the first operand is the pattern. -/
theorem scanItems_fresh {l : List Item} (h : l.findSome? Item.text = none) {o : Opts}
    (ho : o.patterns = []) :
    scanItems o false l = .parsed (match operands l with
      | [] => ⟨allFlags l o.flags, values l, o.files⟩
      | w :: ws =>
        if valueFirst l then ⟨allFlags l o.flags, values l, o.files ++ w :: ws⟩
        else ⟨allFlags l o.flags, w :: values l, o.files ++ ws⟩) := by
  obtain ⟨flags, patterns, files⟩ := o
  obtain rfl : patterns = [] := ho
  induction l generalizing flags with
  | nil => rfl
  | cons i l ih =>
    rw [List.findSome?_cons] at h
    cases i with
    | operand arg =>
      have hops : operands (.operand arg :: l) = arg :: operands l := rfl
      have hvalues : values (.operand arg :: l) = values l := rfl
      have hfirst : valueFirst (.operand arg :: l) = false := rfl
      have hpush : (Opts.push ⟨flags, [], files⟩ arg).patterns ≠ [] := List.cons_ne_nil _ _
      rw [scanItems, if_pos (by rfl), hops, hvalues, hfirst]
      exact scanItems_taken h (.inl hpush)
    | option arg next =>
      dsimp only [Item.text] at h
      rw [scanItems]
      cases he : exitText arg with
      | some text =>
        rw [he] at h
        cases h
      | none =>
        rw [he] at h
        have hops : operands (.option arg next :: l) = operands l := rfl
        rw [hops]
        cases hv : (Item.option arg next).value with
        | none =>
          have hfirst : valueFirst (.option arg next :: l) = valueFirst l := by
            simp [valueFirst, Item.isOperand, hv]
          have hvalues : values (.option arg next :: l) = values l := by simp [values, hv]
          rw [hfirst, hvalues]
          exact ih h _
        | some p =>
          have hfirst : valueFirst (.option arg next :: l) = true := by
            simp [valueFirst, Item.isOperand, hv]
          have hvalues : values (.option arg next :: l) = p :: values l := by simp [values, hv]
          rw [hfirst, hvalues]
          refine (scanItems_taken h (.inr rfl)).trans ?_
          cases hl : operands l with
          | nil => simp [Opts.push, allFlags]
          | cons w ws => simp [Opts.push, allFlags]

/-! ### Moving the options -/

/-- An item as it is read. -/
def Item.WellRead : Item → Prop
  | .option arg next => isOption arg = true ∧ (¬ takesNext arg = true → next = none)
  | .operand arg => ¬ isOption arg = true

theorem wellRead_of_mem {args : List (List Char)} {i : Item} (h : i ∈ items args) : i.WellRead := by
  induction args using items_rec with
  | nil => cases h
  | next arg hopt htakes p args ih =>
    rw [items_next hopt htakes] at h
    rcases List.mem_cons.mp h with rfl | h
    · exact ⟨hopt, fun hn => absurd htakes hn⟩
    · exact ih h
  | dangling arg hopt htakes =>
    rw [items_dangling hopt htakes] at h
    rw [List.mem_singleton.mp h]
    exact ⟨hopt, fun hn => absurd htakes hn⟩
  | option arg args hopt htakes ih =>
    rw [items_option hopt htakes] at h
    rcases List.mem_cons.mp h with rfl | h
    · exact ⟨hopt, fun _ => rfl⟩
    · exact ih h
  | operand arg args hopt ih =>
    rw [items_operand hopt] at h
    rcases List.mem_cons.mp h with rfl | h
    · exact hopt
    · exact ih h

theorem flatMap_words_items (args : List (List Char)) : (items args).flatMap Item.words = args := by
  induction args using items_rec with
  | nil => rfl
  | next arg hopt htakes p args ih =>
    rw [items_next hopt htakes, List.flatMap_cons, ih]
    rfl
  | dangling arg hopt htakes =>
    rw [items_dangling hopt htakes]
    rfl
  | option arg args hopt htakes ih =>
    rw [items_option hopt htakes, List.flatMap_cons, ih]
    rfl
  | operand arg args hopt ih =>
    rw [items_operand hopt, List.flatMap_cons, ih]
    rfl

/-- Only the last item may lack its pattern. -/
theorem dangling_last (args : List (List Char)) :
    (∀ i ∈ items args, ¬ i.Dangling) ∨
      ∃ l arg, items args = l ++ [.option arg none] ∧ isOption arg = true ∧ takesNext arg = true ∧
        ∀ i ∈ l, ¬ i.Dangling := by
  have hcons : ∀ {i : Item} {args : List (List Char)}, ¬ i.Dangling →
      ((∀ j ∈ items args, ¬ j.Dangling) ∨ ∃ l arg, items args = l ++ [.option arg none] ∧
        isOption arg = true ∧ takesNext arg = true ∧ ∀ j ∈ l, ¬ j.Dangling) →
      (∀ j ∈ i :: items args, ¬ j.Dangling) ∨ ∃ l arg, i :: items args = l ++ [.option arg none] ∧
        isOption arg = true ∧ takesNext arg = true ∧ ∀ j ∈ l, ¬ j.Dangling := by
    intro i args hi h
    rcases h with h | ⟨l, arg, heq, hopt, htakes, h⟩
    · exact .inl (List.forall_mem_cons.mpr ⟨hi, h⟩)
    · exact .inr ⟨i :: l, arg, by rw [heq]; rfl, hopt, htakes, List.forall_mem_cons.mpr ⟨hi, h⟩⟩
  induction args using items_rec with
  | nil => exact .inl nofun
  | next arg hopt htakes p args ih =>
    rw [items_next hopt htakes]
    exact hcons (fun hd => nomatch hd.2) ih
  | dangling arg hopt htakes =>
    rw [items_dangling hopt htakes]
    exact .inr ⟨[], arg, rfl, hopt, htakes, nofun⟩
  | option arg args hopt htakes ih =>
    rw [items_option hopt htakes]
    exact hcons (fun hd => htakes hd.1) ih
  | operand arg args hopt ih =>
    rw [items_operand hopt]
    exact hcons (fun hd => hd) ih

theorem items_append {l : List Item} (hopt : ∀ i ∈ l, i.isOperand = false)
    (hread : ∀ i ∈ l, i.WellRead) (hfull : ∀ i ∈ l, ¬ i.Dangling) (rest : List (List Char)) :
    items (l.flatMap Item.words ++ rest) = l ++ items rest := by
  induction l with
  | nil => rfl
  | cons i l ih =>
    have ih := ih (fun i hi => hopt i (List.mem_cons_of_mem _ hi))
      (fun i hi => hread i (List.mem_cons_of_mem _ hi))
      (fun i hi => hfull i (List.mem_cons_of_mem _ hi))
    have hi := hread i List.mem_cons_self
    have hd := hfull i List.mem_cons_self
    rw [List.flatMap_cons, List.append_assoc]
    cases i with
    | operand arg => cases hopt _ List.mem_cons_self
    | option arg next =>
      by_cases htakes : takesNext arg = true
      · cases next with
        | none => exact absurd ⟨htakes, rfl⟩ hd
        | some p =>
          show items (arg :: p :: (l.flatMap Item.words ++ rest)) = _
          rw [items_next hi.1 htakes, ih]
          rfl
      · obtain rfl : next = none := hi.2 htakes
        show items (arg :: (l.flatMap Item.words ++ rest)) = _
        rw [items_option hi.1 htakes, ih]
        rfl

theorem items_operands {l : List Item} (hop : ∀ i ∈ l, i.isOperand = true)
    (hread : ∀ i ∈ l, i.WellRead) : items (l.flatMap Item.words) = l := by
  induction l with
  | nil => rfl
  | cons i l ih =>
    have ih := ih (fun i hi => hop i (List.mem_cons_of_mem _ hi))
      (fun i hi => hread i (List.mem_cons_of_mem _ hi))
    cases i with
    | option arg next => cases hop _ List.mem_cons_self
    | operand arg =>
      show items (arg :: l.flatMap Item.words) = _
      rw [items_operand (hread _ List.mem_cons_self), ih]

theorem options_only (l : List Item) :
    (l.filter (!·.isOperand)).findSome? Item.text = l.findSome? Item.text ∧
      values (l.filter (!·.isOperand)) = values l ∧
      (∀ o, allFlags (l.filter (!·.isOperand)) o = allFlags l o) := by
  induction l with
  | nil => exact ⟨rfl, rfl, fun _ => rfl⟩
  | cons i l ih =>
    obtain ⟨htext, hvalues, hflags⟩ := ih
    cases i with
    | operand arg => exact ⟨htext, hvalues, hflags⟩
    | option arg next =>
      refine ⟨?_, ?_, fun o => hflags _⟩
      · show List.findSome? Item.text (.option arg next :: l.filter (!·.isOperand)) = _
        rw [List.findSome?_cons, List.findSome?_cons, htext]
      · show List.filterMap Item.value (.option arg next :: l.filter (!·.isOperand)) = _
        rw [values, List.filterMap_cons, List.filterMap_cons]
        cases (Item.option arg next).value with
        | none => exact hvalues
        | some p => exact congrArg (p :: ·) hvalues

/-- Operands behind the options change nothing for the options. -/
theorem operands_behind {l : List Item} (h : ∀ i ∈ l, i.isOperand = true) (k : List Item) :
    (k ++ l).findSome? Item.text = k.findSome? Item.text ∧ values (k ++ l) = values k ∧
      (∀ o, allFlags (k ++ l) o = allFlags k o) := by
  have hnone : l.findSome? Item.text = none ∧ values l = [] ∧ ∀ o, allFlags l o = o := by
    induction l with
    | nil => exact ⟨rfl, rfl, fun _ => rfl⟩
    | cons i l ih =>
      cases i with
      | option arg next => cases h _ List.mem_cons_self
      | operand arg => exact ih fun i hi => h i (List.mem_cons_of_mem _ hi)
  obtain ⟨htext, hvalues, hflags⟩ := hnone
  refine ⟨?_, ?_, fun o => ?_⟩
  · rw [List.findSome?_append, htext, Option.or_none]
  · rw [values, List.filterMap_append]
    exact (congrArg (values k ++ ·) hvalues).trans (List.append_nil _)
  · rw [allFlags, List.foldl_append]
    exact hflags _

theorem filter_isOperand (l : List Item) : ∀ i ∈ l.filter (·.isOperand), i.isOperand = true :=
  fun _ hi => (List.mem_filter.mp hi).2

theorem filter_not_isOperand (l : List Item) :
    ∀ i ∈ l.filter (!·.isOperand), i.isOperand = false := fun _ hi => by
  simpa using (List.mem_filter.mp hi).2

theorem operands_append (k l : List Item) : operands (k ++ l) = operands k ++ operands l := by
  rw [operands, List.filter_append, List.flatMap_append, operands, operands]

theorem operands_of_options {l : List Item} (h : ∀ i ∈ l, i.isOperand = false) :
    operands l = [] := by
  rw [operands, List.filter_eq_nil_iff.mpr fun i hi => by rw [h i hi]; exact Bool.false_ne_true]
  rfl

/-- With the options in front, a pattern is given before the first operand if there is one. -/
theorem valueFirst_append {k l : List Item} (hk : ∀ i ∈ k, i.isOperand = false)
    (hl : ∀ i ∈ l, i.isOperand = true) : valueFirst (k ++ l) = true ↔ values k ≠ [] := by
  have htake : (k ++ l).takeWhile (!·.isOperand) = k := by
    rw [List.takeWhile_append_of_pos fun i hi => by rw [hk i hi]; rfl]
    cases l with
    | nil => exact List.append_nil k
    | cons i l => rw [List.takeWhile_cons_of_neg (by rw [hl i List.mem_cons_self]; simp),
        List.append_nil]
  rw [valueFirst, htake, List.any_eq_true, values, ne_eq, List.filterMap_eq_nil_iff, not_forall]
  constructor
  · rintro ⟨i, hi, hsome⟩
    exact ⟨i, fun h => by rw [h hi] at hsome; cases hsome⟩
  · rintro ⟨i, hi⟩
    obtain ⟨hmem, hne⟩ := Classical.not_imp.mp hi
    exact ⟨i, hmem, Option.isSome_iff_ne_none.mpr hne⟩

theorem values_ne_nil_of_valueFirst {l : List Item} (h : valueFirst l = true) : values l ≠ [] := by
  obtain ⟨i, hi, hsome⟩ := List.any_eq_true.mp h
  intro hnil
  have hnone := List.filterMap_eq_nil_iff.mp hnil i ((List.takeWhile_sublist _).subset hi)
  rw [hnone] at hsome
  cases hsome

theorem asks_iff {l : List Item} (hfull : ∀ i ∈ l, ¬ i.Dangling) :
    (∃ i ∈ l, i.asks = true) ↔ values l ≠ [] := by
  have heach : ∀ i ∈ l, i.asks = i.value.isSome := by
    intro i hi
    cases i with
    | operand arg => rfl
    | option arg next =>
      have hd := hfull _ hi
      rw [Item.asks, Item.value]
      by_cases htakes : takesNext arg = true
      · cases next with
        | none => exact absurd ⟨htakes, rfl⟩ hd
        | some p => rw [htakes, if_pos rfl]; rfl
      · rw [if_neg htakes, (Bool.not_eq_true _).mp htakes, Bool.false_or]
  rw [values, ne_eq, List.filterMap_eq_nil_iff, not_forall]
  constructor
  · rintro ⟨i, hi, hasks⟩
    rw [heach i hi] at hasks
    exact ⟨i, fun h => by rw [h hi] at hasks; cases hasks⟩
  · rintro ⟨i, hi⟩
    obtain ⟨hmem, hne⟩ := Classical.not_imp.mp hi
    exact ⟨i, hmem, (heach i hmem).trans (Option.isSome_iff_ne_none.mpr hne)⟩

/-! ### Where options may stand -/

/-- The scan ends at `--version` or `--help`, there is no `-e`, no operand, or a `-e` with its
pattern before the first operand and none without a pattern. -/
def Tame (l : List Item) : Prop :=
  l.findSome? Item.text ≠ none ∨ (∀ i ∈ l, i.asks = false) ∨ operands l = [] ∨
    valueFirst l = true ∧ ∀ i ∈ l, ¬ i.Dangling

section Order

variable {args : List (List Char)}

/-- The options first, then the operands. -/
def optionsFirst (l : List Item) : List (List Char) :=
  (l.filter (!·.isOperand)).flatMap Item.words ++ (l.filter (·.isOperand)).flatMap Item.words

theorem reorder_drop (argv : List (List Char)) :
    (reorder argv).drop 1 = optionsFirst (items (argv.drop 1)) := by
  cases argv with
  | nil => rfl
  | cons name args =>
    rw [reorder, List.append_assoc]
    rfl

theorem mem_of_mem_optionsFirst {w : List Char} (h : w ∈ optionsFirst (items args)) : w ∈ args := by
  have hmem : ∀ p : Item → Bool, w ∈ ((items args).filter p).flatMap Item.words → w ∈ args := by
    intro p hw
    obtain ⟨i, hi, hwi⟩ := List.mem_flatMap.mp hw
    rw [← flatMap_words_items args]
    exact List.mem_flatMap.mpr ⟨i, List.mem_of_mem_filter hi, hwi⟩
  exact (List.mem_append.mp h).elim (hmem _) (hmem _)

theorem items_optionsFirst (hfull : ∀ i ∈ items args, ¬ i.Dangling) :
    items (optionsFirst (items args)) =
      (items args).filter (!·.isOperand) ++ (items args).filter (·.isOperand) := by
  rw [optionsFirst, items_append (filter_not_isOperand _)
      (fun i hi => wellRead_of_mem (List.mem_of_mem_filter hi))
      (fun i hi => hfull i (List.mem_of_mem_filter hi)),
    items_operands (filter_isOperand _) fun i hi => wellRead_of_mem (List.mem_of_mem_filter hi)]

/-- Without a `-e` at the end that lacks its pattern. -/
theorem scan_optionsFirst {o : Opts} (ho : o.patterns = []) (hfull : ∀ i ∈ items args, ¬ i.Dangling)
    (htext : (items args).findSome? Item.text = none) :
    scanItems o false (items args) = scanItems o false (items (optionsFirst (items args))) ↔
      values (items args) = [] ∨ operands (items args) = [] ∨ valueFirst (items args) = true := by
  rw [items_optionsFirst hfull]
  generalize items args = l at htext ⊢
  have hops : operands (l.filter (!·.isOperand) ++ l.filter (·.isOperand)) = operands l := by
    rw [operands_append, operands_of_options (filter_not_isOperand l), List.nil_append, operands,
      List.filter_filter, operands]
    simp only [Bool.and_self]
  obtain ⟨htext', hvalues', hflags'⟩ := options_only l
  obtain ⟨htext'', hvalues'', hflags''⟩ := operands_behind (filter_isOperand l)
    (l.filter (!·.isOperand))
  have hfirst := valueFirst_append (filter_not_isOperand l) (filter_isOperand l)
  rw [hvalues'] at hfirst
  rw [scanItems_fresh htext ho, scanItems_fresh ((htext''.trans htext').trans htext) ho, hops,
    hvalues'', hvalues', hflags'', hflags']
  cases hw : operands l with
  | nil => simp
  | cons w ws =>
    dsimp only
    by_cases hvalues : values l = []
    · have h1 : valueFirst l = false := by
        cases hv : valueFirst l with
        | false => rfl
        | true => exact absurd hvalues (values_ne_nil_of_valueFirst hv)
      have h2 : valueFirst (l.filter (!·.isOperand) ++ l.filter (·.isOperand)) = false := by
        cases hv : valueFirst (l.filter (!·.isOperand) ++ l.filter (·.isOperand)) with
        | false => rfl
        | true => exact absurd hvalues (hfirst.mp hv)
      simp [h1, h2, hvalues]
    · rw [if_pos (hfirst.mpr hvalues)]
      cases hv : valueFirst l with
      | true => simp
      | false => simp [hvalues]

theorem filter_not_of_dangling {l : List Item} {arg : List Char}
    (hitems : items args = l ++ [.option arg none]) :
    (items args).filter (!·.isOperand) = l.filter (!·.isOperand) ++ [.option arg none] := by
  rw [hitems, List.filter_append]
  rfl

/-- A `-e` without a pattern takes the first operand when the options are moved. -/
theorem items_optionsFirst_dangling {l rest : List Item} {arg w : List Char}
    (hitems : items args = l ++ [.option arg none]) (hopt : isOption arg = true)
    (htakes : takesNext arg = true) (hfull : ∀ i ∈ l, ¬ i.Dangling)
    (hops : (items args).filter (·.isOperand) = .operand w :: rest) :
    items (optionsFirst (items args)) =
      l.filter (!·.isOperand) ++ .option arg (some w) :: rest := by
  have hmem : ∀ j ∈ rest, j.isOperand = true ∧ j.WellRead := fun j hj => by
    have hj : j ∈ (items args).filter (·.isOperand) := hops ▸ List.mem_cons_of_mem _ hj
    exact ⟨filter_isOperand _ j hj, wellRead_of_mem (List.mem_of_mem_filter hj)⟩
  rw [optionsFirst, filter_not_of_dangling hitems, hops, List.flatMap_append, List.append_assoc,
    items_append (filter_not_isOperand l)
      (fun i hi => wellRead_of_mem (hitems ▸ List.mem_append_left _ (List.mem_of_mem_filter hi)))
      (fun i hi => hfull i (List.mem_of_mem_filter hi))]
  show _ ++ items (arg :: w :: rest.flatMap Item.words) = _
  rw [items_next hopt htakes, items_operands (fun j hj => (hmem j hj).1) fun j hj => (hmem j hj).2]

/-- The text that ends the scan is the same then. -/
theorem text_dangling {l rest : List Item} {arg : List Char} (w : List Char)
    (hitems : items args = l ++ [.option arg none]) (hrest : ∀ i ∈ rest, i.isOperand = true) :
    (l.filter (fun i => !i.isOperand) ++ Item.option arg (some w) :: rest).findSome? Item.text =
      (items args).findSome? Item.text := by
  have hone : (l.filter (!·.isOperand) ++ [Item.option arg (some w)]).findSome? Item.text =
      (items args).findSome? Item.text := by
    rw [hitems, List.findSome?_append, List.findSome?_append, (options_only l).1]
    rfl
  have hbehind := (operands_behind hrest (l.filter (!·.isOperand) ++ [Item.option arg (some w)])).1
  rw [← hone, ← hbehind, List.append_assoc]
  rfl

theorem values_dangling {l rest : List Item} {arg : List Char} (w : List Char)
    (hitems : items args = l ++ [.option arg none]) (htakes : takesNext arg = true)
    (hrest : ∀ i ∈ rest, i.isOperand = true) :
    values (l.filter (!·.isOperand) ++ .option arg (some w) :: rest) = values (items args) ++ [w] := by
  have hvalue : (Item.option arg (some w)).value = some w := by rw [Item.value, if_pos htakes]
  have hnone : (Item.option arg none).value = none := by rw [Item.value, if_pos htakes]
  have hbehind : values rest = [] := (operands_behind hrest []).2.1
  have hl := (options_only l).2.1
  rw [values] at hl hbehind
  rw [hitems, values, values, List.filterMap_append, List.filterMap_append, hl,
    List.filterMap_cons, hvalue, hbehind, List.filterMap_cons, hnone, List.filterMap_nil,
    List.append_nil]
  rfl

theorem operands_cons {l : List Item} {w : List Char} {ws : List (List Char)}
    (hw : operands l = w :: ws) : ∃ rest, l.filter (·.isOperand) = .operand w :: rest ∧
      ∀ i ∈ rest, i.isOperand = true := by
  rw [operands] at hw
  have hall := filter_isOperand l
  cases hP : l.filter (·.isOperand) with
  | nil =>
    rw [hP] at hw
    cases hw
  | cons i rest =>
    rw [hP] at hw hall
    have hi := hall i List.mem_cons_self
    cases i with
    | option arg next => cases hi
    | operand w' =>
      obtain rfl : w' = w := (List.cons.inj hw).1
      exact ⟨rest, rfl, fun i hi => hall i (List.mem_cons_of_mem _ hi)⟩

theorem optionsFirst_of_no_operands (h : operands (items args) = []) :
    optionsFirst (items args) = args := by
  have hnone : (items args).filter (·.isOperand) = [] := by
    cases hP : (items args).filter (·.isOperand) with
    | nil => rfl
    | cons i rest =>
      rw [operands, hP, List.flatMap_cons, List.append_eq_nil_iff] at h
      cases i with
      | option arg next => cases h.1
      | operand w => cases h.1
  have hall : (items args).filter (!·.isOperand) = items args :=
    List.filter_eq_self.mpr fun i hi => by
      rw [Bool.not_eq_true', (Bool.not_eq_true _).mp (List.filter_eq_nil_iff.mp hnone i hi)]
  rw [optionsFirst, hnone, hall, List.flatMap_nil, List.append_nil, flatMap_words_items]

/-- With a `-e` without a pattern, the two scans differ. -/
theorem scan_optionsFirst_dangling {o : Opts} (ho : o.patterns = []) {l : List Item} {arg w : List Char}
    {ws : List (List Char)} (hitems : items args = l ++ [.option arg none])
    (hopt : isOption arg = true) (htakes : takesNext arg = true) (hfull : ∀ i ∈ l, ¬ i.Dangling)
    (htext : (items args).findSome? Item.text = none) (hw : operands (items args) = w :: ws)
    (hfirst : valueFirst (items args) = true) :
    scanItems o false (items args) ≠ scanItems o false (items (optionsFirst (items args))) := by
  obtain ⟨rest, hops, hrest⟩ := operands_cons hw
  rw [items_optionsFirst_dangling hitems hopt htakes hfull hops, scanItems_fresh htext ho,
    scanItems_fresh ((text_dangling w hitems hrest).trans htext) ho, hw,
    values_dangling w hitems htakes hrest, hfirst]
  intro heq
  have hpatterns := congrArg (fun o : Opts => o.patterns.length) (Outcome.parsed.inj heq)
  dsimp only at hpatterns
  rw [if_pos rfl] at hpatterns
  dsimp only at hpatterns
  split at hpatterns
  · rw [List.length_append, List.length_singleton] at hpatterns
    omega
  · split at hpatterns
    · rw [List.length_append, List.length_singleton] at hpatterns
      omega
    · rw [List.length_cons, List.length_append, List.length_singleton] at hpatterns
      omega

theorem scan_optionsFirst_eq (o : Opts) (h : "--".toList ∉ args) :
    scan o false false (optionsFirst (items args)) =
      scanItems o false (items (optionsFirst (items args))) :=
  scan_eq_scanItems o false fun hm => h (mem_of_mem_optionsFirst hm)

/-- The texts that end the scan are seen in either order. -/
theorem text_optionsFirst (args : List (List Char)) :
    (items (optionsFirst (items args))).findSome? Item.text = (items args).findSome? Item.text := by
  rcases dangling_last args with hfull | ⟨l, arg, hitems, hopt, htakes, hfull⟩
  · rw [items_optionsFirst hfull, (operands_behind (filter_isOperand _) _).1, (options_only _).1]
  · cases hw : operands (items args) with
    | nil => rw [optionsFirst_of_no_operands hw]
    | cons w ws =>
      obtain ⟨rest, hops, hrest⟩ := operands_cons hw
      rw [items_optionsFirst_dangling hitems hopt htakes hfull hops, text_dangling w hitems hrest]

/-- All operands are files if there are none or a pattern is given before them. -/
theorem files_iff {l : List Item} (htext : l.findSome? Item.text = none) {o : Opts}
    (ho : o.patterns = []) (hfiles : o.files = []) :
    (∀ o', scanItems o false l = .parsed o' → o'.files = operands l) ↔
      operands l = [] ∨ valueFirst l = true := by
  rw [scanItems_fresh htext ho, hfiles]
  have heach : ∀ r : Opts, (∀ o', Outcome.parsed r = .parsed o' → o'.files = operands l) ↔
      r.files = operands l := fun r =>
    ⟨fun h => h r rfl, fun h o' he => Outcome.parsed.inj he ▸ h⟩
  rw [heach]
  cases operands l with
  | nil => simp
  | cons w ws =>
    cases hv : valueFirst l with
    | true => simp
    | false => simp

end Order

/-- **Where the options stand makes no difference exactly on tame command lines.** -/
theorem order_free_iff (name : List Char) (argv : List (List Char)) (h : "--".toList ∉ argv.drop 1) :
    OrderFree name argv ↔ Tame (items (argv.drop 1)) := by
  rw [OrderFree, parseArgs, parseArgs, reorder_drop]
  generalize argv.drop 1 = args at h ⊢
  generalize ho : ({ flags := { fixed := Compress.baseName name == "fgrep".toList } } : Opts) = o
  have hfresh : o.patterns = [] := by rw [← ho]
  have hfiles : o.files = [] := by rw [← ho]
  rw [scan_eq_scanItems o false h, scan_optionsFirst_eq o h, Tame]
  cases htext : (items args).findSome? Item.text with
  | some text =>
    rw [scanItems_exit htext, scanItems_exit ((text_optionsFirst args).trans htext)]
    exact iff_of_true ⟨rfl, fun _ _ hp => nomatch hp⟩ (.inl (Option.some_ne_none _))
  | none =>
    rw [files_iff htext hfresh hfiles]
    rcases dangling_last args with hfull | ⟨l, arg, hitems, hopt, htakes, hfull⟩
    · have hasks : (∀ i ∈ items args, i.asks = false) ↔ values (items args) = [] := by
        rw [← not_iff_not, ← ne_eq (values _), ← asks_iff hfull]
        simp
      rw [scan_optionsFirst hfresh hfull htext, asks_iff hfull, hasks]
      tauto
    · have hlast : Item.option arg none ∈ items args :=
        hitems ▸ List.mem_append_right _ List.mem_cons_self
      have hasks : (Item.option arg none).asks = true := by rw [Item.asks, htakes, Bool.true_or]
      have hdangling : (Item.option arg none).Dangling := ⟨htakes, rfl⟩
      cases hw : operands (items args) with
      | nil =>
        rw [optionsFirst_of_no_operands hw]
        exact iff_of_true ⟨rfl, fun _ => .inl rfl⟩ (.inr (.inr (.inl rfl)))
      | cons w ws =>
        refine iff_of_false ?_ ?_
        · rintro ⟨heq, hall⟩
          rcases hall ⟨_, hlast, hasks⟩ with hnil | hfirst
          · cases hnil
          · exact scan_optionsFirst_dangling hfresh hitems hopt htakes hfull htext hw hfirst heq
        · rintro (hne | hnone | hnil | ⟨_, hnot⟩)
          · exact hne rfl
          · exact absurd ((hnone _ hlast).symm.trans hasks) Bool.false_ne_true
          · cases hnil
          · exact hnot _ hlast hdangling

/-- `grep PAT -i f` is `grep -i PAT f`. -/
theorem order_free_ignore_case :
    OrderFree "grep".toList ["grep".toList, "PAT".toList, "-i".toList, "f".toList] :=
  (order_free_iff _ _ (by decide)).mpr (.inr (.inl (by decide)))

/-- In `grep PAT -e X` the operand is a pattern. -/
theorem operand_before_e :
    ¬ OrderFree "grep".toList ["grep".toList, "PAT".toList, "-e".toList, "X".toList] :=
  fun h => absurd h.1 (by decide)

end Rustybox.Modern.Grep
