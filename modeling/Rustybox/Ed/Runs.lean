import Rustybox.Ed.Reading
import Rustybox.Ed.Substitute
import Rustybox.Ed.Writing
import Rustybox.Lib.Machine

/-!
# Runs of ed

One command keeps the linked list in order as long as what it inserts is steady.  It does what the
command does to a plain list as long as reads are unbroken and lines aligned.  And it keeps the
buffer clean as long as a `w` without addresses succeeds.
-/

namespace Rustybox.Ed

open Linked

variable {s s' : Globals} {ps : List ℕ} {a a' : Plain} {p : Parsed} {c : Command}

/-! ### Conditions -/

/-- Where the file that is read goes in. -/
def readNum (a : Plain) (p : Parsed) : ℤ := (if ¬p.have1 then a.lastNum else p.num1) + 1

/-- What a command inserts goes in behind the current line, or so far before it that `findLine`
counts from the first line. -/
def SteadyCommand (bufSize : ℕ) (a : Plain) (p : Parsed) (c : Command) : Prop :=
  match p.cp with
  | 97 :: _ => SteadyInsert a (p.num1 + 1) (Plain.typedLines c.typed) -- a
  | 99 :: _ => SteadyInsert (a.delete p.num1 p.num2) p.num1 (Plain.typedLines c.typed) -- c
  | 105 :: _ => -- i
    SteadyInsert a (if ¬p.have1 ∧ a.lines = [] then 1 else p.num1) (Plain.typedLines c.typed)
  | 114 :: cp => Plain.namesFile cp → SteadyRead bufSize a c.file (readNum a p) -- r
  | _ => True

/-- No read of a command goes over an unfinished line, and no line of a substitution is searched
from the wrong place. -/
def WholeCommand (bufSize : ℕ) (a : Plain) (p : Parsed) (c : Command) : Prop :=
  match p.cp with
  | 114 :: cp => Plain.namesFile cp → UnbrokenRead bufSize a c.file (readNum a p) -- r
  | 115 :: cp => AlignedLines a cp p.num1 p.num2 -- s
  | _ => True

/-- The buffer is not marked as unchanged when it is not what was saved. -/
def Clean (s : Globals) (a : Plain) : Prop := s.dirty = false → a.lines.flatten = s.saved

/-- A `w` without addresses, when there is something to be saved, saves it. -/
def SavingCommand (s : Globals) (a : Plain) (p : Parsed) (c : Command) : Prop :=
  match p.cp with
  | 119 :: cp => -- w
    (cp = [] ∨ cp.head? = some 32) → ¬(skipWhitespace cp = [] ∧ s.fileName = none) → ¬p.have1 →
      a.lines.flatten ≠ s.saved → a.lines ≠ [] ∧ c.target.Succeeds a.lines.length
  | _ => True

/-! ### Commands -/

/-- What becomes of the globals and of the list. -/
structure Outcome (s : Globals) (a : Plain) (p : Parsed) (c : Command) (s' : Globals)
    (a' : Plain) : Prop where
  holds : ∃ ps, Holds s' ps a'
  whole : WholeCommand s.bufSize a p c → a' = a.execute p c
  clean : Clean s a → SavingCommand s a p c → Clean s' a'

theorem After.clean (h : After s a s' a') (hc : Clean s a) : Clean s' a' := by
  intro hd
  rcases h.dirty with hd' | ⟨hd', hl⟩
  · rw [hd'] at hd
    cases hd
  · rw [hl, h.saved]
    exact hc (hd'.symm.trans hd)

theorem After.outcome (h : After s a s' a')
    (hw : WholeCommand s.bufSize a p c → a' = a.execute p c) : Outcome s a p c s' a' :=
  ⟨h.holds, hw, fun hc _ => h.clean hc⟩

theorem Holds.setFileName (hs : Holds s ps a) (fileName : Option Text) :
    Holds { s with fileName } ps a :=
  ⟨hs.path, hs.texts, hs.fresh, hs.lastNum, hs.curNum, hs.le, hs.pos, hs.curLine, hs.marks,
    hs.searchString, hs.bufSize⟩

theorem Holds.setMarks (hs : Holds s ps a) (marks : ℕ → ℤ) :
    Holds { s with marks } ps { a with marks } :=
  ⟨hs.path, hs.texts, hs.fresh, hs.lastNum, hs.curNum, hs.le, hs.pos, hs.curLine, rfl,
    hs.searchString, hs.bufSize⟩

theorem Holds.printAfter (hs : Holds s ps a) (num1 num2 : ℤ) : ∃ s',
    Ed.printLines s num1 num2 = some s' ∧ After s a s' (a.print num1 num2) := by
  obtain ⟨curNum, curLine, hprint, hs'⟩ := hs.printLines num1 num2
  exact ⟨_, hprint, Holds.after_cur hs' (a.print_lines num1 num2)⟩

/-- Another line becomes the current one and is printed, where there is such a line. -/
theorem Holds.moveTo (hs : Holds s ps a) (num : ℤ) : ∃ s', (do
      let (s, ok) ← Ed.setCurNum s num
      if ok then Ed.printLines s s.curNum s.curNum else return s) = some s' ∧
    After s a s' (a.move num) := by
  rw [Plain.move, Plain.lastNum]
  by_cases hnum : num < 1 ∨ num > a.lines.length
  · rw [if_pos hnum, Ed.setCurNum, hs.findLine_none hnum]
    exact ⟨s, rfl, hs.after⟩
  · rw [if_neg hnum]
    rw [not_or] at hnum
    obtain ⟨lp, hset, hs'⟩ := hs.setCurNum num (by omega) (by omega)
    obtain ⟨s', hprint, hafter⟩ := hs'.printAfter num num
    refine ⟨s', ?_, After.trans (Holds.after_cur hs' rfl) ?_⟩
    · rw [hset]
      exact hprint
    · rwa [Plain.print, if_neg ((Plain.not_bad _).mpr
        ⟨by omega, Int.le_refl num, by dsimp only; omega⟩)] at hafter

theorem map_on {r : Option Globals} (h : r = some s) :
    r.map (fun s => (s, true)) = some (s, true) := by rw [h]; rfl

/-- `c`: the lines go, and the typed ones come in their place. -/
theorem Holds.executeChange (hs : Holds s ps a) {p : Parsed} {c : Command} {cp : Text}
    (hcp : p.cp = 99 :: cp) (hsteady : SteadyCommand s.bufSize a p c) :
    ∃ s' on a', Option.map (·, true) (do
      let s ← Ed.deleteLines s p.num1 p.num2
      Ed.addLines s p.num1 c.typed) = some (s', on) ∧ Outcome s a p c s' a' := by
  simp only [SteadyCommand, hcp] at hsteady
  obtain ⟨s₁, hdel, hafter₁⟩ := hs.deleteLines p.num1 p.num2
  obtain ⟨ps₁, hs₁⟩ := hafter₁.holds
  obtain ⟨s', hadd, hafter⟩ := hs₁.addLines c.typed hsteady
  refine ⟨s', true, _, map_on ?_, (hafter₁.trans hafter).outcome fun _ => by
    simp only [Plain.execute, hcp]⟩
  rw [hdel]
  exact hadd

/-- `f`. -/
theorem Holds.executeName (hs : Holds s ps a) {p : Parsed} {c : Command} {cp : Text}
    (hcp : p.cp = 102 :: cp) :
    ∃ s' on a', (if cp ≠ [] ∧ cp.head? ≠ some 32 then (some s).map (·, true)
      else if skipWhitespace cp = [] then (some s).map (·, true)
      else (some { s with fileName := some (skipWhitespace cp) }).map (·, true)) =
        some (s', on) ∧ Outcome s a p c s' a' := by
  have hexec : a.execute p c = a := by rw [Plain.execute, hcp]; rfl
  split_ifs
  · exact ⟨s, true, a, rfl, hs.after.outcome fun _ => hexec.symm⟩
  · exact ⟨s, true, a, rfl, hs.after.outcome fun _ => hexec.symm⟩
  · exact ⟨_, true, a, rfl, After.outcome ⟨⟨ps, hs.setFileName _⟩, rfl, Or.inr ⟨rfl, rfl⟩⟩
      fun _ => hexec.symm⟩

/-- `k`. -/
theorem Holds.executeMark (hs : Holds s ps a) {p : Parsed} {c : Command} {cp : Text}
    (hcp : p.cp = 107 :: cp) :
    ∃ s' on a', (match skipWhitespace cp with
      | [ch] =>
        if 97 ≤ ch ∧ ch ≤ 122 then
          (some { s with marks := Function.update s.marks (ch.toNat - 97) p.num2 }).map (·, true)
        else (some s).map (·, true)
      | _ => (some s).map (·, true)) =
        some (s', on) ∧ Outcome s a p c s' a' := by
  have hexec : a.execute p c = match skipWhitespace cp with
      | [ch] =>
        if 97 ≤ ch ∧ ch ≤ 122 then
          { a with marks := Function.update a.marks (ch.toNat - 97) p.num2 } else a
      | _ => a := by rw [Plain.execute, hcp]; rfl
  split <;> rename_i hcp'
  · rw [hcp'] at hexec
    dsimp only at hexec
    split_ifs at hexec ⊢
    · rw [← hs.marks] at hexec
      exact ⟨_, true, _, rfl, After.outcome ⟨⟨ps, hs.setMarks _⟩, rfl, Or.inr ⟨rfl, rfl⟩⟩
        fun _ => hexec.symm⟩
    · exact ⟨s, true, a, rfl, hs.after.outcome fun _ => hexec.symm⟩
  · refine ⟨s, true, a, rfl, hs.after.outcome fun _ => ?_⟩
    rw [hexec]
    split
    · rename_i ch heq
      exact absurd heq (hcp' ch)
    · rfl

/-- `r`. -/
theorem Holds.executeRead (hs : Holds s ps a) {p : Parsed} {c : Command} {cp : Text}
    (hcp : p.cp = 114 :: cp) (hsteady : SteadyCommand s.bufSize a p c) :
    ∃ s' on a', (if cp ≠ [] ∧ cp.head? ≠ some 32 then (some s).map (·, true)
      else if skipWhitespace cp = [] then (some s).map (·, true)
      else Option.map (·, true) do
        let (s, ok) ← Ed.readLines s c.file ((if ¬p.have1 then s.lastNum else p.num1) + 1)
        return if ok = 0 ∧ s.fileName = none then
          { s with fileName := some (skipWhitespace cp) } else s) =
        some (s', on) ∧ Outcome s a p c s' a' := by
  have hexec : a.execute p c =
      if Plain.namesFile cp then a.read c.file (readNum a p) else a := by
    rw [Plain.execute, hcp]
    rfl
  simp only [SteadyCommand, hcp] at hsteady
  by_cases hname : Plain.namesFile cp = true
  · obtain ⟨s', ok, a', hread, hafter, -, hu⟩ := hs.readLines (hsteady hname)
    obtain ⟨ps', hs'⟩ := hafter.holds
    rw [if_pos hname] at hexec
    have hname' := hname
    simp only [Plain.namesFile, Bool.and_eq_true, Bool.or_eq_true, decide_eq_true_eq] at hname'
    rw [if_neg (by rintro ⟨h1, h2⟩; exact hname'.1.elim h1 h2), if_neg hname'.2, hs.lastNum]
    have hafter' : After s a (if ok = 0 ∧ s'.fileName = none then
        { s' with fileName := some (skipWhitespace cp) } else s') a' := by
      by_cases hfile : ok = 0 ∧ s'.fileName = none
      · rw [if_pos hfile]
        exact ⟨⟨ps', hs'.setFileName _⟩, hafter.saved, hafter.dirty⟩
      · rw [if_neg hfile]
        exact hafter
    refine ⟨_, true, a', map_on ?_, hafter'.outcome fun h => ?_⟩
    · rw [readNum, Plain.lastNum] at hread
      rw [hread]
      rfl
    · simp only [WholeCommand, hcp] at h
      rw [hexec]
      exact hu (h hname)
  · rw [if_neg hname] at hexec
    refine ⟨s, true, a, ?_, hs.after.outcome fun _ => hexec.symm⟩
    simp only [Plain.namesFile, Bool.and_eq_true, Bool.or_eq_true, decide_eq_true_eq,
      not_and_or, not_or] at hname
    by_cases h1 : cp ≠ [] ∧ cp.head? ≠ some 32
    · rw [if_pos h1]
      rfl
    · rw [if_neg h1, if_pos (not_not.mp (hname.resolve_left h1))]
      rfl

/-- `w`. -/
theorem Holds.executeWrite (hs : Holds s ps a) {p : Parsed} {c : Command} {cp : Text}
    (hcp : p.cp = 119 :: cp) :
    ∃ s' on a', (if cp ≠ [] ∧ cp.head? ≠ some 32 then (some s).map (·, true)
      else if skipWhitespace cp = [] ∧ s.fileName = none then (some s).map (·, true)
      else Option.map (·, true) do
        let (s, _) ← Ed.writeLines (if ¬p.have1 then { s with dirty := false } else s) c.target
          (if ¬p.have1 then 1 else p.num1) (if ¬p.have1 then s.lastNum else p.num2)
        return s) =
        some (s', on) ∧ Outcome s a p c s' a' := by
  have hexec : a.execute p c = a := by rw [Plain.execute, hcp]; rfl
  have hsame : ∃ s' on a', some (s, true) = some (s', on) ∧ Outcome s a p c s' a' :=
    ⟨s, true, a, rfl, hs.after.outcome fun _ => hexec.symm⟩
  by_cases h1 : cp ≠ [] ∧ cp.head? ≠ some 32
  · rw [if_pos h1]
    exact hsame
  · rw [if_neg h1]
    by_cases h2 : skipWhitespace cp = [] ∧ s.fileName = none
    · rw [if_pos h2]
      exact hsame
    · rw [if_neg h2]
      by_cases h : p.have1 = true
      · obtain ⟨saved, ok, hwrite, hsaved, -⟩ := hs.writeLines c.target p.num1 p.num2
        refine ⟨_, true, a, map_on ?_, ⟨⟨ps, hs.setSaved saved⟩, fun _ => hexec.symm, ?_⟩⟩
        · rw [if_neg (not_not.mpr h), if_neg (not_not.mpr h), if_neg (not_not.mpr h), hwrite]
          rfl
        · intro hc _ hd
          rcases hsaved with h' | h'
          · exact (hc hd).trans h'.symm
          · exact h'.symm
      · obtain ⟨saved, ok, hwrite, hsaved, hall⟩ :=
          (hs.setDirty false).writeLines c.target 1 s.lastNum
        refine ⟨_, true, a, map_on ?_,
          ⟨⟨ps, (hs.setDirty false).setSaved saved⟩, fun _ => hexec.symm, ?_⟩⟩
        · rw [if_pos h, if_pos h, if_pos h, hwrite]
          rfl
        · intro _ hsave _
          simp only [SavingCommand, hcp] at hsave
          by_cases heq : a.lines.flatten = s.saved
          · rcases hsaved with h' | h'
            · exact heq.trans h'.symm
            · exact h'.symm
          · rw [not_and_or, not_not, not_not] at h1
            obtain ⟨hne, hsucc⟩ := hsave h1 h2 h heq
            exact (hall rfl hs.lastNum hne hsucc).symm

/-- `z`. -/
theorem Holds.executePage (hs : Holds s ps a) {p : Parsed} {c : Command} {cp : Text}
    (hcp : p.cp = 122 :: cp) :
    ∃ s' on a', ((match cp.head? with
      | some 45 => Ed.printLines s (s.curNum - 21) s.curNum
      | some 46 => Ed.printLines s (s.curNum - 11) (s.curNum + 10)
      | _ => Ed.printLines s s.curNum (s.curNum + 21)).map (·, true)) =
        some (s', on) ∧ Outcome s a p c s' a' := by
  have hexec : a.execute p c = match cp.head? with
      | some 45 => a.print (a.curNum - 21) a.curNum
      | some 46 => a.print (a.curNum - 11) (a.curNum + 10)
      | _ => a.print a.curNum (a.curNum + 21) := by rw [Plain.execute, hcp]; rfl
  rw [hs.curNum]
  split <;> rename_i hz
  · rw [hz] at hexec
    obtain ⟨s', hprint, hafter⟩ := hs.printAfter (a.curNum - 21) a.curNum
    exact ⟨s', true, _, map_on hprint, hafter.outcome fun _ => hexec.symm⟩
  · rw [hz] at hexec
    obtain ⟨s', hprint, hafter⟩ := hs.printAfter (a.curNum - 11) (a.curNum + 10)
    exact ⟨s', true, _, map_on hprint, hafter.outcome fun _ => hexec.symm⟩
  · obtain ⟨s', hprint, hafter⟩ := hs.printAfter a.curNum (a.curNum + 21)
    refine ⟨s', true, _, map_on hprint, hafter.outcome fun _ => ?_⟩
    rw [hexec]
    split <;> first | rfl | (exfalso; solve_by_elim)

/-- `.`. -/
theorem Holds.executeCurrent (hs : Holds s ps a) {p : Parsed} {c : Command} {cp : Text}
    (hcp : p.cp = 46 :: cp) :
    ∃ s' on a', (if p.have1 then (some s).map (·, true)
      else (Ed.printLines s s.curNum s.curNum).map (·, true)) =
        some (s', on) ∧ Outcome s a p c s' a' := by
  have hexec : a.execute p c = a := by rw [Plain.execute, hcp]; rfl
  split_ifs
  · exact ⟨s, true, a, rfl, hs.after.outcome fun _ => hexec.symm⟩
  · rw [hs.curNum]
    obtain ⟨s', hprint, hafter⟩ := hs.printAfter a.curNum a.curNum
    refine ⟨s', true, _, map_on hprint, hafter.outcome fun _ => ?_⟩
    rw [hexec, Plain.print, ite_self]

/-- A line that names no command: the addressed line, or the next one. -/
theorem Holds.executeNext (hs : Holds s ps a) {p : Parsed} {c : Command} (hcp : p.cp = []) :
    ∃ s' on a', (if p.have1 then (Ed.printLines s p.num2 p.num2).map (·, true)
      else Option.map (·, true) do
        let (s, ok) ← Ed.setCurNum s (s.curNum + 1)
        if ok then Ed.printLines s s.curNum s.curNum else return s) =
        some (s', on) ∧ Outcome s a p c s' a' := by
  have hexec : a.execute p c =
      if p.have1 then a.print p.num2 p.num2 else a.move (a.curNum + 1) := by
    rw [Plain.execute, hcp]
  split_ifs at hexec ⊢
  · obtain ⟨s', hprint, hafter⟩ := hs.printAfter p.num2 p.num2
    exact ⟨s', true, _, map_on hprint, hafter.outcome fun _ => hexec.symm⟩
  · rw [hs.curNum]
    obtain ⟨s', hmove, hafter⟩ := hs.moveTo (a.curNum + 1)
    exact ⟨s', true, _, map_on hmove, hafter.outcome fun _ => hexec.symm⟩

/-- **Every command does what it does to the list of lines.** -/
theorem Holds.execute (hs : Holds s ps a) (p : Parsed) (c : Command)
    (hsteady : SteadyCommand s.bufSize a p c) :
    ∃ s' on a', Ed.execute s p c = some (s', on) ∧ Outcome s a p c s' a' := by
  have hempty : s.lastNum = 0 ↔ a.lines = [] := by
    rw [hs.lastNum, Int.natCast_eq_zero, List.length_eq_zero_iff]
  unfold Ed.execute
  dsimp only
  split <;> rename_i hcp
  case h_1 =>
    -- a
    simp only [SteadyCommand, hcp] at hsteady
    obtain ⟨s', hadd, hafter⟩ := hs.addLines c.typed hsteady
    exact ⟨s', true, _, map_on hadd, hafter.outcome fun _ => by simp only [Plain.execute, hcp]⟩
  case h_2 => exact hs.executeChange hcp hsteady
  case h_3 =>
    -- d
    obtain ⟨s', hdel, hafter⟩ := hs.deleteLines p.num1 p.num2
    exact ⟨s', true, _, map_on hdel, hafter.outcome fun _ => by simp only [Plain.execute, hcp]⟩
  case h_4 cp => exact hs.executeName hcp
  case h_5 =>
    -- i
    simp only [SteadyCommand, hcp] at hsteady
    simp only [hempty]
    obtain ⟨s', hadd, hafter⟩ := hs.addLines c.typed hsteady
    exact ⟨s', true, _, map_on hadd, hafter.outcome fun _ => by simp only [Plain.execute, hcp]⟩
  case h_6 cp => exact hs.executeMark hcp
  case h_7 =>
    -- l
    obtain ⟨s', hprint, hafter⟩ := hs.printAfter p.num1 p.num2
    exact ⟨s', true, _, map_on hprint, hafter.outcome fun _ => by rw [Plain.execute, hcp]; rfl⟩
  case h_8 =>
    -- p
    obtain ⟨s', hprint, hafter⟩ := hs.printAfter p.num1 p.num2
    exact ⟨s', true, _, map_on hprint, hafter.outcome fun _ => by rw [Plain.execute, hcp]; rfl⟩
  case h_9 =>
    -- q
    have hexec : a.execute p c = a := by rw [Plain.execute, hcp]; rfl
    split_ifs
    all_goals exact ⟨s, _, a, rfl, hs.after.outcome fun _ => hexec.symm⟩
  case h_10 cp => exact hs.executeRead hcp hsteady
  case h_11 cp =>
    -- s
    obtain ⟨s', a', hsub, hafter, hal⟩ := hs.subCommand cp p.num1 p.num2
    refine ⟨s', true, a', map_on hsub, hafter.outcome fun h => ?_⟩
    simp only [WholeCommand, hcp] at h
    rw [hal h, Plain.execute, hcp]
    rfl
  case h_12 cp => exact hs.executeWrite hcp
  case h_13 cp => exact hs.executePage hcp
  case h_14 => exact hs.executeCurrent hcp
  case h_15 =>
    -- -
    rw [hs.curNum]
    obtain ⟨s', hmove, hafter⟩ := hs.moveTo (a.curNum - 1)
    exact ⟨s', true, _, map_on hmove, hafter.outcome fun _ => by rw [Plain.execute, hcp]; rfl⟩
  case h_16 =>
    -- =
    have hexec : a.execute p c = a := by rw [Plain.execute, hcp]; rfl
    exact ⟨s, true, a, rfl, hs.after.outcome fun _ => hexec.symm⟩
  case h_17 => exact hs.executeNext hcp
  case h_18 =>
    have hexec : a.execute p c = a := by
      unfold Plain.execute
      split <;> first | rfl | (exfalso; solve_by_elim)
    exact ⟨s, true, a, rfl, hs.after.outcome fun _ => hexec.symm⟩

/-- ed stops only when nothing is unsaved or the user says so. -/
theorem execute_quits (h : Ed.execute s p c = some (s', false)) :
    s' = s ∧ (s.dirty = false ∨ goesOn c.confirm = false) := by
  have map_ne {r : Option Globals} : r.map (fun s => (s, true)) ≠ some (s', false) := by
    intro h
    obtain ⟨_, -, h⟩ := Option.map_eq_some_iff.mp h
    exact Bool.noConfusion (congrArg Prod.snd h)
  unfold Ed.execute at h
  dsimp only at h
  split at h
  case h_9 cp _ =>
    by_cases h1 : p.have1 = true ∨ skipWhitespace cp ≠ []
    · rw [if_pos h1] at h
      exact absurd h map_ne
    · rw [if_neg h1] at h
      by_cases h2 : s.dirty = true
      · rw [if_neg (not_not.mpr h2), Option.some.injEq, Prod.mk.injEq] at h
        exact ⟨h.1.symm, Or.inr h.2⟩
      · rw [if_pos h2, Option.some.injEq, Prod.mk.injEq] at h
        exact ⟨h.1.symm, Or.inl (Bool.eq_false_iff.mpr h2)⟩
  case h_6 =>
    split at h
    · split_ifs at h <;> exact absurd h map_ne
    · exact absurd h map_ne
  all_goals
    first
    | exact absurd h map_ne
    | (split_ifs at h <;> exact absurd h map_ne)

/-! ### Command lines -/

/-- A condition on a command in the globals in which its addresses have been read. -/
def OnParsed (C : Globals → Parsed → Command → Prop) (s : Globals) (c : Command) : Prop :=
  ∀ s' p, parseAddresses Globals.view s (trimEnd c.buf) = some (s', some p) → C s' p c

theorem OnParsed.of_eq {C : Globals → Parsed → Command → Prop}
    (h : parseAddresses Globals.view s (trimEnd c.buf) = some (s, some p)) (hC : C s p c) :
    OnParsed C s c := by
  intro s' p' hp
  obtain ⟨rfl, hp'⟩ := Prod.mk.inj (Option.some.inj (h.symm.trans hp))
  exact Option.some.inj hp' ▸ hC

def Steadied (s : Globals) (p : Parsed) (c : Command) : Prop :=
  SteadyCommand s.bufSize s.plain p c

def Whole (s : Globals) (p : Parsed) (c : Command) : Prop := WholeCommand s.bufSize s.plain p c

def Saving (s : Globals) (p : Parsed) (c : Command) : Prop := SavingCommand s s.plain p c

theorem Holds.ensureCurrent (hs : Holds s ps a) : ensureCurrent s = some s := by
  rw [Ed.ensureCurrent, if_neg]
  rintro ⟨h1, h2⟩
  rw [hs.lastNum] at h2
  rw [hs.curNum] at h1
  have := hs.pos.2 (List.ne_nil_of_length_pos (by omega))
  omega

/-- **A command line does what it does to the list of lines.** -/
theorem Holds.doCommand (hs : Holds s ps a) (c : Command) (hsteady : OnParsed Steadied s c) :
    ∃ s' on a', Ed.doCommand s c = some (s', on) ∧ (∃ ps, Holds s' ps a') ∧
      (OnParsed Whole s c → a' = a.command c) ∧
      (Clean s a → OnParsed Saving s c → Clean s' a') := by
  obtain ⟨s₁, a₁, p, hparse, hparse', hafter⟩ := hs.parseAddresses (trimEnd c.buf)
  obtain ⟨ps₁, hs₁⟩ := hafter.holds
  rw [Ed.doCommand, hs.ensureCurrent, Plain.command, hparse']
  simp only [Option.bind_eq_bind, Option.bind_some, hparse]
  cases p with
  | none => exact ⟨s₁, true, a₁, rfl, hafter.holds, fun _ => rfl, fun hc _ => hafter.clean hc⟩
  | some p =>
    have hst := hsteady s₁ p hparse
    rw [Steadied, hs₁.plain_eq] at hst
    obtain ⟨s', on, a', hexec, hout⟩ := hs₁.execute p c hst
    refine ⟨s', on, a', hexec, hout.holds, ?_, ?_⟩
    · intro h
      have hw := h s₁ p hparse
      rw [Whole, hs₁.plain_eq] at hw
      exact hout.whole hw
    · intro hc h
      have hw := h s₁ p hparse
      rw [Saving, hs₁.plain_eq] at hw
      exact hout.clean (hafter.clean hc) hw

/-- **Nothing is lost when ed stops without being told to.** -/
theorem Holds.quits (hs : Holds s ps a) (hc : Clean s a) (h : Ed.doCommand s c = some (s', false))
    (hgo : goesOn c.confirm = true) : s'.plain.lines.flatten = s'.saved := by
  obtain ⟨s₁, a₁, p, hparse, -, hafter⟩ := hs.parseAddresses (trimEnd c.buf)
  obtain ⟨ps₁, hs₁⟩ := hafter.holds
  rw [Ed.doCommand, hs.ensureCurrent] at h
  simp only [Option.bind_eq_bind, Option.bind_some, hparse] at h
  cases p with
  | none => cases h
  | some p =>
    obtain ⟨rfl, hd⟩ := execute_quits h
    rw [hs₁.plain_eq]
    exact hafter.clean hc (hd.resolve_right fun h => by rw [hgo] at h; cases h)

end Rustybox.Ed
