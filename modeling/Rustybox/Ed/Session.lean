import Rustybox.Ed.Runs

/-!
# A session of ed

A session starts with a file or without one, and goes on until ed stops.  Next to the globals of ed
goes the list of lines on which the same commands are carried out.

Three things in the code go wrong.  `insertLine` leaves `curLine` behind when the new line is not
behind the current one, `readLines` goes over an unfinished line, and `subCommand` does not start
each line at its beginning.  And `w` marks the buffer as unchanged before anything is written.  Runs
without these are what the theorems are about, and the runs that follow them show each result fail.
-/

namespace Rustybox.Ed

open Linked

/-! ### The start -/

def Plain.start : Option (Text × File) → Plain
  | none => empty
  | some (_, file) => (empty.read file 1).move 1

/-- No read of the first file goes over an unfinished line. -/
def UnbrokenStart : Option (Text × File) → Prop
  | none => True
  | some (_, file) => UnbrokenRead 1024 Plain.empty file 1

theorem holds_start (garbage : ℕ → UInt8) : Holds (start garbage) [] Plain.empty where
  path := by
    refine ⟨?_, by decide, by decide⟩
    rw [ring, List.nil_append, List.isChain_cons_cons]
    exact ⟨⟨rfl, rfl⟩, List.isChain_singleton _⟩
  texts := rfl
  fresh p hp := by
    have : p = head := by simpa [ring] using hp
    rw [this]
    exact Nat.one_lt_two
  lastNum := rfl
  curNum := rfl
  le := Int.le_refl 0
  pos := ⟨Int.le_refl 0, fun h => absurd rfl h⟩
  curLine h := absurd h (Int.lt_irrefl 0)
  marks := rfl
  searchString := rfl
  bufSize := show 2 ≤ 1024 by decide

theorem flatten_splitLines (data : Text) :
    (Plain.splitLines data).1.flatten ++ (Plain.splitLines data).2 = data := by
  induction data with
  | nil => rfl
  | cons c data ih =>
    rw [Plain.splitLines_cons]
    by_cases hc : c = 10
    · rw [if_pos hc, hc, List.flatten_cons, List.append_assoc, ih]
      rfl
    · rw [if_neg hc]
      rcases hsplit : Plain.splitLines data with ⟨_ | ⟨line, lines⟩, rest⟩
      · rw [hsplit] at ih
        exact congrArg (List.cons c) ih
      · rw [hsplit] at ih
        exact congrArg (List.cons c) ih

theorem flatten_fileLines {f : File} (h : f.ok = true) : (Plain.fileLines f).flatten = f.data := by
  have hflat := flatten_splitLines f.data
  rw [Plain.fileLines]
  by_cases hc : f.ok = true ∧ (Plain.splitLines f.data).2 ≠ []
  · rw [if_pos hc, List.flatten_append]
    simpa using hflat
  · rw [if_neg hc]
    rw [not_and, not_not] at hc
    rwa [hc h, List.append_nil] at hflat

theorem Plain.read_empty {f : File} (h : f.opened = true) :
    (Plain.empty.read f 1).lines = Plain.fileLines f := by
  rw [Plain.read, if_pos h, Plain.insert]
  by_cases hne : Plain.fileLines f = []
  · rw [if_pos (Or.inr (Or.inr hne)), hne]
    rfl
  · rw [if_neg (by simp [hne, Plain.empty, Plain.lastNum])]
    simp [Plain.empty]

theorem Holds.toFirst {s : Globals} {ps : List ℕ} {a : Plain} (hs : Holds s ps a) :
    ∃ curNum curLine, toFirst s = some { s with curNum, curLine } ∧
      Holds { s with curNum, curLine } ps (a.move 1) := by
  have hlast := hs.lastNum
  rw [Ed.toFirst, Plain.move, Plain.lastNum]
  by_cases hne : s.lastNum = 0
  · rw [if_neg (not_not.mpr hne), if_pos (by omega)]
    exact ⟨s.curNum, s.curLine, rfl, hs⟩
  · rw [if_pos hne, if_neg (by omega)]
    obtain ⟨lp, hset, hs'⟩ := hs.setCurNum 1 (by omega) (by omega)
    rw [hset]
    exact ⟨1, lp, rfl, hs'⟩

/-- **ed starts with the lines of the file.** -/
theorem edMain_holds (garbage : ℕ → UInt8) (args : Option (Text × File)) :
    ∃ r, edMain garbage args = some r ∧ ∀ s, r = some s → ∃ ps a, Holds s ps a ∧
      (UnbrokenStart args → a = Plain.start args ∧ a.lines.flatten = s.saved) := by
  rcases args with _ | ⟨name, f⟩
  · refine ⟨_, rfl, ?_⟩
    rintro s ⟨⟩
    exact ⟨[], Plain.empty, holds_start garbage, fun _ => ⟨rfl, rfl⟩⟩
  · have hs := (holds_start garbage).setFileName (some name)
    obtain ⟨s₁, ok, a₁, hread, hafter, hok, hu⟩ := hs.readLines
      (show SteadyRead 1024 Plain.empty f 1 from fun _ _ _ => Or.inl (Or.inl Int.one_pos))
    obtain ⟨ps, hs₁⟩ := hafter.holds
    rw [edMain, hread]
    simp only [Option.bind_eq_bind, Option.bind_some]
    by_cases hzero : ok = 0
    · rw [if_pos hzero]
      exact ⟨none, rfl, fun s h => by cases h⟩
    · rw [if_neg hzero]
      obtain ⟨curNum, curLine, hfirst, hs'⟩ := hs₁.toFirst
      rw [hfirst]
      refine ⟨_, rfl, ?_⟩
      rintro s ⟨⟩
      refine ⟨ps, a₁.move 1, (hs'.setDirty false).setSaved f.data, ?_⟩
      intro hub
      rw [hu hub]
      refine ⟨rfl, ?_⟩
      obtain ⟨hopen, hfok⟩ := hok hzero
      have hmove (a : Plain) : (a.move 1).lines = a.lines := by
        rw [Plain.move]
        split_ifs <;> rfl
      rw [hmove, Plain.read_empty hopen, flatten_fileLines hfok]

/-! ### Sessions -/

/-- A round of `doCommands`.  There are no globals after a crash, and nothing follows when ed
stops. -/
def step (st : Option Globals) (c : Command) : Option (Option Globals) :=
  st.bind fun s =>
    match doCommand s c with
    | none => some none
    | some (s, true) => some (some s)
    | some (_, false) => none

/-- The same command on the globals and on the list of lines. -/
def stepBoth (st : Option Globals × Plain) (c : Command) : Option (Option Globals × Plain) :=
  (step st.1 c).map fun s => (s, st.2.command c)

/-- The linked list holds the list of lines: `lastNum` is its length, `curNum` is in it, and
`curLine` is the node with that number. -/
def Represents (st : Option Globals × Plain) : Prop := ∃ s ps, st.1 = some s ∧ Holds s ps st.2

/-- What goes in goes in where `findLine` finds its way, and all of it. -/
def Proper (st : Option Globals × Plain) (c : Command) : Prop :=
  ∀ s, st.1 = some s → OnParsed Steadied s c ∧ OnParsed Whole s c

theorem represents_step {st st' : Option Globals × Plain} {c : Command}
    (hstep : stepBoth st c = some st') (hproper : Proper st c) (h : Represents st) :
    Represents st' := by
  obtain ⟨s, ps, hs, hh⟩ := h
  obtain ⟨hsteady, hwhole⟩ := hproper s hs
  obtain ⟨s', on, a', hdo, hholds, heq, -⟩ := hh.doCommand c hsteady
  rw [stepBoth, step, hs, Option.bind_some, hdo] at hstep
  cases on with
  | false => cases hstep
  | true =>
    rw [Option.map_some, Option.some.injEq] at hstep
    subst hstep
    obtain ⟨ps', hs'⟩ := hholds
    exact ⟨s', ps', rfl, heq hwhole ▸ hs'⟩

/-- **The linked list represents the list of lines** in every state of a session in which every
command is proper. -/
theorem session_represents (garbage : ℕ → UInt8) (args : Option (Text × File))
    (cs : List Command) (hargs : UnbrokenStart args) :
    ∃ r, edMain garbage args = some r ∧ ∀ s, r = some s →
      (∀ m ∈ Machine.moves stepBoth (some s, Plain.start args) cs, Proper m.1 m.2) →
      ∀ st ∈ Machine.states stepBoth (some s, Plain.start args) cs, Represents st := by
  obtain ⟨r, hr, hstart⟩ := edMain_holds garbage args
  refine ⟨r, hr, ?_⟩
  intro s hs hgood
  obtain ⟨ps, a, hh, ha⟩ := hstart s hs
  rw [(ha hargs).1] at hh
  exact Machine.states_of_moves (fun _ _ _ h hp => represents_step h hp) cs _
    ⟨s, ps, rfl, hh⟩ hgood

/-- A command line with lines that are typed. -/
def typing (buf : Text) (lines : List Text) : Command :=
  ⟨buf, lines.map Reply.text, ⟨false, [], fun _ => 0, false⟩, ⟨false, fun _ => false, false⟩, .eof⟩

/-- Lines are appended, the last is deleted, and another is appended. -/
theorem session_represents_typed :
    (Machine.states stepBoth (some (start fun _ => 0), Plain.empty)
      [typing [97, 10] [[65, 10], [66, 10]], typing [100, 10] [],
        typing [97, 10] [[67, 10]]]).Forall Represents := by
  obtain ⟨r, hr, h⟩ := session_represents (fun _ => 0) none
    [typing [97, 10] [[65, 10], [66, 10]], typing [100, 10] [], typing [97, 10] [[67, 10]]]
    trivial
  obtain rfl : r = some (start fun _ => 0) := Option.some.inj hr.symm
  have happend (st : Option Globals × Plain) (lines : List Text) :
      Proper st (typing [97, 10] lines) := by
    intro s _
    have hparse : parseAddresses Globals.view s (trimEnd [97, 10]) =
        some (s, some ⟨false, s.curNum, s.curNum, [97]⟩) := rfl
    exact ⟨.of_eq hparse fun _ _ _ => Or.inl (Int.lt_succ s.curNum), .of_eq hparse trivial⟩
  have hdelete (st : Option Globals × Plain) : Proper st (typing [100, 10] []) := by
    intro s _
    have hparse : parseAddresses Globals.view s (trimEnd [100, 10]) =
        some (s, some ⟨false, s.curNum, s.curNum, [100]⟩) := rfl
    exact ⟨.of_eq hparse trivial, .of_eq hparse trivial⟩
  refine List.forall_iff_forall_mem.mpr (h _ rfl fun m hm => ?_)
  obtain ⟨st, c⟩ := m
  have hc := Machine.mem_of_mem_moves _ _ hm
  simp only [List.mem_cons, List.not_mem_nil, or_false] at hc
  rcases hc with rfl | rfl | rfl
  · exact happend st _
  · exact hdelete st
  · exact happend st _

/-- **Lines that are inserted before the current line are torn apart.** -/
theorem inserted_apart : ∃ st ∈ Machine.states stepBoth (some (start fun _ => 0), Plain.empty)
      [typing [97, 10] [[65, 10], [66, 10], [67, 10]], typing [50, 10] [],
        typing [49, 105, 10] [[88, 10], [89, 10]]],
    st.1.map (fun s => s.plain.lines) =
        some [[88, 10], [65, 10], [89, 10], [66, 10], [67, 10]] ∧
      st.2.lines = [[88, 10], [89, 10], [65, 10], [66, 10], [67, 10]] ∧ ¬Represents st := by
  refine ⟨_, List.getLast_mem (by decide), by decide, by decide, ?_⟩
  rintro ⟨s, ps, hs, hh⟩
  have hlines := congrArg (Option.map fun s => s.plain.lines) hs
  rw [Option.map_some, hh.plain_eq] at hlines
  exact absurd hlines (by decide)

/-! ### What is saved -/

/-- What goes in goes in where `findLine` finds its way, and a `w` without addresses saves what is
to be saved. -/
def Cautious (st : Option Globals) (c : Command) : Prop :=
  ∀ s, st = some s → OnParsed Steadied s c ∧ OnParsed Saving s c

/-- The linked list is in order, and the buffer is clean. -/
def Kept (st : Option Globals) : Prop := ∃ s ps a, st = some s ∧ Holds s ps a ∧ Clean s a

theorem kept_step {st st' : Option Globals} {c : Command} (hstep : step st c = some st')
    (hcautious : Cautious st c) (h : Kept st) : Kept st' := by
  obtain ⟨s, ps, a, hs, hh, hclean⟩ := h
  obtain ⟨hsteady, hsaving⟩ := hcautious s hs
  obtain ⟨s', on, a', hdo, ⟨ps', hs'⟩, -, hclean'⟩ := hh.doCommand c hsteady
  rw [step, hs, Option.bind_some, hdo] at hstep
  cases on with
  | false => cases hstep
  | true =>
    rw [Option.some.injEq] at hstep
    exact ⟨s', ps', a', hstep.symm, hs', hclean' hclean hsaving⟩

/-- **Unsaved changes are not forgotten** in a session in which every command is cautious: a buffer
that is not marked as changed is what was saved last, and ed stops without asking only then. -/
theorem session_saves (garbage : ℕ → UInt8) (args : Option (Text × File)) (cs : List Command)
    (hargs : UnbrokenStart args) :
    ∃ r, edMain garbage args = some r ∧ ∀ s, r = some s →
      (∀ m ∈ Machine.moves step (some s) cs, Cautious m.1 m.2) →
      ∀ st ∈ Machine.states step (some s) cs, ∃ s, st = some s ∧
        (s.dirty = false → s.plain.lines.flatten = s.saved) ∧
        ∀ c s', doCommand s c = some (s', false) → goesOn c.confirm = true →
          s'.plain.lines.flatten = s'.saved := by
  obtain ⟨r, hr, hstart⟩ := edMain_holds garbage args
  refine ⟨r, hr, ?_⟩
  intro s hs hgood st hst
  obtain ⟨ps, a, hh, ha⟩ := hstart s hs
  obtain ⟨s', ps', a', hs', hh', hclean⟩ := Machine.states_of_moves
    (fun _ _ _ h hc => kept_step h hc) cs (some s)
    (show Kept (some s) from ⟨s, ps, a, rfl, hh, fun _ => (ha hargs).2⟩) hgood st hst
  refine ⟨s', hs', ?_, fun c s'' h hgo => hh'.quits hclean h hgo⟩
  rw [hh'.plain_eq]
  exact hclean

/-- `w f`. -/
def writing (target : Target) : Command := { typing [119, 32, 102, 10] [] with target }

/-- A line is appended and saved. -/
theorem session_saves_written :
    (Machine.states step (some (start fun _ => 0))
      [typing [97, 10] [[65, 10]], writing ⟨true, fun _ => true, true⟩]).Forall fun st =>
        ∃ s, st = some s ∧ (s.dirty = false → s.plain.lines.flatten = s.saved) ∧
          ∀ c s', doCommand s c = some (s', false) → goesOn c.confirm = true →
            s'.plain.lines.flatten = s'.saved := by
  obtain ⟨r, hr, h⟩ := session_saves (fun _ => 0) none
    [typing [97, 10] [[65, 10]], writing ⟨true, fun _ => true, true⟩] trivial
  obtain rfl : r = some (start fun _ => 0) := Option.some.inj hr.symm
  refine List.forall_iff_forall_mem.mpr (h _ rfl fun m hm => ?_)
  rw [Machine.moves_cons_of_some rfl, Machine.moves_cons_of_some rfl] at hm
  simp only [Machine.moves, List.mem_cons, List.not_mem_nil, or_false] at hm
  rcases hm with rfl | rfl
  · intro s _
    have hparse : parseAddresses Globals.view s (trimEnd [97, 10]) =
        some (s, some ⟨false, s.curNum, s.curNum, [97]⟩) := rfl
    exact ⟨.of_eq hparse fun _ _ _ => Or.inl (Int.lt_succ s.curNum), .of_eq hparse trivial⟩
  · intro s hs
    have hparse : parseAddresses Globals.view s (trimEnd [119, 32, 102, 10]) =
        some (s, some ⟨false, s.curNum, s.curNum, [119, 32, 102]⟩) := rfl
    have hne : s.plain.lines ≠ [] := by
      intro hnil
      have hlines := congrArg (Option.map fun s => s.plain.lines) hs
      change _ = some s.plain.lines at hlines
      rw [hnil] at hlines
      exact absurd hlines (by decide)
    exact ⟨.of_eq hparse trivial,
      .of_eq hparse fun _ _ _ _ => ⟨hne, rfl, fun _ _ => rfl, rfl⟩⟩

/-- **A write that fails makes ed forget** that a line has not been saved. -/
theorem forgotten : ∃ st ∈ Machine.states step (some (start fun _ => 0))
      [typing [97, 10] [[65, 10]], writing ⟨false, fun _ => true, true⟩],
    st.map (fun s => (s.dirty, s.plain.lines.flatten, s.saved)) = some (false, [65, 10], []) :=
  ⟨_, List.getLast_mem (by decide), by decide⟩

end Rustybox.Ed
