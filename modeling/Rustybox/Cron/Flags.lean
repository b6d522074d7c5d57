import Mathlib.Algebra.Order.Group.Abs
import Mathlib.Algebra.Order.Ring.Int
import Mathlib.Data.List.Nodup
import Mathlib.Tactic.Common
import Rustybox.Lib.Machine
import Rustybox.Cron.Crond

/-!
# Every minute is flagged once

The loop of `flag_starting_jobs` runs over the minutes of `(t1, t2]` (`mem_minutes`), and a
wake-up flags an idle line for the earliest of them it is due in (`wakeUp_line`).  What has run
before is nowhere remembered but in `t2`, which a backward jump of the clock sets back, and a line
whose last job has not been waited for is not flagged.  So a run flags every minute once exactly
when its wake-ups pass a minute again where another one is flagged, or none can be, and only there.
-/

namespace Rustybox.Cron

/-! ### Minutes -/

/-- The minutes that `flagLoop` flags jobs for. -/
def minutesFrom (t1 t2 : ℤ) : ℕ → ℤ → List ℤ
  | 0, _ => []
  | n + 1, t =>
    if t ≤ t2 then (if t ≤ t1 then [] else [t]) ++ minutesFrom t1 t2 n (t + 60) else []

/-- The minutes that `flagStartingJobs` flags jobs for. -/
def minutes (t1 t2 : ℤ) : List ℤ :=
  minutesFrom t1 t2 ((t2 - (t1 - t1.tmod 60)) / 60 + 1).toNat (t1 - t1.tmod 60)

variable {localtime : ℤ → Tm} {t1 t2 : ℤ}

theorem mem_minutesFrom : ∀ (n : ℕ) (t m : ℤ), m ∈ minutesFrom t1 t2 n t ↔
    ∃ k : ℕ, k < n ∧ m = t + 60 * k ∧ t1 < m ∧ m ≤ t2 := by
  intro n
  induction n with
  | zero => intro t m; simp [minutesFrom]
  | succ n ih =>
    intro t m
    rw [minutesFrom]
    by_cases ht : t ≤ t2
    · rw [if_pos ht, List.mem_append, ih]
      constructor
      · rintro (h | ⟨k, hk, hm, hlt, hle⟩)
        · by_cases ht1 : t ≤ t1
          · rw [if_pos ht1] at h
            cases h
          · rw [if_neg ht1, List.mem_singleton] at h
            exact ⟨0, by omega, by omega, by omega, by omega⟩
        · exact ⟨k + 1, by omega, by push_cast; omega, hlt, hle⟩
      · rintro ⟨k, hk, hm, hlt, hle⟩
        cases k with
        | zero =>
          have hmt : m = t := by simpa using hm
          left
          rw [if_neg (by omega), List.mem_singleton]
          exact hmt
        | succ k => exact Or.inr ⟨k, by omega, by push_cast at hm; omega, hlt, hle⟩
    · rw [if_neg ht]
      constructor
      · intro h
        cases h
      · rintro ⟨k, -, hm, -, hle⟩
        omega

/-- **The loop runs over the minutes > `t1` and <= `t2`.** -/
theorem mem_minutes {m : ℤ} : m ∈ minutes t1 t2 ↔ 60 ∣ m ∧ t1 < m ∧ m ≤ t2 := by
  have hdiv := Int.mul_tdiv_add_tmod t1 60
  have hlt := Int.tmod_lt_of_pos t1 (show (0 : ℤ) < 60 by decide)
  have hgt := Int.lt_tmod_of_pos t1 (show (0 : ℤ) < 60 by decide)
  rw [minutes, mem_minutesFrom]
  constructor
  · rintro ⟨k, -, hm, h1, h2⟩
    exact ⟨by omega, h1, h2⟩
  · rintro ⟨⟨q, rfl⟩, h1, h2⟩
    -- the loop starts less than a minute after `t1`, so no later than the first of them
    refine ⟨(q - t1.tdiv 60).toNat, ?_, ?_, h1, h2⟩ <;> omega

theorem pairwise_minutesFrom :
    ∀ (n : ℕ) (t : ℤ), (minutesFrom t1 t2 n t).Pairwise (· < ·) := by
  intro n
  induction n with
  | zero => intro t; exact List.Pairwise.nil
  | succ n ih =>
    intro t
    rw [minutesFrom]
    by_cases ht : t ≤ t2
    · rw [if_pos ht]
      by_cases ht1 : t ≤ t1
      · rw [if_pos ht1]
        exact ih _
      · rw [if_neg ht1, List.singleton_append, List.pairwise_cons]
        refine ⟨?_, ih _⟩
        intro m hm
        obtain ⟨k, -, hm, -, -⟩ := (mem_minutesFrom _ _ _).mp hm
        omega
    · rw [if_neg ht]
      exact List.Pairwise.nil

theorem flagLoop_eq : ∀ (n : ℕ) (t : ℤ) (files : List CronFile),
    flagLoop localtime t1 t2 n t files =
      files.map fun f =>
        (minutesFrom t1 t2 n t).foldl (fun f m => flagFile (localtime m) m f) f := by
  intro n
  induction n with
  | zero =>
    intro t files
    exact (List.map_id files).symm
  | succ n ih =>
    intro t files
    rw [flagLoop, minutesFrom]
    by_cases ht : t ≤ t2
    · rw [if_pos ht, if_pos ht, ih]
      by_cases ht1 : t ≤ t1
      · rw [if_pos ht1, if_pos ht1]
        rfl
      · rw [if_neg ht1, if_neg ht1, List.map_map]
        rfl
    · rw [if_neg ht, if_neg ht]
      exact (List.map_id files).symm

/-! ### A line -/

/-- What the loop does to one line. -/
def flagMinutes (localtime : ℤ → Tm) (ms : List ℤ) (l : CronLine) : CronLine :=
  ms.foldl (fun l m => flagLine (localtime m) m l) l

theorem flagLine_eq_self {tm : Tm} {t : ℤ} {l : CronLine} (h0 : l.pid ≠ 0) :
    flagLine tm t l = l := by
  unfold flagLine
  by_cases hdue : l.due tm
  · rw [if_pos hdue, if_neg h0, ite_self]
  · rw [if_neg hdue]

theorem flagMinutes_eq_self {ms : List ℤ} {l : CronLine} (h0 : l.pid ≠ 0) :
    flagMinutes localtime ms l = l := by
  induction ms with
  | nil => rfl
  | cons m ms ih => rw [flagMinutes, List.foldl_cons, flagLine_eq_self h0]; exact ih

variable (localtime) in
/-- A line without a job is flagged for the first minute it is due in. -/
theorem flagMinutes_idle {l : CronLine} (h : l.pid = 0) : ∀ ms : List ℤ,
    (flagMinutes localtime ms l).toFields = l.toFields ∧
      ((flagMinutes localtime ms l).pid = 0 ∨ (flagMinutes localtime ms l).pid = -1) ∧
      (flagMinutes localtime ms l).flagged =
        (ms.find? fun m => l.due (localtime m)).toList ++ l.flagged := by
  intro ms
  induction ms with
  | nil => exact ⟨rfl, Or.inl h, rfl⟩
  | cons m ms ih =>
    rw [flagMinutes, List.foldl_cons, ← flagMinutes]
    by_cases hdue : l.due (localtime m)
    · have hline : flagLine (localtime m) m l = { l with pid := -1, flagged := m :: l.flagged } := by
        rw [flagLine, if_pos hdue, if_neg (by omega), if_pos h]
      have hfind : (m :: ms).find? (fun m => l.due (localtime m)) = some m :=
        List.find?_cons_of_pos (p := fun m => l.due (localtime m)) hdue
      rw [hline, flagMinutes_eq_self (show (-1 : ℤ) ≠ 0 by decide), hfind]
      exact ⟨rfl, Or.inr rfl, rfl⟩
    · have hline : flagLine (localtime m) m l = l := by rw [flagLine, if_neg hdue]
      have hfind : (m :: ms).find? (fun m => l.due (localtime m)) =
          ms.find? fun m => l.due (localtime m) :=
        List.find?_cons_of_neg (p := fun m => l.due (localtime m)) hdue
      rw [hline, hfind]
      exact ih

/-- The line is to be started at reboot only, or has no job, or has one that is not waited for. -/
def Settled (l : CronLine) : Prop := l.pid = -2 ∨ 0 ≤ l.pid

/-- What `start_jobs` and `check_completions` leave as it is. -/
structure Kept (l l' : CronLine) : Prop where
  fields : l'.toFields = l.toFields
  flagged : l'.flagged = l.flagged
  reboot : l'.pid = -2 ↔ l.pid = -2
  settled : Settled l → Settled l'

theorem Kept.refl (l : CronLine) : Kept l l := ⟨rfl, rfl, Iff.rfl, id⟩

theorem Kept.trans {l l' l'' : CronLine} (h : Kept l l') (h' : Kept l' l'') : Kept l l'' :=
  ⟨h'.fields.trans h.fields, h'.flagged.trans h.flagged, h'.reboot.trans h.reboot,
    fun hl => h'.settled (h.settled hl)⟩

theorem kept_startOneJob (a : LineAnswers) {l : CronLine} (h : l.pid = -1) :
    Kept l (startOneJob a l) := by
  have hpid : (startOneJob a l).pid = a.pid := rfl
  exact ⟨rfl, rfl, by omega, fun _ => Or.inr (by omega)⟩

theorem kept_checkLine (a : LineAnswers) (l : CronLine) : Kept l (checkLine a l) := by
  have hzero {e : ℤ} (hpid : ¬l.pid ≤ 0) {p : ℤ} (hp : 0 ≤ p) :
      Kept l { l with pid := p, emptyMailSize := e } :=
    ⟨rfl, rfl, ⟨fun h => absurd (show p = -2 from h) (by omega), fun h => by omega⟩,
      fun _ => Or.inr hp⟩
  unfold checkLine
  by_cases hpid : l.pid ≤ 0
  · rw [if_pos hpid]
    exact Kept.refl l
  · rw [if_neg hpid]
    by_cases hfin : a.finished
    · rw [if_pos hfin, processFinishedJob, if_neg hpid]
      by_cases hmail : l.emptyMailSize ≤ 0
      · rw [if_pos hmail]
        exact hzero hpid (Int.le_refl 0)
      · rw [if_neg hmail]
        cases a.sendmail with
        | none => exact hzero hpid (Int.le_refl 0)
        | some pid => exact hzero hpid (Int.natCast_nonneg pid)
    · rw [if_neg hfin]
      exact Kept.refl l

/-! ### A file -/

/-- The file knows of the lines that are to be started. -/
def Wanting (f : CronFile) : Prop := ∀ l ∈ f.lines, l.pid = -1 → f.wantsStarting = true

theorem flagLine_pid {tm : Tm} {t : ℤ} {l : CronLine} (h : (flagLine tm t l).pid = -1) :
    l.pid = -1 ∨ flags tm l = true := by
  unfold flagLine at h
  by_cases hdue : l.due tm
  · by_cases h0 : l.pid = 0
    · right
      simp only [flags, hdue, h0, decide_true, Bool.and_self]
    · left
      rw [if_pos hdue, if_neg h0, ite_self] at h
      exact h
  · rw [if_neg hdue] at h
    exact Or.inl h

variable (localtime) in
theorem foldl_flagFile : ∀ (ms : List ℤ) (f : CronFile), f.deleted = false → Wanting f →
    let f' := ms.foldl (fun f m => flagFile (localtime m) m f) f
    f'.deleted = false ∧ Wanting f' ∧ f'.lines = f.lines.map (flagMinutes localtime ms) := by
  intro ms
  induction ms with
  | nil => intro f hdel hw; exact ⟨hdel, hw, (List.map_id f.lines).symm⟩
  | cons m ms ih =>
    intro f hdel hw
    have hstep : flagFile (localtime m) m f =
        { f with
          lines := f.lines.map (flagLine (localtime m) m)
          wantsStarting := f.wantsStarting || f.lines.any (flags (localtime m)) } := by
      rw [flagFile, hdel]
      rfl
    have hw' : Wanting (flagFile (localtime m) m f) := by
      rw [hstep]
      intro l hl hpid
      obtain ⟨l₀, hl₀, rfl⟩ := List.mem_map.mp hl
      rcases flagLine_pid hpid with h | h
      · exact Bool.or_eq_true_iff.mpr (Or.inl (hw l₀ hl₀ h))
      · exact Bool.or_eq_true_iff.mpr (Or.inr (List.any_eq_true.mpr ⟨l₀, hl₀, h⟩))
    obtain ⟨hdel'', hw'', hlines⟩ := ih (flagFile (localtime m) m f) (by rw [hstep]; exact hdel) hw'
    refine ⟨hdel'', hw'', hlines.trans ?_⟩
    rw [hstep, List.map_map]
    rfl

/-- Lines of the two files correspond. -/
def KeptLines (f f' : CronFile) : Prop :=
  f'.deleted = f.deleted ∧ f'.lines.length = f.lines.length ∧
    ∀ (j : ℕ) (l : CronLine), f.lines[j]? = some l → ∃ l', f'.lines[j]? = some l' ∧ Kept l l'

theorem keptLines_startFile (answers : ℕ → LineAnswers) (f : CronFile) :
    KeptLines f (startFile (-1) answers f) := by
  unfold startFile
  by_cases hw : f.wantsStarting
  · rw [if_pos hw]
    refine ⟨rfl, List.length_mapIdx, ?_⟩
    intro j l hl
    refine ⟨_, by rw [List.getElem?_mapIdx, hl]; rfl, ?_⟩
    show Kept l (if l.pid = -1 then startOneJob (answers j) l else l)
    by_cases hpid : l.pid = -1
    · rw [if_pos hpid]
      exact kept_startOneJob (answers j) hpid
    · rw [if_neg hpid]
      exact Kept.refl l
  · rw [if_neg hw]
    exact ⟨rfl, rfl, fun j l hl => ⟨l, hl, Kept.refl l⟩⟩

/-- After `start_jobs` no line of the file waits to be started. -/
theorem settled_startFile (answers : ℕ → LineAnswers) {f : CronFile} (hw : Wanting f)
    (hl : ∀ l ∈ f.lines, l.pid = -1 ∨ Settled l) :
    ∀ l ∈ (startFile (-1) answers f).lines, Settled l := by
  unfold startFile
  by_cases hwant : f.wantsStarting
  · rw [if_pos hwant]
    intro l' hl'
    obtain ⟨j, hj, rfl⟩ := List.mem_mapIdx.mp hl'
    by_cases hpid : f.lines[j].pid = -1
    · rw [if_pos hpid]
      exact Or.inr (Int.natCast_nonneg _)
    · rw [if_neg hpid]
      exact (hl _ (List.getElem_mem hj)).resolve_left hpid
  · rw [if_neg hwant]
    exact fun l hmem => (hl l hmem).resolve_left fun h => hwant (hw l hmem h)

theorem keptLines_checkFile (answers : ℕ → LineAnswers) (f : CronFile) :
    KeptLines f (checkFile answers f) := by
  unfold checkFile
  by_cases hr : f.hasRunning
  · rw [if_pos hr]
    refine ⟨rfl, List.length_mapIdx, ?_⟩
    intro j l hl
    exact ⟨_, by rw [List.getElem?_mapIdx, hl]; rfl, kept_checkLine (answers j) l⟩
  · rw [if_neg hr]
    exact ⟨rfl, rfl, fun j l hl => ⟨l, hl, Kept.refl l⟩⟩

theorem KeptLines.trans {f f' f'' : CronFile} (h : KeptLines f f') (h' : KeptLines f' f'') :
    KeptLines f f'' := by
  refine ⟨h'.1.trans h.1, h'.2.1.trans h.2.1, ?_⟩
  intro j l hl
  obtain ⟨l', hl', hk⟩ := h.2.2 j l hl
  obtain ⟨l'', hl'', hk'⟩ := h'.2.2 j l' hl'
  exact ⟨l'', hl'', hk.trans hk'⟩

/-- Every line of the second file comes from one of the first. -/
theorem KeptLines.settled {f f' : CronFile} (h : KeptLines f f')
    (hf : ∀ l ∈ f.lines, Settled l) : ∀ l ∈ f'.lines, Settled l := by
  intro l' hl'
  obtain ⟨j, hj, rfl⟩ := List.getElem_of_mem hl'
  have hj' : j < f.lines.length := h.2.1 ▸ hj
  obtain ⟨l'', hl'', hk⟩ := h.2.2 j _ (List.getElem?_eq_getElem hj')
  rw [List.getElem?_eq_getElem hj, Option.some.injEq] at hl''
  exact hl'' ▸ hk.settled (hf _ (List.getElem_mem hj'))

/-- What a wake-up makes of a file in use when it flags jobs for the minutes `ms`. -/
structure Woken (localtime : ℤ → Tm) (ms : List ℤ) (f f' : CronFile) : Prop where
  deleted : f'.deleted = false
  settled : ∀ l ∈ f'.lines, Settled l
  line : ∀ (j : ℕ) (l : CronLine), f.lines[j]? = some l → ∃ l', f'.lines[j]? = some l' ∧
    l'.toFields = l.toFields ∧ (l'.pid = -2 ↔ l.pid = -2) ∧
    l'.flagged =
      (if l.pid = 0 then (ms.find? fun m => l.due (localtime m)).toList else []) ++ l.flagged

variable (localtime) in
/-- **A wake-up flags an idle line for the first minute it is due in.** -/
theorem woken (answers : ℕ → LineAnswers) (ms : List ℤ) {f : CronFile}
    (hdel : f.deleted = false) (hset : ∀ l ∈ f.lines, Settled l) :
    Woken localtime ms f (checkFile answers (startFile (-1) answers
      (ms.foldl (fun f m => flagFile (localtime m) m f) f))) := by
  have hne {l : CronLine} (hl : l ∈ f.lines) : l.pid ≠ -1 := by
    rcases hset l hl with h | h <;> omega
  obtain ⟨hdel', hw, hlines⟩ := foldl_flagFile localtime ms f hdel
    fun l hl h => absurd h (hne hl)
  have hkept := (keptLines_startFile answers
    (ms.foldl (fun f m => flagFile (localtime m) m f) f)).trans (keptLines_checkFile answers _)
  refine ⟨hkept.1.trans hdel', ?_, ?_⟩
  · refine (keptLines_checkFile answers _).settled (settled_startFile answers hw ?_)
    rw [hlines]
    intro l' hl'
    obtain ⟨l, hl, rfl⟩ := List.mem_map.mp hl'
    by_cases h0 : l.pid = 0
    · rcases (flagMinutes_idle localtime h0 ms).2.1 with h | h
      · exact Or.inr (Or.inr (by omega))
      · exact Or.inl h
    · rw [flagMinutes_eq_self h0]
      exact Or.inr (hset l hl)
  · intro j l hl
    obtain ⟨l', hl', hk⟩ := hkept.2.2 j (flagMinutes localtime ms l)
      (by rw [hlines, List.getElem?_map, hl]; rfl)
    refine ⟨l', hl', ?_⟩
    rw [hk.fields, hk.flagged, hk.reboot]
    by_cases h0 : l.pid = 0
    · obtain ⟨hfields, hpid, hflagged⟩ := flagMinutes_idle localtime h0 ms
      rw [if_pos h0]
      exact ⟨hfields, by omega, hflagged⟩
    · rw [flagMinutes_eq_self h0, if_neg h0]
      exact ⟨rfl, Iff.rfl, rfl⟩

/-! ### A run -/

def Crond.line (s : Crond) (i j : ℕ) : Option CronLine := do
  let f ← s.files[i]?
  f.lines[j]?

/-- The clock has passed the minute `m` in a wake-up that ran jobs. -/
def Crond.Passed (s : Crond) (m : ℤ) : Prop := ∃ I ∈ s.passed, I.1 < m ∧ m ≤ I.2

instance (s : Crond) (m : ℤ) : Decidable (s.Passed m) :=
  inferInstanceAs (Decidable (∃ I ∈ s.passed, I.1 < m ∧ m ≤ I.2))

/-- The minute `m` matches the line. -/
def Matches (localtime : ℤ → Tm) (l : CronLine) (m : ℤ) : Prop :=
  60 ∣ m ∧ l.due (localtime m) = true

instance (l : CronLine) (m : ℤ) : Decidable (Matches localtime l m) :=
  inferInstanceAs (Decidable (_ ∧ _))

/-- The line is flagged once for each matching minute that the clock has passed, and for no
other. -/
def FlaggedOnce (localtime : ℤ → Tm) (i j : ℕ) (s : Crond) : Prop :=
  ∀ l, s.line i j = some l →
    ∀ m, l.flagged.count m = if Matches localtime l m ∧ s.Passed m then 1 else 0

/-- The line `j` of the file `i` is in use, and no line of the file waits to be started.  A
`@reboot` line matches no time. -/
def InUse (localtime : ℤ → Tm) (i j : ℕ) (s : Crond) : Prop :=
  ∃ f l, s.files[i]? = some f ∧ f.deleted = false ∧ (∀ l ∈ f.lines, Settled l) ∧
    f.lines[j]? = some l ∧ (l.pid = -2 → ∀ m, l.due (localtime m) = false)

/-- crond when its loop starts. -/
def Started (localtime : ℤ → Tm) (i j : ℕ) (s : Crond) : Prop :=
  InUse localtime i j s ∧ s.passed = [] ∧ ∀ l, s.line i j = some l → l.flagged = []

/-- The wake-up passes a matching minute again where a child of the line is not waited for or an
earlier minute matches, and no matching minute again elsewhere. -/
def RunsOnce (localtime : ℤ → Tm) (i j : ℕ) (s : Crond) (w : WakeUp) : Prop :=
  ∀ l, s.line i j = some l → ∀ m, Matches localtime l m → s.t2 < m → m ≤ w.time →
    (s.Passed m ↔ 0 < l.pid ∨ ∃ m', Matches localtime l m' ∧ s.t2 < m' ∧ m' < m)

/-- The step function of the main loop. -/
def step (localtime : ℤ → Tm) (s : Crond) (w : WakeUp) : Option Crond := some (wakeUp localtime s w)

variable {i j : ℕ} {s s' : Crond} {w : WakeUp}

theorem line_eq_some {l : CronLine} :
    s.line i j = some l ↔ ∃ f, s.files[i]? = some f ∧ f.lines[j]? = some l := by
  rw [Crond.line, Option.bind_eq_bind, Option.bind_eq_some_iff]

theorem wakeUp_idle (h : w.time ≤ s.t2) : wakeUp localtime s w = { s with t2 := w.time } := by
  rw [wakeUp]
  by_cases hdt : w.time - s.t2 < -60 * 60 ∨ w.time - s.t2 > 60 * 60
  · rw [if_pos hdt]
  · rw [if_neg hdt, if_neg (by omega)]

variable (localtime) in
theorem wakeUp_files (h : s.t2 < w.time) (hdt : |w.time - s.t2| ≤ 3600) :
    (wakeUp localtime s w).passed = (s.t2, w.time) :: s.passed ∧
      ∀ i : ℕ, (wakeUp localtime s w).files[i]? = (s.files[i]?).map fun f =>
        checkFile (w.answers i) (startFile (-1) (w.answers i)
          ((minutes s.t2 w.time).foldl (fun f m => flagFile (localtime m) m f) f)) := by
  rw [abs_le] at hdt
  rw [wakeUp, if_neg (by omega), if_pos (by omega)]
  refine ⟨rfl, ?_⟩
  intro i
  show (checkCompletions w.answers (startJobs (-1) w.answers
    (flagStartingJobs localtime s.t2 w.time s.files)))[i]? = _
  rw [checkCompletions, startJobs, flagStartingJobs, flagLoop_eq, List.getElem?_mapIdx,
    List.getElem?_mapIdx, List.getElem?_map, Option.map_map, Option.map_map]
  rfl

variable (localtime) in
theorem wakeUp_line (h : s.t2 < w.time) (hdt : |w.time - s.t2| ≤ 3600)
    (hs : InUse localtime i j s) : InUse localtime i j (wakeUp localtime s w) ∧
      ∃ l l', s.line i j = some l ∧ (wakeUp localtime s w).line i j = some l' ∧
        l'.toFields = l.toFields ∧ l'.flagged = (if l.pid = 0 then
          ((minutes s.t2 w.time).find? fun m => l.due (localtime m)).toList else []) ++
          l.flagged := by
  obtain ⟨f, l, hf, hdel, hset, hl, hreboot⟩ := hs
  have hw := woken localtime (w.answers i) (minutes s.t2 w.time) hdel hset
  obtain ⟨l', hl', hfields, hpid, hflagged⟩ := hw.line j l hl
  have hf' := (wakeUp_files localtime h hdt).2 i
  rw [hf, Option.map_some] at hf'
  refine ⟨⟨_, l', hf', hw.deleted, hw.settled, hl', ?_⟩, l, l', line_eq_some.mpr ⟨f, hf, hl⟩,
    line_eq_some.mpr ⟨_, hf', hl'⟩, hfields, hflagged⟩
  rw [hpid, hfields]
  exact hreboot

/-- The minute that the line is flagged for in a wake-up is the earliest one. -/
theorem find?_minutes_iff {l : CronLine} {m : ℤ} :
    (minutes t1 t2).find? (fun m => l.due (localtime m)) = some m ↔
      (Matches localtime l m ∧ t1 < m ∧ m ≤ t2) ∧
        ¬∃ m', Matches localtime l m' ∧ t1 < m' ∧ m' < m := by
  have hsorted : (minutes t1 t2).Pairwise (· < ·) := pairwise_minutesFrom _ _
  rw [List.find?_eq_some_iff_append]
  constructor
  · rintro ⟨hdue, as, bs, heq, has⟩
    obtain ⟨hdiv, hlt, hle⟩ : 60 ∣ m ∧ t1 < m ∧ m ≤ t2 := by
      rw [← mem_minutes, heq]
      exact List.mem_append_right as List.mem_cons_self
    refine ⟨⟨⟨hdiv, hdue⟩, hlt, hle⟩, ?_⟩
    rintro ⟨m', ⟨hdiv', hdue'⟩, hlt', hm'⟩
    have hmem := mem_minutes.mpr ⟨hdiv', hlt', (hm'.trans_le hle).le⟩
    rw [heq, List.mem_append, List.mem_cons] at hmem
    rw [heq, List.pairwise_append, List.pairwise_cons] at hsorted
    rcases hmem with h | rfl | h
    · have hnot := has m' h
      rw [hdue'] at hnot
      cases hnot
    · exact lt_irrefl _ hm'
    · exact lt_asymm hm' (hsorted.2.1.1 m' h)
  · rintro ⟨⟨⟨hdiv, hdue⟩, hlt, hle⟩, hfirst⟩
    obtain ⟨as, bs, heq⟩ := List.append_of_mem (mem_minutes.mpr ⟨hdiv, hlt, hle⟩)
    refine ⟨hdue, as, bs, heq, fun a ha => ?_⟩
    obtain ⟨hdiv', hlt', -⟩ : 60 ∣ a ∧ t1 < a ∧ a ≤ t2 := by
      rw [← mem_minutes, heq]
      exact List.mem_append_left _ ha
    rw [heq, List.pairwise_append] at hsorted
    have hbefore := hsorted.2.2 a ha m List.mem_cons_self
    by_contra hdue'
    exact hfirst ⟨a, ⟨hdiv', by simpa using hdue'⟩, hlt', hbefore⟩

theorem inUse_wakeUp (hdt : |w.time - s.t2| ≤ 3600) (hs : InUse localtime i j s) :
    InUse localtime i j (wakeUp localtime s w) := by
  by_cases h : s.t2 < w.time
  · exact (wakeUp_line localtime h hdt hs).1
  · rw [wakeUp_idle (by omega)]
    exact hs

/-- How often the line is flagged for `m` after a wake-up that runs jobs, and when it should be
once. -/
theorem wakeUp_count (h : s.t2 < w.time) (hdt : |w.time - s.t2| ≤ 3600)
    (hs : InUse localtime i j s) : ∃ l l', s.line i j = some l ∧
      (wakeUp localtime s w).line i j = some l' ∧ l'.toFields = l.toFields ∧
      (∀ m, Matches localtime l m → 0 ≤ l.pid) ∧
      (∀ m, l'.flagged.count m = (if l.pid = 0 ∧
          (minutes s.t2 w.time).find? (fun m => l.due (localtime m)) = some m then 1 else 0) +
          l.flagged.count m) ∧
      ∀ m, (wakeUp localtime s w).Passed m ↔ (s.t2 < m ∧ m ≤ w.time) ∨ s.Passed m := by
  obtain ⟨-, l, l', hl, hl', hfields, hflagged⟩ := wakeUp_line localtime h hdt hs
  refine ⟨l, l', hl, hl', hfields, ?_, ?_, ?_⟩
  · obtain ⟨f, l₀, hf, -, hset, hl₀, hreboot⟩ := hs
    obtain rfl : l₀ = l := by
      have := line_eq_some.mpr ⟨f, hf, hl₀⟩
      rw [hl, Option.some.injEq] at this
      exact this.symm
    intro m hm
    refine (hset l₀ (List.mem_of_getElem? hl₀)).resolve_left fun hpid => ?_
    exact Bool.false_ne_true ((hreboot hpid m).symm.trans hm.2)
  · intro m
    rw [hflagged, List.count_append]
    by_cases h0 : l.pid = 0
    · rw [if_pos h0]
      cases (minutes s.t2 w.time).find? fun m => l.due (localtime m) with
      | none => simp
      | some m' => simp [h0, List.count_singleton]
    · rw [if_neg h0, if_neg (by tauto)]
      rfl
  · intro m
    rw [Crond.Passed, (wakeUp_files localtime h hdt).1]
    simp [Crond.Passed]

theorem matches_of_fields {l l' : CronLine} (h : l'.toFields = l.toFields) {m : ℤ} :
    Matches localtime l' m ↔ Matches localtime l m := by rw [Matches, Matches, h]

theorem flaggedOnce_idle (h : w.time ≤ s.t2) :
    FlaggedOnce localtime i j (wakeUp localtime s w) ↔ FlaggedOnce localtime i j s := by
  rw [wakeUp_idle h]
  exact Iff.rfl

/-- **A wake-up keeps what is flagged right exactly when it runs every minute once.** -/
theorem flaggedOnce_wakeUp_iff (hdt : |w.time - s.t2| ≤ 3600) (hs : InUse localtime i j s)
    (honce : FlaggedOnce localtime i j s) :
    FlaggedOnce localtime i j (wakeUp localtime s w) ↔ RunsOnce localtime i j s w := by
  by_cases h : s.t2 < w.time
  · obtain ⟨l, l', hl, hl', hfields, hpid, hcount, hpassed⟩ := wakeUp_count h hdt hs
    have hkey (m : ℤ) : (l'.flagged.count m =
        if Matches localtime l' m ∧ (wakeUp localtime s w).Passed m then 1 else 0) ↔
        (Matches localtime l m → s.t2 < m → m ≤ w.time →
          (s.Passed m ↔ 0 < l.pid ∨ ∃ m', Matches localtime l m' ∧ s.t2 < m' ∧ m' < m)) := by
      have hfirst := @find?_minutes_iff localtime s.t2 w.time l m
      rw [hcount, honce l hl]
      classical
      simp only [matches_of_fields hfields, hpassed, hfirst]
      by_cases hm : Matches localtime l m
      · have hpos := hpid m hm
        by_cases hin : s.t2 < m ∧ m ≤ w.time
        · by_cases hp : s.Passed m <;>
            by_cases h1 : ∃ m', Matches localtime l m' ∧ s.t2 < m' ∧ m' < m <;>
            by_cases h0 : l.pid = 0 <;> simp [hm, hin, hp, h0, h1] <;> omega
        · simp only [hin, and_false, false_and, if_false, Nat.zero_add, false_or, true_iff]
          exact fun _ h1 h2 => absurd ⟨h1, h2⟩ hin
      · simp only [hm, false_and, and_false, if_false, Nat.zero_add, true_iff]
        exact False.elim
    constructor
    · intro hP l₁ hl₁ m hm
      obtain rfl : l = l₁ := Option.some.inj (hl.symm.trans hl₁)
      exact (hkey m).mp (hP l' hl' m) hm
    · intro hG l₁ hl₁ m
      obtain rfl : l' = l₁ := Option.some.inj (hl'.symm.trans hl₁)
      exact (hkey m).mpr fun hm => hG l hl m hm
  · rw [flaggedOnce_idle (by omega)]
    exact iff_of_true honce fun _ _ m _ hlt hle => absurd (hlt.trans_le hle) h

theorem flaggedOnce_of_started (h : Started localtime i j s) : FlaggedOnce localtime i j s := by
  intro l hl m
  have hno : ¬s.Passed m := by
    rintro ⟨I, hI, -⟩
    rw [h.2.1] at hI
    cases hI
  rw [h.2.2 l hl, if_neg fun hp => hno hp.2]
  rfl

/-- **Every minute is flagged once exactly when every wake-up passes the right minutes again.**  The
clock may be read as often as one likes, and two readings in a row are at most an hour apart. -/
theorem flagged_once_iff (hs : Started localtime i j s) (ws : List WakeUp)
    (hws : ∀ m ∈ Machine.moves (step localtime) s ws, |m.2.time - m.1.t2| ≤ 3600) :
    (∀ t ∈ Machine.states (step localtime) s ws, FlaggedOnce localtime i j t) ↔
      ∀ m ∈ Machine.moves (step localtime) s ws, RunsOnce localtime i j m.1 m.2 := by
  refine Machine.states_iff_moves (J := InUse localtime i j)
    (A := fun s w => |w.time - s.t2| ≤ 3600) ?_ ?_ ?_ hs.1 (flaggedOnce_of_started hs) ws hws
  · intro s w s' h hdt hJ _
    obtain rfl := Option.some.inj h
    exact inUse_wakeUp hdt hJ
  · intro s w s' h hdt hJ hP hG
    obtain rfl := Option.some.inj h
    exact (flaggedOnce_wakeUp_iff hdt hJ hP).mpr hG
  · intro s w s' h hdt hJ hP hP'
    obtain rfl := Option.some.inj h
    exact (flaggedOnce_wakeUp_iff hdt hJ hP).mp hP'

/-! ### A line that is due two minutes past the hour -/

/-- The broken-down time of the first day of January 1970, in UTC. -/
def newYear (t : ℤ) : Tm where
  min := Fin.ofNat 60 (t / 60).toNat
  hour := Fin.ofNat 24 (t / 3600).toNat
  mday := 1
  mon := 0
  wday := 4

/-- `2 * * * *` -/
def twoPast : CronLine where
  dow := fun _ => true
  mons := fun _ => true
  hrs := fun _ => true
  days := fun _ => true
  mins := fun m => m == 2
  pid := 0
  emptyMailSize := 0
  flagged := []

/-- crond is started a minute past the hour. -/
def minutePast : Crond := ⟨60, [⟨[twoPast], false, false, false⟩], []⟩

/-- Every job is waited for in the wake-up that starts it. -/
def readings (times : List ℤ) : List WakeUp :=
  times.map fun time => ⟨time, fun _ _ => ⟨none, 5, true, none⟩⟩

theorem started_minutePast : Started newYear 0 0 minutePast := by
  refine ⟨⟨_, twoPast, rfl, rfl, ?_, rfl, fun h => absurd h (by decide)⟩, rfl, ?_⟩
  · intro l hl
    obtain rfl := List.mem_singleton.mp hl
    exact Or.inr (Int.le_refl 0)
  · intro l hl
    obtain rfl : twoPast = l := Option.some.inj hl
    rfl

/-- Half a minute back after the job was run, and it is run again: the next wake-up has forgotten
that the clock had passed the minute. -/
theorem flagged_again_after_jump_back :
    Started newYear 0 0 minutePast ∧
      (∀ m ∈ Machine.moves (step newYear) minutePast (readings [120, 90, 150]),
        |m.2.time - m.1.t2| ≤ 3600) ∧
      ¬∀ t ∈ Machine.states (step newYear) minutePast (readings [120, 90, 150]),
        FlaggedOnce newYear 0 0 t := by
  refine ⟨started_minutePast, by decide, ?_⟩
  intro h
  have hlast := h _ (List.getLast_mem (List.cons_ne_nil _ _)) _ rfl 120
  exact absurd hlast (by decide)

theorem flagged_once_iff_two_readings :
    (∀ t ∈ Machine.states (step newYear) minutePast (readings [120, 180]),
        FlaggedOnce newYear 0 0 t) ↔
      ∀ m ∈ Machine.moves (step newYear) minutePast (readings [120, 180]),
        RunsOnce newYear 0 0 m.1 m.2 :=
  flagged_once_iff started_minutePast _ (by decide)

end Rustybox.Cron
