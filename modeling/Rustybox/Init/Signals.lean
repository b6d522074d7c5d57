import Rustybox.Init.Blocking

/-!
# Signals that come too late

A handler only sets a flag.  The flags are looked at in `check_delayed_sigs`, three
times a round, and when one of them is found set the round goes on with `WNOHANG`
and so comes to its end.  A flag that is set after the third look waits for the next
round, and that is no further away than the `waitpid` in between.

If that call blocks, the flag waits with it.  The handlers are installed with
`SA_RESTART`, so a signal that arrives in the call does not end it either.  `lastLook`
is the window: it opens with the third look and closes with the blocking call, and a
step is `Late` if it leaves a flag set there that nobody is going to look at.  Without
such a step every signal is acted on in time, and after one `init` can always go on to
sleep (`prompt_of_not_late`).
-/

namespace Rustybox.Init

open State

variable {s s' : State} {l : Label}

theorem Sig.mem_all (sig : Sig) : sig ∈ Sig.all := by cases sig <;> decide

/-- On the way to a blocking `waitpid` or in it: the flags that are still looked at
before the call. -/
def Ctrl.lastLook : Ctrl → Option (List Sig)
  | .check .third todo false => some todo
  | .drain false | .waiting => some []
  | _ => none

theorem Ctrl.lastLook_cases {ctrl : Ctrl} {todo : List Sig} (h : todo ∈ ctrl.lastLook) :
    ctrl = .check .third todo false ∨ todo = [] ∧ (ctrl = .drain false ∨ ctrl = .waiting) := by
  rw [Ctrl.lastLook.eq_def] at h
  split at h
  · exact Or.inl (by rw [Option.some.inj h])
  · exact Or.inr ⟨(Option.some.inj h).symm, Or.inl rfl⟩
  · exact Or.inr ⟨(Option.some.inj h).symm, Or.inr rfl⟩
  · cases h

namespace State

/-- The state after the handler of `sig`. -/
def notified (s : State) (sig : Sig) : State :=
  { s with pending := Function.update s.pending sig true }

/-- No flag is set. -/
def Quiet (s : State) : Prop := ∀ sig, s.pending sig = false

/-- While the main loop is blocked no flag is set. -/
def Prompt (s : State) : Prop := s.ctrl = .waiting → s.Quiet

/-- A signal arrives after the last look at its flag, and no other flag is going to
keep the main loop from blocking.  Without children it does not block, unless then an
orphan arrives. -/
def Late (s : State) : Label → Prop
  | .signal sig => s.children ≠ [] ∧
      ∃ todo ∈ s.ctrl.lastLook, sig ∉ todo ∧ ∀ other ∈ todo, s.pending other = false
  | .adopt _ => s.children = [] ∧ ¬ s.Quiet ∧
      ∃ todo ∈ s.ctrl.lastLook, ∀ other ∈ todo, s.pending other = false
  | _ => False

/-- From the third look at the flags to the end of the blocking call, a flag that is
set is one that will be found.  Without children the call does not block. -/
def Watched (s : State) : Prop :=
  (s.ctrl = .waiting → s.children ≠ []) ∧
    ∀ todo ∈ s.ctrl.lastLook, s.children ≠ [] → (∀ sig ∈ todo, s.pending sig = false) → s.Quiet

instance (s : State) : Decidable s.Quiet :=
  decidable_of_iff (∀ sig ∈ Sig.all, s.pending sig = false)
    ⟨fun h sig => h sig sig.mem_all, fun h sig _ => h sig⟩

instance (s : State) : Decidable s.Prompt :=
  inferInstanceAs (Decidable (s.ctrl = .waiting → s.Quiet))

instance (s : State) : DecidablePred s.Late
  | .signal sig => inferInstanceAs (Decidable (s.children ≠ [] ∧
      ∃ todo ∈ s.ctrl.lastLook, sig ∉ todo ∧ ∀ other ∈ todo, s.pending other = false))
  | .adopt _ => inferInstanceAs (Decidable (s.children = [] ∧ ¬ s.Quiet ∧
      ∃ todo ∈ s.ctrl.lastLook, ∀ other ∈ todo, s.pending other = false))
  | .exit _ | .reap _ | .tau | .fork _ | .stillAlive | .echild | .readInittab _
  | .execvp _ => instDecidableFalse

end State

theorem notified_pending_self (s : State) (sig : Sig) : (s.notified sig).pending sig = true := by
  simp [notified]

theorem notified_pending_of_ne {sig other : Sig} (h : other ≠ sig) :
    (s.notified sig).pending other = s.pending other := by
  simp [notified, h]

theorem step_signal (sig : Sig) (h : handlersInstalled s.ctrl = true) :
    step s (.signal sig) = some (s.notified sig) := by
  simp [step, h, notified]

/-- A control point from which the loop does not block next. -/
theorem watched_of_lastLook (h : s.ctrl.lastLook = none) : s.Watched := by
  refine ⟨fun hctrl => ?_, fun todo htodo => ?_⟩
  · rw [hctrl] at h
    cases h
  · rw [h] at htodo
    cases htodo

theorem watched_congr (hw : s.Watched) (hctrl : s'.ctrl = s.ctrl)
    (hpending : s'.pending = s.pending) (hchildren : s'.children = [] ↔ s.children = []) :
    s'.Watched := by
  unfold Watched Quiet at hw ⊢
  rw [hctrl, hpending, Ne, hchildren]
  exact hw

/-- A signal outside the window is found before the call, or the call does not block. -/
theorem watched_signal {sig : Sig} (hlate : ¬ s.Late (.signal sig)) (hw : s.Watched) :
    (s.notified sig).Watched := by
  refine ⟨hw.1, fun todo htodo hne hunset => absurd ⟨hne, todo, htodo, ?_, ?_⟩ hlate⟩
  · intro hmem
    cases (notified_pending_self s sig).symm.trans (hunset sig hmem)
  · intro other hother
    rw [← hunset other hother, notified_pending_of_ne]
    rintro rfl
    cases (notified_pending_self s other).symm.trans (hunset other hother)

theorem watched_step (h : step s l = some s') (hlate : ¬ s.Late l) (hw : s.Watched) :
    s'.Watched := by
  cases step_transition h with
  | exit => exact watched_congr hw rfl rfl List.map_eq_nil_iff
  | adopt =>
    refine ⟨fun _ => List.cons_ne_nil _ _, fun todo htodo _ hunset => ?_⟩
    by_cases hnil : s.children = []
    · by_contra hquiet
      exact hlate ⟨hnil, hquiet, todo, htodo, hunset⟩
    · exact hw.2 todo htodo hnil hunset
  | signal =>
    rw [interrupted_saFlags]
    exact watched_signal hlate hw
  | ignored => exact hw
  | @done _ _ caller =>
    rcases caller with (_ | _) | _ | ⟨_ | _ | _, _⟩ | _ | _ <;> exact watched_of_lastLook rfl
  | fork =>
    refine watched_of_lastLook ?_
    dsimp only
    split <;> rfl
  | waitedFor hctrl =>
    refine watched_of_lastLook ?_
    rw [hctrl]
    dsimp only
    split <;> rfl
  | @checked c any hctrl =>
    rcases c with _ | _ | _ <;> cases any
    case third.false =>
      refine ⟨nofun, fun todo htodo => ?_⟩
      cases htodo
      exact hw.2 [] (by rw [hctrl]; rfl)
    all_goals exact watched_of_lastLook rfl
  | @unset c sig todo any hctrl hunset =>
    rcases c with _ | _ | _ <;> cases any
    case third.false =>
      refine ⟨nofun, fun todo' htodo' hne htodo => ?_⟩
      cases htodo'
      exact hw.2 (sig :: todo) (by rw [hctrl]; rfl) hne (List.forall_mem_cons.mpr ⟨hunset, htodo⟩)
    all_goals exact watched_of_lastLook rfl
  | @reload c => rcases c with _ | _ | _ <;> exact watched_of_lastLook rfl
  | wake =>
    -- the third look begins, and all flags are still to come
    refine ⟨nofun, fun todo htodo _ hunset sig => ?_⟩
    cases htodo
    exact hunset sig sig.mem_all
  | mark hctrl =>
    rcases hctrl with ⟨_, rfl⟩ | ⟨hctrl, rfl⟩
    · exact watched_of_lastLook rfl
    · refine ⟨nofun, fun todo htodo _ => ?_⟩
      cases htodo
      exact hw.2 [] (by rw [hctrl]; rfl) (hw.1 hctrl)
  | block hctrl hchildren =>
    refine ⟨fun _ => hchildren, fun todo htodo => ?_⟩
    cases htodo
    exact hw.2 [] (by rw [hctrl]; rfl)
  | execRestart _ _ hctrl' =>
    rcases hctrl' with rfl | rfl | ⟨_, _, rfl⟩ <;> exact watched_of_lastLook rfl
  | _ => exact watched_of_lastLook rfl

theorem prompt_of_watched (hw : s.Watched) : s.Prompt := by
  intro hctrl
  exact hw.2 [] (by rw [hctrl]; rfl) (hw.1 hctrl) nofun

/-- Left to itself, `init` goes from the third look to the blocking call. -/
theorem check_reaches_waiting : ∀ (todo : List Sig) (s : State),
    s.ctrl = .check .third todo false → s.children ≠ [] →
    (∀ other ∈ todo, s.pending other = false) →
      ∃ t ∈ Machine.states step s (List.replicate (todo.length + 2) .tau),
        t.ctrl = .waiting ∧ t.pending = s.pending := by
  intro todo
  induction todo with
  | nil =>
    intro s hctrl hne _
    have hchecked : step s .tau = some { s with ctrl := .drain false } := by
      simp [step, stepInit, hctrl, stepCheck, afterCheck]
    have hblock : step { s with ctrl := .drain false } .tau = some { s with ctrl := .waiting } := by
      simp [step, stepInit, stepDrain, hne]
    rw [List.length_nil, List.replicate_succ, List.replicate_succ,
      Machine.states_cons_of_some hchecked, Machine.states_cons_of_some hblock]
    exact ⟨{ s with ctrl := .waiting }, by simp [Machine.states], rfl, rfl⟩
  | cons head todo ih =>
    intro s hctrl hne hunset
    obtain ⟨hhead, htodo⟩ := List.forall_mem_cons.mp hunset
    have hstep : step s .tau = some { s with ctrl := .check .third todo false } := by
      simp [step, stepInit, hctrl, stepCheck, hhead]
    obtain ⟨t, ht, hwaiting⟩ := ih { s with ctrl := .check .third todo false } rfl hne htodo
    rw [List.length_cons, Nat.add_right_comm, List.replicate_succ,
      Machine.states_cons_of_some hstep]
    exact ⟨t, List.mem_cons_of_mem _ ht, hwaiting⟩

theorem reaches_waiting {todo : List Sig} (htodo : todo ∈ s.ctrl.lastLook) (hne : s.children ≠ [])
    (hunset : ∀ other ∈ todo, s.pending other = false) :
    ∃ more, ∃ t ∈ Machine.states step s more, t.ctrl = .waiting ∧ t.pending = s.pending := by
  rcases Ctrl.lastLook_cases htodo with hctrl | ⟨-, hctrl | hctrl⟩
  · exact ⟨_, check_reaches_waiting todo s hctrl hne hunset⟩
  · have hblock : step s .tau = some { s with ctrl := .waiting } := by
      simp [step, stepInit, hctrl, stepDrain, hne]
    refine ⟨[.tau], { s with ctrl := .waiting }, ?_, rfl, rfl⟩
    rw [Machine.states_cons_of_some hblock]
    exact List.mem_cons_of_mem _ (Machine.self_mem_states step _ [])
  · exact ⟨[], s, Machine.self_mem_states step s [], hctrl, rfl⟩

theorem handlersInstalled_of_lastLook {ctrl : Ctrl} {todo : List Sig}
    (h : todo ∈ ctrl.lastLook) : handlersInstalled ctrl = true := by
  rcases Ctrl.lastLook_cases h with rfl | ⟨-, rfl | rfl⟩ <;> rfl

theorem step_of_late (h : s.Late l) : ∃ s' todo, step s l = some s' ∧ todo ∈ s'.ctrl.lastLook ∧
    s'.children ≠ [] ∧ (∀ other ∈ todo, s'.pending other = false) ∧ ¬ s'.Quiet := by
  cases l with
  | signal sig =>
    obtain ⟨hne, todo, htodo, hmem, hunset⟩ := h
    refine ⟨s.notified sig, todo, step_signal sig (handlersInstalled_of_lastLook htodo), htodo,
      hne, ?_, ?_⟩
    · intro other hother
      have hother_ne : other ≠ sig := fun h => hmem (h ▸ hother)
      rw [notified_pending_of_ne hother_ne]
      exact hunset other hother
    · intro hquiet
      cases (notified_pending_self s sig).symm.trans (hquiet sig)
  | adopt p =>
    obtain ⟨hnil, hquiet, todo, htodo, hunset⟩ := h
    have hfresh : s.Fresh p := by
      intro c hc
      rw [hnil] at hc
      cases hc
    exact ⟨{ s with children := s.withChild p none }, todo, if_pos hfresh, htodo,
      List.cons_ne_nil _ _, hunset, hquiet⟩
  | _ => exact h.elim

theorem blocks_unheard_of_late (h : s.Late l) :
    ∃ more, ∃ t ∈ Machine.states step s (l :: more), ¬ t.Prompt := by
  obtain ⟨s', todo, hstep, htodo, hne, hunset, hquiet⟩ := step_of_late h
  obtain ⟨more, t, ht, hctrl, hpending⟩ := reaches_waiting htodo hne hunset
  refine ⟨more, t, ?_, fun hprompt => hquiet ?_⟩
  · rw [Machine.states_cons_of_some hstep]
    exact List.mem_cons_of_mem _ ht
  · have hquiet' := hprompt hctrl
    rwa [Quiet, hpending] at hquiet'

/-- **A signal is acted on before the main loop blocks**, in every run without a late
step; and after every late step `init` can go on to block with a flag set. -/
theorem prompt_of_not_late (runlevel : String) (content : Option String) (labels : List Label)
    (hlate : ∀ m ∈ Machine.moves step (boot runlevel content) labels, ¬ m.1.Late m.2) :
    ∀ s ∈ Machine.states step (boot runlevel content) labels,
      s.Prompt ∧ ∀ l, s.Late l → ∃ more, ∃ t ∈ Machine.states step s (l :: more), ¬ t.Prompt := by
  intro s hs
  have hwatched := Machine.states_of_moves (I := Watched) (G := fun s l => ¬ s.Late l)
    (fun s l s' h hlate hw => watched_step h hlate hw) labels (boot runlevel content)
    (watched_of_lastLook rfl) hlate s hs
  exact ⟨prompt_of_watched hwatched, fun l h => blocks_unheard_of_late h⟩

/-- `SIGTERM` arrives while the main loop is blocked, and nothing comes of it. -/
theorem sigterm_left_pending :
    ¬ ∀ s ∈ Machine.states step twoGettys.1 (twoGettys.2 ++ [.signal .term]), s.Prompt := by
  decide

/-- The same signal a moment earlier, during the second's sleep, is in time. -/
theorem prompt_sigterm_in_sleep :
    (∀ s ∈ Machine.states step twoGettys.1 (twoGettys.2.take 26 ++ [.signal .term]), s.Prompt) ∧
      ∃ m ∈ Machine.moves step twoGettys.1 (twoGettys.2.take 26 ++ [.signal .term]),
        m.1.ctrl = .sleep ∧ m.1.children ≠ [] := by
  refine ⟨fun s hs => (prompt_of_not_late _ _ _ ?_ s hs).1, by decide⟩
  decide

end Rustybox.Init
